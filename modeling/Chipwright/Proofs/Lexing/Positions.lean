import Chipwright.Proofs.Lexing.Tiles

/-!
# Where the tokens of a text start

Positions grow along a text, so each token starts after the one before it, and before the end of the
text.
-/
namespace Chipwright

namespace Position

variable {p q r : Position}

/-- The first position comes before the second one in a text. -/
def Before (p q : Position) : Prop := p.line < q.line ∨ p.line = q.line ∧ p.column < q.column

theorem Before.trans (hpq : p.Before q) (hqr : q.Before r) : p.Before r := by
  unfold Before at *
  omega

theorem Before.ne (h : p.Before q) : p ≠ q := by
  rintro rfl
  unfold Before at h
  omega

theorem Before.line_le (h : p.Before q) : p.line ≤ q.line := by
  unfold Before at h
  omega

theorem before_next (p : Position) (c : Char) : p.Before (p.next c) := by
  unfold next
  split
  · exact Or.inl (Nat.lt_succ_self _)
  · exact Or.inr ⟨rfl, Nat.lt_succ_self _⟩

theorem before_after (p : Position) {cs : List Char} (h : cs ≠ []) : p.Before (p.after cs) := by
  induction cs generalizing p with
  | nil => exact absurd rfl h
  | cons c cs ih =>
    rw [after_cons]
    by_cases hcs : cs = []
    · subst hcs
      exact before_next p c
    · exact (before_next p c).trans (ih (p.next c) hcs)

theorem eq_or_before_after (p : Position) (cs : List Char) :
    p.after cs = p ∨ p.Before (p.after cs) := by
  by_cases h : cs = []
  · exact Or.inl (by rw [h, after_nil])
  · exact Or.inr (before_after p h)

/-- Lines are counted by newlines. -/
theorem line_after (p : Position) (cs : List Char) :
    (p.after cs).line = p.line + cs.count '\n' := by
  induction cs generalizing p with
  | nil => rfl
  | cons c cs ih =>
    rw [after_cons, ih, next, List.count_cons]
    by_cases hc : c = '\n'
    · simp [hc]
      omega
    · simp [hc]

theorem Before.before_after (h : p.Before q) (cs : List Char) : p.Before (q.after cs) := by
  rcases eq_or_before_after q cs with heq | hbefore
  · rwa [heq]
  · exact h.trans hbefore

end Position

namespace Lexer

variable {pos : Position}

variable {cs : List Char} {tiles : List Tile}

theorem Spells.text_ne_nil {kind : TokenKind} {text rest : List Char} (h : Spells kind text rest) :
    text ≠ [] := by
  obtain ⟨c, more, rfl⟩ := h.exists_cons
  exact List.cons_ne_nil c more

/-- Tokens start at the position from which the text is read, or after it. -/
theorem eq_or_before_of_mem_tokensFrom {t : Token} (ht : t ∈ tokensFrom pos tiles) :
    t.pos = pos ∨ pos.Before t.pos := by
  induction tiles generalizing pos with
  | nil => cases ht
  | cons tile tiles ih =>
    rcases List.mem_cons.1 ht with rfl | ht
    · exact pos.eq_or_before_after tile.filler
    · rcases pos.eq_or_before_after (tile.filler ++ tile.lexeme.text) with heq | hbefore
      · rw [heq] at ht
        exact ih ht
      · right
        rcases ih ht with heq | hafter
        · rwa [heq]
        · exact hbefore.trans hafter

/-- Tokens start one after another. -/
theorem pairwise_tokensFrom (h : Tiles cs tiles) (pos : Position) :
    ((tokensFrom pos tiles).map (·.pos)).Pairwise Position.Before := by
  induction h generalizing pos with
  | last => exact .nil
  | @cons f cs l tiles _ _ hspells _ ih =>
    refine .cons (fun q hq => ?_) (ih _)
    obtain ⟨t, ht, rfl⟩ := List.mem_map.1 hq
    have hstart : (pos.after f).Before (pos.after (f ++ l.text)) := by
      rw [Position.after_append]
      exact Position.before_after _ hspells.text_ne_nil
    rcases eq_or_before_of_mem_tokensFrom ht with heq | hafter
    · rwa [heq]
    · exact hstart.trans hafter

/-- Tokens start before the end of the text. -/
theorem before_finish_of_mem_tokensFrom (h : Tiles cs tiles) {t : Token}
    (ht : t ∈ tokensFrom pos tiles) : t.pos.Before (pos.after cs) := by
  induction h generalizing pos with
  | last => cases ht
  | @cons f cs l tiles _ _ hspells _ ih =>
    rcases List.mem_cons.1 ht with rfl | ht
    · rw [Position.after_append, Position.after_append]
      exact (Position.before_after _ hspells.text_ne_nil).before_after cs
    · rw [← List.append_assoc, Position.after_append]
      exact ih ht

/-! ## Faults -/

/-- A comment that is never closed starts in the text that is skipped, or it is the one that is
being skipped. -/
theorem exists_prefix_of_skip {gap : Gap} {start : Position} (h : skip gap pos cs = .error start) :
    (∃ before, before <+: cs ∧ start = pos.after before) ∨ gap = .block start := by
  have hstep {pos : Position} {cs : List Char} (front : List Char)
      (ih : ∃ before, before <+: cs ∧ start = (pos.after front).after before) :
      ∃ before, before <+: front ++ cs ∧ start = pos.after before := by
    obtain ⟨before, hbefore, rfl⟩ := ih
    exact ⟨front ++ before, (List.prefix_append_right_inj front).2 hbefore,
      (pos.after_append front before).symm⟩
  fun_induction skip gap pos cs with
  | case1 start' pos =>
    cases h
    exact Or.inr rfl
  | case2 => cases h
  | case3 => cases h
  | case4 pos cs ih => exact Or.inl (hstep ['/', '/'] ((ih h).resolve_right (by simp)))
  | case5 pos cs ih =>
    rcases ih h with hbefore | heq
    · exact Or.inl (hstep ['/', '*'] hbefore)
    · cases heq
      exact Or.inl ⟨[], List.nil_prefix, rfl⟩
  | case6 pos c cs _ _ _ ih => exact Or.inl (hstep [c] ((ih h).resolve_right (by simp)))
  | case7 => cases h
  | case8 pos c cs ih =>
    refine Or.inl (hstep [c] ((ih h).resolve_right ?_))
    split <;> simp
  | case9 start' pos cs ih => exact Or.inl (hstep ['*', '/'] ((ih h).resolve_right (by simp)))
  | case10 start' pos c cs _ ih => exact (ih h).imp_left (hstep [c])

/-- A text that is not read as tokens has a fault at the end of some part of it. -/
theorem exists_prefix_of_scanFrom {done : List Token} {e : Error}
    (h : scanFrom done pos cs = .error e) : ∃ before, before <+: cs ∧ e.pos = pos.after before := by
  fun_induction scanFrom done pos cs with
  | case1 done pos cs start hskip =>
    cases h
    exact (exists_prefix_of_skip hskip).resolve_right (by simp)
  | case2 => cases h
  | case3 done pos cs pos' c rest hskip fault hl =>
    cases h
    obtain ⟨f, rfl, -, rfl, -⟩ := skip_eq_ok_iff.1 hskip
    exact ⟨f, List.prefix_append f _, rfl⟩
  | case4 done pos cs pos' c rest hskip l hl ih =>
    obtain ⟨f, rfl, -, rfl, -⟩ := skip_eq_ok_iff.1 hskip
    obtain ⟨more, hmore, hspells⟩ := lexeme_eq_ok_iff.1 hl
    obtain ⟨before, hbefore, hpos⟩ := ih h
    rw [hspells.drop_eq hmore] at hbefore
    refine ⟨f ++ (l.text ++ before), ?_, ?_⟩
    · rw [hmore]
      exact (List.prefix_append_right_inj f).2 ((List.prefix_append_right_inj l.text).2 hbefore)
    · rw [hpos, Position.after_append, Position.after_append]

end Lexer

end Chipwright
