import Chipwright.Proofs.LinkSafety
import Chipwright.Proofs.Lowering.Congruence

/-!
# How many registers and lines a program needs

The lowest free register is handed out first, and nothing else depends on how many registers there
are. So a program that was lowered once is lowered in the same way with any supply that has the
registers which were used, and with a smaller one it runs out of registers. Likewise the limit of
lines only decides whether what was lowered is kept.

A step that succeeds is compared with the same step in a state whose pool has another size. As
long as all registers that were handed out are in reach, both steps give the same; as soon as one
is not, the other step fails. `Confines` says that, and it is kept when steps follow each other.

## Main definitions

* `RegisterPool.resized`, `State.resized`: the same registers are taken, of another supply
* `Confines`: how a step with another supply ends
* `Lower.Limited`: a step ends so, wherever it starts

## Main statements

* `ExprContext.meets_lower`: expressions
* `Context.limiting`: statements
* `Context.limited_sections`: programs
* `Resolved.Program.generate_thresholds`: what a program needs
-/
namespace Chipwright

/-- There are too few registers. -/
def Failure.Exhausted (n : Nat) (e : Failure) : Prop :=
  ∃ construct location, e = .diagnostic { cause := .outOfRegisters construct n, location }

namespace Register

/-- The registers are among the first `n` general ones. -/
def InReach (n : Nat) (rs : List Register) : Prop := ∀ r ∈ rs, r ∈ general n

theorem InReach.subset {n : Nat} {rs rs' : List Register} (h : InReach n rs')
    (hsub : ∀ r ∈ rs, r ∈ rs') : InReach n rs :=
  fun r hr => h r (hsub r hr)

end Register

open Register (InReach)

/-- How a step ends in a state with `n` registers, if elsewhere it has gone from a state in which
the registers `before` had been handed out to one with `after`. Either it gives the same, or there
are too few registers. -/
structure Confines (n : Nat) (before after : List Register) (same exhausted : Prop) : Prop where
  grows : ∀ r ∈ before, r ∈ after
  same : InReach n after → same
  exhausted : InReach n before → ¬ InReach n after → exhausted

namespace Confines

variable {n : Nat} {before between after : List Register}
  {same same' exhausted exhausted' : Prop}

/-- A step that hands out nothing. -/
theorem refl (h : same) : Confines n before before same exhausted :=
  ⟨fun _ hr => hr, fun _ => h, fun hin hnot => absurd hin hnot⟩

/-- Steps that follow each other. -/
theorem trans {same'' exhausted'' : Prop} (h : Confines n before between same exhausted)
    (h' : Confines n between after same' exhausted') (hsame : same → same' → same'')
    (hfirst : exhausted → exhausted'') (hsecond : same → exhausted' → exhausted'') :
    Confines n before after same'' exhausted'' where
  grows r hr := h'.grows r (h.grows r hr)
  same hin := hsame (h.same (hin.subset h'.grows)) (h'.same hin)
  exhausted hin hnot := by
    by_cases hbetween : InReach n between
    · exact hsecond (h.same hbetween) (h'.exhausted hbetween hnot)
    · exact hfirst (h.exhausted hin hbetween)

end Confines

/-! ### Pools -/

/-- A result that may fail is the one expected, or there are too few registers. -/
abbrev Meets {α : Type} (n : Nat) (before after : List Register) (x : Except Failure α) (a : α) :
    Prop :=
  Confines n before after (x = .ok a) (∃ e, x = .error e ∧ e.Exhausted n)

theorem Meets.bind {α β : Type} {n : Nat} {before between after : List Register}
    {x : Except Failure α} {f : α → Except Failure β} {a : α} {b : β}
    (h : Meets n before between x a) (h' : Meets n between after (f a) b) :
    Meets n before after (x >>= f) b := by
  refine h.trans h' ?_ ?_ ?_
  · rintro rfl hb
    exact hb
  · rintro ⟨e, rfl, he⟩
    exact ⟨e, rfl, he⟩
  · rintro rfl he
    exact he

namespace RegisterPool

variable {n : Nat} {p q : RegisterPool}

/-- The same registers are taken, of another supply. -/
def resized (n : Nat) (p : RegisterPool) : RegisterPool := { p with size := n }

@[simp] theorem live_resized : (p.resized n).live = p.live := rfl

@[simp] theorem used_resized : (p.resized n).used = p.used := rfl

@[simp] theorem push_resized : (p.resized n).push = p.push.resized n := rfl

/-- Whichever supply there is, the lowest free register is the same. -/
theorem free?_resized {r : Register} (h : p.free? = some r) :
    (p.resized n).free? = if r ∈ Register.general n then some r else none := by
  have hmem : r ∈ Register.general p.size := List.mem_of_find?_eq_some h
  have hfree : (!p.live.contains r) = true := by simpa using List.find?_some h
  change (Register.general n).find? (!p.live.contains ·) = _
  rw [free?] at h
  rcases Nat.le_total n p.size with hle | hle
  · obtain ⟨more, hmore⟩ : Register.general n <+: Register.general p.size :=
      List.take_prefix_take_left hle
    rw [← hmore, List.find?_append] at h
    cases hfind : (Register.general n).find? (!p.live.contains ·) with
    | none =>
      have hnot : r ∉ Register.general n := fun hr => List.find?_eq_none.1 hfind r hr hfree
      rw [if_neg hnot]
    | some r' =>
      rw [hfind, Option.some_or, Option.some.injEq] at h
      subst h
      rw [if_pos (List.mem_of_find?_eq_some hfind)]
  · obtain ⟨more, hmore⟩ : Register.general p.size <+: Register.general n :=
      List.take_prefix_take_left hle
    have hr : r ∈ Register.general n := hmore ▸ List.mem_append_left _ hmem
    rw [if_pos hr, ← hmore, List.find?_append, h]
    rfl

theorem meets_allocate {construct : String} {location : Option Location} {r : Register}
    (h : p.allocate construct location = .ok (r, q)) :
    Meets n p.used q.used ((p.resized n).allocate construct location) (r, q.resized n) := by
  obtain ⟨hfree, rfl⟩ := allocate_eq_ok.1 h
  have hother := free?_resized (n := n) hfree
  refine ⟨fun r hr => List.mem_cons_of_mem _ hr, fun hin => ?_, fun hin hnot => ?_⟩
  · rw [if_pos (hin r (List.mem_cons_self ..))] at hother
    exact allocate_eq_ok.2 ⟨hother, rfl⟩
  · rw [if_neg fun hr => hnot (List.forall_mem_cons.2 ⟨hr, hin⟩)] at hother
    exact ⟨_, allocate_eq_error.2 ⟨hother, rfl⟩, construct, location, rfl⟩

theorem meets_release {r : Register} (h : p.release r = .ok q) :
    Meets n p.used q.used ((p.resized n).release r) (q.resized n) := by
  obtain ⟨hmem, rfl⟩ := release_eq_ok.1 h
  exact .refl (release_eq_ok.2 ⟨hmem, rfl⟩)

theorem meets_pop {rs : List Register} (h : p.pop = .ok (rs, q)) :
    Meets n p.used q.used (p.resized n).pop (rs, q.resized n) := by
  obtain ⟨frame, outer, houter, rfl, rfl⟩ := pop_eq_ok.1 h
  exact .refl (pop_eq_ok.2 ⟨frame, outer, houter, rfl, rfl⟩)

end RegisterPool

namespace Lowering

/-! ### Expressions -/

variable {n : Nat} {p q : RegisterPool}

namespace Value

theorem meets_release {x : Value} (h : x.release p = .ok q) :
    Meets n p.used q.used (x.release (p.resized n)) (q.resized n) := by
  cases x with
  | immediate c =>
    cases h
    exact .refl rfl
  | home r =>
    cases h
    exact .refl rfl
  | scratch r => exact RegisterPool.meets_release h

theorem meets_releaseAll {xs : List Value} (h : releaseAll p xs = .ok q) :
    Meets n p.used q.used (releaseAll (p.resized n) xs) (q.resized n) := by
  induction xs generalizing p with
  | nil =>
    cases h
    exact .refl rfl
  | cons x xs ih =>
    rw [releaseAll, bind_eq_ok] at h
    obtain ⟨p₁, hx, hxs⟩ := h
    exact (meets_release hx).bind (ih hxs)

end Value

namespace ExprContext

variable {ctx : ExprContext}

theorem meets_result {target : Option Register} {x : Value}
    (h : ctx.result target p = .ok (x, q)) :
    Meets n p.used q.used (ctx.result target (p.resized n)) (x, q.resized n) := by
  cases target with
  | some r =>
    cases h
    exact .refl rfl
  | none =>
    simp only [result, bind_eq_ok, pure_eq_ok, Prod.mk.injEq] at h
    obtain ⟨⟨r, p₁⟩, hallocate, rfl, rfl⟩ := h
    exact (RegisterPool.meets_allocate hallocate).bind (.refl rfl)

/-- An expression is lowered in the same way with another supply, or there are too few
registers. -/
theorem meets_lower {e : Resolved.Expr} {target : Option Register} {x : Value} {code : Code}
    (h : ctx.lower e target p = .ok (x, code, q)) :
    Meets n p.used q.used (ctx.lower e target (p.resized n)) (x, code, q.resized n) := by
  induction e generalizing target p x code q with
  | literal pos c =>
    cases h
    exact .refl rfl
  | const pos c =>
    cases h
    exact .refl rfl
  | var pos v =>
    simp only [lower, bind_eq_ok, pure_eq_ok, Prod.mk.injEq] at h
    obtain ⟨r, hr, rfl, rfl, rfl⟩ := h
    exact .refl (by rw [lower, hr]; rfl)
  | not pos e ih =>
    simp only [lower, bind_eq_ok, pure_eq_ok, Prod.mk.injEq] at h
    obtain ⟨⟨x₁, code₁, p₁⟩, hx₁, p₂, hp₂, ⟨d, p₃⟩, hd, rfl, rfl, rfl⟩ := h
    rw [lower]
    exact (ih hx₁).bind ((Value.meets_release hp₂).bind ((meets_result hd).bind (.refl rfl)))
  | binary op left right ihl ihr =>
    simp only [lower, bind_eq_ok, pure_eq_ok, Prod.mk.injEq] at h
    obtain ⟨⟨x₁, code₁, p₁⟩, hx₁, ⟨x₂, code₂, p₂⟩, hx₂, p₃, hp₃, p₄, hp₄, ⟨d, p₅⟩, hd, rfl, rfl,
      rfl⟩ := h
    rw [lower]
    exact (ihl hx₁).bind ((ihr hx₂).bind ((Value.meets_release hp₃).bind
      ((Value.meets_release hp₄).bind ((meets_result hd).bind (.refl rfl)))))

theorem meets_lowerAll {es : List Resolved.Expr} {xs : List Value} {code : Code}
    (h : ctx.lowerAll es p = .ok (xs, code, q)) :
    Meets n p.used q.used (ctx.lowerAll es (p.resized n)) (xs, code, q.resized n) := by
  induction es generalizing p xs code with
  | nil =>
    cases h
    exact .refl rfl
  | cons e es ih =>
    simp only [lowerAll, bind_eq_ok, pure_eq_ok, Prod.mk.injEq] at h
    obtain ⟨⟨x₁, code₁, p₁⟩, hx₁, ⟨xs₁, code₂, p₂⟩, hxs₁, rfl, rfl, rfl⟩ := h
    rw [lowerAll]
    exact (meets_lower hx₁).bind ((ih hxs₁).bind (.refl rfl))

theorem meets_lowerInto {e : Resolved.Expr} {r : Register} {code : Code}
    (h : ctx.lowerInto e r p = .ok (code, q)) :
    Meets n p.used q.used (ctx.lowerInto e r (p.resized n)) (code, q.resized n) := by
  simp only [lowerInto, bind_eq_ok] at h
  obtain ⟨⟨x, code₁, p₁⟩, hx, h⟩ := h
  rw [lowerInto]
  refine (meets_lower hx).bind ?_
  dsimp only at h ⊢
  split at h
  · rename_i hsame
    obtain ⟨rfl, rfl⟩ := Prod.mk.inj (pure_eq_ok.1 h)
    rw [if_pos hsame]
    exact .refl rfl
  · rename_i hother
    simp only [bind_eq_ok, pure_eq_ok, Prod.mk.injEq] at h
    obtain ⟨p₂, hp₂, rfl, rfl⟩ := h
    rw [if_neg hother]
    exact (Value.meets_release hp₂).bind (.refl rfl)

end ExprContext

/-! ### Steps -/

/-- The registers that have been handed out so far. -/
def State.handedOut (s : State) : List Register := s.pool.used ++ s.used

/-- What the pool has handed out is entered among the registers used. -/
def State.Entered (s : State) : Prop := ∀ r ∈ s.pool.used, r ∈ s.used

/-- The state with another supply of registers. -/
def State.resized (n : Nat) (s : State) : State := { s with pool := s.pool.resized n }

/-- Where a step `x` succeeds, `x'` gives the same with `n` registers, or they are too few. -/
def Lower.Limited {α : Type} (n : Nat) (x x' : Lower α) (s : State) : Prop :=
  ∀ a s', x s = .ok a s' →
    Confines n s.handedOut s'.handedOut (x' (s.resized n) = .ok a (s'.resized n))
      (∃ e t, x' (s.resized n) = .error e t ∧ e.Exhausted n)

namespace Lower.Limited

variable {α β : Type} {x x' : Lower α} {s : State}

theorem bind {f f' : α → Lower β} (hx : x.Limited n x' s)
    (hf : ∀ a s₁, x s = .ok a s₁ → (f a).Limited n (f' a) s₁) :
    (x >>= f).Limited n (x' >>= f') s := by
  intro b s' h
  obtain ⟨a, s₁, ha, hb⟩ := Lower.bind_eq_ok.1 h
  rw [Lower.bind_apply]
  refine (hx a s₁ ha).trans (hf a s₁ ha b s' hb) ?_ ?_ ?_
  · intro hsame hsame'
    rw [hsame]
    exact hsame'
  · rintro ⟨e, t, hsame, he⟩
    rw [hsame]
    exact ⟨e, t, rfl, he⟩
  · intro hsame hexhausted
    rw [hsame]
    exact hexhausted

theorem pure (a : α) : (Pure.pure a : Lower α).Limited n (Pure.pure a) s := by
  intro b s' h
  obtain ⟨rfl, rfl⟩ := Lower.pure_eq_ok.1 h
  exact .refl rfl

/-- A look at the state goes on with what is seen. -/
theorem get_bind {f f' : State → Lower α} (h : (f s).Limited n (f' (s.resized n)) s) :
    (get >>= f).Limited n (get >>= f') s := h

/-- A change of the state that has nothing to do with the supply. -/
theorem modify_state {g : State → State} (hcommute : g (s.resized n) = (g s).resized n)
    (hsame : ∀ r, r ∈ (g s).handedOut ↔ r ∈ s.handedOut) :
    (modify g : Lower Unit).Limited n (modify g) s := by
  intro a s' h
  obtain rfl := Lower.modify_eq_ok.1 h
  refine ⟨fun r hr => (hsame r).2 hr, fun _ => ?_, fun hin hnot => ?_⟩
  · rw [Lower.modify_apply, hcommute]
  · exact absurd (fun r hr => hin r ((hsame r).1 hr)) hnot

theorem ofExcept (y : Except Failure α) : (Lower.ofExcept y).Limited n (Lower.ofExcept y) s := by
  intro a s' h
  obtain ⟨rfl, rfl⟩ := Lower.ofExcept_eq_ok.1 h
  exact .refl rfl

theorem throw_failure (e : Failure) (y : Lower α) : (throw e : Lower α).Limited n y s := by
  intro a s' h
  cases h

theorem onPool {f f' : State → Except Failure (α × RegisterPool)}
    (h : ∀ a pool, f s = .ok (a, pool) →
      Meets n s.pool.used pool.used (f' (s.resized n)) (a, pool.resized n)) :
    (Lower.onPool f).Limited n (Lower.onPool f') s := by
  intro a s' hstep
  obtain ⟨pool, hf, rfl⟩ := Lower.onPool_eq_ok.1 hstep
  obtain ⟨hgrows, hsame, hexhausted⟩ := h a pool hf
  have hused : ∀ {rs : List Register}, InReach n (rs ++ s.used) ↔ InReach n rs ∧ InReach n s.used :=
    List.forall_mem_append
  refine ⟨fun r hr => ?_, fun hin => ?_, fun hin hnot => ?_⟩
  · exact (List.mem_append.1 hr).elim (fun hr => List.mem_append_left _ (hgrows r hr))
      (List.mem_append_right _)
  · rw [Lower.onPool, hsame (hused.1 hin).1]
    rfl
  · obtain ⟨hpool, hrest⟩ := hused.1 hin
    obtain ⟨e, herror, he⟩ := hexhausted hpool fun hin' => hnot (hused.2 ⟨hin', hrest⟩)
    exact ⟨e, _, by rw [Lower.onPool, herror], he⟩

theorem framed (hx : ∀ s, x.Limited n x' s) : (Lower.framed x).Limited n (Lower.framed x') s := by
  unfold Lower.framed
  refine (onPool fun _ pool h => ?_).bind fun _ s₁ _ => (hx s₁).bind fun a s₂ _ =>
    onPool fun b pool h => ?_
  · cases h
    exact .refl rfl
  · simp only [Chipwright.bind_eq_ok, Chipwright.pure_eq_ok, Prod.mk.injEq] at h
    obtain ⟨⟨rs, pool⟩, hpop, rfl, rfl⟩ := h
    exact (RegisterPool.meets_pop hpop).bind (.refl rfl)

end Lower.Limited

namespace Context

variable {ctx : Context} {k : Int} {s : State}

/-- The surroundings with other limits. -/
def limited (n : Nat) (k : Int) (ctx : Context) : Context :=
  { ctx with options := { ctx.options with registerCount := n, maxLines := k } }

open Lower (Limited)

theorem limited_allocate (construct : String) (pos : Position) :
    (ctx.allocate construct pos).Limited n ((ctx.limited n k).allocate construct pos) s :=
  .onPool fun _ _ h => RegisterPool.meets_allocate h

theorem limited_log (level : Level) (message : String) :
    (Lower.log level message).Limited n (Lower.log level message) s :=
  .modify_state (by rfl) fun _ => by rfl

theorem limited_search {body : List Resolved.Stmt} :
    (ctx.search body).Limited n (ctx.search body) s :=
  .get_bind ((Limited.ofExcept _).bind fun _ _ _ =>
    (Limited.modify_state (by rfl) fun _ => by rfl).bind fun _ _ _ => .pure _)

/-- Whatever is lowered with another supply is lowered in the same way, or there are too few
registers. -/
theorem limiting (ctx : Context) (n : Nat) (k : Int) :
    Lower.Congruence ctx (ctx.limited n k) fun _ _ x x' => ∀ s, x.Limited n x' s where
  pure a s := .pure a
  bind hx hf s := (hx s).bind fun a s₁ _ => hf a s₁
  throw _ e _ := .throw_failure e _
  framed hx _ := .framed hx
  allocate construct pos _ := limited_allocate construct pos
  home v _ := (limited_allocate _ _).bind fun _ _ _ =>
    (Limited.modify_state (by rfl) fun _ => by rfl).bind fun _ _ _ => .pure _
  homeOf v _ := Limited.get_bind (.ofExcept _)
  expr origin e s := by
    refine .onPool fun a pool h => ?_
    simp only [Chipwright.bind_eq_ok, Chipwright.pure_eq_ok, Prod.mk.injEq] at h
    obtain ⟨⟨x, code, pool⟩, hlower, rfl, rfl⟩ := h
    exact (ExprContext.meets_lower hlower).bind (.refl rfl)
  exprs origin es s := by
    refine .onPool fun a pool h => ?_
    simp only [Chipwright.bind_eq_ok, Chipwright.pure_eq_ok, Prod.mk.injEq] at h
    obtain ⟨⟨xs, code, pool⟩, hlower, rfl, rfl⟩ := h
    exact (ExprContext.meets_lowerAll hlower).bind (.refl rfl)
  exprInto origin e r s := .onPool fun _ _ h => ExprContext.meets_lowerInto h
  releaseAll xs s := by
    refine .onPool fun a pool h => ?_
    simp only [Chipwright.bind_eq_ok, Chipwright.pure_eq_ok, Prod.mk.injEq] at h
    obtain ⟨pool, hrelease, -, rfl⟩ := h
    exact (Value.meets_releaseAll hrelease).bind (.refl rfl)
  conditional s m s' h := by
    obtain ⟨rfl, rfl⟩ := Lower.nextConditional_eq_ok.1 h
    exact .refl rfl
  loop pos body s := by
    have hsame : (ctx.limited n k).checkLoop pos body = ctx.checkLoop pos body := rfl
    rw [hsame]
    refine Limited.bind (Limited.bind limited_search fun _ _ _ => ?_) fun _ s₁ _ m s' h => ?_
    · split
      · exact .pure _
      · split
        · exact Limited.bind (.throw_failure _ _) fun _ _ _ => limited_log _ _
        · exact limited_log _ _
    · obtain ⟨rfl, rfl⟩ := Lower.nextLoop_eq_ok.1 h
      exact .refl rfl
  call _ _ := .modify_state (by rfl) fun _ => by rfl
  parameter _ _ _ _ := .modify_state (by rfl) fun _ => by rfl

theorem limited_item (i : Resolved.Item) : (ctx.item i).Limited n ((ctx.limited n k).item i) s := by
  cases i with
  | nameSlot pos written d =>
    refine Limited.get_bind ((Limited.ofExcept _).bind fun _ _ _ =>
      (Limited.modify_state (by rfl) fun _ => by rfl).bind fun _ _ _ => ?_)
    change Limited n (if ctx.options.emitAliases = true then _ else _)
      (if ctx.options.emitAliases = true then _ else _) _
    split <;> exact .pure _
  | const c => exact .pure _
  | func f => exact .pure _
  | stmt st => exact (ctx.limiting n k).stmt st s

theorem limited_items (is : List Resolved.Item) :
    (ctx.items is).Limited n ((ctx.limited n k).items is) s := by
  induction is generalizing s with
  | nil => exact .pure _
  | cons i is ih => exact (limited_item i).bind fun _ _ _ => ih.bind fun _ _ _ => .pure _

/-! ### Sections -/

theorem limited_enter : Limited n (modify fun s : State => { s with used := s.pool.used ++ s.used })
    (modify fun s => { s with used := s.pool.used ++ s.used }) s := by
  refine .modify_state (by rfl) fun r => ?_
  simp [State.handedOut]

variable {globals : List Register} {p : Resolved.Program}

/-- A new pool has handed out nothing, so what the one before it has handed out is to be entered
before. -/
theorem limited_openPool {kept : List Register} (hs : s.Entered)
    (hn : 1 ≤ n ∧ n ≤ Register.generalCount) :
    Limited n
      (Lower.onPool fun _ => do
        let pool ← RegisterPool.ofCount ctx.options.registerCount kept
        return ((), pool))
      (Lower.onPool fun _ => do
        let pool ← RegisterPool.ofCount (ctx.limited n k).options.registerCount kept
        return ((), pool)) s := by
  intro a s' h
  obtain ⟨pool, hpool, rfl⟩ := Lower.onPool_eq_ok.1 h
  simp only [Chipwright.bind_eq_ok, Chipwright.pure_eq_ok, Prod.mk.injEq] at hpool
  obtain ⟨pool, hpool, -, rfl⟩ := hpool
  obtain ⟨-, hfresh⟩ := RegisterPool.ofCount_eq_ok.1 hpool
  have hother : RegisterPool.ofCount (ctx.limited n k).options.registerCount kept =
      .ok (pool.resized n) := by
    have hcount : (1 : Int) ≤ n ∧ (n : Int) ≤ Register.generalCount := by omega
    rw [hfresh]
    exact if_pos hcount
  refine ⟨fun r hr => ?_, fun _ => ?_, fun hin hnot => ?_⟩
  · exact List.mem_append_right _ ((List.mem_append.1 hr).elim (hs r) id)
  · rw [Lower.onPool, hother]
    rfl
  · refine absurd (fun r hr => hin r ?_) hnot
    rw [hfresh] at hr
    exact List.mem_append_right _ hr

theorem limited_function {makesCalls : Bool} {f : Resolved.Function} (hs : s.Entered)
    (hn : 1 ≤ n ∧ n ≤ Register.generalCount) :
    (ctx.function globals makesCalls f).Limited n
      ((ctx.limited n k).function globals makesCalls f) s := by
  unfold function
  exact .get_bind <| (limited_openPool hs hn).bind fun _ _ _ =>
    ((ctx.limiting n k).parameters _ _ _ _).bind fun _ _ _ =>
      ((ctx.limiting n k).returnAddress _ _ _ _).bind fun _ _ _ =>
        ((ctx.limiting n k).stmts _ _).bind fun _ _ _ => (Limited.ofExcept _).bind fun _ _ _ =>
          limited_enter.bind fun _ _ _ => (limited_log _ _).bind fun _ _ _ => .pure _

theorem entered_of_function {makesCalls : Bool} {f : Resolved.Function} {sect : Section}
    {s' : State} (h : ctx.function globals makesCalls f s = .ok sect s') : s'.Entered := by
  obtain ⟨r, entry, s₁, body, s₂, log, -, -, -, rfl⟩ := function_eq_ok h
  exact fun r hr => List.mem_append_left _ hr

theorem limited_functions {graph : Resolved.CallGraph} {names : List String} (hs : s.Entered)
    (hn : 1 ≤ n ∧ n ≤ Register.generalCount) :
    (ctx.functions p graph globals names).Limited n
      ((ctx.limited n k).functions p graph globals names) s := by
  induction names generalizing s with
  | nil => exact .pure _
  | cons name names ih =>
    rw [functions, functions]
    cases p.function? name with
    | none => exact .throw_failure _ _
    | some f =>
      exact (limited_function hs hn).bind fun _ _ hfunction =>
        (ih (entered_of_function hfunction)).bind fun _ _ _ => .pure _

theorem entered_of_functions {graph : Resolved.CallGraph} {names : List String} {s' : State}
    {ss : List Section} (hs : s.Entered)
    (h : ctx.functions p graph globals names s = .ok ss s') : s'.Entered := by
  induction names generalizing s ss with
  | nil =>
    obtain ⟨-, rfl⟩ := Lower.pure_eq_ok.1 h
    exact hs
  | cons name names ih =>
    rw [functions] at h
    cases hfunction : p.function? name with
    | none =>
      rw [hfunction] at h
      cases Lower.throw_eq_ok.1 h
    | some f =>
      simp only [hfunction, Lower.bind_eq_ok, Lower.pure_eq_ok] at h
      obtain ⟨sect, s₁, hsect, ss', s₂, hrest, -, rfl⟩ := h
      exact ih (entered_of_function hsect) hrest

/-- A program is lowered in the same way with another supply, or there are too few registers. -/
theorem limited_sections (hn : 1 ≤ n ∧ n ≤ Register.generalCount) :
    (ctx.sections p).Limited n ((ctx.limited n k).sections p) s := by
  unfold sections
  refine (limited_items _).bind fun _ s₁ _ => limited_enter.bind fun _ s₂ hs₂ => ?_
  split
  · exact (Limited.ofExcept _).bind fun _ _ _ => .pure _
  · have hentered : s₂.Entered := by
      obtain rfl := Lower.modify_eq_ok.1 hs₂
      exact fun r hr => List.mem_append_left _ hr
    refine (Limited.ofExcept _).bind fun _ s₃ hs₃ => ?_
    obtain ⟨-, rfl⟩ := Lower.ofExcept_eq_ok.1 hs₃
    exact .get_bind <| (limited_functions hentered hn).bind fun _ _ _ =>
      ((ctx.limiting n k).inSourceOrder _ _ _).bind fun _ _ _ =>
        (Limited.ofExcept _).bind fun _ _ _ => .pure _

theorem entered_of_sections {ss : List Section} {s' : State}
    (h : ctx.sections p s = .ok ss s') : s'.Entered := by
  unfold sections at h
  simp only [Lower.bind_eq_ok, Lower.modify_eq_ok] at h
  obtain ⟨code, s₁, -, _, s₂, rfl, h⟩ := h
  have hentered : State.Entered { s₁ with used := s₁.pool.used ++ s₁.used } :=
    fun r hr => List.mem_append_left _ hr
  split at h
  · simp only [Lower.bind_eq_ok, Lower.ofExcept_eq_ok, Lower.pure_eq_ok] at h
    obtain ⟨_, _, ⟨-, rfl⟩, -, rfl⟩ := h
    exact hentered
  · simp only [Lower.bind_eq_ok, Lower.ofExcept_eq_ok, Lower.get_eq_ok, Lower.pure_eq_ok] at h
    obtain ⟨_, _, ⟨-, rfl⟩, _, _, ⟨-, rfl⟩, _, s₃, hfunctions, _, _, hsorted, _, _, ⟨-, rfl⟩, -,
      rfl⟩ := h
    obtain ⟨rfl, -⟩ := inSourceOrder_eq_ok hsorted
    exact entered_of_functions hentered hfunctions

end Context

/-! ### Programs -/

/-- Every section of a program is made of code. -/
theorem Build.made_of_code {ctx : Context} {p : Resolved.Program} {a : Assembly}
    (b : Build ctx p a) {sect : Section} (h : sect ∈ a.sections) : ∃ name code,
      Code.toSection ctx.file ctx.options.emitComments name code = .ok sect := by
  obtain ⟨k, hk⟩ := List.getElem?_of_mem h
  cases b.part hk with
  | main hcode => exact ⟨_, _, hcode⟩
  | function _ hx =>
    obtain ⟨q, -, -, hcode, -⟩ := Context.routine_of_function (b.settled_of_mem_passes hx).step
    exact ⟨_, _, hcode⟩
  | finish _ hcode => exact ⟨_, _, hcode⟩

/-- Every instruction tells which construct it comes from. -/
theorem Build.isSome_origin {ctx : Context} {p : Resolved.Program} {a : Assembly}
    (b : Build ctx p a) {i : Instruction} (h : i ∈ a.instructions) : i.origin.isSome := by
  obtain ⟨sect, hsect, hi⟩ := List.mem_flatMap.1 h
  obtain ⟨name, code, hcode⟩ := b.made_of_code hsect
  obtain ⟨l, -, hgives⟩ := Code.exists_line_of_toSection hcode hi
  simp [hgives.origin]

/-- The highest number of a register that a program uses, or -1 if it uses none. -/
def Generated.highest (g : Generated) : Int :=
  g.registers.foldr (fun r m => max (r.index.val : Int) m) (-1)

theorem Generated.highest_lt_iff {g : Generated} {n : Int} (hn : 0 ≤ n) :
    g.highest < n ↔ ∀ r ∈ g.registers, (r.index.val : Int) < n := by
  unfold highest
  induction g.registers with
  | nil => simp; omega
  | cons r rs ih => simp [ih]

end Lowering

open Lowering

namespace Resolved.Program

variable {file : String} {options : Options} {p : Resolved.Program} {g : Generated}

/-- Whichever supply of registers there is, what a program is lowered to is the same, or there are
too few registers for it. -/
theorem limits_generate (h : (p.generate file options).2 = .ok g) {n : Nat} {k : Int}
    (hn : 1 ≤ n ∧ n ≤ Register.generalCount) :
    Confines n [] g.registers
      ((p.generate file { options with registerCount := n, maxLines := k }).2 =
        (do checkLength k g.assembly; return g))
      (∃ e, (p.generate file { options with registerCount := n, maxLines := k }).2 = .error e ∧
        e.Exhausted n) := by
  obtain ⟨b, hpool, -⟩ := exists_build h
  have hcount : (1 : Int) ≤ n ∧ (n : Int) ≤ Register.generalCount := by omega
  have hpool' : RegisterPool.ofCount n [] = .ok ((RegisterPool.fresh b.size []).resized n) :=
    if_pos hcount
  rw [generate_eq hpool] at h
  rw [generate_eq hpool']
  cases hsections : Lowering.Context.sections ⟨file, options, p⟩ p
      { pool := .fresh b.size [] } with
  | error e s =>
    rw [hsections] at h
    cases h
  | ok ss s =>
    simp only [hsections, bind_eq_ok, pure_eq_ok] at h
    obtain ⟨-, -, rfl⟩ := h
    have hreach : InReach n (Register.sorted s.used) ↔ InReach n s.handedOut := by
      refine ⟨fun hin r hr => hin r ?_, fun hin r hr => hin r ?_⟩
      · rw [Register.mem_sorted]
        exact (List.mem_append.1 hr).elim (Context.entered_of_sections hsections r) id
      · rw [Register.mem_sorted] at hr
        exact List.mem_append_right _ hr
    have hlimits := Context.limited_sections (k := k) hn ss s hsections
    have hnone : InReach n (State.handedOut { pool := .fresh b.size [] }) := fun _ hr => nomatch hr
    refine ⟨List.forall_mem_nil _, fun hin => ?_, fun _ hnot => ?_⟩
    · have hother : Lowering.Context.sections ⟨file, _, p⟩ p
          { pool := (RegisterPool.fresh b.size []).resized n } = .ok ss (s.resized n) :=
        hlimits.same (hreach.1 hin)
      rw [hother]
      rfl
    · obtain ⟨e, t, hother, he⟩ := hlimits.exhausted hnone fun hin => hnot (hreach.2 hin)
      have hother : Lowering.Context.sections ⟨file, _, p⟩ p
          { pool := (RegisterPool.fresh b.size []).resized n } = .error e t := hother
      rw [hother]
      exact ⟨e, rfl, he⟩

/-- If a program can be lowered at all, it needs as many registers as the highest that it uses, and
as many lines as it has. With these it is always lowered to the same; with fewer registers they run
out, and with fewer lines the first that is too many is named. -/
theorem generate_thresholds (h : (p.generate file options).2 = .ok g) {n k : Int}
    (hn : 1 ≤ n ∧ n ≤ Register.generalCount) (hk : 0 ≤ k) :
    let result := (p.generate file { options with registerCount := n, maxLines := k }).2
    ((∃ g', result = .ok g') ↔ g.highest < n ∧ g.assembly.size ≤ k) ∧
      (∀ g', result = .ok g' → g' = g) ∧
      (n ≤ g.highest → ∃ construct location, result = .error (.diagnostic
        { cause := .outOfRegisters construct n, location })) ∧
      (g.highest < n → k < g.assembly.size → ∃ i origin,
        g.assembly.instructions[k.toNat]? = some i ∧ i.origin = some origin ∧
        result = .error (.diagnostic
          { cause := .tooManyLines origin g.assembly.size k, location := i.location })) := by
  obtain ⟨m, rfl⟩ := Int.eq_ofNat_of_zero_le (show 0 ≤ n by omega)
  have hm : 1 ≤ m ∧ m ≤ Register.generalCount := by omega
  have hreach : InReach m g.registers ↔ g.highest < m := by
    rw [Generated.highest_lt_iff (by omega)]
    refine forall₂_congr fun r _ => ?_
    rw [Register.mem_general_iff]
    omega
  have hlimits := limits_generate (k := k) h hm
  rcases Int.lt_or_le g.highest m with hhighest | hhighest
  · have hresult := hlimits.same (hreach.2 hhighest)
    rcases Int.lt_or_le k g.assembly.size with hsize | hsize
    · obtain ⟨i, hget, herror⟩ := checkLength_eq_error hk hsize
      obtain ⟨b, -⟩ := exists_build h
      obtain ⟨origin, horigin⟩ :=
        Option.isSome_iff_exists.1 (b.isSome_origin (List.mem_of_getElem? hget))
      rw [horigin, Option.getD_some] at herror
      rw [herror] at hresult
      refine ⟨⟨?_, fun hfits => absurd hfits.2 (Int.not_le.2 hsize)⟩, ?_, ?_, ?_⟩
      · rintro ⟨g', hg'⟩
        cases hresult.symm.trans hg'
      · intro g' hg'
        cases hresult.symm.trans hg'
      · intro hfew
        omega
      · intro _ _
        exact ⟨i, origin, hget, horigin, hresult⟩
    · rw [checkLength, if_pos hsize] at hresult
      refine ⟨⟨fun _ => ⟨hhighest, hsize⟩, fun _ => ⟨g, hresult⟩⟩, ?_, ?_, ?_⟩
      · intro g' hg'
        exact (Except.ok.inj (hresult.symm.trans hg')).symm
      · intro hfew
        omega
      · intro _ hlong
        omega
  · have hnot : ¬ InReach m g.registers := fun hin => by
      have := hreach.1 hin
      omega
    obtain ⟨e, hresult, construct, location, rfl⟩ :=
      hlimits.exhausted (List.forall_mem_nil _) hnot
    refine ⟨⟨?_, fun hfits => absurd hfits.1 (Int.not_lt.2 hhighest)⟩, ?_, ?_, ?_⟩
    · rintro ⟨g', hg'⟩
      cases hresult.symm.trans hg'
    · intro g' hg'
      cases hresult.symm.trans hg'
    · intro _
      exact ⟨construct, location, hresult⟩
    · intro hmany
      omega

/-- With five registers and all its lines, the program is lowered as it is without these limits.
With four registers they run out, and with ten lines the eleventh is too many. -/
theorem stepping_thresholds : ∃ r g, Program.stepping.resolve "stepping" true = .ok r ∧
    (r.generate "stepping" {}).2 = .ok g ∧
    (r.generate "stepping" { registerCount := 5, maxLines := g.assembly.size }).2 = .ok g ∧
    (∃ construct location, (r.generate "stepping" { registerCount := 4, maxLines := 10 }).2 =
      .error (.diagnostic { cause := .outOfRegisters construct 4, location })) ∧
    ∃ i origin, g.assembly.instructions[10]? = some i ∧ i.origin = some origin ∧
      (r.generate "stepping" { registerCount := 5, maxLines := 10 }).2 = .error (.diagnostic
        { cause := .tooManyLines origin g.assembly.size 10, location := i.location }) := by
  have hsome : ((Program.stepping.resolve "stepping" true).toOption.bind fun r =>
      (r.generate "stepping" {}).2.toOption.bind fun g =>
        if g.highest = 4 ∧ 10 < g.assembly.size then some (r, g) else none).isSome := by
    decide +kernel
  obtain ⟨⟨r, g⟩, hrg⟩ := Option.isSome_iff_exists.1 hsome
  obtain ⟨r', hresolve, hrg⟩ := Option.bind_eq_some_iff.1 hrg
  obtain ⟨g', hgenerate, hrg⟩ := Option.bind_eq_some_iff.1 hrg
  rw [toOption_eq_some] at hresolve hgenerate
  split at hrg
  case isFalse => cases hrg
  case isTrue hneeds =>
    obtain ⟨hhighest, hsize⟩ := hneeds
    refine ⟨r', g', hresolve, hgenerate, ?_, ?_, ?_⟩
    · obtain ⟨hiff, hsame, -⟩ := generate_thresholds hgenerate (n := 5) (k := g'.assembly.size)
        (by decide) (by omega)
      obtain ⟨g'', hg''⟩ := hiff.2 ⟨by omega, Int.le_refl _⟩
      exact hsame g'' hg'' ▸ hg''
    · exact (generate_thresholds hgenerate (n := 4) (k := 10) (by decide) (by decide)).2.2.1
        (by omega)
    · exact (generate_thresholds hgenerate (n := 5) (k := 10) (by decide) (by decide)).2.2.2
        (by omega) (by omega)

end Resolved.Program

end Chipwright
