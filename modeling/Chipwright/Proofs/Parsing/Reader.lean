import Chipwright.Program.Parser
import Chipwright.Proofs.Parsing.Expression

/-!
# What readers read

One equivalence for each reader: which value it gives for which tokens, and what it leaves.
With these, both halves of the correspondence with the grammar read off the same lines.
-/
namespace Chipwright

namespace Reader

open Grammar Operator

variable {α β : Type} {p : Reader α} {f : α → Reader β} {ts rest : List Token} {a : α} {b : β}

/-- The reader succeeds with `a` and leaves `rest`. -/
def Reads (p : Reader α) (ts : List Token) (a : α) (rest : List Token) : Prop :=
  ∃ h, p ts = .ok ⟨(a, rest), h⟩

theorem Reads.unique {a' : α} {rest' : List Token} (h : p.Reads ts a rest)
    (h' : p.Reads ts a' rest') : a = a' ∧ rest = rest' := by
  obtain ⟨_, h⟩ := h
  obtain ⟨_, h'⟩ := h'
  rw [h] at h'
  simpa using h'

@[simp] theorem reads_pure {a' : α} :
    (Pure.pure a : Reader α).Reads ts a' rest ↔ a = a' ∧ ts = rest := by
  constructor
  · rintro ⟨_, h⟩
    simpa [Pure.pure, pure] using h
  · rintro ⟨rfl, rfl⟩
    exact ⟨Nat.le_refl _, rfl⟩

@[simp] theorem reads_bind :
    (p >>= f).Reads ts b rest ↔ ∃ a mid, p.Reads ts a mid ∧ (f a).Reads mid b rest := by
  constructor
  · rintro ⟨hle, h⟩
    simp only [Bind.bind, bind] at h
    split at h
    · cases h
    · rename_i a mid hmid hp
      split at h
      · cases h
      · rename_i r hr hf
        obtain rfl : r = (b, rest) := by simpa using h
        exact ⟨a, mid, ⟨hmid, hp⟩, hr, hf⟩
  · rintro ⟨a, mid, ⟨h₁, hp⟩, h₂, hf⟩
    exact ⟨Nat.le_trans h₂ h₁, by simp only [Bind.bind, bind, hp, hf]⟩

@[simp] theorem not_reads_fail {fault : ParseFault} : ¬ (fail fault : Reader α).Reads ts a rest :=
  fun ⟨_, h⟩ => by cases h

@[simp] theorem reads_expect {kind : TokenKind} {pos : Position} :
    (expect kind).Reads ts pos rest ↔ ts = ⟨kind, pos⟩ :: rest := by
  constructor
  · rintro ⟨_, h⟩
    cases ts with
    | nil => cases h
    | cons t ts =>
      rw [expect] at h
      split at h
      case isTrue hkind =>
        obtain ⟨rfl, rfl⟩ : t.pos = pos ∧ ts = rest := by simpa using h
        simp [← hkind]
      case isFalse => cases h
  · rintro rfl
    exact ⟨Nat.le_succ _, by simp [expect]⟩

@[simp] theorem reads_symbol {s : Symbol} {u : Unit} :
    (symbol s).Reads ts u rest ↔ ∃ pos, ts = ⟨.symbol s, pos⟩ :: rest := by
  simp [symbol]

@[simp] theorem reads_keyword {k : Keyword} {u : Unit} :
    (keyword k).Reads ts u rest ↔ ∃ pos, ts = ⟨.keyword k, pos⟩ :: rest := by
  simp [keyword]

@[simp] theorem reads_accept {kind : TokenKind} {found : Bool} :
    (accept kind).Reads ts found rest ↔
      if found then ∃ pos, ts = ⟨kind, pos⟩ :: rest
      else ts = rest ∧ ∀ t ∈ rest.head?, t.kind ≠ kind := by
  constructor
  · rintro ⟨_, h⟩
    cases ts with
    | nil =>
      obtain ⟨rfl, rfl⟩ : false = found ∧ [] = rest := by simpa [accept] using h
      simp
    | cons t ts =>
      rw [accept] at h
      split at h
      case isTrue hkind =>
        obtain ⟨rfl, rfl⟩ : true = found ∧ ts = rest := by simpa using h
        exact ⟨t.pos, by simp [← hkind]⟩
      case isFalse hkind =>
        obtain ⟨rfl, rfl⟩ : false = found ∧ t :: ts = rest := by simpa using h
        simpa using hkind
  · cases found with
    | true =>
      rintro ⟨pos, rfl⟩
      exact ⟨Nat.le_succ _, by simp [accept]⟩
    | false =>
      rintro ⟨rfl, hkind⟩
      refine ⟨Nat.le_refl _, ?_⟩
      cases ts with
      | nil => rfl
      | cons t ts => simp [accept, hkind t (by simp)]

@[simp] theorem reads_take {expected : String} {pick : Token → Option α} :
    (take expected pick).Reads ts a rest ↔ ∃ t, ts = t :: rest ∧ pick t = some a := by
  constructor
  · rintro ⟨_, h⟩
    cases ts with
    | nil => cases h
    | cons t ts =>
      rw [take] at h
      split at h
      · rename_i hpick
        obtain ⟨rfl, rfl⟩ : _ = a ∧ ts = rest := by simpa using h
        exact ⟨t, rfl, hpick⟩
      · cases h
  · rintro ⟨t, rfl, hpick⟩
    exact ⟨Nat.le_succ _, by simp [take, hpick]⟩

@[simp] theorem reads_name {expected : String} {x : Name} :
    (name expected).Reads ts x rest ↔ ts = ⟨.name x.text, x.pos⟩ :: rest := by
  simp only [name, reads_take]
  constructor
  · rintro ⟨⟨kind, pos⟩, rfl, hpick⟩
    cases kind <;> simp at hpick
    subst hpick
    rfl
  · rintro rfl
    exact ⟨_, rfl, rfl⟩

theorem reads_expression {e : Expr} :
    expression.Reads ts e rest ↔ ∃ used, ts = used ++ rest ∧ IsExpr used e ∧ Stops rest := by
  constructor
  · rintro ⟨_, h⟩
    unfold expression at h
    split at h
    · cases h
    · rename_i r hread
      obtain rfl : r = (e, rest) := by simpa using h
      exact isExpr_of_read hread
  · rintro ⟨used, rfl, he, hrest⟩
    have hread := read_of_isExpr he hrest
    refine ⟨read_length_le hread, ?_⟩
    unfold expression
    split
    · simp_all
    · rename_i r hr
      obtain rfl : (e, rest) = r := by simpa [hread] using hr
      rfl

theorem reads_literal {pos : Position} {x : Literal} :
    literal.Reads ts (pos, x) rest ↔ ∃ used, ts = used ++ rest ∧ IsLiteral used pos x := by
  constructor
  · rintro ⟨_, h⟩
    cases ts with
    | nil => cases h
    | cons t ts =>
      obtain ⟨kind, tpos⟩ := t
      cases kind with
      | keyword k =>
        cases k <;> simp [literal, Literal.ofNumber?] at h
        · obtain ⟨⟨rfl, rfl⟩, rfl⟩ := h
          exact ⟨[_], rfl, .true_⟩
        · obtain ⟨⟨rfl, rfl⟩, rfl⟩ := h
          exact ⟨[_], rfl, .false_⟩
      | symbol s =>
        cases s with
        | minus =>
          cases ts with
          | nil => cases h
          | cons u ts =>
            simp only [literal] at h
            split at h
            · rename_i value hnumber
              obtain ⟨⟨rfl, rfl⟩, rfl⟩ : (tpos = pos ∧ value = x) ∧ ts = rest := by
                simpa using h
              exact ⟨[_, u], rfl, isLiteral_of_ofNumber?_minus tpos u.pos hnumber⟩
            · cases h
            · cases h
        | _ => simp [literal, Literal.ofNumber?] at h
      | name | device => simp [literal, Literal.ofNumber?] at h
      | integer | float =>
        simp only [literal] at h
        split at h
        · rename_i value hnumber
          obtain ⟨⟨rfl, rfl⟩, rfl⟩ : (tpos = pos ∧ value = x) ∧ ts = rest := by simpa using h
          exact ⟨[_], rfl, isLiteral_of_ofNumber? hnumber⟩
        · cases h
        · cases h
  · rintro ⟨used, rfl, hx⟩
    refine ⟨by simp, ?_⟩
    cases hx with
    | integer bound =>
      have hbound : _ ≤ Literal.greatest := bound
      simp [literal, Literal.ofNumber?, hbound]
    | _ => simp [literal, Literal.ofNumber?]

theorem reads_deviceProperty {device : Device} {property : String} :
    deviceProperty.Reads ts (device, property) rest ↔ ∃ used pos₁ pos₂,
      ts = used ++ ⟨.symbol .dot, pos₁⟩ :: ⟨.name property, pos₂⟩ :: rest ∧
        IsDevice used device := by
  simp only [deviceProperty, reads_bind, reads_take, reads_symbol, reads_name, reads_pure]
  constructor
  · rintro ⟨d, mid, ⟨⟨kind, pos⟩, rfl, hpick⟩, u, mid', ⟨pos₁, rfl⟩, x, mid'', rfl, hpair, rfl⟩
    obtain ⟨rfl, rfl⟩ : d = device ∧ x.text = property := by simpa using hpair
    cases kind with
    | device slot =>
      obtain rfl : Device.direct pos slot = d := by simpa using hpick
      exact ⟨[_], pos₁, x.pos, rfl, .direct⟩
    | name text =>
      obtain rfl : Device.named ⟨text, pos⟩ = d := by simpa using hpick
      exact ⟨[_], pos₁, x.pos, rfl, .named⟩
    | _ => simp at hpick
  · rintro ⟨used, pos₁, pos₂, rfl, hdevice⟩
    cases hdevice <;>
      exact ⟨_, _, ⟨_, rfl, rfl⟩, (), _, ⟨pos₁, rfl⟩, ⟨property, pos₂⟩, _, rfl, rfl, rfl⟩

/-! ### Repetition -/

section Lists

variable {item : Reader α} {as : List α}

/-- The tokens are at their end or at a token that `stop` picks. -/
def Ends (stop : TokenKind → Bool) (rest : List Token) : Prop :=
  ∀ t ∈ rest.head?, stop t.kind = true

theorem reads_many_iff {stop : TokenKind → Bool} {item : Token → Reader α} :
    Reads (many stop item) ts as rest ↔
      (as = [] ∧ ts = rest ∧ Ends stop rest) ∨
        ∃ t ts' a as' mid, as = a :: as' ∧ ts = t :: ts' ∧ stop t.kind = false ∧
          (item t).Reads ts' a mid ∧ Reads (many stop item) mid as' rest := by
  constructor
  · rintro ⟨_, h⟩
    cases ts with
    | nil =>
      obtain ⟨rfl, rfl⟩ : [] = as ∧ [] = rest := by simpa [many] using h
      exact .inl ⟨rfl, rfl, by simp [Ends]⟩
    | cons t ts =>
      rw [many] at h
      split at h
      case isTrue hstop =>
        obtain ⟨rfl, rfl⟩ : [] = as ∧ t :: ts = rest := by simpa using h
        exact .inl ⟨rfl, rfl, by simpa [Ends] using hstop⟩
      case isFalse hstop =>
        split at h
        · cases h
        rename_i a mid hmid hitem
        split at h
        · cases h
        rename_i as' rest' hrest htail
        obtain ⟨rfl, rfl⟩ : a :: as' = as ∧ rest' = rest := by simpa using h
        exact .inr ⟨t, ts, a, as', mid, rfl, rfl, by simpa using hstop, ⟨hmid, hitem⟩, hrest,
          htail⟩
  · rintro (⟨rfl, rfl, hstop⟩ | ⟨t, ts', a, as', mid, rfl, rfl, hstop, ⟨h₁, hitem⟩, h₂, htail⟩)
    · refine ⟨Nat.le_refl _, ?_⟩
      cases ts with
      | nil => simp [many]
      | cons t ts => rw [many, if_pos (hstop t (by simp))]
    · exact ⟨Nat.le_succ_of_le (Nat.le_trans h₂ h₁), by rw [many]; simp [hstop, hitem, htail]⟩

theorem endsList_eq_false_iff {kind : TokenKind} :
    endsList kind = false ↔ kind = .symbol .comma := by
  simp [endsList]

theorem reads_commaTail_iff : Reads (commaTail item) ts as rest ↔
    (as = [] ∧ ts = rest ∧ ∀ t ∈ rest.head?, t.kind ≠ .symbol .comma) ∨
      ∃ pos ts' a as' mid, as = a :: as' ∧ ts = ⟨.symbol .comma, pos⟩ :: ts' ∧
        item.Reads ts' a mid ∧ Reads (commaTail item) mid as' rest := by
  refine reads_many_iff.trans (or_congr (by simp [Ends, endsList]) ⟨?_, ?_⟩)
  · rintro ⟨⟨kind, pos⟩, ts', a, as', mid, hcons, rfl, hkind, hreads⟩
    obtain rfl := endsList_eq_false_iff.1 hkind
    exact ⟨pos, ts', a, as', mid, hcons, rfl, hreads⟩
  · rintro ⟨pos, ts', a, as', mid, hcons, rfl, hreads⟩
    exact ⟨_, ts', a, as', mid, hcons, rfl, rfl, hreads⟩

end Lists

end Reader

end Chipwright
