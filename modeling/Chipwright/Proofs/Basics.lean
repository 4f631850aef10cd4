import Mathlib.Data.List.Forall2
import Mathlib.Data.List.Nodup

/-!
# Results that may fail, and tables

A chain of steps that may fail has a result exactly if every step of it has one. A table that
has no key twice answers a look-up with the entry it holds, wherever that stands. What is in one
of two lists that go together has its partner in the other.
-/
namespace Chipwright

theorem bind_eq_ok {ε α β : Type} {x : Except ε α} {f : α → Except ε β} {b : β} :
    (x >>= f) = .ok b ↔ ∃ a, x = .ok a ∧ f a = .ok b := by
  cases x with
  | ok a =>
    constructor
    · intro h
      exact ⟨a, rfl, h⟩
    · rintro ⟨_, heq, h⟩
      cases heq
      exact h
  | error e =>
    constructor
    · intro h
      cases h
    · rintro ⟨_, heq, _⟩
      cases heq

theorem bind_eq_error {ε α β : Type} {x : Except ε α} {f : α → Except ε β} {e : ε} :
    (x >>= f) = .error e ↔ x = .error e ∨ ∃ a, x = .ok a ∧ f a = .error e := by
  cases x <;> simp [bind, Except.bind]

theorem mapError_eq_ok {ε ε' α : Type} {x : Except ε α} {f : ε → ε'} {a : α} :
    x.mapError f = .ok a ↔ x = .ok a := by
  cases x <;> simp [Except.mapError]

theorem pure_eq_ok {ε α : Type} {a b : α} : (pure a : Except ε α) = .ok b ↔ a = b := by
  change Except.ok a = Except.ok b ↔ a = b
  simp

theorem toOption_eq_some {ε α : Type} {x : Except ε α} {a : α} :
    x.toOption = some a ↔ x = .ok a := by
  cases x with
  | ok b => simp [Except.toOption]
  | error e => simp [Except.toOption]

/-- There is a result, and it has a property that can be checked. -/
theorem exists_of_isSome_filter {ε α : Type} {x : Except ε α} {P : α → Prop} [DecidablePred P]
    (h : (x.toOption.filter fun a => P a).isSome) : ∃ a, x = .ok a ∧ P a := by
  obtain ⟨a, ha⟩ := Option.isSome_iff_exists.1 h
  obtain ⟨hx, hP⟩ := Option.filter_eq_some_iff.1 ha
  exact ⟨a, toOption_eq_some.1 hx, of_decide_eq_true hP⟩

/-- If there is no result, the reason is one of those given. -/
def FailsOnly {ε α : Type} (P : ε → Prop) (x : Except ε α) : Prop := ∀ e, x = .error e → P e

namespace FailsOnly

variable {ε α β : Type} {P : ε → Prop} {x : Except ε α}

theorem ok (a : α) : FailsOnly P (.ok a) := fun _ => nofun

theorem error {e : ε} (h : P e) : FailsOnly P (.error e : Except ε α) := by
  intro e' h'
  cases h'
  exact h

theorem bind {f : α → Except ε β} (hx : FailsOnly P x)
    (hf : ∀ a, x = .ok a → FailsOnly P (f a)) : FailsOnly P (x >>= f) := by
  cases x with
  | ok a => exact hf a rfl
  | error e =>
    intro e' h
    cases h
    exact hx e rfl

theorem mono {Q : ε → Prop} (h : FailsOnly P x) (hPQ : ∀ e, P e → Q e) : FailsOnly Q x :=
  fun e he => hPQ e (h e he)

instance [DecidablePred P] : Decidable (FailsOnly P x) :=
  match x with
  | .ok a => isTrue (ok a)
  | .error e => decidable_of_iff (P e) ⟨error, fun h => h e rfl⟩

end FailsOnly

theorem exists_of_forall₂ {α β : Type} {R : α → β → Prop} {as : List α} {bs : List β} {a : α}
    (h : List.Forall₂ R as bs) (ha : a ∈ as) : ∃ b ∈ bs, R a b := by
  obtain ⟨k, hk, rfl⟩ := List.getElem_of_mem ha
  have hk' : k < bs.length := h.length_eq ▸ hk
  exact ⟨bs[k], List.getElem_mem hk', h.get hk hk'⟩

variable {α β : Type} [BEq α] [LawfulBEq α]

theorem lookup_cons_ite [DecidableEq α] (k k' : α) (b : β) (l : List (α × β)) :
    ((k', b) :: l).lookup k = if k = k' then some b else l.lookup k := by
  by_cases h : k = k'
  · simp [h]
  · have hbeq : (k == k') = false := by simpa using h
    rw [List.lookup_cons, hbeq, if_neg h]

theorem mem_of_lookup {l : List (α × β)} {k : α} {b : β} (h : l.lookup k = some b) :
    (k, b) ∈ l := by
  obtain ⟨before, after, rfl, -⟩ := List.lookup_eq_some_iff.1 h
  simp

/-- In a table without repeated keys, an entry is what a look-up finds. -/
theorem lookup_eq_some_of_mem {l : List (α × β)} {k : α} {b : β}
    (hl : (l.map Prod.fst).Nodup) (h : (k, b) ∈ l) : l.lookup k = some b := by
  induction l with
  | nil => simp at h
  | cons e l ih =>
    obtain ⟨k', b'⟩ := e
    rw [List.map_cons, List.nodup_cons] at hl
    rcases List.mem_cons.1 h with heq | hmem
    · cases heq
      simp
    · have hne : k ≠ k' := by
        rintro rfl
        exact hl.1 (List.mem_map.2 ⟨(k, b), hmem, rfl⟩)
      have hbeq : (k == k') = false := by simpa using hne
      rw [List.lookup_cons, hbeq]
      exact ih hl.2 hmem

theorem eq_of_mem_of_mem {l : List (α × β)} {k : α} {b b' : β} (hl : (l.map Prod.fst).Nodup)
    (h : (k, b) ∈ l) (h' : (k, b') ∈ l) : b = b' :=
  Option.some.inj ((lookup_eq_some_of_mem hl h).symm.trans (lookup_eq_some_of_mem hl h'))

end Chipwright
