import Chipwright.Proofs.Relabeling.Trees

/-!
# Failures under other names and places

Two runs go together if both have results that belong together, or both fail for the same reason.
What a failure says may hold names, also such that were looked up because they are similar, so under
other names only its form is the same. If the names are kept, it says the same, apart from places.
-/
namespace Chipwright

/-! ## Results -/

/-- Both results are there and belong together, or both are missing for reasons that do. -/
def Matches {ε ε' α β : Type} (E : ε → ε' → Prop) (R : α → β → Prop) :
    Except ε α → Except ε' β → Prop
  | .ok a, .ok b => R a b
  | .error e, .error e' => E e e'
  | _, _ => False

namespace Matches

variable {ε ε' α β γ δ : Type} {E : ε → ε' → Prop} {R : α → β → Prop} {S : γ → δ → Prop}
  {x : Except ε α} {y : Except ε' β}

theorem ok {a : α} {b : β} (h : R a b) : Matches E R (.ok a) (.ok b) := h

theorem error {e : ε} {e' : ε'} (h : E e e') : Matches E R (.error e) (.error e') := h

theorem bind {f : α → Except ε γ} {g : β → Except ε' δ} (hx : Matches E R x y)
    (hf : ∀ a b, R a b → Matches E S (f a) (g b)) : Matches E S (x >>= f) (y >>= g) := by
  cases x with
  | ok a =>
    cases y with
    | ok b => exact hf a b hx
    | error e' => cases hx
  | error e =>
    cases y with
    | ok b => cases hx
    | error e' => exact hx

theorem mono {E' : ε → ε' → Prop} {R' : α → β → Prop} (h : Matches E R x y)
    (hE : ∀ e e', E e e' → E' e e') (hR : ∀ a b, R a b → R' a b) : Matches E' R' x y := by
  cases x with
  | ok a =>
    cases y with
    | ok b => exact hR a b h
    | error e' => cases h
  | error e =>
    cases y with
    | ok b => cases h
    | error e' => exact hE e e' h

theorem of_map {f : α → γ} {g : β → δ} (h : Matches E S (x.map f) (y.map g)) :
    Matches E (fun a b => S (f a) (g b)) x y := by
  cases x <;> cases y <;> exact h

theorem map_error {ζ ζ' : Type} {E' : ζ → ζ' → Prop} {f : ε → ζ} {g : ε' → ζ'}
    (h : Matches E R x y) (hE : ∀ e e', E e e' → E' (f e) (g e')) :
    Matches E' R (x.mapError f) (y.mapError g) := by
  cases x with
  | ok a =>
    cases y with
    | ok b => exact h
    | error e' => cases h
  | error e =>
    cases y with
    | ok b => cases h
    | error e' => exact hE e e' h

/-- What belongs together are the results. -/
theorem attach (h : Matches E R x y) :
    Matches E (fun a b => R a b ∧ x = .ok a ∧ y = .ok b) x y := by
  cases x with
  | ok a =>
    cases y with
    | ok b => exact ⟨h, rfl, rfl⟩
    | error e' => cases h
  | error e =>
    cases y with
    | ok b => cases h
    | error e' => exact h

theorem exists_ok {a : α} (h : Matches E R x y) (hx : x = .ok a) : ∃ b, y = .ok b ∧ R a b := by
  subst hx
  cases y with
  | ok b => exact ⟨b, rfl, h⟩
  | error e' => cases h

theorem exists_error {e : ε} (h : Matches E R x y) (hx : x = .error e) :
    ∃ e', y = .error e' ∧ E e e' := by
  subst hx
  cases y with
  | ok b => cases h
  | error e' => exact ⟨e', rfl, h⟩

end Matches

/-! ## Failures -/

/-- Which fault it is, whatever its details are. -/
def Cause.form (c : Cause) : Nat × String := (c.ctorIdx, c.kind)

/-- The fault without the places that it tells of. -/
def Cause.unplaced : Cause → Cause
  | .duplicate name _ => .duplicate name none
  | c => c

namespace Failure

/-- Which failure it is, whatever its details are. -/
def form : Failure → Nat × Option (Nat × String)
  | .diagnostic d => (0, some d.cause.form)
  | e => (e.ctorIdx, none)

/-- What a failure says, without the places and the text it shows. -/
def unplaced : Failure → Failure
  | .diagnostic d => .diagnostic { cause := d.cause.unplaced }
  | e => e

/-- The place that a failure is about. -/
def location? : Failure → Option Location
  | .diagnostic d => d.location
  | _ => none

/-- The line that a failure shows. -/
def sourceLine? : Failure → Option String
  | .diagnostic d => d.sourceLine
  | _ => none

theorem form_eq_tooDeep {e : Failure} : e.form = tooDeep.form ↔ e = tooDeep := by
  constructor
  · intro h
    cases e with
    | tooDeep => rfl
    | _ => cases h
  · rintro rfl
    rfl

theorem atFault_cases (e : Failure) :
    e = tooDeep ∧ e.atFault = .diagnostic { cause := .nestingTooDeep } ∨
      e ≠ tooDeep ∧ e.atFault = e := by
  cases e with
  | tooDeep => exact Or.inl ⟨rfl, rfl⟩
  | _ => exact Or.inr ⟨nofun, rfl⟩

end Failure

namespace Relabeling

variable (m : Relabeling)

/-- If the names are kept, the texts are the same. -/
def SameText (s s' : String) : Prop := m.KeepsNames → s' = s

/-- A text that tells a name. -/
theorem sameText (text : String → String) (x : String) :
    m.SameText (text x) (text (m.name x)) :=
  fun h => congrArg text (h x)

theorem SameText.refl (s : String) : m.SameText s s := fun _ => rfl

theorem SameText.comp {s s' : String} (h : m.SameText s s') (text : String → String) :
    m.SameText (text s) (text s') :=
  fun hm => congrArg text (h hm)

/-- A place that is exchanged, or the start of the text, where what belongs to the whole program
stands. -/
inductive Moves : Option Location → Option Location → Prop
  | none : Moves .none .none
  | moved (file : String) (pos : Position) :
    Moves (some (pos.inFile file)) (some ((m.pos pos).inFile file))
  | first (file : String) :
    Moves (some (Position.first.inFile file)) (some (Position.first.inFile file))

/-- The failures of two runs go together. -/
structure Retells (e e' : Failure) : Prop where
  form : e'.form = e.form
  told : m.KeepsNames → e'.unplaced = e.unplaced
  place : m.Moves e.location? e'.location?
  /-- No line is shown yet. -/
  unshown : e.sourceLine? = none

variable {m}

/-- A failure that names no place. -/
theorem Retells.refl {e : Failure} (h : e.location? = none) (hline : e.sourceLine? = none) :
    m.Retells e e :=
  ⟨rfl, fun _ => rfl, h ▸ .none, hline⟩

theorem Retells.diagnostic {c c' : Cause} {l l' : Option Location} (hform : c'.form = c.form)
    (htold : m.KeepsNames → c'.unplaced = c.unplaced) (hplace : m.Moves l l') :
    m.Retells (.diagnostic { cause := c, location := l })
      (.diagnostic { cause := c', location := l' }) where
  form := congrArg (fun form => (0, some form)) hform
  told h := congrArg (fun cause => Failure.diagnostic { cause }) (htold h)
  place := hplace
  unshown := rfl

theorem Retells.located {c c' : Cause} (file : String) (pos : Position) (hform : c'.form = c.form)
    (htold : m.KeepsNames → c'.unplaced = c.unplaced) :
    m.Retells (.located file pos c) (.located file (m.pos pos) c') :=
  .diagnostic hform htold (.moved file pos)

theorem Retells.atFault {e e' : Failure} (h : m.Retells e e') :
    m.Retells e.atFault e'.atFault := by
  rcases Failure.atFault_cases e with ⟨rfl, hfault⟩ | ⟨hne, hfault⟩
  · obtain rfl := Failure.form_eq_tooDeep.1 h.form
    exact .refl rfl rfl
  · rcases Failure.atFault_cases e' with ⟨rfl, -⟩ | ⟨-, hfault'⟩
    · exact absurd (Failure.form_eq_tooDeep.1 h.form.symm) hne
    · rwa [hfault, hfault']

/-- A run that does not depend on names and places. -/
theorem Retells.same {α : Type} {x : Except Failure α}
    (h : ∀ e, x = .error e → e.location? = none ∧ e.sourceLine? = none) :
    Matches m.Retells Eq x x := by
  cases x with
  | ok a => exact Matches.ok rfl
  | error e => exact Matches.error (.refl (h e rfl).1 (h e rfl).2)

variable (m)

/-- What a run gives is what the other one gives, exchanged by `f`. -/
abbrev Carries {α β : Type} (f : α → β) (x : Except Failure α) (y : Except Failure β) : Prop :=
  Matches m.Retells (fun a b => b = f a) x y

variable {m}

theorem Carries.ok {α β : Type} {f : α → β} (a : α) : m.Carries f (.ok a) (.ok (f a)) := rfl

theorem Carries.andThen {α β γ δ : Type} {f : α → β} {g : γ → δ} {x : Except Failure α}
    {y : Except Failure β} {k : α → Except Failure γ} {k' : β → Except Failure δ}
    (hx : m.Carries f x y) (hk : ∀ a, m.Carries g (k a) (k' (f a))) :
    m.Carries g (x >>= k) (y >>= k') := by
  refine hx.bind ?_
  rintro a _ rfl
  exact hk a

end Relabeling

end Chipwright
