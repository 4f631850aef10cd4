import Chipwright.Proofs.Lowering.Steps

/-!
# What steps of lowering give, also if they fail

To compare two runs of lowering, one has to know what a step gives in every case, and what is left
of a run in the end.
-/
namespace Chipwright.Lowering

variable {α β : Type}

namespace Lower

theorem bind_apply (x : Lower α) (f : α → Lower β) (s : State) :
    (x >>= f) s = match x s with
      | .ok a s' => f a s'
      | .error e s' => .error e s' := by
  change EStateM.bind x f s = _
  unfold EStateM.bind
  cases x s <;> rfl

theorem get_apply (s : State) : (get : Lower State) s = .ok s s := rfl

theorem modify_apply (f : State → State) (s : State) :
    (modify f : Lower Unit) s = .ok () (f s) := rfl

theorem ofExcept_apply (x : Except Failure α) (s : State) :
    ofExcept x s = match x with
      | .ok a => .ok a s
      | .error e => .error e s := by
  cases x <;> rfl

/-- What is left of a step at the end: what was logged, and the result. -/
def outcome : EStateM.Result Failure State α → List LogRecord × Except Failure α
  | .ok a s => (s.log, .ok a)
  | .error e s => (s.log, .error e)

end Lower

end Chipwright.Lowering

namespace Chipwright

open Lowering

theorem Resolved.Program.generate_eq_outcome {file : String} {options : Options}
    {p : Resolved.Program} {pool : RegisterPool}
    (hpool : RegisterPool.ofCount options.registerCount [] = .ok pool) :
    p.generate file options =
      Lower.outcome ((⟨file, options, p⟩ : Context).program p { pool }) := by
  simp only [generate, hpool, EStateM.run]
  cases (⟨file, options, p⟩ : Context).program p { pool } <;> rfl

/-- A program is what its sections are, if they are not too long. -/
theorem Resolved.Program.generate_eq {file : String} {options : Options} {p : Resolved.Program}
    {pool : RegisterPool} (hpool : RegisterPool.ofCount options.registerCount [] = .ok pool) :
    (p.generate file options).2 =
      match (⟨file, options, p⟩ : Context).sections p { pool } with
      | .error e _ => .error e
      | .ok sections s => do
        checkLength options.maxLines ⟨sections, s.parameters⟩
        return ⟨⟨sections, s.parameters⟩, Register.sorted s.used⟩ := by
  simp only [generate_eq_outcome hpool, Context.program, Lower.bind_apply, Lower.get_apply,
    Lower.ofExcept_apply]
  cases (⟨file, options, p⟩ : Context).sections p { pool } with
  | error e s => rfl
  | ok sections s =>
    simp only
    cases checkLength options.maxLines ⟨sections, s.parameters⟩ <;> rfl

end Chipwright
