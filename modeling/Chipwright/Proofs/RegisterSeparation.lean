import Chipwright.Proofs.Lowering.Build
import Chipwright.Proofs.Lowering.Lines
import Chipwright.Proofs.Resolved.Scoping

/-!
# Activations share no registers

While a function runs, all its callers wait in the middle of a call. A function is given no
register that is live at any of these calls, however long the chain of them is, and none that
holds a global variable. So its parameters, which are set before the call is made, cannot
overwrite an argument of that call either.

The argument goes along the chain. A function keeps the registers that are live at its calls;
what it keeps is live at every call that it makes itself; so its callees keep it too.

## Main definitions

* `History.CallPath` — a chain of calls from the top-level code to a function.
* `History.Describes` — a history tells of all functions and calls of a program.
* `History.Separates` — activations share no registers.

## Main statements

* `Program.separates_of_generate` — in every program, activations share no registers.
-/
namespace Chipwright.Lowering

/-- A chain of calls from the top-level code to a function, with the registers that are live at
each of them, those of the latest call first. -/
inductive History.CallPath (h : History) : List (List Register) → Pass → Prop
  | main {live : List Register} {x : Pass} :
    x ∈ h.passes → (x.function.name, live) ∈ h.main.liveAtCalls → CallPath h [live] x
  | step {path : List (List Register)} {live : List Register} {x y : Pass} :
    CallPath h path x → y ∈ h.passes → (y.function.name, live) ∈ x.calls →
      CallPath h (live :: path) y

/-- A history tells of every function, of every call in the order of the source, and of every
global variable. -/
structure History.Describes (h : History) (p : Resolved.Program) : Prop where
  functions : ∀ f ∈ p.functions, ∃ x ∈ h.passes, x.function = f
  mainCalls : h.main.liveAtCalls.map Prod.fst =
    (Resolved.Stmt.callsAll none p.main).map (·.callee)
  calls : ∀ x ∈ h.passes, x.calls.map Prod.fst =
    (Resolved.Stmt.callsAll none x.function.body).map (·.callee)
  globals : ∀ v ∈ p.globals, ∃ r, (v, r) ∈ h.main.homes

/-- The functions of a program use registers apart from each other. -/
structure History.Separates (h : History) (p : Resolved.Program) (a : Assembly) : Prop where
  /-- A function is given no register that is live at a call on the way to it. -/
  calls : ∀ path x, h.CallPath path x → ∀ live ∈ path, ∀ r ∈ x.handedOut, r ∉ live
  /-- A function is given no register of a global variable. -/
  globals : ∀ x ∈ h.passes, ∀ r ∈ x.handedOut, ∀ v ∈ p.globals, (v, r) ∉ h.main.homes
  /-- No argument of a call is in the register of a parameter of the function. -/
  arguments : ∀ i ∈ a.instructions, ∀ f index r,
    i.operands = [.parameter f index, .register r] →
      ∀ index', a.parameters.lookup (f, index') ≠ some r

/-- A line that sets a parameter from a register reads one that is live at a call of the
function. -/
theorem Line.Fits.argument_live {writes : Register → Prop} {labels : Label → Prop}
    {calls : String → List Register → Prop} {l : Line} {f : String} {index : Int} {r : Register}
    (h : l.Fits writes labels calls) (hl : l.operands = [.parameter f index, .register r]) :
    ∃ live, calls f live ∧ r ∈ live := by
  cases h with
  | computes hcomputes hr =>
    cases hcomputes with
    | binary op r' x y origin | not r' x origin | move r' x origin => simp at hl
  | argument f' index' x live origin hcalls hlive =>
    simp only [List.cons.injEq, Operand.parameter.injEq, and_true] at hl
    obtain ⟨⟨rfl, rfl⟩, hx⟩ := hl
    exact ⟨live, hcalls, hlive r hx⟩
  | _ => simp at hl

/-! ## Passes -/

namespace Pass

/-- The registers that a function must not be given. -/
def kept (globals : List Register) (x : Pass) : List Register :=
  globals ++ x.before.keptFor x.function.name

namespace Settled

variable {ctx : Context} {p : Resolved.Program} {globals : List Register} {final : State}
  {x : Pass}

theorem exists_routine (hx : x.Settled ctx p globals final) :
    ∃ q : Routine, q.function = x.function ∧
      q.Made ctx globals (makesCalls p x.function.name) x.before ∧
      ∃ log, x.after = { q.finish with used := q.finish.pool.used ++ q.finish.used, log } := by
  obtain ⟨q, hq, hmade, -, log, hafter⟩ := Context.routine_of_function hx.step
  exact ⟨q, hq, hmade, log, hafter⟩

/-- A function is given no register that it has to keep. -/
theorem notMem_kept (hx : x.Settled ctx p globals final) {r : Register} (hr : r ∈ x.handedOut) :
    r ∉ x.kept globals := by
  obtain ⟨q, hq, hmade, log, hafter⟩ := hx.exists_routine
  rw [handedOut, hafter] at hr
  rw [kept, ← hq, ← hmade.kept_eq]
  exact (hmade.handedOut hr).1

/-- The calls of a pass are those of the function, and what the function keeps is live at each
of them. -/
theorem calls_spec (hx : x.Settled ctx p globals final) :
    x.calls.map Prod.fst = (Resolved.Stmt.callsAll none x.function.body).map (·.callee) ∧
      ∀ e ∈ x.calls, ∀ r ∈ x.kept globals, r ∈ e.2 := by
  obtain ⟨q, hq, hmade, log, hafter⟩ := hx.exists_routine
  obtain ⟨new, hnew, hcallees, hlive⟩ := hmade.effect.calls
  have hcalls : x.calls = new := by
    rw [Pass.calls, hafter]
    change q.finish.liveAtCalls.drop _ = new
    rw [hnew, hmade.calls, List.drop_left]
  rw [hcalls]
  refine ⟨by rw [hcallees, hq], fun e he r hr => hlive e he r ?_⟩
  rw [kept, ← hq, ← hmade.kept_eq] at hr
  exact Routine.Made.mem_live_of_mem_kept hr

/-- What is live at a call of a function is kept by it. -/
theorem mem_kept_of_mem_calls (hx : x.Settled ctx p globals final) {live : List Register}
    (hlive : (x.function.name, live) ∈ final.liveAtCalls) {r : Register} (hr : r ∈ live) :
    r ∈ x.kept globals := by
  refine List.mem_append_right _ (List.mem_flatMap.2 ⟨(x.function.name, live), ?_, hr⟩)
  exact List.mem_filter.2 ⟨hx.noted live hlive, by simp⟩

/-- The parameters of a function are in registers that it was given. -/
theorem handedOut_of_mem_parameters (hx : x.Settled ctx p globals final)
    {e : (String × Int) × Register} (he : e ∈ x.parameters) : e.2 ∈ x.handedOut := by
  obtain ⟨q, hq, hmade, log, hafter⟩ := hx.exists_routine
  rw [Context.parameters_of_routine hmade hafter] at he
  obtain ⟨i, -, hr⟩ := mem_parameterEntries.1 he
  rw [handedOut, hafter]
  exact (hmade.registers_live (List.mem_of_getElem? hr)).2

end Settled

end Pass

/-! ## Chains of calls -/

namespace Build

variable {ctx : Context} {p : Resolved.Program} {a : Assembly}

/-- The history of a program that was lowered. -/
def history (b : Build ctx p a) : History :=
  ⟨{ b.top with used := b.top.pool.used ++ b.top.used }, b.passes⟩

/-- All that is live at the calls of a chain is kept by the function at its end. -/
theorem mem_kept_of_callPath (b : Build ctx p a) {path : List (List Register)} {x : Pass}
    (h : b.history.CallPath path x) :
    x ∈ b.passes ∧ ∀ live ∈ path, ∀ r ∈ live, r ∈ x.kept b.top.globalRegisters := by
  induction h with
  | main hx hlive =>
    refine ⟨hx, fun live' hmem r hr => ?_⟩
    obtain rfl := List.mem_singleton.1 hmem
    exact (b.settled_of_mem_passes hx).mem_kept_of_mem_calls (b.grows.calls _ hlive) hr
  | @step path live x y hpath hy hlive ih =>
    obtain ⟨hx, hkept⟩ := ih
    have hsettled := b.settled_of_mem_passes hx
    -- the call is noted in the end, so that the callee keeps what is live there
    have hcallee : ∀ r ∈ live, r ∈ y.kept b.top.globalRegisters := fun r hr =>
      (b.settled_of_mem_passes hy).mem_kept_of_mem_calls
        (hsettled.calls _ (List.mem_of_mem_drop hlive)) hr
    refine ⟨hy, fun live' hmem r hr => hcallee r ?_⟩
    rcases List.mem_cons.1 hmem with rfl | hmem
    · exact hr
    · exact hsettled.calls_spec.2 _ hlive r (hkept live' hmem r hr)

theorem describes (b : Build ctx p a) (hp : p.WellScoped) : b.history.Describes p where
  functions f hf := by
    obtain ⟨k, hk, rfl⟩ := List.getElem_of_mem hf
    obtain ⟨x, hx, heq, -⟩ := b.exists_pass hp (List.getElem?_eq_getElem hk)
    exact ⟨x, hx, heq⟩
  mainCalls := by
    obtain ⟨new, hnew, hcallees, -⟩ := b.effect.calls
    change b.top.liveAtCalls.map Prod.fst = _
    rw [hnew, List.nil_append, hcallees]
  calls x hx := (b.settled_of_mem_passes hx).calls_spec.1
  globals v hv := by
    obtain ⟨own, hown, -, hmem⟩ := b.effect.taken
    rw [← hown] at hv
    obtain ⟨⟨v, r⟩, hr, rfl⟩ := List.mem_map.1 hv
    exact ⟨r, hmem _ hr⟩

/-- Every instruction that sets a parameter from a register reads one that is live at a call of
the function. -/
theorem argument_live (b : Build ctx p a) (hp : p.WellScoped) {i : Instruction}
    (hi : i ∈ a.instructions) {f : String} {index : Int} {r : Register}
    (hoperands : i.operands = [.parameter f index, .register r]) :
    ∃ live, (f, live) ∈ b.calls ∧ r ∈ live := by
  obtain ⟨sect, hsect, hi⟩ := List.mem_flatMap.1 hi
  obtain ⟨k, hk⟩ := List.getElem?_of_mem hsect
  cases b.part hk with
  | main hcode =>
    obtain ⟨l, hl, hgives⟩ := Code.exists_line_of_toSection hcode hi
    have heq := hgives.operands.symm.trans hoperands
    rcases List.mem_append.1 hl with hl | hl
    · obtain ⟨live, ⟨-, hlive, -⟩, hr⟩ := (fits_of_items (b.lowered hp) l hl).argument_live heq
      exact ⟨live, b.grows.calls _ hlive, hr⟩
    · unfold exitCode at hl
      split at hl
      · cases hl
      · cases List.mem_singleton.1 hl
        cases heq
  | function hf' =>
    obtain ⟨q, -, hq⟩ := b.exists_settled hp hf'
    obtain ⟨sect, hsect, hcode⟩ := hq.sect
    obtain ⟨s, hmade⟩ := hq.made
    obtain rfl := Option.some.inj (hsect.symm.trans hk)
    obtain ⟨l, hl, hgives⟩ := Code.exists_line_of_toSection hcode hi
    have heq := hgives.operands.symm.trans hoperands
    rcases hmade.mem_code hl with rfl | hl | rfl
    · cases heq
    · obtain ⟨live, ⟨-, hlive, -⟩, hr⟩ := (fits_of_stmts _ hq.lowered l hl).argument_live heq
      exact ⟨live, hq.calls _ hlive, hr⟩
    · cases heq
  | finish _ hcode =>
    obtain ⟨l, hl, -⟩ := Code.exists_line_of_toSection hcode hi
    simp at hl

/-- No argument of a call is in a register of a parameter of the function. -/
theorem argument_ne_parameter (b : Build ctx p a) (hp : p.WellScoped) {i : Instruction}
    (hi : i ∈ a.instructions) {f : String} {index : Int} {r : Register}
    (hoperands : i.operands = [.parameter f index, .register r]) (index' : Int) :
    a.parameters.lookup (f, index') ≠ some r := by
  intro hlookup
  obtain ⟨live, hlive, hr⟩ := b.argument_live hp hi hoperands
  have hmem := mem_of_lookup hlookup
  rw [b.parameters] at hmem
  rcases Context.parameters_of_passes b.passed hmem with hmem | ⟨x, hx, hname, hparameter⟩
  · change _ ∈ b.top.parameters at hmem
    rw [b.effect.parameters] at hmem
    cases hmem
  · have hsettled := b.settled_of_mem_passes hx
    refine hsettled.notMem_kept (hsettled.handedOut_of_mem_parameters hparameter)
      (hsettled.mem_kept_of_mem_calls ?_ hr)
    rw [← hname]
    exact hlive

theorem history_eq {file : String} {options : Options}
    (b : Build ⟨file, options, p⟩ p a)
    (hsize : RegisterPool.ofCount options.registerCount [] = .ok (.fresh b.size [])) :
    p.history file options = .ok b.history := by
  have hrun : (Context.history ⟨file, options, p⟩ p)
      { pool := RegisterPool.fresh b.size [] } = .ok b.history b.final := by
    simp only [Context.history, Lower.bind_eq_ok, Lower.modify_eq_ok, Lower.get_eq_ok,
      Lower.pure_eq_ok]
    exact ⟨_, _, b.items, (), _, rfl, _, _, ⟨rfl, rfl⟩, _, _, b.passed, rfl, rfl⟩
  simp only [Resolved.Program.history, hsize, EStateM.run, hrun]

end Build

end Chipwright.Lowering

namespace Chipwright

open Lowering (Generated)

/-- In every program that can be resolved and lowered, activations share no registers. -/
theorem Program.separates_of_generate {file source : String} {strict : Bool} {limits : Limits}
    {options : Options} {p : Program} {r : Resolved.Program} {g : Generated}
    (hresolve : p.resolve source strict limits = .ok r)
    (hgenerate : (r.generate file options).2 = .ok g) :
    ∃ h, r.history file options = .ok h ∧ h.Describes r ∧ h.Separates r g.assembly := by
  have hp := wellScoped_of_resolve hresolve
  obtain ⟨b, hsize⟩ := Resolved.Program.build_of_generate hgenerate
  refine ⟨b.history, b.history_eq hsize, b.describes hp, ?_, ?_, ?_⟩
  · intro path x hpath live hlive reg hreg hmem
    obtain ⟨hx, hkept⟩ := b.mem_kept_of_callPath hpath
    exact (b.settled_of_mem_passes hx).notMem_kept hreg (hkept live hlive reg hmem)
  · intro x hx reg hreg v hv hmem
    refine (b.settled_of_mem_passes hx).notMem_kept hreg (List.mem_append_left _ ?_)
    exact b.mem_globalRegisters hp hv (b.grows.homes _ hmem)
  · intro i hi f index reg hoperands index'
    exact b.argument_ne_parameter hp hi hoperands index'

/-- A name whose place does not matter. -/
def Name.unplaced (text : String) : Name := ⟨text, .first⟩

def Slot.d0 : Slot := .pin 0

def Slot.d1 : Slot := .pin 1

/-- The program `let x = 1; fn g(b) { write b into d0.Setting; } fn f(a) { let t = a + x; g(t);
x = t; } f(x);` -/
def Program.chain : Program where
  statements := [
    .define .first (.unplaced "x") (.literal .first (.int 1)),
    .function .first (.unplaced "g") [.unplaced "b"] .first [
      .write .first (.name (.unplaced "b")) (.direct .first .d0) "Setting"],
    .function .first (.unplaced "f") [.unplaced "a"] .first [
      .define .first (.unplaced "t")
        (.binary .add (.name (.unplaced "a")) (.name (.unplaced "x"))),
      .call (.unplaced "g") [.name (.unplaced "t")],
      .assign (.unplaced "x") (.name (.unplaced "t"))],
    .call (.unplaced "f") [.name (.unplaced "x")]]

theorem Program.chain_separates : ∃ r g, chain.resolve "chain" true = .ok r ∧
    (r.generate "chain" {}).2 = .ok g ∧
    ∃ h, r.history "chain" {} = .ok h ∧ h.Describes r ∧ h.Separates r g.assembly := by
  have hsome : ((chain.resolve "chain" true).toOption.bind fun r =>
      (r.generate "chain" {}).2.toOption).isSome := by decide +kernel
  obtain ⟨g, hg⟩ := Option.isSome_iff_exists.1 hsome
  obtain ⟨r, hr, hg⟩ := Option.bind_eq_some_iff.1 hg
  rw [toOption_eq_some] at hr hg
  exact ⟨r, g, hr, hg, separates_of_generate hr hg⟩

end Chipwright
