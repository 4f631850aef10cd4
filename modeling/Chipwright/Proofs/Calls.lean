import Chipwright.Proofs.Lexical.Resolution
import Chipwright.Proofs.Resolved.Scoping

/-!
# Recursion, and the order of functions

Two facts about the calls in a program whose names can be resolved, both said about its text.
The program is refused as recursive exactly if a function can call itself, and the report then
shows a cycle of calls. Otherwise the order of its functions is the least one in which callers
come first.

Both follow from what is known of call graphs, since the graph of the resolved program has the
functions and the calls of the text.

## Main definitions

* `Program.CallsAt`: which function calls which one, and where
* `Program.IsCallOrder`: an order of the functions with callers first

## Main statements

* `Program.recursive_iff_transGen`: what is refused as recursive, and what is reported
* `Program.functionOrder_least`: the order of the functions
-/
namespace Chipwright

open Relation Resolved

/-! ### Functions and calls of a text -/

/-- The name of the function that a statement defines. -/
def Stmt.functionName? : Stmt → Option String
  | function _ x _ _ _ => some x.text
  | _ => none

/-- The functions of a resolved program have the names of those in the text. -/
theorem Resolved.Context.functionNames_of_items {ctx : Context} {env env' : Env}
    {sts : List Chipwright.Stmt} {is : List Item} (h : ctx.items sts env = .ok (is, env')) :
    (is.filterMap Item.func?).map Function.name = sts.filterMap Stmt.functionName? := by
  induction sts generalizing env is with
  | nil =>
    cases h
    rfl
  | cons st sts ih =>
    obtain ⟨i, env₁, is₁, h₁, h₂, rfl⟩ := items_cons_eq_ok h
    have hrest := ih h₂
    rcases item_eq_ok h₁ with ⟨pos, slotPos, slot, x, rfl, rfl, rfl⟩ |
      ⟨pos, x, valuePos, value, rfl, rfl, rfl⟩ | ⟨pos, x, params, bodyPos, body, f, rfl, hf, rfl⟩ |
      ⟨st', hnone, -, rfl⟩
    · exact hrest
    · exact hrest
    · obtain ⟨-, -, -, -, -, -, rfl, -⟩ := functionItem_eq_ok hf
      exact congrArg (x.text :: ·) hrest
    · have hname : st.functionName? = none := by
        cases st <;> first | rfl | cases hnone
      rw [List.filterMap_cons_none hname]
      exact hrest

namespace Program

variable {callee caller : String}

variable {file : String} {strict : Bool} {limits : Limits} {p : Program} {r : Resolved.Program}

/-- The names of the functions, in the order of the text. -/
def functionNames (p : Program) : List String := p.statements.filterMap Stmt.functionName?

/-- A call of the second function stands at the position in the first one. -/
def CallsAt (p : Program) (caller callee : String) (pos : Position) : Prop :=
  ∃ σ args, ⟨σ, .call ⟨callee, pos⟩ args⟩ ∈ p.placed ∧ σ.function = some caller

theorem functionNames_of_program (h : ({ file, strict } : Context).program p = .ok r) :
    r.callGraph.functions = p.functionNames := by
  simp only [Context.program, bind_eq_ok, pure_eq_ok] at h
  obtain ⟨scopes, -, ⟨items, env⟩, hitems, rfl⟩ := h
  exact Context.functionNames_of_items hitems

theorem sites_of_program (h : ({ file, strict } : Context).program p = .ok r) :
    r.callGraph.sites = p.placed.flatMap Placed.calls :=
  ((decides_program file strict p).of_eq_ok h).2.2

theorem callsAt_iff_mem {pos : Position} :
    p.CallsAt caller callee pos ↔
      ⟨some caller, callee, pos⟩ ∈ p.placed.flatMap Placed.calls := by
  simp only [CallsAt, List.mem_flatMap]
  constructor
  · rintro ⟨σ, args, hx, hcaller⟩
    exact ⟨_, hx, by simp [Placed.calls, hcaller]⟩
  · rintro ⟨⟨σ, st⟩, hx, hsite⟩
    cases st with
    | call x args =>
      obtain ⟨hcaller, rfl, rfl⟩ : some caller = σ.function ∧ callee = x.text ∧ pos = x.pos := by
        simpa [Placed.calls] using hsite
      exact ⟨σ, args, hx, hcaller.symm⟩
    | _ => cases hsite

theorem CallsAt.calls {pos : Position} (h : p.CallsAt caller callee pos) :
    p.Calls caller callee := by
  obtain ⟨σ, args, hx, hcaller⟩ := h
  exact ⟨σ, ⟨callee, pos⟩, args, hx, hcaller, rfl⟩

theorem callsAt_eq (h : r.callGraph.sites = p.placed.flatMap Placed.calls) :
    r.callGraph.CallsAt = p.CallsAt := by
  ext caller callee pos
  rw [callsAt_iff_mem, CallGraph.CallsAt, h]

theorem mem_functionNames_of_calls (hprogram : ({ file, strict } : Context).program p = .ok r)
    (h : p.Calls caller callee) : caller ∈ p.functionNames := by
  rw [← calls_eq (sites_of_program hprogram)] at h
  obtain ⟨site, hsite, hcaller, -⟩ := h
  rw [← functionNames_of_program hprogram]
  exact mem_functions_of_mem_sites site hsite caller hcaller

/-! ### Recursion -/

/-- If the names can be resolved, only the calls decide what comes of a program. -/
theorem resolve_eq_of_program (h : ({ file, strict } : Context).program p = .ok r) :
    p.resolve file strict limits =
      r.callGraph.check file limits.chain >>= fun _ => Pure.pure r := by
  rw [resolve, h]
  rfl

theorem resolve_eq_error_iff (h : ({ file, strict } : Context).program p = .ok r) {e : Failure} :
    p.resolve file strict limits = .error e ↔ r.callGraph.check file limits.chain = .error e := by
  rw [resolve_eq_of_program h]
  cases r.callGraph.check file limits.chain with
  | ok u =>
    constructor <;> intro h <;> cases h
  | error e' =>
    constructor <;> intro h <;> cases h <;> rfl

/-- A program whose names can be resolved and whose chains of calls can be followed is refused as
recursive exactly if a function can call itself, and accepted otherwise. The report shows
functions that call one another in turn, and the place of the call that closes the cycle. -/
theorem recursive_iff_transGen (hprogram : ({ file, strict } : Context).program p = .ok r)
    (hchains : ∀ path, IsCallChain p.Calls path → path.length ≤ limits.chain) :
    ((∃ cycle pos, p.resolve file strict limits =
        .error (.located file pos (.recursiveCall cycle))) ↔ ∃ f, TransGen p.Calls f f) ∧
      (p.resolve file strict limits = .ok r ↔ ∀ f, ¬ TransGen p.Calls f f) ∧
      ∀ cycle pos, p.resolve file strict limits =
        .error (.located file pos (.recursiveCall cycle)) → IsCallCycle p.CallsAt cycle pos := by
  have hsites := sites_of_program hprogram
  have hcycle : ∀ cycle pos, p.resolve file strict limits =
      .error (.located file pos (.recursiveCall cycle)) →
        IsCallCycle r.callGraph.CallsAt cycle pos := fun cycle pos h =>
    CallGraph.cycle_of_check ((resolve_eq_error_iff hprogram).1 h)
  have hrecursive : (∃ cycle pos, p.resolve file strict limits =
      .error (.located file pos (.recursiveCall cycle))) → ∃ f, TransGen p.Calls f f := by
    rintro ⟨cycle, pos, h⟩
    have hf := (hcycle cycle pos h).exists_transGen
    rwa [← CallGraph.calls_eq_callsAt, calls_eq hsites] at hf
  have haccepted : p.resolve file strict limits = .ok r → ∀ f, ¬ TransGen p.Calls f f := by
    intro h
    have hacyclic := acyclic_of_resolve h
    rwa [CallGraph.Acyclic, calls_eq hsites] at hacyclic
  have hcases : p.resolve file strict limits = .ok r ∨
      ∃ cycle pos, p.resolve file strict limits =
        .error (.located file pos (.recursiveCall cycle)) := by
    rcases r.callGraph.check_cases file limits.chain with
      hok | ⟨cycle, pos, herror⟩ | ⟨-, path, hpath, hlong⟩
    · exact .inl (resolve_eq_ok_iff.2 ⟨hprogram, hok⟩)
    · exact .inr ⟨cycle, pos, (resolve_eq_error_iff hprogram).2 herror⟩
    · rw [calls_eq hsites] at hpath
      have hshort := hchains path hpath
      omega
  refine ⟨⟨hrecursive, ?_⟩, ⟨haccepted, ?_⟩, ?_⟩
  · rintro ⟨f, hf⟩
    exact hcases.resolve_left fun h => haccepted h f hf
  · intro hacyclic
    refine hcases.resolve_right fun h => ?_
    obtain ⟨f, hf⟩ := hrecursive h
    exact hacyclic f hf
  · rw [← callsAt_eq hsites]
    exact hcycle

/-- The program `fn even(n) { odd(n - 1); } fn odd(n) { if (n) { even(n - 1); } } even(4);` -/
def parity : Program where
  statements := [
    .function ⟨1, 1⟩ ⟨"even", ⟨1, 4⟩⟩ [⟨"n", ⟨1, 9⟩⟩] ⟨1, 12⟩
      [.call ⟨"odd", ⟨1, 14⟩⟩ [.binary .sub (.name ⟨"n", ⟨1, 18⟩⟩) (.literal ⟨1, 22⟩ (.int 1))]],
    .function ⟨1, 28⟩ ⟨"odd", ⟨1, 31⟩⟩ [⟨"n", ⟨1, 35⟩⟩] ⟨1, 38⟩
      [.ifThen ⟨1, 40⟩ (.name ⟨"n", ⟨1, 44⟩⟩) ⟨1, 47⟩
        [.call ⟨"even", ⟨1, 49⟩⟩
          [.binary .sub (.name ⟨"n", ⟨1, 54⟩⟩) (.literal ⟨1, 58⟩ (.int 1))]]],
    .call ⟨"even", ⟨1, 66⟩⟩ [.literal ⟨1, 71⟩ (.int 4)]]

theorem recursive_iff_transGen_parity :
    (∃ r, ({ file := "parity", strict := true } : Context).program parity = .ok r) ∧
      (∀ path, IsCallChain parity.Calls path → path.length ≤ ({} : Limits).chain) ∧
      TransGen parity.Calls "even" "even" ∧
      ∃ cycle pos, parity.resolve "parity" true =
          .error (.located "parity" pos (.recursiveCall cycle)) ∧
        IsCallCycle parity.CallsAt cycle pos := by
  have hsome : (({ file := "parity", strict := true } : Context).program
      parity).toOption.isSome := by decide +kernel
  obtain ⟨r, hr⟩ := Option.isSome_iff_exists.1 hsome
  have hprogram := toOption_eq_some.1 hr
  have hchains : ∀ path, IsCallChain parity.Calls path → path.length ≤ ({} : Limits).chain := by
    intro path hpath
    have hle := hpath.length_le fun caller callee h => mem_functionNames_of_calls hprogram h
    exact hle.trans (by decide)
  have heven : parity.CallsAt "even" "odd" ⟨1, 14⟩ := callsAt_iff_mem.2 (by decide +kernel)
  have hodd : parity.CallsAt "odd" "even" ⟨1, 49⟩ := callsAt_iff_mem.2 (by decide +kernel)
  have hself : TransGen parity.Calls "even" "even" := .tail (.single heven.calls) hodd.calls
  obtain ⟨hiff, -, hcycle⟩ := recursive_iff_transGen hprogram hchains
  obtain ⟨cycle, pos, herror⟩ := hiff.2 ⟨_, hself⟩
  exact ⟨⟨r, hprogram⟩, hchains, hself, cycle, pos, herror, hcycle cycle pos herror⟩

/-! ### The order of functions -/

/-- An order of the functions of a program in which callers come before what they call. -/
structure IsCallOrder (p : Program) (order : List String) : Prop where
  perm : order.Perm p.functionNames
  before : ∀ caller callee, p.Calls caller callee → order.idxOf caller < order.idxOf callee

theorem IsCallOrder.descends {order : List String} (h : p.IsCallOrder order)
    (hnodup : p.functionNames.Nodup) (hcalls : r.callGraph.Calls = p.Calls) :
    r.callGraph.Descends order where
  pairwise := by
    have hnodup : order.Nodup := h.perm.nodup_iff.2 hnodup
    refine List.pairwise_iff_getElem.2 fun i j hi hj hij hmem => ?_
    have hlt := h.before _ _ (hcalls ▸ CallGraph.mem_callees_iff.1 hmem)
    rw [hnodup.idxOf_getElem, hnodup.idxOf_getElem] at hlt
    omega
  irreflexive := fun name _ hmem =>
    lt_irrefl _ (h.before name name (hcalls ▸ CallGraph.mem_callees_iff.1 hmem))

theorem isCallOrder_functionOrder (h : p.resolve file strict limits = .ok r) :
    p.IsCallOrder r.functionOrder := by
  obtain ⟨hprogram, hcheck⟩ := resolve_eq_ok_iff.1 h
  have hperm : r.functionOrder.Perm p.functionNames := by
    rw [← functionNames_of_program hprogram]
    exact CallGraph.order_perm (CallGraph.acyclic_of_check hcheck mem_functions_of_mem_sites)
  refine ⟨hperm, fun caller callee hcall => ?_⟩
  have hcaller : caller ∈ r.functionOrder :=
    hperm.mem_iff.2 (mem_functionNames_of_calls hprogram hcall)
  by_cases hcallee : callee ∈ r.functionOrder
  · rw [← calls_eq (sites_of_program hprogram)] at hcall
    exact r.callGraph.idxOf_lt_of_mem_callees hcaller hcallee (CallGraph.mem_callees_iff.2 hcall)
  · -- What is not in the order counts as after its end.
    rw [List.idxOf_eq_length hcallee]
    exact List.idxOf_lt_length_of_mem hcaller

/-- The functions of a resolved program are put into an order with callers before what they call,
and every other such order comes after it if functions are compared by their places in the
text. -/
theorem functionOrder_least (h : p.resolve file strict limits = .ok r) :
    p.IsCallOrder r.functionOrder ∧
      ∀ order, p.IsCallOrder order → order ≠ r.functionOrder →
        List.Lex (· < ·) (r.functionOrder.map p.functionNames.idxOf)
          (order.map p.functionNames.idxOf) := by
  refine ⟨isCallOrder_functionOrder h, fun order horder hne => ?_⟩
  have hprogram := (resolve_eq_ok_iff.1 h).1
  have hnames := functionNames_of_program hprogram
  have hnodup : p.functionNames.Nodup := by
    rw [← hnames]
    exact (wellScoped_of_resolve h).names
  have hindex : p.functionNames.Pairwise (p.functionNames.idxOf · < p.functionNames.idxOf ·) := by
    refine List.pairwise_iff_getElem.2 fun i j hi hj hij => ?_
    rwa [hnodup.idxOf_getElem, hnodup.idxOf_getElem]
  have hdescends := horder.descends hnodup (calls_eq (sites_of_program hprogram))
  have hleast := CallGraph.orderFrom_least p.functionNames.length hindex horder.perm hdescends
  rw [← hnames, ← CallGraph.callerCounts_eq, ← CallGraph.order] at hleast
  rw [← hnames]
  exact hleast.resolve_left hne.symm

/-- The program `fn c() { } fn b() { c(); } fn a() { b(); c(); } fn z() { } a(); z();` -/
def layers : Program where
  statements := [
    .function ⟨1, 1⟩ ⟨"c", ⟨1, 4⟩⟩ [] ⟨1, 8⟩ [],
    .function ⟨1, 12⟩ ⟨"b", ⟨1, 15⟩⟩ [] ⟨1, 19⟩ [.call ⟨"c", ⟨1, 21⟩⟩ []],
    .function ⟨1, 28⟩ ⟨"a", ⟨1, 31⟩⟩ [] ⟨1, 35⟩
      [.call ⟨"b", ⟨1, 37⟩⟩ [], .call ⟨"c", ⟨1, 42⟩⟩ []],
    .function ⟨1, 49⟩ ⟨"z", ⟨1, 52⟩⟩ [] ⟨1, 56⟩ [],
    .call ⟨"a", ⟨1, 60⟩⟩ [], .call ⟨"z", ⟨1, 65⟩⟩ []]

theorem functionOrder_least_layers :
    ∃ r, layers.resolve "layers" true = .ok r ∧ layers.IsCallOrder r.functionOrder ∧
      r.functionOrder = ["a", "b", "c", "z"] ∧
      ∀ order, layers.IsCallOrder order → order ≠ r.functionOrder →
        List.Lex (· < ·) (r.functionOrder.map layers.functionNames.idxOf)
          (order.map layers.functionNames.idxOf) := by
  have horder : (layers.resolve "layers" true).toOption.map Resolved.Program.functionOrder =
      some ["a", "b", "c", "z"] := by decide +kernel
  obtain ⟨r, hr, horder⟩ := Option.map_eq_some_iff.1 horder
  have h := toOption_eq_some.1 hr
  obtain ⟨hcallers, hleast⟩ := functionOrder_least h
  exact ⟨r, h, hcallers, horder, hleast⟩

end Program

end Chipwright
