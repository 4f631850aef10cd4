import Chipwright.Resolved.CallGraph

/-!
# Variables of a resolved program

Which variables a statement defines, uses and assigns to, and what it means that every
variable is used only where it is visible.

A function sees two kinds of variables: its own, and those of the top level. The top-level
code sees its own only; the variables that are defined at its outermost level are the
global ones.
-/
namespace Chipwright

/-- Whether functions can see a variable. -/
def Variable.isGlobal (v : Variable) : Bool := v.function.isNone && v.depth = 0

namespace Resolved

def Item.stmt? : Item → Option Stmt
  | stmt s => some s
  | _ => none

/-- The statements of the top-level code. -/
def Program.main (p : Program) : List Stmt := p.items.filterMap Item.stmt?

def Expr.vars : Expr → List Variable
  | literal _ _ => []
  | var _ v => [v]
  | const _ _ => []
  | not _ operand => operand.vars
  | binary _ left right => left.vars ++ right.vars

namespace Stmt

/-- What a statement defines for the statements after it. -/
def defines : Stmt → List Variable
  | define _ v _ => [v]
  | _ => []

mutual

/-- All variables that are defined in a statement, in the order of the source. -/
def binds : Stmt → List Variable
  | define _ v _ => [v]
  | block body => bindsAll body
  | loop _ body => bindsAll body
  | ifThen _ _ thenBody => bindsAll thenBody
  | ifElse _ _ thenBody elseBody => bindsAll thenBody ++ bindsAll elseBody
  | _ => []

def bindsAll : List Stmt → List Variable
  | [] => []
  | s :: ss => s.binds ++ bindsAll ss

end

mutual

/-- The variables that are assigned to or read into. -/
def targets : Stmt → List Variable
  | assign _ v _ => [v]
  | read _ _ _ _ v => [v]
  | block body => targetsAll body
  | loop _ body => targetsAll body
  | ifThen _ _ thenBody => targetsAll thenBody
  | ifElse _ _ thenBody elseBody => targetsAll thenBody ++ targetsAll elseBody
  | _ => []

def targetsAll : List Stmt → List Variable
  | [] => []
  | s :: ss => s.targets ++ targetsAll ss

end

mutual

/-- Every variable that occurs is among the `own` ones, which include those defined before in
the same block, or among the variables of the top level. -/
def Scoped (outer own : List Variable) : Stmt → Prop
  | define _ _ value => ∀ v ∈ value.vars, v ∈ own ++ outer
  | assign _ v value => (∀ v ∈ value.vars, v ∈ own ++ outer) ∧ v ∈ own ++ outer
  | block body => AllScoped outer own body
  | call _ _ args => ∀ e ∈ args, ∀ v ∈ e.vars, v ∈ own ++ outer
  | loop _ body => AllScoped outer own body
  | ifThen _ condition thenBody =>
    (∀ v ∈ condition.vars, v ∈ own ++ outer) ∧ AllScoped outer own thenBody
  | ifElse _ condition thenBody elseBody =>
    (∀ v ∈ condition.vars, v ∈ own ++ outer) ∧ AllScoped outer own thenBody ∧
      AllScoped outer own elseBody
  | read _ _ _ _ v => v ∈ own ++ outer
  | write _ value _ _ => ∀ v ∈ value.vars, v ∈ own ++ outer
  | yield _ => True

def AllScoped (outer own : List Variable) : List Stmt → Prop
  | [] => True
  | s :: ss => s.Scoped outer own ∧ AllScoped outer (s.defines ++ own) ss

end

/-- A call with the variables that are visible where it stands. -/
structure Site where
  visible : List Variable
  callee : String

mutual

/-- The calls in a statement, in the order of the source. -/
def sites (visible : List Variable) : Stmt → List Site
  | block body => sitesAll visible body
  | call _ f _ => [⟨visible, f.name⟩]
  | loop _ body => sitesAll visible body
  | ifThen _ _ thenBody => sitesAll visible thenBody
  | ifElse _ _ thenBody elseBody => sitesAll visible thenBody ++ sitesAll visible elseBody
  | _ => []

def sitesAll (visible : List Variable) : List Stmt → List Site
  | [] => []
  | s :: ss => s.sites visible ++ sitesAll (s.defines ++ visible) ss

end

mutual

/-- The functions that are called, each with the number of arguments. -/
def invocations : Stmt → List (FunctionHead × Nat)
  | block body => invocationsAll body
  | call _ f args => [(f, args.length)]
  | loop _ body => invocationsAll body
  | ifThen _ _ thenBody => invocationsAll thenBody
  | ifElse _ _ thenBody elseBody => invocationsAll thenBody ++ invocationsAll elseBody
  | _ => []

def invocationsAll : List Stmt → List (FunctionHead × Nat)
  | [] => []
  | s :: ss => s.invocations ++ invocationsAll ss

end

/-! ## Relations between them -/

theorem mem_bindsAll {v : Variable} {ss : List Stmt} : v ∈ bindsAll ss ↔ ∃ s ∈ ss, v ∈ s.binds := by
  induction ss with
  | nil => simp [bindsAll]
  | cons s ss ih => simp [bindsAll, ih]

theorem mem_callsAll {caller : Option String} {site : CallSite} {ss : List Stmt} :
    site ∈ callsAll caller ss ↔ ∃ s ∈ ss, site ∈ s.calls caller := by
  induction ss with
  | nil => simp [callsAll]
  | cons s ss ih => simp [callsAll, ih]

theorem mem_binds_of_mem_defines {v : Variable} {s : Stmt} (h : v ∈ s.defines) : v ∈ s.binds := by
  cases s with
  | define pos x e => exact h
  | _ => cases h

mutual

/-- What is assigned to is visible from the start or defined on the way. -/
theorem mem_of_mem_targets {outer own : List Variable} {v : Variable} :
    ∀ s : Stmt, s.Scoped outer own → v ∈ s.targets → v ∈ own ++ outer ∨ v ∈ s.binds
  | assign _ _ _, h, hv => by
    obtain rfl := List.mem_singleton.1 hv
    exact Or.inl h.2
  | read _ _ _ _ _, h, hv => by
    obtain rfl := List.mem_singleton.1 hv
    exact Or.inl h
  | block body, h, hv => mem_of_mem_targetsAll body h hv
  | loop _ body, h, hv => mem_of_mem_targetsAll body h hv
  | ifThen _ _ body, h, hv => mem_of_mem_targetsAll body h.2 hv
  | ifElse _ _ thenBody elseBody, h, hv => by
    rcases List.mem_append.1 hv with hv | hv
    · exact (mem_of_mem_targetsAll thenBody h.2.1 hv).imp_right (List.mem_append_left _)
    · exact (mem_of_mem_targetsAll elseBody h.2.2 hv).imp_right (List.mem_append_right _)
  | define .., _, hv | call .., _, hv | write .., _, hv | yield _, _, hv => by cases hv

theorem mem_of_mem_targetsAll {outer own : List Variable} {v : Variable} :
    ∀ ss : List Stmt, AllScoped outer own ss → v ∈ targetsAll ss →
      v ∈ own ++ outer ∨ v ∈ bindsAll ss
  | [], _, hv => by cases hv
  | s :: ss, h, hv => by
    rcases List.mem_append.1 hv with hv | hv
    · exact (mem_of_mem_targets s h.1 hv).imp_right (List.mem_append_left _)
    · rcases mem_of_mem_targetsAll ss h.2 hv with hv | hv
      · rw [List.append_assoc] at hv
        rcases List.mem_append.1 hv with hv | hv
        · exact Or.inr (List.mem_append_left _ (mem_binds_of_mem_defines hv))
        · exact Or.inl hv
      · exact Or.inr (List.mem_append_right _ hv)

end

private theorem mem_append_of_subset {outer outer' own : List Variable} {v : Variable}
    (h : ∀ v ∈ outer, v ∈ outer') (hv : v ∈ own ++ outer) : v ∈ own ++ outer' := by
  rcases List.mem_append.1 hv with hv | hv
  · exact List.mem_append_left _ hv
  · exact List.mem_append_right _ (h v hv)

mutual

/-- More variables of the top level may be visible. -/
theorem Scoped.mono {outer outer' own : List Variable} (h : ∀ v ∈ outer, v ∈ outer') :
    ∀ s : Stmt, s.Scoped outer own → s.Scoped outer' own
  | define _ _ _, hs => fun v hv => mem_append_of_subset h (hs v hv)
  | assign _ _ _, hs =>
    ⟨fun v hv => mem_append_of_subset h (hs.1 v hv), mem_append_of_subset h hs.2⟩
  | block body, hs => AllScoped.mono h body hs
  | call _ _ _, hs => fun e he v hv => mem_append_of_subset h (hs e he v hv)
  | loop _ body, hs => AllScoped.mono h body hs
  | ifThen _ _ body, hs =>
    ⟨fun v hv => mem_append_of_subset h (hs.1 v hv), AllScoped.mono h body hs.2⟩
  | ifElse _ _ thenBody elseBody, hs =>
    ⟨fun v hv => mem_append_of_subset h (hs.1 v hv), AllScoped.mono h thenBody hs.2.1,
      AllScoped.mono h elseBody hs.2.2⟩
  | read _ _ _ _ _, hs => mem_append_of_subset h hs
  | write _ _ _ _, hs => fun v hv => mem_append_of_subset h (hs v hv)
  | yield _, _ => trivial

theorem AllScoped.mono {outer outer' own : List Variable} (h : ∀ v ∈ outer, v ∈ outer') :
    ∀ ss : List Stmt, AllScoped outer own ss → AllScoped outer' own ss
  | [], _ => trivial
  | s :: ss, hs => ⟨Scoped.mono h s hs.1, AllScoped.mono h ss hs.2⟩

end

mutual

theorem callee_sites (caller : Option String) :
    ∀ (visible : List Variable) (s : Stmt),
      (s.sites visible).map Site.callee = (s.calls caller).map CallSite.callee
  | visible, block body => callee_sitesAll caller visible body
  | _, call _ _ _ => rfl
  | visible, loop _ body => callee_sitesAll caller visible body
  | visible, ifThen _ _ body => callee_sitesAll caller visible body
  | visible, ifElse _ _ thenBody elseBody => by
    simp only [sites, calls, List.map_append, callee_sitesAll caller visible thenBody,
      callee_sitesAll caller visible elseBody]
  | _, define .. | _, assign .. | _, read .. | _, write .. | _, yield _ => rfl

theorem callee_sitesAll (caller : Option String) :
    ∀ (visible : List Variable) (ss : List Stmt),
      (sitesAll visible ss).map Site.callee = (callsAll caller ss).map CallSite.callee
  | _, [] => rfl
  | visible, s :: ss => by
    simp only [sitesAll, callsAll, List.map_append, callee_sites caller visible s,
      callee_sitesAll caller _ ss]

end

mutual

theorem callee_invocations (caller : Option String) :
    ∀ s : Stmt, (s.calls caller).map CallSite.callee = s.invocations.map (·.1.name)
  | block body => callee_invocationsAll caller body
  | call _ _ _ => rfl
  | loop _ body => callee_invocationsAll caller body
  | ifThen _ _ body => callee_invocationsAll caller body
  | ifElse _ _ thenBody elseBody => by
    simp only [calls, invocations, List.map_append, callee_invocationsAll caller thenBody,
      callee_invocationsAll caller elseBody]
  | define .. | assign .. | read .. | write .. | yield _ => rfl

theorem callee_invocationsAll (caller : Option String) :
    ∀ ss : List Stmt, (callsAll caller ss).map CallSite.callee =
      (invocationsAll ss).map (·.1.name)
  | [] => rfl
  | s :: ss => by
    simp only [callsAll, invocationsAll, List.map_append, callee_invocations caller s,
      callee_invocationsAll caller ss]

end

mutual

/-- What is visible before a statement is visible at its calls. -/
theorem visible_of_mem_sites {v : Variable} {site : Site} :
    ∀ {visible : List Variable} (s : Stmt), site ∈ s.sites visible → v ∈ visible →
      v ∈ site.visible
  | _, block body, h, hv => visible_of_mem_sitesAll body h hv
  | _, call _ _ _, h, hv => by
    obtain rfl := List.mem_singleton.1 h
    exact hv
  | _, loop _ body, h, hv => visible_of_mem_sitesAll body h hv
  | _, ifThen _ _ body, h, hv => visible_of_mem_sitesAll body h hv
  | _, ifElse _ _ thenBody elseBody, h, hv =>
    (List.mem_append.1 h).elim (visible_of_mem_sitesAll thenBody · hv)
      (visible_of_mem_sitesAll elseBody · hv)
  | _, define .., h, _ | _, assign .., h, _ | _, read .., h, _ | _, write .., h, _
  | _, yield _, h, _ => by cases h

theorem visible_of_mem_sitesAll {v : Variable} {site : Site} :
    ∀ {visible : List Variable} (ss : List Stmt), site ∈ sitesAll visible ss → v ∈ visible →
      v ∈ site.visible
  | _, [], h, _ => by cases h
  | _, s :: ss, h, hv =>
    (List.mem_append.1 h).elim (visible_of_mem_sites s · hv)
      (visible_of_mem_sitesAll ss · (List.mem_append_right _ hv))

end

mutual

theorem caller_calls {caller : Option String} {site : CallSite} :
    ∀ s : Stmt, site ∈ s.calls caller → site.caller = caller
  | block body, h => caller_callsAll body h
  | call _ _ _, h => by
    obtain rfl := List.mem_singleton.1 h
    rfl
  | loop _ body, h => caller_callsAll body h
  | ifThen _ _ body, h => caller_callsAll body h
  | ifElse _ _ thenBody elseBody, h =>
    (List.mem_append.1 h).elim (caller_callsAll thenBody) (caller_callsAll elseBody)
  | define .., h | assign .., h | read .., h | write .., h | yield _, h => by cases h

theorem caller_callsAll {caller : Option String} {site : CallSite} :
    ∀ ss : List Stmt, site ∈ callsAll caller ss → site.caller = caller
  | [], h => by cases h
  | s :: ss, h => (List.mem_append.1 h).elim (caller_calls s) (caller_callsAll ss)

end

end Stmt

/-- The functions that are called in an item of the top level, each with the number of
arguments. -/
def Item.invocations : Item → List (FunctionHead × Nat)
  | func f => Stmt.invocationsAll f.body
  | stmt s => s.invocations
  | _ => []

theorem Item.callee_invocations (i : Item) :
    i.calls.map CallSite.callee = i.invocations.map (·.1.name) := by
  cases i with
  | func f => exact Stmt.callee_invocationsAll _ f.body
  | stmt s => exact Stmt.callee_invocations _ s
  | _ => rfl

namespace Program

variable {p : Program} {callee : String}

theorem mem_of_function? {name : String} {f : Function} (h : p.function? name = some f) :
    f ∈ p.functions ∧ f.name = name :=
  ⟨List.mem_of_find?_eq_some h, by simpa using List.find?_some h⟩

theorem mem_callees_of_mem_calls {i : Item} {site : CallSite} (hi : i ∈ p.items)
    (hsite : site ∈ i.calls) : site.callee ∈ p.callGraph.callees site.caller := by
  refine List.mem_eraseDups.2 (List.mem_map.2 ⟨site, ?_, rfl⟩)
  exact List.mem_filter.2 ⟨List.mem_flatMap.2 ⟨i, hi, hsite⟩, by simp⟩

/-- The calls in the body of a function are in the call graph. -/
theorem mem_callees {f : Function} (hf : f ∈ p.functions)
    (h : callee ∈ (Stmt.callsAll none f.body).map (·.callee)) :
    callee ∈ p.callGraph.callees (some f.name) := by
  have hcalls : (Stmt.callsAll none f.body).map (·.callee) =
      (Stmt.callsAll (some f.name) f.body).map (·.callee) :=
    (Stmt.callee_sitesAll none [] f.body).symm.trans
      (Stmt.callee_sitesAll (some f.name) [] f.body)
  rw [hcalls] at h
  obtain ⟨site, hsite, rfl⟩ := List.mem_map.1 h
  obtain ⟨i, hi, hif⟩ := List.mem_filterMap.1 hf
  cases i <;> cases hif
  rw [← Stmt.caller_callsAll f.body hsite]
  exact mem_callees_of_mem_calls hi hsite

/-- The calls in the top-level code are in the call graph. -/
theorem mem_callees_main (h : callee ∈ (Stmt.callsAll none p.main).map (·.callee)) :
    callee ∈ p.callGraph.callees none := by
  obtain ⟨site, hsite, rfl⟩ := List.mem_map.1 h
  obtain ⟨st, hst, hsite⟩ := Stmt.mem_callsAll.1 hsite
  obtain ⟨i, hi, hist⟩ := List.mem_filterMap.1 hst
  cases i <;> cases hist
  rw [← Stmt.caller_calls st hsite]
  exact mem_callees_of_mem_calls hi hsite

end Program

/-- The variables that the top-level code defines outside all blocks. -/
def Program.globals (p : Program) : List Variable := p.main.flatMap Stmt.defines

/-! ## Well-scoped programs -/

/-- Each variable of a function is defined once, belongs to the function, and is used only where
it is visible, as are those of the top level. -/
structure Function.WellScoped (globals : List Variable) (f : Function) : Prop where
  nodup : (f.params ++ Stmt.bindsAll f.body).Nodup
  owner : ∀ v ∈ f.params ++ Stmt.bindsAll f.body, v.function = some f.name
  visible : Stmt.AllScoped globals f.params f.body

theorem Function.WellScoped.mono {globals globals' : List Variable} {f : Function}
    (h : f.WellScoped globals) (hsub : ∀ v ∈ globals, v ∈ globals') : f.WellScoped globals' :=
  ⟨h.nodup, h.owner, Stmt.AllScoped.mono hsub f.body h.visible⟩

/-- What is known of the variables of a program: those of the top-level code belong to no
function, and exactly the ones defined outside all blocks are global. -/
structure Program.WellScoped (p : Program) : Prop where
  names : (p.functions.map Function.name).Nodup
  nodup : (Stmt.bindsAll p.main).Nodup
  owner : ∀ v ∈ Stmt.bindsAll p.main, v.function = none
  global : ∀ st ∈ p.main, ∀ v ∈ st.binds, v.isGlobal = true ↔ v ∈ st.defines
  visible : Stmt.AllScoped [] [] p.main
  function : ∀ f ∈ p.functions, f.WellScoped p.globals
  callees : ∀ caller, ∀ name ∈ p.callGraph.callees caller, ∃ f ∈ p.functions, f.name = name

/-- Every call has as many arguments as the function has parameters. -/
def Program.CallsFit (p : Program) : Prop :=
  ∀ i ∈ p.items, ∀ call ∈ i.invocations,
    ∃ f ∈ p.functions, f.head = call.1 ∧ f.params.length = call.2

/-- A variable of a statement of the top level is only global if the statement itself defines
it. -/
theorem Program.WellScoped.mem_defines_of_mem_globals {p : Program} (h : p.WellScoped) {st : Stmt}
    (hst : st ∈ p.main) {v : Variable} (hv : v ∈ st.binds) (hglobal : v ∈ p.globals) :
    v ∈ st.defines := by
  obtain ⟨st', hst', hdefines⟩ := List.mem_flatMap.1 hglobal
  exact (h.global st hst v hv).1
    ((h.global st' hst' v (Stmt.mem_binds_of_mem_defines hdefines)).2 hdefines)

/-- No variable of a function is global. -/
theorem Program.WellScoped.notMem_globals {p : Program} (h : p.WellScoped) {f : Function}
    (hf : f ∈ p.functions) {v : Variable} (hv : v ∈ f.params ++ Stmt.bindsAll f.body) :
    v ∉ p.globals := by
  intro hglobal
  obtain ⟨st, hst, hdefines⟩ := List.mem_flatMap.1 hglobal
  have hnone := h.owner v
    (Stmt.mem_bindsAll.2 ⟨st, hst, Stmt.mem_binds_of_mem_defines hdefines⟩)
  rw [(h.function f hf).owner v hv] at hnone
  cases hnone

end Resolved

end Chipwright
