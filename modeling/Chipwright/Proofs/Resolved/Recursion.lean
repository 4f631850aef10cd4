import Mathlib.Data.Fintype.EquivFin
import Mathlib.Data.Fintype.Sets
import Mathlib.Data.List.Chain
import Mathlib.Logic.Relation
import Mathlib.Order.WellFounded
import Chipwright.Proofs.Basics
import Chipwright.Proofs.Resolved.CallOrder

/-!
# Calls without recursion

The calls of a program are refused exactly if some function can call itself, as long as no
chain of calls is longer than what is followed; and where none can, the order of the functions
holds all of them.

The functions that a search is done with form a list in which every function calls only later
ones (`Ordered`), so no cycle goes through any of them. The path to the function that is
visited is a chain of calls without repetitions, so a call back into the path closes a cycle.
-/
namespace Chipwright

open Relation

/-! ### Chains and cycles of calls -/

/-- Functions of which each calls the next one, and none of which comes twice. -/
structure IsCallChain (calls : String → String → Prop) (path : List String) : Prop where
  distinct : path.Nodup
  linked : path.IsChain calls

/-- Functions of which each calls the next one, the last one being the first again and the others
distinct. The last of the calls stands at the position. -/
structure IsCallCycle (callsAt : String → String → Position → Prop) (cycle : List String)
    (pos : Position) : Prop where
  two_le : 2 ≤ cycle.length
  closed : cycle.head? = cycle.getLast?
  distinct : cycle.dropLast.Nodup
  linked : cycle.IsChain fun caller callee => ∃ pos, callsAt caller callee pos
  closing : ∃ front caller callee, cycle = front ++ [caller, callee] ∧ callsAt caller callee pos

section Chains

variable {calls : String → String → Prop} {callsAt : String → String → Position → Prop}
  {path cycle : List String} {caller callee : String} {pos : Position}

theorem IsCallChain.singleton (f : String) : IsCallChain calls [f] := by
  constructor <;> simp

/-- A call of a function that is not in the chain makes the chain longer. -/
theorem IsCallChain.snoc (h : IsCallChain calls path) (hlast : path.getLast? = some caller)
    (hcall : calls caller callee) (hnew : callee ∉ path) :
    IsCallChain calls (path ++ [callee]) where
  distinct := by simpa [List.nodup_append', h.distinct] using hnew
  linked := by
    refine List.isChain_append.2 ⟨h.linked, List.isChain_singleton callee, ?_⟩
    intro x hx y hy
    obtain rfl : caller = x := by simpa [hlast] using hx
    obtain rfl : callee = y := by simpa using hy
    exact hcall

/-- All functions of a chain but the last are callers, so few callers have no long chains. -/
theorem IsCallChain.length_le {names : List String} (h : IsCallChain calls path)
    (hcallers : ∀ caller callee, calls caller callee → caller ∈ names) :
    path.length ≤ names.length + 1 := by
  have hsubset : path.dropLast ⊆ names := by
    intro caller hcaller
    obtain ⟨callee, -, hcall⟩ := exists_of_forall₂ (List.isChain_iff_forall₂.1 h.linked) hcaller
    exact hcallers caller callee hcall
  have hle := ((h.distinct.sublist (List.dropLast_sublist path)).subperm hsubset).length_le
  rw [List.length_dropLast] at hle
  omega

/-- A call of a function that is in the chain closes a cycle. -/
theorem IsCallCycle.of_mem
    (h : IsCallChain (fun caller callee => ∃ pos, callsAt caller callee pos) path)
    (hlast : path.getLast? = some caller) (hmem : callee ∈ path)
    (hcall : callsAt caller callee pos) :
    IsCallCycle callsAt (path.dropWhile (· ≠ callee) ++ [callee]) pos := by
  obtain ⟨before, after, rfl, hfirst⟩ := List.eq_append_cons_of_mem hmem
  have hdrop : (before ++ callee :: after).dropWhile (· ≠ callee) = callee :: after := by
    rw [List.dropWhile_append_of_pos]
    · simp
    · intro f hf
      have hne : f ≠ callee := fun heq => hfirst (heq ▸ hf)
      simpa using hne
  have hsuffix : callee :: after <:+ before ++ callee :: after := List.suffix_append _ _
  have hlast : (callee :: after).getLast? = some caller := by
    simpa [List.getLast?_append] using hlast
  rw [hdrop]
  refine ⟨by simp, by rw [List.getLast?_concat]; rfl, ?_, ?_, ?_⟩
  · rw [List.dropLast_concat]
    exact h.distinct.sublist hsuffix.sublist
  · refine List.isChain_append.2 ⟨h.linked.suffix hsuffix, List.isChain_singleton callee, ?_⟩
    intro x hx y hy
    obtain rfl : caller = x := by simpa [hlast] using hx
    obtain rfl : callee = y := by simpa using hy
    exact ⟨pos, hcall⟩
  · obtain ⟨front, hfront⟩ := List.getLast?_eq_some_iff.1 hlast
    exact ⟨front, caller, callee, by rw [hfront]; simp, hcall⟩

/-- The functions of a cycle can call themselves. -/
theorem IsCallCycle.exists_transGen (h : IsCallCycle callsAt cycle pos) :
    ∃ f, TransGen (fun caller callee => ∃ pos, callsAt caller callee pos) f f := by
  obtain ⟨front, caller, callee, rfl, hcall⟩ := h.closing
  have hne : front ++ [caller] ≠ [] := by simp
  have hchain : (front ++ [caller]).IsChain fun caller callee => ∃ pos, callsAt caller callee pos :=
    h.linked.prefix ⟨[callee], by simp⟩
  have hhead : (front ++ [caller]).head hne = callee := by
    have hclosed := h.closed
    rw [List.append_cons, List.head?_append_of_ne_nil _ hne, List.head?_eq_some_head hne,
      List.getLast?_concat] at hclosed
    exact Option.some.inj hclosed
  have hreach := List.relationReflTransGen_of_exists_isChain _ hchain hne
  rw [hhead, List.getLast_concat] at hreach
  exact ⟨callee, TransGen.tail' hreach ⟨pos, hcall⟩⟩

end Chains

namespace Resolved.CallGraph

variable {done path : List String} {file name : String}

variable {g : CallGraph} {limit : Nat}

/-- A call of the second function stands at the position in the first one. -/
def CallsAt (g : CallGraph) (caller callee : String) (pos : Position) : Prop :=
  ⟨some caller, callee, pos⟩ ∈ g.sites

/-- Some call in the first function is a call of the second one. -/
def Calls (g : CallGraph) (caller callee : String) : Prop :=
  ∃ site ∈ g.sites, site.caller = some caller ∧ site.callee = callee

theorem calls_eq_callsAt (g : CallGraph) :
    g.Calls = fun caller callee => ∃ pos, g.CallsAt caller callee pos := by
  funext caller callee
  refine propext ⟨?_, ?_⟩
  · rintro ⟨⟨_, _, pos⟩, hsite, rfl, rfl⟩
    exact ⟨pos, hsite⟩
  · rintro ⟨pos, hsite⟩
    exact ⟨_, hsite, rfl, rfl⟩

theorem mem_callees_iff {caller callee : String} :
    callee ∈ g.callees (some caller) ↔ g.Calls caller callee := by
  simp only [callees, sitesIn, List.mem_eraseDups, List.mem_map, List.mem_filter,
    decide_eq_true_eq, Calls]
  constructor
  · rintro ⟨site, ⟨hsite, hcaller⟩, hcallee⟩
    exact ⟨site, hsite, hcaller, hcallee⟩
  · rintro ⟨site, hsite, hcaller, hcallee⟩
    exact ⟨site, ⟨hsite, hcaller⟩, hcallee⟩

/-- No function can call itself, directly or through others. -/
def Acyclic (g : CallGraph) : Prop := ∀ f, ¬ TransGen g.Calls f f

/-! ### The search for a cycle -/

/-- Every function of the list calls only later ones. -/
def Ordered (g : CallGraph) : List String → Prop
  | [] => True
  | f :: fs => (∀ callee, g.Calls f callee → callee ∈ fs) ∧ Ordered g fs

/-- No chain of calls from a function of such a list goes on for ever. -/
theorem Ordered.acc (h : g.Ordered done) :
    ∀ f ∈ done, Acc (fun callee caller => g.Calls caller callee) f := by
  induction done with
  | nil => simp
  | cons f fs ih =>
    intro f' hf'
    rcases List.mem_cons.1 hf' with rfl | hf'
    · exact ⟨_, fun callee hcallee => ih h.2 callee (h.1 callee hcallee)⟩
    · exact ih h.2 f' hf'

theorem Ordered.not_transGen (h : g.Ordered done) {f : String} (hf : f ∈ done) :
    ¬ TransGen g.Calls f f := by
  induction (h.acc f hf).transGen with
  | intro f _ ih =>
    intro hcycle
    exact ih f (transGen_swap.2 hcycle) hf hcycle

/-- What a search that goes on from `done` finds. -/
def Finds (g : CallGraph) (limit : Nat) (done names : List String) :
    Except Fault (List String) → Prop
  | .ok done' => g.Ordered done' ∧ (∀ f ∈ done, f ∈ done') ∧ ∀ f ∈ names, f ∈ done'
  | .error (.cycle cycle pos) => IsCallCycle g.CallsAt cycle pos
  | .error .tooDeep => ∃ path, IsCallChain g.Calls path ∧ limit < path.length

theorem Finds.bind {names names' : List String} {x : Except Fault (List String)}
    {next : List String → Except Fault (List String)} (hx : g.Finds limit done names x)
    (hnext : ∀ done', g.Ordered done' → g.Finds limit done' names' (next done')) :
    g.Finds limit done (names ++ names') (x >>= next) := by
  cases x with
  | error fault => cases fault <;> exact hx
  | ok done' =>
    obtain ⟨hordered, hdone, hnames⟩ := hx
    have hnext := hnext done' hordered
    show g.Finds limit done (names ++ names') (next done')
    cases hresult : next done' with
    | error fault =>
      rw [hresult] at hnext
      cases fault <;> exact hnext
    | ok done'' =>
      rw [hresult] at hnext
      obtain ⟨hordered', hdone', hnames'⟩ := hnext
      refine ⟨hordered', fun f hf => hdone' f (hdone f hf), fun f hf => ?_⟩
      rcases List.mem_append.1 hf with hf | hf
      · exact hdone' f (hnames f hf)
      · exact hnames' f hf

/-- A path to a function that is visited, with the number of calls that may still follow. -/
structure OnPath (g : CallGraph) (limit : Nat) (path : List String) (name : String)
    (budget : Nat) : Prop where
  chain : IsCallChain g.Calls path
  last : path.getLast? = some name
  length : path.length + budget = limit + 1

theorem OnPath.snoc {caller callee : String} {pos : Position} {budget : Nat}
    (h : g.OnPath limit path caller (budget + 1)) (hcall : g.CallsAt caller callee pos)
    (hnew : callee ∉ path) : g.OnPath limit (path ++ [callee]) callee budget where
  chain := h.chain.snoc h.last (by rw [calls_eq_callsAt]; exact ⟨pos, hcall⟩) hnew
  last := List.getLast?_concat ..
  length := by
    have hlength := h.length
    simp only [List.length_append, List.length_singleton]
    omega

theorem visitSites_spec {visit : List String → String → List String → Except Fault (List String)}
    {budget : Nat} (hvisit : ∀ path name done, g.Ordered done → g.OnPath limit path name budget →
      g.Finds limit done [name] (visit path name done))
    (hpath : g.OnPath limit path name (budget + 1))
    {sites : List CallSite} (hsites : ∀ site ∈ sites, g.CallsAt name site.callee site.pos)
    (hdone : g.Ordered done) :
    g.Finds limit done (sites.map (·.callee)) (visitSites visit path sites done) := by
  induction sites generalizing done with
  | nil => exact ⟨hdone, fun _ hf => hf, by simp⟩
  | cons site sites ih =>
    have hcall : g.CallsAt name site.callee site.pos := hsites site (by simp)
    rw [visitSites]
    split
    case isTrue hmem =>
      have hchain := hpath.chain
      rw [calls_eq_callsAt] at hchain
      exact .of_mem hchain hpath.last (by simpa using hmem) hcall
    case isFalse hmem =>
      have hpath' := hpath.snoc hcall (by simpa using hmem)
      exact (hvisit _ _ _ hdone hpath').bind fun done' hdone' =>
        ih (fun site hsite => hsites site (List.mem_cons_of_mem _ hsite)) hdone'

theorem visit_spec (budget : Nat) (hdone : g.Ordered done)
    (hpath : g.OnPath limit path name budget) :
    g.Finds limit done [name] (g.visit budget path name done) := by
  induction budget generalizing path name done with
  | zero =>
    have hlength := hpath.length
    exact ⟨path, hpath.chain, by omega⟩
  | succ budget ih =>
    rw [visit]
    split
    case isTrue hmem =>
      have hmem : name ∈ done := by simpa using hmem
      exact ⟨hdone, fun _ hf => hf, by simpa using hmem⟩
    case isFalse =>
      have hsites : ∀ site ∈ g.sitesIn (some name), g.CallsAt name site.callee site.pos := by
        intro site hsite
        obtain ⟨hsite, hcaller⟩ := List.mem_filter.1 hsite
        have hcaller : site.caller = some name := by simpa using hcaller
        rw [CallsAt, ← hcaller]
        exact hsite
      have hfinds := visitSites_spec (fun _ _ _ hdone hpath => ih hdone hpath) hpath hsites hdone
      cases hresult : visitSites (g.visit budget) path (g.sitesIn (some name)) done with
      | error fault =>
        rw [hresult] at hfinds
        cases fault <;> exact hfinds
      | ok done' =>
        rw [hresult] at hfinds
        obtain ⟨hordered, hsub, hcallees⟩ := hfinds
        refine ⟨⟨fun callee hcall => ?_, hordered⟩, fun f hf => List.mem_cons_of_mem _ (hsub f hf),
          by simp⟩
        obtain ⟨site, hsite, hcaller, rfl⟩ := hcall
        exact hcallees _ (List.mem_map.2 ⟨site, List.mem_filter.2 ⟨hsite, by simp [hcaller]⟩, rfl⟩)

theorem visitAll_spec {names : List String} (hdone : g.Ordered done) :
    g.Finds limit done names (g.visitAll limit names done) := by
  induction names generalizing done with
  | nil => exact ⟨hdone, fun _ hf => hf, by simp⟩
  | cons name names ih =>
    have hpath : g.OnPath limit [name] name limit := ⟨.singleton name, rfl, Nat.add_comm _ _⟩
    exact (visit_spec limit hdone hpath).bind fun _ hdone' => ih hdone'

/-- Calls that are accepted have no cycle. -/
theorem acyclic_of_check {u : Unit} (h : g.check file limit = .ok u)
    (hcallers : ∀ site ∈ g.sites, ∀ f, site.caller = some f → f ∈ g.functions) : g.Acyclic := by
  intro f hcycle
  have hfinds : g.Finds limit [] g.functions (g.visitAll limit g.functions []) :=
    visitAll_spec trivial
  unfold check at h
  split at h
  case h_1 done hdone =>
    rw [hdone] at hfinds
    obtain ⟨hordered, -, hall⟩ := hfinds
    obtain ⟨callee, ⟨site, hsite, hcaller, -⟩, -⟩ := TransGen.head'_iff.1 hcycle
    exact hordered.not_transGen (hall f (hcallers site hsite f hcaller)) hcycle
  case h_2 => cases h

/-- Calls that are refused as recursive have the cycle that is reported. -/
theorem cycle_of_check {cycle : List String} {pos : Position}
    (h : g.check file limit = .error (.located file pos (.recursiveCall cycle))) :
    IsCallCycle g.CallsAt cycle pos := by
  have hfinds : g.Finds limit [] g.functions (g.visitAll limit g.functions []) :=
    visitAll_spec trivial
  unfold check at h
  split at h
  case h_1 => cases h
  case h_2 fault hfault =>
    rw [hfault] at hfinds
    cases fault with
    | cycle cycle' pos' =>
      simp only [Fault.failure, Failure.located, Except.error.injEq, Failure.diagnostic.injEq,
        Diagnostic.mk.injEq, Cause.recursiveCall.injEq, Option.some.injEq, and_true] at h
      obtain ⟨rfl, hpos⟩ := h
      rw [← Position.inFile_injective file hpos]
      exact hfinds
    | tooDeep => simp [Fault.failure, Failure.located] at h

/-- Calls are accepted, refused as recursive, or have a chain that is too long. -/
theorem check_cases (g : CallGraph) (file : String) (limit : Nat) :
    g.check file limit = .ok () ∨
      (∃ cycle pos, g.check file limit = .error (.located file pos (.recursiveCall cycle))) ∨
      g.check file limit = .error (Fault.tooDeep.failure file) ∧
        ∃ path, IsCallChain g.Calls path ∧ limit < path.length := by
  have hfinds : g.Finds limit [] g.functions (g.visitAll limit g.functions []) :=
    visitAll_spec trivial
  unfold check
  cases hresult : g.visitAll limit g.functions [] with
  | ok done => exact .inl rfl
  | error fault =>
    rw [hresult] at hfinds
    cases fault with
    | cycle cycle pos => exact .inr (.inl ⟨cycle, pos, rfl⟩)
    | tooDeep => exact .inr (.inr ⟨rfl, hfinds⟩)

/-- Calls without a cycle are accepted, unless a chain of them is too long. -/
theorem check_of_acyclic (h : g.Acyclic) :
    g.check file limit = .ok () ∨ g.check file limit = .error (Fault.tooDeep.failure file) := by
  rcases g.check_cases file limit with hok | ⟨cycle, pos, hcycle⟩ | ⟨hdeep, -⟩
  · exact .inl hok
  · obtain ⟨f, hf⟩ := (cycle_of_check hcycle).exists_transGen
    rw [← calls_eq_callsAt] at hf
    exact absurd hf (h f)
  · exact .inr hdeep

/-! ### The order holds every function -/

/-- Of some functions, one is called by none of them. -/
theorem Acyclic.exists_uncalled (h : g.Acyclic) {remaining : List String}
    (hne : remaining ≠ []) :
    ∃ name ∈ remaining, ∀ caller ∈ remaining, name ∉ g.callees (some caller) := by
  let r : {f // f ∈ remaining} → {f // f ∈ remaining} → Prop :=
    fun a b => TransGen g.Calls a.1 b.1
  have : IsTrans _ r := ⟨fun _ _ _ => TransGen.trans⟩
  have : Std.Irrefl r := ⟨fun a => h a.1⟩
  have : Finite {f // f ∈ remaining} := (List.Subtype.fintype remaining).finite
  obtain ⟨first, hfirst⟩ := List.exists_mem_of_ne_nil remaining hne
  obtain ⟨name, -, hmin⟩ := (Finite.wellFounded_of_trans_of_irrefl r).has_min Set.univ
    ⟨⟨first, hfirst⟩, trivial⟩
  refine ⟨name.1, name.2, fun caller hcaller hmem => ?_⟩
  exact hmin ⟨caller, hcaller⟩ trivial (TransGen.single (mem_callees_iff.1 hmem))

theorem orderFrom_ne_nil {steps : Nat} {remaining : List String} (hname : name ∈ remaining)
    (huncalled : ∀ caller ∈ remaining, name ∉ g.callees (some caller)) :
    g.orderFrom (steps + 1) (g.waiting remaining) ≠ [] := by
  have hzero : g.callersAmong remaining name = 0 := by
    refine List.countP_eq_zero.2 fun caller hcaller => ?_
    simpa using huncalled caller hcaller
  intro hnil
  rw [orderFrom] at hnil
  split at hnil
  case h_1 hnone =>
    have := List.find?_eq_none.1 hnone (name, 0) (List.mem_map.2 ⟨name, hname, by rw [hzero]⟩)
    simp at this
  case h_2 => cases hnil

theorem Acyclic.orderFrom_perm (h : g.Acyclic) (remaining : List String) :
    (g.orderFrom remaining.length (g.waiting remaining)).Perm remaining := by
  induction hlength : remaining.length generalizing remaining with
  | zero => simp [orderFrom, List.length_eq_zero_iff.1 hlength]
  | succ steps ih =>
    have hne : remaining ≠ [] := by
      rintro rfl
      cases hlength
    obtain ⟨uncalled, hmem, huncalled⟩ := h.exists_uncalled hne
    rcases orderFrom_waiting g steps remaining with hnil | ⟨before, name, after, rfl, -, -, hstep⟩
    · exact absurd hnil (orderFrom_ne_nil hmem huncalled)
    · rw [hstep]
      refine ((ih (before ++ after) ?_).cons name).trans List.perm_middle.symm
      simp only [List.length_append, List.length_cons] at hlength ⊢
      omega

/-- Without recursion, the order of the functions holds every function. -/
theorem order_perm (h : g.Acyclic) : g.order.Perm g.functions := by
  rw [order, callerCounts_eq]
  exact h.orderFrom_perm g.functions

end Resolved.CallGraph

/-- A function can come to call another, or is the same. -/
def Resolved.Program.Reaches (p : Resolved.Program) : String → String → Prop :=
  Relation.ReflTransGen fun f g => g ∈ p.callGraph.callees (some f)

end Chipwright
