import Chipwright.Proofs.Relabeling.Resolver
import Chipwright.Resolved.Yield

/-!
# Calls between functions with other names

Functions are told apart by their names, and nothing else of a name counts. So which function calls
which, the order of the functions and the functions that yield are the same under other names, and
so is a cycle of calls.
-/
namespace Chipwright

section Injective

variable {α β : Type} [DecidableEq α] [DecidableEq β] {f : α → β}

theorem contains_map_injective (hf : Function.Injective f) (xs : List α) (x : α) :
    (xs.map f).contains (f x) = xs.contains x := by
  rw [Bool.eq_iff_iff]
  simp [hf.eq_iff]

theorem eraseDups_map_injective (hf : Function.Injective f) (xs : List α) :
    (xs.map f).eraseDups = xs.eraseDups.map f := by
  -- what is left after the first element is shorter, but no part of the list
  induction hn : xs.length using Nat.strongRecOn generalizing xs with
  | ind n ih =>
    cases xs with
    | nil => rfl
    | cons x xs =>
      have hfilter :
          (xs.map f).filter (fun b => !b == f x) = (xs.filter fun a => !a == x).map f := by
        rw [List.filter_map]
        congr 2
        funext a
        simp [hf.eq_iff]
      have hlt : (xs.filter fun a => !a == x).length < n := by
        have := List.length_filter_le (fun a => !a == x) xs
        rw [← hn, List.length_cons]
        omega
      rw [List.map_cons, List.eraseDups_cons, hfilter, ih _ hlt _ rfl, List.eraseDups_cons,
        List.map_cons]

end Injective

namespace Resolved

variable (m : Relabeling)

def CallSite.relabel (s : CallSite) : CallSite :=
  ⟨s.caller.map m.name, m.name s.callee, m.pos s.pos⟩

/-- The graph with other names for the functions. -/
def CallGraph.relabel (g : CallGraph) : CallGraph :=
  ⟨g.functions.map m.name, g.sites.map (CallSite.relabel m)⟩

mutual

theorem Stmt.calls_relabel (caller : Option String) : ∀ st : Stmt,
    (st.relabel m).calls (caller.map m.name) = (st.calls caller).map (CallSite.relabel m)
  | .define .. | .assign .. | .call .. | .read .. | .write .. | .yield .. => rfl
  | .block body => Stmt.callsAll_relabel caller body
  | .loop _ body => Stmt.callsAll_relabel caller body
  | .ifThen _ _ thenBody => Stmt.callsAll_relabel caller thenBody
  | .ifElse _ _ thenBody elseBody => by
    rw [Stmt.relabel, Stmt.calls, Stmt.callsAll_relabel caller thenBody,
      Stmt.callsAll_relabel caller elseBody, Stmt.calls, List.map_append]

theorem Stmt.callsAll_relabel (caller : Option String) : ∀ sts : List Stmt,
    Stmt.callsAll (caller.map m.name) (Stmt.relabelAll m sts) =
      (Stmt.callsAll caller sts).map (CallSite.relabel m)
  | [] => rfl
  | st :: sts => by
    rw [Stmt.relabelAll, Stmt.callsAll, Stmt.calls_relabel caller st,
      Stmt.callsAll_relabel caller sts, Stmt.callsAll, List.map_append]

end

theorem Item.calls_relabel (i : Item) : (i.relabel m).calls = i.calls.map (CallSite.relabel m) := by
  cases i with
  | func f => exact Stmt.callsAll_relabel m (some f.name) f.body
  | stmt s => exact Stmt.calls_relabel m none s
  | nameSlot pos slotPos d => rfl
  | const c => rfl

theorem Program.callGraph_relabel (p : Program) :
    (p.relabel m).callGraph = p.callGraph.relabel m := by
  have hsites : (p.relabel m).items.flatMap Item.calls =
      (p.items.flatMap Item.calls).map (CallSite.relabel m) := by
    rw [Program.relabel, List.flatMap_map, List.map_flatMap]
    simp only [Item.calls_relabel]
  have hfunctions : (p.relabel m).functions.map (·.name) =
      (p.functions.map (·.name)).map m.name := by
    simp [Program.functions_relabel]
  rw [Program.callGraph, hsites, hfunctions]
  rfl

namespace CallGraph

variable (g : CallGraph)

theorem sitesIn_relabel (caller : Option String) :
    (g.relabel m).sitesIn (caller.map m.name) = (g.sitesIn caller).map (CallSite.relabel m) := by
  rw [sitesIn, CallGraph.relabel, List.filter_map, sitesIn]
  congr 2
  funext site
  simp [CallSite.relabel, (Option.map_injective m.name.injective).eq_iff]

theorem callees_relabel (caller : Option String) :
    (g.relabel m).callees (caller.map m.name) = (g.callees caller).map m.name := by
  rw [callees, sitesIn_relabel, callees, ← eraseDups_map_injective m.name.injective, List.map_map,
    List.map_map]
  rfl

/-! ## Cycles -/

def Fault.relabel : Fault → Fault
  | cycle functions pos => .cycle (functions.map m.name) (m.pos pos)
  | tooDeep => .tooDeep

/-- What a walk over the calls gives is what it gives under other names. -/
abbrev Follows (x y : Except Fault (List String)) : Prop :=
  Matches (fun e e' => e' = Fault.relabel m e) (fun a b => b = a.map m.name) x y

variable {m g}

theorem follows_visitSites
    {visit visit' : List String → String → List String → Except Fault (List String)}
    (h : ∀ path name done,
      Follows m (visit path name done) (visit' (path.map m.name) (m.name name) (done.map m.name)))
    (path : List String) (sites : List CallSite) (done : List String) :
    Follows m (visitSites visit path sites done)
      (visitSites visit' (path.map m.name) (sites.map (CallSite.relabel m)) (done.map m.name)) := by
  induction sites generalizing done with
  | nil => exact Matches.ok rfl
  | cons site sites ih =>
    have hcontains : (path.map m.name).contains (site.relabel m).callee =
        path.contains site.callee := contains_map_injective m.name.injective path site.callee
    have hcycle : (path.map m.name).dropWhile (· ≠ (site.relabel m).callee) =
        (path.dropWhile (· ≠ site.callee)).map m.name := by
      rw [List.dropWhile_map]
      congr 2
      funext x
      simp [CallSite.relabel]
    rw [List.map_cons, visitSites, visitSites, hcontains, hcycle]
    split
    · refine Matches.error ?_
      simp [Fault.relabel, CallSite.relabel]
    · have hvisit := h (path ++ [site.callee]) site.callee done
      rw [List.map_append] at hvisit
      refine hvisit.bind ?_
      rintro done' _ rfl
      exact ih done'

theorem follows_visit (budget : Nat) (path : List String) (name : String) (done : List String) :
    Follows m (g.visit budget path name done)
      ((g.relabel m).visit budget (path.map m.name) (m.name name) (done.map m.name)) := by
  induction budget generalizing path name done with
  | zero => exact Matches.error rfl
  | succ budget ih =>
    have hsites : (g.relabel m).sitesIn (some (m.name name)) =
        (g.sitesIn (some name)).map (CallSite.relabel m) := sitesIn_relabel m g (some name)
    rw [visit, visit, contains_map_injective m.name.injective, hsites]
    split
    · exact Matches.ok rfl
    · refine (follows_visitSites ih path _ done).bind ?_
      rintro done' _ rfl
      exact Matches.ok rfl

theorem follows_visitAll (limit : Nat) (names done : List String) :
    Follows m (g.visitAll limit names done)
      ((g.relabel m).visitAll limit (names.map m.name) (done.map m.name)) := by
  induction names generalizing done with
  | nil => exact Matches.ok rfl
  | cons name names ih =>
    refine (follows_visit limit [name] name done).bind ?_
    rintro done' _ rfl
    exact ih done'

/-- Calls are refused under other names exactly if they are refused. -/
theorem carries_check (file : String) (limit : Nat) :
    m.Carries id (g.check file limit) ((g.relabel m).check file limit) := by
  have hvisit : Follows m (g.visitAll limit g.functions [])
      ((g.relabel m).visitAll limit (g.relabel m).functions []) :=
    follows_visitAll limit g.functions []
  unfold check
  cases hx : g.visitAll limit g.functions [] with
  | ok done =>
    obtain ⟨done', hy, -⟩ := hvisit.exists_ok hx
    rw [hy]
    exact Matches.ok rfl
  | error fault =>
    obtain ⟨fault', hy, rfl⟩ := hvisit.exists_error hx
    rw [hy]
    cases fault with
    | tooDeep => exact Matches.error (.refl rfl rfl)
    | cycle functions pos =>
      exact Matches.error (.located file pos rfl fun h =>
        congrArg Cause.recursiveCall (h.map_name functions))

/-! ## Order -/

variable (m g)

theorem callerCounts_relabel :
    (g.relabel m).callerCounts = g.callerCounts.map (Prod.map m.name id) := by
  have hcalled : (g.relabel m).functions.map (fun caller => (g.relabel m).callees (some caller)) =
      (g.functions.map fun caller => g.callees (some caller)).map (List.map m.name) := by
    simp only [CallGraph.relabel, List.map_map]
    refine List.map_congr_left fun caller _ => ?_
    exact callees_relabel m g (some caller)
  have hcount (called : List (List String)) (name : String) :
      (called.map (List.map m.name)).countP (·.contains (m.name name)) =
        called.countP (·.contains name) := by
    rw [List.countP_map]
    congr 1
    funext xs
    exact contains_map_injective m.name.injective xs name
  simp only [callerCounts, hcalled]
  generalize g.functions.map (fun caller => g.callees (some caller)) = called
  rw [CallGraph.relabel, List.map_map, List.map_map]
  refine List.map_congr_left fun name _ => ?_
  exact congrArg (Prod.mk (m.name name)) (hcount _ name)

theorem uncount_relabel (called : List String) (waiting : List (String × Nat)) :
    uncount (called.map m.name) (waiting.map (Prod.map m.name id)) =
      (uncount called waiting).map (Prod.map m.name id) := by
  rw [uncount, uncount, List.map_map, List.map_map]
  refine List.map_congr_left fun entry _ => ?_
  simp only [Function.comp_apply, Prod.map, contains_map_injective m.name.injective, id_eq]

theorem orderFrom_relabel (steps : Nat) (waiting : List (String × Nat)) :
    (g.relabel m).orderFrom steps (waiting.map (Prod.map m.name id)) =
      (g.orderFrom steps waiting).map m.name := by
  induction steps generalizing waiting with
  | zero => rfl
  | succ steps ih =>
    have hfree : (fun entry : String × Nat => decide (entry.2 = 0)) ∘ Prod.map m.name id =
        fun entry => decide (entry.2 = 0) := rfl
    rw [orderFrom, orderFrom, List.find?_map, List.eraseP_map, hfree]
    cases waiting.find? (·.2 = 0) with
    | none => rfl
    | some entry =>
      have hcallees : (g.relabel m).callees (some (m.name entry.1)) =
          (g.callees (some entry.1)).map m.name := callees_relabel m g (some entry.1)
      simp only [Option.map_some, Prod.map_fst, hcallees, uncount_relabel, ih,
        List.map_cons]

/-- The functions come in the same order. -/
theorem order_relabel : (g.relabel m).order = g.order.map m.name := by
  rw [order, callerCounts_relabel, orderFrom_relabel, CallGraph.relabel, List.length_map, order]

end CallGraph

namespace Program

variable (p : Program)

theorem functionOrder_relabel :
    (p.relabel m).functionOrder = p.functionOrder.map m.name := by
  rw [functionOrder, callGraph_relabel, CallGraph.order_relabel, functionOrder]

end Program

/-! ## Searches -/

def Way.relabel : Way → Way
  | yield => .yield
  | block body => .block (Stmt.relabelAll m body)
  | function name => .function (m.name name)

theorem Stmt.ways_relabel (st : Stmt) : (st.relabel m).ways = st.ways.map (Way.relabel m) := by
  cases st <;> rfl

theorem Stmt.flatMap_ways_relabel (sts : List Stmt) :
    (Stmt.relabelAll m sts).flatMap Stmt.ways = (sts.flatMap Stmt.ways).map (Way.relabel m) := by
  induction sts with
  | nil => rfl
  | cons st sts ih =>
    simp only [Stmt.relabelAll, List.flatMap_cons, Stmt.ways_relabel, ih, List.map_append]

/-- What is remembered, under other names. -/
def Memory.relabel (memory : Memory) : Memory := memory.map (Prod.map m.name id)

variable {m}

theorem carries_anyM {search search' : Way → Search}
    (h : ∀ w memory, m.Carries (Prod.map id (Memory.relabel m)) (search w memory)
      (search' (w.relabel m) (Memory.relabel m memory))) (ws : List Way) (memory : Memory) :
    m.Carries (Prod.map id (Memory.relabel m)) (ws.anyM search memory)
      ((ws.map (Way.relabel m)).anyM search' (Memory.relabel m memory)) := by
  induction ws generalizing memory with
  | nil => exact Matches.ok rfl
  | cons w ws ih =>
    rw [List.map_cons, Search.anyM_cons_apply, Search.anyM_cons_apply]
    refine (h w memory).andThen fun (found, memory') => ?_
    cases found with
    | true => exact Matches.ok rfl
    | false => exact ih memory'

/-- Under other names, a search finds the same. -/
theorem Program.carries_search (p : Program) (depth : Nat) (w : Way) (memory : Memory) :
    m.Carries (Prod.map id (Memory.relabel m)) (p.search depth w memory)
      ((p.relabel m).search depth (w.relabel m) (Memory.relabel m memory)) := by
  induction depth generalizing w memory with
  | zero =>
    cases w with
    | yield => exact Matches.ok rfl
    | block | function => exact Matches.error (.refl rfl rfl)
  | succ depth ih =>
    cases w with
    | yield => exact Matches.ok rfl
    | block body =>
      simp only [Way.relabel, search, Stmt.flatMap_ways_relabel]
      exact carries_anyM ih _ memory
    | function name =>
      simp only [Way.relabel, search, function?_relabel, Memory.relabel,
        lookup_map_injective m.name.injective]
      cases memory.lookup name with
      | some found => exact Matches.ok rfl
      | none =>
        cases p.function? name with
        | none =>
          exact Matches.error ⟨rfl, fun h => congrArg Failure.unknownFunction (h name), .none, rfl⟩
        | some f => exact (ih (.block f.body) memory).andThen fun _ => Matches.ok rfl

end Resolved

/-- A program with other names and places resolves to the resolved program with these, or is refused
for the same reason. -/
theorem Program.carries_resolve {m : Relabeling} (file : String) (strict : Bool) (limits : Limits)
    (p : Program) :
    m.Carries (Resolved.Program.relabel m) (p.resolve file strict limits)
      ((p.relabel m).resolve file strict limits) := by
  refine (Resolved.Context.carries_program file strict p).andThen fun r => ?_
  rw [Resolved.Program.callGraph_relabel]
  exact (Resolved.CallGraph.carries_check file limits.chain).andThen fun _ => Matches.ok rfl

end Chipwright
