import Chipwright.Resolved.CallGraph
import Mathlib.Data.List.Perm.Subperm

/-!
# Callers come first

In the order of a call graph, no function is called by itself or by a function after it. The
order is built by taking out functions one by one; the count that is kept for each function
that remains is the number of those that remain and call it, so one with the count zero is
called by none of them.
-/
namespace Chipwright.Resolved.CallGraph

variable {g : CallGraph}

/-- How many of some functions call a function. -/
def callersAmong (g : CallGraph) (remaining : List String) (name : String) : Nat :=
  remaining.countP fun caller => (g.callees (some caller)).contains name

/-- The functions that remain, with the numbers of their remaining callers. -/
def waiting (g : CallGraph) (remaining : List String) : List (String × Nat) :=
  remaining.map fun name => (name, g.callersAmong remaining name)

theorem callerCounts_eq (g : CallGraph) : g.callerCounts = g.waiting g.functions := by
  simp [callerCounts, waiting, callersAmong, List.countP_map, Function.comp_def]

/-- Taking out a function without callers leaves the right counts for the others. -/
theorem uncount_waiting {before after : List String} {name : String} :
    uncount (g.callees (some name))
        ((before ++ after).map fun n => (n, g.callersAmong (before ++ name :: after) n)) =
      g.waiting (before ++ after) := by
  simp only [uncount, waiting, List.map_map]
  refine List.map_congr_left fun n _ => ?_
  simp only [Function.comp_apply, Prod.mk.injEq, true_and, callersAmong, List.countP_append,
    List.countP_cons]
  split <;> omega

/-- One step of building the order. -/
theorem orderFrom_waiting (g : CallGraph) (steps : Nat) (remaining : List String) :
    g.orderFrom (steps + 1) (g.waiting remaining) = [] ∨
      ∃ before name after, remaining = before ++ name :: after ∧
        (∀ caller ∈ remaining, name ∉ g.callees (some caller)) ∧
        (∀ earlier ∈ before, ∃ caller ∈ remaining, earlier ∈ g.callees (some caller)) ∧
        g.orderFrom (steps + 1) (g.waiting remaining) =
          name :: g.orderFrom steps (g.waiting (before ++ after)) := by
  cases hfind : remaining.find? (g.callersAmong remaining · = 0) with
  | none =>
    left
    simp only [orderFrom, waiting, List.find?_map, Function.comp_def, hfind, Option.map_none]
  | some name =>
    right
    obtain ⟨hzero, before, after, hsplit, hbefore⟩ := List.find?_eq_some_iff_append.1 hfind
    have hzero : g.callersAmong remaining name = 0 := by simpa using hzero
    have herase : remaining.eraseP (g.callersAmong remaining · = 0) = before ++ after := by
      rw [hsplit] at hzero hbefore ⊢
      rw [List.eraseP_append_right _ fun n hn => by simpa using hbefore n hn]
      simp [hzero]
    refine ⟨before, name, after, hsplit, fun caller hcaller hmem => ?_, fun earlier hmem => ?_, ?_⟩
    · have := List.countP_eq_zero.1 hzero caller hcaller
      simp [hmem] at this
    · have hpos : 0 < g.callersAmong remaining earlier := by
        simpa [Nat.pos_iff_ne_zero] using hbefore earlier hmem
      obtain ⟨caller, hcaller, hcalled⟩ := List.countP_pos_iff.1 hpos
      exact ⟨caller, hcaller, by simpa using hcalled⟩
    · have hstep : g.orderFrom (steps + 1) (g.waiting remaining) = name :: g.orderFrom steps
          (uncount (g.callees (some name))
            ((before ++ after).map fun n => (n, g.callersAmong remaining n))) := by
        simp only [orderFrom, waiting, List.find?_map, List.eraseP_map, Function.comp_def, hfind,
          herase, Option.map_some]
      rw [hstep]
      conv_lhs => rw [hsplit]
      rw [uncount_waiting]

/-- An order in which no function is called by itself or by one after it. -/
structure Descends (g : CallGraph) (order : List String) : Prop where
  pairwise : order.Pairwise fun earlier later => earlier ∉ g.callees (some later)
  irreflexive : ∀ name ∈ order, name ∉ g.callees (some name)

theorem orderFrom_spec (steps : Nat) (remaining : List String) :
    (g.orderFrom steps (g.waiting remaining)).Subperm remaining ∧
      g.Descends (g.orderFrom steps (g.waiting remaining)) := by
  induction steps generalizing remaining with
  | zero => exact ⟨by simp [orderFrom], by simp [orderFrom], by simp [orderFrom]⟩
  | succ steps ih =>
    rcases orderFrom_waiting g steps remaining with hnil |
      ⟨before, name, after, rfl, hcallers, -, hstep⟩
    · rw [hnil]
      exact ⟨by simp, by simp, by simp⟩
    · obtain ⟨hsub, hpairwise, hself⟩ := ih (before ++ after)
      have hmem : ∀ n ∈ g.orderFrom steps (g.waiting (before ++ after)),
          n ∈ before ++ name :: after := by
        intro n hn
        have := hsub.subset hn
        simp only [List.mem_append, List.mem_cons] at this ⊢
        tauto
      rw [hstep]
      refine ⟨?_, List.pairwise_cons.2 ⟨fun n hn => hcallers n (hmem n hn), hpairwise⟩, ?_⟩
      · refine List.Subperm.trans ((List.subperm_cons name).2 hsub) ?_
        exact List.perm_middle.symm.subperm
      · intro n hn
        rcases List.mem_cons.1 hn with rfl | hn
        · exact hcallers n (by simp)
        · exact hself n hn

/-- Of all such orders of what remains, the one that is built is the least: it is equal to the
other, or comes first where functions are compared in the order in which they remain. -/
theorem orderFrom_least {index : String → Nat} (steps : Nat) {remaining other : List String}
    (hindex : remaining.Pairwise (index · < index ·)) (hperm : other.Perm remaining)
    (hother : g.Descends other) :
    g.orderFrom steps (g.waiting remaining) = other ∨
      List.Lex (· < ·) ((g.orderFrom steps (g.waiting remaining)).map index)
        (other.map index) := by
  induction steps generalizing remaining other with
  | zero => cases other <;> simp [orderFrom]
  | succ steps ih =>
    rcases orderFrom_waiting g steps remaining with hnil |
      ⟨before, name, after, rfl, -, hbefore, hstep⟩
    · rw [hnil]
      cases other <;> simp
    · cases other with
      | nil => simp at hperm
      | cons first others =>
        -- The other order cannot start with a function that is still called.
        have hfirst : first ∈ name :: after := by
          refine (List.mem_append.1 (hperm.subset List.mem_cons_self)).resolve_left fun hmem => ?_
          obtain ⟨caller, hcaller, hcalled⟩ := hbefore first hmem
          rcases List.mem_cons.1 (hperm.symm.subset hcaller) with rfl | hcaller
          · exact hother.irreflexive caller List.mem_cons_self hcalled
          · exact (List.pairwise_cons.1 hother.pairwise).1 caller hcaller hcalled
        rw [hstep]
        rcases List.mem_cons.1 hfirst with rfl | hafter
        · have hperm : others.Perm (before ++ after) :=
            List.Perm.cons_inv (hperm.trans List.perm_middle)
          have hrest := ih (hindex.sublist (by simp)) hperm
            ⟨(List.pairwise_cons.1 hother.pairwise).2,
              fun f hf => hother.irreflexive f (List.mem_cons_of_mem _ hf)⟩
          rcases hrest with heq | hlex
          · exact .inl (by rw [heq])
          · exact .inr (.cons hlex)
        · have hlt := (List.pairwise_cons.1 (List.pairwise_append.1 hindex).2.1).1 first hafter
          exact .inr (.rel hlt)

/-- In the order, no function is called by itself or by one after it. -/
theorem callers_first (g : CallGraph) {before after : List String} {name : String}
    (h : g.order = before ++ name :: after) :
    ∀ caller ∈ name :: after, name ∉ g.callees (some caller) := by
  obtain ⟨-, hpairwise, hself⟩ := orderFrom_spec g.functions.length g.functions
  rw [← callerCounts_eq, ← order, h] at hpairwise hself
  intro caller hcaller
  rcases List.mem_cons.1 hcaller with rfl | hcaller
  · exact hself caller (by simp)
  · exact (List.pairwise_cons.1 (List.pairwise_append.1 hpairwise).2.1).1 caller hcaller

/-- A caller comes before what it calls. -/
theorem idxOf_lt_of_mem_callees (g : CallGraph) {caller callee : String}
    (hcaller : caller ∈ g.order) (hcallee : callee ∈ g.order)
    (h : callee ∈ g.callees (some caller)) : g.order.idxOf caller < g.order.idxOf callee := by
  obtain ⟨before, after, heq, hfirst⟩ := List.eq_append_cons_of_mem hcallee
  have hafter : caller ∉ callee :: after := fun hmem => g.callers_first heq caller hmem h
  rw [heq] at hcaller ⊢
  have hbefore : caller ∈ before := (List.mem_append.1 hcaller).resolve_right hafter
  rw [List.idxOf_append_of_mem hbefore, List.idxOf_append_of_notMem hfirst]
  simpa using List.idxOf_lt_length_of_mem hbefore

theorem order_subperm (g : CallGraph) : g.order.Subperm g.functions := by
  rw [order, callerCounts_eq]
  exact (orderFrom_spec _ _).1

end Chipwright.Resolved.CallGraph
