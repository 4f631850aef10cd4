import Chipwright.Proofs.RegisterPool
import Chipwright.RegisterPool.Action
import Mathlib.Order.Bounds.Basic

/-!
# Pools under calls of any kind

However calls follow each other, and whether they fail or not, a pool keeps its registers
apart and hands out the lowest one that is free. When a frame is closed, all the others are
as they were when it was opened.

## Main statements

* `disciplined_of_calls`: what holds of a pool after any calls, and how it answers the next
-/
namespace Chipwright.RegisterPool

variable {p q : RegisterPool} {r : Register} {a : Action} {as bs : List Action}

/-! ### The lowest free register -/

/-- The numbers of the registers that can be taken. -/
def freeIndices (p : RegisterPool) : Set ℕ := {i | i < p.size ∧ ∀ r ∈ p.live, r.index.val ≠ i}

theorem index_mem_freeIndices (hp : p.size ≤ Register.generalCount) :
    r.index.val ∈ p.freeIndices ↔ r ∈ Register.general p.size ∧ r ∉ p.live := by
  have hlive : (∀ r' ∈ p.live, r'.index.val ≠ r.index.val) ↔ r ∉ p.live := by
    refine ⟨fun h hr => h r hr rfl, fun h r' hr' heq => h ?_⟩
    rwa [Register.eq_of_index heq] at hr'
  rw [Register.mem_general_iff, ← hlive]
  constructor
  · exact fun ⟨hlt, hr⟩ => ⟨⟨hlt, hlt.trans_le hp⟩, hr⟩
  · exact fun ⟨⟨hlt, _⟩, hr⟩ => ⟨hlt, hr⟩

theorem free?_eq_none (hp : p.size ≤ Register.generalCount) :
    p.free? = none ↔ p.freeIndices = ∅ := by
  rw [free?, List.find?_eq_none, Set.eq_empty_iff_forall_notMem]
  constructor
  · intro h i hi
    have hlt : i < 18 := hi.1.trans_le (hp.trans (by decide))
    have hr := (index_mem_freeIndices (r := ⟨⟨i, hlt⟩⟩) hp).1 hi
    exact h _ hr.1 (by simpa using hr.2)
  · intro h r hr hlive
    exact h _ ((index_mem_freeIndices hp).2 ⟨hr, by simpa using hlive⟩)

theorem isLeast_of_free? (hp : p.size ≤ Register.generalCount) (h : p.free? = some r) :
    IsLeast p.freeIndices r.index.val := by
  obtain ⟨hr, k, hk, rfl, hbefore⟩ := List.find?_eq_some_iff_getElem.1 h
  refine ⟨(index_mem_freeIndices hp).2 ⟨List.getElem_mem hk, by simpa using hr⟩, fun i hi => ?_⟩
  rw [Register.index_getElem_general]
  by_contra hlt
  have hik : i < k := Nat.lt_of_not_le hlt
  rw [← Register.index_getElem_general (hik.trans hk), index_mem_freeIndices hp] at hi
  exact hi.2 (by simpa using hbefore i hik)

/-- The search from below finds the lowest register that is free. -/
theorem free?_eq_some (hp : p.size ≤ Register.generalCount) :
    p.free? = some r ↔ IsLeast p.freeIndices r.index.val := by
  refine ⟨isLeast_of_free? hp, fun h => ?_⟩
  cases hfree : p.free? with
  | none => exact absurd h.1 (by simp [(free?_eq_none hp).1 hfree])
  | some r' => rw [Register.eq_of_index ((isLeast_of_free? hp hfree).unique h)]

/-! ### Calls -/

/-- Whether an action is a single call. -/
def Action.isCall : Action → Bool
  | .frame _ => false
  | _ => true

/-- The pool after actions, whether they fail or not. -/
def after : List Action → RegisterPool → RegisterPool
  | [], p => p
  | a :: as, p => after as (perform a p).2.pool

theorem after_append (as bs : List Action) (p : RegisterPool) :
    after (as ++ bs) p = after bs (after as p) := by
  induction as generalizing p with
  | nil => rfl
  | cons a as ih => exact ih _

/-- All that a call can come to. -/
inductive Step (p : RegisterPool) : Action → Record → Prop
  | allocated {construct : String} {location : Option Location} {r : Register} {q : RegisterPool}
      (h : p.allocate construct location = .ok (r, q)) :
      Step p (.allocate construct location) ⟨.ok (.register r), q⟩
  | released {index : Int} {r : Register} {q : RegisterPool} (hr : Register.ofIndex index = .ok r)
      (h : p.release r = .ok q) : Step p (.release index) ⟨.ok .nothing, q⟩
  | pushed : Step p .push ⟨.ok .nothing, p.push⟩
  | popped {rs : List Register} {q : RegisterPool} (h : p.pop = .ok (rs, q)) :
      Step p .pop ⟨.ok (.registers rs), q⟩
  | failed {a : Action} (e : Failure) : Step p a ⟨.error e, p⟩

theorem step_perform (p : RegisterPool) (h : a.isCall = true) : Step p a (perform a p).2 := by
  cases a with
  | allocate construct location =>
    rw [perform]
    cases hp : p.allocate construct location with
    | error e => exact .failed e
    | ok x => exact .allocated hp
  | release index =>
    rw [perform, releaseIndex]
    cases hr : Register.ofIndex index with
    | error fault => exact .failed (.chip fault)
    | ok r =>
      change Step p _ (.ofResult p ((p.release r).bind _))
      cases hp : p.release r with
      | error e => exact .failed e
      | ok q => exact .released hr hp
  | push => exact .pushed
  | pop =>
    rw [perform]
    cases hp : p.pop with
    | error e => exact .failed e
    | ok x => exact .popped hp
  | frame actions => cases h

theorem performAll_cons (p : RegisterPool) (h : a.isCall = true) (as : List Action) :
    performAll (a :: as) p = (perform a p).2 :: performAll as (perform a p).2.pool := by
  cases a <;> first | rfl | cases h

/-! ### What every call keeps -/

/-- A pool of a size keeps clear of the reserved registers and takes none twice. -/
structure Orderly (n : ℕ) (reserved : List Register) (p : RegisterPool) : Prop where
  size : p.size = n
  nodup : p.frames.flatten.Nodup
  free : ∀ r ∈ p.frames.flatten, r ∉ reserved
  below : ∀ r ∈ p.frames.flatten, r.index.val < n
  reserved : p.reserved = reserved

namespace Orderly

variable {n : ℕ} {reserved : List Register}

theorem of_sublist (h : Orderly n reserved p) (hsize : q.size = p.size)
    (hreserved : q.reserved = p.reserved)
    (hframes : q.frames.flatten.Sublist p.frames.flatten) : Orderly n reserved q where
  size := hsize.trans h.size
  nodup := h.nodup.sublist hframes
  free r hr := h.free r (hframes.subset hr)
  below r hr := h.below r (hframes.subset hr)
  reserved := hreserved.trans h.reserved

theorem of_takes (h : Orderly n reserved p) (ht : Takes p [r] q) : Orderly n reserved q := by
  have hlive : r ∉ p.live := ht.free r (by simp)
  have hperm : q.frames.flatten.Perm (r :: p.frames.flatten) := by
    simp [frames, ht.innermost, ht.outer]
  have hfree : r ∉ p.frames.flatten := fun hr => hlive (List.mem_append_right _ hr)
  refine ⟨ht.size.trans h.size, hperm.nodup_iff.2 (List.nodup_cons.2 ⟨hfree, h.nodup⟩),
    fun r' hr' => ?_, fun r' hr' => ?_, ht.reserved.trans h.reserved⟩
  · rcases List.mem_cons.1 (hperm.subset hr') with rfl | hr'
    · exact fun hr => hlive (List.mem_append_left _ (h.reserved ▸ hr))
    · exact h.free r' hr'
  · rcases List.mem_cons.1 (hperm.subset hr') with rfl | hr'
    · exact h.size ▸ (Register.mem_general_iff.1 (ht.general r' (by simp))).1
    · exact h.below r' hr'

theorem of_step {x : Record} (h : Orderly n reserved p) (hstep : Step p a x) :
    Orderly n reserved x.pool := by
  cases hstep with
  | allocated hp => exact h.of_takes (takes_of_allocate hp)
  | released hr hp =>
    obtain ⟨-, rfl⟩ := release_eq_ok.1 hp
    exact h.of_sublist rfl rfl (List.erase_sublist.append (.refl _))
  | pushed => exact h.of_sublist rfl rfl (by simp [frames, push])
  | popped hp =>
    obtain ⟨frame, outer, houter, -, rfl⟩ := pop_eq_ok.1 hp
    exact h.of_sublist rfl rfl (by simp [frames, houter])
  | failed e => exact h

theorem of_calls (h : Orderly n reserved p) (has : ∀ a ∈ as, a.isCall = true) :
    Orderly n reserved (after as p) := by
  induction as generalizing p with
  | nil => exact h
  | cons a as ih =>
    obtain ⟨ha, has⟩ := List.forall_mem_cons.1 has
    exact ih (h.of_step (step_perform p ha)) has

end Orderly

theorem mem_used_of_step {x : Record} (h : Step p a x) :
    r ∈ x.pool.used ↔ r ∈ p.used ∨ x.answer = .ok (.register r) := by
  cases h with
  | allocated hp =>
    obtain ⟨-, rfl⟩ := allocate_eq_ok.1 hp
    simp [or_comm, eq_comm]
  | released hr hp =>
    obtain ⟨-, rfl⟩ := release_eq_ok.1 hp
    simp
  | pushed => simp [push]
  | popped hp => simp [used_of_pop hp]
  | failed e => simp

/-- The registers that count as used are just those that have been handed out. -/
theorem mem_used_after (has : ∀ a ∈ as, a.isCall = true) :
    r ∈ (after as p).used ↔
      r ∈ p.used ∨ ∃ x ∈ performAll as p, x.answer = .ok (.register r) := by
  induction as generalizing p with
  | nil => simp [after, performAll]
  | cons a as ih =>
    obtain ⟨ha, has⟩ := List.forall_mem_cons.1 has
    rw [after, ih has, mem_used_of_step (step_perform p ha), performAll_cons p ha,
      List.exists_mem_cons_iff, or_assoc]

/-! ### Frames that are opened and closed -/

/-- Whether an action takes a register or gives one back. -/
def Action.transfers : Action → Bool
  | .allocate .. | .release _ => true
  | _ => false

/-- Every frame that is opened is closed, and no other. -/
inductive Balanced : List Action → Prop
  | nil : Balanced []
  | transfer {a : Action} {as : List Action} (ha : a.transfers = true) (has : Balanced as) :
      Balanced (a :: as)
  | frame {inner as : List Action} (hinner : Balanced inner) (has : Balanced as) :
      Balanced (.push :: (inner ++ .pop :: as))

/-- What a call does to the frame that it acts on. -/
inductive Change
  | taken (r : Register)
  | returned (r : Register)
  deriving DecidableEq

/-- The registers that are taken and not given back later, in order. -/
def held : List Change → List Register
  | [] => []
  | .taken r :: cs => if .returned r ∈ cs then held cs else r :: held cs
  | .returned _ :: cs => held cs

theorem held_taken (cs : List Change) (r : Register) :
    held (cs ++ [.taken r]) = held cs ++ [r] := by
  induction cs with
  | nil => rfl
  | cons c cs ih =>
    cases c with
    | taken r' =>
      by_cases h : .returned r' ∈ cs <;> simp [held, h, ih]
    | returned r' => simpa [held] using ih

theorem held_returned (cs : List Change) (r : Register) :
    held (cs ++ [.returned r]) = (held cs).filter (· != r) := by
  induction cs with
  | nil => rfl
  | cons c cs ih =>
    cases c with
    | taken r' =>
      by_cases h : .returned r' ∈ cs
      · simpa [held, h] using ih
      · by_cases hr : r' = r
        · subst hr
          simpa [held, h] using ih
        · simpa [held, h, hr] using ih
    | returned r' => simpa [held] using ih

/-- What an action with an answer has done. -/
def change? : Action → Except Failure Answer → Option Change
  | .allocate .., .ok (.register r) => some (.taken r)
  | .release index, .ok _ => (Register.ofIndex index).toOption.map .returned
  | _, _ => none

/-- All that is done to a frame, which is the innermost one at its depth. -/
def changesAt (depth : ℕ) : List Action → RegisterPool → List Change
  | [], _ => []
  | a :: as, p =>
    (if p.depth = depth then (change? a (perform a p).2.answer).toList else []) ++
      changesAt depth as (perform a p).2.pool

theorem changesAt_append (d : ℕ) (as bs : List Action) (p : RegisterPool) :
    changesAt d (as ++ bs) p = changesAt d as p ++ changesAt d bs (after as p) := by
  induction as generalizing p with
  | nil => rfl
  | cons a as ih => simp [changesAt, after, ih]

theorem change?_error (a : Action) (e : Failure) : change? a (.error e) = none := by
  cases a <;> rfl

variable {d : ℕ} {cs : List Change} {x : Record}

/-- What is held in a frame, when a register has been taken or given back. -/
theorem Takes.of_transfer (h : Takes p (held cs) q) (ha : a.transfers = true) (hstep : Step q a x)
    (hp : p.innermost = []) : Takes p (held (cs ++ (change? a x.answer).toList)) x.pool := by
  cases hstep with
  | allocated hq => exact held_taken cs _ ▸ h.trans (takes_of_allocate hq)
  | @released index r t hr hq =>
    have hmem : r ∈ held cs := by
      have := (release_eq_ok.1 hq).1
      rwa [h.innermost, hp] at this
    obtain ⟨xs, ys, -, hsplit, herase⟩ := List.exists_erase_eq hmem
    have ht := (hsplit ▸ h).release hq
    rw [← herase, h.nodup.erase_eq_filter, ← held_returned] at ht
    simpa [change?, hr, Except.toOption] using ht
  | pushed => cases ha
  | popped hq => cases ha
  | failed e => simpa [change?_error] using h

theorem Action.isCall_of_transfers (h : a.transfers = true) : a.isCall = true := by
  cases a <;> first | rfl | cases h

theorem depth_of_outer (h : q.outer = p.outer) : q.depth = p.depth := by
  simp [depth, frames, h]

theorem outer_of_transfer (ha : a.transfers = true) (hstep : Step p a x) :
    x.pool.outer = p.outer := by
  cases hstep with
  | allocated hp => exact (takes_of_allocate hp).outer
  | released hr hp => rw [(release_eq_ok.1 hp).2]
  | pushed => cases ha
  | popped hp => cases ha
  | failed e => rfl

theorem perform_pop_of_outer {frame : List Register} {outer : List (List Register)}
    (h : p.outer = frame :: outer) : perform .pop p =
      ([], ⟨.ok (.registers p.innermost), { p with innermost := frame, outer }⟩) := by
  rw [perform, pop_eq_ok.2 ⟨frame, outer, h, rfl, rfl⟩]
  rfl

/-- Opening and closing a frame does nothing to any frame but that one. -/
theorem changesAt_frame (d : ℕ) (inner as : List Action) (p : RegisterPool) :
    changesAt d (.push :: (inner ++ .pop :: as)) p = changesAt d inner p.push ++
      changesAt d as (perform .pop (after inner p.push)).2.pool := by
  simp [changesAt, changesAt_append, change?, perform]

/-- Balanced calls leave the frames outside alone. -/
theorem outer_of_balanced (h : Balanced as) (p : RegisterPool) :
    (after as p).outer = p.outer ∧ ∀ d < p.depth, changesAt d as p = [] := by
  induction h generalizing p with
  | nil => exact ⟨rfl, fun _ _ => rfl⟩
  | @transfer a as ha has ih =>
    have houter := outer_of_transfer ha (step_perform p (Action.isCall_of_transfers ha))
    have hdepth := depth_of_outer houter
    obtain ⟨h₁, h₂⟩ := ih (perform a p).2.pool
    refine ⟨h₁.trans houter, fun d hd => ?_⟩
    rw [changesAt, h₂ d (hdepth ▸ hd), if_neg (by omega)]
    rfl
  | @frame inner as hinner has ih₁ ih₂ =>
    obtain ⟨houter, hnone⟩ := ih₁ p.push
    have hpop := perform_pop_of_outer houter
    rw [after, after_append, after]
    obtain ⟨h₁, h₂⟩ := ih₂ (perform .pop (after inner p.push)).2.pool
    rw [hpop] at h₁ h₂
    refine ⟨?_, fun d hd => ?_⟩
    · exact hpop ▸ h₁
    · rw [changesAt_frame, hnone d (Nat.lt_succ_of_lt hd), hpop]
      exact h₂ d hd

/-- What is held in a frame that was empty, after balanced calls in it. -/
theorem held_of_balanced (h : Balanced as) (hq : Takes p (held cs) q) (hp : p.innermost = []) :
    Takes p (held (cs ++ changesAt p.depth as q)) (after as q) := by
  induction h generalizing p q cs with
  | nil => simpa [changesAt, after] using hq
  | @transfer a as ha has ih =>
    have hstep := step_perform q (Action.isCall_of_transfers ha)
    have := ih (hq.of_transfer ha hstep hp) hp
    rw [changesAt, if_pos (depth_of_outer hq.outer), ← List.append_assoc]
    exact this
  | @frame inner as hinner has ih₁ ih₂ =>
    have hdepth : p.depth < q.push.depth :=
      depth_of_outer hq.outer ▸ Nat.lt_succ_self q.depth
    obtain ⟨houter, hnone⟩ := outer_of_balanced hinner q.push
    have hpush : Takes q.push (held []) q.push := .refl _
    have hpop := (ih₁ hpush rfl).pop (pop_eq_ok.2 ⟨_, _, houter, rfl, rfl⟩)
    rw [changesAt_frame, hnone _ hdepth, after, after_append, after]
    refine ih₂ ?_ hp
    rw [perform_pop_of_outer houter]
    simpa using hq.trans hpop

/-- Closing a frame brings back the others and gives what was held in it. -/
theorem popped_of_balanced (h : Balanced as) (p : RegisterPool) : ∃ pool,
    (perform .pop (after (.push :: as) p)).2 =
      ⟨.ok (.registers (held (changesAt (p.depth + 1) as p.push))), pool⟩ ∧
    pool.frames = p.frames := by
  have hpush : Takes p.push (held []) p.push := .refl _
  have htakes := held_of_balanced h hpush rfl
  have hpop := htakes.pop (pop_eq_ok.2 ⟨_, _, htakes.outer, rfl, rfl⟩)
  refine ⟨_, ?_, hpop.frames⟩
  change (perform .pop (after as p.push)).2 = _
  rw [perform_pop_of_outer htakes.outer, htakes.innermost]
  rfl

/-! ### Discipline -/

theorem unchanged_of_error {e : Failure} (h : Step p a x) (he : x.answer = .error e) :
    x.pool = p := by
  cases h with
  | failed e => rfl
  | _ => cases he

/-- What a pool of `n` registers less the reserved ones is like after calls with the given
records, and how it answers the next call. -/
structure Disciplined (n : ℕ) (reserved : List Register) (records : List Record)
    (p : RegisterPool) : Prop where
  orderly : Orderly n reserved p
  used : ∀ r, r ∈ p.used ↔ ∃ x ∈ records, x.answer = .ok (.register r)
  lowest : ∀ construct location r,
    (∃ q, p.allocate construct location = .ok (r, q)) ↔ IsLeast p.freeIndices r.index.val
  exhausted : ∀ construct location,
    (∃ e, p.allocate construct location = .error e) ↔ p.freeIndices = ∅
  outermost : (∃ e, p.pop = .error e) ↔ p.depth = 1
  foreign : ∀ r, (∃ e, p.release r = .error e) ↔ r ∉ p.innermost
  unchanged : ∀ a e, a.isCall = true → (perform a p).2.answer = .error e →
    (perform a p).2.pool = p
  restored : ∀ body, Balanced body → ∃ pool,
    (perform .pop (after (.push :: body) p)).2 =
      ⟨.ok (.registers (held (changesAt (p.depth + 1) body p.push))), pool⟩ ∧
    pool.frames = p.frames

/-- Whatever calls a new pool gets, and whether they fail or not, it keeps its discipline. -/
theorem disciplined_of_calls {n : ℕ} (hn : 1 ≤ n ∧ n ≤ Register.generalCount)
    (reserved : List Register) {calls : List Action} (hcalls : ∀ a ∈ calls, a.isCall = true) :
    ∃ fresh, ofCount n reserved = .ok fresh ∧
      Disciplined n reserved (performAll calls fresh) (after calls fresh) := by
  have hfresh : ofCount n reserved = .ok (fresh n reserved) := by
    rw [ofCount_eq_ok]
    exact ⟨by omega, rfl⟩
  have horderly : Orderly n reserved (after calls (fresh n reserved)) := by
    refine Orderly.of_calls ⟨rfl, ?_, ?_, ?_, rfl⟩ hcalls <;> simp [fresh, frames]
  have hsize := horderly.size ▸ hn.2
  refine ⟨_, hfresh, horderly, fun r => ?_, fun construct location r => ?_,
    fun construct location => ?_, ?_, fun r => ?_, fun a e ha h => ?_, fun body hbody => ?_⟩
  · simp [mem_used_after hcalls, fresh]
  · rw [← free?_eq_some hsize]
    simp [allocate_eq_ok]
  · rw [← free?_eq_none hsize]
    simp [allocate_eq_error]
  · simp [pop_eq_error, depth, frames]
  · simp [release_eq_error]
  · exact unchanged_of_error (step_perform _ ha) h
  · exact popped_of_balanced hbody _

/-- The calls before a frame is opened; the second one fails. -/
def earlyCalls : List Action := [.allocate "a" none, .pop]

/-- In a frame, two registers are taken with one inner frame between them, and the first is given
back and taken again. The inner frame has room for one register only. -/
def frameCalls : List Action :=
  [.allocate "b" none, .release 0, .push, .allocate "c" none, .allocate "d" none, .pop,
    .allocate "e" none, .release 2, .allocate "f" none]

theorem disciplined_of_calls_four : ∃ fresh, ofCount 4 [⟨⟨1, by decide⟩⟩] = .ok fresh ∧
    Orderly 4 [⟨⟨1, by decide⟩⟩] (after earlyCalls fresh) ∧
    ∃ pool, (perform .pop (after (.push :: frameCalls) (after earlyCalls fresh))).2 =
      ⟨.ok (.registers [⟨⟨3, by decide⟩⟩, ⟨⟨2, by decide⟩⟩]), pool⟩ := by
  have hbody : Balanced frameCalls := by
    have hinner : Balanced [.allocate "c" none, .allocate "d" none] :=
      .transfer rfl (.transfer rfl .nil)
    exact .transfer rfl (.transfer rfl (.frame hinner
      (.transfer rfl (.transfer rfl (.transfer rfl .nil)))))
  have hcalls : ∀ a ∈ earlyCalls, a.isCall = true := by decide
  obtain ⟨p, hp, h⟩ := disciplined_of_calls (n := 4) (by decide) [⟨⟨1, by decide⟩⟩] hcalls
  obtain ⟨pool, hpool, -⟩ := h.restored frameCalls hbody
  obtain ⟨-, rfl⟩ := ofCount_eq_ok.1 hp
  refine ⟨_, hp, h.orderly, pool, hpool.trans ?_⟩
  rfl

end Chipwright.RegisterPool
