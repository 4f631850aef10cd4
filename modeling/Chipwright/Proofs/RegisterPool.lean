import Chipwright.RegisterPool
import Mathlib.Data.List.Nodup

/-!
# What lowering does to a register pool

Lowering never looks at a pool as a whole. It takes registers in the innermost frame, gives
some of them back, and opens and closes frames of its own; in the end the pool is the one it
started with and a few registers more. `Takes p rs q` says that about two pools, and every
step of lowering is described by it.
-/
namespace Chipwright

namespace Register

variable {n k : Nat} {r r' : Register}

theorem length_general (n : Nat) : (general n).length = min n generalCount := by
  simp [general, all, generalCount]

theorem index_getElem_general (hk : k < (general n).length) : ((general n)[k]).index.val = k := by
  simp [general, all]

theorem mem_general_iff : r ∈ general n ↔ r.index.val < n ∧ r.index.val < generalCount := by
  rw [← Nat.lt_min, ← length_general]
  constructor
  · intro h
    obtain ⟨k, hk, rfl⟩ := List.getElem_of_mem h
    rwa [index_getElem_general]
  · intro h
    have hget : (general n)[r.index.val] = r := by simp [general, all]
    exact hget ▸ List.getElem_mem h

theorem eq_of_index (h : r.index.val = r'.index.val) : r = r' := by
  cases r
  cases r'
  exact congrArg mk (Fin.ext h)

end Register

namespace RegisterPool

variable {p q : RegisterPool} {r : Register} {rs : List Register}

/-! ### What each operation does -/

theorem ofCount_eq_ok {count : Int} {reserved : List Register} :
    ofCount count reserved = .ok p ↔
      (1 ≤ count ∧ count ≤ Register.generalCount) ∧ p = fresh count.toNat reserved := by
  unfold ofCount
  split <;> simp [*, eq_comm]

theorem allocate_eq_ok {construct : String} {location : Option Location} :
    p.allocate construct location = .ok (r, q) ↔
      p.free? = some r ∧ q = { p with innermost := p.innermost ++ [r], used := r :: p.used } := by
  cases h : p.free? with
  | none => simp [allocate, allocate?, h]
  | some r' =>
    simp only [allocate, allocate?, h, Option.map_some, Except.ok.injEq, Prod.mk.injEq,
      Option.some.injEq]
    constructor <;> (rintro ⟨rfl, rfl⟩; exact ⟨rfl, rfl⟩)

theorem allocate_eq_error {construct : String} {location : Option Location} {e : Failure} :
    p.allocate construct location = .error e ↔ p.free? = none ∧
      e = .diagnostic { cause := .outOfRegisters construct p.size, location } := by
  cases h : p.free? <;> simp [allocate, allocate?, h, eq_comm]

theorem release_eq_ok :
    p.release r = .ok q ↔ r ∈ p.innermost ∧ q = { p with innermost := p.innermost.erase r } := by
  unfold release
  split <;> simp_all [eq_comm]

theorem release_eq_error {e : Failure} :
    p.release r = .error e ↔ r ∉ p.innermost ∧ e = .notAllocated r := by
  unfold release
  split <;> simp_all [eq_comm]

theorem pop_eq_ok :
    p.pop = .ok (rs, q) ↔ ∃ frame outer, p.outer = frame :: outer ∧ rs = p.innermost ∧
      q = { p with innermost := frame, outer } := by
  unfold pop
  split <;> simp_all [eq_comm]

theorem pop_eq_error {e : Failure} : p.pop = .error e ↔ p.outer = [] ∧ e = .outermostFrame := by
  unfold pop
  split <;> simp_all [eq_comm]

theorem mem_live :
    r ∈ p.live ↔ r ∈ p.reserved ∨ r ∈ p.innermost ∨ r ∈ p.outer.flatten := by
  simp [live, frames]

/-- The pool `q` is `p` after the registers `rs`, and no others, have been taken in the
innermost frame. Registers that were taken and given back in between count as used. -/
structure Takes (p : RegisterPool) (rs : List Register) (q : RegisterPool) : Prop where
  size : q.size = p.size
  reserved : q.reserved = p.reserved
  outer : q.outer = p.outer
  innermost : q.innermost = p.innermost ++ rs
  free : ∀ r ∈ rs, r ∉ p.live
  general : ∀ r ∈ rs, r ∈ Register.general p.size
  nodup : rs.Nodup
  taken : ∀ r ∈ rs, r ∈ q.used
  handed : ∃ handed, q.used = handed ++ p.used ∧
    ∀ r ∈ handed, r ∉ p.live ∧ r ∈ Register.general p.size

namespace Takes

variable {p q t : RegisterPool} {rs rs' : List Register}

theorem refl (p : RegisterPool) : Takes p [] p where
  size := rfl
  reserved := rfl
  outer := rfl
  innermost := (List.append_nil _).symm
  free := by simp
  general := by simp
  nodup := List.nodup_nil
  taken := by simp
  handed := ⟨[], rfl, by simp⟩

theorem used (h : Takes p rs q) : ∀ r ∈ p.used, r ∈ q.used := by
  obtain ⟨handed, hused, -⟩ := h.handed
  exact fun r hr => hused ▸ List.mem_append_right _ hr

theorem handedOut (h : Takes p rs q) :
    ∀ r ∈ q.used, r ∈ p.used ∨ r ∉ p.live ∧ r ∈ Register.general p.size := by
  obtain ⟨handed, hused, hfree⟩ := h.handed
  intro r hr
  rw [hused, List.mem_append] at hr
  exact hr.symm.imp_right (hfree r)

theorem frames (h : Takes p [] q) : q.frames = p.frames := by
  rw [RegisterPool.frames, RegisterPool.frames, h.innermost, h.outer, List.append_nil]

theorem mem_live (h : Takes p rs q) {r : Register} : r ∈ q.live ↔ r ∈ p.live ∨ r ∈ rs := by
  rw [RegisterPool.mem_live, RegisterPool.mem_live, h.reserved, h.innermost, h.outer,
    List.mem_append]
  tauto

theorem trans (h : Takes p rs q) (h' : Takes q rs' t) : Takes p (rs ++ rs') t where
  size := h'.size.trans h.size
  reserved := h'.reserved.trans h.reserved
  outer := h'.outer.trans h.outer
  innermost := by rw [h'.innermost, h.innermost, List.append_assoc]
  free r hr := by
    rcases List.mem_append.1 hr with hr | hr
    · exact h.free r hr
    · exact fun hp => h'.free r hr (h.mem_live.2 (Or.inl hp))
  general r hr := by
    rcases List.mem_append.1 hr with hr | hr
    · exact h.general r hr
    · exact h.size ▸ h'.general r hr
  nodup := by
    refine List.nodup_append'.2 ⟨h.nodup, h'.nodup, ?_⟩
    exact fun r hr hr' => h'.free r hr' (h.mem_live.2 (Or.inr hr))
  taken r hr := by
    rcases List.mem_append.1 hr with hr | hr
    · exact h'.used r (h.taken r hr)
    · exact h'.taken r hr
  handed := by
    obtain ⟨handed, hused, hfree⟩ := h.handed
    obtain ⟨handed', hused', hfree'⟩ := h'.handed
    refine ⟨handed' ++ handed, by rw [hused', hused, List.append_assoc], fun r hr => ?_⟩
    rcases List.mem_append.1 hr with hr | hr
    · obtain ⟨hlive, hgeneral⟩ := hfree' r hr
      exact ⟨fun hp => hlive (h.mem_live.2 (Or.inl hp)), h.size ▸ hgeneral⟩
    · exact hfree r hr

/-- Giving back one of the registers leaves the others taken. -/
theorem release {xs ys : List Register} {r : Register} (h : Takes p (xs ++ r :: ys) q)
    (ht : q.release r = .ok t) : Takes p (xs ++ ys) t := by
  have hr : r ∉ p.innermost := fun hr =>
    h.free r (by simp) (RegisterPool.mem_live.2 (Or.inr (Or.inl hr)))
  have hxs : r ∉ xs := by
    have := List.nodup_append'.1 h.nodup
    exact fun hx => this.2.2 hx (List.mem_cons_self ..)
  have hsub : (xs ++ ys).Sublist (xs ++ r :: ys) :=
    List.Sublist.append (List.Sublist.refl xs) (List.sublist_cons_self r ys)
  obtain ⟨-, rfl⟩ := release_eq_ok.1 ht
  refine ⟨h.size, h.reserved, h.outer, ?_, fun r' hr' => h.free r' (hsub.subset hr'),
    fun r' hr' => h.general r' (hsub.subset hr'), h.nodup.sublist hsub,
    fun r' hr' => h.taken r' (hsub.subset hr'), h.handed⟩
  have hnot : r ∉ p.innermost ++ xs := by simp [hr, hxs]
  rw [h.innermost, ← List.append_assoc, List.erase_append_right _ hnot,
    List.erase_cons_head, List.append_assoc]

end Takes

theorem takes_of_allocate {construct : String} {location : Option Location}
    (h : p.allocate construct location = .ok (r, q)) : Takes p [r] q := by
  obtain ⟨hfree, rfl⟩ := allocate_eq_ok.1 h
  have hgeneral : r ∈ Register.general p.size := List.mem_of_find?_eq_some hfree
  have hlive : r ∉ p.live := by simpa using List.find?_some hfree
  exact ⟨rfl, rfl, rfl, rfl, by simpa using hlive, by simpa using hgeneral, List.nodup_singleton r,
    by simp, [r], rfl, by simp [hlive, hgeneral]⟩

@[simp] theorem mem_live_push : r ∈ p.push.live ↔ r ∈ p.live := by
  simp [live, frames, push]

theorem Takes.live_push (h : Takes p [] q) (hr : r ∈ p.live) : r ∈ q.push.live :=
  RegisterPool.mem_live_push.2 (h.mem_live.2 (Or.inl hr))

theorem used_of_pop (h : p.pop = .ok (rs, q)) : q.used = p.used := by
  obtain ⟨_, _, -, -, rfl⟩ := pop_eq_ok.1 h
  rfl

/-- What is taken in a frame is free again when the frame is closed. -/
theorem Takes.pop {fs : List Register} {t : RegisterPool} (h : Takes p.push rs q)
    (ht : q.pop = .ok (fs, t)) : Takes p [] t := by
  obtain ⟨frame, outer, houter, -, rfl⟩ := pop_eq_ok.1 ht
  obtain ⟨rfl, rfl⟩ := List.cons.inj (houter.symm.trans h.outer)
  obtain ⟨handed, hused, hfree⟩ := h.handed
  refine ⟨h.size, h.reserved, rfl, (List.append_nil _).symm, by simp, by simp,
    List.nodup_nil, by simp, handed, hused, fun r hr => ?_⟩
  have := hfree r hr
  rwa [mem_live_push] at this

/-- No pool hands out the register of the return address. -/
theorem ra_notMem_general (n : Nat) : Register.ra ∉ Register.general n := by
  intro h
  have : Register.ra ∈ Register.all.take Register.generalCount := List.mem_of_mem_take h
  revert this
  decide

end RegisterPool

end Chipwright
