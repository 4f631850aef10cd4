import Chipwright.Proofs.Layout
import Chipwright.Proofs.Simulation.Expression

/-!
# Memories and registers

While a resolved program and the chip run side by side, the registers hold the values of the
variables that are visible. A variable of the top level may be invisible yet have a register,
which something else is in for the time being; such a variable has no value.

What a caller needs of a function, and a statement of the one before, is that they keep the
registers in which nothing that they see has a value, as long as these are live.
-/
namespace Chipwright

variable {V α β : Type}

/-! ## Outcomes -/

/-- From a state on, the chip does what an outcome says: the same events, and a result that fits
the state that it comes to. If the outcome was cut off, the chip goes on for some lines at least;
if it is undefined, the chip may do anything. -/
def Linked.Realizes (w : World V) (p : Linked) (least : Nat) (m : Machine V) (x : Outcome V α)
    (post : α → Machine V → Prop) : Prop :=
  match x with
  | .done a trace => ∃ n m', p.Steps w n m m' ∧ m'.trace = trace ∧ post a m'
  | .cut trace => ∃ n m', least ≤ n ∧ p.Steps w n m m' ∧ m'.trace = trace
  | .undefined => True

namespace Linked.Realizes

variable {w : World V} {p : Linked} {least n : Nat} {m m' : Machine V} {x : Outcome V α}
  {post : α → Machine V → Prop}

theorem done {a : α} {trace : List (Event V)} (h : p.Steps w n m m') (htrace : m'.trace = trace)
    (hpost : post a m') : p.Realizes w least m (.done a trace) post :=
  ⟨n, m', h, htrace, hpost⟩

/-- Lines that come after and do not meet the world. -/
theorem append {post' : α → Machine V → Prop} (h : p.Realizes w least m x post)
    (hpost : ∀ a m', post a m' →
      ∃ n m'', p.Steps w n m' m'' ∧ m''.trace = m'.trace ∧ post' a m'') :
    p.Realizes w least m x post' := by
  cases x with
  | done a trace =>
    obtain ⟨n, m', hsteps, rfl, h⟩ := h
    obtain ⟨k, m'', hsteps', htrace, h'⟩ := hpost a m' h
    exact ⟨n + k, m'', hsteps.trans hsteps', htrace, h'⟩
  | cut trace => exact h
  | undefined => trivial

theorem mono {post' : α → Machine V → Prop} (h : p.Realizes w least m x post)
    (hpost : ∀ a m', post a m' → post' a m') : p.Realizes w least m x post' :=
  h.append fun a m' ha => ⟨0, m', .refl m', rfl, hpost a m' ha⟩

/-- Lines that come before. -/
theorem steps (h : p.Steps w n m m') (hx : p.Realizes w least m' x post) :
    p.Realizes w (n + least) m x post := by
  cases x with
  | done a trace =>
    obtain ⟨k, m'', hsteps, hrest⟩ := hx
    exact ⟨n + k, m'', h.trans hsteps, hrest⟩
  | cut trace =>
    obtain ⟨k, m'', hle, hsteps, htrace⟩ := hx
    exact ⟨n + k, m'', Nat.add_le_add_left hle n, h.trans hsteps, htrace⟩
  | undefined => trivial

theorem of_le {least' : Nat} (h : p.Realizes w least' m x post) (hle : least ≤ least') :
    p.Realizes w least m x post := by
  cases x with
  | done a trace => exact h
  | cut trace =>
    obtain ⟨n, m', hn, hsteps, htrace⟩ := h
    exact ⟨n, m', Nat.le_trans hle hn, hsteps, htrace⟩
  | undefined => trivial

theorem bind {f : α → List (Event V) → Outcome V β} {post' : β → Machine V → Prop}
    (h : p.Realizes w least m x post)
    (hf : ∀ a m', post a m' → p.Realizes w least m' (f a m'.trace) post') :
    p.Realizes w least m (x.bind f) post' := by
  cases x with
  | done a trace =>
    obtain ⟨n, m', hsteps, rfl, hpost⟩ := h
    exact ((hf a m' hpost).steps hsteps).of_le (Nat.le_add_left ..)
  | cut trace => exact h
  | undefined => trivial

theorem ofOption {y : Option β} {f : β → Outcome V α}
    (h : ∀ b, y = some b → p.Realizes w least m (f b) post) :
    p.Realizes w least m (.ofOption y f) post := by
  cases y with
  | none => trivial
  | some b => exact h b rfl

end Linked.Realizes

namespace Lowering.Build

variable {ctx : Context} {p : Resolved.Program} {a : Assembly}

/-! ## Registers of variables -/

/-- Registers hold the values of the visible variables. A variable of the top level that is not
visible has no value. -/
structure Holds (b : Build ctx p a) (μ : Memory V) (visible : List Variable)
    (registers : Register → V) : Prop where
  value : ∀ v ∈ visible, ∀ r, (v, r) ∈ b.table → ∀ x, μ v = some x → registers r = x
  covers : ∀ v ∈ p.globals, μ v ≠ none → v ∈ visible

/-- A register in which no visible variable has a value. -/
def Vacant (b : Build ctx p a) (μ : Memory V) (visible : List Variable) (r : Register) : Prop :=
  ∀ v ∈ visible, (v, r) ∈ b.table → μ v = none

/-- What is not changed, from one memory and registers to others, while certain registers are
live, certain variables visible, and certain functions called. -/
structure Keeps (b : Build ctx p a) (pool : RegisterPool) (visible : List Variable)
    (callees : List String) (μ : Memory V) (registers : Register → V) (μ' : Memory V)
    (registers' : Register → V) : Prop where
  undefined : ∀ v ∈ visible, μ v = none → μ' v = none
  vacant : ∀ r ∈ pool.live, r ≠ .ra → b.Vacant μ visible r → registers' r = registers r
  ra : callees = [] → registers' .ra = registers .ra

/-- What holds after statements that define certain variables. -/
structure After (b : Build ctx p a) (pool : RegisterPool) (visible defines : List Variable)
    (callees : List String) (μ : Memory V) (registers : Register → V) (μ' : Memory V)
    (registers' : Register → V) : Prop
    extends Keeps b pool visible callees μ registers μ' registers' where
  holds : b.Holds μ' (defines ++ visible) registers'

variable {b : Build ctx p a} {μ μ₁ μ₂ : Memory V} {visible defines defines' : List Variable}
  {registers registers₁ registers₂ : Register → V} {pool pool' : RegisterPool}
  {callees callees' : List String}

theorem Holds.of_mem_iff {visible' : List Variable} (h : b.Holds μ visible registers)
    (hmem : ∀ v, v ∈ visible' ↔ v ∈ visible) : b.Holds μ visible' registers :=
  ⟨fun v hv => h.value v ((hmem v).1 hv), fun v hv hμ => (hmem v).2 (h.covers v hv hμ)⟩

namespace After

/-- Statements one after another. What the first ones define is in registers that were free. -/
theorem trans (h : b.After pool visible defines callees μ registers μ₁ registers₁)
    (h' : b.After pool' (defines ++ visible) defines' callees' μ₁ registers₁ μ₂ registers₂)
    (hlive : ∀ r ∈ pool.live, r ∈ pool'.live)
    (hfree : ∀ v ∈ defines, ∀ r, (v, r) ∈ b.table → r ∉ pool.live) :
    b.After pool visible (defines ++ defines') (callees ++ callees') μ registers μ₂ registers₂ where
  undefined v hv hμ := h'.undefined v (List.mem_append_right _ hv) (h.undefined v hv hμ)
  vacant r hr hra hvacant := by
    refine (h'.vacant r (hlive r hr) hra fun v hv hvr => ?_).trans (h.vacant r hr hra hvacant)
    rcases List.mem_append.1 hv with hv | hv
    · exact absurd hr (hfree v hv r hvr)
    · exact h.undefined v hv (hvacant v hv hvr)
  ra hcallees := by
    obtain ⟨hnil, hnil'⟩ := List.append_eq_nil_iff.1 hcallees
    exact (h'.ra hnil').trans (h.ra hnil)
  holds := h'.holds.of_mem_iff fun v => by
    simp only [List.mem_append]
    tauto

theorem of_callees (h : b.After pool visible defines callees' μ registers μ₁ registers₁)
    (hcallees : callees = [] → callees' = []) :
    b.After pool visible defines callees μ registers μ₁ registers₁ where
  undefined := h.undefined
  vacant := h.vacant
  ra hnil := h.ra (hcallees hnil)
  holds := h.holds

/-- The end of a block: what was defined in it is gone. -/
theorem leave (h : b.After pool' visible defines callees μ registers μ₁ registers₁)
    (hlive : ∀ r ∈ pool.live, r ∈ pool'.live) (hlocal : ∀ v ∈ defines, v ∉ p.globals) :
    b.After pool visible [] callees μ registers μ₁ registers₁ where
  undefined := h.undefined
  vacant r hr := h.vacant r (hlive r hr)
  ra := h.ra
  holds := by
    refine ⟨fun v hv => h.holds.value v (List.mem_append_right _ hv), fun v hv hμ => ?_⟩
    exact (List.mem_append.1 (h.holds.covers v hv hμ)).resolve_left fun hd => hlocal v hd hv

/-- No variable gets another value, and live registers stay as they are. -/
theorem refl (hholds : b.Holds μ visible registers) (hhoused : Housed b.table visible pool)
    (hlive : ∀ r ∈ pool.live, registers₁ r = registers r) (hra : registers₁ .ra = registers .ra) :
    b.After pool visible [] callees μ registers μ registers₁ where
  undefined _ _ hμ := hμ
  vacant r hr _ _ := hlive r hr
  ra _ := hra
  holds := ⟨fun v hv r hr x hx =>
    (hlive r (hhoused.live v hv r hr)).trans (hholds.value v hv r hr x hx), hholds.covers⟩

variable {v : Variable} {r : Register} {x : V}

/-- A visible variable that has a value gets another one. -/
theorem assign (hholds : b.Holds μ visible registers) (hhoused : Housed b.table visible pool)
    (hunique : (b.table.map Prod.fst).Nodup) (hv : v ∈ visible) (hr : (v, r) ∈ b.table)
    (hμ : μ v ≠ none) (hvalue : registers₁ r = x)
    (hlive : ∀ r' ∈ pool.live, r' ≠ r → registers₁ r' = registers r')
    (hra : registers₁ .ra = registers .ra) :
    b.After pool visible [] callees μ registers (μ.set v x) registers₁ where
  undefined v' _ hμ' := by
    have hne : v' ≠ v := by
      rintro rfl
      exact hμ hμ'
    rwa [Memory.set_of_ne hne]
  vacant r' hr' _ hvacant := by
    refine hlive r' hr' ?_
    rintro rfl
    exact hμ (hvacant v hv hr)
  ra _ := hra
  holds := by
    refine ⟨fun v' hv' r' hr' y hy => ?_, fun v' hv' hμ' => ?_⟩
    · by_cases heq : v' = v
      · subst heq
        obtain rfl := eq_of_mem_of_mem hunique hr hr'
        rw [Memory.set_self, Option.some.injEq] at hy
        exact hvalue.trans hy
      · rw [Memory.set_of_ne heq] at hy
        have hne : r' ≠ r := by
          rintro rfl
          exact heq (hhoused.distinct v' hv' v hv r' hr' hr)
        exact (hlive r' (hhoused.live v' hv' r' hr') hne).trans (hholds.value v' hv' r' hr' y hy)
    · by_cases heq : v' = v
      · exact heq ▸ hv
      · rw [Memory.set_of_ne heq] at hμ'
        exact hholds.covers v' hv' hμ'

/-- A variable is defined in a register that was free. -/
theorem define (hholds : b.Holds μ visible registers) (hhoused : Housed b.table visible pool)
    (hunique : (b.table.map Prod.fst).Nodup) (hr : (v, r) ∈ b.table) (hfree : r ∉ pool.live)
    (hvalue : registers₁ r = x) (hlive : ∀ r' ∈ pool.live, registers₁ r' = registers r')
    (hra : registers₁ .ra = registers .ra) :
    b.After pool visible [v] callees μ registers (μ.set v x) registers₁ := by
  have hne : ∀ v' ∈ visible, v' ≠ v := by
    rintro v' hv' rfl
    exact hfree (hhoused.live v' hv' r hr)
  refine ⟨⟨fun v' hv' hμ' => ?_, fun r' hr' _ _ => hlive r' hr', fun _ => hra⟩,
    fun v' hv' r' hr' y hy => ?_, fun v' hv' hμ' => ?_⟩
  · rwa [Memory.set_of_ne (hne v' hv')]
  · rcases List.mem_cons.1 hv' with rfl | hv'
    · obtain rfl := eq_of_mem_of_mem hunique hr hr'
      rw [Memory.set_self, Option.some.injEq] at hy
      exact hvalue.trans hy
    · rw [Memory.set_of_ne (hne v' hv')] at hy
      exact (hlive r' (hhoused.live v' hv' r' hr')).trans (hholds.value v' hv' r' hr' y hy)
  · by_cases heq : v' = v
    · exact List.mem_cons.2 (Or.inl heq)
    · rw [Memory.set_of_ne heq] at hμ'
      exact List.mem_cons_of_mem _ (hholds.covers v' hv' hμ')

end After

/-! ## Code that is executed next -/

/-- A state on the way of lowering the program. -/
structure Reached (b : Build ctx p a) (s : State) : Prop where
  noted : ∀ e ∈ s.liveAtCalls, e ∈ b.calls
  general : .ra ∉ s.pool.used

namespace Reached

variable {s s₁ : State}

theorem before {binds : List Variable} (h : b.Reached s₁)
    (heffect : Effect s defines binds callees s₁) : b.Reached s :=
  ⟨fun e he => h.noted e (heffect.mem_calls he), fun hra => h.general (heffect.mem_used hra)⟩

/-- The state at the end of a block, before it is closed. -/
theorem of_pop {rs : List Register} (h : b.Reached { s with pool })
    (hpop : s.pool.pop = .ok (rs, pool)) : b.Reached s :=
  ⟨h.noted, fun hra => h.general (RegisterPool.used_of_pop hpop ▸ hra)⟩

end Reached

/-- The chip is at code that was lowered up to a state, and its registers hold the values of what
is visible there. -/
structure Ready (b : Build ctx p a) (image : Image) (μ : Memory V) (visible : List Variable)
    (code : Code) (s : State) (m : Machine V) : Prop extends b.Reached s where
  placed : image.Placed m.line code
  holds : b.Holds μ visible m.registers

/-- What holds when the chip has executed code from a state on. -/
def Passed (b : Build ctx p a) (pool : RegisterPool) (visible defines : List Variable)
    (callees : List String) (code : Code) (μ : Memory V) (m : Machine V) (μ' : Memory V)
    (m' : Machine V) : Prop :=
  m'.line = m.line + code.size ∧
    b.After pool visible defines callees μ m.registers μ' m'.registers

theorem Passed.leave {code : Code} {m m' : Machine V}
    (h : b.Passed pool' visible defines callees code μ m μ₁ m')
    (hlive : ∀ r ∈ pool.live, r ∈ pool'.live) (hlocal : ∀ v ∈ defines, v ∉ p.globals) :
    b.Passed pool visible [] callees code μ m μ₁ m' :=
  ⟨h.1, h.2.leave hlive hlocal⟩

end Lowering.Build

end Chipwright
