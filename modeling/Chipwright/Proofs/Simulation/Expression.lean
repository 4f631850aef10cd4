import Chipwright.Lowering.Statement
import Chipwright.Proofs.Lowering.Evaluation

/-!
# Lowered expressions in a program

Where the code of an expression stands in a program, the chip executes its lines one after another,
and so computes its value.
-/
namespace Chipwright.Image

open Lowering (Code Line)

variable {V : Type} {w : World V} {image : Image} {m m' : Machine V} {code : Code}

theorem HasLine.step?_of_computes {l : Line} {r : Register} (h : image.HasLine m.line l)
    (hl : l.Computes r) : image.linked.step? w m = l.execute w m := by
  cases hl with
  | binary op r x y origin => rw [h.step?_binary, Line.execute_binary]
  | not r x origin => rw [h.step?_not, Line.execute_not]
  | move r x origin => rw [h.step?_move, Line.execute_move]

/-- Lines that compute are executed where they stand as they are on their own. -/
theorem Placed.steps_of_execute {P : Register → Prop} (hcode : image.Placed m.line code)
    (hcomputes : ∀ piece ∈ code, ∃ l r, piece = .line l ∧ l.Computes r ∧ P r)
    (h : code.execute w m = some m') : image.linked.Steps w code.size m m' := by
  induction code generalizing m with
  | nil =>
    cases h
    exact .refl _
  | cons piece code ih =>
    obtain ⟨l, r, rfl, hl, -⟩ := hcomputes piece (List.mem_cons_self ..)
    obtain ⟨a, ha⟩ := hl.exists_execute (w := w) (m := m)
    rw [Code.execute, ha, Option.bind_some] at h
    refine .step ((hcode.1.step?_of_computes hl).trans ha) (ih hcode.2 ?_ h)
    exact fun piece hpiece => hcomputes piece (List.mem_cons_of_mem _ hpiece)

end Chipwright.Image

namespace Chipwright.Lowering

variable {V : Type} {w : World V} {image : Image} {m m' m'' : Machine V} {μ : Memory V}

namespace ExprContext

variable {c : ExprContext} {target : Option Register} {pool pool' : RegisterPool} {code : Code}

/-- The code of an expression computes its value. -/
theorem run_lower {e : Resolved.Expr} {x : Value} {a : V}
    (h : c.lower e target pool = .ok (x, code, pool')) (hcode : image.Placed m.line code)
    (hvars : c.Finds μ pool m e.vars) (ha : e.eval w μ = some a) :
    ∃ n m', image.linked.Steps w n m m' ∧ Evaluates target pool pool' code m m' ∧
      x.get w m'.registers = a := by
  obtain ⟨m', hm', heval, hx⟩ := execute_lower h hvars ha
  exact ⟨code.size, m', hcode.steps_of_execute (computes_of_lower h) hm', heval, hx⟩

/-- The code of expressions one after another; all their values are there in the end. -/
theorem run_lowerAll {es : List Resolved.Expr} {xs : List Value} {as : List V}
    (h : c.lowerAll es pool = .ok (xs, code, pool')) (hcode : image.Placed m.line code)
    (hvars : ∀ e ∈ es, c.Finds μ pool m e.vars) (has : Resolved.Expr.evalAll w μ es = some as) :
    ∃ n m', image.linked.Steps w n m m' ∧ Evaluates none pool pool' code m m' ∧
      xs.map (·.get w m'.registers) = as := by
  induction es generalizing pool xs code m as with
  | nil =>
    cases h
    exact ⟨0, m, .refl m, .refl .., Option.some.inj has⟩
  | cons e es ih =>
    obtain ⟨y, code₁, pool₁, ys, code₂, hy, hys, rfl, rfl⟩ := lowerAll_cons_eq_ok h
    obtain ⟨a₁, ha₁, has⟩ := Option.bind_eq_some_iff.1 has
    obtain ⟨as₁, has₁, has⟩ := Option.bind_eq_some_iff.1 has
    obtain rfl := Option.some.inj has
    rw [Image.placed_append] at hcode
    have hvars₁ := hvars e (List.mem_cons_self ..)
    have htakes := takes_of_lower hy
    have hlive : ∀ r ∈ pool.live, r ∈ pool₁.live := fun r hr => htakes.mem_live.2 (Or.inl hr)
    obtain ⟨n₁, m₁, hsteps₁, heval₁, rfl⟩ := run_lower hy hcode.1 hvars₁ ha₁
    rw [← heval₁.line] at hcode
    obtain ⟨n₂, m₂, hsteps₂, heval₂, rfl⟩ := ih hys hcode.2
      (fun e' he' => heval₁.finds hlive (hvars e' (List.mem_cons_of_mem _ he'))) has₁
    refine ⟨_, m₂, hsteps₁.trans hsteps₂,
      heval₁.append heval₂ hlive (takes_of_lowerAll hys).used, ?_⟩
    rw [List.map_cons]
    congr 1
    refine Value.get_congr fun r hr => heval₂.eq_of_live (live_of_lower hy ?_ hr)
    exact fun v hv r hr => (hvars₁ v hv r hr).1

/-- The code of an expression whose value goes to a register. -/
theorem run_lowerInto {e : Resolved.Expr} {r : Register} {a : V}
    (h : c.lowerInto e r pool = .ok (code, pool')) (hcode : image.Placed m.line code)
    (hvars : c.Finds μ pool m e.vars) (ha : e.eval w μ = some a) :
    ∃ n m', image.linked.Steps w n m m' ∧ Evaluates (some r) pool pool' code m m' ∧
      m'.registers r = a := by
  obtain ⟨x, code₁, hx, ⟨hoperand, rfl⟩ | ⟨-, rfl⟩⟩ := lowerInto_eq_ok h
  · obtain ⟨n, m', hsteps, heval, rfl⟩ := run_lower hx hcode hvars ha
    exact ⟨n, m', hsteps, heval, (Value.get_of_operand hoperand _).symm⟩
  · rw [Image.placed_append] at hcode
    obtain ⟨n, m', hsteps, heval, rfl⟩ := run_lower hx hcode.1 hvars ha
    have hline := hcode.2.1
    rw [← heval.line] at hline
    exact ⟨_, _, hsteps.trans (.single hline.step?_move), heval.set (Or.inl rfl) fun _ hr => hr,
      Function.update_self ..⟩

end ExprContext

/-- The lines that move arguments, from an index on, to the registers of the parameters. No
argument is in one of these registers, so that none is lost on the way. -/
theorem Context.run_argumentMoves {origin : Origin} {f : String} {rs : List Register} {i : Nat}
    {xs : List Value} (hcode : image.Placed m.line (argumentMoves origin f i xs))
    (hparameters : ∀ (index : Int) r, image.parameters.lookup (f, index) = some r →
      ∃ k : Nat, index = k ∧ rs[k]? = some r)
    (hnodup : rs.Nodup) (hxs : ∀ x ∈ xs, ∀ r, x.operand = .register r → r ∉ rs) :
    ∃ n m', image.linked.Steps w n m m' ∧
      m'.line = m.line + Code.size (argumentMoves origin f i xs) ∧ m'.trace = m.trace ∧
      (∀ r, m'.registers r ≠ m.registers r → ∃ k, i ≤ k ∧ rs[k]? = some r) ∧
      ∀ (k : Nat) x, xs[k]? = some x →
        ∃ r, rs[i + k]? = some r ∧ m'.registers r = x.get w m.registers := by
  induction xs generalizing i m with
  | nil => exact ⟨0, m, .refl m, rfl, rfl, fun _ h => absurd rfl h, by simp⟩
  | cons x xs ih =>
    obtain ⟨r, hr, hstep⟩ := hcode.1.step?_argument (w := w)
    obtain ⟨k, hk, hr⟩ := hparameters _ r hr
    obtain rfl : i = k := by omega
    have hrest : image.Placed (m.set r (x.get w m.registers)).line
        (argumentMoves origin f ((i + 1 : Nat) : Int) xs) := hcode.2
    obtain ⟨n, m', hsteps, hline, htrace, hchanged, hvalues⟩ :=
      ih hrest fun x' hx' => hxs x' (List.mem_cons_of_mem _ hx')
    have hmem : r ∈ rs := List.mem_of_getElem? hr
    -- the register that has just been set is not set again
    have hkept : m'.registers r = x.get w m.registers := by
      by_contra hne
      obtain ⟨k, hle, hk⟩ := hchanged r (by simpa using hne)
      have hlt := (List.getElem?_eq_some_iff.1 hr).1
      have := (List.getElem?_inj hlt hnodup).1 (hr.trans hk.symm)
      omega
    refine ⟨_, m', .step hstep hsteps, ?_, htrace, fun r' hr' => ?_, fun k x' hx' => ?_⟩
    · rw [hline, Machine.set_line, Nat.add_assoc, Nat.add_comm 1]
      rfl
    · by_cases heq : r' = r
      · exact ⟨i, Nat.le_refl i, heq ▸ hr⟩
      · obtain ⟨k, hle, hk⟩ := hchanged r' (by
          rwa [Machine.set_registers, Function.update_of_ne heq])
        exact ⟨k, Nat.le_of_succ_le hle, hk⟩
    · cases k with
      | zero =>
        cases hx'
        exact ⟨r, hr, hkept⟩
      | succ k =>
        have hx' : xs[k]? = some x' := hx'
        obtain ⟨r', hr', hvalue⟩ := hvalues k x' hx'
        refine ⟨r', by rwa [Nat.add_assoc, Nat.add_comm 1] at hr', hvalue.trans ?_⟩
        refine Value.get_congr fun r'' hr'' => Function.update_of_ne ?_ _ _
        rintro rfl
        exact hxs x' (List.mem_cons_of_mem _ (List.mem_of_getElem? hx')) r'' hr'' hmem

end Chipwright.Lowering
