import Chipwright.Proofs.Simulation.State

/-!
# Calls at work

A call computes its arguments, moves them to the registers of the parameters and goes to the
function, which saves the return address if it makes calls itself. From there on the body runs as
any other statements do, with the parameters and the variables of the top level in sight. What the
caller has in live registers is still there when the function has returned: the function keeps
them, unless a variable of the top level is in one, and then the caller sees that variable too.
-/
namespace Chipwright.Lowering.Build

variable {V : Type} {w : World V} {image : Image} {ctx : Context} {p : Resolved.Program}
  {a : Assembly} {b : Build ctx p a} {k back : Nat} {q : Routine} {μ μ' : Memory V}
  {m m' : Machine V} {registers registers' : Register → V} {visible : List Variable}
  {pool pool' : RegisterPool} {as : List V}

/-- The chip is at the first line of the body of a routine that has been called with certain
arguments, from a state in which certain registers were live. -/
structure Entered (a : Assembly) (w : World V) (k : Nat) (q : Routine) (pool : RegisterPool)
    (as : List V) (back : Nat) (m m' : Machine V) : Prop where
  line : m'.line = q.bodyStart a k
  trace : m'.trace = m.trace
  address : m'.registers q.ret = w.ofLine back
  kept : ∀ r ∈ pool.live, r ≠ .ra → m'.registers r = m.registers r
  argument : ∀ (i : Nat) r x, q.registers[i]? = some r → as[i]? = some x → m'.registers r = x

namespace Settled

/-- The register of the return address belongs to the routine alone, or is the one that calls
set. -/
theorem ret_cases (hq : b.Settled k q) :
    makesCalls p q.function.name = true ∧ q.ret ∈ q.start.pool.live ∧ q.ret ∉ q.kept ∧
        q.ret ∉ q.registers ∧ q.ret ≠ .ra ∨
      makesCalls p q.function.name = false ∧ q.ret = .ra := by
  obtain ⟨s, hmade⟩ := hq.made
  cases hcalls : makesCalls p q.function.name with
  | true =>
    obtain ⟨hlive, hused, hparams⟩ := hmade.ret_live hcalls
    obtain ⟨hkept, hra⟩ := hmade.handedOut hused
    exact Or.inl ⟨rfl, hlive, hkept, hparams, hra⟩
  | false => exact Or.inr ⟨rfl, (hmade.ret_eq hcalls).1⟩

theorem registers_handedOut (hq : b.Settled k q) {r : Register} (hr : r ∈ q.registers) :
    r ∉ q.kept ∧ r ≠ .ra ∧ r ≠ q.ret := by
  obtain ⟨s, hmade⟩ := hq.made
  obtain ⟨hkept, hra⟩ := hmade.handedOut (hmade.registers_live hr).2
  refine ⟨hkept, hra, ?_⟩
  rintro rfl
  rcases hq.ret_cases with ⟨-, -, -, hparams, -⟩ | ⟨-, hret⟩
  · exact hparams hr
  · exact hra hret

/-- The lines before the body. -/
theorem run_entry (hlayout : b.Layout image) (hq : b.Settled k q) (hline : m.line = a.start (k + 1))
    (hra : m.registers .ra = w.ofLine back) :
    ∃ n m', image.linked.Steps w n m m' ∧ m'.line = q.bodyStart a k ∧ m'.trace = m.trace ∧
      m'.registers q.ret = w.ofLine back ∧ ∀ r, r ≠ q.ret → m'.registers r = m.registers r := by
  obtain ⟨s, hmade⟩ := hq.made
  have hentry := (hlayout.parts hq).entry
  cases hcalls : makesCalls p q.function.name with
  | true =>
    rw [hmade.entry_eq hcalls, ← hline] at hentry
    refine ⟨1, _, .single (hentry.1.step?_move (x := .home .ra)), ?_, rfl, ?_, fun r hr => ?_⟩
    · rw [Routine.bodyStart, hmade.entry_eq hcalls, ← hline]
      rfl
    · exact (Function.update_self ..).trans hra
    · exact Function.update_of_ne hr ..
  | false =>
    obtain ⟨hret, hnil⟩ := hmade.ret_eq hcalls
    refine ⟨0, m, .refl m, ?_, rfl, hret ▸ hra, fun _ _ => rfl⟩
    rw [Routine.bodyStart, hnil, hline]
    rfl

/-- The lines from the start of a call to the body of the function, at least one. -/
theorem run_call (hlayout : b.Layout image) (hq : b.Settled k q) {c : ExprContext} {note : String}
    {origin : Origin} {args : List Resolved.Expr} {xs : List Value} {code : Code}
    (hlower : c.lowerAll args pool = .ok (xs, code, pool'))
    (hkept : ∀ r ∈ pool'.live, r ∈ q.kept)
    (hplaced : image.Placed m.line (.note note :: code ++
      Context.argumentMoves origin q.function.name 0 xs ++
      [origin.line .jumpAndLink [.label (.function q.function.name)], .finish]))
    (hvars : ∀ e ∈ args, c.Finds μ pool m e.vars)
    (has : Resolved.Expr.evalAll w μ args = some as) :
    ∃ n m', image.linked.Steps w (n + 1) m m' ∧ Entered a w k q pool as
      (m.line + Code.size code +
        Code.size (Context.argumentMoves origin q.function.name 0 xs) + 1) m m' := by
  obtain ⟨s, hmade⟩ := hq.made
  simp only [Image.placed_append, Code.size_append, Code.size_note, ← Nat.add_assoc] at hplaced
  obtain ⟨⟨hcode, hmoves⟩, hjump, -⟩ := hplaced
  obtain ⟨n₁, m₁, hsteps₁, heval, hvalues₁⟩ := ExprContext.run_lowerAll hlower hcode hvars has
  -- the arguments are in live registers, which no parameter is in
  have hapart : ∀ x ∈ xs, ∀ r, x.operand = .register r → r ∉ q.registers := by
    intro x hx r hr hmem
    have hlive := ExprContext.live_of_lowerAll hlower
      (fun e he v hv r hr => (hvars e he v hv r hr).1) x hx r hr
    exact (hq.registers_handedOut hmem).1 (hkept r hlive)
  have hparameters : ∀ (index : Int) r,
      image.parameters.lookup (q.function.name, index) = some r →
      ∃ i : Nat, index = i ∧ q.registers[i]? = some r := by
    intro index r hr
    rw [hlayout.parameters] at hr
    exact (hq.parameter index r).1 hr
  rw [← heval.line] at hmoves hjump
  obtain ⟨n₂, m₂, hsteps₂, hline₂, htrace₂, hchanged, hvalues₂⟩ :=
    Context.run_argumentMoves (w := w) (i := 0) hmoves hparameters hmade.registers_nodup hapart
  have hline₂ : m₂.line = m₁.line +
      Code.size (Context.argumentMoves origin q.function.name 0 xs) := hline₂
  rw [← hline₂] at hjump
  have hstep := hjump.step?_call (w := w) (hlayout.parts hq).address
  rw [← heval.line, ← hline₂]
  have hlink : ({ m₂.set .ra (w.ofLine (m₂.line + 1)) with line := a.start (k + 1) } :
      Machine V).registers .ra = w.ofLine (m₂.line + 1) := by simp
  obtain ⟨n₃, m₃, hsteps₃, hline₃, htrace₃, haddress, hsame⟩ := hq.run_entry hlayout rfl hlink
  -- apart from the return address, the registers are as the moves leave them
  have hregisters : ∀ r, r ≠ .ra → r ≠ q.ret → m₃.registers r = m₂.registers r := by
    intro r hra hret
    exact (hsame r hret).trans (Function.update_of_ne hra ..)
  refine ⟨n₁ + n₂ + n₃, m₃, ?_, hline₃, htrace₃.trans (htrace₂.trans heval.trace), haddress, ?_, ?_⟩
  · have hall := (hsteps₁.trans hsteps₂).trans ((Linked.Steps.single hstep).trans hsteps₃)
    rwa [Nat.add_comm 1, ← Nat.add_assoc] at hall
  · intro r hr hra
    have hlive : r ∈ q.kept :=
      hkept r ((ExprContext.takes_of_lowerAll hlower).mem_live.2 (Or.inl hr))
    have hret : r ≠ q.ret := by
      rintro rfl
      rcases hq.ret_cases with ⟨-, -, hfree, -⟩ | ⟨-, hret⟩
      · exact hfree hlive
      · exact hra hret
    have hmoved : m₂.registers r = m₁.registers r := by
      by_contra hne
      obtain ⟨i, -, hi⟩ := hchanged r hne
      exact (hq.registers_handedOut (List.mem_of_getElem? hi)).1 hlive
    rw [hregisters r hra hret, hmoved, heval.eq_of_live hr]
  · intro i r x hr hx
    rw [← hvalues₁, List.getElem?_map, Option.map_eq_some_iff] at hx
    obtain ⟨y, hy, rfl⟩ := hx
    obtain ⟨r', hr', hvalue⟩ := hvalues₂ i y hy
    rw [Nat.zero_add, hr, Option.some.injEq] at hr'
    subst hr'
    obtain ⟨-, hra, hret⟩ := hq.registers_handedOut (List.mem_of_getElem? hr)
    rw [hregisters r hra hret, hvalue]

/-- When the body begins, the registers hold the values of the parameters and of the variables of
the top level. -/
theorem holds_entering (hp : p.WellScoped) (hq : b.Settled k q)
    (hentered : Entered a w k q pool as back m m') (hholds : b.Holds μ visible m.registers)
    (hhoused : Housed b.table visible pool) :
    b.Holds (μ.entering p.globals q.function.params as) (q.function.params ++ p.globals)
      m'.registers := by
  obtain ⟨s, hmade⟩ := hq.made
  have hscoped := hp.function _ (List.mem_of_getElem? hq.function)
  refine ⟨fun v hv r hr x hx => ?_, fun v hv _ => List.mem_append_right _ hv⟩
  by_cases hglobal : v ∈ p.globals
  · rw [Memory.entering_of_mem hglobal] at hx
    have hvisible := hholds.covers v hglobal (by simp [hx])
    rw [hentered.kept r (hhoused.live v hvisible r hr) (b.ne_ra hr)]
    exact hholds.value v hvisible r hr x hx
  · rw [Memory.entering_of_notMem hglobal] at hx
    have hparam := (List.mem_append.1 hv).resolve_right hglobal
    have hzip := hmade.mem_zip_of_mem_table hq.lowered.unique hq.lowered.homes hparam hr
    obtain ⟨i, hi⟩ := List.mem_iff_getElem?.1 hzip
    obtain ⟨j, hj⟩ := List.mem_iff_getElem?.1 (mem_of_lookup hx)
    rw [List.getElem?_zip_eq_some] at hi hj
    have hlt := (List.getElem?_eq_some_iff.1 hi.1).1
    have hnodup := (List.nodup_append'.1 hscoped.nodup).1
    obtain rfl := (List.getElem?_inj hlt hnodup).1 (hi.1.trans hj.1.symm)
    exact hentered.argument i r x hi.2 hj.2

/-- The body leaves the return address where it is. -/
theorem address_of_after (hq : b.Settled k q) {defines : List Variable}
    (h : b.After q.start.pool (q.function.params ++ p.globals) defines
      ((Resolved.Stmt.callsAll none q.function.body).map (·.callee)) μ registers μ' registers') :
    registers' q.ret = registers q.ret := by
  obtain ⟨s, hmade⟩ := hq.made
  rcases hq.ret_cases with ⟨-, hlive, hkept, hparams, hra⟩ | ⟨hcalls, hret⟩
  · refine h.vacant q.ret hlive hra fun v hv hr => ?_
    rcases List.mem_append.1 hv with hv | hv
    · have hzip := hmade.mem_zip_of_mem_table hq.lowered.unique hq.lowered.homes hv hr
      exact absurd (List.of_mem_zip hzip).2 hparams
    · exact absurd (hq.globals v hv _ hr) hkept
  · rw [hret]
    refine h.ra (List.eq_nil_iff_forall_not_mem.2 fun f hf => ?_)
    have hmem := Resolved.Program.mem_callees (List.mem_of_getElem? hq.function) hf
    simp only [makesCalls, Bool.not_eq_false', List.isEmpty_iff] at hcalls
    rw [hcalls] at hmem
    cases hmem

/-- What holds for the caller when a function has returned. -/
theorem after_returning (hq : b.Settled k q) {defines : List Variable} {callees : List String}
    {f : String} (hentered : Entered a w k q pool as back m m')
    (hholds : b.Holds μ visible m.registers) (hhoused : Housed b.table visible pool)
    (hkept : ∀ r ∈ pool.live, r ∈ q.kept)
    (h : b.After q.start.pool (q.function.params ++ p.globals) defines callees
      (μ.entering p.globals q.function.params as) m'.registers μ' registers') :
    b.After pool visible [] [f] μ m.registers (μ'.returning p.globals μ) registers' := by
  obtain ⟨s, hmade⟩ := hq.made
  -- a live register changes only if a variable of the top level that has a value is in it
  have hsame : ∀ r ∈ pool.live, r ≠ .ra → (∀ v ∈ p.globals, (v, r) ∈ b.table → μ v = none) →
      registers' r = m.registers r := by
    intro r hr hra hglobals
    have hlive := Routine.Made.mem_live_of_mem_kept (hkept r hr)
    refine (h.vacant r hlive hra fun v hv hvr => ?_).trans (hentered.kept r hr hra)
    by_cases hglobal : v ∈ p.globals
    · rw [Memory.entering_of_mem hglobal]
      exact hglobals v hglobal hvr
    · have hparam := (List.mem_append.1 hv).resolve_right hglobal
      have hzip := hmade.mem_zip_of_mem_table hq.lowered.unique hq.lowered.homes hparam hvr
      exact absurd (hkept r hr) (hq.registers_handedOut (List.of_mem_zip hzip).2).1
  have hundefined : ∀ v ∈ p.globals, μ v = none → μ' v = none := fun v hv hμ =>
    h.undefined v (List.mem_append_right _ hv) ((Memory.entering_of_mem hv).trans hμ)
  refine ⟨⟨fun v hv hμ => ?_, fun r hr hra hvacant => ?_, fun hnil => by cases hnil⟩,
    fun v hv r hr x hx => ?_, fun v hv hμ => ?_⟩
  · by_cases hglobal : v ∈ p.globals
    · rw [Memory.returning_of_mem hglobal]
      exact hundefined v hglobal hμ
    · rwa [Memory.returning_of_notMem hglobal]
  · refine hsame r hr hra fun v hv hvr => ?_
    by_contra hμ
    exact hμ (hvacant v (hholds.covers v hv hμ) hvr)
  · by_cases hglobal : v ∈ p.globals
    · rw [Memory.returning_of_mem hglobal] at hx
      exact h.holds.value v (List.mem_append_right _ (List.mem_append_right _ hglobal)) r hr x hx
    · rw [Memory.returning_of_notMem hglobal] at hx
      rw [hsame r (hhoused.live v hv r hr) (b.ne_ra hr) fun v' hv' hr' => ?_]
      · exact hholds.value v hv r hr x hx
      · by_contra hμ
        have heq := hhoused.distinct v' (hholds.covers v' hv' hμ) v hv r hr' hr
        exact hglobal (heq ▸ hv')
  · rw [Memory.returning_of_mem hv] at hμ
    exact hholds.covers v hv fun hnone => hμ (hundefined v hv hnone)

end Settled

end Chipwright.Lowering.Build
