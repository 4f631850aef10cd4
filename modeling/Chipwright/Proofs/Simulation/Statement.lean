import Chipwright.Proofs.Simulation.Call

/-!
# Lowered statements at work

The chip does with the code of statements what the statements say. A statement is cut off when it
would have to go round a loop or enter a function once more than the bound allows; by then the
chip has executed a line for each time it did so before.
-/
namespace Chipwright.Lowering.Build

variable {V : Type} {w : World V} {image : Image} {ctx : Context} {p : Resolved.Program}
  {a : Assembly} {b : Build ctx p a} {μ : Memory V} {m : Machine V} {least : Nat}
  {again : List Resolved.Stmt → Resolved.Execution V} {outer own : List Variable}
  {s₀ s₁ : State} {code : Code} {pos : Position} {e : Resolved.Expr}
  {body thenBody elseBody : List Resolved.Stmt}

/-- Where the code of a statement stands, the chip does what executing the statement comes to. -/
def Realizes (b : Build ctx p a) (image : Image) (w : World V) (least : Nat)
    (again : List Resolved.Stmt → Resolved.Execution V) (st : Resolved.Stmt) : Prop :=
  ∀ {outer own : List Variable} {s₀ s₁ : State} {code : Code} {μ : Memory V} {m : Machine V},
    Lowered ctx b.table outer own st s₀ code s₁ →
    (∀ v ∈ st.binds, v ∈ p.globals → v ∈ st.defines) → b.Ready image μ (own ++ outer) code s₁ m →
    image.linked.Realizes w (least + 1) m (st.exec w p again μ m.trace)
      (b.Passed s₀.pool (own ++ outer) st.defines ((st.calls none).map (·.callee)) code μ m)

/-- Where the code of statements stands, the chip does what `execute` comes to. -/
def RealizesAll (b : Build ctx p a) (image : Image) (w : World V) (least : Nat)
    (execute : Resolved.Execution V) (sts : List Resolved.Stmt) : Prop :=
  ∀ {outer own : List Variable} {s₀ s₁ : State} {code : Code} {μ : Memory V} {m : Machine V},
    LoweredAll ctx b.table outer own sts s₀ code s₁ →
    (∀ st ∈ sts, ∀ v ∈ st.binds, v ∈ p.globals → v ∈ st.defines) →
    b.Ready image μ (own ++ outer) code s₁ m →
    image.linked.Realizes w least m (execute μ m.trace)
      (b.Passed s₀.pool (own ++ outer) (sts.flatMap Resolved.Stmt.defines)
        ((Resolved.Stmt.callsAll none sts).map (·.callee)) code μ m)

/-- Where the code of statements stands, the chip does what executing them comes to. -/
abbrev RealizesBlock (b : Build ctx p a) (image : Image) (w : World V) (least : Nat)
    (again : List Resolved.Stmt → Resolved.Execution V) (sts : List Resolved.Stmt) : Prop :=
  b.RealizesAll image w (least + 1) (Resolved.Stmt.execAll w p again sts) sts

/-- The chip does with the code of any statements what `again` comes to. -/
def Sound (b : Build ctx p a) (image : Image) (w : World V) (least : Nat)
    (again : List Resolved.Stmt → Resolved.Execution V) : Prop :=
  ∀ sts, b.RealizesAll image w least (again sts) sts

/-- The variables of an expression are found where they are visible. -/
theorem Ready.finds (hready : b.Ready image μ (own ++ outer) code s₁ m)
    (h : Setting b.table outer own s₀ s₁) {c : ExprContext} {pool : RegisterPool}
    {vars : List Variable} (hhomes : ∀ e ∈ c.homes, e ∈ s₁.homes)
    (hpool : ∀ r ∈ s₀.pool.live, r ∈ pool.live) (hvars : ∀ v ∈ vars, v ∈ own ++ outer) :
    c.Finds μ pool m vars := by
  intro v hv r hr
  have htable := h.homes _ (hhomes _ (mem_of_lookup hr))
  exact ⟨hpool r (h.housed.live v (hvars v hv) r htable),
    hready.holds.value v (hvars v hv) r htable⟩

/-- A call. Its first line makes the run one line longer than that of the body. -/
theorem realizes_call (hp : p.WellScoped) (hlayout : b.Layout image)
    (hagain : b.Sound image w least again) {f : FunctionHead} {args : List Resolved.Expr} :
    b.Realizes image w least again (.call pos f args) := by
  intro outer own s₀ s₁ code μ m h _ hready
  cases Context.lowers_of_stmt h.lowered with
  | call _ pool₁ hlower hrelease =>
    rw [Resolved.Stmt.exec]
    refine .ofOption fun g hg => .ofOption fun as has => ?_
    split
    case isFalse => trivial
    obtain ⟨hmem, hname⟩ := Resolved.Program.mem_of_function? hg
    obtain ⟨k, q, hq, rfl⟩ := b.exists_routine hp hmem
    have hname : q.function.name = f.name := hname
    have hnoted : (q.function.name, pool₁.live) ∈ b.calls := by
      rw [hname]
      exact hready.noted _ (List.mem_append_right _ (List.mem_singleton.2 rfl))
    have hkept := hq.kept _ hnoted
    have hlive : ∀ r ∈ s₀.pool.live, r ∈ pool₁.live := fun r hr =>
      (ExprContext.takes_of_lowerAll hlower).mem_live.2 (Or.inl hr)
    have hplaced := hready.placed
    rw [← hname] at hplaced
    obtain ⟨n, m', hsteps, hentered⟩ := hq.run_call hlayout hlower hkept hplaced
      (fun e he => hready.finds h.toSetting (fun e he => he) (fun r hr => hr) (h.visible e he)) has
    obtain ⟨s, hmade⟩ := hq.made
    have hbody := hagain _ (μ := μ.entering p.globals q.function.params as) (m := m') hq.lowered
      (fun st hst v hv hglobal => absurd hglobal (hp.notMem_globals hmem
        (List.mem_append_right _ (Resolved.Stmt.mem_bindsAll.2 ⟨st, hst, hv⟩))))
      ⟨⟨hq.calls, fun hra => (hmade.handedOut hra).2 rfl⟩, hentered.line ▸ (hlayout.parts hq).body,
        hq.holds_entering hp hentered hready.holds h.housed⟩
    rw [hentered.trace] at hbody
    refine ((hbody.bind fun μ' m'' hpassed => ?_).steps hsteps).of_le (by omega)
    obtain ⟨hline, hafter⟩ := hpassed
    have hret := (hlayout.parts hq).ret
    rw [← hentered.line, ← hline] at hret
    have hreturn := hret.step?_return (w := w)
      ((hq.address_of_after hafter).trans hentered.address)
    refine .done (.single hreturn) rfl ⟨?_, ?_⟩
    · rw [hname]
      simp [Origin.line, ← Nat.add_assoc]
    · exact hq.after_returning hentered hready.holds h.housed (fun r hr => hkept r (hlive r hr))
        hafter

/-- The lines that compute a condition and branch on it. They leave all variables as they are. -/
theorem run_condition {c : ExprContext} {x : Value} {code₁ : Code}
    {pool₁ : RegisterPool} {label : Label} {origin : Origin} {n : Nat} {y : V}
    (h : Setting b.table outer own s₀ s₁) (hholds : b.Holds μ (own ++ outer) m.registers)
    (hlower : c.lower e none s₀.pool = .ok (x, code₁, pool₁)) (hgeneral : .ra ∉ pool₁.used)
    (hcode : image.Placed m.line code₁)
    (hbranch : image.HasLine (m.line + code₁.size)
      ⟨.branchZero, [x.operand, .label label], origin⟩)
    (hlabel : image.addresses.lookup label = some n) (hvars : c.Finds μ s₀.pool m e.vars)
    (hy : e.eval w μ = some y) :
    ∃ k m', image.linked.Steps w k m m' ∧
      m'.line = (if w.isZero y then n else m.line + code₁.size + 1) ∧ m'.trace = m.trace ∧
      b.After s₀.pool (own ++ outer) [] [] μ m.registers μ m'.registers := by
  obtain ⟨k, m₁, hsteps, heval, rfl⟩ := ExprContext.run_lower hlower hcode hvars hy
  rw [← heval.line] at hbranch ⊢
  exact ⟨_, _, hsteps.trans (.single (hbranch.step?_branch hlabel)), rfl, heval.trace,
    .refl hholds h.housed (fun r hr => heval.eq_of_live hr) (heval.eq_ra (by simp) hgeneral)⟩

/-- A block that the chip comes to by lines that leave all variables as they are. -/
theorem realizes_inner {k : Nat} {m₁ : Machine V} {x : Outcome V (Memory V)}
    {pool pool' : RegisterPool} {visible defines : List Variable} {callees : List String}
    (hsteps : image.linked.Steps w k m m₁)
    (hafter : b.After pool visible [] [] μ m.registers μ m₁.registers)
    (hlive : ∀ r ∈ pool.live, r ∈ pool'.live) (hlocal : ∀ v ∈ defines, v ∉ p.globals)
    (h : image.linked.Realizes w least m₁ x (b.Passed pool' visible defines callees code μ m₁)) :
    image.linked.Realizes w least m x fun μ' m' =>
      m'.line = m₁.line + code.size ∧
        b.After pool visible [] callees μ m.registers μ' m'.registers := by
  refine ((h.mono fun μ' m' hpassed => ?_).steps hsteps).of_le (Nat.le_add_left ..)
  exact ⟨hpassed.1, hafter.trans (hpassed.2.leave hlive hlocal) (fun r hr => hr) (by simp)⟩

/-- What a block defines is not global, since only what stands outside all blocks is. -/
theorem notMem_globals_of_inner
    (h : ∀ v ∈ Resolved.Stmt.bindsAll body, v ∈ p.globals → v ∈ []) :
    (∀ st ∈ body, ∀ v ∈ st.binds, v ∈ p.globals → v ∈ st.defines) ∧
      ∀ v ∈ body.flatMap Resolved.Stmt.defines, v ∉ p.globals := by
  have hlocal : ∀ st ∈ body, ∀ v ∈ st.binds, v ∉ p.globals := fun st hst v hv hglobal =>
    List.not_mem_nil (h v (Resolved.Stmt.mem_bindsAll.2 ⟨st, hst, hv⟩) hglobal)
  refine ⟨fun st hst v hv hglobal => absurd hglobal (hlocal st hst v hv), fun v hv => ?_⟩
  obtain ⟨st, hst, hdefines⟩ := List.mem_flatMap.1 hv
  exact hlocal st hst v (Resolved.Stmt.mem_binds_of_mem_defines hdefines)

theorem loweredAll_singleton {st : Resolved.Stmt}
    (h : Lowered ctx b.table outer own st s₀ code s₁) :
    LoweredAll ctx b.table outer own [st] s₀ code s₁ := by
  refine ⟨h.toSetting, ?_, h.visible, trivial⟩
  simp only [Context.stmts, Lower.bind_eq_ok, Lower.pure_eq_ok]
  exact ⟨code, s₁, h.lowered, [], s₁, ⟨rfl, rfl⟩, List.append_nil code, rfl⟩

theorem realizes_define {v : Variable} : b.Realizes image w least again (.define pos v e) := by
  intro outer own s₀ s₁ code μ m h hglobal hready
  cases Context.lowers_of_stmt h.lowered with
  | define r hallocate hlower =>
    have htakes := RegisterPool.takes_of_allocate hallocate
    have hr : (v, r) ∈ b.table := h.homes _ (List.mem_cons_self ..)
    have hfree : r ∉ s₀.pool.live := htakes.free r (by simp)
    rw [Resolved.Stmt.exec]
    refine .ofOption fun x hx => ?_
    obtain ⟨n, m', hsteps, heval, hvalue⟩ := ExprContext.run_lowerInto hlower
      (Image.placed_append.1 hready.placed).1
      (hready.finds h.toSetting (fun e he => he) (fun r hr => htakes.mem_live.2 (Or.inl hr))
        h.visible) hx
    have hlive : ∀ r' ∈ s₀.pool.live, m'.registers r' = m.registers r' := by
      intro r' hr'
      by_contra hne
      rcases heval.changed r' hne with htarget | ⟨hfree', -⟩
      · cases htarget
        exact hfree hr'
      · exact hfree' (htakes.mem_live.2 (Or.inl hr'))
    have hra := heval.eq_ra (fun heq => b.ne_ra hr (Option.some.inj heq)) hready.general
    exact .done hsteps heval.trace ⟨by simp [heval.line],
      .define hready.holds h.housed h.unique hr hfree hvalue hlive hra⟩

theorem realizes_assign {v : Variable} : b.Realizes image w least again (.assign pos v e) := by
  intro outer own s₀ s₁ code μ m h hglobal hready
  cases Context.lowers_of_stmt h.lowered with
  | assign r hhome hlower =>
    have hr : (v, r) ∈ b.table := h.homes _ (mem_of_lookup hhome)
    rw [Resolved.Stmt.exec]
    refine .ofOption fun x hx => .ofOption fun y hy => ?_
    obtain ⟨n, m', hsteps, heval, hvalue⟩ := ExprContext.run_lowerInto hlower
      (Image.placed_append.1 hready.placed).1
      (hready.finds h.toSetting (fun e he => he) (fun r hr => hr) h.visible.1) hx
    have hlive : ∀ r' ∈ s₀.pool.live, r' ≠ r → m'.registers r' = m.registers r' := by
      intro r' hr' hne
      by_contra hchanged
      rcases heval.changed r' hchanged with htarget | ⟨hfree, -⟩
      · exact hne (Option.some.inj htarget).symm
      · exact hfree hr'
    have hra := heval.eq_ra (fun heq => b.ne_ra hr (Option.some.inj heq)) hready.general
    exact .done hsteps heval.trace ⟨by simp [heval.line],
      .assign hready.holds h.housed h.unique h.visible.2 hr (by simp [hy]) hvalue hlive hra⟩

theorem realizes_block (hbody : b.RealizesBlock image w least again body) :
    b.Realizes image w least again (.block body) := by
  intro outer own s₀ s₁ code μ m h hglobal hready
  obtain ⟨code₁, s, rs, pool, hlowered, hpop, rfl, rfl⟩ := h.block
  obtain ⟨hinner, hlocal⟩ := notMem_globals_of_inner hglobal
  have hready₁ : b.Ready image μ (own ++ outer) code₁ s m :=
    ⟨hready.toReached.of_pop hpop, (Image.placed_append.1 hready.placed).1, hready.holds⟩
  rw [Resolved.Stmt.exec]
  refine (hbody hlowered hinner hready₁).mono fun μ' m' hpassed => ?_
  obtain ⟨hline, hafter⟩ := hpassed.leave (fun r hr => RegisterPool.mem_live_push.2 hr) hlocal
  exact ⟨by simp [hline], hafter⟩

/-- A round of a loop, and the jump back to it. -/
theorem realizes_loop
    (hagain : b.Sound image w least again)
    (hbody : b.RealizesBlock image w least again body) :
    b.Realizes image w least again (.loop pos body) := by
  intro outer own s₀ s₁ code μ m h hglobal hready
  have hloop := loweredAll_singleton h
  obtain ⟨memory, log, start, origin, code₁, s, rs, pool, hlowered, hpop, rfl, rfl⟩ := h.loop
  obtain ⟨hinner, hlocal⟩ := notMem_globals_of_inner hglobal
  have hplaced := hready.placed
  simp only [Image.placed_append, Origin.line, Code.size_append, Code.size_label, Code.size_note,
    Code.size_nil, Nat.add_zero, Nat.zero_add] at hplaced
  obtain ⟨⟨⟨hstart, -⟩, hcode⟩, hjump, -⟩ := hplaced
  rw [Resolved.Stmt.exec]
  refine (hbody hlowered hinner
    ⟨hready.toReached.of_pop hpop, hcode, hready.holds⟩).bind fun μ₁ m₁ hpassed => ?_
  obtain ⟨hline, hafter⟩ := hpassed.leave (fun r hr => RegisterPool.mem_live_push.2 hr) hlocal
  rw [← hline] at hjump
  have hround := hagain _ (μ := μ₁) (m := { m₁ with line := m.line }) hloop
    (fun st hst => by rwa [List.mem_singleton.1 hst])
    ⟨hready.toReached, hready.placed, hafter.holds⟩
  refine ((hround.mono fun μ₂ m₂ ⟨hline', hafter'⟩ => ⟨hline', ?_⟩).steps
    (.single (hjump.step?_jump hstart))).of_le (by omega)
  refine (hafter.trans hafter' (fun r hr => hr) (by simp)).of_callees fun hnil => ?_
  simpa [Resolved.Stmt.calls, Resolved.Stmt.callsAll] using hnil

theorem realizes_ifThen (hbody : b.RealizesBlock image w least again body) :
    b.Realizes image w least again (.ifThen pos e body) := by
  intro outer own s₀ s₁ code μ m h hglobal hready
  obtain ⟨finish, origin, x, code₁, pool₁, pool₂, code₂, s, rs, pool₃, hlower, htakes, hused,
    hlowered, hpop, rfl, rfl⟩ := h.ifThen
  obtain ⟨hinner, hlocal⟩ := notMem_globals_of_inner hglobal
  have heffect := Context.effect_of_stmts body hlowered.lowered
  have hreached := hready.toReached.of_pop hpop
  have hplaced := hready.placed
  simp only [Image.placed_append, Origin.line, Code.size_append, Code.size_note, Code.size_line,
    Code.size_nil, Nat.zero_add] at hplaced
  obtain ⟨⟨⟨hcode, hbranch, -⟩, hplaced₂⟩, hfinish, -⟩ := hplaced
  rw [Resolved.Stmt.exec]
  refine .ofOption fun y hy => ?_
  obtain ⟨k, m₁, hsteps, hline, htrace, hafter⟩ := run_condition h.toSetting hready.holds hlower
    (fun hra => (hreached.before heffect).general (hused _ hra)) hcode hbranch hfinish
    (hready.finds h.toSetting (fun e he => heffect.mem_homes he) (fun r hr => hr) h.visible.1) hy
  split at hline
  case isTrue hzero =>
    rw [if_pos hzero]
    refine .done hsteps htrace ⟨?_, hafter.of_callees fun _ => rfl⟩
    simp only [hline, Origin.line, Code.size_append, Code.size_note, Code.size_line,
      Code.size_label, Code.size_finish, Code.size_nil]
    omega
  case isFalse hzero =>
    rw [if_neg hzero, ← htrace]
    refine (realizes_inner hsteps hafter (fun r hr => htakes.live_push hr) hlocal
      (hbody hlowered hinner
        ⟨hreached, hline ▸ hplaced₂, hafter.holds⟩)).mono fun μ' m' ⟨hline', hafter'⟩ => ?_
    refine ⟨?_, hafter'⟩
    simp only [hline', hline, Origin.line, Code.size_append, Code.size_note, Code.size_line,
      Code.size_label, Code.size_finish, Code.size_nil]
    omega

theorem realizes_ifElse
    (hthen : b.RealizesBlock image w least again thenBody)
    (helse : b.RealizesBlock image w least again elseBody) :
    b.Realizes image w least again (.ifElse pos e thenBody elseBody) := by
  intro outer own s₀ s₁ code μ m h hglobal hready
  obtain ⟨middle, finish, origin, origin', x, code₁, pool₁, pool₂, code₂, s, rs, pool₃, code₃, s',
    rs', pool₄, hlower, htakes, hused, hlowered, hpop, htakes', hlowered', hpop', rfl,
    rfl⟩ := h.ifElse
  obtain ⟨hinner, hlocal⟩ := notMem_globals_of_inner fun v hv =>
    hglobal v (List.mem_append_left _ hv)
  obtain ⟨hinner', hlocal'⟩ := notMem_globals_of_inner fun v hv =>
    hglobal v (List.mem_append_right _ hv)
  have heffect := Context.effect_of_stmts thenBody hlowered.lowered
  have heffect' := Context.effect_of_stmts elseBody hlowered'.lowered
  have hreached' := hready.toReached.of_pop hpop'
  obtain ⟨hnoted, hgeneral⟩ := hreached'.before heffect'
  have hreached : b.Reached s :=
    ⟨hnoted, fun hra => hgeneral (RegisterPool.used_of_pop hpop ▸ hra)⟩
  have hplaced := hready.placed
  simp only [Image.placed_append, Origin.line, Code.size_append, Code.size_note, Code.size_line,
    Code.size_label, Code.size_nil, Nat.zero_add] at hplaced
  obtain ⟨⟨⟨⟨⟨hcode, hbranch, -⟩, hplaced₂⟩, hjump, hmiddle, -⟩, hplaced₃⟩, hfinish, -⟩ := hplaced
  rw [Resolved.Stmt.exec]
  refine .ofOption fun y hy => ?_
  obtain ⟨k, m₁, hsteps, hline, htrace, hafter⟩ := run_condition h.toSetting hready.holds hlower
    (fun hra => (hreached.before heffect).general (hused _ hra)) hcode hbranch hmiddle
    (hready.finds h.toSetting (fun e he => heffect'.mem_homes (heffect.mem_homes he))
      (fun r hr => hr) h.visible.1) hy
  rw [Resolved.Stmt.calls, List.map_append]
  split at hline
  case isTrue hzero =>
    rw [if_pos hzero, ← htrace]
    refine (realizes_inner hsteps hafter (fun r hr => htakes'.live_push hr) hlocal'
      (helse hlowered' hinner'
        ⟨hreached', hline ▸ hplaced₃, hafter.holds⟩)).mono fun μ' m' ⟨hline', hafter'⟩ => ?_
    refine ⟨?_, hafter'.of_callees fun hnil => (List.append_eq_nil_iff.1 hnil).2⟩
    simp only [hline', hline, Origin.line, Code.size_append, Code.size_note, Code.size_line,
      Code.size_label, Code.size_finish, Code.size_nil]
    omega
  case isFalse hzero =>
    rw [if_neg hzero, ← htrace]
    refine (realizes_inner hsteps hafter (fun r hr => htakes.live_push hr) hlocal
      (hthen hlowered hinner
        ⟨hreached, hline ▸ hplaced₂, hafter.holds⟩)).append fun μ' m' ⟨hline', hafter'⟩ => ?_
    -- the jump over the code of the other block
    rw [← Nat.add_assoc, ← Nat.add_assoc, ← hline, ← hline'] at hjump
    refine ⟨1, _, .single (hjump.step?_jump hfinish), rfl, ?_,
      hafter'.of_callees fun hnil => (List.append_eq_nil_iff.1 hnil).1⟩
    simp only [Origin.line, Code.size_append, Code.size_note, Code.size_line,
      Code.size_label, Code.size_finish, Code.size_nil]
    omega

theorem realizes_read {device : Resolved.Device} {property : String} {targetPos : Position}
    {v : Variable} :
    b.Realizes image w least again (.read pos device property targetPos v) := by
  intro outer own s₀ s₁ code μ m h hglobal hready
  cases Context.lowers_of_stmt h.lowered with
  | read r hhome =>
    have hr : (v, r) ∈ b.table := h.homes _ (mem_of_lookup hhome)
    rw [Resolved.Stmt.exec]
    refine .ofOption fun y hy => ?_
    have hline : image.HasLine m.line _ := hready.placed.1
    refine .done (.single hline.step?_load) rfl ⟨rfl, ?_⟩
    exact .assign hready.holds h.housed h.unique h.visible hr (by simp [hy])
      (Function.update_self ..) (fun r' _ hne => Function.update_of_ne hne ..)
      (Function.update_of_ne (b.ne_ra hr).symm ..)

theorem realizes_write {device : Resolved.Device} {property : String} :
    b.Realizes image w least again (.write pos e device property) := by
  intro outer own s₀ s₁ code μ m h hglobal hready
  cases Context.lowers_of_stmt h.lowered with
  | write x hlower hrelease =>
    rw [Resolved.Stmt.exec]
    refine .ofOption fun y hy => ?_
    obtain ⟨hcode, hline, -⟩ := Image.placed_append.1 hready.placed
    obtain ⟨n, m', hsteps, heval, rfl⟩ := ExprContext.run_lower hlower hcode
      (hready.finds h.toSetting (fun e he => he) (fun r hr => hr) h.visible) hy
    rw [Code.size_note, ← heval.line] at hline
    have hra := heval.eq_ra (by simp) (Value.used_of_release hrelease ▸ hready.general)
    refine .done (hsteps.trans (.single hline.step?_store)) ?_ ⟨?_, ?_⟩
    · rw [Machine.perform_trace, heval.trace]
    · simp [heval.line, Origin.line, Nat.add_assoc]
    · exact .refl hready.holds h.housed (fun r hr => heval.eq_of_live hr) hra

theorem realizes_yield : b.Realizes image w least again (.yield pos) := by
  intro outer own s₀ s₁ code μ m h hglobal hready
  cases Context.lowers_of_stmt h.lowered with
  | yield =>
    have hline : image.HasLine m.line _ := hready.placed.1
    exact .done (.single hline.step?_yield) rfl
      ⟨rfl, .refl hready.holds h.housed (fun _ _ => rfl) rfl⟩

theorem realizes_nil : b.RealizesBlock image w least again [] := by
  intro outer own s₀ s₁ code μ m h hglobal hready
  obtain ⟨rfl, rfl⟩ := Context.stmts_nil_eq_ok h.lowered
  exact .done (.refl m) rfl ⟨rfl, .refl hready.holds h.housed (fun _ _ => rfl) rfl⟩

/-- A statement and those after it. -/
theorem realizes_cons {st : Resolved.Stmt} {sts : List Resolved.Stmt}
    (hst : b.Realizes image w least again st) (hsts : b.RealizesBlock image w least again sts) :
    b.RealizesBlock image w least again (st :: sts) := by
  intro outer own s₀ s₁ code μ m h hglobal hready
  obtain ⟨code₁, s, code₂, h₁, h₂, rfl⟩ := h.cons
  have heffect := Context.effect_of_stmt st h₁.lowered
  have heffect' := Context.effect_of_stmts sts h₂.lowered
  obtain ⟨hplaced₁, hplaced₂⟩ := Image.placed_append.1 hready.placed
  have hready₁ : b.Ready image μ (own ++ outer) code₁ s m :=
    ⟨hready.toReached.before heffect', hplaced₁, hready.holds⟩
  rw [Resolved.Stmt.execAll]
  refine (hst h₁ (hglobal st (List.mem_cons_self ..)) hready₁).bind fun μ₁ m₁ ⟨hline, hafter⟩ => ?_
  have hready₂ : b.Ready image μ₁ (st.defines ++ own ++ outer) code₂ s₁ m₁ :=
    ⟨hready.toReached, hline ▸ hplaced₂, List.append_assoc .. ▸ hafter.holds⟩
  refine (hsts h₂ (fun st' hst' => hglobal st' (List.mem_cons_of_mem _ hst')) hready₂).mono
    fun μ₂ m₂ ⟨hline', hafter'⟩ => ?_
  rw [List.append_assoc] at hafter'
  refine ⟨by rw [hline', hline, Code.size_append, Nat.add_assoc], ?_⟩
  rw [List.flatMap_cons, Resolved.Stmt.callsAll, List.map_append]
  exact hafter.trans hafter' (fun r hr => heffect.mem_live hr) fun v hv r hr =>
    heffect.free_of_mem_defines h.unique h₁.homes hv hr

mutual

/-- The code of a statement does what the statement says. -/
theorem realizes_stmt (hp : p.WellScoped) (hlayout : b.Layout image)
    (hagain : b.Sound image w least again) :
    ∀ st : Resolved.Stmt, b.Realizes image w least again st
  | .define .. => realizes_define
  | .assign .. => realizes_assign
  | .block body => realizes_block (realizes_stmts hp hlayout hagain body)
  | .call .. => realizes_call hp hlayout hagain
  | .loop _ body => realizes_loop hagain (realizes_stmts hp hlayout hagain body)
  | .ifThen _ _ body => realizes_ifThen (realizes_stmts hp hlayout hagain body)
  | .ifElse _ _ thenBody elseBody => realizes_ifElse (realizes_stmts hp hlayout hagain thenBody)
    (realizes_stmts hp hlayout hagain elseBody)
  | .read .. => realizes_read
  | .write .. => realizes_write
  | .yield _ => realizes_yield

/-- The code of statements does what the statements say. -/
theorem realizes_stmts (hp : p.WellScoped) (hlayout : b.Layout image)
    (hagain : b.Sound image w least again) :
    ∀ sts : List Resolved.Stmt, b.RealizesBlock image w least again sts
  | [] => realizes_nil
  | st :: sts => realizes_cons (realizes_stmt hp hlayout hagain st)
    (realizes_stmts hp hlayout hagain sts)

end

theorem sound_execWithin (hp : p.WellScoped) (hlayout : b.Layout image) (w : World V) :
    ∀ bound, b.Sound image w bound (p.execWithin w bound)
  | 0 => fun _ _ _ _ _ _ _ _ _ _ _ => ⟨0, _, Nat.le_refl 0, .refl _, rfl⟩
  | bound + 1 => realizes_stmts hp hlayout (sound_execWithin hp hlayout w bound)

end Chipwright.Lowering.Build
