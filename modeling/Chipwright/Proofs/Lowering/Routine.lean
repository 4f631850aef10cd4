import Chipwright.Proofs.Lowering.Visibility

/-!
# Lowered functions

A function is lowered with a pool of its own, from which the registers that it has to keep are
left out. Its parameters take the first registers, then, if it makes calls, the return address;
what the body takes comes on top of these.
-/
namespace Chipwright.Lowering

/-- The entries for the parameters of a function in given registers, from an index on. -/
def parameterEntries (f : String) : Int → List Register → List ((String × Int) × Register)
  | _, [] => []
  | index, r :: rs => ((f, index), r) :: parameterEntries f (index + 1) rs

theorem mem_parameterEntries {f : String} {index : Int} {rs : List Register}
    {e : (String × Int) × Register} :
    e ∈ parameterEntries f index rs ↔ ∃ k : Nat, e.1 = (f, index + k) ∧ rs[k]? = some e.2 := by
  induction rs generalizing index with
  | nil => simp [parameterEntries]
  | cons r rs ih =>
    rw [parameterEntries, List.mem_cons, ih]
    constructor
    · rintro (rfl | ⟨k, hk, hr⟩)
      · exact ⟨0, by simp, rfl⟩
      · refine ⟨k + 1, ?_, by simpa using hr⟩
        rw [hk]
        simp only [Prod.mk.injEq, true_and]
        omega
    · rintro ⟨k, hk, hr⟩
      cases k with
      | zero =>
        obtain ⟨key, r'⟩ := e
        left
        simp_all
      | succ k =>
        refine Or.inr ⟨k, ?_, by simpa using hr⟩
        rw [hk]
        simp only [Prod.mk.injEq, true_and]
        omega

/-- What a function was lowered to. -/
structure Routine where
  function : Resolved.Function
  /-- The registers of the parameters. -/
  registers : List Register
  /-- The register that it returns through. -/
  ret : Register
  /-- The lines before the body. -/
  entry : Code
  body : Code
  /-- The state before the body. -/
  start : State
  /-- The state after the body. -/
  finish : State

namespace Routine

/-- The registers that a routine must not touch, except to assign to global variables. -/
def kept (q : Routine) : List Register := q.start.pool.reserved

def origin (q : Routine) : Origin := ⟨s!"function '{q.function.name}'", q.function.pos⟩

/-- All code of the section. -/
def code (q : Routine) : Code :=
  [.label (.function q.function.name), .note s!"fn {q.function.name}"] ++ q.entry ++ q.body ++
    [q.origin.line .jump [.register q.ret]]

/-- A routine is what lowering a function has given, from the state `s`. -/
structure Made (ctx : Context) (globals : List Register) (makesCalls : Bool) (s : State)
    (q : Routine) : Prop where
  params : ∃ size pool, (RegisterPool.fresh size (globals ++ s.keptFor q.function.name)).Takes
      q.registers pool ∧
    (makesCalls = true ∧ pool.Takes [q.ret] q.start.pool ∧
        q.entry = [q.origin.line .move [.register q.ret, .register .ra]] ∨
      makesCalls = false ∧ q.ret = .ra ∧ q.start.pool = pool ∧ q.entry = [])
  length : q.registers.length = q.function.params.length
  homes : q.start.homes = (q.function.params.zip q.registers).reverse ++ s.homes
  parameters : q.start.parameters =
    s.parameters ++ parameterEntries q.function.name 0 q.registers
  calls : q.start.liveAtCalls = s.liveAtCalls
  body : ctx.stmts q.function.body q.start = .ok q.body q.finish

end Routine

namespace Context

variable {ctx : Context} {s s' : State}

theorem parameters_eq_ok {f : String} {index : Int} {vs : List Variable} {a : Unit}
    (h : ctx.parameters f index vs s = .ok a s') :
    ∃ rs pool, rs.length = vs.length ∧ s.pool.Takes rs pool ∧
      s' = { s with
        pool := pool
        homes := (vs.zip rs).reverse ++ s.homes
        parameters := s.parameters ++ parameterEntries f index rs } := by
  induction vs generalizing index s with
  | nil =>
    obtain ⟨-, rfl⟩ := Lower.pure_eq_ok.1 h
    exact ⟨[], s.pool, rfl, .refl _, by simp [parameterEntries]⟩
  | cons v vs ih =>
    simp only [parameters, Lower.bind_eq_ok, Lower.modify_eq_ok] at h
    obtain ⟨r, s₁, hhome, _, s₂, rfl, h⟩ := h
    obtain ⟨construct, location, pool₁, hallocate, rfl⟩ := home_eq_ok hhome
    obtain ⟨rs, pool, hlength, htakes, rfl⟩ := ih h
    refine ⟨r :: rs, pool, by simp [hlength],
      (RegisterPool.takes_of_allocate hallocate).trans htakes, ?_⟩
    simp [parameterEntries]

theorem returnAddress_eq_ok {origin : Origin} {f : String} {makesCalls : Bool} {r : Register}
    {entry : Code} (h : ctx.returnAddress origin f makesCalls s = .ok (r, entry) s') :
    (makesCalls = true ∧ (∃ pool, s.pool.Takes [r] pool ∧ s' = { s with pool }) ∧
        entry = [origin.line .move [.register r, .register .ra]]) ∨
      makesCalls = false ∧ r = .ra ∧ s' = s ∧ entry = [] := by
  unfold returnAddress at h
  cases makesCalls with
  | true =>
    simp only [if_true, Lower.bind_eq_ok, Lower.pure_eq_ok, Prod.mk.injEq, allocate_eq_ok] at h
    obtain ⟨_, _, ⟨pool, hallocate, rfl⟩, ⟨rfl, rfl⟩, rfl⟩ := h
    exact Or.inl ⟨rfl, ⟨pool, RegisterPool.takes_of_allocate hallocate, rfl⟩, rfl⟩
  | false =>
    simp only [Bool.false_eq_true, if_false, Lower.pure_eq_ok, Prod.mk.injEq] at h
    obtain ⟨⟨rfl, rfl⟩, rfl⟩ := h
    exact Or.inr ⟨rfl, rfl, rfl, rfl⟩

/-- The steps of lowering a function that come before its body. -/
def enter (ctx : Context) (globals : List Register) (makesCalls : Bool)
    (f : Resolved.Function) : Lower (Register × Code) := do
  let kept := globals ++ (← get).keptFor f.name
  Lower.onPool fun _ => do
    let pool ← RegisterPool.ofCount ctx.options.registerCount kept
    return ((), pool)
  ctx.parameters f.name 0 f.params
  ctx.returnAddress ⟨s!"function '{f.name}'", f.pos⟩ f.name makesCalls

variable {globals : List Register} {makesCalls : Bool} {f : Resolved.Function}

theorem function_eq_ok {sect : Section} (h : ctx.function globals makesCalls f s = .ok sect s') :
    ∃ r entry s₁ body s₂ log, ctx.enter globals makesCalls f s = .ok (r, entry) s₁ ∧
      ctx.stmts f.body s₁ = .ok body s₂ ∧
      Code.toSection ctx.file ctx.options.emitComments f.name
        ([.label (.function f.name), .note s!"fn {f.name}"] ++ entry ++ body ++
          [Origin.line ⟨s!"function '{f.name}'", f.pos⟩ .jump [.register r]]) = .ok sect ∧
      s' = { s₂ with used := s₂.pool.used ++ s₂.used, log } := by
  simp only [function, Lower.bind_eq_ok, Lower.get_eq_ok, Lower.ofExcept_eq_ok,
    Lower.modify_eq_ok, Lower.log_eq_ok, Lower.pure_eq_ok] at h
  obtain ⟨_, _, ⟨rfl, rfl⟩, _, s₀, hpool, _, s₁, hparams, ⟨r, entry⟩, s₂, hret, body, s₃, hbody,
    _, _, ⟨hsect, rfl⟩, _, _, rfl, _, _, rfl, rfl, rfl⟩ := h
  refine ⟨r, entry, s₂, body, s₃, _, ?_, hbody, hsect, rfl⟩
  simp only [enter, Lower.bind_eq_ok, Lower.get_eq_ok]
  exact ⟨_, _, ⟨rfl, rfl⟩, (), s₀, hpool, (), s₁, hparams, hret⟩

/-- The state before the body: the parameters and the return address have their registers. -/
theorem enter_eq_ok {r : Register} {entry : Code} {s₁ : State}
    (h : ctx.enter globals makesCalls f s = .ok (r, entry) s₁) :
    ∃ rs pool pool₁, rs.length = f.params.length ∧
      (RegisterPool.fresh ctx.options.registerCount.toNat (globals ++ s.keptFor f.name)).Takes
        rs pool ∧
      (makesCalls = true ∧ pool.Takes [r] pool₁ ∧
          entry = [Origin.line ⟨s!"function '{f.name}'", f.pos⟩ .move
            [.register r, .register .ra]] ∨
        makesCalls = false ∧ r = .ra ∧ pool₁ = pool ∧ entry = []) ∧
      s₁ = { s with
        pool := pool₁
        homes := (f.params.zip rs).reverse ++ s.homes
        parameters := s.parameters ++ parameterEntries f.name 0 rs } := by
  simp only [enter, Lower.bind_eq_ok, Lower.get_eq_ok, Lower.onPool_eq_ok] at h
  obtain ⟨_, _, ⟨rfl, rfl⟩, _, _, ⟨_, hfresh, rfl⟩, _, s₃, hparams, hret⟩ := h
  obtain ⟨pool₀, hpool, heq⟩ := bind_eq_ok.1 hfresh
  cases heq
  obtain ⟨rs, pool, hlength, htakes, rfl⟩ := parameters_eq_ok hparams
  obtain ⟨-, rfl⟩ := RegisterPool.ofCount_eq_ok.1 hpool
  rcases returnAddress_eq_ok hret with ⟨hcalls, ⟨pool₁, htakes', rfl⟩, hentry⟩ | ⟨hcalls, hra, rfl,
    hentry⟩
  · exact ⟨rs, pool, pool₁, hlength, htakes, Or.inl ⟨hcalls, htakes', hentry⟩, rfl⟩
  · exact ⟨rs, pool, pool, hlength, htakes, Or.inr ⟨hcalls, hra, rfl, hentry⟩, rfl⟩

theorem made_of_enter {r : Register} {entry body : Code} {s₁ s₂ : State}
    (h : ctx.enter globals makesCalls f s = .ok (r, entry) s₁)
    (hbody : ctx.stmts f.body s₁ = .ok body s₂) :
    ∃ rs, (⟨f, rs, r, entry, body, s₁, s₂⟩ : Routine).Made ctx globals makesCalls s := by
  obtain ⟨rs, pool, pool₁, hlength, htakes, hret, rfl⟩ := enter_eq_ok h
  exact ⟨rs, ⟨_, pool, htakes, hret⟩, hlength, rfl, rfl, rfl, hbody⟩

/-- Lowering a function gives a routine and the section with its code. -/
theorem routine_of_function {sect : Section}
    (h : ctx.function globals makesCalls f s = .ok sect s') :
    ∃ q : Routine, q.function = f ∧ q.Made ctx globals makesCalls s ∧
      Code.toSection ctx.file ctx.options.emitComments f.name q.code = .ok sect ∧
      ∃ log, s' = { q.finish with used := q.finish.pool.used ++ q.finish.used, log } := by
  obtain ⟨r, entry, s₁, body, s₂, log, henter, hbody, hsect, rfl⟩ := function_eq_ok h
  obtain ⟨rs, hmade⟩ := made_of_enter henter hbody
  exact ⟨_, rfl, hmade, hsect, log, rfl⟩

end Context

/-! ## Registers of a routine -/

namespace Routine.Made

variable {r : Register}

variable {ctx : Context} {globals : List Register} {makesCalls : Bool} {s : State} {q : Routine}

/-- What the body does to the state. -/
theorem effect (h : q.Made ctx globals makesCalls s) :
    Effect q.start (q.function.body.flatMap Resolved.Stmt.defines)
      (Resolved.Stmt.bindsAll q.function.body)
      ((Resolved.Stmt.callsAll none q.function.body).map (·.callee)) q.finish :=
  Context.effect_of_stmts q.function.body h.body

/-- The pool before the body, as the parameters and the return address leave it. -/
theorem takes_start (h : q.Made ctx globals makesCalls s) :
    ∃ size rs, (RegisterPool.fresh size (globals ++ s.keptFor q.function.name)).Takes
      (q.registers ++ rs) q.start.pool ∧ (makesCalls = true → rs = [q.ret]) := by
  obtain ⟨size, pool, htakes, ⟨-, htakes', -⟩ | ⟨hcalls, -, hpool, -⟩⟩ := h.params
  · exact ⟨size, [q.ret], htakes.trans htakes', fun _ => rfl⟩
  · refine ⟨size, [], ?_, fun hcalls' => by simp [hcalls] at hcalls'⟩
    rw [hpool]
    simpa using htakes

theorem kept_eq (h : q.Made ctx globals makesCalls s) :
    q.kept = globals ++ s.keptFor q.function.name := by
  obtain ⟨size, rs, htakes, -⟩ := h.takes_start
  exact htakes.reserved

theorem mem_live_of_mem_kept (hr : r ∈ q.kept) : r ∈ q.start.pool.live :=
  RegisterPool.mem_live.2 (Or.inl hr)

/-- What is handed out is not kept, and it is not the register that calls set. -/
theorem handedOut (h : q.Made ctx globals makesCalls s) (hr : r ∈ q.finish.pool.used) :
    r ∉ q.kept ∧ r ≠ .ra := by
  obtain ⟨size, rs, htakes, -⟩ := h.takes_start
  obtain ⟨rs', htakes'⟩ := h.effect.takes
  rcases (htakes.trans htakes').handedOut r hr with hnil | ⟨hlive, hgeneral⟩
  · cases hnil
  · refine ⟨fun hkept => hlive ?_, ?_⟩
    · rw [h.kept_eq] at hkept
      exact RegisterPool.mem_live.2 (Or.inl hkept)
    · rintro rfl
      exact RegisterPool.ra_notMem_general _ hgeneral

theorem registers_nodup (h : q.Made ctx globals makesCalls s) : q.registers.Nodup := by
  obtain ⟨size, rs, htakes, -⟩ := h.takes_start
  exact (List.nodup_append'.1 htakes.nodup).1

/-- A parameter is in a register that is live from the start. -/
theorem registers_live (h : q.Made ctx globals makesCalls s) (hr : r ∈ q.registers) :
    r ∈ q.start.pool.live ∧ r ∈ q.finish.pool.used := by
  obtain ⟨size, rs, htakes, -⟩ := h.takes_start
  have hmem : r ∈ q.registers ++ rs := List.mem_append_left _ hr
  exact ⟨htakes.mem_live.2 (Or.inr hmem), h.effect.mem_used (htakes.taken r hmem)⟩

/-- A routine that makes calls returns through a register of its own. -/
theorem ret_live (h : q.Made ctx globals makesCalls s) (hcalls : makesCalls = true) :
    q.ret ∈ q.start.pool.live ∧ q.ret ∈ q.finish.pool.used ∧ q.ret ∉ q.registers := by
  obtain ⟨size, rs, htakes, hrs⟩ := h.takes_start
  rw [hrs hcalls] at htakes
  have hmem : q.ret ∈ q.registers ++ [q.ret] := by simp
  refine ⟨htakes.mem_live.2 (Or.inr hmem), h.effect.mem_used (htakes.taken _ hmem), fun hr => ?_⟩
  exact (List.nodup_append'.1 htakes.nodup).2.2 hr (by simp)

/-- A routine that makes no calls returns through the register that calls set. -/
theorem ret_eq (h : q.Made ctx globals makesCalls s) (hcalls : makesCalls = false) :
    q.ret = .ra ∧ q.entry = [] := by
  obtain ⟨size, pool, -, ⟨htrue, -⟩ | ⟨-, hret, -, hentry⟩⟩ := h.params
  · simp [hcalls] at htrue
  · exact ⟨hret, hentry⟩

theorem entry_eq (h : q.Made ctx globals makesCalls s) (hcalls : makesCalls = true) :
    q.entry = [q.origin.line .move [.register q.ret, .register .ra]] := by
  obtain ⟨size, pool, -, ⟨-, -, hentry⟩ | ⟨hfalse, -⟩⟩ := h.params
  · exact hentry
  · simp [hcalls] at hfalse

/-- A line of the section saves the return address, belongs to the body, or returns. -/
theorem mem_code (h : q.Made ctx globals makesCalls s) {l : Line} (hl : Piece.line l ∈ q.code) :
    l = ⟨.move, [.register q.ret, .register .ra], q.origin⟩ ∨ Piece.line l ∈ q.body ∨
      l = ⟨.jump, [.register q.ret], q.origin⟩ := by
  simp only [code, List.cons_append, List.nil_append, List.mem_cons, List.mem_append, reduceCtorEq,
    List.not_mem_nil, or_false, false_or] at hl
  rcases hl with (hl | hl) | hl
  · cases hcalls : makesCalls with
    | true =>
      rw [h.entry_eq hcalls] at hl
      cases List.mem_singleton.1 hl
      exact Or.inl rfl
    | false =>
      rw [(h.ret_eq hcalls).2] at hl
      cases hl
  · exact Or.inr (Or.inl hl)
  · cases hl
    exact Or.inr (Or.inr rfl)

/-- The variables of a function are added to the table, its own before those of its body. -/
theorem homes_keys (h : q.Made ctx globals makesCalls s) :
    q.finish.homes.map Prod.fst =
      (q.function.params ++ Resolved.Stmt.bindsAll q.function.body).reverse ++
        s.homes.map Prod.fst := by
  obtain ⟨new, hnew, hbinds, -⟩ := h.effect.homes
  rw [hnew, h.homes]
  simp [hbinds, List.map_fst_zip (Nat.le_of_eq h.length.symm)]

/-- The registers of a function's own variables are handed out to it. -/
theorem mem_used_of_mem_homes (h : q.Made ctx globals makesCalls s) {e : Variable × Register}
    (he : e ∈ q.finish.homes) : e ∈ s.homes ∨ e.2 ∈ q.finish.pool.used := by
  obtain ⟨new, hnew, -, hregs⟩ := h.effect.homes
  rw [hnew, h.homes] at he
  rcases List.mem_append.1 he with he | he
  · exact Or.inr (hregs e he).2
  · rcases List.mem_append.1 he with he | he
    · exact Or.inr (h.registers_live (List.of_mem_zip (List.mem_reverse.1 he)).2).2
    · exact Or.inl he

theorem mem_finish_homes (h : q.Made ctx globals makesCalls s) {e : Variable × Register}
    (he : e ∈ s.homes ∨ e ∈ q.function.params.zip q.registers) : e ∈ q.finish.homes := by
  apply h.effect.mem_homes
  rw [h.homes]
  rcases he with he | he
  · exact List.mem_append_right _ he
  · exact List.mem_append_left _ (List.mem_reverse.2 he)

variable {table : Homes} {outer : List Variable}

/-- A parameter is in the register that it was given. -/
theorem mem_zip_of_mem_table (h : q.Made ctx globals makesCalls s)
    (hunique : (table.map Prod.fst).Nodup) (htable : ∀ e ∈ q.finish.homes, e ∈ table) {v : Variable}
    (hv : v ∈ q.function.params) (hr : (v, r) ∈ table) :
    (v, r) ∈ q.function.params.zip q.registers := by
  rw [← List.map_fst_zip (Nat.le_of_eq h.length.symm)] at hv
  obtain ⟨⟨v, r'⟩, hmem, rfl⟩ := List.mem_map.1 hv
  obtain rfl := eq_of_mem_of_mem hunique hr (htable _ (h.mem_finish_homes (Or.inr hmem)))
  exact hmem

/-- The body was lowered where the parameters and the global variables are housed. -/
theorem lowered (h : q.Made ctx globals makesCalls s) (hscoped : q.function.WellScoped outer)
    (hunique : (table.map Prod.fst).Nodup) (htable : ∀ e ∈ q.finish.homes, e ∈ table)
    (hglobals : ∀ v ∈ outer, ∀ r, (v, r) ∈ table → r ∈ globals)
    (hdistinct : ∀ v ∈ outer, ∀ v' ∈ outer, ∀ r, (v, r) ∈ table → (v', r) ∈ table → v = v') :
    LoweredAll ctx table outer q.function.params q.function.body q.start q.body q.finish := by
  have hparams : ∀ v ∈ q.function.params, ∀ r, (v, r) ∈ table →
      (v, r) ∈ q.function.params.zip q.registers :=
    fun v hv r hr => h.mem_zip_of_mem_table hunique htable hv hr
  have houter : ∀ v ∈ outer, ∀ r, (v, r) ∈ table → r ∈ q.kept := by
    intro v hv r hr
    rw [h.kept_eq]
    exact List.mem_append_left _ (hglobals v hv r hr)
  -- a parameter shares no register with a global variable, which is kept
  have hapart : ∀ v ∈ q.function.params, ∀ v' ∈ outer, ∀ r, (v, r) ∈ table → (v', r) ∉ table :=
    fun v hv v' hv' r hr hr' =>
      (h.handedOut (h.registers_live (List.of_mem_zip (hparams v hv r hr)).2).2).1
        (houter v' hv' r hr')
  refine ⟨⟨hunique, htable, ⟨?_, ?_⟩⟩, h.body, hscoped.visible⟩
  · intro v hv r hr
    rcases List.mem_append.1 hv with hv | hv
    · exact (h.registers_live (List.of_mem_zip (hparams v hv r hr)).2).1
    · exact mem_live_of_mem_kept (houter v hv r hr)
  · intro v hv v' hv' r hr hr'
    rcases List.mem_append.1 hv with hv | hv <;> rcases List.mem_append.1 hv' with hv' | hv'
    · have hnodup : ((q.function.params.zip q.registers).map Prod.snd).Nodup := by
        rw [List.map_snd_zip (Nat.le_of_eq h.length)]
        exact h.registers_nodup
      have heq := List.inj_on_of_nodup_map hnodup (hparams v hv r hr) (hparams v' hv' r hr') rfl
      exact congrArg Prod.fst heq
    · exact absurd hr' (hapart v hv v' hv' r hr)
    · exact absurd hr (hapart v' hv' v hv r hr')
    · exact hdistinct v hv v' hv' r hr hr'

end Routine.Made

end Chipwright.Lowering
