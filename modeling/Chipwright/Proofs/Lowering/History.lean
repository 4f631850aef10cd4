import Chipwright.Proofs.Linking
import Chipwright.Proofs.Lowering.Routine
import Chipwright.Proofs.Resolved.CallOrder

/-!
# The history of a program that was lowered

Lowering keeps only what the linker needs. `Resolved.Program.history` lowers a program in the
same way and keeps, for each function, the states before and after it: from these one can see
which registers a function was given and which ones were live at its calls.

Since callers come first, no call of a function is noted after the function itself was lowered;
so what a function keeps covers all its calls.
-/
namespace Chipwright.Lowering

/-- A function with the states between which it was lowered. -/
structure Pass where
  function : Resolved.Function
  before : State
  sect : Section
  after : State

namespace Pass

/-- The registers that were handed out while the function was lowered. -/
def handedOut (x : Pass) : List Register := x.after.pool.used

/-- The calls in the function, with the registers that are live at each. -/
def calls (x : Pass) : List (String × List Register) :=
  x.after.liveAtCalls.drop x.before.liveAtCalls.length

/-- The registers of the parameters of the function. -/
def parameters (x : Pass) : List ((String × Int) × Register) :=
  x.after.parameters.drop x.before.parameters.length

end Pass

structure History where
  /-- The state after the top-level code. -/
  main : State
  /-- The functions, in the order in which they were lowered. -/
  passes : List Pass

/-- Whether a function calls others, or itself. -/
def makesCalls (p : Resolved.Program) (name : String) : Bool :=
  !(p.callGraph.callees (some name)).isEmpty

/-- What holds of a pass when all functions have been lowered. -/
structure Pass.Settled (ctx : Context) (p : Resolved.Program)
    (globals : List Register) (final : State) (x : Pass) : Prop where
  known : p.function? x.function.name = some x.function
  step : ctx.function globals (makesCalls p x.function.name) x.function x.before =
    .ok x.sect x.after
  homes : ∀ e ∈ x.after.homes, e ∈ final.homes
  parameters : ∀ e ∈ x.after.parameters, e ∈ final.parameters
  calls : ∀ e ∈ x.after.liveAtCalls, e ∈ final.liveAtCalls
  /-- The calls of the function had been noted before. -/
  noted : ∀ kept, (x.function.name, kept) ∈ final.liveAtCalls →
    (x.function.name, kept) ∈ x.before.liveAtCalls

namespace Context

/-- Lowers functions in the given order and keeps the states in between. -/
def passes (ctx : Context) (p : Resolved.Program) (globals : List Register) :
    List String → Lower (List Pass)
  | [] => return []
  | name :: names =>
    match p.function? name with
    | none => throw (.unknownFunction name)
    | some f => do
      let before ← get
      let sect ← ctx.function globals (makesCalls p name) f
      let after ← get
      let xs ← ctx.passes p globals names
      return ⟨f, before, sect, after⟩ :: xs

/-- Lowers a program and keeps the states in between. -/
def history (ctx : Context) (p : Resolved.Program) : Lower History := do
  let _ ← ctx.items p.items
  modify fun s => { s with used := s.pool.used ++ s.used }
  let main ← get
  let passes ← ctx.passes p main.globalRegisters p.functionOrder
  return ⟨main, passes⟩

end Context

end Chipwright.Lowering

namespace Chipwright

/-- The states that a program goes through while it is lowered. -/
def Resolved.Program.history (file : String) (options : Options) (p : Resolved.Program) :
    Except Failure Lowering.History :=
  match RegisterPool.ofCount options.registerCount [] with
  | .error e => .error e
  | .ok pool =>
    let ctx : Lowering.Context := ⟨file, options, p⟩
    match (ctx.history p).run { pool } with
    | .ok h _ => .ok h
    | .error e _ => .error e

end Chipwright

namespace Chipwright.Lowering.Context

variable {ctx : Context} {p : Resolved.Program} {globals : List Register} {s s' : State}
  {xs : List Pass} {names : List String}

theorem passes_nil_eq_ok (h : ctx.passes p globals [] s = .ok xs s') : xs = [] ∧ s' = s := by
  obtain ⟨rfl, rfl⟩ := Lower.pure_eq_ok.1 h
  exact ⟨rfl, rfl⟩

theorem passes_cons_eq_ok {name : String}
    (h : ctx.passes p globals (name :: names) s = .ok xs s') :
    ∃ f sect s₁ xs', p.function? name = some f ∧
      ctx.function globals (makesCalls p name) f s = .ok sect s₁ ∧
      ctx.passes p globals names s₁ = .ok xs' s' ∧ xs = ⟨f, s, sect, s₁⟩ :: xs' := by
  rw [passes] at h
  cases hf : p.function? name with
  | none =>
    rw [hf] at h
    cases Lower.throw_eq_ok.1 h
  | some f =>
    rw [hf] at h
    simp only [Lower.bind_eq_ok, Lower.get_eq_ok, Lower.pure_eq_ok] at h
    obtain ⟨_, _, ⟨rfl, rfl⟩, sect, _, hsect, _, _, ⟨rfl, rfl⟩, xs', _, hxs', rfl, rfl⟩ := h
    exact ⟨f, sect, _, xs', rfl, hsect, hxs', rfl⟩

/-- The sections of functions are those of their passes. -/
theorem passes_of_functions {sections : List Section}
    (h : ctx.functions p p.callGraph globals names s = .ok sections s') :
    ∃ xs, ctx.passes p globals names s = .ok xs s' ∧ sections = xs.map Pass.sect := by
  induction names generalizing s sections with
  | nil =>
    obtain ⟨rfl, rfl⟩ := Lower.pure_eq_ok.1 h
    exact ⟨[], rfl, rfl⟩
  | cons name names ih =>
    rw [functions] at h
    cases hf : p.function? name with
    | none =>
      rw [hf] at h
      cases Lower.throw_eq_ok.1 h
    | some f =>
      rw [hf] at h
      simp only [Lower.bind_eq_ok, Lower.pure_eq_ok] at h
      obtain ⟨sect, s₁, hsect, sections', s₂, hrest, rfl, rfl⟩ := h
      obtain ⟨xs, hxs, rfl⟩ := ih hrest
      refine ⟨⟨f, s, sect, s₁⟩ :: xs, ?_, rfl⟩
      rw [passes, hf]
      simp only [Lower.bind_eq_ok, Lower.get_eq_ok, Lower.pure_eq_ok]
      exact ⟨s, s, ⟨rfl, rfl⟩, sect, s₁, hsect, s₁, s₁, ⟨rfl, rfl⟩, xs, s₂, hxs, rfl, rfl⟩

/-! ## What a pass adds -/

/-- What lowering functions adds to the state, if they are those of a list. -/
structure Grows (p : Resolved.Program) (names : List String) (s s' : State) : Prop where
  homes : ∀ e ∈ s.homes, e ∈ s'.homes
  /-- No variable is put into the register that calls set. -/
  registers : (∀ e ∈ s.homes, e.2 ≠ .ra) → ∀ e ∈ s'.homes, e.2 ≠ .ra
  parameters : ∀ e ∈ s.parameters, e ∈ s'.parameters
  calls : ∀ e ∈ s.liveAtCalls, e ∈ s'.liveAtCalls
  callees : ∀ e ∈ s'.liveAtCalls, e ∈ s.liveAtCalls ∨
    ∃ caller ∈ names, e.1 ∈ p.callGraph.callees (some caller)

theorem Grows.trans {names' : List String} {s₁ : State} (h : Grows p names s s₁)
    (h' : Grows p names' s₁ s') : Grows p (names ++ names') s s' where
  homes e he := h'.homes e (h.homes e he)
  registers he := h'.registers (h.registers he)
  parameters e he := h'.parameters e (h.parameters e he)
  calls e he := h'.calls e (h.calls e he)
  callees e he := by
    rcases h'.callees e he with he | ⟨caller, hcaller, hcallee⟩
    · exact (h.callees e he).imp_right fun ⟨caller, hcaller, hcallee⟩ =>
        ⟨caller, List.mem_append_left _ hcaller, hcallee⟩
    · exact Or.inr ⟨caller, List.mem_append_right _ hcaller, hcallee⟩

theorem grows_of_function {f : Resolved.Function} {sect : Section} (hf : f ∈ p.functions)
    (h : ctx.function globals (makesCalls p f.name) f s = .ok sect s') :
    Grows p [f.name] s s' := by
  obtain ⟨q, rfl, hmade, -, log, rfl⟩ := routine_of_function h
  refine ⟨fun e he => hmade.mem_finish_homes (Or.inl he), fun hs e he => ?_, fun e he => ?_,
    fun e he => ?_, fun e he => ?_⟩
  · rcases hmade.mem_used_of_mem_homes he with he | hused
    · exact hs e he
    · exact (hmade.handedOut hused).2
  · change e ∈ q.finish.parameters
    rw [hmade.effect.parameters, hmade.parameters]
    exact List.mem_append_left _ he
  · exact hmade.effect.mem_calls (hmade.calls ▸ he)
  · obtain ⟨new, hnew, hcallees, -⟩ := hmade.effect.calls
    change e ∈ q.finish.liveAtCalls at he
    rw [hnew, hmade.calls] at he
    rcases List.mem_append.1 he with he | he
    · exact Or.inl he
    · refine Or.inr ⟨q.function.name, List.mem_singleton.2 rfl, Resolved.Program.mem_callees hf ?_⟩
      rw [← hcallees]
      exact List.mem_map_of_mem he

theorem grows_of_passes (h : ctx.passes p globals names s = .ok xs s') : Grows p names s s' := by
  induction names generalizing s xs with
  | nil =>
    obtain ⟨-, rfl⟩ := passes_nil_eq_ok h
    exact ⟨fun _ he => he, fun hs => hs, fun _ he => he, fun _ he => he, fun _ he => Or.inl he⟩
  | cons name names ih =>
    obtain ⟨f, sect, s₁, xs', hf, hsect, hxs', -⟩ := passes_cons_eq_ok h
    obtain ⟨hmem, rfl⟩ := Resolved.Program.mem_of_function? hf
    exact (grows_of_function hmem hsect).trans (ih hxs')

/-- What is housed before all passes is housed before each of them. -/
theorem mem_before_of_passes (h : ctx.passes p globals names s = .ok xs s') {x : Pass} (hx : x ∈ xs)
    {e : Variable × Register} (he : e ∈ s.homes) : e ∈ x.before.homes := by
  induction names generalizing s xs with
  | nil =>
    obtain ⟨rfl, -⟩ := passes_nil_eq_ok h
    cases hx
  | cons name names ih =>
    obtain ⟨f, sect, s₁, xs', hf, hsect, hxs', rfl⟩ := passes_cons_eq_ok h
    obtain ⟨hmem, rfl⟩ := Resolved.Program.mem_of_function? hf
    rcases List.mem_cons.1 hx with rfl | hx
    · exact he
    · exact ih hxs' hx ((grows_of_function hmem hsect).homes e he)

/-- Every pass of functions in an order in which callers come first is settled. -/
theorem settled_of_passes (h : ctx.passes p globals names s = .ok xs s')
    (horder : ∀ before name after, names = before ++ name :: after →
      ∀ caller ∈ name :: after, name ∉ p.callGraph.callees (some caller)) :
    ∀ x ∈ xs, x.Settled ctx p globals s' := by
  induction names generalizing s xs with
  | nil =>
    obtain ⟨rfl, -⟩ := passes_nil_eq_ok h
    simp
  | cons name names ih =>
    obtain ⟨f, sect, s₁, xs', hf, hsect, hxs', rfl⟩ := passes_cons_eq_ok h
    obtain ⟨hmem, rfl⟩ := Resolved.Program.mem_of_function? hf
    have hgrows := grows_of_passes hxs'
    intro x hx
    rcases List.mem_cons.1 hx with rfl | hx
    · refine ⟨hf, hsect, hgrows.homes, hgrows.parameters, hgrows.calls, fun kept hkept => ?_⟩
      rcases ((grows_of_function hmem hsect).trans hgrows).callees _ hkept with hkept | ⟨caller,
        hcaller, hcallee⟩
      · exact hkept
      · exact absurd hcallee (horder [] f.name names rfl caller hcaller)
    · refine ih hxs' (fun before name after heq => ?_) x hx
      exact horder (f.name :: before) name after (by simp [heq])

/-- The functions are lowered in the given order. -/
theorem names_of_passes (h : ctx.passes p globals names s = .ok xs s') :
    xs.map (·.function.name) = names := by
  induction names generalizing s xs with
  | nil =>
    obtain ⟨rfl, -⟩ := passes_nil_eq_ok h
    rfl
  | cons name names ih =>
    obtain ⟨f, sect, s₁, xs', hf, -, hxs', rfl⟩ := passes_cons_eq_ok h
    rw [List.map_cons, ih hxs', (Resolved.Program.mem_of_function? hf).2]

theorem parameters_of_routine {q : Routine} {mk : Bool} {x : Pass}
    (hmade : q.Made ctx globals mk x.before) {log : List LogRecord}
    (hafter : x.after = { q.finish with used := q.finish.pool.used ++ q.finish.used, log }) :
    x.parameters = parameterEntries q.function.name 0 q.registers := by
  have hparameters : x.after.parameters =
      x.before.parameters ++ parameterEntries q.function.name 0 q.registers := by
    rw [hafter]
    exact hmade.effect.parameters.trans hmade.parameters
  rw [Pass.parameters, hparameters, List.drop_left]

/-- Every parameter was added by the pass of its function. -/
theorem parameters_of_passes (h : ctx.passes p globals names s = .ok xs s')
    {e : (String × Int) × Register} (he : e ∈ s'.parameters) :
    e ∈ s.parameters ∨ ∃ x ∈ xs, e.1.1 = x.function.name ∧ e ∈ x.parameters := by
  induction names generalizing s xs with
  | nil =>
    obtain ⟨-, rfl⟩ := passes_nil_eq_ok h
    exact Or.inl he
  | cons name names ih =>
    obtain ⟨f, sect, s₁, xs', -, hsect, hxs', rfl⟩ := passes_cons_eq_ok h
    rcases ih hxs' with he | ⟨x, hx, hname, hmem⟩
    · obtain ⟨q, rfl, hmade, -, log, rfl⟩ := routine_of_function hsect
      change e ∈ q.finish.parameters at he
      rw [hmade.effect.parameters, hmade.parameters] at he
      rcases List.mem_append.1 he with he | he
      · exact Or.inl he
      · obtain ⟨i, hi, -⟩ := mem_parameterEntries.1 he
        refine Or.inr ⟨_, List.mem_cons_self .., by rw [hi], ?_⟩
        rw [parameters_of_routine (x := ⟨q.function, s, sect, _⟩) hmade rfl]
        exact he
    · exact Or.inr ⟨x, List.mem_cons_of_mem _ hx, hname, hmem⟩

/-- No variable has two registers. -/
theorem nodup_homes_of_passes (hp : p.WellScoped) (hnames : names.Nodup)
    (h : ctx.passes p globals names s = .ok xs s') (hnodup : (s.homes.map Prod.fst).Nodup)
    (hs : ∀ e ∈ s.homes, ∀ name ∈ names, e.1.function ≠ some name) :
    (s'.homes.map Prod.fst).Nodup := by
  induction names generalizing s xs with
  | nil =>
    obtain ⟨-, rfl⟩ := passes_nil_eq_ok h
    exact hnodup
  | cons name names ih =>
    obtain ⟨f, sect, s₁, xs', hf, hsect, hxs', rfl⟩ := passes_cons_eq_ok h
    obtain ⟨hmem, rfl⟩ := Resolved.Program.mem_of_function? hf
    obtain ⟨q, rfl, hmade, -, log, rfl⟩ := routine_of_function hsect
    have hscoped := hp.function _ hmem
    rw [List.nodup_cons] at hnames
    refine ih hnames.2 hxs' ?_ ?_
    · change (q.finish.homes.map Prod.fst).Nodup
      rw [hmade.homes_keys]
      refine List.nodup_append'.2 ⟨List.nodup_reverse.2 hscoped.nodup, hnodup, fun v hv hv' => ?_⟩
      obtain ⟨e, he, rfl⟩ := List.mem_map.1 hv'
      exact hs e he _ (List.mem_cons_self ..) (hscoped.owner _ (List.mem_reverse.1 hv))
    · intro e he name hname
      have hkey : e.1 ∈ q.finish.homes.map Prod.fst := List.mem_map_of_mem he
      rw [hmade.homes_keys] at hkey
      rcases List.mem_append.1 hkey with hkey | hkey
      · rw [hscoped.owner _ (List.mem_reverse.1 hkey)]
        rintro heq
        cases heq
        exact hnames.1 hname
      · obtain ⟨e', he', heq⟩ := List.mem_map.1 hkey
        rw [← heq]
        exact hs e' he' name (List.mem_cons_of_mem _ hname)

theorem nodup_parameterEntries (f : String) (index : Int) (rs : List Register) :
    ((parameterEntries f index rs).map Prod.fst).Nodup := by
  induction rs generalizing index with
  | nil => exact List.nodup_nil
  | cons r rs ih =>
    rw [parameterEntries, List.map_cons, List.nodup_cons]
    refine ⟨fun hmem => ?_, ih (index + 1)⟩
    obtain ⟨e, he, heq⟩ := List.mem_map.1 hmem
    obtain ⟨k, hk, -⟩ := mem_parameterEntries.1 he
    rw [hk] at heq
    simp only [Prod.mk.injEq, true_and] at heq
    omega

/-- No parameter has two registers. -/
theorem nodup_parameters_of_passes (hnames : names.Nodup)
    (h : ctx.passes p globals names s = .ok xs s')
    (hnodup : (s.parameters.map Prod.fst).Nodup) (hs : ∀ e ∈ s.parameters, e.1.1 ∉ names) :
    (s'.parameters.map Prod.fst).Nodup := by
  induction names generalizing s xs with
  | nil =>
    obtain ⟨-, rfl⟩ := passes_nil_eq_ok h
    exact hnodup
  | cons name names ih =>
    obtain ⟨f, sect, s₁, xs', hf, hsect, hxs', rfl⟩ := passes_cons_eq_ok h
    obtain ⟨hmem, rfl⟩ := Resolved.Program.mem_of_function? hf
    obtain ⟨q, rfl, hmade, -, log, rfl⟩ := routine_of_function hsect
    have hparameters : q.finish.parameters =
        s.parameters ++ parameterEntries q.function.name 0 q.registers :=
      hmade.effect.parameters.trans hmade.parameters
    rw [List.nodup_cons] at hnames
    refine ih hnames.2 hxs' ?_ ?_
    · change (q.finish.parameters.map Prod.fst).Nodup
      rw [hparameters, List.map_append]
      refine List.nodup_append'.2 ⟨hnodup, nodup_parameterEntries _ _ _, fun key hkey hkey' => ?_⟩
      obtain ⟨e, he, rfl⟩ := List.mem_map.1 hkey
      obtain ⟨e', he', heq⟩ := List.mem_map.1 hkey'
      obtain ⟨k, hk, -⟩ := mem_parameterEntries.1 he'
      refine hs e he ?_
      rw [← heq, hk]
      exact List.mem_cons_self ..
    · intro e he hname
      change e ∈ q.finish.parameters at he
      rw [hparameters] at he
      rcases List.mem_append.1 he with he | he
      · exact hs e he (List.mem_cons_of_mem _ hname)
      · obtain ⟨k, hk, -⟩ := mem_parameterEntries.1 he
        rw [hk] at hname
        exact hnames.1 hname

end Chipwright.Lowering.Context
