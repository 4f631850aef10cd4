import Chipwright.Proofs.Lowering.History

/-!
# Programs that were lowered

All that is known of a program that was lowered: which code stands in which section, where the
variables of each function are housed, and which registers a function keeps.
-/
namespace Chipwright.Lowering

/-- The jump at the end of the top-level code, past the functions. -/
def exitCode (p : Resolved.Program) : Code :=
  if p.functions = [] then []
  else [Origin.line ⟨"program end", .first⟩ .jump [.label .programEnd]]

/-- How a program was lowered to sections. -/
structure Build (ctx : Context) (p : Resolved.Program) (a : Assembly) where
  size : Nat
  /-- The top-level code. -/
  code : Code
  /-- The state after the top-level code. -/
  top : State
  passes : List Pass
  /-- The state after all functions. -/
  final : State
  items : ctx.items p.items { pool := RegisterPool.fresh size [] } = .ok code top
  passed : ctx.passes p top.globalRegisters p.functionOrder
    { top with used := top.pool.used ++ top.used } = .ok passes final
  parameters : a.parameters = final.parameters
  mainSection : ∃ sect, a.sections[0]? = some sect ∧
    Code.toSection ctx.file ctx.options.emitComments mainSection (code ++ exitCode p) = .ok sect
  functionSection : ∀ k f, p.functions[k]? = some f →
    ∃ sect, a.sections[k + 1]? = some sect ∧
      (passes.map Pass.sect).find? (·.name = f.name) = some sect
  endSection : p.functions ≠ [] → ∃ sect, a.sections[p.functions.length + 1]? = some sect ∧
    Code.toSection ctx.file ctx.options.emitComments endSection [.label .programEnd] = .ok sect
  length : a.sections.length = if p.functions = [] then 1 else p.functions.length + 2

namespace Context

variable {ctx : Context} {p : Resolved.Program} {s s' : State}

theorem inSourceOrder_eq_ok {sections ss : List Section} {fs : List Resolved.Function}
    (h : inSourceOrder sections fs s = .ok ss s') :
    s' = s ∧ List.Forall₂ (fun f sect => sections.find? (·.name = f.name) = some sect) fs ss := by
  induction fs generalizing s ss with
  | nil =>
    obtain ⟨rfl, rfl⟩ := Lower.pure_eq_ok.1 h
    exact ⟨rfl, .nil⟩
  | cons f fs ih =>
    rw [inSourceOrder] at h
    cases hfind : sections.find? (·.name = f.name) with
    | none =>
      rw [hfind] at h
      cases Lower.throw_eq_ok.1 h
    | some sect =>
      rw [hfind] at h
      simp only [Lower.bind_eq_ok, Lower.pure_eq_ok] at h
      obtain ⟨ss', s₁, hrest, rfl, rfl⟩ := h
      obtain ⟨rfl, hall⟩ := ih hrest
      exact ⟨rfl, .cons hfind hall⟩

/-- Lowering a program gives a build. -/
theorem build_of_sections {size : Nat} {ss : List Section}
    (h : ctx.sections p { pool := RegisterPool.fresh size [] } = .ok ss s') :
    ∃ b : Build ctx p ⟨ss, s'.parameters⟩, b.size = size ∧ b.final = s' := by
  unfold sections at h
  simp only [Lower.bind_eq_ok, Lower.modify_eq_ok] at h
  obtain ⟨code, s₁, hitems, _, _, rfl, h⟩ := h
  by_cases hfunctions : p.functions = []
  · have horder : p.functionOrder = [] := by
      have hsub : p.functionOrder ⊆ p.callGraph.functions := p.callGraph.order_subperm.subset
      have hnil : p.callGraph.functions = [] := by simp [Resolved.Program.callGraph, hfunctions]
      rw [hnil] at hsub
      exact List.eq_nil_of_subset_nil hsub
    simp only [hfunctions, List.isEmpty_nil, if_true, Lower.bind_eq_ok, Lower.ofExcept_eq_ok,
      Lower.pure_eq_ok] at h
    obtain ⟨sect, _, ⟨hsect, rfl⟩, rfl, rfl⟩ := h
    refine ⟨⟨size, code, s₁, [], { s₁ with used := s₁.pool.used ++ s₁.used }, hitems,
      by rw [horder]; rfl, rfl, ⟨sect, rfl, ?_⟩, ?_, ?_, ?_⟩, rfl, rfl⟩
    · simpa [exitCode, hfunctions] using hsect
    · simp [hfunctions]
    · exact fun hne => absurd hfunctions hne
    · simp [hfunctions]
  · have hempty : p.functions.isEmpty = false := by simpa using hfunctions
    simp only [hempty, Bool.false_eq_true, if_false, Lower.bind_eq_ok, Lower.ofExcept_eq_ok,
      Lower.get_eq_ok, Lower.pure_eq_ok] at h
    obtain ⟨sect, _, ⟨hsect, rfl⟩, _, _, ⟨rfl, rfl⟩, functions, s₂, hpasses, sorted, _, hsorted,
      finish, _, ⟨hfinish, rfl⟩, rfl, rfl⟩ := h
    obtain ⟨xs, hxs, rfl⟩ := passes_of_functions hpasses
    obtain ⟨rfl, hall⟩ := inSourceOrder_eq_ok hsorted
    have hlength := hall.length_eq
    refine ⟨⟨size, code, s₁, xs, _, hitems, hxs, rfl, ⟨sect, rfl, ?_⟩, ?_, fun _ => ?_, ?_⟩, rfl,
      rfl⟩
    · simpa [exitCode, hfunctions] using hsect
    · intro k f hk
      obtain ⟨hlt, rfl⟩ := List.getElem?_eq_some_iff.1 hk
      refine ⟨sorted[k], ?_, hall.get hlt (hlength ▸ hlt)⟩
      rw [List.cons_append, List.getElem?_cons_succ, List.getElem?_append_left (hlength ▸ hlt)]
      exact List.getElem?_eq_getElem _
    · refine ⟨finish, ?_, hfinish⟩
      rw [List.cons_append, List.getElem?_cons_succ, hlength]
      simp
    · simp [hfunctions, hlength]

end Context

namespace Build

variable {r : Register} {x : Pass} {f : Resolved.Function}

variable {ctx : Context} {p : Resolved.Program} {a : Assembly}

/-- The registers of all variables of the program. -/
abbrev table (b : Build ctx p a) : Homes := b.final.homes

/-- All calls of the program, with the registers that are live at each. -/
abbrev calls (b : Build ctx p a) : List (String × List Register) := b.final.liveAtCalls

theorem effect (b : Build ctx p a) :
    Effect { pool := RegisterPool.fresh b.size [] } p.globals (Resolved.Stmt.bindsAll p.main)
      ((Resolved.Stmt.callsAll none p.main).map (·.callee)) b.top :=
  Context.effect_of_items b.items

theorem grows (b : Build ctx p a) : Context.Grows p p.functionOrder b.top b.final := by
  obtain ⟨hhomes, hregisters, hparameters, hcalls, hcallees⟩ := Context.grows_of_passes b.passed
  exact ⟨hhomes, hregisters, hparameters, hcalls, hcallees⟩

theorem top_homes_keys (b : Build ctx p a) :
    b.top.homes.map Prod.fst = (Resolved.Stmt.bindsAll p.main).reverse := by
  obtain ⟨new, hnew, hbinds, -⟩ := b.effect.homes
  rw [hnew, List.append_nil, hbinds]

theorem order_nodup (hp : p.WellScoped) : p.functionOrder.Nodup := by
  obtain ⟨names, hperm, hsub⟩ := p.callGraph.order_subperm
  exact hperm.nodup_iff.1 (List.Nodup.sublist hsub hp.names)

/-- No variable of the program has two registers. -/
theorem nodup_table (b : Build ctx p a) (hp : p.WellScoped) :
    (b.table.map Prod.fst).Nodup := by
  refine Context.nodup_homes_of_passes hp (order_nodup hp) b.passed ?_ ?_
  · change (b.top.homes.map Prod.fst).Nodup
    rw [b.top_homes_keys]
    exact List.nodup_reverse.2 hp.nodup
  · intro e he name _
    have hkey : e.1 ∈ b.top.homes.map Prod.fst := List.mem_map_of_mem he
    rw [b.top_homes_keys] at hkey
    simp [hp.owner _ (List.mem_reverse.1 hkey)]

theorem nodup_parameters (b : Build ctx p a) (hp : p.WellScoped) :
    (a.parameters.map Prod.fst).Nodup := by
  rw [b.parameters]
  have hnil : b.top.parameters = [] := b.effect.parameters
  refine Context.nodup_parameters_of_passes (order_nodup hp) b.passed ?_ ?_
  · change (b.top.parameters.map Prod.fst).Nodup
    rw [hnil]
    exact List.nodup_nil
  · intro e he
    change e ∈ b.top.parameters at he
    rw [hnil] at he
    cases he

/-- The top-level code was lowered where its variables are housed. -/
theorem lowered (b : Build ctx p a) (hp : p.WellScoped) :
    LoweredItems ctx b.table [] p.items { pool := RegisterPool.fresh b.size [] } b.code b.top :=
  ⟨⟨b.nodup_table hp, b.grows.homes, by simp, by simp⟩, b.items, hp.visible⟩

/-- After the top-level code, the global variables are housed. -/
theorem housed_globals (b : Build ctx p a) (hp : p.WellScoped) :
    Housed b.table p.globals b.top.pool := by
  have h := (b.lowered hp).housed.of_effect b.effect (b.nodup_table hp) b.grows.homes
  simpa using h

/-- The variables of the top-level code have their registers when that has been lowered. -/
theorem mem_top_homes (b : Build ctx p a) (hp : p.WellScoped) {v : Variable}
    (hv : v ∈ Resolved.Stmt.bindsAll p.main) (hr : (v, r) ∈ b.table) : (v, r) ∈ b.top.homes := by
  rw [← List.mem_reverse, ← b.top_homes_keys] at hv
  obtain ⟨⟨v, r'⟩, hmem, rfl⟩ := List.mem_map.1 hv
  obtain rfl := eq_of_mem_of_mem (b.nodup_table hp) hr (b.grows.homes _ hmem)
  exact hmem

theorem mem_globalRegisters (b : Build ctx p a) (hp : p.WellScoped) {v : Variable}
    (hv : v ∈ p.globals) (hr : (v, r) ∈ b.table) : r ∈ b.top.globalRegisters := by
  obtain ⟨st, hst, hdefines⟩ := List.mem_flatMap.1 hv
  have hbinds := Resolved.Stmt.mem_binds_of_mem_defines hdefines
  have hmem := b.mem_top_homes hp (Resolved.Stmt.mem_bindsAll.2 ⟨st, hst, hbinds⟩) hr
  refine List.mem_map.2 ⟨(v, r), List.mem_filter.2 ⟨hmem, ?_⟩, rfl⟩
  exact (hp.global st hst v hbinds).2 hdefines

/-- No register that the top-level code is given is the one that calls set. -/
theorem handedOut_top (b : Build ctx p a) (hr : r ∈ b.top.pool.used) : r ≠ .ra := by
  obtain ⟨rs, htakes⟩ := b.effect.takes
  rcases htakes.handedOut r hr with hnil | ⟨-, hgeneral⟩
  · cases hnil
  · rintro rfl
    exact RegisterPool.ra_notMem_general _ hgeneral

/-- No variable is in the register that calls set. -/
theorem ne_ra (b : Build ctx p a) {v : Variable} (hr : (v, r) ∈ b.table) : r ≠ .ra := by
  refine b.grows.registers (fun e he => ?_) (v, r) hr
  obtain ⟨new, hnew, -, hused⟩ := b.effect.homes
  rw [hnew, List.append_nil] at he
  exact b.handedOut_top (hused e he).2

/-- The routine of the function with an index, in view of the whole program. -/
structure Settled (b : Build ctx p a) (k : Nat) (q : Routine) : Prop where
  function : p.functions[k]? = some q.function
  sect : ∃ sect, a.sections[k + 1]? = some sect ∧
    Code.toSection ctx.file ctx.options.emitComments q.function.name q.code = .ok sect
  made : ∃ s, q.Made ctx b.top.globalRegisters (makesCalls p q.function.name) s
  lowered : LoweredAll ctx b.table p.globals q.function.params q.function.body q.start q.body
    q.finish
  calls : ∀ e ∈ q.finish.liveAtCalls, e ∈ b.calls
  kept : ∀ kept, (q.function.name, kept) ∈ b.calls → ∀ r ∈ kept, r ∈ q.kept
  globals : ∀ v ∈ p.globals, ∀ r, (v, r) ∈ b.table → r ∈ q.kept
  parameter : ∀ (index : Int) r, a.parameters.lookup (q.function.name, index) = some r ↔
    ∃ i : Nat, index = i ∧ q.registers[i]? = some r

theorem settled_of_mem_passes (b : Build ctx p a) (hx : x ∈ b.passes) :
    x.Settled ctx p b.top.globalRegisters b.final :=
  Context.settled_of_passes b.passed (fun _ _ _ h => p.callGraph.callers_first h) x hx

/-- A section of a function stands for a pass. -/
theorem exists_pass_named (b : Build ctx p a) {k : Nat} (hk : p.functions[k]? = some f) :
    ∃ x ∈ b.passes, x.function.name = f.name ∧ a.sections[k + 1]? = some x.sect := by
  obtain ⟨sect, hsect, hfind⟩ := b.functionSection k f hk
  obtain ⟨x, hx, rfl⟩ := List.mem_map.1 (List.mem_of_find?_eq_some hfind)
  have hname : x.sect.name = f.name := by simpa using List.find?_some hfind
  obtain ⟨q, -, -, hcode, -⟩ := Context.routine_of_function (b.settled_of_mem_passes hx).step
  exact ⟨x, hx, (Code.name_of_toSection hcode).symm.trans hname, hsect⟩

/-- The pass is that of the function. -/
theorem exists_pass (b : Build ctx p a) (hp : p.WellScoped) {k : Nat}
    (hk : p.functions[k]? = some f) :
    ∃ x ∈ b.passes, x.function = f ∧ a.sections[k + 1]? = some x.sect := by
  obtain ⟨x, hx, hname, hsect⟩ := b.exists_pass_named hk
  have hmem := (Resolved.Program.mem_of_function? (b.settled_of_mem_passes hx).known).1
  have hf : f ∈ p.functions := List.mem_of_getElem? hk
  exact ⟨x, hx, List.inj_on_of_nodup_map hp.names hmem hf hname, hsect⟩

/-- What the section with an index was made of. -/
inductive Part (b : Build ctx p a) : Nat → Section → Prop
  | main {sect : Section} : Code.toSection ctx.file ctx.options.emitComments Lowering.mainSection
      (b.code ++ exitCode p) = .ok sect → Part b 0 sect
  | function {k : Nat} {f : Resolved.Function} {x : Pass} : p.functions[k]? = some f →
    x ∈ b.passes → x.function.name = f.name → Part b (k + 1) x.sect
  | finish {sect : Section} : p.functions ≠ [] → Code.toSection ctx.file ctx.options.emitComments
      Lowering.endSection [.label .programEnd] = .ok sect → Part b (p.functions.length + 1) sect

theorem part (b : Build ctx p a) {k : Nat} {sect : Section} (hk : a.sections[k]? = some sect) :
    b.Part k sect := by
  have hlt : k < a.sections.length := (List.getElem?_eq_some_iff.1 hk).1
  rw [b.length] at hlt
  cases k with
  | zero =>
    obtain ⟨main, hmain, hcode⟩ := b.mainSection
    exact Option.some.inj (hmain.symm.trans hk) ▸ .main hcode
  | succ k =>
    rcases Nat.lt_or_ge k p.functions.length with hk' | hk'
    · obtain ⟨x, hx, hname, hsect⟩ := b.exists_pass_named (List.getElem?_eq_getElem hk')
      exact Option.some.inj (hsect.symm.trans hk) ▸
        .function (List.getElem?_eq_getElem hk') hx hname
    · have hne : p.functions ≠ [] := by
        intro hnil
        simp [hnil] at hlt
      rw [if_neg hne] at hlt
      obtain rfl : k = p.functions.length := by omega
      obtain ⟨finish, hfinish, hcode⟩ := b.endSection hne
      exact Option.some.inj (hfinish.symm.trans hk) ▸ .finish hne hcode

theorem eq_of_mem_passes (b : Build ctx p a) (hp : p.WellScoped) {y : Pass} (hx : x ∈ b.passes)
    (hy : y ∈ b.passes) (h : x.function.name = y.function.name) : x = y := by
  have hnodup : (b.passes.map (·.function.name)).Nodup := by
    rw [Context.names_of_passes b.passed]
    exact order_nodup hp
  exact List.inj_on_of_nodup_map hnodup hx hy h

theorem sect_mem (b : Build ctx p a) (hp : p.WellScoped) (hx : x ∈ b.passes) :
    x.sect ∈ a.sections := by
  have hmem := (Resolved.Program.mem_of_function? (b.settled_of_mem_passes hx).known).1
  obtain ⟨k, hk, heq⟩ := List.getElem_of_mem hmem
  obtain ⟨y, hy, hfunction, hsect⟩ := b.exists_pass hp (List.getElem?_eq_getElem hk)
  obtain rfl := b.eq_of_mem_passes hp hy hx (by rw [hfunction, heq])
  exact List.mem_of_getElem? hsect

/-- The parameters of a function are those that its pass has added. -/
theorem lookup_parameters (b : Build ctx p a) (hp : p.WellScoped) (hx : x ∈ b.passes)
    {name : String} (hname : x.function.name = name) {index : Int} :
    a.parameters.lookup (name, index) = some r ↔ ((name, index), r) ∈ x.parameters := by
  constructor
  · intro hlookup
    have hmem := mem_of_lookup hlookup
    rw [b.parameters] at hmem
    rcases Context.parameters_of_passes b.passed hmem with hmem | ⟨y, hy, hy', hparameter⟩
    · change _ ∈ b.top.parameters at hmem
      rw [b.effect.parameters] at hmem
      cases hmem
    · rwa [b.eq_of_mem_passes hp hx hy (hname.trans hy')]
  · intro hmem
    refine lookup_eq_some_of_mem (b.nodup_parameters hp) ?_
    rw [b.parameters]
    exact (b.settled_of_mem_passes hx).parameters _ (List.mem_of_mem_drop hmem)

/-- What the pass of a function has made is a settled routine. -/
theorem settled_of_made (b : Build ctx p a) (hp : p.WellScoped) {k : Nat} (hx : x ∈ b.passes)
    (hk : p.functions[k]? = some x.function) (hsect : a.sections[k + 1]? = some x.sect)
    {q : Routine} {log : List LogRecord} (hq : q.function = x.function)
    (hmade : q.Made ctx b.top.globalRegisters (makesCalls p x.function.name) x.before)
    (hcode : Code.toSection ctx.file ctx.options.emitComments x.function.name q.code = .ok x.sect)
    (hafter : x.after = { q.finish with used := q.finish.pool.used ++ q.finish.used, log }) :
    b.Settled k q := by
  have hsettled := b.settled_of_mem_passes hx
  have hmem := (Resolved.Program.mem_of_function? hsettled.known).1
  have htable : ∀ e ∈ q.finish.homes, e ∈ b.table := by
    intro e he
    refine hsettled.homes e ?_
    rw [hafter]
    exact he
  have hglobals : ∀ r ∈ b.top.globalRegisters, r ∈ q.kept := by
    intro r hr
    rw [hmade.kept_eq]
    exact List.mem_append_left _ hr
  refine ⟨hq ▸ hk, ⟨x.sect, hsect, hq ▸ hcode⟩, ⟨x.before, hq ▸ hmade⟩, ?_, ?_, ?_,
    fun v hv r hr => hglobals r (b.mem_globalRegisters hp hv hr), ?_⟩
  · exact hmade.lowered (hq ▸ hp.function _ hmem) (b.nodup_table hp) htable
      (fun v hv r hr => b.mem_globalRegisters hp hv hr) (b.housed_globals hp).distinct
  · intro e he
    refine hsettled.calls e ?_
    rw [hafter]
    exact he
  · intro kept hkept r hr
    rw [hmade.kept_eq, hq]
    rw [hq] at hkept
    refine List.mem_append_right _ (List.mem_flatMap.2 ⟨(x.function.name, kept), ?_, hr⟩)
    exact List.mem_filter.2 ⟨hsettled.noted kept hkept, by simp⟩
  · intro index r
    rw [b.lookup_parameters hp hx (congrArg _ hq.symm),
      Context.parameters_of_routine hmade hafter, mem_parameterEntries]
    simp

/-- Every function is a settled routine. -/
theorem exists_settled (b : Build ctx p a) (hp : p.WellScoped) {k : Nat}
    (hk : p.functions[k]? = some f) : ∃ q : Routine, q.function = f ∧ b.Settled k q := by
  obtain ⟨x, hx, rfl, hsect⟩ := b.exists_pass hp hk
  obtain ⟨q, hq, hmade, hcode, log, hafter⟩ :=
    Context.routine_of_function (b.settled_of_mem_passes hx).step
  exact ⟨q, hq, b.settled_of_made hp hx hk hsect hq hmade hcode hafter⟩

theorem exists_routine (b : Build ctx p a) (hp : p.WellScoped) (hf : f ∈ p.functions) :
    ∃ k q, b.Settled k q ∧ q.function = f := by
  obtain ⟨k, hk, rfl⟩ := List.getElem_of_mem hf
  obtain ⟨q, hq, hsettled⟩ := b.exists_settled hp (List.getElem?_eq_getElem hk)
  exact ⟨k, q, hsettled, hq⟩

end Build

end Chipwright.Lowering

namespace Chipwright

open Lowering (Build)

theorem Lowering.size_le_of_checkLength {maxLines : Int} {a : Assembly} {u : Unit}
    (h : Lowering.checkLength maxLines a = .ok u) : a.size ≤ maxLines := by
  unfold Lowering.checkLength at h
  split at h
  · assumption
  · split at h <;> cases h

/-- A program that was lowered has a build, which tells what registers it uses. It is not too
long. -/
theorem Resolved.Program.exists_build {file : String} {options : Options}
    {p : Resolved.Program} {g : Lowering.Generated} (h : (p.generate file options).2 = .ok g) :
    ∃ b : Build ⟨file, options, p⟩ p g.assembly,
      RegisterPool.ofCount options.registerCount [] = .ok (.fresh b.size []) ∧
      g.registers = Register.sorted b.final.used ∧ g.assembly.size ≤ options.maxLines := by
  unfold generate at h
  cases hpool : RegisterPool.ofCount options.registerCount [] with
  | error e =>
    rw [hpool] at h
    cases h
  | ok pool =>
    rw [hpool] at h
    have hfresh : pool = .fresh pool.size [] := by
      rw [(RegisterPool.ofCount_eq_ok.1 hpool).2]
      rfl
    rw [hfresh] at h
    simp only [EStateM.run] at h
    split at h
    · rename_i g' s' hprogram
      cases h
      simp only [Lowering.Context.program, Lowering.Lower.bind_eq_ok, Lowering.Lower.get_eq_ok,
        Lowering.Lower.ofExcept_eq_ok, Lowering.Lower.log_eq_ok,
        Lowering.Lower.pure_eq_ok] at hprogram
      obtain ⟨ss, s₁, hsections, _, _, ⟨rfl, rfl⟩, _, _, ⟨hlength, rfl⟩, _, _, rfl, rfl, rfl⟩ :=
        hprogram
      obtain ⟨b, hsize, hfinal⟩ := Lowering.Context.build_of_sections hsections
      exact ⟨b, by rw [hsize, ← hfresh], by rw [hfinal], Lowering.size_le_of_checkLength hlength⟩
    · cases h

/-- A program that was lowered has a build. -/
theorem Resolved.Program.build_of_generate {file : String} {options : Options}
    {p : Resolved.Program} {g : Lowering.Generated} (h : (p.generate file options).2 = .ok g) :
    ∃ b : Build ⟨file, options, p⟩ p g.assembly,
      RegisterPool.ofCount options.registerCount [] = .ok (.fresh b.size []) := by
  obtain ⟨b, hsize, -⟩ := p.exists_build h
  exact ⟨b, hsize⟩

end Chipwright
