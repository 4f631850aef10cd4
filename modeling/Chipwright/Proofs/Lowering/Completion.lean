import Chipwright.Proofs.Lowering.Build
import Chipwright.Proofs.Lowering.Operands
import Chipwright.Proofs.Lowering.Safety

/-!
# Programs fail at limits only

Sections can be made of the code of the top level and of every function, all functions that are
lowered are there, and without recursion every function is lowered. So lowering a program does
not fail, unless a limit is exceeded.
-/
namespace Chipwright

theorem RegisterPool.safe_ofCount {count : Int} (h : 1 ≤ count ∧ count ≤ Register.generalCount)
    (reserved : List Register) : Safe (RegisterPool.ofCount count reserved) :=
  .of_eq_ok (if_pos h)

/-- Operands may refer to anything. -/
def Symbols.any : Symbols := ⟨fun _ => True, fun _ => True, fun _ _ => True⟩

namespace Lowering

theorem Provides.any (s : State) (labels : List Label) (calls : List (FunctionHead × Nat)) :
    Provides Symbols.any s labels calls :=
  ⟨fun _ _ => trivial, fun _ _ => trivial, fun _ _ => trivial,
    fun _ _ => ⟨trivial, fun _ _ => trivial⟩⟩

theorem Code.safe_toSection {y : Symbols} {code : Code} (hlegal : code.Legal y)
    (hlabels : code.labels.Nodup) (file : String) (comments : Bool) (name : String) :
    Safe (Code.toSection file comments name code) := by
  have hlines : ∀ l ∈ code.lines, l.WellFormed := fun l hl =>
    (hlegal l (Code.mem_lines.1 hl)).wellFormed
  obtain ⟨sect, hsect⟩ := Code.exists_toSection hlines hlabels
  exact .of_eq_ok hsect

/-! ### Functions -/

namespace Routine.Made

variable {ctx : Context} {globals : List Register} {makesCalls : Bool} {s : State} {q : Routine}

theorem labels_code (h : q.Made ctx globals makesCalls s) :
    q.code.labels = .function q.function.name :: q.body.labels := by
  have hentry : q.entry.labels = [] := by
    cases hcalls : makesCalls with
    | true =>
      rw [h.entry_eq hcalls]
      rfl
    | false =>
      rw [(h.ret_eq hcalls).2]
      rfl
  simp [code, hentry]

/-- The labels in the body of a function have numbers, so none of them is its own. -/
theorem nodup_labels (h : q.Made ctx globals makesCalls s) : q.code.labels.Nodup := by
  have hnumbered := Context.numbered_of_stmts _ h.body
  rw [h.labels_code]
  exact List.nodup_cons.2 ⟨fun hmem => hnumbered.between _ hmem, hnumbered.nodup⟩

/-- A function has legal lines if its body has, and may jump to where calls come from. -/
theorem legal_code {y : Symbols} (h : q.Made ctx globals makesCalls s) (hra : y.registers .ra)
    (hy : Provides y q.finish q.body.labels
      (Resolved.Stmt.invocationsAll q.function.body)) : q.code.Legal y := by
  have hret : y.registers q.ret := by
    cases hcalls : makesCalls with
    | true => exact hy.used _ (h.ret_live hcalls).2.1
    | false =>
      rw [(h.ret_eq hcalls).1]
      exact hra
  intro l hl
  rcases h.mem_code hl with rfl | hbody | rfl
  · exact .cons (.target hret) (.cons (.register hra) .nil)
  · exact Context.legal_of_stmts _ h.body hy l hbody
  · exact .cons (.through hret) .nil

end Routine.Made

namespace Context

variable {f : Resolved.Function}

variable {ctx : Context} {globals : List Register} {s : State}

open Lower.Safe

theorem safe_parameters (f : String) (index : Int) (vs : List Variable) :
    (ctx.parameters f index vs).Safe ctx s := by
  induction vs generalizing index s with
  | nil => exact .pure _
  | cons v vs ih =>
    exact (safe_home v).bind fun _ _ _ => (modify_state _).bind fun _ _ _ => ih (index + 1)

theorem safe_returnAddress (origin : Origin) (f : String) (makesCalls : Bool) :
    (ctx.returnAddress origin f makesCalls).Safe ctx s := by
  cases makesCalls with
  | true => exact (safe_allocate _ _).bind fun _ _ _ => .pure _
  | false => exact .pure _

/-- The body of a function sees its parameters and what its surroundings see. -/
theorem covers_of_enter {makesCalls : Bool} {r : Register} {entry : Code} {s₁ : State}
    {outer : List Variable} (h : ctx.enter globals makesCalls f s = .ok (r, entry) s₁)
    (hcovers : s.homes.Covers outer) : s₁.homes.Covers (f.params ++ outer) := by
  obtain ⟨rs, pool, pool₁, hlength, -, -, rfl⟩ := enter_eq_ok h
  intro v hv
  rcases List.mem_append.1 hv with hv | hv
  · rw [← List.map_fst_zip (Nat.le_of_eq hlength.symm)] at hv
    obtain ⟨⟨v, r⟩, hmem, rfl⟩ := List.mem_map.1 hv
    exact ⟨r, List.mem_append_left _ (List.mem_reverse.2 hmem)⟩
  · obtain ⟨r, hr⟩ := hcovers v hv
    exact ⟨r, List.mem_append_right _ hr⟩

variable (hcount : 1 ≤ ctx.options.registerCount ∧
  ctx.options.registerCount ≤ Register.generalCount) (hp : ctx.resolved.WellScoped)

include hcount hp

/-- A function fails at limits only, where the variables of the top level are housed. -/
theorem safe_function {outer : List Variable} (hscoped : f.WellScoped outer)
    (hloops : ∀ l ∈ Resolved.Stmt.loops f.body, l ∈ ctx.resolved.loops)
    (hcovers : s.homes.Covers outer) (makesCalls : Bool) :
    (ctx.function globals makesCalls f).Safe ctx s := by
  unfold function
  refine get_state.bind fun s₁ s₂ hs₁ => ?_
  have hfresh := (RegisterPool.safe_ofCount hcount (globals ++ s₁.keptFor f.name)).bind
    fun pool _ => .ok ((), pool)
  refine (Lower.Safe.onPool hfresh).bind fun _ s₃ hpool => ?_
  refine (safe_parameters _ _ _).bind fun _ s₄ hparams => ?_
  refine (safe_returnAddress _ _ _).bind fun ⟨r, entry⟩ s₅ hret => ?_
  have henter : ctx.enter globals makesCalls f s = .ok (r, entry) s₅ := by
    simp only [enter, Lower.bind_eq_ok]
    exact ⟨s₁, s₂, hs₁, _, s₃, hpool, _, s₄, hparams, hret⟩
  have hvisible := covers_of_enter henter hcovers
  refine (safe_stmts hp f.body hloops hscoped.visible hvisible).bind fun body s₆ hbody => ?_
  obtain ⟨rs, hmade⟩ := made_of_enter henter hbody
  have hlegal := hmade.legal_code trivial (.any _ _ _)
  refine (Lower.Safe.ofExcept (Code.safe_toSection hlegal hmade.nodup_labels _ _ _)).bind
    fun _ _ _ => ?_
  exact (modify_state _).bind fun _ _ _ => (modify_state _).bind fun _ _ _ => .pure _

/-- Functions of the program fail at limits only, one after another. -/
theorem safe_functions (hacyclic : ctx.resolved.callGraph.Acyclic) {names : List String}
    (hnames : ∀ name ∈ names, name ∈ ctx.resolved.functionOrder)
    (hcovers : s.homes.Covers ctx.resolved.globals) :
    (ctx.functions ctx.resolved ctx.resolved.callGraph globals names).Safe ctx s := by
  induction names generalizing s with
  | nil => exact .pure _
  | cons name names ih =>
    obtain ⟨hname, hrest⟩ := List.forall_mem_cons.1 hnames
    rw [functions]
    cases hf : ctx.resolved.function? name with
    | none =>
      have hmem := (Resolved.CallGraph.order_perm hacyclic).mem_iff.1 hname
      obtain ⟨f, hmem, hfname⟩ := List.mem_map.1 hmem
      exact absurd hfname (by simpa using List.find?_eq_none.1 hf f hmem)
    | some f =>
      obtain ⟨hmem, rfl⟩ := Resolved.Program.mem_of_function? hf
      have hloops := fun l => Resolved.Program.mem_loops_of_function hname hf (l := l)
      refine (safe_function hcount hp (hp.function f hmem) hloops hcovers _).bind
        fun sect s₁ hsect => ?_
      have hcovers₁ : s₁.homes.Covers ctx.resolved.globals :=
        hcovers.mono (grows_of_function hmem hsect).homes
      exact (ih hrest hcovers₁).bind fun _ _ _ => .pure _

omit hcount hp in
theorem safe_inSourceOrder {sections : List Section} {fs : List Resolved.Function}
    (h : ∀ f ∈ fs, ∃ sect ∈ sections, sect.name = f.name) :
    (inSourceOrder sections fs).Safe ctx s := by
  induction fs generalizing s with
  | nil => exact .pure _
  | cons f fs ih =>
    obtain ⟨⟨sect, hsect, hname⟩, hfs⟩ := List.forall_mem_cons.1 h
    rw [inSourceOrder]
    cases hfind : sections.find? (·.name = f.name) with
    | none => exact absurd hname (by simpa using List.find?_eq_none.1 hfind sect hsect)
    | some sect' => exact (ih hfs).bind fun _ _ _ => .pure _

omit hcount hp in
theorem name_of_function {makesCalls : Bool} {sect : Section} {s' : State}
    (h : ctx.function globals makesCalls f s = .ok sect s') : sect.name = f.name := by
  obtain ⟨q, rfl, -, hcode, -⟩ := routine_of_function h
  exact Code.name_of_toSection hcode

/-- Where every function is lowered, each finds its section. -/
theorem safe_sections (hacyclic : ctx.resolved.callGraph.Acyclic) {size : Nat} :
    (ctx.sections ctx.resolved).Safe ctx { pool := RegisterPool.fresh size [] } := by
  unfold sections
  have hnone : Homes.Covers [] [] := by simp [Homes.Covers]
  refine (safe_items hp (fun l => List.mem_append_left _) hp.visible hnone).bind
    fun code s₁ hitems => ?_
  have heffect := effect_of_items hitems
  have hcovers : s₁.homes.Covers ctx.resolved.globals :=
    (hnone.of_effect heffect).subset fun v hv => List.mem_append_left _ hv
  have hnumbered := numbered_of_items hitems
  have hlegal : code.Legal Symbols.any := legal_of_items hitems (.any _ _ _)
  refine (modify_state _).bind fun _ s₂ hs₂ => ?_
  obtain rfl := Lower.modify_eq_ok.1 hs₂
  dsimp only
  split
  · exact (Lower.Safe.ofExcept (Code.safe_toSection hlegal hnumbered.nodup _ _ _)).bind
      fun _ _ _ => .pure _
  · have hexit : Code.Legal Symbols.any
        (code ++ [Origin.line ⟨"program end", .first⟩ .jump [.label .programEnd]]) := by
      have hline : Line.Legal Symbols.any
          ⟨.jump, [.label .programEnd], ⟨"program end", .first⟩⟩ := .cons (.label trivial) .nil
      simp [hlegal, hline]
    refine (Lower.Safe.ofExcept (Code.safe_toSection hexit (by simpa using hnumbered.nodup)
      _ _ _)).bind fun main s₃ hmain => get_state.bind fun s₄ s₅ hs₄ => ?_
    obtain ⟨-, rfl⟩ := Lower.ofExcept_eq_ok.1 hmain
    obtain ⟨rfl, rfl⟩ := Lower.get_eq_ok.1 hs₄
    have horder : ctx.resolved.functionOrder.Perm
        (ctx.resolved.functions.map Resolved.Function.name) :=
      Resolved.CallGraph.order_perm hacyclic
    refine (safe_functions hcount hp hacyclic (fun name hname => hname) ?_).bind
      fun functions s₆ hfunctions => ?_
    · exact hcovers
    obtain ⟨xs, hxs, rfl⟩ := passes_of_functions hfunctions
    refine (safe_inSourceOrder fun f hf => ?_).bind fun sorted _ _ => ?_
    · have hname : f.name ∈ xs.map (·.function.name) := by
        rw [names_of_passes hxs]
        exact horder.mem_iff.2 (List.mem_map_of_mem hf)
      obtain ⟨x, hx, hname⟩ := List.mem_map.1 hname
      have hsettled := settled_of_passes hxs
        (fun _ _ _ h => ctx.resolved.callGraph.callers_first h) x hx
      exact ⟨x.sect, List.mem_map_of_mem hx, (name_of_function hsettled.step).trans hname⟩
    · have hend : Code.Legal Symbols.any [.label .programEnd] := by simp
      exact (Lower.Safe.ofExcept (Code.safe_toSection hend (by simp) _ _ _)).bind
        fun _ _ _ => .pure _

end Context

/-- If a program is too long, there is a line that goes over the limit, unless that is negative. -/
theorem checkLength_eq_error {maxLines : Int} {a : Assembly} (hlines : 0 ≤ maxLines)
    (hsize : maxLines < a.size) :
    ∃ i, a.instructions[maxLines.toNat]? = some i ∧
      checkLength maxLines a = .error (.diagnostic
        { cause := .tooManyLines (i.origin.getD "program") a.size maxLines
          location := i.location }) := by
  have hlt : maxLines.toNat < a.instructions.length := by
    have : maxLines < (a.instructions.length : Int) := hsize
    omega
  have hget := List.getElem?_eq_getElem hlt
  have hindex : index? a.instructions.length maxLines = some maxLines.toNat := by
    simp only [index?, hlines, if_true, true_and]
    exact if_pos (by omega)
  have helement : elementAt? a.instructions maxLines = some a.instructions[maxLines.toNat] := by
    rw [elementAt?, hindex, Option.bind_some, hget]
  exact ⟨_, hget, by rw [checkLength, if_neg (Int.not_le.2 hsize), helement]⟩

theorem safe_checkLength {maxLines : Int} (h : 0 ≤ maxLines) (a : Assembly) :
    Safe (checkLength maxLines a) := by
  rcases Int.lt_or_le maxLines a.size with hsize | hsize
  · obtain ⟨i, -, herror⟩ := checkLength_eq_error h hsize
    rw [herror]
    intro e he
    cases he
    rfl
  · rw [checkLength, if_pos hsize]
    exact .ok _

end Lowering

/-- A program without recursion is lowered, unless a limit is exceeded. -/
theorem Resolved.Program.exceeds_of_generate {file : String} {options : Options}
    {p : Resolved.Program} {e : Failure}
    (hcount : 1 ≤ options.registerCount ∧ options.registerCount ≤ Register.generalCount)
    (hlines : 0 ≤ options.maxLines) (hp : p.WellScoped) (hacyclic : p.callGraph.Acyclic)
    (h : (p.generate file options).2 = .error e) :
    e.isLimit = true ∨
      e = .tooDeep ∧ ∃ l ∈ p.loops, p.Deep options.limits.search (.block l.body) := by
  have hpool : RegisterPool.ofCount options.registerCount [] =
      .ok (.fresh options.registerCount.toNat []) := if_pos hcount
  rw [generate, hpool] at h
  simp only [EStateM.run] at h
  split at h
  · cases h
  · rename_i e' s hprogram
    cases h
    have hsafe : (Lowering.Context.program ⟨file, options, p⟩ p).Safe ⟨file, options, p⟩
        { pool := .fresh options.registerCount.toNat [] } := by
      unfold Lowering.Context.program
      refine (Lowering.Context.safe_sections hcount hp hacyclic).bind fun sections s₁ _ => ?_
      refine Lowering.Lower.Safe.get_state.bind fun s₂ _ _ => ?_
      exact (Lowering.Lower.Safe.ofExcept (Lowering.safe_checkLength hlines _)).bind
        fun _ _ _ => (Lowering.Lower.Safe.modify_state _).bind fun _ _ _ => .pure _
    exact hsafe e s hprogram

end Chipwright
