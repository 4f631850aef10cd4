import Chipwright.Proofs.Lowering.Completion
import Mathlib.Data.List.Pairwise

/-!
# What a whole program uses

Every register that a program uses was handed out and is accounted for, no two labels have the same
name, and each function that is called has a label and registers for its parameters. So the lines
of all sections refer to symbols that are known.
-/
namespace Chipwright.Lowering

/-- The registers of variables have been noted, and all that has been noted are among the first
general ones. -/
structure State.Accounted (n : Nat) (s : State) : Prop where
  homes : ∀ e ∈ s.homes, e.2 ∈ s.used
  general : ∀ r ∈ s.used, r ∈ Register.general n

namespace Context

variable {ctx : Context} {p : Resolved.Program} {globals : List Register} {s s' : State}
  {xs : List Pass} {names : List String}

/-- The registers that a function is given are noted beside the others. -/
theorem accounted_of_function {makesCalls : Bool} {f : Resolved.Function} {sect : Section}
    (h : ctx.function globals makesCalls f s = .ok sect s')
    (hs : s.Accounted ctx.options.registerCount.toNat) :
    s'.Accounted ctx.options.registerCount.toNat ∧ s'.used = s'.pool.used ++ s.used := by
  obtain ⟨r, entry, s₁, body, s₂, log, henter, hbody, -, rfl⟩ := function_eq_ok h
  obtain ⟨rs, hmade⟩ := made_of_enter henter hbody
  obtain ⟨rs', pool, pool₁, -, htakes, hret, rfl⟩ := enter_eq_ok henter
  have heffect := effect_of_stmts f.body hbody
  have hused : s₂.used = s.used := heffect.used
  have hpool : ∃ rs, (RegisterPool.fresh ctx.options.registerCount.toNat
      (globals ++ s.keptFor f.name)).Takes rs s₂.pool := by
    obtain ⟨rs₂, htakes₂⟩ := heffect.takes
    rcases hret with ⟨-, htakes₁, -⟩ | ⟨-, -, rfl, -⟩
    · exact ⟨_, (htakes.trans htakes₁).trans htakes₂⟩
    · exact ⟨_, htakes.trans htakes₂⟩
  obtain ⟨rs₂, htakes₂⟩ := hpool
  refine ⟨⟨fun e he => ?_, fun r hr => ?_⟩, by rw [hused]⟩
  · change e.2 ∈ s₂.pool.used ++ s₂.used
    rcases hmade.mem_used_of_mem_homes he with he | hr
    · exact List.mem_append_right _ (hused ▸ hs.homes e he)
    · exact List.mem_append_left _ hr
  · change r ∈ s₂.pool.used ++ s₂.used at hr
    rw [hused] at hr
    rcases List.mem_append.1 hr with hr | hr
    · rcases htakes₂.handedOut r hr with hnil | ⟨-, hgeneral⟩
      · cases hnil
      · exact hgeneral
    · exact hs.general r hr

theorem accounted_of_passes (h : ctx.passes p globals names s = .ok xs s')
    (hs : s.Accounted ctx.options.registerCount.toNat) :
    s'.Accounted ctx.options.registerCount.toNat ∧ (∀ r ∈ s.used, r ∈ s'.used) ∧
      ∀ x ∈ xs, ∀ r ∈ x.handedOut, r ∈ s'.used := by
  induction names generalizing s xs with
  | nil =>
    obtain ⟨rfl, rfl⟩ := passes_nil_eq_ok h
    exact ⟨hs, fun _ hr => hr, by simp⟩
  | cons name names ih =>
    obtain ⟨f, sect, s₁, xs', -, hsect, hxs', rfl⟩ := passes_cons_eq_ok h
    obtain ⟨hs₁, hused⟩ := accounted_of_function hsect hs
    obtain ⟨hs', hkeep, hpasses⟩ := ih hxs' hs₁
    refine ⟨hs', fun r hr => hkeep r ?_, List.forall_mem_cons.2 ⟨fun r hr => hkeep r ?_, hpasses⟩⟩
    · rw [hused]
      exact List.mem_append_right _ hr
    · rw [hused]
      exact List.mem_append_left _ hr

/-- The labels of a function are its own and new ones. -/
theorem labels_of_function {makesCalls : Bool} {f : Resolved.Function} {sect : Section}
    (h : ctx.function globals makesCalls f s = .ok sect s') :
    ∃ labels, sect.labels.map Prod.fst = .function f.name :: labels ∧
      Numbered s.counters s'.counters labels := by
  obtain ⟨r, entry, s₁, body, s₂, log, henter, hbody, hcode, rfl⟩ := function_eq_ok h
  obtain ⟨rs, hmade⟩ := made_of_enter henter hbody
  obtain ⟨rs', pool, pool₁, -, -, -, rfl⟩ := enter_eq_ok henter
  have hnumbered := numbered_of_stmts f.body hbody
  refine ⟨Code.labels body, ?_, hnumbered⟩
  exact (Code.labels_of_toSection hcode).trans hmade.labels_code

theorem labels_of_passes (h : ctx.passes p globals names s = .ok xs s') :
    ∃ labels, (xs.flatMap fun x => x.sect.labels.map Prod.fst).Perm
        (names.map Label.function ++ labels) ∧ Numbered s.counters s'.counters labels := by
  induction names generalizing s xs with
  | nil =>
    obtain ⟨rfl, rfl⟩ := passes_nil_eq_ok h
    exact ⟨[], .refl _, .refl _⟩
  | cons name names ih =>
    obtain ⟨f, sect, s₁, xs', hf, hsect, hxs', rfl⟩ := passes_cons_eq_ok h
    obtain ⟨-, rfl⟩ := Resolved.Program.mem_of_function? hf
    obtain ⟨first, hfirst, hnumbered⟩ := labels_of_function hsect
    obtain ⟨rest, hrest, hnumbered'⟩ := ih hxs'
    refine ⟨first ++ rest, ?_, hnumbered.append hnumbered'⟩
    rw [List.flatMap_cons, hfirst, List.map_cons, List.cons_append, List.cons_append]
    refine ((hrest.append_left first).trans ?_).cons _
    exact List.perm_append_comm_assoc _ _ _

end Context

namespace Build

variable {sect : Section}

variable {ctx : Context} {p : Resolved.Program} {a : Assembly}

/-! ### Labels -/

theorem labels_main (b : Build ctx p a) {file name : String} {comments : Bool}
    (h : Code.toSection file comments name (b.code ++ exitCode p) = .ok sect) :
    sect.labels.map Prod.fst = b.code.labels := by
  have hexit : Code.labels (exitCode p) = [] := by
    unfold exitCode
    split <;> rfl
  rw [Code.labels_of_toSection h, Code.labels_append, hexit, List.append_nil]

/-- The labels of the top level, of all functions and of the end. -/
def allLabels (b : Build ctx p a) : List Label :=
  b.code.labels ++ b.passes.flatMap (fun x => x.sect.labels.map Prod.fst) ++ [.programEnd]

/-- Numbers are given out once in the whole program, and functions have names of their own. -/
theorem nodup_allLabels (b : Build ctx p a) (hp : p.WellScoped) :
    (b.allLabels.map Label.text).Nodup := by
  obtain ⟨labels, hperm, hpasses⟩ := Context.labels_of_passes b.passed
  have hall : Numbered ⟨0, 0⟩ b.final.counters (b.code.labels ++ labels) :=
    (Context.numbered_of_items b.items).append hpasses
  have hperm' : b.allLabels.Perm
      (p.functionOrder.map Label.function ++ (b.code.labels ++ labels) ++ [.programEnd]) :=
    ((hperm.append_left _).trans (List.perm_append_comm_assoc _ _ _)).append_right _
  have hnames : (p.functionOrder.map Label.function).Nodup :=
    (order_nodup hp).map fun _ _ h => by cases h; rfl
  have hnodup : b.allLabels.Nodup := by
    rw [hperm'.nodup_iff, List.nodup_append', List.nodup_append']
    refine ⟨⟨hnames, hall.nodup, fun l hl hl' => ?_⟩, List.nodup_singleton _, fun l hl hl' => ?_⟩
    · obtain ⟨name, -, rfl⟩ := List.mem_map.1 hl
      exact hall.between _ hl'
    · obtain rfl := List.mem_singleton.1 hl'
      exact hall.between .programEnd (by simpa using hl)
  have hmade (l : Label) (hl : l ∈ b.allLabels) (text : String) : l ≠ .named text := by
    rintro rfl
    exact hall.between (.named text) (by simpa using hperm'.mem_iff.1 hl)
  exact hnodup.map_on fun l hl l' hl' => Label.eq_of_text_eq (hmade l hl) (hmade l' hl')

/-- No two sections have labels of the same name. -/
theorem disjoint_labels (b : Build ctx p a) (hp : p.WellScoped) {j k : Nat} {sect' : Section}
    (hj : a.sections[j]? = some sect) (hk : a.sections[k]? = some sect') (hlt : j < k) :
    (sect.labels.map Prod.fst |>.map Label.text).Disjoint
      (sect'.labels.map Prod.fst |>.map Label.text) := by
  have hnodup := b.nodup_allLabels hp
  simp only [allLabels, List.map_append, List.map_flatMap, List.nodup_append'] at hnodup
  obtain ⟨⟨-, hpasses, hmain⟩, -, hlast⟩ := hnodup
  cases b.part hk with
  | main => exact absurd hlt (Nat.not_lt_zero _)
  | @function k f' y hf' hy hname' =>
    cases b.part hj with
    | main hcode =>
      rw [b.labels_main hcode]
      exact fun l hl hl' => hmain hl (List.mem_flatMap.2 ⟨y, hy, hl'⟩)
    | @function j f x hf hx hname =>
      have hne : x ≠ y := by
        rintro rfl
        have hsame : (p.functions.map (·.name))[j]? = (p.functions.map (·.name))[k]? := by
          simp [hf, hf', ← hname, ← hname']
        have hj' : j < p.functions.length := (List.getElem?_eq_some_iff.1 hf).1
        have := (List.getElem?_inj (by simpa using hj') hp.names).1 hsame
        omega
      have : Std.Symm (Function.onFun List.Disjoint fun x : Pass =>
          (x.sect.labels.map Prod.fst).map Label.text) := ⟨fun _ _ h => h.symm⟩
      exact (List.nodup_flatMap.1 hpasses).2.forall hx hy hne
    | finish =>
      have := (List.getElem?_eq_some_iff.1 hf').1
      omega
  | finish hne hcode' =>
    rw [Code.labels_of_toSection hcode']
    cases b.part hj with
    | main hcode =>
      rw [b.labels_main hcode]
      exact fun l hl => hlast (List.mem_append_left _ hl)
    | function _ hx =>
      exact fun l hl => hlast (List.mem_append_right _ (List.mem_flatMap.2 ⟨_, hx, hl⟩))
    | finish => exact absurd hlt (Nat.lt_irrefl _)

theorem nodup_labels_of_section (b : Build ctx p a) (hp : p.WellScoped) (h : sect ∈ a.sections) :
    (sect.labels.map Prod.fst |>.map Label.text).Nodup := by
  have hnodup := b.nodup_allLabels hp
  simp only [allLabels, List.map_append, List.map_flatMap, List.nodup_append'] at hnodup
  obtain ⟨⟨hmain, hpasses, -⟩, hlast, -⟩ := hnodup
  obtain ⟨k, hk⟩ := List.getElem?_of_mem h
  cases b.part hk with
  | main hcode => exact b.labels_main hcode ▸ hmain
  | function _ hx => exact (List.nodup_flatMap.1 hpasses).1 _ hx
  | finish _ hcode => exact Code.labels_of_toSection hcode ▸ hlast

/-- No two labels have the same name, whatever the functions are called. -/
theorem nodup_names (b : Build ctx p a) (hp : p.WellScoped) :
    (a.labels.map Prod.fst |>.map Label.text).Nodup := by
  rw [Assembly.labels, List.map_flatMap, List.map_flatMap, List.nodup_flatMap]
  refine ⟨fun sect hsect => b.nodup_labels_of_section hp hsect, ?_⟩
  rw [List.pairwise_iff_getElem]
  intro j k hj hk hlt
  exact b.disjoint_labels hp (List.getElem?_eq_getElem hj) (List.getElem?_eq_getElem hk) hlt

theorem nodup_labels (b : Build ctx p a) (hp : p.WellScoped) : (a.labels.map Prod.fst).Nodup :=
  (b.nodup_names hp).of_map

/-! ### Symbols -/

/-- What the operands of the program may refer to. -/
def symbols (b : Build ctx p a) : Symbols where
  registers r := r = .ra ∨ r ∈ b.final.used
  labels l := l ∈ a.labels.map Prod.fst
  parameters f index := ∃ r ∈ b.final.used, a.parameters.lookup (f, index) = some r

theorem symbols_label (b : Build ctx p a) {l : Label} (h : sect ∈ a.sections)
    (hl : l ∈ sect.labels.map Prod.fst) : b.symbols.labels l := by
  obtain ⟨e, he, rfl⟩ := List.mem_map.1 hl
  exact List.mem_map_of_mem (List.mem_flatMap.2 ⟨sect, h, he⟩)

/-- All registers of the program are accounted for, those of each function among them. -/
theorem accounted (b : Build ctx p a) (hsize : b.size = ctx.options.registerCount.toNat) :
    b.final.Accounted ctx.options.registerCount.toNat ∧ (∀ r ∈ b.top.pool.used, r ∈ b.final.used) ∧
      ∀ x ∈ b.passes, ∀ r ∈ x.handedOut, r ∈ b.final.used := by
  have hused : b.top.used = [] := b.effect.used
  have htop : State.Accounted ctx.options.registerCount.toNat
      { b.top with used := b.top.pool.used ++ b.top.used } := by
    refine ⟨fun e he => ?_, fun r hr => ?_⟩
    · obtain ⟨new, hnew, -, hregs⟩ := b.effect.homes
      change e ∈ b.top.homes at he
      rw [hnew, List.append_nil] at he
      exact List.mem_append_left _ (hregs e he).2
    · change r ∈ b.top.pool.used ++ b.top.used at hr
      rw [hused, List.append_nil] at hr
      obtain ⟨rs, htakes⟩ := b.effect.takes
      rcases htakes.handedOut r hr with hnil | ⟨-, hgeneral⟩
      · cases hnil
      · exact hsize ▸ hgeneral
  obtain ⟨hfinal, hkeep, hpasses⟩ := Context.accounted_of_passes b.passed htop
  exact ⟨hfinal, fun r hr => hkeep r (List.mem_append_left _ hr), hpasses⟩

/-- A function that is called has a label, and a register for every argument. -/
theorem symbols_call (b : Build ctx p a) (hp : p.WellScoped) (hfit : p.CallsFit)
    (hsize : b.size = ctx.options.registerCount.toNat) {i : Resolved.Item} (hi : i ∈ p.items)
    {call : FunctionHead × Nat} (hcall : call ∈ i.invocations) :
    b.symbols.labels (.function call.1.name) ∧
      ∀ n : Nat, n < call.2 → b.symbols.parameters call.1.name n := by
  obtain ⟨f, hf, hhead, hlength⟩ := hfit i hi call hcall
  obtain ⟨k, hk, rfl⟩ := List.getElem_of_mem hf
  obtain ⟨x, hx, hfunction, hsect⟩ := b.exists_pass hp (List.getElem?_eq_getElem hk)
  have hname : x.function.name = call.1.name := by rw [hfunction, ← hhead]; rfl
  have hsettled := b.settled_of_mem_passes hx
  refine ⟨?_, fun n hn => ?_⟩
  · obtain ⟨labels, hlabels, -⟩ := Context.labels_of_function hsettled.step
    refine b.symbols_label (List.mem_of_getElem? hsect) ?_
    rw [hlabels, hname]
    exact List.mem_cons_self ..
  · obtain ⟨q, hq, hmade, -, log, hafter⟩ := Context.routine_of_function hsettled.step
    have hbound : n < q.registers.length := by
      rw [hmade.length, hq, hfunction, hlength]
      exact hn
    have hused : q.registers[n] ∈ x.handedOut := by
      rw [Pass.handedOut, hafter]
      exact (hmade.registers_live (List.getElem_mem hbound)).2
    refine ⟨q.registers[n], (b.accounted hsize).2.2 x hx _ hused, ?_⟩
    rw [b.lookup_parameters hp hx hname, Context.parameters_of_routine hmade hafter,
      mem_parameterEntries]
    exact ⟨n, by simp [hq, hname], List.getElem?_eq_getElem hbound⟩

/-- The top-level code refers to known symbols. -/
theorem legal_main (b : Build ctx p a) (hp : p.WellScoped) (hfit : p.CallsFit)
    (hsize : b.size = ctx.options.registerCount.toNat) :
    Code.Legal b.symbols (b.code ++ exitCode p) := by
  obtain ⟨hfinal, htop, -⟩ := b.accounted hsize
  obtain ⟨sect, hsect, hcode⟩ := b.mainSection
  have hprovides : Provides b.symbols b.top b.code.labels
      (p.items.flatMap Resolved.Item.invocations) := by
    refine ⟨fun e he => Or.inr (hfinal.homes e (b.grows.homes e he)),
      fun r hr => Or.inr (htop r hr), fun l hl => ?_, fun call hcall => ?_⟩
    · exact b.symbols_label (List.mem_of_getElem? hsect) (b.labels_main hcode ▸ hl)
    · obtain ⟨i, hi, hcall⟩ := List.mem_flatMap.1 hcall
      exact b.symbols_call hp hfit hsize hi hcall
  refine Code.legal_append.2 ⟨Context.legal_of_items b.items hprovides, ?_⟩
  unfold exitCode
  split
  · exact Code.legal_nil
  · rename_i hne
    obtain ⟨finish, hfinish, hend⟩ := b.endSection hne
    have hlabel : b.symbols.labels .programEnd := by
      refine b.symbols_label (List.mem_of_getElem? hfinish) ?_
      rw [Code.labels_of_toSection hend]
      exact List.mem_singleton.2 rfl
    exact Code.legal_line.2 ⟨.cons (.label hlabel) .nil, Code.legal_nil⟩

/-- Every function refers to known symbols. -/
theorem legal_pass (b : Build ctx p a) (hp : p.WellScoped) (hfit : p.CallsFit)
    (hsize : b.size = ctx.options.registerCount.toNat) {x : Pass} (hx : x ∈ b.passes) :
    ∃ code, Code.toSection ctx.file ctx.options.emitComments x.function.name code = .ok x.sect ∧
      code.Legal b.symbols := by
  obtain ⟨hfinal, -, hpasses⟩ := b.accounted hsize
  have hsettled := b.settled_of_mem_passes hx
  obtain ⟨q, hq, hmade, hcode, log, hafter⟩ := Context.routine_of_function hsettled.step
  have hf := (Resolved.Program.mem_of_function? hsettled.known).1
  obtain ⟨i, hi, hfunc⟩ := List.mem_filterMap.1 hf
  refine ⟨q.code, hcode, hmade.legal_code (Or.inl rfl) ⟨fun e he => ?_, fun r hr => ?_,
    fun l hl => ?_, fun call hcall => ?_⟩⟩
  · refine Or.inr (hfinal.homes e (hsettled.homes e ?_))
    rw [hafter]
    exact he
  · refine Or.inr (hpasses x hx r ?_)
    rw [Pass.handedOut, hafter]
    exact hr
  · refine b.symbols_label (b.sect_mem hp hx) ?_
    rw [Code.labels_of_toSection hcode, hmade.labels_code]
    exact List.mem_cons_of_mem _ hl
  · refine b.symbols_call hp hfit hsize hi ?_
    cases i <;> cases hfunc
    exact hq ▸ hcall

/-- Every section was made of code that refers to known symbols. -/
theorem exists_code (b : Build ctx p a) (hp : p.WellScoped) (hfit : p.CallsFit)
    (hsize : b.size = ctx.options.registerCount.toNat) (h : sect ∈ a.sections) :
    ∃ name code, Code.toSection ctx.file ctx.options.emitComments name code = .ok sect ∧
      code.Legal b.symbols := by
  obtain ⟨k, hk⟩ := List.getElem?_of_mem h
  cases b.part hk with
  | main hcode => exact ⟨_, _, hcode, b.legal_main hp hfit hsize⟩
  | function _ hx => exact ⟨_, b.legal_pass hp hfit hsize hx⟩
  | finish _ hcode => exact ⟨_, _, hcode, by simp⟩

/-- Every instruction refers to known symbols. -/
theorem legal (b : Build ctx p a) (hp : p.WellScoped) (hfit : p.CallsFit)
    (hsize : b.size = ctx.options.registerCount.toNat) {i : Instruction}
    (hi : i ∈ a.instructions) : i.Legal b.symbols := by
  obtain ⟨sect, hsect, hi⟩ := List.mem_flatMap.1 hi
  obtain ⟨name, code, hcode, hlegal⟩ := b.exists_code hp hfit hsize hsect
  obtain ⟨l, hl, hgives⟩ := Code.exists_line_of_toSection hcode hi
  rw [Instruction.Legal, hgives.opcode, hgives.operands]
  exact hlegal l hl

/-- No label stands past the end of its section. -/
theorem position_le (b : Build ctx p a) (hp : p.WellScoped) (hfit : p.CallsFit)
    (hsize : b.size = ctx.options.registerCount.toNat) (h : sect ∈ a.sections) {e : Label × Nat}
    (he : e ∈ sect.labels) : e.2 ≤ sect.size := by
  obtain ⟨name, code, hcode, -⟩ := b.exists_code hp hfit hsize h
  exact Code.position_le_of_toSection hcode e he

end Build

end Chipwright.Lowering
