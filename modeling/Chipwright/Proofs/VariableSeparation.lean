import Chipwright.Proofs.Lowering.Temporaries
import Chipwright.Proofs.Lowering.Visits
import Chipwright.Proofs.RegisterSeparation

/-!
# Variables in scope share no registers

At every statement of a program, each variable that is visible there has a register of its own,
and whatever else is handed out while the statement is lowered is none of these registers. So a
value that has to go to a variable is moved there, unless it is the value of that variable
itself or an operator has already written it there.

Blocks give their registers back when they end, and functions start from an empty pool. What
carries the argument through is `Housed`: the registers of visible variables are live, also those
of variables that are hidden by others.

## Main definitions

* `Homes.Separate`: variables have registers, each its own
* `Visit.Separated`: what holds of a statement while it is lowered
* `Visit.Emitted`: the code of a statement is in the program

## Main statements

* `Program.variablesSeparate_of_generate`: all statements of a program that is lowered
-/
namespace Chipwright

/-- The variable that a statement gives a value, with the value. -/
def Resolved.Stmt.set? : Resolved.Stmt → Option (Variable × Resolved.Expr)
  | .define _ v e => some (v, e)
  | .assign _ v e => some (v, e)
  | _ => none

namespace Lowering

/-- The variables have registers, each its own. -/
structure Homes.Separate (homes : Homes) (visible : List Variable) : Prop where
  housed : ∀ v ∈ visible, ∃ r, homes.lookup v = some r
  injective : ∀ v ∈ visible, ∀ w ∈ visible, homes.lookup v = homes.lookup w → v = w

namespace Visit

/-- What holds of a statement while it is lowered. -/
structure Separated (x : Visit) : Prop where
  before : x.before.homes.Separate x.point.visible
  /-- The variable that the statement defines counts after it. -/
  after : x.after.homes.Separate (x.point.stmt.defines ++ x.point.visible)
  /-- Of the registers that are handed out, the first is the one of the variable that the
  statement defines, if it does. The others belong to no variable in scope. -/
  temporaries : ∃ temporaries own,
    x.after.pool.used = temporaries ++ own ++ x.before.pool.used ∧
    own.map some = (x.point.stmt.defines.map fun v => x.after.homes.lookup v) ∧
    ∀ r ∈ temporaries, ∀ v ∈ x.point.stmt.defines ++ x.point.visible,
      x.after.homes.lookup v ≠ some r
  /-- A value is moved to the register of a variable if it is not there already. -/
  delivered : ∀ v e, x.point.stmt.set? = some (v, e) →
    ∃ r note code, x.after.homes.lookup v = some r ∧
      x.code = .note note :: code ++ [.finish] ∧ Delivers v r e code

/-- The lines of a statement stand one after the other in a section of the program. -/
def Emitted (a : Assembly) (x : Visit) : Prop :=
  ∃ sect ∈ a.sections,
    x.code.lines.map Line.command <:+: sect.instructions.map Instruction.command

end Visit

/-! ### One statement -/

namespace Homes

variable {table homes : Homes} {visible : List Variable}

theorem separate_of_housed {pool : RegisterPool} (hhoused : Housed table visible pool)
    (htable : ∀ e ∈ homes, e ∈ table) (hcovers : homes.Covers visible) :
    homes.Separate visible := by
  refine ⟨fun v hv => hcovers.exists_lookup hv, fun v hv w hw heq => ?_⟩
  obtain ⟨r, hr⟩ := hcovers.exists_lookup hv
  exact hhoused.distinct v hv w hw r (htable _ (mem_of_lookup hr))
    (htable _ (mem_of_lookup (heq ▸ hr)))

end Homes

variable {ctx : Context} {table : Homes} {outer own : List Variable} {s₀ s₁ : State} {code : Code}

namespace Lowered

variable {st : Resolved.Stmt}

theorem separate_after (h : Lowered ctx table outer own st s₀ code s₁)
    (hcovers : s₀.homes.Covers (own ++ outer)) :
    s₁.homes.Separate (st.defines ++ (own ++ outer)) := by
  have heffect := Context.effect_of_stmt st h.lowered
  exact Homes.separate_of_housed (h.housed.of_effect heffect h.unique h.homes) h.homes
    (hcovers.of_effect heffect)

/-- A variable of an expression that is in the register of the target is the target. -/
theorem delivers {v : Variable} {e : Resolved.Expr} {r : Register} {c : ExprContext}
    {pool pool' : RegisterPool} {code₁ : Code} (h : Lowered ctx table outer own st s₀ code s₁)
    (hcovers : s₀.homes.Covers (own ++ outer)) (hlower : c.lowerInto e r pool = .ok (code₁, pool'))
    (hc : c.homes = s₁.homes) (hvars : ∀ w ∈ e.vars, w ∈ own ++ outer)
    (hv : v ∈ st.defines ++ (own ++ outer)) (hr : s₁.homes.lookup v = some r) :
    Delivers v r e code₁ := by
  refine ExprContext.delivers_of_lowerInto hlower fun w hw hlookup => ?_
  refine (h.separate_after hcovers).injective w (List.mem_append_right _ (hvars w hw)) v hv ?_
  rw [← hc, hlookup, hc, hr]

theorem separated (h : Lowered ctx table outer own st s₀ code s₁)
    (hcovers : s₀.homes.Covers (own ++ outer)) :
    Visit.Separated ⟨⟨own ++ outer, st⟩, s₀, code, s₁⟩ where
  before := by
    have heffect := Context.effect_of_stmt st h.lowered
    exact Homes.separate_of_housed h.housed (fun e he => h.homes e (heffect.mem_homes he)) hcovers
  after := h.separate_after hcovers
  temporaries := by
    obtain ⟨temporaries, taken, htaken, hused, hapart⟩ := Context.handsOut_of_stmt h.lowered
    refine ⟨temporaries, taken, hused, htaken, fun r hr v hv hlookup => ?_⟩
    rcases List.mem_append.1 hv with hv | hv
    · have hmem : some r ∈ taken.map some := by
        rw [htaken, ← hlookup]
        exact List.mem_map_of_mem hv
      obtain ⟨r', hr', heq⟩ := List.mem_map.1 hmem
      cases heq
      exact (hapart r hr).1 hr'
    · refine (hapart r hr).2 ?_
      exact h.housed.live v hv r (h.homes _ (mem_of_lookup hlookup))
  delivered := by
    intro v e hset
    cases st with
    | define pos w value =>
      cases hset
      cases Context.lowers_of_stmt h.lowered with
      | define r _ hlower =>
        exact ⟨r, _, _, by simp, rfl,
          h.delivers hcovers hlower rfl h.visible (List.mem_cons_self ..) (by simp)⟩
    | assign pos w value =>
      cases hset
      cases Context.lowers_of_stmt h.lowered with
      | assign r hr hlower =>
        exact ⟨r, _, _, hr, rfl, h.delivers hcovers hlower rfl h.visible.1 h.visible.2 hr⟩
    | _ => cases hset

end Lowered

/-! ### All statements -/

/-- The visits come to the given statements, all of them separated, and their code is part of
the given code. -/
structure Tour (visits : List Visit) (points : List Resolved.Point) (code : Code) : Prop where
  points : visits.map Visit.point = points
  separated : ∀ x ∈ visits, x.Separated
  code : ∀ x ∈ visits, x.code <:+: code

namespace Tour

variable {visits visits' : List Visit} {points points' : List Resolved.Point} {code' : Code}

theorem nil (code : Code) : Tour [] [] code := ⟨rfl, by simp, by simp⟩

theorem append (h : Tour visits points code) (h' : Tour visits' points' code) :
    Tour (visits ++ visits') (points ++ points') code := by
  refine ⟨by rw [List.map_append, h.points, h'.points], fun x hx => ?_, fun x hx => ?_⟩
  · exact (List.mem_append.1 hx).elim (h.separated x) (h'.separated x)
  · exact (List.mem_append.1 hx).elim (h.code x) (h'.code x)

theorem of_part (h : Tour visits points code) (hcode : code <:+: code') :
    Tour visits points code' :=
  ⟨h.points, h.separated, fun x hx => (h.code x hx).trans hcode⟩

theorem singleton {x : Visit} (h : x.Separated) : Tour [x] [x.point] x.code :=
  ⟨rfl, by simpa using h, by simp⟩

end Tour

/-- The body of a statement was lowered where the variables that it can see are housed. -/
theorem Setting.opened (h : Setting table outer own s₀ s₁) {steps : Lower Unit}
    {body : List Resolved.Stmt} {s s' : State} {code₁ : Code}
    (hopened : Opened ctx steps body s₀ code s₁ s code₁ s')
    (hvisible : Resolved.Stmt.AllScoped outer own body) :
    LoweredAll ctx table outer own body s code₁ s' := by
  obtain ⟨pool, htakes, hpool⟩ := hopened.pool
  exact ⟨h.inner htakes hpool hopened.table, hopened.lowered, hvisible⟩

theorem Opened.andVisit {steps : Lower Unit} {body : List Resolved.Stmt} {s s' : State}
    {code₁ : Code} (h : Opened ctx steps body s₀ code s₁ s code₁ s') (next : State → List Visit) :
    steps.andVisit next s₀ = next s := by
  rw [Lower.andVisit, h.steps]

mutual

/-- Every statement inside a statement is visited. -/
theorem tour_inside :
    ∀ (st : Resolved.Stmt) {own : List Variable} {s₀ s₁ : State} {code : Code},
      Lowered ctx table outer own st s₀ code s₁ → s₀.homes.Covers (own ++ outer) →
        Tour (ctx.inside (own ++ outer) st s₀) (st.innerPoints (own ++ outer)) code
  | .block body, own, s₀, s₁, code, h, hcovers => by
    obtain ⟨s, code₁, s', hopened⟩ := Context.opened_block h.lowered
    rw [Context.inside, hopened.andVisit]
    exact (tour_visits body (h.opened hopened h.visible) (hcovers.mono hopened.homes)).of_part
      hopened.code
  | .loop pos body, own, s₀, s₁, code, h, hcovers => by
    obtain ⟨s, code₁, s', hopened⟩ := Context.opened_loop h.lowered
    rw [Context.inside, hopened.andVisit]
    exact (tour_visits body (h.opened hopened h.visible) (hcovers.mono hopened.homes)).of_part
      hopened.code
  | .ifThen pos e body, own, s₀, s₁, code, h, hcovers => by
    obtain ⟨s, code₁, s', hopened⟩ := Context.opened_ifThen h.lowered
    rw [Context.inside, hopened.andVisit]
    exact (tour_visits body (h.opened hopened h.visible.2) (hcovers.mono hopened.homes)).of_part
      hopened.code
  | .ifElse pos e thenBody elseBody, own, s₀, s₁, code, h, hcovers => by
    obtain ⟨⟨s, code₁, s', hthen⟩, ⟨t, code₂, t', helse⟩⟩ := Context.opened_ifElse h.lowered
    rw [Context.inside, hthen.andVisit, helse.andVisit]
    have hthen' := tour_visits thenBody (h.opened hthen h.visible.2.1) (hcovers.mono hthen.homes)
    have helse' := tour_visits elseBody (h.opened helse h.visible.2.2) (hcovers.mono helse.homes)
    exact (hthen'.of_part hthen.code).append (helse'.of_part helse.code)
  | .define .., _, _, _, _, _, _ | .assign .., _, _, _, _, _, _ | .call .., _, _, _, _, _, _
  | .read .., _, _, _, _, _, _ | .write .., _, _, _, _, _, _ | .yield _, _, _, _, _, _, _ => .nil _

/-- Every statement of a block is visited. -/
theorem tour_visits :
    ∀ (sts : List Resolved.Stmt) {own : List Variable} {s₀ s₁ : State} {code : Code},
      LoweredAll ctx table outer own sts s₀ code s₁ → s₀.homes.Covers (own ++ outer) →
        Tour (ctx.visits (own ++ outer) sts s₀) (Resolved.Stmt.points (own ++ outer) sts) code
  | [], _, _, _, _, _, _ => .nil _
  | st :: sts, own, s₀, s₁, code, h, hcovers => by
    obtain ⟨code₁, s, code₂, h₁, h₂, rfl⟩ := h.cons
    have hcovers' : s.homes.Covers ((st.defines ++ own) ++ outer) := by
      rw [List.append_assoc]
      exact hcovers.of_effect (Context.effect_of_stmt st h₁.lowered)
    have hrest := tour_visits sts h₂ hcovers'
    rw [List.append_assoc] at hrest
    have hfirst := (Tour.singleton (h₁.separated hcovers)).append (tour_inside st h₁ hcovers)
    rw [Context.visits, h₁.lowered]
    exact (hfirst.of_part (List.prefix_append _ _).isInfix).append
      (hrest.of_part (List.suffix_append _ _).isInfix)

end

/-- Every statement of the top-level code is visited. -/
theorem tour_itemVisits (is : List Resolved.Item)
    (h : LoweredItems ctx table own is s₀ code s₁) (hcovers : s₀.homes.Covers own) :
    Tour (ctx.itemVisits own is s₀)
      (Resolved.Stmt.points own (is.filterMap Resolved.Item.stmt?)) code := by
  induction is generalizing own s₀ code with
  | nil => exact .nil _
  | cons i is ih =>
    obtain ⟨code₁, s, code₂, hcode, ⟨st, rfl, hst, hrest⟩ | ⟨hnone, -⟩⟩ := h.cons
    · have hcovers' := hcovers.of_effect (Context.effect_of_stmt st hst.lowered)
      have hcovers₀ : s₀.homes.Covers (own ++ []) := by simpa using hcovers
      have hfirst := (Tour.singleton (hst.separated hcovers₀)).append
        (tour_inside st hst hcovers₀)
      rw [List.append_nil] at hfirst
      rw [hcode, Context.itemVisits, hst.lowered]
      exact (hfirst.of_part (List.prefix_append _ _).isInfix).append
        ((ih hrest hcovers').of_part (List.suffix_append _ _).isInfix)
    · obtain ⟨code₁, s, code₂, rfl, hitem, ⟨devices, rfl⟩, -, hrest⟩ :=
        h.cons_of_stmt?_eq_none hnone
      have hvisits : ctx.itemVisits own (i :: is) s₀ =
          (ctx.item i).andVisit (ctx.itemVisits own is) s₀ := by
        cases i with
        | stmt st => cases hnone
        | _ => rfl
      rw [hvisits, Lower.andVisit, hitem, List.filterMap_cons_none hnone]
      exact (ih hrest hcovers).of_part (List.suffix_append _ _).isInfix

namespace Build

variable {p : Resolved.Program} {a : Assembly}

/-- The visits to all statements of a program that was lowered. -/
def visits (b : Build ctx p a) : List Visit :=
  ctx.itemVisits [] p.items { pool := RegisterPool.fresh b.size [] } ++
    b.passes.flatMap (ctx.passVisits p b.top.globalRegisters)

theorem visits_eq {file : String} {options : Options}
    (b : Build ⟨file, options, p⟩ p a)
    (hsize : RegisterPool.ofCount options.registerCount [] = .ok (.fresh b.size [])) :
    p.visits file options = .ok b.visits := by
  rw [Resolved.Program.visits, hsize, b.history_eq hsize]
  rfl

theorem tour_main (b : Build ctx p a) (hp : p.WellScoped) :
    Tour (ctx.itemVisits [] p.items { pool := RegisterPool.fresh b.size [] })
      (Resolved.Stmt.points [] p.main) b.code :=
  tour_itemVisits p.items (b.lowered hp) (by simp [Homes.Covers])

/-- The statements of a function are visited where its parameters and the global variables have
registers. -/
theorem tour_pass (b : Build ctx p a) (hp : p.WellScoped) {x : Pass} (hx : x ∈ b.passes) :
    ∃ code, Code.toSection ctx.file ctx.options.emitComments x.function.name code =
        .ok x.sect ∧
      Tour (ctx.passVisits p b.top.globalRegisters x)
        (Resolved.Stmt.points (x.function.params ++ p.globals) x.function.body) code := by
  have hsettled := b.settled_of_mem_passes hx
  obtain ⟨r, entry, s, body, s', log, henter, hbody, hsect, hafter⟩ :=
    Context.function_eq_ok hsettled.step
  obtain ⟨rs, hmade⟩ := Context.made_of_enter henter hbody
  have hmem := (Resolved.Program.mem_of_function? hsettled.known).1
  have htable : ∀ e ∈ s'.homes, e ∈ b.table := fun e he =>
    hsettled.homes e (by rw [hafter]; exact he)
  have hlowered := hmade.lowered (hp.function _ hmem) (b.nodup_table hp) htable
    (fun v hv r hr => b.mem_globalRegisters hp hv hr) (b.housed_globals hp).distinct
  have hcovers : s.homes.Covers (x.function.params ++ p.globals) := by
    have hhomes : s.homes = (x.function.params.zip rs).reverse ++ x.before.homes := hmade.homes
    intro v hv
    rw [hhomes]
    rcases List.mem_append.1 hv with hv | hv
    · rw [← List.map_fst_zip (Nat.le_of_eq hmade.length.symm)] at hv
      obtain ⟨⟨v, r⟩, hr, rfl⟩ := List.mem_map.1 hv
      exact ⟨r, List.mem_append_left _ (List.mem_reverse.2 hr)⟩
    · obtain ⟨r, hr⟩ := (b.describes hp).globals v hv
      exact ⟨r, List.mem_append_right _ (Context.mem_before_of_passes b.passed hx hr)⟩
  refine ⟨_, hsect, ?_⟩
  rw [Context.passVisits, Lower.andVisit, henter]
  exact (tour_visits _ hlowered hcovers).of_part (List.infix_append _ _ _)

/-- The functions are lowered one by one. -/
theorem passes_perm (b : Build ctx p a) (hp : p.WellScoped) :
    (b.passes.map Pass.function).Perm p.functions := by
  have hnames : (b.passes.map fun x => x.function.name).Nodup := by
    rw [Context.names_of_passes b.passed]
    exact order_nodup hp
  have hnodup : (b.passes.map Pass.function).Nodup :=
    List.Nodup.of_map Resolved.Function.name (by simpa [Function.comp_def] using hnames)
  refine (List.perm_ext_iff_of_nodup hnodup (List.Nodup.of_map _ hp.names)).2 fun f => ?_
  constructor
  · intro hf
    obtain ⟨x, hx, rfl⟩ := List.mem_map.1 hf
    exact (Resolved.Program.mem_of_function? (b.settled_of_mem_passes hx).known).1
  · intro hf
    obtain ⟨x, hx, rfl⟩ := (b.describes hp).functions f hf
    exact List.mem_map_of_mem hx

/-- Every statement is visited once. -/
theorem points_visits (b : Build ctx p a) (hp : p.WellScoped) :
    (b.visits.map Visit.point).Perm p.points := by
  have hpasses : (b.passes.flatMap (ctx.passVisits p b.top.globalRegisters)).map Visit.point =
      (b.passes.map Pass.function).flatMap
        fun f => Resolved.Stmt.points (f.params ++ p.globals) f.body := by
    rw [List.map_flatMap, List.flatMap_map]
    refine List.flatMap_congr fun x hx => ?_
    obtain ⟨code, -, htour⟩ := b.tour_pass hp hx
    exact htour.points
  rw [visits, List.map_append, (b.tour_main hp).points, hpasses]
  exact ((b.passes_perm hp).flatMap_right _).append_left _

/-- Code that is part of the code of a section is in the program. -/
theorem emitted_of_part {x : Visit} {sect : Section} {name : String} (hsect : sect ∈ a.sections)
    (hcode : Code.toSection ctx.file ctx.options.emitComments name code = .ok sect)
    (hx : x.code <:+: code) : x.Emitted a := by
  refine ⟨sect, hsect, ?_⟩
  rw [Code.commands_of_toSection hcode]
  exact (hx.filterMap _).map _

end Build

end Lowering

open Lowering

/-- In every program that can be resolved and lowered, each statement is visited once, with the
variables in scope in registers of their own and all temporaries in others. -/
theorem Program.variablesSeparate_of_generate {file source : String} {strict : Bool}
    {limits : Limits} {options : Options} {p : Program} {r : Resolved.Program} {g : Generated}
    (hresolve : p.resolve source strict limits = .ok r)
    (hgenerate : (r.generate file options).2 = .ok g) :
    ∃ visits, r.visits file options = .ok visits ∧ (visits.map Visit.point).Perm r.points ∧
      ∀ x ∈ visits, x.Separated ∧ x.Emitted g.assembly := by
  have hp := wellScoped_of_resolve hresolve
  obtain ⟨b, hsize⟩ := Resolved.Program.build_of_generate hgenerate
  refine ⟨b.visits, b.visits_eq hsize, b.points_visits hp, fun x hx => ?_⟩
  rcases List.mem_append.1 hx with hx | hx
  · have hmain := b.tour_main hp
    obtain ⟨sect, hsect, hcode⟩ := b.mainSection
    exact ⟨hmain.separated x hx, Build.emitted_of_part (List.mem_of_getElem? hsect) hcode
      ((hmain.code x hx).trans (List.prefix_append _ _).isInfix)⟩
  · obtain ⟨y, hy, hx⟩ := List.mem_flatMap.1 hx
    obtain ⟨code, hcode, htour⟩ := b.tour_pass hp hy
    exact ⟨htour.separated x hx,
      Build.emitted_of_part (b.sect_mem hp hy) hcode (htour.code x hx)⟩

/-- The program `let x = 1; { let y = x + 2; x = y; } let z = x; fn f(a) { let t = a * (x + a);
x = x; z = t; } f(z);`, in which `z` gets the register that `y` had. -/
def Program.reuse : Program where
  statements := [
    .define .first (.unplaced "x") (.literal .first (.int 1)),
    .block .first [
      .define .first (.unplaced "y")
        (.binary .add (.name (.unplaced "x")) (.literal .first (.int 2))),
      .assign (.unplaced "x") (.name (.unplaced "y"))],
    .define .first (.unplaced "z") (.name (.unplaced "x")),
    .function .first (.unplaced "f") [.unplaced "a"] .first [
      .define .first (.unplaced "t") (.binary .mul (.name (.unplaced "a"))
        (.binary .add (.name (.unplaced "x")) (.name (.unplaced "a")))),
      .assign (.unplaced "x") (.name (.unplaced "x")),
      .assign (.unplaced "z") (.name (.unplaced "t"))],
    .call (.unplaced "f") [.name (.unplaced "z")]]

theorem Program.reuse_variablesSeparate : ∃ r g, reuse.resolve "reuse" true = .ok r ∧
    (r.generate "reuse" {}).2 = .ok g ∧
    ∃ visits, r.visits "reuse" {} = .ok visits ∧ (visits.map Visit.point).Perm r.points ∧
      ∀ x ∈ visits, x.Separated ∧ x.Emitted g.assembly := by
  have hsome : ((reuse.resolve "reuse" true).toOption.bind fun r =>
      (r.generate "reuse" {}).2.toOption).isSome := by decide +kernel
  obtain ⟨g, hg⟩ := Option.isSome_iff_exists.1 hsome
  obtain ⟨r, hr, hg⟩ := Option.bind_eq_some_iff.1 hg
  rw [toOption_eq_some] at hr hg
  exact ⟨r, g, hr, hg, variablesSeparate_of_generate hr hg⟩

end Chipwright
