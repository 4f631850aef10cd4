import Chipwright.Proofs.ControlFlow
import Chipwright.Proofs.Lowering.Calls

/-!
# What a call leaves unchanged

After a call, the variables that can be seen at it have the values that they had before, except
for global variables that the function, or one that it calls in turn, assigns to.

This is so for the calls of functions, and for global variables everywhere. A variable of a block
of the top-level code is in one case not safe: once its block is closed its register is free, a
global variable that is defined later can get it, and a function that assigns to that variable can
be called from within the block. `Program.late_overwrites` is such a program.

## Main definitions

* `Linked.CallRun` — a run from a call on, until the call returns.
* `Resolved.Program.Changes` — a global variable that a call may change.
* `SafeCall` — what a call of a program leaves unchanged.

## Main statements

* `Program.safeCalls_of_generate` — all calls of a program, in the order of the source.
* `Program.late_overwrites` — a call that changes a variable of a block.
-/
namespace Chipwright

/-- A run from a call on, while the call is open; without open calls, it has just returned. -/
inductive Linked.CallRun {V : Type} (w : World V) (p : Linked) (m : Machine V) :
    List OpenCall → Machine V → Prop
  | call {c : OpenCall} {calls : List OpenCall} {m₁ : Machine V} :
    p.track w ([], m) = some (c :: calls, m₁) → CallRun w p m (c :: calls) m₁
  | step {c : OpenCall} {calls calls' : List OpenCall} {m₁ m₂ : Machine V} :
    CallRun w p m (c :: calls) m₁ → p.track w (c :: calls, m₁) = some (calls', m₂) →
      CallRun w p m calls' m₂

/-- The state in which the open calls have returned, after at most a number of lines. -/
def Linked.returnFor {V : Type} (w : World V) (p : Linked) :
    Nat → List OpenCall × Machine V → Option (Machine V)
  | 0, _ => none
  | n + 1, s =>
    (p.track w s).bind fun s' => if s'.1.isEmpty then some s'.2 else p.returnFor w n s'

theorem Linked.CallRun.of_returnFor {V : Type} {w : World V} {p : Linked} {m m₁ m' : Machine V}
    {n : Nat} {calls : List OpenCall} (hrun : p.CallRun w m calls m₁) (hcalls : calls ≠ [])
    (h : p.returnFor w n (calls, m₁) = some m') : p.CallRun w m [] m' := by
  induction n generalizing calls m₁ with
  | zero => cases h
  | succ n ih =>
    obtain ⟨c, calls, rfl⟩ := List.exists_cons_of_ne_nil hcalls
    obtain ⟨⟨calls', m₂⟩, htrack, h⟩ := Option.bind_eq_some_iff.1 h
    have hstep := hrun.step htrack
    split at h
    · rename_i hempty
      obtain rfl : calls' = [] := List.isEmpty_iff.1 hempty
      cases h
      exact hstep
    · rename_i hopen
      exact ih hstep (by simpa using hopen) h

/-- A global variable that a function assigns to or reads into, itself or through others. -/
def Resolved.Program.Changes (p : Resolved.Program) (f : String) (v : Variable) : Prop :=
  v ∈ p.globals ∧
    ∃ g ∈ p.functions, p.Reaches f g.name ∧ v ∈ Resolved.Stmt.targetsAll g.body

/-- The calls of a function, or of the top-level code, with the variables that are visible. -/
def Resolved.Program.sites (p : Resolved.Program) : Option String → List Resolved.Stmt.Site
  | none => Resolved.Stmt.sitesAll [] p.main
  | some name =>
    match p.function? name with
    | some f => Resolved.Stmt.sitesAll (f.params ++ p.globals) f.body
    | none => []

/-- The lines of a section that call. -/
def Assembly.callLines (a : Assembly) (linked : Linked) (k : Nat) : List Nat :=
  linked.callLines (a.start k) (a.start (k + 1) - a.start k)

/-- A variable was given a register. -/
def Lowering.History.Houses (h : Lowering.History) (v : Variable) (r : Register) : Prop :=
  (v, r) ∈ h.main.homes ∨ ∃ x ∈ h.passes, (v, r) ∈ x.after.homes

/-- What holds of a call on a line, in the code of a function or in the top-level code. -/
structure SafeCall (p : Resolved.Program) (a : Assembly) (linked : Linked)
    (h : Lowering.History) (unit : Option String) (n : Nat) (site : Resolved.Stmt.Site) :
    Prop where
  /-- The line goes to the first line of the function. -/
  entry : ∃ k, p.sectionIndex? (some site.callee) = some k ∧
    ∀ {V : Type} (w : World V) (m : Machine V), m.line = n →
      ∃ m', linked.track w ([], m) = some ([⟨a.start k, n + 1⟩], m') ∧ m'.line = a.start k
  /-- When the call returns, a visible variable that it may not change has kept its value, unless
  it belongs to a block of the top-level code and shares its register with a global variable that
  is defined later. -/
  unchanged : ∀ {V : Type} (w : World V) (m m' : Machine V), m.line = n →
    linked.CallRun w m [] m' → m'.line = n + 1 ∧
      ∀ v ∈ site.visible, ¬ p.Changes site.callee v → ∀ r, h.Houses v r →
        m'.registers r = m.registers r ∨
          unit = none ∧ v ∉ p.globals ∧
            ∃ v', p.Changes site.callee v' ∧ v' ∉ site.visible ∧ h.Houses v' r

namespace Lowering.Build

variable {x : Activation}

variable {V : Type} {w : World V} {image : Image} {m m' : Machine V} {ctx : Context}
  {p : Resolved.Program} {a : Assembly} {b : Build ctx p a}

/-! ## Runs of a call -/

/-- The first activation of a call: it is of the given function, returns to the given line and
keeps the given registers. -/
structure CalledWith (f : String) (back : Nat) (live : List Register) (x : Activation) : Prop where
  name : x.name = f
  back : x.back = back
  kept : ∀ r ∈ live, r ∈ x.routine.kept

/-- All functions with an activation are reached from one at the bottom. -/
theorem Stack.reaches {bottom : Activation → Prop} {rest : List Activation}
    (h : b.Stack bottom (x :: rest)) : ∃ y, bottom y ∧ p.Reaches y.name x.name := by
  induction rest generalizing x with
  | nil =>
    cases h with
    | first _ hbottom => exact ⟨x, hbottom, .refl⟩
  | cons y rest ih =>
    cases h with
    | call _ hcalls hrest =>
      obtain ⟨z, hz, hreaches⟩ := ih hrest
      exact ⟨z, hz, hreaches.tail hcalls.callee⟩

/-- What a line of an activation changes among the registers that are live at the call. -/
theorem Stack.changes_of_mayChange {f : String} {back : Nat} {live : List Register}
    {rest : List Activation} (h : b.Stack (CalledWith f back live) (x :: rest)) {r : Register}
    (hr : r ∈ live) (hmay : b.MayChange x.routine r) : ∃ v, p.Changes f v ∧ (v, r) ∈ b.table := by
  rcases hmay with hfree | ⟨v, htarget, hglobal, htable⟩
  · exact absurd (h.kept (fun y hy => hy.kept) r hr) hfree
  · obtain ⟨y, hy, hreaches⟩ := h.reaches
    refine ⟨v, ⟨hglobal, x.routine.function, ?_, hy.name ▸ hreaches, htarget⟩, htable⟩
    exact List.mem_of_getElem? h.settled.function

/-- While a call is open, and when it has returned, a register that was live at the call has the
value that it had, unless it belongs to a variable that the call changes. -/
theorem registers_of_callRun (hp : p.WellScoped) (hlayout : b.Layout image) {f : String}
    {live : List Register} (hx : b.Settled x.index x.routine)
    (hbottom : CalledWith f (m.line + 1) live x)
    (hcall : image.linked.track w ([], m) = some ([x.openCall a], x.entered a w m))
    {calls : List OpenCall} (h : image.linked.CallRun w m calls m') :
    (calls = [] ∧ m'.line = m.line + 1 ∨ ∃ y rest, calls = (y :: rest).map (·.openCall a) ∧
        b.Running w (CalledWith f (m.line + 1) live) y rest m') ∧
      ∀ r ∈ live, r ≠ .ra → m'.registers r ≠ m.registers r →
        ∃ v, p.Changes f v ∧ (v, r) ∈ b.table := by
  induction h with
  | call htrack =>
    rw [hcall, Option.some.injEq, Prod.mk.injEq] at htrack
    obtain ⟨hcalls, rfl⟩ := htrack
    refine ⟨Or.inr ⟨x, [], hcalls.symm, .enter hlayout (.first hx hbottom) (by simp)⟩, ?_⟩
    intro r _ hra hne
    exact absurd (Activation.entered_registers hra) hne
  | @step c calls calls' m₁ m₂ _ htrack ih =>
    obtain ⟨hstate, hregisters⟩ := ih
    obtain ⟨y, rest, hcalls, hrunning⟩ := hstate.resolve_left (by simp)
    rw [hcalls] at htrack
    -- a register that changes now, or has changed before
    have hchanged : ∀ r, m₂.registers r ≠ m.registers r →
        m₂.registers r ≠ m₁.registers r ∨ m₁.registers r ≠ m.registers r := by
      intro r hne
      by_cases heq : m₁.registers r = m.registers r
      · exact Or.inl (heq ▸ hne)
      · exact Or.inr heq
    rcases hrunning.track hp hlayout ((y :: rest).map (·.openCall a)) with
      ⟨m₃, htrack', hrunning', hmay⟩ | ⟨z, htrack', hrunning', -⟩ | ⟨htrack', -, -, -⟩
    · rw [htrack', Option.some.injEq, Prod.mk.injEq] at htrack
      obtain ⟨rfl, rfl⟩ := htrack
      refine ⟨Or.inr ⟨y, rest, rfl, hrunning'⟩, fun r hr hra hne => ?_⟩
      rcases hchanged r hne with hne | hne
      · exact hrunning.stack.changes_of_mayChange hr (hmay r hne)
      · exact hregisters r hr hra hne
    · rw [htrack', Option.some.injEq, Prod.mk.injEq] at htrack
      obtain ⟨rfl, rfl⟩ := htrack
      refine ⟨Or.inr ⟨z, y :: rest, rfl, hrunning'⟩, fun r hr hra hne => ?_⟩
      rcases hchanged r hne with hne | hne
      · exact absurd (Activation.entered_registers hra) hne
      · exact hregisters r hr hra hne
    · rw [htrack', Option.some.injEq, Prod.mk.injEq] at htrack
      obtain ⟨rfl, rfl⟩ := htrack
      refine ⟨?_, hregisters⟩
      cases rest with
      | nil =>
        cases hrunning.stack with
        | first _ hfirst => exact Or.inl ⟨rfl, hfirst.back⟩
      | cons z rest => exact Or.inr ⟨z, rest, rfl, hrunning.pop⟩

/-! ## Calls of a program -/

/-- A line that calls a function, in surroundings where all that is visible is housed. -/
theorem safeCall (hp : p.WellScoped) (hlayout : b.Layout image) {unit : Option String} {n : Nat}
    {site : Resolved.Stmt.Site} {l : Line} {pool : RegisterPool} (hline : image.HasLine n l)
    (hl : l.callee? = some site.callee) (hcallee : site.callee ∈ p.callGraph.callees unit)
    (hnoted : (site.callee, pool.live) ∈ b.calls) (hhoused : Housed b.table site.visible pool)
    (hunit : unit ≠ none → ∀ v ∈ p.globals, v ∈ site.visible) :
    SafeCall p a image.linked b.history unit n site := by
  obtain ⟨k, q, hq, hname, hkept⟩ := b.exists_callee hp hcallee hnoted
  obtain ⟨opcode, operands, origin⟩ := l
  obtain ⟨rfl, rfl⟩ := Line.opcode_of_callee? hl
  have haddress := (hlayout.parts hq).address
  rw [hname] at haddress
  -- what the line itself does
  have hcall : ∀ {V : Type} (w : World V) (m : Machine V), m.line = n →
      image.linked.track w ([], m) = some ([Activation.openCall a ⟨k, q, n + 1⟩],
        Activation.entered a w ⟨k, q, n + 1⟩ m) := by
    rintro V w m rfl
    exact hline.track_call (hline.step?_call haddress) rfl []
  refine ⟨⟨k + 1, hname ▸ hq.sectionIndex? hp, fun w m hm => ⟨_, hcall w m hm, rfl⟩⟩, ?_⟩
  rintro V w m m' rfl hrun
  have hbottom : CalledWith site.callee (m.line + 1) pool.live ⟨k, q, m.line + 1⟩ :=
    ⟨hname, rfl, hkept⟩
  obtain ⟨hstate, hregisters⟩ := registers_of_callRun hp hlayout hq hbottom (hcall w m rfl) hrun
  refine ⟨(hstate.resolve_right (by simp)).2, fun v hv hunchanged r hr => ?_⟩
  have htable : (v, r) ∈ b.table := by
    rcases hr with hr | ⟨x, hx, hr⟩
    · exact b.grows.homes _ hr
    · exact (b.settled_of_mem_passes hx).homes _ hr
  by_cases heq : m'.registers r = m.registers r
  · exact Or.inl heq
  right
  obtain ⟨v', hchanges, htable'⟩ :=
    hregisters r (hhoused.live v hv r htable) (b.ne_ra htable) heq
  have hne : v ≠ v' := fun heq => hunchanged (heq ▸ hchanges)
  have hhidden : v' ∉ site.visible := fun hv' => hne (hhoused.distinct v hv v' hv' r htable htable')
  refine ⟨?_, fun hglobal => ?_, v', hchanges, hhidden, Or.inl ?_⟩
  · by_contra hsome
    exact hhidden (hunit hsome v' hchanges.1)
  · exact hne ((b.housed_globals hp).distinct v hglobal v' hchanges.1 r htable htable')
  · obtain ⟨st, hst, hdefines⟩ := List.mem_flatMap.1 hchanges.1
    refine b.mem_top_homes hp (Resolved.Stmt.mem_bindsAll.2 ⟨st, hst, ?_⟩) htable'
    exact Resolved.Stmt.mem_binds_of_mem_defines hdefines

/-- The lines that call are safe, if each of them stands for a site and all sites are housed. -/
theorem forall₂_safeCall (hp : p.WellScoped) (hlayout : b.Layout image) {unit : Option String}
    {ns : List Nat} {sites : List Resolved.Stmt.Site}
    (hlines : List.Forall₂ (fun n f => ∃ l, image.HasLine n l ∧ l.callee? = some f) ns
      (sites.map Resolved.Stmt.Site.callee))
    (hsites : ∀ site ∈ sites, site.callee ∈ p.callGraph.callees unit ∧
      (unit ≠ none → ∀ v ∈ p.globals, v ∈ site.visible) ∧
      ∃ pool : RegisterPool, (site.callee, pool.live) ∈ b.calls ∧
        Housed b.table site.visible pool) :
    List.Forall₂ (SafeCall p a image.linked b.history unit) ns sites := by
  induction sites generalizing ns with
  | nil =>
    cases hlines
    exact .nil
  | cons site sites ih =>
    cases hlines with
    | cons hline hrest =>
      obtain ⟨l, hline, hl⟩ := hline
      obtain ⟨hcallee, hunit, pool, hnoted, hhoused⟩ := hsites site (List.mem_cons_self ..)
      exact .cons (safeCall hp hlayout hline hl hcallee hnoted hhoused hunit)
        (ih hrest fun site hsite => hsites site (List.mem_cons_of_mem _ hsite))

/-- The calls of the top-level code. -/
theorem safeCalls_main (hp : p.WellScoped) (hlayout : b.Layout image) :
    List.Forall₂ (SafeCall p a image.linked b.history none) (a.callLines image.linked 0)
      (p.sites none) := by
  have hfits := fits_of_items (b.lowered hp)
  have hlines := hlayout.main.callLines fun l hl hopcode => by
    rcases List.mem_append.1 hl with hl | hl
    · exact (hfits l hl).callee?_isSome hopcode
    · unfold exitCode at hl
      split at hl
      · cases hl
      · cases List.mem_singleton.1 hl
        cases hopcode
  have hexit : Code.signals (exitCode p) = [] := by
    unfold exitCode
    split <;> rfl
  have hsignals := signals_of_items b.items
  rw [← List.append_nil (Code.signals _), ← hexit, ← Code.signals_append] at hsignals
  rw [callees_of_signals hsignals, ← Resolved.Stmt.callee_sitesAll none [],
    ← hlayout.mainSize] at hlines
  have hstart : a.start 0 = 0 := rfl
  rw [Assembly.callLines, hstart, Nat.sub_zero]
  refine forall₂_safeCall hp hlayout hlines fun site hsite =>
    ⟨?_, fun hne => absurd rfl hne, ?_⟩
  · refine Resolved.Program.mem_callees_main ?_
    rw [← Resolved.Stmt.callee_sitesAll none []]
    exact List.mem_map_of_mem hsite
  · obtain ⟨pool, hnoted, hhoused⟩ := housed_of_items (b.lowered hp) site hsite
    exact ⟨pool, b.grows.calls _ hnoted, hhoused⟩

/-- The calls of a function. -/
theorem safeCalls_routine (hp : p.WellScoped) (hlayout : b.Layout image) {k : Nat} {q : Routine}
    (hq : b.Settled k q) :
    List.Forall₂ (SafeCall p a image.linked b.history (some q.function.name))
      (a.callLines image.linked (k + 1))
      (Resolved.Stmt.sitesAll (q.function.params ++ p.globals) q.function.body) := by
  obtain ⟨s, hmade⟩ := hq.made
  obtain ⟨hplaced, hsize⟩ := hlayout.routine k q hq
  have hfits := fits_of_stmts _ hq.lowered
  have hlines := hplaced.callLines fun l hl hopcode => by
    rcases hmade.mem_code hl with rfl | hl | rfl
    · cases hopcode
    · exact (hfits l hl).callee?_isSome hopcode
    · cases hopcode
  have hcode : Code.signals q.code = Code.signals q.body := by
    have hentry : Code.signals q.entry = [] := by
      cases hcalls : makesCalls p q.function.name with
      | true =>
        rw [hmade.entry_eq hcalls]
        rfl
      | false =>
        rw [(hmade.ret_eq hcalls).2]
        rfl
    simp [Routine.code, hentry, Signal.ofLine?]
  rw [callees_of_signals (hcode.trans (signals_of_stmts _ hq.lowered.lowered)),
    ← Resolved.Stmt.callee_sitesAll none (q.function.params ++ p.globals)] at hlines
  refine forall₂_safeCall hp hlayout (by simpa [Assembly.callLines, hsize] using hlines)
    fun site hsite => ⟨?_, fun _ v hv => ?_, ?_⟩
  · refine Resolved.Program.mem_callees (List.mem_of_getElem? hq.function) ?_
    rw [← Resolved.Stmt.callee_sitesAll none (q.function.params ++ p.globals)]
    exact List.mem_map_of_mem hsite
  · exact Resolved.Stmt.visible_of_mem_sitesAll _ hsite (List.mem_append_right _ hv)
  · obtain ⟨pool, hnoted, hhoused⟩ := housed_of_stmts _ hq.lowered site hsite
    exact ⟨pool, hq.calls _ hnoted, hhoused⟩

end Lowering.Build

open Lowering (Generated)

/-- In every program that can be resolved, lowered and linked, the lines of each section that call
are the calls of its code in the order of the source, and each of them is safe. -/
theorem Program.safeCalls_of_generate {file source : String} {strict : Bool} {limits : Limits}
    {options : Options} {p : Program} {r : Resolved.Program} {g : Generated} {linked : Linked}
    (hresolve : p.resolve source strict limits = .ok r)
    (hgenerate : (r.generate file options).2 = .ok g) (hlink : g.assembly.link = .ok linked) :
    ∃ h, r.history file options = .ok h ∧ ∀ unit k, r.sectionIndex? unit = some k →
      List.Forall₂ (SafeCall r g.assembly linked h unit) (g.assembly.callLines linked k)
        (r.sites unit) := by
  have hp := wellScoped_of_resolve hresolve
  obtain ⟨b, hsize⟩ := Resolved.Program.build_of_generate hgenerate
  obtain ⟨image, rfl, hlayout⟩ := b.layout_of_link hlink
  refine ⟨b.history, b.history_eq hsize, fun unit k hk => ?_⟩
  cases unit with
  | none =>
    cases hk
    exact b.safeCalls_main hp hlayout
  | some name =>
    obtain ⟨k, hfind, rfl⟩ := Option.map_eq_some_iff.1 hk
    obtain ⟨hlt, hname, -⟩ := List.findIdx?_eq_some_iff_getElem.1 hfind
    obtain ⟨q, hq, hsettled⟩ := b.exists_settled hp (List.getElem?_eq_getElem hlt)
    have hname : q.function.name = name := by
      rw [hq]
      simpa using hname
    have hfunction : r.function? name = some q.function := by
      rw [Resolved.Program.function?, List.find?_eq_bind_findIdx?_getElem?, hfind, hq]
      exact List.getElem?_eq_getElem hlt
    have hsafe := b.safeCalls_routine hp hlayout hsettled
    rw [hname] at hsafe
    simpa [Resolved.Program.sites, hfunction] using hsafe

theorem Program.chain_safeCalls : ∃ r g linked, chain.resolve "chain" true = .ok r ∧
    (r.generate "chain" {}).2 = .ok g ∧ g.assembly.link = .ok linked ∧
    ∃ h, r.history "chain" {} = .ok h ∧ ∀ unit k, r.sectionIndex? unit = some k →
      List.Forall₂ (SafeCall r g.assembly linked h unit) (g.assembly.callLines linked k)
        (r.sites unit) := by
  have hsome : ((chain.resolve "chain" true).toOption.bind fun r =>
      (r.generate "chain" {}).2.toOption.bind fun g => g.assembly.link.toOption).isSome := by
    decide +kernel
  obtain ⟨linked, hlinked⟩ := Option.isSome_iff_exists.1 hsome
  obtain ⟨r, hr, hlinked⟩ := Option.bind_eq_some_iff.1 hlinked
  obtain ⟨g, hg, hlinked⟩ := Option.bind_eq_some_iff.1 hlinked
  rw [toOption_eq_some] at hr hg hlinked
  exact ⟨r, g, linked, hr, hg, hlinked, safeCalls_of_generate hr hg hlinked⟩

/-- The program `{ let a = 1; f(); write a into d0.Setting; } let x = 0; fn f() { x = 5; }` -/
def Program.late : Program where
  statements := [
    .block .first [
      .define .first (.unplaced "a") (.literal .first (.int 1)),
      .call (.unplaced "f") [],
      .write .first (.name (.unplaced "a")) (.direct .first .d0) "Setting"],
    .define .first (.unplaced "x") (.literal .first (.int 0)),
    .function .first (.unplaced "f") [] .first [
      .assign (.unplaced "x") (.literal .first (.int 5))]]

/-- The variable of the block is `1` when the function is called and `5` when it returns. -/
theorem Program.late_overwrites : ∃ r g linked h, late.resolve "late" true = .ok r ∧
    (r.generate "late" {}).2 = .ok g ∧ g.assembly.link = .ok linked ∧
    r.history "late" {} = .ok h ∧
    ∃ site v reg m m', r.sites none = [site] ∧ g.assembly.callLines linked 0 = [m.line] ∧
      v ∈ site.visible ∧ ¬ r.Changes site.callee v ∧ h.Houses v reg ∧
      linked.Reachable .whole (fun _ => 0) [] m ∧ linked.CallRun .whole m [] m' ∧
      m.registers reg = 1 ∧ m'.registers reg = 5 := by
  have hsome : ((late.resolve "late" true).toOption.bind fun r =>
      (r.generate "late" {}).2.toOption.bind fun g => g.assembly.link.toOption.bind fun linked =>
      (r.history "late" {}).toOption.bind fun h =>
      (h.main.homes.find? fun e => e.1 ∉ r.globals).bind fun e =>
      (linked.trackFor .whole 1 ([], .start fun _ => 0)).bind fun s =>
      (linked.track .whole ([], s.2)).bind fun s' =>
      ((linked.returnFor .whole 2 s').filter fun m' =>
        s.1 = [] ∧ s'.1 ≠ [] ∧ g.assembly.callLines linked 0 = [s.2.line] ∧
          (r.sites none).map (·.visible) = [[e.1]] ∧ s.2.registers e.2 = 1 ∧
          m'.registers e.2 = 5)).isSome := by
    decide +kernel
  obtain ⟨m', hm'⟩ := Option.isSome_iff_exists.1 hsome
  obtain ⟨r, hr, hm'⟩ := Option.bind_eq_some_iff.1 hm'
  obtain ⟨g, hg, hm'⟩ := Option.bind_eq_some_iff.1 hm'
  obtain ⟨linked, hlinked, hm'⟩ := Option.bind_eq_some_iff.1 hm'
  obtain ⟨h, hh, hm'⟩ := Option.bind_eq_some_iff.1 hm'
  obtain ⟨e, he, hm'⟩ := Option.bind_eq_some_iff.1 hm'
  obtain ⟨s, hs, hm'⟩ := Option.bind_eq_some_iff.1 hm'
  obtain ⟨s', hs', hm'⟩ := Option.bind_eq_some_iff.1 hm'
  obtain ⟨hreturn, hcheck⟩ := Option.filter_eq_some_iff.1 hm'
  obtain ⟨hcalls, hopen, hlines, hsites, hbefore, hafter⟩ := of_decide_eq_true hcheck
  rw [toOption_eq_some] at hr hg hlinked hh
  obtain ⟨site, hsite, hvisible⟩ := List.map_eq_singleton_iff.1 hsites
  obtain ⟨c, calls, hcons⟩ := List.exists_cons_of_ne_nil hopen
  have hrun : linked.CallRun .whole s.2 s'.1 s'.2 := by
    rw [hcons]
    exact .call (by rw [← hcons]; exact hs')
  refine ⟨r, g, linked, h, hr, hg, hlinked, hh, site, e.1, e.2, s.2, m', hsite, hlines,
    by simp [hvisible], fun hchanges => ?_, Or.inl (List.mem_of_find?_eq_some he), ?_,
    hrun.of_returnFor hopen hreturn, hbefore, hafter⟩
  · have hlocal := List.find?_some he
    exact of_decide_eq_true hlocal hchanges.1
  · have hreachable := Linked.reflTransGen_of_trackFor hs
    rw [← hcalls]
    exact hreachable

end Chipwright
