import Chipwright.Proofs.CallSafety
import Chipwright.Proofs.LinkSafety
import Chipwright.Proofs.Lowering.Loops

/-!
# Loops that never yield

A loop whose body does not come to a `yield` is told in a warning, or refused if that is asked for.
When such a loop has been entered, no `yield` is executed any more: the chip stays at the lines of
the loop, apart from calls, and all functions that are active then were reached from a call in the
body.

The proof takes `Looping` along a run: as long as no call from the loop is open the chip is at one
of the lines of the loop, and a call from there opens the first activation.

## Main definitions

* `Assembly.LoopLines` — where a loop stands.
* `Linked.NeverYields` — no run that has come to some lines executes a `yield` any more.
* `Resolved.Program.LoopsHeeded` — what is told of the loops of a program, and holds of them.

## Main statements

* `Program.neverYields_of_generate` — from a loop on that does not come to a `yield`, none is
  executed.
* `Program.loopsHeeded_of_resolve` — the loops of every program are heeded.
-/
namespace Chipwright

open Resolved (Loop)

/-- The lines of the loop with a number: from the one after its label up to the jump back, which
is located where the loop stands in the source. -/
structure Assembly.LoopLines (a : Assembly) (location : Location) (n first last : Nat) : Prop where
  label : ∃ addresses, a.addresses = .ok addresses ∧ addresses.lookup (.loop n) = some first
  jump : ∃ i, a.instructions[last]? = some i ∧ i.opcode = .jump ∧
    i.operands = [.label (.loop n)] ∧ i.location = some location
  le : first ≤ last

/-- A run that has come to one of some lines executes no `yield` from then on, and it does not end.
Where all calls have returned that were made since, it is at one of the lines again. -/
def Linked.NeverYields (linked : Linked) (first last : Nat) : Prop :=
  ∀ {V : Type} (w : World V) (calls calls' : List OpenCall) (m m' : Machine V),
    first ≤ m.line → m.line ≤ last →
    Relation.ReflTransGen (fun s s' => linked.track w s = some s') (calls, m) (calls', m') →
      (∃ i, linked.instructions[m'.line]? = some i ∧ i.opcode ≠ .yield) ∧
      (linked.track w (calls', m')).isSome ∧
      ∃ opened, calls' = opened ++ calls ∧ (opened = [] → first ≤ m'.line ∧ m'.line ≤ last)

/-- What is so of the loops of a program that is lowered while loops that never yield are
allowed. -/
structure Resolved.Program.LoopsHeeded (p : Resolved.Program) (file : String) (options : Options)
    (g : Lowering.Generated) : Prop where
  /-- There is one warning for each loop that never yields. -/
  warnings : ((p.generate file options).1.filter (·.level = .warning)).map (·.message) =
    p.silentLoops.map fun l => (⟨file, options, p⟩ : Lowering.Context).loopWarning l.pos
  /-- Where such loops are refused, a program without any is lowered to the same. -/
  accepted : p.silentLoops = [] →
    (p.generate file { options with requireYield := true }).2 = .ok g
  /-- Otherwise the first one is reported. -/
  refused : ∀ l rest, p.silentLoops = l :: rest →
    (p.generate file { options with requireYield := true }).2 =
      .error (.located file l.pos .missingYield)
  succeeds_iff : (∃ g', (p.generate file { options with requireYield := true }).2 = .ok g') ↔
    p.silentLoops = []
  /-- When the lines of such a loop have been entered, no `yield` is executed. -/
  quiet : ∃ linked, g.assembly.link = .ok linked ∧
    ∀ (n : Nat) (l : Loop), p.loops[n]? = some l → l ∈ p.silentLoops →
      ∃ first last, g.assembly.LoopLines (l.pos.inFile file) n first last ∧
        linked.NeverYields first last

namespace Lowering.Build

variable {V : Type} {w : World V} {image : Image} {m m' : Machine V} {ctx : Context}
  {p : Resolved.Program} {a : Assembly} {b : Build ctx p a} {l : Loop} {first last : Nat}
  {calls calls' : List OpenCall} {xs : List Activation}

/-! ### Lines of a loop -/

/-- The code of a loop stands in a linked program. -/
structure LoopPlaced (b : Build ctx p a) (image : Image) (l : Loop) (first last : Nat) : Prop where
  body : ∃ code outer own s s', LoweredAll ctx b.table outer own l.body s code s' ∧
    (∀ e ∈ s'.liveAtCalls, e ∈ b.calls) ∧ image.Placed first code ∧
    last = first + Code.size code
  jump : ∃ label origin, image.HasLine last ⟨.jump, [.label label], origin⟩ ∧
    image.addresses.lookup label = some first
  callees : ∃ caller, ∀ f, Resolved.Stmt.HasCall l.body f → f ∈ p.callGraph.callees caller

/-- An activation that was called from one of the lines of a loop. -/
structure FromLoop (l : Loop) (first last : Nat) (x : Activation) : Prop where
  callee : Resolved.Stmt.HasCall l.body x.name
  first_le : first ≤ x.back
  le_last : x.back ≤ last

/-- What a line of a loop does: it goes on to a line of the loop, or calls a function. -/
theorem LoopPlaced.track (hp : p.WellScoped) (hlayout : b.Layout image)
    (h : b.LoopPlaced image l first last) (hfirst : first ≤ m.line) (hlast : m.line ≤ last)
    (calls : List OpenCall) :
    (∃ m', image.linked.track w (calls, m) = some (calls, m') ∧ first ≤ m'.line ∧
        m'.line ≤ last) ∨
      ∃ x : Activation, b.Settled x.index x.routine ∧ FromLoop l first last x ∧
        image.linked.track w (calls, m) = some (x.openCall a :: calls, x.entered a w m) := by
  obtain ⟨code, outer, own, s, s', hlowered, hcalls, hplaced, rfl⟩ := h.body
  rcases Nat.lt_or_eq_of_le hlast with hlt | heq
  · obtain ⟨caller, hcallees⟩ := h.callees
    rcases track_placed (w := w) hp hlayout hplaced (fits_of_stmts _ hlowered) hcalls
        (fun f hf => hcallees f (Resolved.Stmt.hasCall_iff.2 hf)) hfirst hlt calls with
      hstays | ⟨x, hx, hf, hback, htrack⟩
    · exact Or.inl hstays
    · exact Or.inr ⟨x, hx, ⟨Resolved.Stmt.hasCall_iff.2 hf, by omega, by omega⟩, htrack⟩
  · obtain ⟨label, origin, hjump, haddress⟩ := h.jump
    rw [← heq] at hjump
    refine Or.inl ⟨_, hjump.track_plain (hjump.step?_jump haddress) (by simp)
      (fun _ => ⟨label, rfl⟩) calls, Nat.le_refl _, ?_⟩
    exact Nat.le_add_right _ _

/-! ### Runs from a loop -/

/-- A state after a loop was entered: at one of its lines, or with activations that were called
from there. -/
inductive Looping (b : Build ctx p a) (w : World V) (l : Loop) (first last : Nat) :
    List Activation → Machine V → Prop
  | inside {m : Machine V} : first ≤ m.line → m.line ≤ last → Looping b w l first last [] m
  | running {x : Activation} {rest : List Activation} {m : Machine V} :
    b.Running w (FromLoop l first last) x rest m → Looping b w l first last (x :: rest) m

namespace Looping

/-- There is always a next state, and it is one after the loop was entered. -/
theorem step (hp : p.WellScoped) (hlayout : b.Layout image)
    (hloop : b.LoopPlaced image l first last) (h : b.Looping w l first last xs m)
    (calls : List OpenCall) :
    ∃ xs' m', image.linked.track w (xs.map (·.openCall a) ++ calls, m) =
        some (xs'.map (·.openCall a) ++ calls, m') ∧ b.Looping w l first last xs' m' := by
  cases h with
  | inside hfirst hlast =>
    rcases hloop.track (w := w) hp hlayout hfirst hlast calls with
      ⟨m', htrack, hfirst', hlast'⟩ | ⟨x, hx, hfrom, htrack⟩
    · exact ⟨[], m', htrack, .inside hfirst' hlast'⟩
    · exact ⟨[x], _, htrack, .running (.enter hlayout (.first hx hfrom) (by simp))⟩
  | @running x rest _ hrunning =>
    rcases hrunning.track hp hlayout ((x :: rest).map (·.openCall a) ++ calls) with
      ⟨m', htrack, hrunning', -⟩ | ⟨y, htrack, hrunning', -⟩ | ⟨htrack, -, -, -⟩
    · exact ⟨x :: rest, m', htrack, .running hrunning'⟩
    · exact ⟨y :: x :: rest, _, htrack, .running hrunning'⟩
    · refine ⟨rest, _, htrack, ?_⟩
      cases rest with
      | nil =>
        cases hrunning.stack with
        | first _ hfrom => exact .inside hfrom.first_le hfrom.le_last
      | cons y rest => exact .running hrunning.pop

/-- Every state of a run from a line of a loop on is one after the loop was entered. -/
theorem of_run (hp : p.WellScoped) (hlayout : b.Layout image)
    (hloop : b.LoopPlaced image l first last) (hfirst : first ≤ m.line) (hlast : m.line ≤ last)
    (h : Relation.ReflTransGen (fun s s' => image.linked.track w s = some s') (calls, m)
      (calls', m')) :
    ∃ xs : List Activation, calls' = xs.map (·.openCall a) ++ calls ∧
      b.Looping w l first last xs m' := by
  suffices hall : ∀ s, Relation.ReflTransGen (fun s s' => image.linked.track w s = some s')
      (calls, m) s → ∃ xs : List Activation, s.1 = xs.map (·.openCall a) ++ calls ∧
        b.Looping w l first last xs s.2 from
    hall _ h
  intro s hs
  induction hs with
  | refl => exact ⟨[], rfl, .inside hfirst hlast⟩
  | @tail s s' _ htrack ih =>
    obtain ⟨xs, hcalls, hlooping⟩ := ih
    obtain ⟨xs', m', htrack', hlooping'⟩ := hlooping.step hp hlayout hloop calls
    rw [← hcalls, htrack, Option.some.injEq] at htrack'
    exact ⟨xs', by rw [htrack'], by rw [htrack']; exact hlooping'⟩

/-- The line that is executed next is none that yields, if the body of the loop does not come to
a `yield`. -/
theorem ne_yield (hlayout : b.Layout image) (hloop : b.LoopPlaced image l first last)
    (hsilent : ¬ p.ComesToYield l.body) (h : b.Looping w l first last xs m) :
    ∃ i, image.linked.instructions[m.line]? = some i ∧ i.opcode ≠ .yield := by
  cases h with
  | inside hfirst hlast =>
    obtain ⟨code, outer, own, s, s', hlowered, -, hplaced, rfl⟩ := hloop.body
    rcases Nat.lt_or_eq_of_le hlast with hlt | heq
    · obtain ⟨line, hline, i, hi, hopcode, -⟩ := hplaced.exists_hasLine hfirst hlt
      refine ⟨i, hi, fun hyield => hsilent (Or.inl ?_)⟩
      exact hasYield_of_line hlowered.lowered hline (hopcode.symm.trans hyield)
    · obtain ⟨label, origin, ⟨i, hi, hopcode, -⟩, -⟩ := hloop.jump
      exact ⟨i, heq ▸ hi, by simp [hopcode]⟩
  | @running x rest _ hrunning =>
    have hx := hrunning.stack.settled
    -- the function was reached from a call in the body
    have hcalled : ∀ line, Piece.line line ∈ x.routine.body → line.opcode ≠ .yield := by
      intro line hline hyield
      obtain ⟨y, hfrom, hreaches⟩ := hrunning.stack.reaches
      have hyields := hasYield_of_line hx.lowered.lowered hline hyield
      exact hsilent (Or.inr ⟨y.name, hfrom.callee, x.routine.function,
        List.mem_of_getElem? hx.function, hreaches, hyields⟩)
    rcases hlayout.line_cases hx hrunning.line with
      ⟨-, -, -, i, hi, hopcode, -⟩ | ⟨line, hline, ⟨i, hi, hopcode, -⟩, -⟩ |
        ⟨⟨i, hi, hopcode, -⟩, -⟩
    · exact ⟨i, hi, by simp [hopcode]⟩
    · exact ⟨i, hi, hopcode ▸ hcalled line hline⟩
    · exact ⟨i, hi, by simp [hopcode]⟩

end Looping

/-- From a loop on that does not come to a `yield`, none is executed. -/
theorem LoopPlaced.neverYields (hp : p.WellScoped) (hlayout : b.Layout image)
    (h : b.LoopPlaced image l first last) (hsilent : ¬ p.ComesToYield l.body) :
    image.linked.NeverYields first last := by
  intro V w calls calls' m m' hfirst hlast hrun
  obtain ⟨xs, rfl, hlooping⟩ := Looping.of_run hp hlayout h hfirst hlast hrun
  obtain ⟨xs', m'', htrack, -⟩ := hlooping.step hp hlayout h calls
  refine ⟨hlooping.ne_yield hlayout h hsilent, by rw [htrack]; rfl, _, rfl, fun hnil => ?_⟩
  cases hlooping with
  | inside hfirst' hlast' => exact ⟨hfirst', hlast'⟩
  | running _ => cases hnil

/-- The lines of every loop of a program that was lowered and linked. -/
theorem exists_loopPlaced (b : Build ctx p a) (hp : p.WellScoped) {linked : Linked}
    {addresses : List (Label × Nat)} (haddresses : a.addresses = .ok addresses)
    (hlinked : Assembly.linkAll addresses a.parameters a.instructions = .ok linked.instructions)
    {n : Nat} (h : p.loops[n]? = some l) :
    ∃ first last, a.LoopLines (l.pos.inFile ctx.file) n first last ∧
      b.LoopPlaced ⟨linked, addresses, a.parameters⟩ l first last := by
  obtain ⟨k, sect, name, code, hsect, hcode, hholds, hcallees⟩ := b.exists_holdsLoop hp h
  obtain ⟨before, body, after, outer, own, s, s', rfl, hbody, hcalls⟩ := hholds
  obtain ⟨hplaced, -⟩ := Assembly.placed_of_link haddresses hlinked hsect hcode
  simp only [loopCode, Image.placed_append, Origin.line, Code.size_append, Code.size_label,
    Code.size_note, Code.size_nil, Nat.zero_add] at hplaced
  obtain ⟨⟨-, ⟨⟨hlabel, -⟩, hbodyPlaced⟩, hjump, -⟩, -⟩ := hplaced
  refine ⟨a.start k + Code.size before, a.start k + Code.size before + Code.size body,
    ⟨⟨addresses, haddresses, hlabel⟩, ?_, by omega⟩, ⟨⟨body, outer, own, s, s', hbody, hcalls,
      hbodyPlaced, rfl⟩, ⟨_, _, hjump, hlabel⟩, hcallees⟩⟩
  have hlines : Code.lines (before ++ loopCode n l.pos body ++ after) =
      Code.lines (before ++ body) ++
        ⟨.jump, [.label (.loop n)], ⟨"loop", l.pos⟩⟩ :: Code.lines after := by
    simp [Code.lines, loopCode, Origin.line]
  have hline : (Code.lines (before ++ loopCode n l.pos body ++ after))[Code.size before +
      Code.size body]? = some ⟨.jump, [.label (.loop n)], ⟨"loop", l.pos⟩⟩ := by
    rw [hlines, ← Code.size_append, Code.size, List.getElem?_append_right (Nat.le_refl _),
      Nat.sub_self]
    rfl
  obtain ⟨i, hi, hgives⟩ := Code.getElem?_of_toSection hcode hline
  refine ⟨i, ?_, hgives.opcode, hgives.operands, hgives.location⟩
  rw [Nat.add_assoc, Assembly.instructions_getElem? hsect (List.getElem?_eq_some_iff.1 hi).1, hi]

end Lowering.Build

/-! ### Programs -/

/-- A program that is lowered gives a warning for each loop that never yields. Where these are
refused, it is lowered to the same, or the first of them is reported. -/
theorem Lowering.heeds_of_generate {file : String} {options : Options} {p : Resolved.Program}
    {g : Generated} (hp : p.WellScoped) (h : (p.generate file options).2 = .ok g) :
    ((p.generate file options).1.filter (·.level = .warning)).map (·.message) =
        p.silentLoops.map (fun l => (⟨file, options, p⟩ : Context).loopWarning l.pos) ∧
      (p.silentLoops = [] → (p.generate file { options with requireYield := true }).2 = .ok g) ∧
      ∀ l rest, p.silentLoops = l :: rest →
        (p.generate file { options with requireYield := true }).2 =
          .error (.located file l.pos .missingYield) := by
  cases hpool : RegisterPool.ofCount options.registerCount [] with
  | error e =>
    simp only [Resolved.Program.generate, hpool] at h
    cases h
  | ok pool =>
    have hstrict : p.generate file { options with requireYield := true } =
        Lower.outcome ((⟨file, options, p⟩ : Context).strict.program p { pool }) :=
      Resolved.Program.generate_eq_outcome hpool
    rw [hstrict]
    rw [Resolved.Program.generate_eq_outcome hpool] at h ⊢
    cases hrun : (⟨file, options, p⟩ : Context).program p { pool } with
    | error e s =>
      rw [hrun] at h
      cases h
    | ok g' s =>
      rw [hrun] at h
      cases h
      obtain ⟨-, hwarnings, hrefused⟩ :=
        (Context.heeds_program _ _ _ hrun).2 ⟨hp, Resolved.Program.remembers_nil⟩
      rw [hrun] at hrefused
      exact ⟨hwarnings, hrefused.outcome⟩

/-- A program that is lowered can be linked, and when a loop has been entered that does not come to
a `yield`, none is executed. -/
theorem Program.neverYields_of_generate {file source : String} {strict : Bool} {limits : Limits}
    {options : Options} {p : Program} {r : Resolved.Program} {g : Lowering.Generated}
    (hresolve : p.resolve source strict limits = .ok r) (h : (r.generate file options).2 = .ok g) :
    ∃ linked, g.assembly.link = .ok linked ∧
      ∀ (n : Nat) (l : Loop), r.loops[n]? = some l → ¬ r.ComesToYield l.body →
        ∃ first last, g.assembly.LoopLines (l.pos.inFile file) n first last ∧
          linked.NeverYields first last := by
  have hp := wellScoped_of_resolve hresolve
  obtain ⟨linked, hlink⟩ := exists_link_of_generate hresolve h
  obtain ⟨addresses, haddresses, hlinked⟩ := Assembly.addresses_of_link hlink
  obtain ⟨b, -⟩ := Resolved.Program.build_of_generate h
  have hlayout := b.layout_of_addresses haddresses hlinked
  refine ⟨linked, hlink, fun n l hl hsilent => ?_⟩
  obtain ⟨first, last, hlines, hplaced⟩ := b.exists_loopPlaced hp haddresses hlinked hl
  exact ⟨first, last, hlines, hplaced.neverYields hp hlayout hsilent⟩

/-- In every program that can be resolved, a search with any limit on its depth, whatever is
remembered from earlier ones, finds out exactly if statements come to a `yield`, or it gives up
because there are more blocks and calls inside each other than the limit. In a program that is
lowered, the loops that do not come to a `yield` are told or refused, and none is executed from them
on. -/
theorem Program.loopsHeeded_of_resolve {source : String} {strict : Bool} {limits : Limits}
    {p : Program} {r : Resolved.Program} (hresolve : p.resolve source strict limits = .ok r) :
    (∀ depth memory ss, r.Recalls memory → r.Knows (.block ss) →
      (∃ found memory', r.search depth (.block ss) memory = .ok (found, memory') ∧
        (found = true ↔ r.ComesToYield ss)) ∨
      (r.search depth (.block ss) memory = .error .tooDeep ∧ r.Deep depth (.block ss))) ∧
      (∀ l ∈ r.loops, r.Knows (.block l.body)) ∧ (∀ f ∈ r.functions, r.Knows (.block f.body)) ∧
      ∀ file options g, options.requireYield = false → (r.generate file options).2 = .ok g →
        r.LoopsHeeded file options g := by
  have hp := wellScoped_of_resolve hresolve
  refine ⟨fun depth memory ss hmemory hknows => ?_, fun l => hp.knows_loop, fun f => hp.knows,
    fun file options g _ hgenerate => ?_⟩
  · cases hsearch : r.search depth (.block ss) memory with
    | ok answer =>
      obtain ⟨hiff, -⟩ := Resolved.Program.answers_search hp _ _ (hmemory.remembers hp) hsearch
      exact Or.inl ⟨answer.1, answer.2, rfl, hiff⟩
    | error e =>
      obtain ⟨rfl, hdeep⟩ := Resolved.Program.failsOnly_search hp hknows memory e hsearch
      exact Or.inr ⟨rfl, hdeep⟩
  · obtain ⟨hwarnings, haccepted, hrefused⟩ := Lowering.heeds_of_generate hp hgenerate
    obtain ⟨linked, hlink, hquiet⟩ := neverYields_of_generate hresolve hgenerate
    refine ⟨hwarnings, haccepted, hrefused, ⟨?_, fun hnil => ⟨g, haccepted hnil⟩⟩, linked, hlink,
      fun n l hl hsilent => hquiet n l hl (Resolved.Program.mem_silent.1 hsilent).2⟩
    rintro ⟨g', hg'⟩
    cases hloops : r.silentLoops with
    | nil => rfl
    | cons l rest =>
      rw [hrefused l rest hloops] at hg'
      cases hg'

/-- The program `loop { tick(); loop { work(); } } fn tick() { rest(); } fn rest() { yield; }
fn work() { loop { } }`. -/
def Program.watch : Program where
  statements := [
    .loop ⟨1, 1⟩ ⟨1, 6⟩ [
      .call (.unplaced "tick") [],
      .loop ⟨1, 16⟩ ⟨1, 21⟩ [.call (.unplaced "work") []]],
    .function .first (.unplaced "tick") [] .first [.call (.unplaced "rest") []],
    .function .first (.unplaced "rest") [] .first [.yield .first],
    .function .first (.unplaced "work") [] .first [.loop ⟨2, 13⟩ ⟨2, 18⟩ []]]

/-- The outer loop yields, by two calls. The one in it never does, nor does that in `work`. -/
theorem Program.watch_loopsHeeded : ∃ r g, watch.resolve "watch" true = .ok r ∧
    (r.generate "watch" {}).2 = .ok g ∧ r.loops.map (·.pos) = [⟨1, 1⟩, ⟨1, 16⟩, ⟨2, 13⟩] ∧
    r.silentLoops.map (·.pos) = [⟨1, 16⟩, ⟨2, 13⟩] ∧ r.LoopsHeeded "watch" {} g := by
  have hsome : ((watch.resolve "watch" true).toOption.bind fun r =>
      (r.generate "watch" {}).2.toOption.filter fun _ =>
        r.loops.map (·.pos) = [⟨1, 1⟩, ⟨1, 16⟩, ⟨2, 13⟩] ∧
          (∀ l ∈ r.loops, (r.answer? 9 l.body).isSome) ∧
          (r.loops.filter fun l => r.answer? 9 l.body = some false).map (·.pos) =
            [⟨1, 16⟩, ⟨2, 13⟩]).isSome := by
    decide +kernel
  obtain ⟨g, hg⟩ := Option.isSome_iff_exists.1 hsome
  obtain ⟨r, hr, hg⟩ := Option.bind_eq_some_iff.1 hg
  obtain ⟨hg, hcheck⟩ := Option.filter_eq_some_iff.1 hg
  obtain ⟨hloops, hanswers, hsilent⟩ := of_decide_eq_true hcheck
  rw [toOption_eq_some] at hr hg
  refine ⟨r, g, hr, hg, hloops, ?_, (loopsHeeded_of_resolve hr).2.2.2 _ _ _ rfl hg⟩
  rw [Resolved.Program.silentLoops,
    Resolved.Program.silent_eq_filter (wellScoped_of_resolve hr) hanswers, hsilent]

/-- From the loop of a tower with a `yield` at its bottom that `yield` is reached. The search for it
gives up all the same, so that the program is not lowered. -/
theorem Program.beacon_tooDeep : ∃ r, (tower [.yield .first]).resolve "beacon" true = .ok r ∧
    r.silentLoops = [] ∧ (∃ l ∈ r.loops, r.answer? ({} : Limits).search l.body = none) ∧
    (r.generate "beacon" { requireYield := true }).2 = .error .tooDeep := by
  have hsome : (((tower [.yield .first]).resolve "beacon" true).toOption.filter fun r =>
      (∀ l ∈ r.loops, (r.answer? 2000 l.body).isSome) ∧
        (r.loops.filter fun l => r.answer? 2000 l.body = some false).isEmpty ∧
        (∃ l ∈ r.loops, r.answer? ({} : Limits).search l.body = none) ∧
        ¬ (r.generate "beacon" { requireYield := true }).2.isOk ∧
        FailsOnly (·.isLimit = false)
          (r.generate "beacon" { requireYield := true }).2).isSome := by
    decide +kernel
  obtain ⟨r, hr, hanswers, hsilent, hnone, hfails, hno⟩ := exists_of_isSome_filter hsome
  refine ⟨r, hr, ?_, hnone, generate_eq_tooDeep hr (by decide) (by decide) hfails hno⟩
  rw [Resolved.Program.silentLoops,
    Resolved.Program.silent_eq_filter (wellScoped_of_resolve hr) hanswers]
  exact List.isEmpty_iff.1 hsilent

end Chipwright
