import Chipwright.Proofs.Execution
import Chipwright.Proofs.Layout
import Chipwright.Proofs.Lowering.Lines
import Chipwright.Proofs.Resolved.Scoping

/-!
# Running routines

While a program runs, functions that have been called wait for each other to return. `Running`
says of such a stack of activations that the one at the top is at one of its lines and that
every activation finds its return address where it expects it: the one at the top in its own
register, or still in the one that calls set, if it has not yet saved it; the others in theirs.

One line more keeps this, whatever it does (`Running.track`): it stays in the routine, calls
another one, or returns. A line that stays changes no register that the routine has to keep,
except those of global variables that the routine assigns to.
-/
namespace Chipwright

variable {V : Type} {w : World V} {image : Image} {m m' : Machine V}

/-! ## Open calls -/

namespace Image.HasLine

open Lowering (Line Origin)

theorem track_of_step? {l : Line} (h : image.HasLine m.line l)
    (hstep : image.linked.step? w m = some m') (calls : List OpenCall) :
    ∃ i, image.linked.instructions[m.line]? = some i ∧ i.opcode = l.opcode ∧
      Assembly.resolveAll image.addresses image.parameters l.operands = .ok i.operands ∧
      image.linked.track w (calls, m) = some (i.track m m' calls, m') := by
  obtain ⟨i, hi, hopcode, hoperands⟩ := h
  refine ⟨i, hi, hopcode, hoperands, ?_⟩
  rw [Linked.step?, hi, Option.bind_some] at hstep
  simp [Linked.track, hi, hstep]

/-- A line that neither calls nor jumps through a register leaves the open calls. -/
theorem track_plain {l : Line} (h : image.HasLine m.line l)
    (hstep : image.linked.step? w m = some m') (hcall : l.opcode ≠ .jumpAndLink)
    (hjump : l.opcode = .jump → ∃ label, l.operands = [.label label]) (calls : List OpenCall) :
    image.linked.track w (calls, m) = some (calls, m') := by
  obtain ⟨i, -, hopcode, hoperands, htrack⟩ := h.track_of_step? hstep calls
  rw [htrack]
  suffices heq : i.track m m' calls = calls by rw [heq]
  unfold Instruction.track
  split
  · exact absurd (hopcode ▸ ‹_›) hcall
  · rename_i r hj hr
    obtain ⟨label, hlabel⟩ := hjump (hopcode ▸ hj)
    rw [hlabel, hr] at hoperands
    simp only [Assembly.resolveAll, Assembly.resolve, bind_eq_ok, pure_eq_ok] at hoperands
    obtain ⟨y, hy, ys, -, heq⟩ := hoperands
    split at hy <;> cases hy
    cases heq
  · rfl

theorem track_call {l : Line} (h : image.HasLine m.line l)
    (hstep : image.linked.step? w m = some m') (hcall : l.opcode = .jumpAndLink)
    (calls : List OpenCall) :
    image.linked.track w (calls, m) = some (⟨m'.line, m.line + 1⟩ :: calls, m') := by
  obtain ⟨i, -, hopcode, -, htrack⟩ := h.track_of_step? hstep calls
  rw [htrack]
  simp [Instruction.track, hopcode, hcall]

theorem track_return {r : Register} {origin : Origin}
    (h : image.HasLine m.line ⟨.jump, [.register r], origin⟩)
    (hstep : image.linked.step? w m = some m') (calls : List OpenCall) :
    image.linked.track w (calls, m) = some (calls.tail, m') := by
  obtain ⟨i, -, hopcode, hoperands, htrack⟩ := h.track_of_step? hstep calls
  have hoperands : i.operands = [.register r] := (Except.ok.inj hoperands).symm
  rw [htrack]
  simp [Instruction.track, hopcode, hoperands]

end Image.HasLine

namespace Lowering

/-- What a line of a routine does: it goes on to another line of the routine, or calls. -/
theorem Line.Fits.track {writes : Register → Prop} {labels : Label → Prop}
    {callable : String → List Register → Prop} {l : Line} (h : l.Fits writes labels callable)
    (hline : image.HasLine m.line l)
    (hlabels : ∀ label, labels label → ∃ n, image.addresses.lookup label = some n)
    (calls : List OpenCall) :
    (∃ m', image.linked.track w (calls, m) = some (calls, m') ∧
        (m'.line = m.line + 1 ∨
          ∃ label, labels label ∧ image.addresses.lookup label = some m'.line) ∧
        ∀ r, m'.registers r ≠ m.registers r → writes r ∨
          ∃ f kept index, callable f kept ∧ image.parameters.lookup (f, index) = some r) ∨
      ∃ f kept n, callable f kept ∧ image.addresses.lookup (.function f) = some n ∧
        image.linked.track w (calls, m) =
          some (⟨n, m.line + 1⟩ :: calls,
            { m.set .ra (w.ofLine (m.line + 1)) with line := n }) := by
  cases h with
  | @computes _ r hcomputes hr =>
    left
    obtain ⟨a, hstep, hcall, hjump⟩ : ∃ a, image.linked.step? w m = some (m.set r a) ∧
        l.opcode ≠ .jumpAndLink ∧ l.opcode ≠ .jump := by
      cases hcomputes with
      | binary op r x y origin =>
        exact ⟨_, hline.step?_binary, by cases op <;> simp [BinaryOp.opcode],
          by cases op <;> simp [BinaryOp.opcode]⟩
      | not r x origin => exact ⟨_, hline.step?_not, by simp, by simp⟩
      | move r x origin => exact ⟨_, hline.step?_move, by simp, by simp⟩
    exact ⟨_, hline.track_plain hstep hcall (fun h => absurd h hjump) calls, Or.inl rfl,
      fun r' hr' => Or.inl (Machine.eq_of_set_ne hr' ▸ hr)⟩
  | load r slot property origin hr =>
    left
    exact ⟨_, hline.track_plain hline.step?_load (by simp) (by simp) calls, Or.inl rfl,
      fun r' hr' => Or.inl (Machine.eq_of_set_ne hr' ▸ hr)⟩
  | argument f index x kept origin hf hx =>
    left
    obtain ⟨r, hr, hstep⟩ := hline.step?_argument (w := w)
    refine ⟨_, hline.track_plain hstep (by simp) (by simp) calls, Or.inl rfl, fun r' hr' => ?_⟩
    exact Or.inr ⟨f, kept, index, hf, Machine.eq_of_set_ne hr' ▸ hr⟩
  | call f kept origin hf =>
    right
    cases hn : image.addresses.lookup (.function f) with
    | none =>
      obtain ⟨i, -, -, hi⟩ := hline
      simp [Assembly.resolveAll, Assembly.resolve, hn] at hi
      cases hi
    | some n =>
      exact ⟨f, kept, n, hf, hn, hline.track_call (hline.step?_call hn) rfl calls⟩
  | jump label origin hl =>
    left
    obtain ⟨n, hn⟩ := hlabels label hl
    exact ⟨_, hline.track_plain (hline.step?_jump hn) (by simp) (fun _ => ⟨label, rfl⟩) calls,
      Or.inr ⟨label, hl, hn⟩, fun r hr => absurd rfl hr⟩
  | branch x label origin hl =>
    left
    obtain ⟨n, hn⟩ := hlabels label hl
    refine ⟨_, hline.track_plain (hline.step?_branch hn) (by simp) (by simp) calls, ?_,
      fun r hr => absurd rfl hr⟩
    by_cases hzero : w.isZero (x.get w m.registers)
    · exact Or.inr ⟨label, hl, by simpa [hzero] using hn⟩
    · exact Or.inl (by simp [hzero])
  | store slot property x origin =>
    left
    exact ⟨_, hline.track_plain hline.step?_store (by simp) (by simp) calls, Or.inl rfl,
      fun r hr => absurd rfl hr⟩
  | yield origin =>
    left
    exact ⟨_, hline.track_plain hline.step?_yield (by simp) (by simp) calls, Or.inl rfl,
      fun r hr => absurd rfl hr⟩
  | nameDevice name slot origin =>
    left
    exact ⟨_, hline.track_plain hline.step?_nameDevice (by simp) (by simp) calls, Or.inl rfl,
      fun r hr => absurd rfl hr⟩

/-! ## Registers that a routine writes -/

variable {ctx : Context} {p : Resolved.Program} {a : Assembly} {b : Build ctx p a} {k : Nat}
  {q : Routine}

namespace Build

/-- What a routine may do to a register: it is not kept, or belongs to a global variable that the
routine assigns to. -/
def MayChange (b : Build ctx p a) (q : Routine) (r : Register) : Prop :=
  r ∉ q.kept ∨
    ∃ v ∈ Resolved.Stmt.targetsAll q.function.body, v ∈ p.globals ∧ (v, r) ∈ b.table

namespace Settled

/-- A function's own variables are in registers that were handed out to it, which were free
before the body unless they are those of the parameters. -/
theorem used_of_own (hq : b.Settled k q) {v : Variable} {r : Register}
    (hv : v ∈ q.function.params ∨ v ∈ Resolved.Stmt.bindsAll q.function.body)
    (hr : (v, r) ∈ b.table) :
    r ∈ q.finish.pool.used ∧ (r ∈ q.registers ∨ r ∉ q.start.pool.live) := by
  obtain ⟨s, hmade⟩ := hq.made
  rcases hv with hv | hv
  · have hzip := hmade.mem_zip_of_mem_table hq.lowered.unique hq.lowered.homes hv hr
    have hreg := (List.of_mem_zip hzip).2
    exact ⟨(hmade.registers_live hreg).2, Or.inl hreg⟩
  · obtain ⟨new, hnew, hbinds, hregs⟩ := hmade.effect.homes
    rw [← List.mem_reverse, ← hbinds] at hv
    obtain ⟨⟨v, r'⟩, hmem, rfl⟩ := List.mem_map.1 hv
    have hmem' : (v, r') ∈ b.table := hq.lowered.homes _ (hnew ▸ List.mem_append_left _ hmem)
    obtain rfl := eq_of_mem_of_mem hq.lowered.unique hr hmem'
    exact ⟨(hregs _ hmem).2, Or.inr (hregs _ hmem).1⟩

/-- What the lines of the body write. -/
theorem written (hq : b.Settled k q) {r : Register}
    (hr : Written q.start q.finish (Resolved.Stmt.targetsAll q.function.body) r) :
    r ≠ q.ret ∧ r ≠ .ra ∧ b.MayChange q r := by
  obtain ⟨s, hmade⟩ := hq.made
  -- a register that was handed out and is not the one of the return address
  have hown : r ∈ q.finish.pool.used → r ∈ q.registers ∨ r ∉ q.start.pool.live →
      r ≠ q.ret ∧ r ≠ .ra ∧ b.MayChange q r := by
    intro hused hplace
    obtain ⟨hkept, hra⟩ := hmade.handedOut hused
    refine ⟨?_, hra, Or.inl hkept⟩
    rintro rfl
    cases hcalls : makesCalls p q.function.name with
    | true =>
      obtain ⟨hlive, -, hparams⟩ := hmade.ret_live hcalls
      exact hplace.elim hparams fun hfree => hfree hlive
    | false => exact hra (hmade.ret_eq hcalls).1
  rcases hr with ⟨hfree, hused⟩ | ⟨v, hv, hr⟩
  · exact hown hused (Or.inr hfree)
  · have htable := hq.lowered.homes _ hr
    rcases Resolved.Stmt.mem_of_mem_targetsAll _ hq.lowered.visible hv with hvisible | hbinds
    · rcases List.mem_append.1 hvisible with hparam | hglobal
      · obtain ⟨hused, hplace⟩ := hq.used_of_own (Or.inl hparam) htable
        exact hown hused hplace
      · have hra := b.ne_ra htable
        refine ⟨?_, hra, Or.inr ⟨v, hv, hglobal, htable⟩⟩
        rintro rfl
        cases hcalls : makesCalls p q.function.name with
        | true =>
          exact (hmade.handedOut (hmade.ret_live hcalls).2.1).1 (hq.globals v hglobal _ htable)
        | false => exact hra (hmade.ret_eq hcalls).1
    · obtain ⟨hused, hplace⟩ := hq.used_of_own (Or.inr hbinds) htable
      exact hown hused hplace

/-- The parameters of a function are in registers that the function does not keep. -/
theorem parameter_notMem_kept (hq : b.Settled k q) {index : Int} {r : Register}
    (hr : a.parameters.lookup (q.function.name, index) = some r) : r ∉ q.kept := by
  obtain ⟨s, hmade⟩ := hq.made
  obtain ⟨i, -, hi⟩ := (hq.parameter index r).1 hr
  exact (hmade.handedOut (hmade.registers_live (List.mem_of_getElem? hi)).2).1

/-- The register of the return address, once it is saved, is kept for the callers. -/
theorem not_mayChange_ret {q' : Routine} (hq : b.Settled k q)
    (hcalls : makesCalls p q.function.name = true)
    (hkept : ∀ r ∈ q.start.pool.live, r ∈ q'.kept) : ¬ b.MayChange q' q.ret := by
  obtain ⟨s, hmade⟩ := hq.made
  obtain ⟨hlive, hused, -⟩ := hmade.ret_live hcalls
  rintro (hfree | ⟨v, -, hglobal, htable⟩)
  · exact hfree (hkept _ hlive)
  · exact (hmade.handedOut hused).1 (hq.globals v hglobal _ htable)

end Settled

/-- A call that was noted leads to a routine that keeps what is live there. -/
theorem exists_callee (b : Build ctx p a) (hp : p.WellScoped) {caller : Option String} {f : String}
    {live : List Register} (hf : f ∈ p.callGraph.callees caller) (hnoted : (f, live) ∈ b.calls) :
    ∃ k q, b.Settled k q ∧ q.function.name = f ∧ ∀ r ∈ live, r ∈ q.kept := by
  obtain ⟨g, hg, rfl⟩ := hp.callees caller f hf
  obtain ⟨k, q, hq, rfl⟩ := b.exists_routine hp hg
  exact ⟨k, q, hq, rfl, hq.kept live hnoted⟩

/-! ## Lines of a routine -/

/-- What a line of a body does: it stays in the routine and changes no register that has to be
kept, or it calls another routine. -/
theorem Settled.track_body (hp : p.WellScoped) (hlayout : b.Layout image) (hq : b.Settled k q)
    {l : Line} (hl : Piece.line l ∈ q.body) (hline : image.HasLine m.line l)
    (hnext : q.InBody a k (m.line + 1)) (calls : List OpenCall) :
    (∃ m', image.linked.track w (calls, m) = some (calls, m') ∧ q.InBody a k m'.line ∧
        ∀ r, m'.registers r ≠ m.registers r → r ≠ q.ret ∧ b.MayChange q r) ∨
      ∃ k' q', b.Settled k' q' ∧
        q'.function.name ∈ p.callGraph.callees (some q.function.name) ∧
        (∀ r ∈ q.start.pool.live, r ∈ q'.kept) ∧
        image.linked.track w (calls, m) = some (⟨a.start (k' + 1), m.line + 1⟩ :: calls,
          { m.set .ra (w.ofLine (m.line + 1)) with line := a.start (k' + 1) }) := by
  obtain ⟨s, hmade⟩ := hq.made
  -- a routine that is called keeps all that is live in this one
  have hcallee : ∀ f live, Noted q.start q.finish
      ((Resolved.Stmt.callsAll none q.function.body).map (·.callee)) f live →
      f ∈ p.callGraph.callees (some q.function.name) ∧ ∃ k' q', b.Settled k' q' ∧
        q'.function.name = f ∧ ∀ r ∈ q.start.pool.live, r ∈ q'.kept := by
    rintro f live ⟨hf, hnoted, hlive⟩
    have hf := Resolved.Program.mem_callees (List.mem_of_getElem? hq.function) hf
    obtain ⟨k', q', hq', hname, hkept⟩ := b.exists_callee hp hf (hq.calls _ hnoted)
    exact ⟨hf, k', q', hq', hname, fun r hr => hkept r (hlive r hr)⟩
  have hfits := fits_of_stmts _ hq.lowered l hl
  have hlabels : ∀ label, Piece.label label ∈ q.body →
      ∃ n, image.addresses.lookup label = some n := fun label hlabel =>
    (hlayout.inBody_of_label hq hlabel).imp fun n hn => hn.1
  rcases hfits.track (w := w) hline hlabels calls with
    ⟨m', htrack, hgoes, hchanged⟩ | ⟨f, live, n, hnoted, hn, htrack⟩
  · refine Or.inl ⟨m', htrack, ?_, fun r hr => ?_⟩
    · rcases hgoes with hgoes | ⟨label, hlabel, haddress⟩
      · rwa [hgoes]
      · obtain ⟨n, hn, hbody⟩ := hlayout.inBody_of_label hq hlabel
        rw [haddress, Option.some.injEq] at hn
        rwa [hn]
    · rcases hchanged r hr with hwritten | ⟨f, live, index, hnoted, hparameter⟩
      · obtain ⟨hret, -, hmay⟩ := hq.written hwritten
        exact ⟨hret, hmay⟩
      · obtain ⟨hf, k', q', hq', rfl, hkept⟩ := hcallee f live hnoted
        rw [hlayout.parameters] at hparameter
        have hfree := hq'.parameter_notMem_kept hparameter
        refine ⟨?_, Or.inl fun hr => hfree (hkept r (Routine.Made.mem_live_of_mem_kept hr))⟩
        rintro rfl
        have hcalls : makesCalls p q.function.name = true := by
          simp [makesCalls, List.ne_nil_of_mem hf]
        exact hfree (hkept _ (hmade.ret_live hcalls).1)
  · obtain ⟨hf, k', q', hq', rfl, hkept⟩ := hcallee f live hnoted
    rw [(hlayout.parts hq').address, Option.some.injEq] at hn
    exact Or.inr ⟨k', q', hq', hf, hkept, by rw [hn, htrack]⟩

/-! ## Stacks -/

end Build

/-- A routine that has been called. -/
structure Activation where
  /-- The index of the function. -/
  index : Nat
  routine : Routine
  /-- The line after the call. -/
  back : Nat

namespace Activation

def name (x : Activation) : String := x.routine.function.name

/-- The code of an activation, as a caller. -/
def unit (x : Activation) : Option String := some x.name

/-- The call that has led to an activation. -/
def openCall (a : Assembly) (x : Activation) : OpenCall := ⟨a.start (x.index + 1), x.back⟩

/-- The state of the chip at the first line of an activation. -/
def entered (a : Assembly) (w : World V) (x : Activation) (m : Machine V) : Machine V :=
  { m.set .ra (w.ofLine x.back) with line := a.start (x.index + 1) }

/-- The register that holds the return address when a line is executed next: the one that calls
set, as long as the address was not saved. -/
def address (a : Assembly) (x : Activation) (n : Nat) : Register :=
  if n < x.routine.bodyStart a x.index then .ra else x.routine.ret

/-- A call sets one register. -/
theorem entered_registers {w : World V} {x : Activation} {m : Machine V} {r : Register}
    (hr : r ≠ .ra) : (x.entered a w m).registers r = m.registers r :=
  Function.update_of_ne hr _ _

theorem address_of_inBody {x : Activation} {n : Nat} (h : x.routine.InBody a x.index n) :
    x.address a n = x.routine.ret :=
  if_neg (Nat.not_lt.2 h.1)

end Activation

namespace Build

/-- An activation can have been called by another: it keeps what is live there, and returns to
a line of the other one's body. -/
structure Calls (b : Build ctx p a) (x y : Activation) : Prop where
  callee : x.name ∈ p.callGraph.callees (some y.name)
  kept : ∀ r ∈ y.routine.start.pool.live, r ∈ x.routine.kept
  site : ∃ n, y.routine.InBody a y.index n ∧ x.back = n + 1
  back : y.routine.InBody a y.index x.back

/-- Activations, the latest first, each of which was called by the next. Of the first one that
was called it is known that it is at the `bottom`. -/
inductive Stack (b : Build ctx p a) (bottom : Activation → Prop) : List Activation → Prop
  | first {x : Activation} : b.Settled x.index x.routine → bottom x → Stack b bottom [x]
  | call {x y : Activation} {rest : List Activation} :
    b.Settled x.index x.routine → b.Calls x y → Stack b bottom (y :: rest) →
      Stack b bottom (x :: y :: rest)

namespace Stack

variable {bottom : Activation → Prop} {x y : Activation} {rest : List Activation}

theorem settled (h : b.Stack bottom (x :: rest)) : b.Settled x.index x.routine := by
  cases h with
  | first hx _ => exact hx
  | call hx _ _ => exact hx

/-- An activation that waits for another is that of a function that makes calls, and all that is
live in it is kept. -/
theorem waiting (h : b.Stack bottom (x :: rest)) (hy : y ∈ rest) :
    b.Settled y.index y.routine ∧ makesCalls p y.name = true ∧
      ∀ r ∈ y.routine.start.pool.live, r ∈ x.routine.kept := by
  induction rest generalizing x with
  | nil => cases hy
  | cons z rest ih =>
    cases h with
    | call hx hcalls hrest =>
      rcases List.mem_cons.1 hy with rfl | hy
      · refine ⟨hrest.settled, ?_, hcalls.kept⟩
        simp [makesCalls, List.ne_nil_of_mem hcalls.callee]
      · obtain ⟨hsettled, hmakes, hkept⟩ := ih hrest hy
        refine ⟨hsettled, hmakes, fun r hr => hcalls.kept r ?_⟩
        exact Routine.Made.mem_live_of_mem_kept (hkept r hr)

/-- What the first activation keeps, all others keep as well. -/
theorem kept (h : b.Stack bottom (x :: rest)) {K : List Register}
    (hbottom : ∀ y, bottom y → ∀ r ∈ K, r ∈ y.routine.kept) :
    ∀ r ∈ K, r ∈ x.routine.kept := by
  induction rest generalizing x with
  | nil =>
    cases h with
    | first _ hx => exact hbottom x hx
  | cons y rest ih =>
    cases h with
    | call _ hcalls hrest =>
      exact fun r hr => hcalls.kept r (Routine.Made.mem_live_of_mem_kept (ih hrest r hr))

end Stack

/-! ## Running routines -/

/-- The activation at the top is at one of its lines, and every activation finds its return
address. -/
structure Running (b : Build ctx p a) (w : World V) (bottom : Activation → Prop)
    (x : Activation) (rest : List Activation) (m : Machine V) : Prop where
  stack : b.Stack bottom (x :: rest)
  line : a.Within (x.index + 1) m.line
  address : m.registers (x.address a m.line) = w.ofLine x.back
  waiting : ∀ y ∈ rest, m.registers y.routine.ret = w.ofLine y.back

namespace Running

variable {bottom : Activation → Prop} {x : Activation} {rest : List Activation}

/-- A register that only changes as the routine may change it does not hold the return address of
an activation that waits. -/
theorem waiting_of_changed (h : b.Running w bottom x rest m)
    (hchanged : ∀ r, m'.registers r ≠ m.registers r → b.MayChange x.routine r) :
    ∀ y ∈ rest, m'.registers y.routine.ret = w.ofLine y.back := by
  intro y hy
  obtain ⟨hsettled, hmakes, hkept⟩ := h.stack.waiting hy
  rw [← h.waiting y hy]
  by_contra hne
  exact hsettled.not_mayChange_ret hmakes hkept (hchanged _ hne)

/-- After a call, the routine that was called runs. -/
theorem enter (hlayout : b.Layout image) (hstack : b.Stack bottom (x :: rest))
    (hwaiting : ∀ y ∈ rest, m.registers y.routine.ret = w.ofLine y.back) :
    b.Running w bottom x rest (x.entered a w m) := by
  have hx := hstack.settled
  obtain ⟨s, hmade⟩ := hx.made
  have hfinish := (hlayout.parts hx).finish
  refine ⟨hstack, ⟨Nat.le_refl _, ?_⟩, ?_, fun y hy => ?_⟩
  · change a.start (x.index + 1) < a.start (x.index + 2)
    rw [hfinish, Routine.bodyStart]
    omega
  · -- either the address is not saved yet, or the routine returns by the register of calls
    have hra : x.address a (a.start (x.index + 1)) = .ra := by
      unfold Activation.address
      split
      · rfl
      · rename_i hge
        cases hmakes : makesCalls p x.routine.function.name with
        | true => simp [Routine.bodyStart, hmade.entry_eq hmakes, Origin.line] at hge
        | false => exact (hmade.ret_eq hmakes).1
    simp [Activation.entered, hra]
  · obtain ⟨hsettled, hmakes, -⟩ := hstack.waiting hy
    obtain ⟨s', hmade'⟩ := hsettled.made
    rw [← hwaiting y hy]
    exact Function.update_of_ne (hmade'.handedOut (hmade'.ret_live hmakes).2.1).2 _ _

/-- What one line does while a routine runs: it stays in the routine and changes no register that
has to be kept, it calls another routine, or it returns. -/
theorem track (hp : p.WellScoped) (hlayout : b.Layout image) (h : b.Running w bottom x rest m)
    (calls : List OpenCall) :
    (∃ m', image.linked.track w (calls, m) = some (calls, m') ∧ b.Running w bottom x rest m' ∧
        ∀ r, m'.registers r ≠ m.registers r → b.MayChange x.routine r) ∨
      (∃ y, image.linked.track w (calls, m) = some (y.openCall a :: calls, y.entered a w m) ∧
        b.Running w bottom y (x :: rest) (y.entered a w m) ∧ y.back = m.line + 1) ∨
      image.linked.track w (calls, m) = some (calls.tail, { m with line := x.back }) ∧
        m.line + 1 = a.start (x.index + 2) ∧
        image.HasLine m.line ⟨.jump, [.register x.routine.ret], x.routine.origin⟩ ∧
        m.registers x.routine.ret = w.ofLine x.back := by
  have hx := h.stack.settled
  obtain ⟨s, hmade⟩ := hx.made
  have hstart : a.start (x.index + 1) ≤ x.routine.bodyStart a x.index := Nat.le_add_right _ _
  rcases hlayout.line_cases hx h.line with
    ⟨hfirst, hnext, hmakes, hline⟩ | ⟨l, hl, hline, hbody, hnext⟩ | ⟨hline, hbody, hlast⟩
  · -- the return address is moved from the register that calls set
    left
    have hra : m.registers .ra = w.ofLine x.back := by
      have haddress := h.address
      rwa [Activation.address, if_pos hfirst] at haddress
    have hchanged : ∀ r, (m.set x.routine.ret (m.registers .ra)).registers r ≠ m.registers r →
        b.MayChange x.routine r := by
      intro r hr
      obtain rfl := Machine.eq_of_set_ne hr
      exact Or.inl (hmade.handedOut (hmade.ret_live hmakes).2.1).1
    have hstep : image.linked.step? w m = some (m.set x.routine.ret (m.registers .ra)) :=
      Image.HasLine.step?_move (x := .home .ra) hline
    refine ⟨_, hline.track_plain hstep (by simp) (by simp) calls, ⟨h.stack, ?_, ?_,
      h.waiting_of_changed hchanged⟩, hchanged⟩
    · exact ⟨Nat.le_trans hstart hnext.1, hnext.2⟩
    · rw [Machine.set_line, Activation.address_of_inBody hnext]
      exact (Function.update_self ..).trans hra
  · have haddress := h.address
    rw [Activation.address_of_inBody hbody] at haddress
    rcases hx.track_body (w := w) hp hlayout hl hline hnext calls with
      ⟨m', htrack, hgoes, hchanged⟩ | ⟨k', q', hq', hcallee, hkept, htrack⟩
    · refine Or.inl ⟨m', htrack, ⟨h.stack, ⟨Nat.le_trans hstart hgoes.1, hgoes.2⟩, ?_,
        h.waiting_of_changed fun r hr => (hchanged r hr).2⟩, fun r hr => (hchanged r hr).2⟩
      rw [Activation.address_of_inBody hgoes, ← haddress]
      by_contra hne
      exact (hchanged _ hne).1 rfl
    · have hstack : b.Stack bottom (⟨k', q', m.line + 1⟩ :: x :: rest) :=
        .call hq' ⟨hcallee, hkept, ⟨_, hbody, rfl⟩, hnext⟩ h.stack
      refine Or.inr (Or.inl ⟨⟨k', q', m.line + 1⟩, htrack, enter hlayout hstack fun y hy => ?_,
        rfl⟩)
      rcases List.mem_cons.1 hy with rfl | hy
      · exact haddress
      · exact h.waiting y hy
  · have haddress := h.address
    rw [Activation.address_of_inBody hbody] at haddress
    exact Or.inr (Or.inr ⟨hline.track_return (hline.step?_return haddress) calls, hlast, hline,
      haddress⟩)

/-- After a return, the caller runs on. -/
theorem pop {y : Activation} (h : b.Running w bottom x (y :: rest) m) :
    b.Running w bottom y rest { m with line := x.back } := by
  cases h.stack with
  | call _ hcalls hrest =>
    refine ⟨hrest, ⟨Nat.le_trans (Nat.le_add_right _ _) hcalls.back.1, hcalls.back.2⟩, ?_,
      fun z hz => h.waiting z (List.mem_cons_of_mem _ hz)⟩
    change m.registers (y.address a x.back) = _
    rw [Activation.address_of_inBody hcalls.back]
    exact h.waiting y (List.mem_cons_self ..)

end Running

end Build

end Lowering

end Chipwright
