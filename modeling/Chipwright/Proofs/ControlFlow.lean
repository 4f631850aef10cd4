import Chipwright.Proofs.Activation
import Chipwright.Proofs.RegisterSeparation

/-!
# Control flow and return addresses

Whatever the registers hold at first, whatever the operators compute and the devices answer, a
run of a linked program stays in order: at every point there is a chain of activations, from the
top-level code to a function, and the line that is executed next belongs to the last of them. A
function is entered at its first line, by a call; it is left at its last line, to the line after
that call. No run goes from the code of one function on to that of the next.

The proof takes `Running` along a run: in the top-level code no activation is open, and a call
from there opens the first one.

## Main definitions

* `CallStack` — the open calls of a run, with the functions that they went to.
* `Standing` — all that is in order in a state of a run.

## Main statements

* `Program.standing_of_reachable` — every state that a program can come to is in order.
-/
namespace Chipwright

/-- The section of a function, or of the top-level code. -/
def Resolved.Program.sectionIndex? (p : Resolved.Program) : Option String → Option Nat
  | none => some 0
  | some name => (p.functions.findIdx? (·.name = name)).map (· + 1)

/-- A line belongs to the code of a function, or to the top-level code. -/
def Assembly.Holds (a : Assembly) (p : Resolved.Program) (unit : Option String) (n : Nat) : Prop :=
  ∃ k, p.sectionIndex? unit = some k ∧ a.Within k n

/-- The open calls of a run, the latest first, with the chain of activations, which ends with the
top-level code. Each call was made in the code of its caller, went to the first line of a function
that the caller calls, and has a line of the caller to come back to. -/
inductive CallStack (p : Resolved.Program) (a : Assembly) :
    List OpenCall → List (Option String) → Prop
  | main : CallStack p a [] [none]
  | call {calls : List OpenCall} {caller : Option String} {units : List (Option String)}
      {f : String} {k n : Nat} : CallStack p a calls (caller :: units) →
    f ∈ p.callGraph.callees caller → p.sectionIndex? (some f) = some k →
    a.Holds p caller n → a.Holds p caller (n + 1) →
      CallStack p a (⟨a.start k, n + 1⟩ :: calls) (some f :: caller :: units)

/-- What one line does while the last activation is that of `unit`. -/
inductive Moves {V : Type} (p : Resolved.Program) (a : Assembly) (linked : Linked) (w : World V)
    (unit : Option String) : List OpenCall × Machine V → List OpenCall × Machine V → Prop
  /-- It goes on in the same code; the top-level code also comes to the end of the program. -/
  | stay {calls : List OpenCall} {m m' : Machine V} :
    a.Holds p unit m'.line ∨ unit = none ∧ m'.line = linked.size →
      Moves p a linked w unit (calls, m) (calls, m')
  /-- It calls a function, at the first line of its section. -/
  | call {calls : List OpenCall} {m m' : Machine V} {f : String} {k : Nat} :
    f ∈ p.callGraph.callees unit → p.sectionIndex? (some f) = some k → m'.line = a.start k →
    m'.registers .ra = w.ofLine (m.line + 1) →
      Moves p a linked w unit (calls, m) (⟨a.start k, m.line + 1⟩ :: calls, m')
  /-- It is the last line of a function and goes back to the line after the call. -/
  | back {calls : List OpenCall} {m : Machine V} {c : OpenCall} {k : Nat} :
    p.sectionIndex? unit = some k → m.line + 1 = a.start (k + 1) →
      Moves p a linked w unit (c :: calls, m) (calls, { m with line := c.back })

/-- A state of a run is in order, with the given chain of activations. -/
structure Standing {V : Type} (p : Resolved.Program) (a : Assembly) (linked : Linked) (w : World V)
    (calls : List OpenCall) (m : Machine V) (unit : Option String) (units : List (Option String)) :
    Prop where
  stack : CallStack p a calls (unit :: units)
  distinct : (unit :: units).Nodup
  line : a.Holds p unit m.line ∨ unit = none ∧ m.line = linked.size
  /-- A register that a line jumps through holds the line after the latest open call. -/
  returns : ∀ i reg, linked.instructions[m.line]? = some i → i.opcode = .jump →
    i.operands = [.register reg] → ∃ c rest, calls = c :: rest ∧ m.registers reg = w.ofLine c.back
  /-- Unless the program is over, there is a next state. -/
  moves : m.line = linked.size ∨
    ∃ s, linked.track w (calls, m) = some s ∧ Moves p a linked w unit (calls, m) s

theorem Linked.calls_of_track_jump {V : Type} {w : World V} {linked : Linked} {m m' : Machine V}
    {calls calls' : List OpenCall} {i : Instruction} {reg : Register}
    (hi : linked.instructions[m.line]? = some i) (hjump : i.opcode = .jump)
    (hreg : i.operands = [.register reg])
    (h : linked.track w (calls, m) = some (calls', m')) : calls' = calls.tail := by
  simp only [track, hi, Option.bind_eq_bind, Option.bind_some, Option.bind_eq_some_iff,
    Option.pure_def, Option.some.injEq, Prod.mk.injEq] at h
  obtain ⟨_, -, rfl, -⟩ := h
  simp [Instruction.track, hjump, hreg]

namespace Lowering.Build

variable {V : Type} {w : World V} {image : Image} {m m' : Machine V} {ctx : Context}
  {p : Resolved.Program} {a : Assembly} {b : Build ctx p a} {k : Nat} {q : Routine}
  {calls calls' : List OpenCall}

/-! ## Sections and chains -/

theorem Settled.sectionIndex? (hp : p.WellScoped) (hq : b.Settled k q) :
    p.sectionIndex? (some q.function.name) = some (k + 1) := by
  obtain ⟨hlt, hk⟩ := List.getElem?_eq_some_iff.1 hq.function
  have hfind : p.functions.findIdx? (·.name = q.function.name) = some k := by
    refine List.findIdx?_eq_some_iff_getElem.2 ⟨hlt, by simp [hk], fun j hj hname => ?_⟩
    have hnames : (p.functions.map Resolved.Function.name)[j]? =
        (p.functions.map Resolved.Function.name)[k]? := by
      simp only [List.getElem?_map, List.getElem?_eq_getElem hlt,
        List.getElem?_eq_getElem (Nat.lt_trans hj hlt), Option.map_some, hk]
      simpa using hname
    have hinj := (List.nodup_iff_getElem?_ne_getElem?.1 hp.names) j k hj (by simpa using hlt)
    exact hinj hnames
  simp [Resolved.Program.sectionIndex?, hfind]

theorem Settled.mem_functionOrder (hp : p.WellScoped) (hq : b.Settled k q) :
    q.function.name ∈ p.functionOrder := by
  obtain ⟨x, hx, heq, -⟩ := b.exists_pass hp hq.function
  rw [← Context.names_of_passes b.passed, ← heq]
  exact List.mem_map_of_mem hx

theorem holds_of_inBody (hp : p.WellScoped) (hq : b.Settled k q) {n : Nat}
    (hn : q.InBody a k n) : a.Holds p (some q.function.name) n :=
  ⟨k + 1, hq.sectionIndex? hp, Nat.le_trans (Nat.le_add_right _ _) hn.1, hn.2⟩

/-- An activation that was called from the top-level code. -/
structure FromMain (b : Build ctx p a) (x : Activation) : Prop where
  callee : x.name ∈ p.callGraph.callees none
  site : ∃ n < Code.size b.code, x.back = n + 1

/-- In a program with functions, all lines up to the jump past them are top-level code. -/
theorem Layout.holds_main (hlayout : b.Layout image) (hq : b.Settled k q) {n : Nat}
    (hn : n ≤ Code.size b.code) : a.Holds p none n := by
  have hne : p.functions ≠ [] := List.ne_nil_of_mem (List.mem_of_getElem? hq.function)
  have hsize := hlayout.mainSize
  simp only [exitCode, hne, if_false, Code.size_append] at hsize
  refine ⟨0, rfl, by simp [Assembly.start], ?_⟩
  rw [hsize]
  exact Nat.lt_succ_of_le hn

theorem Layout.main_cases (hlayout : b.Layout image) {n : Nat} (hn : n ≤ Code.size b.code) :
    a.Holds p none n ∨ n = image.linked.size := by
  have hsize := hlayout.mainSize
  have hlinked := hlayout.size
  rcases Nat.lt_or_ge n (a.start 1) with hlt | hge
  · exact Or.inl ⟨0, rfl, by simp [Assembly.start], hlt⟩
  · right
    by_cases hnil : p.functions = []
    · simp only [exitCode, hnil, if_true, List.append_nil] at hsize hlinked
      omega
    · simp only [exitCode, hnil, if_false, Code.size_append] at hsize
      have : Code.size [Origin.line ⟨"program end", .first⟩ .jump [.label .programEnd]] = 1 := rfl
      omega

/-- The activations of a stack are a chain of calls from the top-level code. -/
theorem Stack.callStack (hp : p.WellScoped) (hlayout : b.Layout image)
    {xs : List Activation} (h : b.Stack b.FromMain xs) :
    CallStack p a (xs.map (·.openCall a)) (xs.map Activation.unit ++ [none]) := by
  induction h with
  | @first x hx hbottom =>
    obtain ⟨hcallee, n, hn, hback⟩ := hbottom
    have hcall := CallStack.call .main hcallee (hx.sectionIndex? hp)
      (hlayout.holds_main hx (Nat.le_of_lt hn)) (hlayout.holds_main hx hn)
    simpa [Activation.openCall, Activation.unit, hback] using hcall
  | @call x y rest hx hcalls hrest ih =>
    obtain ⟨hcallee, -, ⟨n, hn, hback⟩, hbody⟩ := hcalls
    rw [hback] at hbody
    have hcall := CallStack.call ih hcallee (hx.sectionIndex? hp)
      (holds_of_inBody hp hrest.settled hn) (holds_of_inBody hp hrest.settled hbody)
    simpa [Activation.openCall, Activation.unit, hback] using hcall

/-- Along a stack, the functions come in the order that puts callers first. -/
theorem Stack.idxOf_lt (hp : p.WellScoped) {bottom : Activation → Prop} {x y : Activation}
    {rest : List Activation} (h : b.Stack bottom (x :: rest)) (hy : y ∈ rest) :
    p.functionOrder.idxOf y.name < p.functionOrder.idxOf x.name := by
  induction rest generalizing x with
  | nil => cases hy
  | cons z rest ih =>
    cases h with
    | call hx hcalls hrest =>
      have hlt : p.functionOrder.idxOf z.name < p.functionOrder.idxOf x.name :=
        p.callGraph.idxOf_lt_of_mem_callees (hrest.settled.mem_functionOrder hp)
          (hx.mem_functionOrder hp) hcalls.callee
      rcases List.mem_cons.1 hy with rfl | hy
      · exact hlt
      · exact Nat.lt_trans (ih hrest hy) hlt

/-- No function has two activations. -/
theorem Stack.nodup (hp : p.WellScoped) {bottom : Activation → Prop} {xs : List Activation}
    (h : b.Stack bottom xs) : (xs.map Activation.name).Nodup := by
  induction h with
  | first => simp
  | @call x y rest hx hcalls hrest ih =>
    refine List.nodup_cons.2 ⟨fun hmem => ?_, ih⟩
    obtain ⟨z, hz, heq⟩ := List.mem_map.1 hmem
    exact absurd (Stack.idxOf_lt hp (.call hx hcalls hrest) hz) (by simp [heq])

/-! ## The top-level code -/

/-- What a line of placed code does, if the code fits and its calls were noted: it stays there, or
calls a function. -/
theorem track_placed (hp : p.WellScoped) (hlayout : b.Layout image) {first : Nat} {code : Code}
    (hplaced : image.Placed first code) {writes : Register → Prop} {s s' : State}
    {callees : List String} (hfits : Code.Fits writes (Noted s s' callees) code)
    (hcalls : ∀ e ∈ s'.liveAtCalls, e ∈ b.calls) {caller : Option String}
    (hcallees : ∀ f ∈ callees, f ∈ p.callGraph.callees caller) (hfirst : first ≤ m.line)
    (hlast : m.line < first + Code.size code) (calls : List OpenCall) :
    (∃ m', image.linked.track w (calls, m) = some (calls, m') ∧ first ≤ m'.line ∧
        m'.line ≤ first + Code.size code) ∨
      ∃ x : Activation, b.Settled x.index x.routine ∧ x.name ∈ callees ∧ x.back = m.line + 1 ∧
        image.linked.track w (calls, m) = some (x.openCall a :: calls, x.entered a w m) := by
  obtain ⟨l, hl, hline⟩ := hplaced.exists_hasLine hfirst hlast
  have hlabels : ∀ label, Piece.label label ∈ code →
      ∃ n, image.addresses.lookup label = some n := fun label hlabel =>
    (hplaced.address hlabel).imp fun n hn => hn.1
  rcases (hfits l hl).track (w := w) hline hlabels calls with
    ⟨m', htrack, hgoes, -⟩ | ⟨f, live, n, ⟨hf, hnoted, -⟩, hn, htrack⟩
  · refine Or.inl ⟨m', htrack, ?_⟩
    rcases hgoes with hgoes | ⟨label, hlabel, haddress⟩
    · omega
    · obtain ⟨n, hn, hge, hle⟩ := hplaced.address hlabel
      rw [haddress, Option.some.injEq] at hn
      omega
  · obtain ⟨k, q, hq, rfl, -⟩ := b.exists_callee hp (hcallees f hf) (hcalls _ hnoted)
    rw [(hlayout.parts hq).address, Option.some.injEq] at hn
    exact Or.inr ⟨⟨k, q, m.line + 1⟩, hq, hf, rfl, by rw [htrack, ← hn]; rfl⟩

/-- What a line of the top-level code does: it stays there, or calls a function. -/
theorem track_main (hp : p.WellScoped) (hlayout : b.Layout image)
    (hm : m.line < Code.size b.code) (calls : List OpenCall) :
    (∃ m', image.linked.track w (calls, m) = some (calls, m') ∧ m'.line ≤ Code.size b.code) ∨
      ∃ x : Activation, b.Settled x.index x.routine ∧ b.FromMain x ∧ x.back = m.line + 1 ∧
        image.linked.track w (calls, m) = some (x.openCall a :: calls, x.entered a w m) := by
  have hplaced := (Image.placed_append.1 hlayout.main).1
  rcases track_placed (w := w) hp hlayout hplaced (fits_of_items (b.lowered hp)) b.grows.calls
      (fun f hf => Resolved.Program.mem_callees_main hf) (Nat.zero_le _) (by simpa using hm)
      calls with
    ⟨m', htrack, -, hle⟩ | ⟨x, hx, hf, hback, htrack⟩
  · exact Or.inl ⟨m', htrack, by simpa using hle⟩
  · have hmain : b.FromMain x := ⟨Resolved.Program.mem_callees_main hf, m.line, hm, hback⟩
    exact Or.inr ⟨x, hx, hmain, hback, htrack⟩

/-- The jump past the functions leads to the end of the program. -/
theorem track_exit (hlayout : b.Layout image) (hm : m.line = Code.size b.code)
    (hend : m.line ≠ image.linked.size) (calls : List OpenCall) :
    image.linked.track w (calls, m) = some (calls, { m with line := image.linked.size }) := by
  obtain ⟨⟨origin, hexit⟩, hfinish⟩ := hlayout.exit.resolve_left (hm ▸ hend)
  rw [← hm] at hexit
  exact hexit.track_plain (hexit.step?_jump hfinish) (by simp) (fun _ => ⟨_, rfl⟩) calls

/-! ## Runs -/

/-- A state of a run from the first line: in the top-level code, or with activations that were
called from there. -/
inductive InOrder (b : Build ctx p a) (image : Image) (w : World V) :
    List Activation → Machine V → Prop
  | main {m : Machine V} : m.line ≤ Code.size b.code ∨ m.line = image.linked.size →
    InOrder b image w [] m
  | running {x : Activation} {rest : List Activation} {m : Machine V} :
    b.Running w b.FromMain x rest m → InOrder b image w (x :: rest) m

namespace InOrder

variable {xs : List Activation}

theorem line (hp : p.WellScoped) (hlayout : b.Layout image) (h : b.InOrder image w xs m) :
    a.Holds p (xs.head?.map Activation.name) m.line ∨
      xs.head?.map Activation.name = none ∧ m.line = image.linked.size := by
  cases h with
  | main hm =>
    rcases hm with hm | hm
    · exact (hlayout.main_cases hm).imp_right fun hend => ⟨rfl, hend⟩
    · exact Or.inr ⟨rfl, hm⟩
  | running hrunning =>
    exact Or.inl ⟨_, hrunning.stack.settled.sectionIndex? hp, hrunning.line⟩

theorem callStack (hp : p.WellScoped) (hlayout : b.Layout image) (h : b.InOrder image w xs m) :
    CallStack p a (xs.map (·.openCall a)) (xs.map Activation.unit ++ [none]) := by
  cases h with
  | main _ => exact .main
  | running hrunning => exact hrunning.stack.callStack hp hlayout

theorem nodup (hp : p.WellScoped) (h : b.InOrder image w xs m) :
    (xs.map Activation.unit ++ [none]).Nodup := by
  have hnames : (xs.map Activation.name).Nodup := by
    cases h with
    | main _ => exact List.nodup_nil
    | running hrunning => exact hrunning.stack.nodup hp
  have hunits : (xs.map Activation.unit).Nodup := by
    have hsome := hnames.map fun _ _ => Option.some.inj
    rwa [List.map_map] at hsome
  exact List.nodup_append'.2 ⟨hunits, by simp, by simp [Activation.unit]⟩

/-- One line leads from a state that is in order to another one. -/
theorem step (hp : p.WellScoped) (hlayout : b.Layout image) (h : b.InOrder image w xs m) :
    m.line = image.linked.size ∨
      ∃ xs' m', image.linked.track w (xs.map (·.openCall a), m) =
          some (xs'.map (·.openCall a), m') ∧
        b.InOrder image w xs' m' ∧
        Moves p a image.linked w (xs.head?.map Activation.name) (xs.map (·.openCall a), m)
          (xs'.map (·.openCall a), m') := by
  cases h with
  | main hm =>
    by_cases hend : m.line = image.linked.size
    · exact Or.inl hend
    have hm := hm.resolve_right hend
    right
    rcases Nat.lt_or_eq_of_le hm with hlt | heq
    · rcases track_main (w := w) hp hlayout hlt [] with
        ⟨m', htrack, hline⟩ | ⟨x, hx, hmain, hback, htrack⟩
      · have hinOrder : b.InOrder image w [] m' := .main (Or.inl hline)
        exact ⟨[], m', htrack, hinOrder, .stay (hinOrder.line hp hlayout)⟩
      · refine ⟨[x], _, htrack, .running (.enter hlayout (.first hx hmain) (by simp)), ?_⟩
        have hcall : Moves p a image.linked w none ([], m)
            ([⟨a.start (x.index + 1), m.line + 1⟩], x.entered a w m) :=
          .call hmain.callee (hx.sectionIndex? hp) rfl (by simp [Activation.entered, hback])
        rwa [← hback] at hcall
    · have hinOrder : b.InOrder image w [] { m with line := image.linked.size } :=
        .main (Or.inr rfl)
      exact ⟨[], _, track_exit hlayout heq hend [], hinOrder, .stay (hinOrder.line hp hlayout)⟩
  | @running x rest _ hrunning =>
    right
    have hx := hrunning.stack.settled
    rcases hrunning.track hp hlayout ((x :: rest).map (·.openCall a)) with
      ⟨m', htrack, hrunning', -⟩ | ⟨y, htrack, hrunning', hback⟩ | ⟨htrack, hlast, -, -⟩
    · have hinOrder : b.InOrder image w (x :: rest) m' := .running hrunning'
      exact ⟨x :: rest, m', htrack, hinOrder, .stay (hinOrder.line hp hlayout)⟩
    · refine ⟨y :: x :: rest, _, htrack, .running hrunning', ?_⟩
      cases hrunning'.stack with
      | call hy hcalls _ =>
        have hcall : Moves p a image.linked w (some x.name) ((x :: rest).map (·.openCall a), m)
            (⟨a.start (y.index + 1), m.line + 1⟩ :: (x :: rest).map (·.openCall a),
              y.entered a w m) :=
          .call hcalls.callee (hy.sectionIndex? hp) rfl (by simp [Activation.entered, hback])
        rwa [← hback] at hcall
    · cases rest with
      | nil =>
        cases hrunning.stack with
        | first _ hmain =>
          obtain ⟨-, n, hn, hback⟩ := hmain
          refine ⟨[], _, htrack, .main (Or.inl ?_), .back (hx.sectionIndex? hp) hlast⟩
          exact hback ▸ hn
      | cons y rest =>
        exact ⟨y :: rest, _, htrack, .running hrunning.pop, .back (hx.sectionIndex? hp) hlast⟩

/-- A line that jumps through a register is the one that returns from the latest activation. -/
theorem returns (hp : p.WellScoped) (hlayout : b.Layout image) (h : b.InOrder image w xs m)
    {i : Instruction} {reg : Register} (hi : image.linked.instructions[m.line]? = some i)
    (hjump : i.opcode = .jump) (hreg : i.operands = [.register reg]) :
    ∃ x rest, xs = x :: rest ∧ m.registers reg = w.ofLine x.back := by
  cases h with
  | main hm =>
    -- no line of the top-level code closes a call that would be open
    have hend : m.line ≠ image.linked.size := by
      have := (List.getElem?_eq_some_iff.1 hi).1
      exact Nat.ne_of_lt this
    exfalso
    rcases Nat.lt_or_eq_of_le (hm.resolve_right hend) with hlt | heq
    · rcases track_main (w := w) hp hlayout hlt [⟨0, 0⟩] with ⟨m', htrack, -⟩ | ⟨x, -, -, -, htrack⟩
      · cases Linked.calls_of_track_jump hi hjump hreg htrack
      · cases Linked.calls_of_track_jump hi hjump hreg htrack
    · cases Linked.calls_of_track_jump hi hjump hreg (track_exit (w := w) hlayout heq hend [⟨0, 0⟩])
  | @running x rest _ hrunning =>
    refine ⟨x, rest, rfl, ?_⟩
    rcases hrunning.track hp hlayout [⟨0, 0⟩] with
      ⟨m', htrack, -, -⟩ | ⟨y, htrack, -, -⟩ | ⟨-, -, ⟨i', hi', -, hoperands⟩, haddress⟩
    · cases Linked.calls_of_track_jump hi hjump hreg htrack
    · cases Linked.calls_of_track_jump hi hjump hreg htrack
    · rw [hi, Option.some.injEq] at hi'
      have hret : [Operand.register x.routine.ret] = [.register reg] := by
        rw [← hreg, hi']
        exact Except.ok.inj hoperands
      cases hret
      exact haddress

theorem standing (hp : p.WellScoped) (hlayout : b.Layout image) (h : b.InOrder image w xs m) :
    ∃ unit units, Standing p a image.linked w (xs.map (·.openCall a)) m unit units := by
  obtain ⟨units, hunits⟩ :
      ∃ units, xs.map Activation.unit ++ [none] = xs.head?.map Activation.name :: units := by
    cases xs <;> exact ⟨_, rfl⟩
  refine ⟨_, units, ⟨hunits ▸ h.callStack hp hlayout, hunits ▸ h.nodup hp, h.line hp hlayout, ?_,
    ?_⟩⟩
  · intro i reg hi hjump hreg
    obtain ⟨x, rest, rfl, haddress⟩ := h.returns hp hlayout hi hjump hreg
    exact ⟨_, _, rfl, haddress⟩
  · rcases h.step hp hlayout with hend | ⟨xs', m', htrack, -, hmoves⟩
    · exact Or.inl hend
    · exact Or.inr ⟨_, htrack, hmoves⟩

/-- Every state that a run comes to is in order. -/
theorem of_reachable (hp : p.WellScoped) (hlayout : b.Layout image) {registers : Register → V}
    (h : image.linked.Reachable w registers calls m) :
    ∃ xs : List Activation, calls = xs.map (·.openCall a) ∧ b.InOrder image w xs m := by
  suffices hall : ∀ s, Relation.ReflTransGen (fun s s' => image.linked.track w s = some s')
      ([], .start registers) s →
      ∃ xs : List Activation, s.1 = xs.map (·.openCall a) ∧ b.InOrder image w xs s.2 from
    hall _ h
  intro s hs
  induction hs with
  | refl => exact ⟨[], rfl, .main (Or.inl (Nat.zero_le _))⟩
  | @tail s s' _ htrack ih =>
    obtain ⟨xs, hcalls, hinOrder⟩ := ih
    rcases hinOrder.step hp hlayout with hend | ⟨xs', m', htrack', hinOrder', -⟩
    · -- after the last line there is no next state
      have hnone : image.linked.instructions[s.2.line]? = none :=
        List.getElem?_eq_none (Nat.le_of_eq hend.symm)
      simp [Linked.track, hnone] at htrack
    · rw [← hcalls, htrack, Option.some.injEq] at htrack'
      exact ⟨xs', by rw [htrack'], by rw [htrack']; exact hinOrder'⟩

end InOrder

end Lowering.Build

open Lowering (Generated)

/-- In every program that can be resolved, lowered and linked, every state that a run can come to
is in order, whatever the world is and whatever the registers hold at first. -/
theorem Program.standing_of_reachable {V : Type} {file source : String} {strict : Bool}
    {limits : Limits}
    {options : Options} {p : Program} {r : Resolved.Program} {g : Generated} {linked : Linked}
    (hresolve : p.resolve source strict limits = .ok r)
    (hgenerate : (r.generate file options).2 = .ok g) (hlink : g.assembly.link = .ok linked)
    {w : World V} {registers : Register → V} {calls : List OpenCall} {m : Machine V}
    (h : linked.Reachable w registers calls m) :
    ∃ unit units, Standing r g.assembly linked w calls m unit units := by
  have hp := wellScoped_of_resolve hresolve
  obtain ⟨b, -⟩ := Resolved.Program.build_of_generate hgenerate
  obtain ⟨image, rfl, hlayout⟩ := b.layout_of_link hlink
  obtain ⟨xs, rfl, hinOrder⟩ := Lowering.Build.InOrder.of_reachable hp hlayout h
  exact hinOrder.standing hp hlayout

/-- In the middle of the call of `g` from `f`, both calls are open. -/
theorem Program.chain_standing : ∃ r g linked, chain.resolve "chain" true = .ok r ∧
    (r.generate "chain" {}).2 = .ok g ∧ g.assembly.link = .ok linked ∧
    ∃ calls m, linked.Reachable .whole (fun _ => 7) calls m ∧ calls = [⟨4, 10⟩, ⟨6, 3⟩] ∧
      ∃ unit units, Standing r g.assembly linked .whole calls m unit units := by
  have hsome : (((chain.resolve "chain" true).toOption.bind fun r =>
      (r.generate "chain" {}).2.toOption.bind fun g => g.assembly.link.toOption.bind fun linked =>
      linked.trackFor .whole 7 ([], .start fun _ => 7)).filter
        fun s => s.1 = [⟨4, 10⟩, ⟨6, 3⟩]).isSome := by decide +kernel
  obtain ⟨s, hs⟩ := Option.isSome_iff_exists.1 hsome
  obtain ⟨hs, hcalls⟩ := Option.filter_eq_some_iff.1 hs
  obtain ⟨r, hr, hs⟩ := Option.bind_eq_some_iff.1 hs
  obtain ⟨g, hg, hs⟩ := Option.bind_eq_some_iff.1 hs
  obtain ⟨linked, hlinked, hs⟩ := Option.bind_eq_some_iff.1 hs
  rw [toOption_eq_some] at hr hg hlinked
  have hreachable : linked.Reachable .whole (fun _ => 7) s.1 s.2 :=
    Linked.reflTransGen_of_trackFor hs
  exact ⟨r, g, linked, hr, hg, hlinked, s.1, s.2, hreachable, by simpa using hcalls,
    standing_of_reachable hr hg hlinked hreachable⟩

end Chipwright
