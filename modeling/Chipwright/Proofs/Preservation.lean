import Chipwright.Proofs.RegisterSeparation
import Chipwright.Proofs.Resolved.Refinement
import Chipwright.Proofs.Simulation.Statement

/-!
# Programs and their code

The code of a program does what the program means: it reads and writes the same properties of
devices and pauses at the same times, and it comes to its end if and only if the program does. This
is said of runs that have a meaning; if a program uses a variable of the top level before its
definition has been executed, its code may do anything from then on.

## Main definitions

* `Linked.Performs` — a linked program does what runs with bounds do.

## Main statements

* `Program.performs_of_generate` — the code of every program does what the program means.
-/
namespace Chipwright

variable {V : Type} {w : World V}

/-- A linked program, started with certain registers, does what runs with bounds do. -/
structure Linked.Performs (w : World V) (p : Linked) (registers : Register → V)
    (run : Nat → Outcome V Unit) : Prop where
  /-- If a run ends, so does the program, after the same events. -/
  done : ∀ bound trace, run bound = .done () trace →
    ∃ n m, p.Steps w n (.start registers) m ∧ m.line = p.size ∧ m.trace = trace
  /-- If a run goes on, so does the program, for more and more lines. -/
  cut : ∀ bound trace, run bound = .cut trace →
    ∃ n m, bound ≤ n ∧ p.Steps w n (.start registers) m ∧ m.trace = trace
  /-- The program does nothing else: after any number of lines, its events are the first ones of
  a run with that bound. -/
  events : ∀ n m, p.Steps w n (.start registers) m → run n = .undefined ∨
    ∃ trace, (run n = .done () trace ∨ run n = .cut trace) ∧ m.trace <+: trace
  /-- The program only comes to its end if the run does. -/
  ends : ∀ n m, p.Steps w n (.start registers) m → m.line = p.size →
    ∀ bound, n < bound → run bound = .undefined ∨ run bound = .done () m.trace

/-- The chip performs what it realizes with every bound. -/
theorem Linked.Performs.of_realizes {p : Linked} {registers : Register → V}
    {run : Nat → Outcome V Unit}
    (h : ∀ bound, p.Realizes w bound (.start registers) (run bound) fun _ m => m.line = p.size) :
    p.Performs w registers run where
  done bound trace hrun := by
    have hbound := h bound
    rw [hrun] at hbound
    obtain ⟨n, m, hsteps, htrace, hend⟩ := hbound
    exact ⟨n, m, hsteps, hend, htrace⟩
  cut bound trace hrun := by
    have hbound := h bound
    rwa [hrun] at hbound
  events n m hsteps := by
    have hbound := h n
    cases hrun : run n with
    | done a trace =>
      rw [hrun] at hbound
      obtain ⟨k, m', hsteps', rfl, hend⟩ := hbound
      exact Or.inr ⟨_, Or.inl rfl, hsteps.trace_of_le hsteps' (hsteps'.le_of_end hend hsteps)⟩
    | cut trace =>
      rw [hrun] at hbound
      obtain ⟨k, m', hle, hsteps', rfl⟩ := hbound
      exact Or.inr ⟨_, Or.inr rfl, hsteps.trace_of_le hsteps' hle⟩
    | undefined => exact Or.inl rfl
  ends n m hsteps hend bound hlt := by
    have hbound := h bound
    cases hrun : run bound with
    | done a trace =>
      rw [hrun] at hbound
      obtain ⟨k, m', hsteps', rfl, hend'⟩ := hbound
      obtain rfl : n = k :=
        Nat.le_antisymm (hsteps'.le_of_end hend' hsteps) (hsteps.le_of_end hend hsteps')
      rw [hsteps.unique hsteps']
      exact Or.inr rfl
    | cut trace =>
      rw [hrun] at hbound
      obtain ⟨k, m', hle, hsteps', -⟩ := hbound
      have := hsteps.le_of_end hend hsteps'
      omega
    | undefined => exact Or.inl rfl

namespace Lowering.Build

variable {ctx : Context} {p : Resolved.Program} {a : Assembly} {b : Build ctx p a} {image : Image}
  {least : Nat} {again : List Resolved.Stmt → Resolved.Execution V}

/-- The code of the top level does what its statements say. Constants, functions and names of
slots have no code but for lines that do nothing. -/
theorem realizes_items (hp : p.WellScoped) (hlayout : b.Layout image)
    (hagain : b.Sound image w least again) {own : List Variable} {is : List Resolved.Item}
    {s₀ s₁ : State} {code : Code} {μ : Memory V} {m : Machine V}
    (h : LoweredItems ctx b.table own is s₀ code s₁)
    (hglobal : ∀ st ∈ is.filterMap Resolved.Item.stmt?, ∀ v ∈ st.binds, v ∈ p.globals →
      v ∈ st.defines)
    (hready : b.Ready image μ (own ++ []) code s₁ m) :
    image.linked.Realizes w (least + 1) m
      (Resolved.Stmt.execAll w p again (is.filterMap Resolved.Item.stmt?) μ m.trace)
      fun _ m' => m'.line = m.line + code.size := by
  induction is generalizing own s₀ code μ m with
  | nil =>
    obtain ⟨rfl, rfl⟩ := Context.items_nil_eq_ok h.lowered
    exact .done (.refl m) rfl rfl
  | cons i is ih =>
    obtain ⟨code₁, s, code₂, rfl, ⟨st, rfl, h₁, h₂⟩ | ⟨hnone, -, hcode, h₂⟩⟩ := h.cons
    · obtain ⟨hplaced₁, hplaced₂⟩ := Image.placed_append.1 hready.placed
      have hreached := hready.toReached.before (Context.effect_of_items h₂.lowered)
      refine (realizes_stmt hp hlayout hagain st h₁ (hglobal st (List.mem_cons_self ..))
        ⟨hreached, hplaced₁, hready.holds⟩).bind fun μ₁ m₁ ⟨hline, hafter⟩ => ?_
      refine (ih h₂ (fun st' hst' => hglobal st' (List.mem_cons_of_mem _ hst'))
        ⟨hready.toReached, hline ▸ hplaced₂, List.append_assoc .. ▸ hafter.holds⟩).mono
        fun _ m' hline' => ?_
      rw [hline', hline, Code.size_append, Nat.add_assoc]
    · rw [List.filterMap_cons_none hnone] at hglobal ⊢
      rcases hcode with rfl | ⟨origin, name, slot, rfl⟩
      · have hrest := ih h₂ hglobal ⟨hready.toReached, hready.placed, hready.holds⟩
        exact hrest
      · obtain ⟨hline, hplaced⟩ := hready.placed
        have hrest := ih (m := { m with line := m.line + 1 }) h₂ hglobal
          ⟨hready.toReached, hplaced, hready.holds⟩
        refine ((hrest.mono fun _ m' hline' => ?_).steps
          (.single hline.step?_nameDevice)).of_le (Nat.le_add_left ..)
        simp only [hline', Origin.line, Code.size_append, Code.size_line, Code.size_finish,
          Code.size_nil]
        omega

/-- From the first line on, the chip does what a run of the program does, and comes to the end
if that ends. -/
theorem realizes_run (hp : p.WellScoped) (hlayout : b.Layout image) (w : World V)
    (registers : Register → V) (bound : Nat) :
    image.linked.Realizes w bound (.start registers) (p.run w bound)
      fun _ m => m.line = image.linked.size := by
  cases bound with
  | zero => exact ⟨0, _, Nat.le_refl 0, .refl _, rfl⟩
  | succ bound =>
    have hholds : b.Holds (fun _ => none) [] registers :=
      ⟨fun v hv => absurd hv List.not_mem_nil, fun v _ hμ => absurd rfl hμ⟩
    have hitems := realizes_items (m := .start registers) hp hlayout
      (sound_execWithin hp hlayout w bound) (b.lowered hp)
      (fun st hst v hv hglobal => hp.mem_defines_of_mem_globals hst hv hglobal)
      ⟨⟨b.grows.calls, fun hra => b.handedOut_top hra rfl⟩,
        (Image.placed_append.1 hlayout.main).1, hholds⟩
    refine (hitems.append fun _ m hline => ?_).bind fun _ m hend => .done (.refl m) rfl hend
    rw [Machine.start, Nat.zero_add] at hline
    rcases hlayout.exit with hsize | ⟨⟨origin, hexit⟩, hfinish⟩
    · exact ⟨0, m, .refl m, rfl, hline.trans hsize⟩
    · rw [← hline] at hexit
      exact ⟨1, _, .single (hexit.step?_jump hfinish), rfl, rfl⟩

end Lowering.Build

open Lowering (Generated)

/-- In every program that can be resolved, lowered and linked, the linked program does what the
program means, whatever the world is and whatever the registers hold at first. -/
theorem Program.performs_of_generate {file source : String} {strict : Bool} {limits : Limits}
    {options : Options} {p : Program} {r : Resolved.Program} {g : Generated} {linked : Linked}
    (hresolve : p.resolve source strict limits = .ok r)
    (hgenerate : (r.generate file options).2 = .ok g) (hlink : g.assembly.link = .ok linked)
    (w : World V) (registers : Register → V) : linked.Performs w registers (p.run w) := by
  obtain ⟨b, -⟩ := Resolved.Program.build_of_generate hgenerate
  obtain ⟨image, rfl, hlayout⟩ := b.layout_of_link hlink
  refine .of_realizes fun bound => ?_
  rcases p.run_eq_of_resolve hresolve w bound with hundefined | heq
  · rw [hundefined]
    trivial
  · rw [heq]
    exact Lowering.Build.realizes_run (wellScoped_of_resolve hresolve) hlayout w registers bound

/-- The program `let x = 0; fn bump(by) { x = x + by; write x into d0.Setting; } loop { let end = 2;
if x < end { bump(1); } else { read d1.On into x; yield; } }` -/
def Program.counter : Program where
  statements := [
    .define .first (.unplaced "x") (.literal .first (.int 0)),
    .function .first (.unplaced "bump") [.unplaced "by"] .first [
      .assign (.unplaced "x") (.binary .add (.name (.unplaced "x")) (.name (.unplaced "by"))),
      .write .first (.name (.unplaced "x")) (.direct .first .d0) "Setting"],
    .loop .first .first [
      .define .first (.unplaced "end") (.literal .first (.int 2)),
      .ifElse .first (.binary .lt (.name (.unplaced "x")) (.name (.unplaced "end"))) .first
        [.call (.unplaced "bump") [.literal .first (.int 1)]] .first
        [.read .first (.direct .first .d1) "On" (.unplaced "x"), .yield .first]]]

/-- The program counts to two, asks a device where to go on, and pauses. -/
theorem Program.counter_performs : ∃ r g linked, counter.resolve "counter" true = .ok r ∧
    (r.generate "counter" {}).2 = .ok g ∧ g.assembly.link = .ok linked ∧
    counter.run .whole 4 = .cut [.write .d0 "Setting" 1, .write .d0 "Setting" 2,
      .read .d1 "On" 0, .yield] ∧
    linked.Performs .whole (fun _ => 7) (counter.run .whole) := by
  have hsome : ((counter.resolve "counter" true).toOption.bind fun r =>
      (r.generate "counter" {}).2.toOption.bind fun g => g.assembly.link.toOption).isSome := by
    decide +kernel
  obtain ⟨linked, hlinked⟩ := Option.isSome_iff_exists.1 hsome
  obtain ⟨r, hr, hlinked⟩ := Option.bind_eq_some_iff.1 hlinked
  obtain ⟨g, hg, hlinked⟩ := Option.bind_eq_some_iff.1 hlinked
  rw [toOption_eq_some] at hr hg hlinked
  exact ⟨r, g, linked, hr, hg, hlinked, rfl, performs_of_generate hr hg hlinked .whole fun _ => 7⟩

end Chipwright
