import Chipwright.Proofs.Relabeling.Lowering
import Chipwright.Proofs.Stages

/-!
# Programs under other names and places

The stages after the reading of a text, put together: a program is resolved, lowered and linked, and
a program with other names and places takes the same way.
-/
namespace Chipwright

open Lowering

variable {m : Relabeling}

theorem elementAt?_forall₂ {α β : Type} {R : α → β → Prop} {xs : List α} {ys : List β}
    (h : List.Forall₂ R xs ys) (i : Int) : Option.Rel R (elementAt? xs i) (elementAt? ys i) := by
  unfold elementAt?
  rw [h.length_eq]
  cases index? ys.length i with
  | none => exact .none
  | some n =>
    induction h generalizing n with
    | nil => exact .none
    | cons hxy _ ih =>
      cases n with
      | zero => exact .some hxy
      | succ n => exact ih n

theorem Lowering.matches_checkLength {a a' : Assembly} (h : a.Alike m a') (maxLines : Int) :
    Matches m.Retells Eq (checkLength maxLines a) (checkLength maxLines a') := by
  unfold checkLength
  rw [h.size_eq]
  split
  · exact Matches.ok rfl
  · have hcrossing := elementAt?_forall₂ h.instructions maxLines
    generalize elementAt? a.instructions maxLines = i at hcrossing ⊢
    generalize elementAt? a'.instructions maxLines = i' at hcrossing ⊢
    cases hcrossing with
    | none => exact Matches.error (.refl rfl rfl)
    | some hi =>
      refine Matches.error (.diagnostic rfl (fun hm => ?_) hi.location)
      rw [(hi.texts hm).1]

/-- The same lowered program under other names and places. -/
structure Lowering.Generated.Alike (m : Relabeling) (g g' : Generated) : Prop where
  assembly : g.assembly.Alike m g'.assembly
  registers : g.registers = g'.registers

theorem Resolved.Program.matches_generate (file : String) (options : Options)
    (p : Resolved.Program) :
    Matches m.Retells (Generated.Alike m) (p.generate file options).2
      ((p.relabel m).generate file options).2 := by
  cases hpool : RegisterPool.ofCount options.registerCount [] with
  | error e =>
    have hretells := Lowering.Context.matches_ofCount (m := m) options.registerCount []
    rw [hpool] at hretells
    simp only [generate, hpool]
    exact Matches.error hretells
  | ok pool =>
    have hstart : State.Alike m { pool } { pool } := ⟨[], rfl⟩
    have hctx : (⟨file, options, p.relabel m⟩ : Lowering.Context) =
        Lowering.Context.relabel m ⟨file, options, p⟩ := rfl
    rw [generate_eq hpool, generate_eq hpool, hctx]
    generalize (⟨file, options, p⟩ : Lowering.Context) = ctx
    have hsections := ctx.alike_sections p _ _ hstart
    generalize ctx.sections p { pool } = run at hsections ⊢
    generalize (ctx.relabel m).sections (p.relabel m) { pool } = run' at hsections ⊢
    cases run with
    | ok ss s =>
      cases run' with
      | ok ss' s' =>
        obtain ⟨hss, log, rfl⟩ := hsections
        have hassembly : Assembly.Alike m ⟨ss, s.parameters⟩ ⟨ss', (s.relabel m).parameters⟩ :=
          ⟨hss, rfl⟩
        exact (matches_checkLength hassembly options.maxLines).bind fun _ _ _ =>
          Matches.ok ⟨hassembly, rfl⟩
      | error e' s' => cases hsections
    | error e s =>
      cases run' with
      | ok ss' s' => cases hsections
      | error e' s' => exact hsections

namespace Program

/-- The stages that a program goes through: what it is lowered to, and that linked. -/
def build (file : String) (options : Options) (p : Program) :
    Except Failure (Generated × Linked) := do
  let r ← (p.resolve file options.strictProperties options.limits).mapError Failure.atFault
  let g ← (r.generate file options).2.mapError Failure.atFault
  let linked ← g.assembly.link.mapError Failure.link
  return (g, linked)

/-- The same linked program, which uses the same registers. -/
structure SameBuild (m : Relabeling) (b b' : Generated × Linked) : Prop where
  instructions : List.Forall₂ (Instruction.Alike m) b.2.instructions b'.2.instructions
  registers : b.1.registers = b'.1.registers

/-- Names and places have no part in what a program is built into, and in whether it is. -/
theorem matches_build (file : String) (options : Options) (p : Program) :
    Matches m.Retells (SameBuild m) (p.build file options) ((p.relabel m).build file options) := by
  refine ((p.carries_resolve file options.strictProperties options.limits).attach.map_error
    fun _ _ => Relabeling.Retells.atFault).bind ?_
  rintro r _ ⟨rfl, hresolve, -⟩
  refine ((r.matches_generate file options).attach.map_error
    fun _ _ => Relabeling.Retells.atFault).bind ?_
  rintro g g' ⟨hg, hgenerate, -⟩
  obtain ⟨linked, hlink⟩ := exists_link_of_generate hresolve hgenerate
  obtain ⟨linked', hlink', hinstructions⟩ := hg.assembly.exists_link hlink
  rw [hlink, hlink']
  exact Matches.ok ⟨hinstructions, hg.registers⟩

end Program

/-- What the chip gets of a compilation, its number of lines and the registers it uses. -/
def Compiled.product (c : Compiled) : String × Nat × List Register :=
  (c.assembly, c.lineCount, c.registers)

/-- A compilation reads a program from the source and builds it. -/
theorem Compile.map_product_stages (options : Options) (file : String) (source : List Char) :
    (stages options file source).result.map Compiled.product = (do
      let ts ← TokenList.ofSource file source
      let p ← ts.program file source options.limits
      let b ← p.build file options
      return (b.2.render options.emitComments, b.2.size, b.1.registers)) := by
  rw [result_stages]
  cases TokenList.ofSource file source with
  | error e => rfl
  | ok ts =>
    change Except.map _ (ts.program file source _ >>= _) = (ts.program file source _ >>= _)
    cases ts.program file source options.limits with
    | error e => rfl
    | ok p =>
      change Except.map _ (Except.mapError _ (p.resolve _ _ _) >>= _) =
        ((Except.mapError _ (p.resolve _ _ _) >>= _) >>= _)
      cases p.resolve file options.strictProperties options.limits with
      | error e => rfl
      | ok r =>
        change Except.map _ (Except.mapError _ (r.generate _ _).2 >>= _) =
          ((Except.mapError _ (r.generate _ _).2 >>= _) >>= _)
        cases (r.generate file options).2 with
        | error e => rfl
        | ok g =>
          change Except.map _ (Except.mapError _ g.assembly.link >>= _) =
            ((Except.mapError _ g.assembly.link >>= _) >>= _)
          cases g.assembly.link <;> rfl

end Chipwright
