import Chipwright.Proofs.Annotation.Aliases

/-!
# What comments and aliases change

Comments and aliases are there for the reader. Without comments the lines are the same, and in the
text of the program the comments are what follows the first ` # ` of a line. Without aliases the
other lines are the same, with the new numbers of the lines that they jump to.

## Main statements

* `Program.annotations_inert`: what the program is with and without them
-/
namespace Chipwright

open Lowering

/-- Without comments, the text of a program is made of the same lines. -/
theorem Linked.render_uncommented (p : Linked) : p.uncommented.render false = p.render false := by
  rw [render, uncommented, List.map_map, render]
  rfl

/-- What is lowered for a resolved program can be linked without aliases too. -/
theorem Program.link_nameless {file source : String} {strict : Bool} {limits : Limits}
    {options : Options} {p : Program} {r : Resolved.Program} {g : Generated} {linked : Linked}
    (hresolve : p.resolve source strict limits = .ok r) (hg : (r.generate file options).2 = .ok g)
    (hlink : g.assembly.link = .ok linked) :
    g.assembly.withoutAliases.link = .ok linked.withoutAliases := by
  have hp := wellScoped_of_resolve hresolve
  have hfit := callsFit_of_resolve hresolve
  obtain ⟨b, hpool, -⟩ := Resolved.Program.exists_build hg
  have hsize : b.size = options.registerCount.toNat := RegisterPool.size_of_ofCount hpool
  exact Assembly.link_withoutAliases (fun sect hsect e he => b.position_le hp hfit hsize hsect he)
    (fun i hi => b.legal hp hfit hsize hi) hlink

/-- Comments and aliases leave the rest of a program as it is. A program is lowered with comments
if and only if it is lowered without them, and then it has the same lines but for the comments; in
the text of a program that was read from a source, these follow the first ` # ` of a line. A program
that is lowered with aliases is lowered without them, with the same registers and warnings; its
lines are those that are no aliases, and a jump to a line has the number of that line less the
aliases before it. -/
theorem Program.annotations_inert {source : String} {strict : Bool} {limits : Limits} {p : Program}
    {r : Resolved.Program} (file : String) (options : Options)
    (hresolve : p.resolve source strict limits = .ok r) :
    ((∃ g, (r.generate file { options with emitComments := true }).2 = .ok g) ↔
      ∃ g, (r.generate file { options with emitComments := false }).2 = .ok g) ∧
    (∀ g g', (r.generate file { options with emitComments := true }).2 = .ok g →
      (r.generate file { options with emitComments := false }).2 = .ok g' →
      ∃ linked, g.assembly.link = .ok linked ∧ g'.assembly.link = .ok linked.uncommented ∧
        ∀ name text, Program.ofSource name text = .ok p →
          Text.withoutComments (linked.render true) = linked.uncommented.render false) ∧
    ∀ g, (r.generate file { options with emitAliases := true }).2 = .ok g →
      ∃ g', (r.generate file { options with emitAliases := false }).2 = .ok g' ∧
        g'.registers = g.registers ∧
        LogRecord.warnings (r.generate file { options with emitAliases := false }).1 =
          LogRecord.warnings (r.generate file { options with emitAliases := true }).1 ∧
        ∃ linked, g.assembly.link = .ok linked ∧
          g'.assembly.link = .ok linked.withoutAliases := by
  have hsilent : (r.generate file { options with emitComments := false }).2 =
      Generated.uncommented <$> (r.generate file { options with emitComments := true }).2 :=
    congrArg Prod.snd (r.generate_uncommented file { options with emitComments := true })
  refine ⟨?_, fun g g' hg hg' => ?_, fun g hg => ?_⟩
  · rw [hsilent]
    cases (r.generate file { options with emitComments := true }).2 with
    | error e => exact iff_of_false nofun nofun
    | ok g => exact iff_of_true ⟨g, rfl⟩ ⟨g.uncommented, rfl⟩
  · obtain ⟨linked, hlink⟩ := exists_link_of_generate hresolve hg
    obtain rfl : g.uncommented = g' := by
      rw [hsilent, hg] at hg'
      exact Except.ok.inj hg'
    refine ⟨linked, hlink, ?_, fun name text htext => ?_⟩
    · have hsame := g.assembly.link_uncommented
      rw [hlink] at hsame
      exact hsame
    · rw [Linked.render_uncommented]
      exact Linked.withoutComments_render (Resolved.Program.shows_of_link (fun _ h => h)
        (fun _ => trivial) (Resolved.Program.solid_words htext hresolve) hg hlink)
  · obtain ⟨linked, hlink⟩ := exists_link_of_generate hresolve hg
    obtain ⟨hnameless, hwarnings⟩ := Resolved.Program.generate_nameless hg
    exact ⟨g.withoutAliases, hnameless, rfl, hwarnings, linked, hlink,
      link_nameless hresolve hg hlink⟩

/-- A program with two aliases, the first of them before a loop and a function. -/
def Program.pumpingText : String :=
  "fn work() \x7b yield; \x7d def d0 as pump; loop \x7b work(); write 1 into pump.On; \x7d " ++
    "def d1 as vent; let x = 1;"

/-- The program is lowered with comments and with aliases, and so it is the same without them. -/
theorem Program.pumping_annotations_inert : ∃ p r g linked,
    Program.ofSource "pumping" pumpingText.toList = .ok p ∧ p.resolve "pumping" true = .ok r ∧
    (r.generate "pumping" { emitComments := true }).2 = .ok g ∧ g.assembly.link = .ok linked ∧
    linked.instructions.countP Instruction.isAlias = 2 ∧
    (∃ g', (r.generate "pumping" {}).2 = .ok g' ∧ g'.assembly.link = .ok linked.uncommented) ∧
    Text.withoutComments (linked.render true) = linked.uncommented.render false ∧
    ∃ g', (r.generate "pumping" { emitComments := true, emitAliases := false }).2 = .ok g' ∧
      g'.assembly.link = .ok linked.withoutAliases := by
  have hsome : ((Program.ofSource "pumping" pumpingText.toList).toOption.bind fun p =>
      (p.resolve "pumping" true).toOption.bind fun r =>
        (r.generate "pumping" { emitComments := true }).2.toOption.bind fun g =>
          g.assembly.link.toOption.bind fun linked =>
            if linked.instructions.countP Instruction.isAlias = 2 then some (p, r, g, linked)
            else none).isSome := by
    decide +kernel
  obtain ⟨x, hx⟩ := Option.isSome_iff_exists.1 hsome
  obtain ⟨p, hsource, hx⟩ := Option.bind_eq_some_iff.1 hx
  obtain ⟨r, hresolve, hx⟩ := Option.bind_eq_some_iff.1 hx
  obtain ⟨g, hg, hx⟩ := Option.bind_eq_some_iff.1 hx
  obtain ⟨linked, hlink, hx⟩ := Option.bind_eq_some_iff.1 hx
  rw [toOption_eq_some] at hsource hresolve hg hlink
  split at hx
  case isFalse => cases hx
  case isTrue haliases =>
    obtain ⟨hiff, hcomments, -⟩ := annotations_inert "pumping" {} hresolve
    obtain ⟨-, -, haliased⟩ := annotations_inert "pumping" { emitComments := true } hresolve
    obtain ⟨g₁, hg₁⟩ := hiff.1 ⟨g, hg⟩
    obtain ⟨linked₁, hlink₁, huncommented, htext⟩ := hcomments g g₁ hg hg₁
    obtain ⟨g₂, hg₂, -, -, linked₂, hlink₂, hnameless⟩ := haliased g hg
    obtain rfl : linked₁ = linked := Except.ok.inj (hlink₁.symm.trans hlink)
    obtain rfl : linked₂ = linked₁ := Except.ok.inj (hlink₂.symm.trans hlink)
    exact ⟨p, r, g, linked₂, hsource, hresolve, hg, hlink, haliases, ⟨g₁, hg₁, huncommented⟩,
      htext "pumping" _ hsource, g₂, hg₂, hnameless⟩

end Chipwright
