import Chipwright.Proofs.Inlining.Lowering
import Chipwright.Proofs.Relabeling.Stages

/-!
# Names of constants and slots

Names of constants and slots are for the reader of a program. With the values of constants and with
slots in place of their names, and without the definitions of these names, a program is built into
the same lines, unless the lines themselves name slots.

## Main statements

* `Program.build_inlined` — a program without these names is built into the same lines.
-/
namespace Chipwright.Program

open Lowering

/-- With constants and slots in place of their names, a program has no such names left and is built
into the same. -/
theorem build_inlined {file : String} {options : Options} {p : Program} {r : Resolved.Program}
    {g : Generated} (haliases : options.emitAliases = false)
    (hresolve : p.resolve file options.strictProperties options.limits = .ok r)
    (hgenerate : (r.generate file options).2 = .ok g) :
    ∃ r' linked, p.inlined.resolve file options.strictProperties options.limits = .ok r' ∧
      r'.names = r.names.filter (!·.binding.isInlined) ∧
      p.build file options = .ok (g, linked) ∧ p.inlined.build file options = .ok (g, linked) := by
  have hresolve' := resolve_inlined hresolve
  have hgenerate' := Resolved.Program.generate_inlined haliases hgenerate
  obtain ⟨linked, hlink⟩ := exists_link_of_generate hresolve hgenerate
  refine ⟨r.inlined, linked, hresolve', r.names_inlined, ?_, ?_⟩
  · simp only [build, hresolve, hgenerate, hlink, bind, Except.bind, Except.mapError]
    rfl
  · simp only [build, hresolve', hgenerate', hlink, bind, Except.bind, Except.mapError]
    rfl

/-- A constant that is hidden by a variable.
```
def d0 as lamp;
const level = 5;
fn show(y) { if (level) { let level = y + level; write level into lamp.On; } }
show(level);
```
-/
def dimmer : Program where
  statements := [
    .nameSlot ⟨1, 1⟩ ⟨1, 5⟩ (.pin ⟨0, Nat.succ_pos 5⟩) ⟨"lamp", ⟨1, 11⟩⟩,
    .const ⟨2, 1⟩ ⟨"level", ⟨2, 7⟩⟩ ⟨2, 15⟩ (.int 5),
    .function ⟨3, 1⟩ ⟨"show", ⟨3, 4⟩⟩ [⟨"y", ⟨3, 9⟩⟩] ⟨3, 12⟩
      [.ifThen ⟨3, 14⟩ (.name ⟨"level", ⟨3, 18⟩⟩) ⟨3, 25⟩
        [.define ⟨3, 27⟩ ⟨"level", ⟨3, 31⟩⟩
            (.binary .add (.name ⟨"y", ⟨3, 39⟩⟩) (.name ⟨"level", ⟨3, 43⟩⟩)),
          .write ⟨3, 50⟩ (.name ⟨"level", ⟨3, 56⟩⟩) (.named ⟨"lamp", ⟨3, 67⟩⟩) "On"]],
    .call ⟨"show", ⟨4, 1⟩⟩ [.name ⟨"level", ⟨4, 6⟩⟩]]

/-- Lines do not name slots. -/
def nameless : Options := { emitAliases := false }

theorem build_inlined_dimmer :
    ∃ r g, dimmer.resolve "show.ay" nameless.strictProperties = .ok r ∧
      (r.generate "show.ay" nameless).2 = .ok g ∧
      ∃ r' linked, dimmer.inlined.resolve "show.ay" nameless.strictProperties = .ok r' ∧
        r'.names = r.names.filter (!·.binding.isInlined) ∧
        dimmer.build "show.ay" nameless = .ok (g, linked) ∧
        dimmer.inlined.build "show.ay" nameless = .ok (g, linked) := by
  have hsome : ((dimmer.resolve "show.ay" nameless.strictProperties).toOption.bind fun r =>
      (r.generate "show.ay" nameless).2.toOption).isSome := by decide +kernel
  obtain ⟨g, hg⟩ := Option.isSome_iff_exists.1 hsome
  obtain ⟨r, hr, hg⟩ := Option.bind_eq_some_iff.1 hg
  have hresolve := toOption_eq_some.1 hr
  have hgenerate := toOption_eq_some.1 hg
  exact ⟨r, g, hresolve, hgenerate, build_inlined rfl hresolve hgenerate⟩

end Chipwright.Program
