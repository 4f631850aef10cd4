import Chipwright.Compile
import Chipwright.Proofs.Basics

/-!
# The stages of a compilation

What a compilation gives is what its stages give one after another. The log has no part in it,
except for the warnings.
-/
namespace Chipwright

namespace Logged

variable {α β : Type}

theorem result_bind (x : Logged α) (f : α → Logged β) :
    (x >>= f).result = x.result >>= fun a => (f a).result := by
  obtain ⟨log, result⟩ := x
  cases result <;> rfl

theorem result_ofExcept (x : Except Failure α) : (ofExcept x).result = x := rfl

theorem result_tell (level : Level) (message : String) : (tell level message).result = .ok () := rfl

end Logged

/-- Tokens that are no program are told of with a line of the listing, unless they are nested too
deeply. -/
theorem ParseFault.failure_eq (file : String) (source : List Char) (finish : Position)
    (f : ParseFault) : ∃ shown,
      f.failure file source finish = .diagnostic {
        cause := f.cause
        location := some ((f.pos.getD finish).inFile file)
        sourceLine := shown } ∧
      (f.cause = .nestingTooDeep ∧ shown = none ∨ f.cause ≠ .nestingTooDeep ∧
        shown = (Text.listedLine? ((f.pos.getD finish).line - 1) source).map String.ofList) := by
  obtain ⟨cause, pos⟩ := f
  unfold failure
  split
  · rename_i hcause
    exact ⟨none, by rw [hcause]; rfl, Or.inl ⟨hcause, rfl⟩⟩
  · rename_i hcause
    exact ⟨_, rfl, Or.inr ⟨hcause, rfl⟩⟩

namespace TokenList

theorem ofSource_eq_ok {file : String} {source : List Char} {ts : TokenList} :
    ofSource file source = .ok ts ↔ Lexer.scan source = .ok ts := by
  unfold ofSource
  cases Lexer.scan source <;> simp

theorem program_eq_ok {file : String} {source : List Char} {limits : Limits} {ts : TokenList}
    {p : Program} :
    ts.program file source limits = .ok p ↔ Program.parse ts.tokens limits = .ok p := by
  unfold program
  cases Program.parse ts.tokens limits <;> simp

end TokenList

/-- A source is a program if its tokens are. -/
theorem Program.ofSource_eq_ok {file : String} {source : List Char} {limits : Limits}
    {p : Program} : ofSource file source limits = .ok p ↔
      ∃ ts, Lexer.scan source = .ok ts ∧ parse ts.tokens limits = .ok p := by
  simp only [ofSource, bind_eq_ok, TokenList.ofSource_eq_ok, TokenList.program_eq_ok]

namespace Compile

/-- The result of all stages. -/
theorem result_stages (options : Options) (file : String) (source : List Char) :
    (stages options file source).result = (do
      let ts ← TokenList.ofSource file source
      let p ← ts.program file source options.limits
      let r ← (p.resolve file options.strictProperties options.limits).mapError Failure.atFault
      let g ← (r.generate file options).2.mapError Failure.atFault
      let linked ← g.assembly.link.mapError Failure.link
      return {
        file
        assembly := linked.render options.emitComments
        tokenCount := ts.size
        lineCount := linked.size
        registers := g.registers
        warnings :=
          ((r.generate file options).1.filter (·.level = .warning)).map (·.message) }) := by
  simp only [stages, Logged.result_bind, Logged.result_ofExcept, Logged.result_tell]
  rfl

/-- A compilation gives what its stages give, if the limit on the lines can be written; a diagnostic
is shown with its line. -/
theorem result_source (options : Options) (file : String) (text : List Char) :
    (source options file text).result =
      (stages options file text).result.mapError (withSource text) >>= fun c =>
        if Decimal.isWritable options.maxLines then .ok c else .error .unwritable := by
  simp only [source, successLog]
  cases (stages options file text).result with
  | error e => rfl
  | ok c => cases Decimal.isWritable options.maxLines <;> rfl

/-- A compilation that gives a result gives one at each stage. -/
theorem exists_stages {options : Options} {file : String} {text : List Char} {c : Compiled}
    (h : (source options file text).result = .ok c) :
    ∃ ts p r g linked, Lexer.scan text = .ok ts ∧ Program.parse ts.tokens options.limits = .ok p ∧
      p.resolve file options.strictProperties options.limits = .ok r ∧
      (r.generate file options).2 = .ok g ∧ g.assembly.link = .ok linked ∧
      c.assembly = linked.render options.emitComments := by
  rw [result_source] at h
  obtain ⟨c', hc', hwritten⟩ := bind_eq_ok.1 h
  obtain rfl : c' = c := by
    split at hwritten <;> cases hwritten
    rfl
  simp only [result_stages, mapError_eq_ok, bind_eq_ok, pure_eq_ok, TokenList.ofSource_eq_ok,
    TokenList.program_eq_ok] at hc'
  obtain ⟨ts, hts, p, hp, r, hr, g, hg, linked, hlinked, rfl⟩ := hc'
  exact ⟨ts, p, r, g, linked, hts, hp, hr, hg, hlinked, rfl⟩

end Compile

end Chipwright
