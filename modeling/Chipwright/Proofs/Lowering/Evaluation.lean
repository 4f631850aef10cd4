import Chipwright.Proofs.Execution
import Chipwright.Proofs.Resolved.Semantics

/-!
# The code of expressions at work

The lines of an expression only compute, so that they can be executed one after another without
a program around them. They compute the value of the expression. On the way they change registers
that were free, and the target if there is one; since the registers of variables are live, the
value of one operand is still there when the other one has been computed.

The target is written last, if at all. By then both operands have been computed, so that an
expression may read the register that its own value goes to.
-/
namespace Chipwright

/-- The opcodes of the operators of an expression: those of the left operand, those of the right
one, and then the operator itself. -/
def Resolved.Expr.opcodes : Resolved.Expr → List Opcode
  | literal _ _ | var _ _ | const _ _ => []
  | not _ operand => operand.opcodes ++ [.seqz]
  | binary op left right => left.opcodes ++ right.opcodes ++ [op.opcode]

namespace Lowering

variable {V : Type} {w : World V} {m m' m'' : Machine V} {μ : Memory V}

/-- The values of variables, if the registers hold the given values. -/
def Homes.memory (homes : Homes) (registers : Register → V) : Memory V :=
  fun v => (homes.lookup v).map registers

namespace Value

theorem get_of_operand {x : Value} {r : Register} (h : x.operand = .register r)
    (registers : Register → V) : x.get w registers = registers r := by
  cases x <;> cases h <;> rfl

/-- A value stays the same as long as its register does. -/
theorem get_congr {x : Value} {registers registers' : Register → V}
    (h : ∀ r, x.operand = .register r → registers' r = registers r) :
    x.get w registers' = x.get w registers := by
  cases x with
  | immediate c => rfl
  | home r => exact h r rfl
  | scratch r => exact h r rfl

end Value

/-! ## Lines that compute -/

namespace Line

/-- What the chip does at a line that needs no linking. -/
def execute (w : World V) (l : Line) (m : Machine V) : Option (Machine V) :=
  Instruction.execute w { opcode := l.opcode, operands := l.operands } m

variable {r : Register} {x y : Value} {origin : Origin}

theorem execute_binary {op : BinaryOp} :
    execute w ⟨op.opcode, [.register r, x.operand, y.operand], origin⟩ m =
      some (m.set r (w.binary op (x.get w m.registers) (y.get w m.registers))) := by
  simp [execute, Instruction.execute]

theorem execute_not :
    execute w ⟨.seqz, [.register r, x.operand], origin⟩ m =
      some (m.set r (w.not (x.get w m.registers))) := by
  simp [execute, Instruction.execute, Opcode.operator?, Instruction.executePlain]

theorem execute_move :
    execute w ⟨.move, [.register r, x.operand], origin⟩ m =
      some (m.set r (x.get w m.registers)) := by
  simp [execute, Instruction.execute, Opcode.operator?, Instruction.executePlain]

/-- A line that computes can be executed, and sets its register. -/
theorem Computes.exists_execute {l : Line} (h : l.Computes r) :
    ∃ a, l.execute w m = some (m.set r a) := by
  cases h with
  | binary op r x y origin => exact ⟨_, execute_binary⟩
  | not r x origin => exact ⟨_, execute_not⟩
  | move r x origin => exact ⟨_, execute_move⟩

end Line

namespace Code

/-- Executes lines one after another. -/
def execute (w : World V) : Code → Machine V → Option (Machine V)
  | [], m => some m
  | .line l :: code, m => (l.execute w m).bind (execute w code)
  | _ :: code, m => execute w code m

theorem execute_append {code₁ code₂ : Code} :
    execute w (code₁ ++ code₂) m = (execute w code₁ m).bind (execute w code₂) := by
  induction code₁ generalizing m with
  | nil => rfl
  | cons piece code₁ ih =>
    cases piece with
    | line l =>
      simp only [List.cons_append, execute, Option.bind_assoc]
      exact congrArg _ (funext fun _ => ih)
    | label l | note text | finish => exact ih

variable {code : Code} {P : Register → Prop}

/-- Lines that compute can be executed, and change only the registers that they compute. -/
theorem execute_of_computes
    (hcode : ∀ piece ∈ code, ∃ l r, piece = .line l ∧ l.Computes r ∧ P r) :
    ∃ m', execute w code m = some m' ∧ ∀ r, m'.registers r ≠ m.registers r → P r := by
  induction code generalizing m with
  | nil => exact ⟨m, rfl, fun _ h => absurd rfl h⟩
  | cons piece code ih =>
    obtain ⟨l, r, rfl, hl, hr⟩ := hcode piece (List.mem_cons_self ..)
    obtain ⟨a, ha⟩ := hl.exists_execute (w := w) (m := m)
    obtain ⟨m', hm', hchanged⟩ :=
      ih (m := m.set r a) fun piece hpiece => hcode piece (List.mem_cons_of_mem _ hpiece)
    refine ⟨m', by rw [execute, ha, Option.bind_some, hm'], fun r' hr' => ?_⟩
    by_cases heq : (m.set r a).registers r' = m.registers r'
    · exact hchanged r' (heq ▸ hr')
    · exact Machine.eq_of_set_ne heq ▸ hr

end Code

/-! ## Lowered expressions -/

namespace ExprContext

variable {e : Resolved.Expr} {x : Value}

/-- What the code of an expression leaves as it is. -/
structure Evaluates (target : Option Register) (pool pool' : RegisterPool) (code : Code)
    (m m' : Machine V) : Prop where
  line : m'.line = m.line + code.size
  trace : m'.trace = m.trace
  changed : ∀ r, m'.registers r ≠ m.registers r → Writable target pool pool' r

/-- The variables of an expression have live registers with their values. -/
def Finds (c : ExprContext) (μ : Memory V) (pool : RegisterPool) (m : Machine V)
    (vars : List Variable) : Prop :=
  ∀ v ∈ vars, ∀ r, c.homes.lookup v = some r →
    r ∈ pool.live ∧ ∀ a, μ v = some a → m.registers r = a

namespace Evaluates

variable {c : ExprContext} {target : Option Register} {pool pool' pool'' : RegisterPool}
  {code code' : Code} {vars : List Variable}

theorem refl (target : Option Register) (pool : RegisterPool) (m : Machine V) :
    Evaluates target pool pool [] m m :=
  ⟨rfl, rfl, fun _ h => absurd rfl h⟩

/-- Live registers are not changed without a target. -/
theorem eq_of_live (h : Evaluates none pool pool' code m m') {r : Register}
    (hr : r ∈ pool.live) : m'.registers r = m.registers r := by
  by_contra hne
  rcases h.changed r hne with htarget | ⟨hfree, -⟩
  · cases htarget
  · exact hfree hr

/-- The register that calls set is not changed, since it is never handed out. -/
theorem eq_ra (h : Evaluates target pool pool' code m m') (htarget : target ≠ some .ra)
    (hused : .ra ∉ pool'.used) : m'.registers .ra = m.registers .ra := by
  by_contra hne
  rcases h.changed .ra hne with heq | ⟨-, hra⟩
  · exact htarget heq
  · exact hused hra

/-- What has been found is still there after another expression. -/
theorem finds (h : Evaluates none pool pool' code m m')
    (hpool : ∀ r ∈ pool.live, r ∈ pool'.live) (hvars : c.Finds μ pool m vars) :
    c.Finds μ pool' m' vars := by
  intro v hv r hr
  obtain ⟨hlive, hvalue⟩ := hvars v hv r hr
  exact ⟨hpool r hlive, fun a ha => (h.eq_of_live hlive).trans (hvalue a ha)⟩

/-- Code that is followed by the code of another expression. -/
theorem append (h : Evaluates none pool pool' code m m')
    (h' : Evaluates none pool' pool'' code' m' m'') (hlive : ∀ r ∈ pool.live, r ∈ pool'.live)
    (hused : ∀ r ∈ pool'.used, r ∈ pool''.used) :
    Evaluates none pool pool'' (code ++ code') m m'' := by
  refine ⟨by rw [h'.line, h.line, Code.size_append, Nat.add_assoc], h'.trace.trans h.trace,
    fun r hr => ?_⟩
  by_cases heq : m''.registers r = m'.registers r
  · rcases h.changed r (heq ▸ hr) with htarget | ⟨hfree, hr'⟩
    · cases htarget
    · exact Or.inr ⟨hfree, hused r hr'⟩
  · rcases h'.changed r heq with htarget | ⟨hfree, hr'⟩
    · cases htarget
    · exact Or.inr ⟨fun h => hfree (hlive r h), hr'⟩

/-- Code that is followed by a line that sets a register. -/
theorem set {target' : Option Register} (h : Evaluates target pool pool' code m m') {l : Line}
    {r : Register} {a : V} (hr : Writable target' pool pool'' r)
    (hwritable : ∀ r, Writable target pool pool' r → Writable target' pool pool'' r) :
    Evaluates target' pool pool'' (code ++ [.line l]) m (m'.set r a) := by
  refine ⟨by simp [h.line, Nat.add_assoc], h.trace, fun r' hr' => ?_⟩
  by_cases heq : r' = r
  · exact heq ▸ hr
  · rw [Machine.set_registers, Function.update_of_ne heq] at hr'
    exact hwritable r' (h.changed r' hr')

end Evaluates

variable {c : ExprContext} {target : Option Register} {pool pool' : RegisterPool} {code : Code}

/-- The line of an operator, after the code of its operands. -/
theorem execute_result {pool₀ pool₁ : RegisterPool} {code₁ : Code} {d : Value} {a : V} {l : Line}
    (hm : code₁.execute w m = some m') (h : Evaluates none pool₀ pool₁ code₁ m m')
    (hpool : pool₀.Takes [] pool) (hused : ∀ r ∈ pool₁.used, r ∈ pool.used)
    (hresult : c.result target pool = .ok (d, pool'))
    (hline : ∀ r, d.operand = .register r → l.execute w m' = some (m'.set r a)) :
    ∃ m'', Code.execute w (code₁ ++ [.line l]) m = some m'' ∧
      Evaluates target pool₀ pool' (code₁ ++ [.line l]) m m'' ∧ d.get w m''.registers = a := by
  obtain ⟨r, hd, hr⟩ := writable_of_result hpool hresult
  refine ⟨m'.set r a, ?_, h.set hr ?_, ?_⟩
  · rw [Code.execute_append, hm, Option.bind_some, Code.execute, hline r hd]
    rfl
  · rintro r' (htarget | ⟨hfree, hr'⟩)
    · cases htarget
    · exact Or.inr ⟨hfree, (takes_of_result hresult).used r' (hused r' hr')⟩
  · rw [Value.get_of_operand hd, Machine.set_registers, Function.update_self]

/-- The code of an expression computes its value. -/
theorem execute_lower {a : V} (h : c.lower e target pool = .ok (x, code, pool'))
    (hvars : c.Finds μ pool m e.vars) (ha : e.eval w μ = some a) :
    ∃ m', code.execute w m = some m' ∧ Evaluates target pool pool' code m m' ∧
      x.get w m'.registers = a := by
  replace h := lowers_of_lower h
  induction h generalizing m a with
  | literal | const => exact ⟨m, rfl, .refl .., Option.some.inj ha⟩
  | var r hhome =>
    exact ⟨m, rfl, .refl .., (hvars _ (List.mem_singleton.2 rfl) r hhome).2 a ha⟩
  | not _ _ hy hrelease hresult _ ih =>
    obtain ⟨a₁, ha₁, rfl⟩ := Option.map_eq_some_iff.1 ha
    obtain ⟨m₁, hm₁, heval, rfl⟩ := ih hvars ha₁
    refine execute_result hm₁ heval (Value.takes_nil_of_release (takes_of_lower hy) hrelease)
      (fun r hr => Value.used_of_release hrelease ▸ hr) hresult fun r hd => ?_
    rw [hd, Line.execute_not]
  | @binary _ left right _ pool code₁ pool₁ code₂ _ _ _ _ y _ _ hy hz hy' hz' hresult _ _ ihl ihr =>
    obtain ⟨a₁, ha₁, ha⟩ := Option.bind_eq_some_iff.1 ha
    obtain ⟨a₂, ha₂, ha⟩ := Option.bind_eq_some_iff.1 ha
    obtain rfl := Option.some.inj ha
    have hvars₁ : c.Finds μ pool m left.vars := fun v hv => hvars v (List.mem_append_left _ hv)
    have hvars₂ : c.Finds μ pool m right.vars := fun v hv => hvars v (List.mem_append_right _ hv)
    have htakes₁ := takes_of_lower hy
    have htakes₂ := takes_of_lower hz
    have hlive : ∀ r ∈ pool.live, r ∈ pool₁.live := fun r hr => htakes₁.mem_live.2 (Or.inl hr)
    obtain ⟨m₁, hm₁, heval₁, rfl⟩ := ihl hvars₁ ha₁
    obtain ⟨m₂, hm₂, heval₂, rfl⟩ := ihr (heval₁.finds hlive hvars₂) ha₂
    have hm : Code.execute w (code₁ ++ code₂) m = some m₂ := by
      rw [Code.execute_append, hm₁, Option.bind_some, hm₂]
    -- the left operand is in a live register, if it is in one at all
    have hleft : y.get w m₂.registers = y.get w m₁.registers := by
      refine Value.get_congr fun r hr => heval₂.eq_of_live (live_of_lower hy ?_ hr)
      exact fun v hv r hr => (hvars₁ v hv r hr).1
    refine execute_result hm (heval₁.append heval₂ hlive htakes₂.used)
      (takes_of_release_two htakes₁ htakes₂ hy' hz') (fun r hr => ?_) hresult fun r hd => ?_
    · rwa [Value.used_of_release hz', Value.used_of_release hy']
    · rw [hd, Line.execute_binary, hleft]

/-- If an expression can be lowered, its variables have registers, and so it has a value. -/
theorem exists_eval_of_lower (registers : Register → V)
    (h : c.lower e target pool = .ok (x, code, pool')) :
    ∃ a, e.eval w (c.homes.memory registers) = some a := by
  replace h := lowers_of_lower h
  induction h with
  | literal | const => exact ⟨_, rfl⟩
  | var r hhome => exact ⟨registers r, by simp [Resolved.Expr.eval, Homes.memory, hhome]⟩
  | not _ _ _ _ _ _ ih =>
    obtain ⟨a, ha⟩ := ih
    exact ⟨_, by rw [Resolved.Expr.eval, ha]; rfl⟩
  | binary _ _ _ _ _ _ _ _ _ _ ihl ihr =>
    obtain ⟨a₁, ha₁⟩ := ihl
    obtain ⟨a₂, ha₂⟩ := ihr
    exact ⟨_, by rw [Resolved.Expr.eval, ha₁, ha₂]; rfl⟩

/-- Every operator gives one line, after the lines of its operands. -/
theorem opcodes_of_lower (h : c.lower e target pool = .ok (x, code, pool')) :
    ∃ lines : List Line, code = lines.map .line ∧ lines.map (·.opcode) = e.opcodes := by
  replace h := lowers_of_lower h
  induction h with
  | literal | const | var => exact ⟨[], rfl, rfl⟩
  | not y d _ _ _ _ ih =>
    obtain ⟨lines, rfl, hlines⟩ := ih
    refine ⟨lines ++ [⟨.seqz, [d.operand, y.operand], c.origin⟩], by simp [Origin.line], ?_⟩
    simp [Resolved.Expr.opcodes, hlines]
  | @binary op _ _ _ _ _ _ _ _ _ _ _ y z d _ _ _ _ _ _ _ ihl ihr =>
    obtain ⟨lines₁, rfl, hlines₁⟩ := ihl
    obtain ⟨lines₂, rfl, hlines₂⟩ := ihr
    refine ⟨lines₁ ++ lines₂ ++ [⟨op.opcode, [d.operand, y.operand, z.operand], c.origin⟩],
      by simp [Origin.line], ?_⟩
    simp [Resolved.Expr.opcodes, hlines₁, hlines₂]

theorem computes_of_lower_none (h : c.lower e none pool = .ok (x, code, pool')) :
    ∀ piece ∈ code, ∃ l r, piece = .line l ∧ l.Computes r ∧ r ∉ pool.live := by
  intro piece hpiece
  obtain ⟨l, r, rfl, hl, hr | ⟨hfree, -⟩⟩ := computes_of_lower h piece hpiece
  · cases hr
  · exact ⟨l, r, rfl, hl, hfree⟩

/-- Only the last line of an expression writes its target: the lines before it belong to operands,
which have none. -/
theorem computes_of_lower_dropLast (h : c.lower e target pool = .ok (x, code, pool')) :
    ∀ piece ∈ code.dropLast, ∃ l r, piece = .line l ∧ l.Computes r ∧ r ∉ pool.live := by
  cases lowers_of_lower h with
  | literal | const | var => simp
  | not _ _ hy =>
    rw [List.dropLast_concat]
    exact computes_of_lower_none hy
  | binary _ _ _ hy hz =>
    rw [List.dropLast_concat]
    intro piece hpiece
    rcases List.mem_append.1 hpiece with hpiece | hpiece
    · exact computes_of_lower_none hy piece hpiece
    · obtain ⟨l, r, rfl, hl, hfree⟩ := computes_of_lower_none hz piece hpiece
      exact ⟨l, r, rfl, hl, fun hlive => hfree ((takes_of_lower hy).mem_live.2 (Or.inl hlive))⟩

/-- Until the last line of an expression, all live registers are as they were. -/
theorem execute_before_last {before : Code} (h : c.lower e target pool = .ok (x, code, pool'))
    (hbefore : before <+: code.dropLast) :
    ∃ m', before.execute w m = some m' ∧ ∀ r ∈ pool.live, m'.registers r = m.registers r := by
  obtain ⟨m', hm', hchanged⟩ := Code.execute_of_computes (w := w) (m := m) fun piece hpiece =>
    computes_of_lower_dropLast h piece (hbefore.subset hpiece)
  exact ⟨m', hm', fun r hr => by_contra fun hne => hchanged r hne hr⟩

end ExprContext

end Lowering

end Chipwright
