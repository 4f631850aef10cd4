import Chipwright.Proofs.Parsing.Words
import Chipwright.Proofs.Resolved.Steps

/-!
# The words of a resolved program

What a name stands for is known by the name, and a constant by its value too. So a resolved program
has the words of the program that it was made from, and no others.
-/
namespace Chipwright

namespace Resolved

/-- The values in an expression, with those of constants. -/
def Expr.words : Expr → List Word
  | literal _ x => [.value x]
  | const _ c => [.value c.value]
  | var _ _ => []
  | not _ operand => operand.words
  | binary _ left right => left.words ++ right.words

mutual

/-- The names, properties and values that the lines of a statement can show. -/
def Stmt.words : Stmt → List Word
  | .define _ v e => .name v.name :: e.words
  | .assign _ v e => .name v.name :: e.words
  | .block body => Stmt.wordsAll body
  | .call _ f args => .name f.name :: args.flatMap Expr.words
  | .loop _ body => Stmt.wordsAll body
  | .ifThen _ e thenBody => e.words ++ Stmt.wordsAll thenBody
  | .ifElse _ e thenBody elseBody => e.words ++ (Stmt.wordsAll thenBody ++ Stmt.wordsAll elseBody)
  | .read _ _ property _ _ => [.name property]
  | .write _ e _ property => .name property :: e.words
  | .yield _ => []

def Stmt.wordsAll : List Stmt → List Word
  | [] => []
  | st :: sts => st.words ++ Stmt.wordsAll sts

end

def Function.words (f : Function) : List Word := .name f.name :: Stmt.wordsAll f.body

def Item.words : Item → List Word
  | nameSlot _ _ d => [.name d.name]
  | const _ => []
  | func f => f.words
  | stmt st => st.words

/-- The words that the lines of a program can show. -/
def Program.words (p : Program) : List Word := p.items.flatMap Item.words

end Resolved

/-- The words by which something is known. -/
def Binding.words : Binding → List Word
  | .const c => [.name c.name, .value c.value]
  | b => [.name b.name]

/-- The words of the things in scope have a property. -/
def Scopes.Says (P : Word → Prop) (s : Scopes Binding) : Prop :=
  ∀ scope ∈ s.all, ∀ e ∈ scope.entries, ∀ w ∈ e.2.words, P w

namespace Scopes

variable {P : Word → Prop} {s : Scopes Binding}

theorem Says.lookup? (h : s.Says P) {x : String} {b : Binding} (hb : s.lookup? x = some b) :
    ∀ w ∈ b.words, P w := by
  obtain ⟨scope, hscope, hlookup⟩ := List.exists_of_findSome?_eq_some hb
  exact h scope hscope _ (mem_of_lookup hlookup)

theorem Says.enter (h : s.Says P) (kind : ScopeKind) : (s.enter kind).Says P :=
  List.forall_mem_cons.2 ⟨List.forall_mem_nil _, h⟩

theorem Says.leave (h : s.Says P) : s.leave.Says P := by
  obtain ⟨inner, outer⟩ := s
  cases outer with
  | nil => exact h
  | cons scope scopes => exact (List.forall_mem_cons.1 h).2

theorem Says.define (h : s.Says P) {place : Binding → Location} {b : Binding} {s' : Scopes Binding}
    (hb : ∀ w ∈ b.words, P w) (hs' : s.define place b.name b = .ok s') : s'.Says P := by
  unfold Scopes.define at hs'
  split at hs'
  · cases hs'
  · cases hs'
    obtain ⟨hinner, houter⟩ := List.forall_mem_cons.1 h
    refine List.forall_mem_cons.2 ⟨?_, houter⟩
    exact List.forall_mem_append.2 ⟨hinner, List.forall_mem_singleton.2 hb⟩

end Scopes

namespace Resolved.Context

open Node (says_cons says_append)

variable {P : Word → Prop} {ctx : Context} {env env' : Env} {d : Nat}

theorem says_expr {e : Chipwright.Expr} {e' : Expr} (he : Node.Says (fun _ => P) (e.nodes d))
    (henv : env.scopes.Says P) (h : ctx.expr env.scopes e = .ok e') : ∀ w ∈ e'.words, P w := by
  induction e generalizing d e' with
  | literal pos x =>
    cases h
    exact List.forall_mem_singleton.2 ((says_cons.1 he).1 _ rfl)
  | name x =>
    rcases value_eq_ok h with ⟨v, -, rfl⟩ | ⟨c, hc, rfl⟩
    · exact List.forall_mem_nil _
    · exact List.forall_mem_singleton.2 (henv.lookup? hc _ (by simp [Binding.words]))
  | not pos e ih =>
    obtain ⟨e₁, he₁, rfl⟩ := expr_not_eq_ok h
    have hall := ih (says_cons.1 he).2 he₁
    exact hall
  | binary op left right ihl ihr =>
    obtain ⟨e₁, e₂, he₁, he₂, rfl⟩ := expr_binary_eq_ok h
    obtain ⟨hleft, hright⟩ := says_append.1 (says_cons.1 he).2
    exact List.forall_mem_append.2 ⟨ihl hleft he₁, ihr hright he₂⟩

theorem says_exprs {es : List Chipwright.Expr} {es' : List Expr}
    (hes : Node.Says (fun _ => P) (es.flatMap (·.nodes d))) (henv : env.scopes.Says P)
    (h : ctx.exprs env.scopes es = .ok es') : ∀ w ∈ es'.flatMap Expr.words, P w := by
  induction es generalizing es' with
  | nil =>
    cases h
    exact List.forall_mem_nil _
  | cons e es ih =>
    obtain ⟨e₁, es₁, he₁, hes₁, rfl⟩ := exprs_cons_eq_ok h
    rw [List.flatMap_cons, says_append] at hes
    exact List.forall_mem_append.2 ⟨says_expr hes.1 henv he₁, ih hes.2 hes₁⟩

theorem says_newVariable {x : Name} {v : Variable} (hx : P (.name x.text))
    (henv : env.scopes.Says P) (h : ctx.newVariable x env = .ok (v, env')) :
    P (.name v.name) ∧ env'.scopes.Says P := by
  simp only [newVariable, bind_eq_ok, pure_eq_ok, Prod.mk.injEq] at h
  obtain ⟨scopes, hdefine, rfl, rfl⟩ := h
  exact ⟨hx, henv.define (b := .var ⟨_, x.text, _, _, _⟩) (List.forall_mem_singleton.2 hx) hdefine⟩

theorem says_newVariables {xs : List Name} {vs : List Variable} (hxs : ∀ x ∈ xs, P (.name x.text))
    (henv : env.scopes.Says P) (h : ctx.newVariables xs env = .ok (vs, env')) :
    env'.scopes.Says P := by
  induction xs generalizing env vs with
  | nil =>
    cases h
    exact henv
  | cons x xs ih =>
    obtain ⟨hx, hxs⟩ := List.forall_mem_cons.1 hxs
    obtain ⟨v, env₁, vs', hv, hvs', rfl⟩ := newVariables_cons_eq_ok h
    exact ih hxs (says_newVariable hx henv hv).2 hvs'

mutual

theorem says_stmt : ∀ (st : Chipwright.Stmt) {env env' : Env} {st' : Stmt} {d : Nat},
    Node.Says (fun _ => P) (st.nodes d) → env.scopes.Says P → ctx.stmt st env = .ok (st', env') →
      (∀ w ∈ st'.words, P w) ∧ env'.scopes.Says P
  | .nameSlot .., _, _, _, _, _, _, h | .const .., _, _, _, _, _, _, h
  | .function .., _, _, _, _, _, _, h => by cases h
  | .define pos x e, _, _, _, _, hst, henv, h => by
    obtain ⟨e', v, he', hv, rfl⟩ := stmt_define_eq_ok h
    simp only [Chipwright.Stmt.nodes, says_cons] at hst
    obtain ⟨-, hx, he⟩ := hst
    have hv := says_newVariable (hx _ rfl) henv hv
    exact ⟨List.forall_mem_cons.2 ⟨hv.1, says_expr he henv he'⟩, hv.2⟩
  | .assign x e, _, _, _, _, hst, henv, h => by
    obtain ⟨e', v, he', hv, rfl, rfl⟩ := stmt_assign_eq_ok h
    simp only [Chipwright.Stmt.nodes, says_cons] at hst
    have hv := List.forall_mem_singleton.1 (henv.lookup? hv)
    exact ⟨List.forall_mem_cons.2 ⟨hv, says_expr hst.2.2 henv he'⟩, henv⟩
  | .block pos body, _, _, _, _, hst, henv, h => by
    obtain ⟨body', inner, hbody, rfl, rfl⟩ := stmt_block_eq_ok h
    have hbody := says_stmts body (says_cons.1 hst).2 (henv.enter .block) hbody
    exact ⟨hbody.1, hbody.2.leave⟩
  | .call x args, _, _, _, _, hst, henv, h => by
    obtain ⟨f, args', hf, -, hargs, rfl, rfl⟩ := stmt_call_eq_ok h
    simp only [Chipwright.Stmt.nodes, says_cons] at hst
    have hf := List.forall_mem_singleton.1 (henv.lookup? hf)
    exact ⟨List.forall_mem_cons.2 ⟨hf, says_exprs hst.2.2 henv hargs⟩, henv⟩
  | .loop pos bodyPos body, _, _, _, _, hst, henv, h => by
    obtain ⟨body', inner, hbody, rfl, rfl⟩ := stmt_loop_eq_ok h
    simp only [Chipwright.Stmt.nodes, says_cons] at hst
    have hbody := says_stmts body hst.2.2 (henv.enter .loop) hbody
    exact ⟨hbody.1, hbody.2.leave⟩
  | .ifThen pos e thenPos body, _, _, _, _, hst, henv, h => by
    obtain ⟨e', body', inner, he', hbody, rfl, rfl⟩ := stmt_ifThen_eq_ok h
    simp only [Chipwright.Stmt.nodes, says_cons, says_append] at hst
    obtain ⟨-, he, -, hst⟩ := hst
    have hbody := says_stmts body hst (henv.enter .if_) hbody
    exact ⟨List.forall_mem_append.2 ⟨says_expr he henv he', hbody.1⟩, hbody.2.leave⟩
  | .ifElse pos e thenPos thenBody elsePos elseBody, _, _, _, _, hst, henv, h => by
    obtain ⟨e', thenBody', inner, elseBody', inner', he', hthen, helse, rfl, rfl⟩ :=
      stmt_ifElse_eq_ok h
    simp only [Chipwright.Stmt.nodes, says_cons, says_append] at hst
    obtain ⟨-, he, -, hthenSays, -, helseSays⟩ := hst
    have hthen := says_stmts thenBody hthenSays (henv.enter .if_) hthen
    have helse := says_stmts elseBody helseSays (hthen.2.leave.enter .else_) helse
    exact ⟨List.forall_mem_append.2 ⟨says_expr he henv he',
      List.forall_mem_append.2 ⟨hthen.1, helse.1⟩⟩, helse.2.leave⟩
  | .read pos device property x, _, _, _, _, hst, henv, h => by
    obtain ⟨device', v, -, -, rfl, rfl⟩ := stmt_read_eq_ok h
    exact ⟨List.forall_mem_singleton.2 ((says_cons.1 hst).1 _ rfl), henv⟩
  | .write pos e device property, _, _, _, _, hst, henv, h => by
    obtain ⟨e', device', he', -, rfl, rfl⟩ := stmt_write_eq_ok h
    simp only [Chipwright.Stmt.nodes, says_cons, says_append] at hst
    obtain ⟨hproperty, he, -⟩ := hst
    exact ⟨List.forall_mem_cons.2 ⟨hproperty _ rfl, says_expr he henv he'⟩, henv⟩
  | .yield pos, _, _, _, _, _, henv, h => by
    cases h
    exact ⟨List.forall_mem_nil _, henv⟩

theorem says_stmts : ∀ (sts : List Chipwright.Stmt) {env env' : Env} {sts' : List Stmt} {d : Nat},
    Node.Says (fun _ => P) (Stmt.nodesAll d sts) → env.scopes.Says P →
      ctx.stmts sts env = .ok (sts', env') → (∀ w ∈ Stmt.wordsAll sts', P w) ∧ env'.scopes.Says P
  | [], _, _, _, _, _, henv, h => by
    cases h
    exact ⟨List.forall_mem_nil _, henv⟩
  | st :: sts, _, _, _, _, hsts, henv, h => by
    obtain ⟨st₁, env₁, sts₁, hst₁, hsts₁, rfl⟩ := stmts_cons_eq_ok h
    obtain ⟨hst, hsts⟩ := says_append.1 hsts
    have hst := says_stmt st hst henv hst₁
    have hsts := says_stmts sts hsts hst.2 hsts₁
    exact ⟨List.forall_mem_append.2 ⟨hst.1, hsts.1⟩, hsts.2⟩

end

theorem says_item {st : Chipwright.Stmt} {i : Item} (hst : Node.Says (fun _ => P) (st.nodes d))
    (henv : env.scopes.Says P) (h : ctx.item st env = .ok (i, env')) :
    (∀ w ∈ i.words, P w) ∧ env'.scopes.Says P := by
  rcases item_eq_ok h with ⟨pos, slotPos, slot, x, rfl, rfl, rfl⟩ |
    ⟨pos, x, valuePos, value, rfl, rfl, rfl⟩ | ⟨pos, x, params, bodyPos, body, f, rfl, hf, rfl⟩ |
    ⟨st', -, hst', rfl⟩
  · simp only [Chipwright.Stmt.nodes, says_cons] at hst
    exact ⟨List.forall_mem_singleton.2 (hst.2.2.1 _ rfl), henv⟩
  · exact ⟨List.forall_mem_nil _, henv⟩
  · obtain ⟨vs, env₁, body', inner, hvs, hbody, rfl, rfl⟩ := functionItem_eq_ok hf
    simp only [Chipwright.Stmt.nodes, says_cons, says_append] at hst
    obtain ⟨-, hx, hparams, -, hbodySays⟩ := hst
    have hparams : ∀ y ∈ params, P (.name y.text) := fun y hy =>
      hparams _ (List.mem_map_of_mem hy) _ rfl
    have hbody := says_stmts body hbodySays
      (says_newVariables hparams (henv.enter .function) hvs) hbody
    exact ⟨List.forall_mem_cons.2 ⟨hx _ rfl, hbody.1⟩, hbody.2.leave⟩
  · exact says_stmt st hst henv hst'

theorem says_items {sts : List Chipwright.Stmt} {is : List Item}
    (hsts : Node.Says (fun _ => P) (Stmt.nodesAll d sts)) (henv : env.scopes.Says P)
    (h : ctx.items sts env = .ok (is, env')) : ∀ w ∈ is.flatMap Item.words, P w := by
  induction sts generalizing env is with
  | nil =>
    cases h
    exact List.forall_mem_nil _
  | cons st sts ih =>
    obtain ⟨i, env₁, is₁, hi, his₁, rfl⟩ := items_cons_eq_ok h
    obtain ⟨hst, hsts⟩ := says_append.1 hsts
    have hi := says_item hst henv hi
    rw [List.flatMap_cons]
    exact List.forall_mem_append.2 ⟨hi.1, ih hsts hi.2 his₁⟩

theorem says_globals {file : String} {sts : List Chipwright.Stmt} {scopes scopes' : Scopes Binding}
    (hsts : Node.Says (fun _ => P) (Stmt.nodesAll d sts)) (hscopes : scopes.Says P)
    (h : globals file sts scopes = .ok scopes') : scopes'.Says P := by
  induction sts generalizing scopes with
  | nil =>
    cases h
    exact hscopes
  | cons st sts ih =>
    obtain ⟨hst, hsts⟩ := says_append.1 hsts
    rw [globals] at h
    split at h
    · exact ih hsts hscopes h
    · rename_i b hb
      obtain ⟨scopes₁, hdefine, h⟩ := bind_eq_ok.1 h
      refine ih hsts (hscopes.define ?_ hdefine) h
      cases st <;> cases hb <;>
        simp_all [Chipwright.Stmt.nodes, Name.node, NodeKind.word?, Binding.words, Binding.name]

end Resolved.Context

/-- A resolved program has the words that its tokens spell. -/
theorem Program.says_of_resolve {P : Word → Prop} {file : String} {strict : Bool} {limits : Limits}
    {ts : List Token} {p : Program} {r : Resolved.Program} (hts : Grammar.Says (fun _ => P) ts)
    (hp : Grammar.Derives ts p) (hresolve : p.resolve file strict limits = .ok r) :
    ∀ w ∈ r.words, P w := by
  have hnodes := Grammar.says_of_statements hp hts 0
  obtain ⟨scopes, env', hglobals, hitems⟩ := resolve_eq_ok hresolve
  have hroot : Scopes.Says P .root := List.forall_mem_singleton.2 (List.forall_mem_nil _)
  exact Resolved.Context.says_items hnodes (Resolved.Context.says_globals hnodes hroot hglobals)
    hitems

end Chipwright
