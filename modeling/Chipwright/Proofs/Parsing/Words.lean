import Chipwright.Program.Node
import Chipwright.Proofs.Grammar

/-!
# The words of a program

The names and literals in the tree of a program are spelt by its tokens: a name is one token, and a
literal is one token, or a minus and a number. So what holds of all words that can be spelt with the
tokens of a program holds of the words in its tree.
-/
namespace Chipwright

deriving instance DecidableEq for NodeKind

/-- What a program takes over from its source: names and values. -/
inductive Word
  | name (text : String)
  | value (x : Literal)

/-- The word in a node. -/
def NodeKind.word? : NodeKind → Option Word
  | .name x | .read x | .write x => some (.name x)
  | .literal x => some (.value x)
  | _ => none

/-- The words in nodes have a property, which may depend on where the node is. -/
def Node.Says (P : Position → Word → Prop) (ns : List Node) : Prop :=
  ∀ n ∈ ns, ∀ w, n.kind.word? = some w → P n.pos w

/-- A literal of a program, with the position where it starts. -/
def Program.Has (p : Program) (x : Literal) (pos : Position) : Prop :=
  ∃ n ∈ p.nodes, n.kind = .literal x ∧ n.pos = pos

instance (p : Program) (x : Literal) (pos : Position) : Decidable (p.Has x pos) :=
  inferInstanceAs (Decidable (∃ n ∈ p.nodes, n.kind = .literal x ∧ n.pos = pos))

namespace Node

variable {P : Position → Word → Prop}

@[simp] theorem says_nil : Says P [] := List.forall_mem_nil _

@[simp] theorem says_cons {n : Node} {ns : List Node} :
    Says P (n :: ns) ↔ (∀ w, n.kind.word? = some w → P n.pos w) ∧ Says P ns :=
  List.forall_mem_cons

@[simp] theorem says_append {ns ns' : List Node} : Says P (ns ++ ns') ↔ Says P ns ∧ Says P ns' :=
  List.forall_mem_append

end Node

namespace Grammar

open Node (says_nil says_cons says_append)

variable {P : Position → Word → Prop} {ts us : List Token}

/-- The names among tokens have a property. -/
def Named (N : String → Prop) (ts : List Token) : Prop := ∀ t ∈ ts, ∀ x, t.kind = .name x → N x

@[simp] theorem named_nil {N : String → Prop} : Named N [] := List.forall_mem_nil _

@[simp] theorem named_cons {N : String → Prop} {t : Token} :
    Named N (t :: ts) ↔ (∀ x, t.kind = .name x → N x) ∧ Named N ts :=
  List.forall_mem_cons

@[simp] theorem named_append {N : String → Prop} : Named N (ts ++ us) ↔ Named N ts ∧ Named N us :=
  List.forall_mem_append

/-- All words that can be spelt with the tokens have a property. -/
structure Says (P : Position → Word → Prop) (ts : List Token) : Prop where
  names : Named (fun x => ∀ pos, P pos (.name x)) ts
  values : ∀ used pos x, used ⊆ ts → IsLiteral used pos x → P pos (.value x)

theorem Says.mono (h : Says P us) (hsub : ∀ t ∈ ts, t ∈ us) : Says P ts :=
  ⟨fun t ht => h.names t (hsub t ht),
    fun used pos x hused hx => h.values used pos x (fun t ht => hsub t (hused ht)) hx⟩

theorem says_of_expression {l : Level} {e : Expr} (h : Expression l ts e) (hts : Says P ts)
    (d : Nat) : Node.Says P (e.nodes d) := by
  induction h generalizing d with
  | next _ ih => exact ih hts d
  | chain _ _ _ _ ihleft ihright =>
    simp only [Expr.nodes, says_cons, says_append]
    exact ⟨nofun, ihleft (hts.mono (by simp +contextual)) _,
      ihright (hts.mono (by simp +contextual)) _⟩
  | compare _ _ _ _ ihleft ihright =>
    simp only [Expr.nodes, says_cons, says_append]
    exact ⟨nofun, ihleft (hts.mono (by simp +contextual)) _,
      ihright (hts.mono (by simp +contextual)) _⟩
  | not _ ih =>
    simp only [Expr.nodes, says_cons]
    exact ⟨nofun, ih (hts.mono (by simp +contextual)) _⟩
  | literal hx => simpa [Expr.nodes, NodeKind.word?] using hts.values _ _ _ (List.Subset.refl _) hx
  | name =>
    have hname := hts.names
    simp_all [Expr.nodes, Name.node, NodeKind.word?]
  | parenthesized _ ih => exact ih (hts.mono (by simp +contextual)) d

theorem says_of_name {x : Name} (h : IsName ts x) (hts : Says P ts) (d : Nat) :
    Node.Says P [x.node d] := by
  have hname := hts.names
  cases h
  simp_all [Name.node, NodeKind.word?]

theorem says_of_device {device : Device} (h : IsDevice ts device) (hts : Says P ts) (d : Nat) :
    Node.Says P [device.node d] := by
  cases h with
  | direct => simp [Device.node, NodeKind.word?]
  | named => exact says_of_name .mk hts d

section Lists

variable {α : Type} {item : List Token → α → Prop} {f : α → List Node}
  (hitem : ∀ ts a, item ts a → Says P ts → Node.Says P (f a))

include hitem

theorem says_of_commaTail {as : List α} (h : CommaTail item ts as) (hts : Says P ts) :
    Node.Says P (as.flatMap f) := by
  induction h with
  | nil => exact says_nil
  | cons head _ ih =>
    exact says_append.2 ⟨hitem _ _ head (hts.mono (by simp +contextual)),
      ih (hts.mono (by simp +contextual))⟩

theorem says_of_commaList {as : List α} (h : CommaList item ts as) (hts : Says P ts) :
    Node.Says P (as.flatMap f) := by
  cases h with
  | nil => exact says_nil
  | cons head tail =>
    exact says_append.2 ⟨hitem _ _ head (hts.mono (by simp +contextual)),
      says_of_commaTail hitem tail (hts.mono (by simp +contextual))⟩

end Lists

theorem says_of_simple {st : Stmt} (h : Simple ts st) (hts : Says P ts) (d : Nat) :
    Node.Says P (st.nodes d) := by
  have hnames := hts.names
  cases h with
  | nameSlot => simp_all [Stmt.nodes, Name.node, NodeKind.word?]
  | constant hvalue =>
    have hx := hts.values _ _ _ (fun t ht => by simp [ht]) hvalue
    simp_all [Stmt.nodes, Name.node, NodeKind.word?]
  | definition hvalue =>
    have he := says_of_expression hvalue (hts.mono (by simp +contextual)) (d + 1)
    simp_all [Stmt.nodes, Name.node, NodeKind.word?]
  | assignment hvalue =>
    have he := says_of_expression hvalue (hts.mono (by simp +contextual)) (d + 1)
    simp_all [Stmt.nodes, Name.node, NodeKind.word?]
  | call hargs =>
    have hes := says_of_commaList (f := (·.nodes (d + 1)))
      (fun _ _ he hts => says_of_expression he hts (d + 1)) hargs (hts.mono (by simp +contextual))
    simp_all [Stmt.nodes, Name.node, NodeKind.word?]
  | read hdevice =>
    have hdevice := says_of_device hdevice (hts.mono (by simp +contextual)) (d + 1)
    simp_all [Stmt.nodes, Name.node, NodeKind.word?]
  | write hvalue hdevice =>
    have he := says_of_expression hvalue (hts.mono (by simp +contextual)) (d + 1)
    have hdevice := says_of_device hdevice (hts.mono (by simp +contextual)) (d + 1)
    simp_all [Stmt.nodes, NodeKind.word?]
  | yield => simp [Stmt.nodes, NodeKind.word?]

mutual

theorem says_of_statement : ∀ {ts : List Token} {st : Stmt}, Statement ts st →
    Says P ts → ∀ d, Node.Says P (st.nodes d)
  | _, _, .simple h, hts, d => says_of_simple h hts d
  | _, _, .function hparams hbody, hts, d => by
    have hnames := hts.names
    have hparams := says_of_commaList (f := fun x => [x.node (d + 1)])
      (fun _ _ hx hts => says_of_name hx hts (d + 1)) hparams (hts.mono (by simp +contextual))
    have hbody := says_of_block hbody (hts.mono (by simp +contextual)) (d + 2)
    rw [← List.map_eq_flatMap] at hparams
    refine says_cons.2 ⟨nofun, says_cons.2
      ⟨?_, says_append.2 ⟨hparams, says_cons.2 ⟨nofun, hbody⟩⟩⟩⟩
    simp_all [Name.node, NodeKind.word?]
  | _, _, .loop hbody, hts, d => by
    have hbody := says_of_block hbody (hts.mono (by simp +contextual)) (d + 2)
    simp [Stmt.nodes, NodeKind.word?, hbody]
  | _, _, .ifThen hcondition hthen, hts, d => by
    have hcondition := says_of_expression hcondition (hts.mono (by simp +contextual)) (d + 1)
    have hthen := says_of_block hthen (hts.mono (by simp +contextual)) (d + 2)
    simp [Stmt.nodes, NodeKind.word?, hcondition, hthen]
  | _, _, .ifElse hcondition hthen helse, hts, d => by
    have hcondition := says_of_expression hcondition (hts.mono (by simp +contextual)) (d + 1)
    have hthen := says_of_block hthen (hts.mono (by simp +contextual)) (d + 2)
    have helse := says_of_block helse (hts.mono (by simp +contextual)) (d + 2)
    simp [Stmt.nodes, NodeKind.word?, hcondition, hthen, helse]
  | _, _, .block hbody, hts, d => by
    have hbody := says_of_block hbody hts (d + 1)
    simp [Stmt.nodes, NodeKind.word?, hbody]

theorem says_of_block : ∀ {ts : List Token} {pos : Position} {body : List Stmt},
    Block ts pos body → Says P ts → ∀ d, Node.Says P (Stmt.nodesAll d body)
  | _, _, _, .mk hbody, hts, d => says_of_statements hbody (hts.mono (by simp +contextual)) d

theorem says_of_statements : ∀ {ts : List Token} {body : List Stmt}, Statements ts body →
    Says P ts → ∀ d, Node.Says P (Stmt.nodesAll d body)
  | _, _, .nil, _, _ => says_nil
  | _, _, .cons head tail, hts, d =>
    says_append.2 ⟨says_of_statement head (hts.mono (by simp +contextual)) d,
      says_of_statements tail (hts.mono (by simp +contextual)) d⟩

end

/-- A literal of a program is spelt by tokens of the program. -/
theorem value_of_derives {Q : Position → Literal → Prop} {p : Program} (h : Derives ts p)
    (hts : ∀ used pos x, used ⊆ ts → IsLiteral used pos x → Q pos x) {x : Literal}
    {pos : Position} (hx : p.Has x pos) : Q pos x := by
  obtain ⟨n, hn, hkind, rfl⟩ := hx
  have hall : Says (fun pos w => ∀ x, w = .value x → Q pos x) ts := by
    refine ⟨fun _ _ _ _ _ => nofun, fun used pos x hused hx _ heq => ?_⟩
    cases heq
    exact hts used pos x hused hx
  have hnodes : Node.Says _ p.nodes := says_cons.2 ⟨nofun, says_of_statements h hall 1⟩
  exact hnodes n hn (.value x) (by rw [hkind]; rfl) x rfl

end Grammar

end Chipwright
