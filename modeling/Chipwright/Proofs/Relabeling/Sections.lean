import Chipwright.Lowering.Code
import Chipwright.Proofs.Relabeling.Results

/-!
# Sections under other names and places

Labels and parameters are called by the names of functions, and `alias` shows the name of a device;
nothing else of an instruction depends on names. Comments and the constructs that lines come from
are texts in which names stand, so of them nothing is said unless the names are kept.
-/
namespace Chipwright

variable {m : Relabeling}

/-! ## Operands -/

def Label.relabel (m : Relabeling) : Label → Label
  | function name => .function (m.name name)
  | l => l

theorem Label.relabel_injective (m : Relabeling) : Function.Injective (Label.relabel m) := by
  intro l l' h
  cases l <;> cases l' <;> first | (cases h; rfl) | cases h | skip
  rename_i name name'
  exact congrArg _ (m.name.injective (Label.function.inj h))

theorem Label.relabel_of_keepsNames (h : m.KeepsNames) (l : Label) : l.relabel m = l := by
  cases l with
  | function name => exact congrArg _ (h name)
  | _ => rfl

namespace Operand

/-- Labels and parameters belong to functions. Of the texts that stand in instructions, only the one
that `alias` shows is a name of the program. -/
def relabel (m : Relabeling) (opcode : Opcode) : Operand → Operand
  | label l => .label (l.relabel m)
  | parameter function index => .parameter (m.name function) index
  | name text => .name (if opcode = .nameDevice then m.name text else text)
  | x => x

variable {opcode : Opcode}

theorem relabel_of_keepsNames (h : m.KeepsNames) (x : Operand) : x.relabel m opcode = x := by
  cases x with
  | label l => exact congrArg _ (Label.relabel_of_keepsNames h l)
  | parameter function index => exact congrArg (parameter · index) (h function)
  | name text => simp only [relabel, h text, ite_self]
  | _ => rfl

theorem accepts_relabel (kind : OperandKind) (x : Operand) :
    kind.accepts (x.relabel m opcode) = kind.accepts x := by
  cases x <;> cases kind <;> rfl

end Operand

namespace Instruction

/-- The same instruction under other names and places. -/
structure Alike (m : Relabeling) (i i' : Instruction) : Prop where
  opcode : i'.opcode = i.opcode
  operands : i'.operands = i.operands.map (Operand.relabel m i.opcode)
  location : m.Moves i.location i'.location
  texts : m.KeepsNames → i'.origin = i.origin ∧ i'.comment = i.comment

variable {i i' : Instruction}

/-- If the names are kept, only the place is another. -/
theorem Alike.eq_of_keepsNames (h : i.Alike m i') (hm : m.KeepsNames) :
    i' = { i with location := i'.location } := by
  have hoperands : i'.operands = i.operands := by
    rw [h.operands, List.map_congr_left fun x _ => Operand.relabel_of_keepsNames hm x,
      List.map_id']
  obtain ⟨horigin, hcomment⟩ := h.texts hm
  cases i' with
  | mk opcode' operands' location' origin' comment' =>
    rw [Instruction.mk.injEq]
    exact ⟨h.opcode, hoperands, rfl, horigin, hcomment⟩

theorem misfit?_relabel (opcode : Opcode) (kinds : List OperandKind) (xs : List Operand) :
    misfit? kinds (xs.map (Operand.relabel m opcode)) =
      (misfit? kinds xs).map (Prod.map id (Operand.relabel m opcode)) := by
  induction kinds generalizing xs with
  | nil => rfl
  | cons kind kinds ih =>
    cases xs with
    | nil => rfl
    | cons x xs =>
      rw [List.map_cons, misfit?, misfit?, Operand.accepts_relabel]
      split
      · exact ih xs
      · rfl

/-- An instruction is refused under other names exactly if it is refused. -/
theorem Alike.checked (h : i.Alike m i') :
    Matches (fun e e' => m.KeepsNames → e' = e) (Alike m) i.checked i'.checked := by
  have hfault : m.KeepsNames → i'.fault? = i.fault? := fun hm => by
    rw [h.eq_of_keepsNames hm]
    rfl
  have hnone : i'.fault? = none ↔ i.fault? = none := by
    unfold fault?
    rw [h.operands, h.opcode, List.length_map, misfit?_relabel]
    split <;> simp
  unfold Instruction.checked
  cases hi : i.fault? with
  | none =>
    rw [hnone.2 hi]
    exact Matches.ok h
  | some fault =>
    cases hi' : i'.fault? with
    | none => cases hi.symm.trans (hnone.1 hi')
    | some fault' =>
      refine Matches.error fun hm => ?_
      have := hfault hm
      rw [hi, hi'] at this
      exact Option.some.inj this

end Instruction

/-! ## Sections -/

namespace Section

/-- The same section under other names and places. -/
structure Alike (m : Relabeling) (s s' : Section) : Prop where
  instructions : List.Forall₂ (Instruction.Alike m) s.instructions s'.instructions
  labels : s'.labels = s.labels.map (Prod.map (Label.relabel m) id)
  name : m.KeepsNames → s'.name = s.name

variable {s s' : Section}

theorem Alike.size_eq (h : s.Alike m s') : s'.size = s.size := h.instructions.length_eq.symm

theorem Alike.emit (h : s.Alike m s') {i i' : Instruction} (hi : i.Alike m i') :
    (s.emit i).Alike m (s'.emit i') where
  instructions := List.rel_append h.instructions (.cons hi .nil)
  labels := h.labels
  name := h.name

theorem Alike.place (h : s.Alike m s') (l : Label) :
    Matches (fun e e' => m.KeepsNames → e' = e) (Alike m) (s.place l)
      (s'.place (l.relabel m)) := by
  have hlookup : (s'.labels.lookup (l.relabel m)).isSome = (s.labels.lookup l).isSome := by
    rw [h.labels, lookup_map_injective (Label.relabel_injective m), Option.isSome_map]
  unfold Section.place
  rw [hlookup]
  split
  · refine Matches.error fun hm => ?_
    rw [h.name hm, Label.relabel_of_keepsNames hm]
  · refine Matches.ok ⟨h.instructions, ?_, h.name⟩
    simp [h.labels, h.size_eq]

end Section

namespace Lowering

/-- The same construct under other names and places. What belongs to the whole program stands at the
start of the text. -/
structure Origin.Alike (m : Relabeling) (o o' : Origin) : Prop where
  text : m.SameText o.text o'.text
  place (file : String) : m.Moves (some (o.pos.inFile file)) (some (o'.pos.inFile file))

theorem Origin.alike {text text' : String} (h : m.SameText text text') (pos : Position) :
    Origin.Alike m ⟨text, pos⟩ ⟨text', m.pos pos⟩ :=
  ⟨h, fun file => .moved file pos⟩

/-- The same piece of code under other names and places. -/
inductive Piece.Alike (m : Relabeling) : Piece → Piece → Prop
  | line {o o' : Origin} (opcode : Opcode) (operands : List Operand) : o.Alike m o' →
    Alike m (o.line opcode operands) (o'.line opcode (operands.map (Operand.relabel m opcode)))
  | label (l : Label) : Alike m (.label l) (.label (l.relabel m))
  | note {text text' : String} : m.SameText text text' → Alike m (.note text) (.note text')
  | finish : Alike m .finish .finish

/-- The same code under other names and places. -/
abbrev Code.Alike (m : Relabeling) : Code → Code → Prop := List.Forall₂ (Piece.Alike m)

theorem Code.Alike.append {code₁ code₁' code₂ code₂' : Code} (h₁ : code₁.Alike m code₁')
    (h₂ : code₂.Alike m code₂') : Code.Alike m (code₁ ++ code₂) (code₁' ++ code₂') :=
  List.rel_append h₁ h₂

/-- Code with a remark before it, up to the end of a statement. -/
theorem Code.Alike.remarked {code code' : Code} (h : code.Alike m code') {text text' : String}
    (htext : m.SameText text text') :
    Code.Alike m (.note text :: code ++ [.finish]) (.note text' :: code' ++ [.finish]) :=
  Code.Alike.append (.cons (.note htext) h) (.cons .finish .nil)

structure Draft.Alike (m : Relabeling) (d d' : Draft) : Prop where
  content : d.content.Alike m d'.content
  notes : m.KeepsNames → d'.notes = d.notes

namespace Draft.Alike

variable {d d' : Draft} (file : String) (comments : Bool)

theorem add (h : d.Alike m d') {piece piece' : Piece} (hpiece : piece.Alike m piece') :
    Matches m.Retells (Draft.Alike m) (d.add file comments piece)
      (d'.add file comments piece') := by
  cases hpiece with
  | @line o o' opcode operands ho =>
    have hi : (d.instruction file comments ⟨opcode, operands, o⟩).Alike m
        (d'.instruction file comments ⟨opcode, operands.map (Operand.relabel m opcode), o'⟩) := by
      refine ⟨rfl, rfl, ho.place file, fun hm => ⟨congrArg some (ho.text hm), ?_⟩⟩
      simp only [instruction, h.notes hm]
    have hchecked := hi.checked
    simp only [Origin.line, Draft.add]
    cases hx : (d.instruction file comments ⟨opcode, operands, o⟩).checked with
    | ok i =>
      obtain ⟨i', hy, hii'⟩ := hchecked.exists_ok hx
      rw [hy]
      exact Matches.ok ⟨h.content.emit hii', fun _ => rfl⟩
    | error fault =>
      obtain ⟨fault', hy, hfault⟩ := hchecked.exists_error hx
      rw [hy]
      exact Matches.error ⟨rfl, fun hm => congrArg Failure.chip (hfault hm), .none, rfl⟩
  | label l =>
    have hplace := h.content.place l
    simp only [Draft.add]
    cases hx : d.content.place l with
    | ok content =>
      obtain ⟨content', hy, hcontent⟩ := hplace.exists_ok hx
      rw [hy]
      exact Matches.ok ⟨hcontent, h.notes⟩
    | error e =>
      obtain ⟨e', hy, he⟩ := hplace.exists_error hx
      rw [hy]
      exact Matches.error ⟨rfl, fun hm => congrArg Failure.link (he hm), .none, rfl⟩
  | note htext =>
    exact Matches.ok ⟨h.content, fun hm => by rw [h.notes hm, htext hm]⟩
  | finish => exact Matches.ok ⟨h.content, fun _ => rfl⟩

theorem addAll (h : d.Alike m d') {code code' : Code} (hcode : code.Alike m code') :
    Matches m.Retells (Draft.Alike m) (d.addAll file comments code)
      (d'.addAll file comments code') := by
  induction hcode generalizing d d' with
  | nil => exact Matches.ok h
  | @cons piece piece' code code' hpiece _ ih =>
    have hadd := h.add file comments hpiece
    rw [Draft.addAll, Draft.addAll]
    cases hx : d.add file comments piece with
    | ok d₁ =>
      obtain ⟨d₁', hy, hd₁⟩ := hadd.exists_ok hx
      rw [hy]
      exact ih hd₁
    | error e =>
      obtain ⟨e', hy, he⟩ := hadd.exists_error hx
      rw [hy]
      exact Matches.error he

end Draft.Alike

/-- The same code makes up the same section. -/
theorem Code.matches_toSection (file : String) (comments : Bool) {name name' : String}
    (hname : m.SameText name name') {code code' : Code} (hcode : code.Alike m code') :
    Matches m.Retells (Section.Alike m) (code.toSection file comments name)
      (code'.toSection file comments name') := by
  have hstart : Draft.Alike m { content := { name } } { content := { name := name' } } :=
    ⟨⟨.nil, rfl, hname⟩, fun _ => rfl⟩
  exact (hstart.addAll file comments hcode).bind fun _ _ hd => Matches.ok hd.content

end Lowering

/-! ## Linking -/

/-- The same sections under other names and places. -/
structure Assembly.Alike (m : Relabeling) (a a' : Assembly) : Prop where
  sections : List.Forall₂ (Section.Alike m) a.sections a'.sections
  parameters : a'.parameters = a.parameters.map (Prod.map (Prod.map m.name id) id)

namespace Assembly

variable {a a' : Assembly} {known known' addresses : List (Label × Nat)}
  {parameters : List ((String × Int) × Register)}

theorem Alike.instructions (h : a.Alike m a') :
    List.Forall₂ (Instruction.Alike m) a.instructions a'.instructions :=
  List.rel_flatMap h.sections fun _ _ hs => hs.instructions

theorem Alike.size_eq (h : a.Alike m a') : a'.size = a.size := h.instructions.length_eq.symm

theorem addLabels_relabel {offset : Nat} {labels : List (Label × Nat)}
    (h : addLabels offset known labels = .ok known') :
    addLabels offset (known.map (Prod.map (Label.relabel m) id))
      (labels.map (Prod.map (Label.relabel m) id)) =
        .ok (known'.map (Prod.map (Label.relabel m) id)) := by
  induction labels generalizing known with
  | nil =>
    cases h
    rfl
  | cons entry labels ih =>
    obtain ⟨l, position⟩ := entry
    rw [addLabels] at h
    split at h
    · cases h
    · rename_i hnew
      rw [List.map_cons, Prod.map_apply, addLabels,
        lookup_map_injective (Label.relabel_injective m), Option.isSome_map, if_neg hnew]
      simpa using ih h

theorem addressesFrom_relabel {offset : Nat} {ss ss' : List Section}
    (hss : List.Forall₂ (Section.Alike m) ss ss') (h : addressesFrom offset known ss = .ok known') :
    addressesFrom offset (known.map (Prod.map (Label.relabel m) id)) ss' =
      .ok (known'.map (Prod.map (Label.relabel m) id)) := by
  induction hss generalizing offset known with
  | nil =>
    cases h
    rfl
  | cons hs _ ih =>
    rw [addressesFrom] at h
    split at h
    · cases h
    · rename_i known₁ hknown
      rw [addressesFrom, hs.labels, addLabels_relabel hknown, hs.size_eq]
      exact ih h

theorem resolve_relabel {opcode : Opcode} {x y : Operand}
    (h : resolve addresses parameters x = .ok y) :
    resolve (addresses.map (Prod.map (Label.relabel m) id))
      (parameters.map (Prod.map (Prod.map m.name id) id)) (x.relabel m opcode) =
        .ok (y.relabel m opcode) := by
  cases x with
  | label l =>
    rw [resolve] at h
    cases hlookup : addresses.lookup l with
    | none =>
      rw [hlookup] at h
      cases h
    | some line =>
      rw [hlookup] at h
      cases h
      rw [Operand.relabel, resolve, lookup_map_injective (Label.relabel_injective m), hlookup]
      rfl
  | parameter function index =>
    have hinjective : Function.Injective (Prod.map m.name (id : Int → Int)) :=
      m.name.injective.prodMap Function.injective_id
    have hlookup' := lookup_map_injective hinjective id parameters (function, index)
    rw [resolve] at h
    cases hlookup : parameters.lookup (function, index) with
    | none =>
      rw [hlookup] at h
      cases h
    | some r =>
      rw [hlookup] at h hlookup'
      cases h
      have hrenamed : (parameters.map (Prod.map (Prod.map m.name id) id)).lookup
          (m.name function, index) = some r := hlookup'
      rw [Operand.relabel, resolve, hrenamed]
      rfl
  | register r =>
    cases h
    rfl
  | device slot =>
    cases h
    rfl
  | number value =>
    cases h
    rfl
  | name text =>
    cases h
    rfl

theorem resolveAll_relabel {opcode : Opcode} {xs ys : List Operand}
    (h : resolveAll addresses parameters xs = .ok ys) :
    resolveAll (addresses.map (Prod.map (Label.relabel m) id))
      (parameters.map (Prod.map (Prod.map m.name id) id)) (xs.map (Operand.relabel m opcode)) =
        .ok (ys.map (Operand.relabel m opcode)) := by
  induction xs generalizing ys with
  | nil =>
    cases h
    rfl
  | cons x xs ih =>
    simp only [resolveAll, bind_eq_ok, pure_eq_ok] at h
    obtain ⟨y, hy, ys, hys, rfl⟩ := h
    rw [List.map_cons, resolveAll, resolve_relabel hy, ih hys]
    rfl

theorem linkAll_relabel {is is' js : List Instruction}
    (his : List.Forall₂ (Instruction.Alike m) is is')
    (h : linkAll addresses parameters is = .ok js) :
    ∃ js', linkAll (addresses.map (Prod.map (Label.relabel m) id))
      (parameters.map (Prod.map (Prod.map m.name id) id)) is' = .ok js' ∧
        List.Forall₂ (Instruction.Alike m) js js' := by
  induction his generalizing js with
  | nil =>
    cases h
    exact ⟨[], rfl, .nil⟩
  | @cons i i' is is' hi _ ih =>
    simp only [linkAll, bind_eq_ok, pure_eq_ok] at h
    obtain ⟨operands, hoperands, js, hjs, rfl⟩ := h
    obtain ⟨js', hjs', hjj'⟩ := ih hjs
    refine ⟨{ i' with operands := operands.map (Operand.relabel m i.opcode) } :: js', ?_,
      .cons ⟨hi.opcode, rfl, hi.location, hi.texts⟩ hjj'⟩
    rw [linkAll, hi.operands, resolveAll_relabel hoperands, hjs']
    rfl

/-- What is linked is the same under other names and places. -/
theorem Alike.exists_link (h : a.Alike m a') {linked : Linked} (hlink : a.link = .ok linked) :
    ∃ linked', a'.link = .ok linked' ∧
      List.Forall₂ (Instruction.Alike m) linked.instructions linked'.instructions := by
  simp only [link, bind_eq_ok, pure_eq_ok] at hlink
  obtain ⟨addresses, haddresses, js, hjs, rfl⟩ := hlink
  obtain ⟨js', hjs', hjj'⟩ := linkAll_relabel h.instructions hjs
  have haddresses' : a'.addresses = .ok (addresses.map (Prod.map (Label.relabel m) id)) :=
    addressesFrom_relabel h.sections haddresses
  refine ⟨⟨js'⟩, ?_, hjj'⟩
  rw [link, haddresses', h.parameters]
  change (linkAll _ _ _ >>= _) = _
  rw [hjs']
  rfl

end Assembly

end Chipwright
