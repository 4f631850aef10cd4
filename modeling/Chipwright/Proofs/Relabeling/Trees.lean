import Chipwright.Proofs.Basics
import Chipwright.Resolved.Tree
import Chipwright.Scope
import Mathlib.Logic.Embedding.Basic

/-!
# Other names and other places

The names of a program are a choice of its author, and so are the places of its text where things
stand. A relabeling makes another choice: all names and places are exchanged, and what was different
stays different. Properties of devices are no names; they stay as they are.
-/
namespace Chipwright

/-- Other names and other places. What is different stays different. -/
structure Relabeling where
  name : String ↪ String
  pos : Position ↪ Position

namespace Relabeling

/-- Only places are exchanged. -/
def KeepsNames (m : Relabeling) : Prop := ∀ x, m.name x = x

/-- Other places, and the same names. -/
def moving (pos : Position ↪ Position) : Relabeling := ⟨.refl _, pos⟩

theorem keepsNames_moving (pos : Position ↪ Position) : (moving pos).KeepsNames := fun _ => rfl

/-- Other names, and the same places. -/
def naming (name : String ↪ String) : Relabeling := ⟨name, .refl _⟩

theorem KeepsNames.map_name {m : Relabeling} (h : m.KeepsNames) (xs : List String) :
    xs.map m.name = xs := by
  rw [show ⇑m.name = id from funext h, List.map_id]

end Relabeling

variable (m : Relabeling)

/-! ## Programs as they are written -/

def Name.relabel (x : Name) : Name := ⟨m.name x.text, m.pos x.pos⟩

def Expr.relabel : Expr → Expr
  | literal pos value => .literal (m.pos pos) value
  | name x => .name (x.relabel m)
  | not pos operand => .not (m.pos pos) operand.relabel
  | binary op left right => .binary op left.relabel right.relabel

def Device.relabel : Device → Device
  | direct pos slot => .direct (m.pos pos) slot
  | named x => .named (x.relabel m)

mutual

def Stmt.relabel : Stmt → Stmt
  | .nameSlot pos slotPos slot x => .nameSlot (m.pos pos) (m.pos slotPos) slot (x.relabel m)
  | .const pos x valuePos value => .const (m.pos pos) (x.relabel m) (m.pos valuePos) value
  | .define pos x value => .define (m.pos pos) (x.relabel m) (value.relabel m)
  | .assign x value => .assign (x.relabel m) (value.relabel m)
  | .block pos body => .block (m.pos pos) (Stmt.relabelAll body)
  | .function pos x params bodyPos body =>
    .function (m.pos pos) (x.relabel m) (params.map (Name.relabel m)) (m.pos bodyPos)
      (Stmt.relabelAll body)
  | .call x args => .call (x.relabel m) (args.map (Expr.relabel m))
  | .loop pos bodyPos body => .loop (m.pos pos) (m.pos bodyPos) (Stmt.relabelAll body)
  | .ifThen pos condition thenPos thenBody =>
    .ifThen (m.pos pos) (condition.relabel m) (m.pos thenPos) (Stmt.relabelAll thenBody)
  | .ifElse pos condition thenPos thenBody elsePos elseBody =>
    .ifElse (m.pos pos) (condition.relabel m) (m.pos thenPos) (Stmt.relabelAll thenBody)
      (m.pos elsePos) (Stmt.relabelAll elseBody)
  | .read pos device property x => .read (m.pos pos) (device.relabel m) property (x.relabel m)
  | .write pos value device property =>
    .write (m.pos pos) (value.relabel m) (device.relabel m) property
  | .yield pos => .yield (m.pos pos)

def Stmt.relabelAll : List Stmt → List Stmt
  | [] => []
  | st :: sts => st.relabel :: Stmt.relabelAll sts

end

theorem Stmt.relabelAll_eq_map (sts : List Stmt) :
    Stmt.relabelAll m sts = sts.map (Stmt.relabel m) := by
  induction sts with
  | nil => rfl
  | cons st sts ih => rw [Stmt.relabelAll, ih, List.map_cons]

/-- The program with other names and places. -/
def Program.relabel (p : Program) : Program := ⟨Stmt.relabelAll m p.statements⟩

/-! ## Bindings -/

def Variable.relabel (v : Variable) : Variable :=
  ⟨v.id, m.name v.name, m.pos v.pos, v.depth, v.function.map m.name⟩

theorem Variable.relabel_injective : Function.Injective (Variable.relabel m) := by
  rintro ⟨id, name, pos, depth, function⟩ ⟨id', name', pos', depth', function'⟩ h
  obtain ⟨rfl, hname, hpos, rfl, hfunction⟩ := Variable.mk.inj h
  obtain rfl := m.name.injective hname
  obtain rfl := m.pos.injective hpos
  obtain rfl := Option.map_injective m.name.injective hfunction
  rfl

def Constant.relabel (c : Constant) : Constant := ⟨m.name c.name, m.pos c.pos, c.value⟩

def DeviceName.relabel (d : DeviceName) : DeviceName := ⟨m.name d.name, m.pos d.pos, d.slot⟩

def FunctionHead.relabel (f : FunctionHead) : FunctionHead :=
  ⟨m.name f.name, m.pos f.pos, f.arity⟩

namespace Binding

def relabel : Binding → Binding
  | var v => .var (v.relabel m)
  | const c => .const (c.relabel m)
  | device d => .device (d.relabel m)
  | func f => .func (f.relabel m)

@[simp] theorem name_relabel (b : Binding) : (b.relabel m).name = m.name b.name := by
  cases b <;> rfl

@[simp] theorem pos_relabel (b : Binding) : (b.relabel m).pos = m.pos b.pos := by
  cases b <;> rfl

@[simp] theorem kind_relabel (b : Binding) : (b.relabel m).kind = b.kind := by
  cases b <;> rfl

end Binding

/-! ## Scopes -/

section Lookup

variable {α β γ : Type} [BEq α] [LawfulBEq α] [BEq β] [LawfulBEq β]

/-- In a table with other keys, a look-up finds what it found before. -/
theorem lookup_map_injective {f : α → β} (hf : Function.Injective f) (g : γ → γ)
    (entries : List (α × γ)) (k : α) :
    (entries.map (Prod.map f g)).lookup (f k) = (entries.lookup k).map g := by
  induction entries with
  | nil => rfl
  | cons e entries ih =>
    obtain ⟨k', c⟩ := e
    have hkeys : (f k == f k') = (k == k') := by
      rw [Bool.eq_iff_iff, beq_iff_eq, beq_iff_eq, hf.eq_iff]
    rw [List.map_cons, Prod.map_apply, List.lookup_cons, List.lookup_cons, hkeys, ih]
    cases k == k' <;> rfl

end Lookup

def Scope.relabel (s : Scope Binding) : Scope Binding :=
  { s with entries := s.entries.map (Prod.map m.name (Binding.relabel m)) }

namespace Scopes

def relabel (s : Scopes Binding) : Scopes Binding :=
  ⟨s.inner.relabel m, s.outer.map (Scope.relabel m)⟩

variable (s : Scopes Binding)

theorem find?_relabel (scope : Scope Binding) (x : String) :
    (scope.relabel m).find? (m.name x) = (scope.find? x).map (Binding.relabel m) :=
  lookup_map_injective m.name.injective _ _ _

theorem lookup?_relabel (x : String) :
    (s.relabel m).lookup? (m.name x) = (s.lookup? x).map (Binding.relabel m) := by
  change ((s.all.map (Scope.relabel m)).findSome? _) = _
  rw [List.findSome?_map, lookup?, List.map_findSome?]
  congr 1
  funext scope
  exact find?_relabel m scope x

theorem visibleNames_relabel : (s.relabel m).visibleNames = s.visibleNames.map m.name := by
  change (s.all.map (Scope.relabel m)).flatMap Scope.names = _
  rw [List.flatMap_map, visibleNames, List.map_flatMap]
  congr 1
  funext scope
  simp [Scope.names, Scope.relabel]

@[simp] theorem depth_relabel : (s.relabel m).depth = s.depth := List.length_map _

theorem leave_relabel : (s.relabel m).leave = s.leave.relabel m := by
  obtain ⟨inner, outer⟩ := s
  cases outer <;> rfl

end Scopes

/-! ## Resolved programs -/

namespace Resolved

def Expr.relabel : Expr → Expr
  | literal pos value => .literal (m.pos pos) value
  | var pos v => .var (m.pos pos) (v.relabel m)
  | const pos c => .const (m.pos pos) (c.relabel m)
  | not pos operand => .not (m.pos pos) operand.relabel
  | binary op left right => .binary op left.relabel right.relabel

def Device.relabel : Device → Device
  | direct pos slot => .direct (m.pos pos) slot
  | named pos d => .named (m.pos pos) (d.relabel m)

@[simp] theorem Device.slot_relabel (d : Device) : (d.relabel m).slot = d.slot := by
  cases d <;> rfl

mutual

def Stmt.relabel : Stmt → Stmt
  | .define pos v value => .define (m.pos pos) (v.relabel m) (value.relabel m)
  | .assign pos v value => .assign (m.pos pos) (v.relabel m) (value.relabel m)
  | .block body => .block (Stmt.relabelAll body)
  | .call pos f args => .call (m.pos pos) (f.relabel m) (args.map (Expr.relabel m))
  | .loop pos body => .loop (m.pos pos) (Stmt.relabelAll body)
  | .ifThen pos condition thenBody =>
    .ifThen (m.pos pos) (condition.relabel m) (Stmt.relabelAll thenBody)
  | .ifElse pos condition thenBody elseBody =>
    .ifElse (m.pos pos) (condition.relabel m) (Stmt.relabelAll thenBody)
      (Stmt.relabelAll elseBody)
  | .read pos device property targetPos v =>
    .read (m.pos pos) (device.relabel m) property (m.pos targetPos) (v.relabel m)
  | .write pos value device property =>
    .write (m.pos pos) (value.relabel m) (device.relabel m) property
  | .yield pos => .yield (m.pos pos)

def Stmt.relabelAll : List Stmt → List Stmt
  | [] => []
  | st :: sts => st.relabel :: Stmt.relabelAll sts

end

def Function.relabel (f : Function) : Function :=
  ⟨m.pos f.pos, f.head.relabel m, f.params.map (Variable.relabel m), Stmt.relabelAll m f.body⟩

@[simp] theorem Function.name_relabel (f : Function) : (f.relabel m).name = m.name f.name := rfl

def Item.relabel : Item → Item
  | nameSlot pos slotPos d => .nameSlot (m.pos pos) (m.pos slotPos) (d.relabel m)
  | const c => .const (c.relabel m)
  | func f => .func (f.relabel m)
  | stmt s => .stmt (s.relabel m)

namespace Program

/-- The resolved program with other names and places. -/
def relabel (p : Program) : Program := ⟨p.items.map (Item.relabel m)⟩

variable (p : Program)

theorem functions_relabel : (p.relabel m).functions = p.functions.map (Function.relabel m) := by
  rw [functions, relabel, List.filterMap_map, functions, List.map_filterMap]
  congr 1
  funext i
  cases i <;> rfl

theorem function?_relabel (name : String) :
    (p.relabel m).function? (m.name name) = (p.function? name).map (Function.relabel m) := by
  rw [function?, functions_relabel, List.find?_map, function?]
  congr 2
  funext f
  simp

end Program

end Resolved

end Chipwright
