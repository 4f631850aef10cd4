import Chipwright.Proofs.Resolved.Scoping
import Chipwright.Proofs.Resolved.Semantics
import Chipwright.Proofs.Semantics

/-!
# Stores and memories

While a program and its resolved form run, the open scopes, the store and the memory say the
same: what a name is resolved to at a place has the value, in the memory, that the name has in
the store. Two facts carry this through assignments. Within one scope variables differ by their
names, and those of different scopes that are open at a time differ by their depth.

The scope of the top level grows while a program is resolved, but functions run in the middle of
it. So the top level of the store is always compared with the scope as it is at the end, the
`ground`.
-/
namespace Chipwright

variable {V : Type} {μ μ' : Memory V} {ground entries : List (String × Binding)}
  {scopes : Scopes Binding} {frame : Frame V} {frames : List (Frame V)} {s : Store V}
  {x : String} {v : Variable} {a : V}

/-! ## Frames -/

theorem Frame.assign_eq_none : frame.assign x a = none ↔ frame.lookup x = none := by
  induction frame with
  | nil => simp [assign]
  | cons e frame ih =>
    obtain ⟨y, b⟩ := e
    rw [assign, lookup_cons_ite]
    split
    · simp
    · rw [Option.map_eq_none_iff, ih]

theorem Frame.lookup_assign {frame' : Frame V} (h : frame.assign x a = some frame') (y : String) :
    frame'.lookup y = if y = x then some a else frame.lookup y := by
  induction frame generalizing frame' with
  | nil => cases h
  | cons e frame ih =>
    obtain ⟨z, b⟩ := e
    rw [assign] at h
    by_cases hx : x = z
    · rw [if_pos hx] at h
      cases h
      rw [lookup_cons_ite, lookup_cons_ite, hx]
      split <;> rfl
    · rw [if_neg hx] at h
      obtain ⟨frame₁, h₁, rfl⟩ := Option.map_eq_some_iff.1 h
      rw [lookup_cons_ite, lookup_cons_ite, ih h₁]
      by_cases hy : y = z
      · have hyx : y ≠ x := fun h => hx (h.symm.trans hy)
        rw [if_pos hy, if_neg hyx, if_pos hy]
      · rw [if_neg hy, if_neg hy]

/-- The value of what a name stands for, if that is a variable. -/
def Binding.value? (μ : Memory V) : Binding → Option V
  | var v => μ v
  | _ => none

/-- A frame gives the variables of a scope their values, under their names, and has no others. -/
def Frame.Shows (μ : Memory V) (entries : List (String × Binding)) (frame : Frame V) : Prop :=
  ∀ x, frame.lookup x = (entries.lookup x).bind (·.value? μ)

namespace Frame.Shows

/-- Only the values of the variables of the scope matter. -/
theorem congr (h : frame.Shows μ entries) (hμ : ∀ x v, (x, Binding.var v) ∈ entries → μ' v = μ v) :
    frame.Shows μ' entries := by
  intro x
  rw [h x]
  cases hlookup : entries.lookup x with
  | none => rfl
  | some b =>
    cases b with
    | var v => exact (hμ x v (mem_of_lookup hlookup)).symm
    | _ => rfl

/-- A variable of the scope gets a new value. -/
theorem update (h : frame.Shows μ entries) (hv : entries.lookup x = some (.var v))
    (hname : ∀ y v', (y, Binding.var v') ∈ entries → v'.name = y) {frame' : Frame V}
    (hframe : ∀ y, frame'.lookup y = if y = x then some a else frame.lookup y) :
    frame'.Shows (μ.set v a) entries := by
  intro y
  rw [hframe]
  by_cases hy : y = x
  · subst hy
    simp [hv, Binding.value?]
  · rw [if_neg hy, h y]
    cases hlookup : entries.lookup y with
    | none => rfl
    | some b =>
      cases b with
      | var v' =>
        have hne : v' ≠ v := by
          rintro rfl
          exact hy ((hname y v' (mem_of_lookup hlookup)).symm.trans (hname x v' (mem_of_lookup hv)))
        exact (Memory.set_of_ne hne a μ).symm
      | _ => rfl

end Frame.Shows

/-- The frame of a function gives its parameters the values of the arguments. -/
theorem Frame.shows_params {vs : List Variable} {args : List V}
    (hnames : (vs.map Variable.name).Nodup) (hlength : args.length = vs.length) :
    Frame.Shows (fun v => (vs.zip args).lookup v) (vs.map fun v => (v.name, .var v))
      ((vs.map Variable.name).zip args) := by
  induction vs generalizing args with
  | nil =>
    intro x
    simp
  | cons v vs ih =>
    obtain ⟨a, args, rfl⟩ := List.exists_cons_of_length_eq_add_one hlength
    rw [List.map_cons, List.nodup_cons] at hnames
    intro x
    simp only [List.map_cons, List.zip_cons_cons, lookup_cons_ite]
    split
    · simp [Binding.value?]
    · refine (ih hnames.2 (by simpa using hlength)).congr (fun y v' hv' => ?_) x
      obtain ⟨v'', hv'', heq⟩ := List.mem_map.1 hv'
      cases heq
      have hne : v' ≠ v := by
        rintro rfl
        exact hnames.1 (List.mem_map_of_mem hv'')
      exact if_neg hne

/-! ## Scopes -/

/-- The scope of a block has nothing but variables, all of which have a value. -/
structure Frame.Follows (μ : Memory V) (depth : Nat) (scope : Scope Binding) (frame : Frame V) :
    Prop where
  shown : frame.Shows μ scope.entries
  vars : ∀ e ∈ scope.entries, ∃ v, e = (v.name, .var v) ∧ v.depth = depth ∧ μ v ≠ none

theorem Frame.Follows.congr {depth : Nat} {scope : Scope Binding}
    (h : frame.Follows μ depth scope) (hμ : ∀ v, v.depth = depth → μ' v = μ v) :
    frame.Follows μ' depth scope := by
  refine ⟨h.shown.congr fun x v hv => ?_, fun e he => ?_⟩
  · obtain ⟨v', heq, hdepth, -⟩ := h.vars _ hv
    cases heq
    exact hμ v hdepth
  · obtain ⟨v, rfl, hdepth, hvalue⟩ := h.vars e he
    exact ⟨v, rfl, hdepth, by rwa [hμ v hdepth]⟩

/-- A name means nothing in a block exactly if it has no value there. -/
theorem Frame.Follows.find?_eq_none {depth : Nat} {scope : Scope Binding}
    (h : frame.Follows μ depth scope) : frame.lookup x = none ↔ scope.find? x = none := by
  rw [h.shown x, Scope.find?]
  cases hlookup : scope.entries.lookup x with
  | none => simp
  | some b =>
    obtain ⟨v, heq, -, hvalue⟩ := h.vars _ (mem_of_lookup hlookup)
    cases heq
    simp [Binding.value?, hvalue]

/-- Frames follow the scopes of the open blocks; below these is the top level. -/
inductive Scopes.Shown (μ : Memory V) (ground : List (String × Binding)) :
    Scopes Binding → List (Frame V) → Prop
  | root {scope : Scope Binding} :
    (∀ e ∈ scope.entries, e ∈ ground) → Shown μ ground ⟨scope, []⟩ []
  | block {scope scope' : Scope Binding} {outer : List (Scope Binding)} {frame : Frame V}
    {frames : List (Frame V)} :
    frame.Follows μ (outer.length + 1) scope → Shown μ ground ⟨scope', outer⟩ frames →
      Shown μ ground ⟨scope, scope' :: outer⟩ (frame :: frames)

/-- What is known of the scope of the top level. -/
structure Ground (r : Resolved.Program) (ground : List (String × Binding)) : Prop where
  nodup : (ground.map Prod.fst).Nodup
  name : ∀ e ∈ ground, e.2.name = e.1
  global : ∀ x v, (x, Binding.var v) ∈ ground → v ∈ r.globals
  depth : ∀ v ∈ r.globals, v.depth = 0

namespace Ground

variable {r : Resolved.Program}

theorem depth_eq (h : Ground r ground) (hv : (x, Binding.var v) ∈ ground) : v.depth = 0 :=
  h.depth v (h.global x v hv)

theorem lookup_eq (h : Ground r ground) {b : Binding} (hb : (x, b) ∈ ground) :
    ground.lookup x = some b := lookup_eq_some_of_mem h.nodup hb

end Ground

namespace Scopes.Shown

theorem congr (h : scopes.Shown μ ground frames) (hμ : ∀ v, 0 < v.depth → μ' v = μ v) :
    scopes.Shown μ' ground frames := by
  induction h with
  | root hscope => exact .root hscope
  | block hframe _ ih =>
    exact .block (hframe.congr fun v hv => hμ v (hv ▸ Nat.succ_pos _)) ih

/-- A variable of a block further inside may get a value. -/
theorem set_of_lt (h : scopes.Shown μ ground frames) (hv : scopes.depth < v.depth) :
    scopes.Shown (μ.set v a) ground frames := by
  induction h with
  | root hscope => exact .root hscope
  | @block _ _ outer _ _ hframe _ ih =>
    have hlt : outer.length + 1 < v.depth := hv
    refine .block (hframe.congr fun v' hv' => Memory.set_of_ne ?_ a μ) (ih (Nat.lt_of_succ_lt hlt))
    rintro rfl
    omega

/-- What a name is resolved to: something of the top level, or a variable of a block that has a
value. -/
theorem cases_of_lookup? (h : scopes.Shown μ ground frames) {b : Binding}
    (hb : scopes.lookup? x = some b) :
    (x, b) ∈ ground ∨ ∃ v, b = .var v ∧ v.name = x ∧ 0 < v.depth ∧ v.depth ≤ scopes.depth ∧
      μ v ≠ none := by
  induction h with
  | @root scope hscope =>
    have hfind : scope.find? x = some b := by simpa [lookup?, all] using hb
    exact Or.inl (hscope _ (mem_of_lookup hfind))
  | @block scope scope' outer frame frames hframe _ ih =>
    rw [lookup?, all, List.findSome?_cons] at hb
    cases hfind : scope.find? x with
    | some b' =>
      rw [hfind] at hb
      cases hb
      obtain ⟨v, heq, hdepth, hvalue⟩ := hframe.vars _ (mem_of_lookup hfind)
      cases heq
      exact Or.inr ⟨v, rfl, rfl, hdepth ▸ Nat.succ_pos _, Nat.le_of_eq hdepth, hvalue⟩
    | none =>
      rw [hfind] at hb
      refine (ih hb).imp_right ?_
      rintro ⟨v, rfl, hname, hpos, hle, hvalue⟩
      exact ⟨v, rfl, hname, hpos, Nat.le_succ_of_le hle, hvalue⟩

/-- The value of a name is that of what it is resolved to. -/
theorem findSome?_lookup (h : scopes.Shown μ ground frames) (hnodup : (ground.map Prod.fst).Nodup)
    {root : Frame V} (hroot : root.Shows μ ground) {b : Binding}
    (hb : scopes.lookup? x = some b) :
    (frames ++ [root]).findSome? (·.lookup x) = b.value? μ := by
  induction h with
  | @root scope hscope =>
    have hfind : scope.find? x = some b := by simpa [lookup?, all] using hb
    have hlookup := lookup_eq_some_of_mem hnodup (hscope _ (mem_of_lookup hfind))
    simp [hroot x, hlookup]
  | @block scope scope' outer frame frames hframe _ ih =>
    rw [lookup?, all, List.findSome?_cons] at hb
    rw [List.cons_append, List.findSome?_cons]
    cases hfind : scope.find? x with
    | some b' =>
      rw [hfind] at hb
      cases hb
      have hlookup : frame.lookup x = b.value? μ := by
        rw [hframe.shown x, ← Scope.find?, hfind, Option.bind_some]
      rw [← hlookup]
      cases hvalue : frame.lookup x with
      | none => exact absurd (hframe.find?_eq_none.1 hvalue) (by simp [hfind])
      | some a => rfl
    | none =>
      rw [hfind] at hb
      rw [hframe.find?_eq_none.2 hfind]
      exact ih hb

/-- Assigning to a name changes the variable that it is resolved to, in a block or, if no block
has the name, at the top level. -/
theorem assign (h : scopes.Shown μ ground frames) (hv : scopes.lookup? x = some (.var v)) :
    (∃ frames', Store.assignBlocks x a frames = some frames' ∧ 0 < v.depth ∧
        v.depth ≤ scopes.depth ∧ μ v ≠ none ∧ scopes.Shown (μ.set v a) ground frames') ∨
      Store.assignBlocks x a frames = none ∧ (x, .var v) ∈ ground := by
  induction h with
  | @root scope hscope =>
    have hfind : scope.find? x = some (.var v) := by simpa [lookup?, all] using hv
    exact Or.inr ⟨rfl, hscope _ (mem_of_lookup hfind)⟩
  | @block scope scope' outer frame frames hframe houter ih =>
    rw [lookup?, all, List.findSome?_cons] at hv
    cases hfind : scope.find? x with
    | some b =>
      rw [hfind] at hv
      cases hv
      obtain ⟨v', heq, hdepth, hvalue⟩ := hframe.vars _ (mem_of_lookup hfind)
      cases heq
      have hsome : frame.assign v.name a ≠ none := fun hnone => by
        rw [Frame.assign_eq_none, hframe.find?_eq_none, hfind] at hnone
        cases hnone
      obtain ⟨frame', hframe'⟩ := Option.ne_none_iff_exists'.1 hsome
      have hnames : ∀ y v', (y, Binding.var v') ∈ scope.entries → v'.name = y := by
        intro y v' hv'
        obtain ⟨_, heq, -⟩ := hframe.vars _ hv'
        cases heq
        rfl
      have hfollows : frame'.Follows (μ.set v a) (outer.length + 1) scope := by
        refine ⟨hframe.shown.update hfind hnames (Frame.lookup_assign hframe'), fun e he => ?_⟩
        obtain ⟨v', rfl, hdepth', hvalue'⟩ := hframe.vars e he
        refine ⟨v', rfl, hdepth', ?_⟩
        by_cases heq : v' = v
        · simp [heq]
        · rwa [Memory.set_of_ne heq]
      have hshown : Shown (μ.set v a) ground ⟨scope', outer⟩ frames :=
        houter.set_of_lt (by rw [hdepth]; exact Nat.lt_succ_self _)
      exact Or.inl ⟨frame' :: frames, by rw [Store.assignBlocks, hframe'], hdepth ▸ Nat.succ_pos _,
        Nat.le_of_eq hdepth, hvalue, .block hfollows hshown⟩
    | none =>
      rw [hfind] at hv
      have hnone : frame.assign x a = none := Frame.assign_eq_none.2 (hframe.find?_eq_none.2 hfind)
      rcases ih hv with ⟨frames', hframes', hpos, hle, hvalue, hshown⟩ | ⟨hframes, hmem⟩
      · have hle : v.depth ≤ outer.length := hle
        have hfollows : frame.Follows (μ.set v a) (outer.length + 1) scope := by
          refine hframe.congr fun v' hv' => Memory.set_of_ne ?_ a μ
          rintro rfl
          omega
        exact Or.inl ⟨frame :: frames', by rw [Store.assignBlocks, hnone, hframes']; rfl, hpos,
          Nat.le_succ_of_le hle, hvalue, .block hfollows hshown⟩
      · exact Or.inr ⟨by rw [Store.assignBlocks, hnone, hframes]; rfl, hmem⟩

end Scopes.Shown

/-- The open scopes, a memory and a store say the same. -/
structure Agrees (ground : List (String × Binding)) (μ : Memory V) (scopes : Scopes Binding)
    (s : Store V) : Prop where
  blocks : scopes.Shown μ ground s.blocks
  root : s.root.Shows μ ground

/-- At the top level, scopes are never more than they are at the end. -/
def Scopes.Grounded (ground : List (String × Binding)) (scopes : Scopes Binding) : Prop :=
  scopes.outer = [] → ∀ e ∈ scopes.inner.entries, e ∈ ground

theorem Scopes.Grounded.of_extend {vs : List Variable} (h : (scopes.extend vs).Grounded ground) :
    scopes.Grounded ground :=
  fun houter e he => h houter e (List.mem_append_left _ he)

theorem Scopes.grounded_enter (scopes : Scopes Binding) (kind : ScopeKind) (vs : List Variable) :
    ((scopes.enter kind).extend vs).Grounded ground :=
  fun houter => by cases houter

namespace Agrees

variable {r : Resolved.Program}

theorem find?_eq (h : Agrees ground μ scopes s) (hground : Ground r ground) {b : Binding}
    (hb : scopes.lookup? x = some b) : s.find? x = b.value? μ :=
  h.blocks.findSome?_lookup hground.nodup h.root hb

/-- An assignment that can be executed. -/
theorem assign (h : Agrees ground μ scopes s) (hground : Ground r ground) {s' : Store V}
    (hv : scopes.lookup? x = some (.var v)) (hs' : s.assign x a = some s') :
    μ v ≠ none ∧ Agrees ground (μ.set v a) scopes s' := by
  rw [Store.assign] at hs'
  rcases h.blocks.assign (a := a) hv with
    ⟨frames', hframes', hpos, -, hvalue, hshown⟩ | ⟨hframes, hmem⟩
  · rw [hframes'] at hs'
    cases hs'
    refine ⟨hvalue, hshown, h.root.congr fun y v' hv' => Memory.set_of_ne ?_ a μ⟩
    rintro rfl
    exact absurd (hground.depth_eq hv') (Nat.ne_of_gt hpos)
  · rw [hframes] at hs'
    obtain ⟨root', hroot', rfl⟩ := Option.map_eq_some_iff.1 hs'
    have hlookup := hground.lookup_eq hmem
    have hvalue : μ v ≠ none := fun hnone => by
      have hnone' : s.root.lookup x = none := by rw [h.root x, hlookup]; exact hnone
      rw [← Frame.assign_eq_none (a := a), hroot'] at hnone'
      cases hnone'
    refine ⟨hvalue, h.blocks.congr fun v' hv' => Memory.set_of_ne ?_ a μ, ?_⟩
    · rintro rfl
      exact absurd (hground.depth_eq hmem) (Nat.ne_of_gt hv')
    · exact h.root.update hlookup (fun y v' hv' => hground.name _ hv') (Frame.lookup_assign hroot')

/-- A definition of a name that the innermost scope does not have yet. -/
theorem define (h : Agrees ground μ scopes s) (hground : Ground r ground)
    (hdepth : v.depth = scopes.depth) (hnew : scopes.inner.find? v.name = none)
    (hgrounded : (scopes.extend [v]).Grounded ground) :
    Agrees ground (μ.set v a) (scopes.extend [v]) (s.define v.name a) := by
  obtain ⟨root, blocks⟩ := s
  have hroot : root.Shows μ ground := h.root
  cases h.blocks with
  | @root scope hscope =>
    have hv : (v.name, Binding.var v) ∈ ground := hgrounded rfl _ (by simp [Scopes.extend])
    exact ⟨.root (hgrounded rfl), hroot.update (hground.lookup_eq hv)
      (fun y v' hv' => hground.name _ hv') fun y => lookup_cons_ite ..⟩
  | @block scope scope' outer frame frames hframe houter =>
    have hdepth : v.depth = outer.length + 1 := hdepth
    have hnew : scope.entries.lookup v.name = none := hnew
    have hold : ∀ y v', (y, Binding.var v') ∈ scope.entries → v' ≠ v := by
      rintro y v' hv' rfl
      obtain ⟨_, heq, -⟩ := hframe.vars _ hv'
      cases heq
      simpa using List.lookup_eq_none_iff.1 hnew _ hv'
    have hshown : Frame.Shows (μ.set v a) (scope.entries ++ [(v.name, .var v)])
        ((v.name, a) :: frame) := by
      intro y
      rw [lookup_cons_ite, List.lookup_append, lookup_cons_ite, List.lookup_nil]
      split
      · rename_i heq
        simp [heq, hnew, Binding.value?]
      · rw [Option.or_none]
        exact hframe.shown.congr (fun y v' hv' => Memory.set_of_ne (hold y v' hv') a μ) y
    refine ⟨.block ⟨hshown, fun e he => ?_⟩ (houter.set_of_lt ?_), ?_⟩
    · rcases List.mem_append.1 he with he | he
      · obtain ⟨v', rfl, hdepth', hvalue⟩ := hframe.vars e he
        exact ⟨v', rfl, hdepth', by rwa [Memory.set_of_ne (hold _ v' he)]⟩
      · obtain rfl := List.mem_singleton.1 he
        exact ⟨v, rfl, hdepth, by simp⟩
    · rw [hdepth]
      exact Nat.lt_succ_self _
    · refine hroot.congr fun y v' hv' => Memory.set_of_ne ?_ a μ
      rintro rfl
      exact absurd (hground.depth_eq hv') (by omega)

theorem enter (h : Agrees ground μ scopes s) (kind : ScopeKind) :
    Agrees ground μ (scopes.enter kind) s.enter :=
  ⟨.block ⟨fun _ => rfl, by simp⟩ h.blocks, h.root⟩

theorem leave {kind : ScopeKind} {vs : List Variable}
    (h : Agrees ground μ ((scopes.enter kind).extend vs) s) : Agrees ground μ scopes s.leave := by
  obtain ⟨root, blocks⟩ := s
  cases h.blocks with
  | block _ houter => exact ⟨houter, h.root⟩

/-- A function that is entered: its scope has the parameters, above the top level. -/
theorem entering (hground : Ground r ground) (hroot : s.root.Shows μ ground)
    (hscopes : scopes.Grounded ground) (houter : scopes.outer = []) {params : List Name}
    {vs : List Variable} {args : List V} (hparams : params.map Name.text = vs.map Variable.name)
    (hnames : (vs.map Variable.name).Nodup) (hdepth : ∀ v ∈ vs, v.depth = 1)
    (hlength : args.length = vs.length) :
    Agrees ground (μ.entering r.globals vs args) ((scopes.enter .function).extend vs)
      (s.entering params args) := by
  obtain ⟨scope, outer⟩ := scopes
  cases houter
  -- what is not at depth 0 is not global
  have hlocal : ∀ v ∈ vs, μ.entering r.globals vs args v = (vs.zip args).lookup v := by
    intro v hv
    refine Memory.entering_of_notMem fun hglobal => ?_
    have := hground.depth v hglobal
    have := hdepth v hv
    omega
  refine ⟨.block ⟨?_, fun e he => ?_⟩ (.root (hscopes rfl)),
    hroot.congr fun x v hv => Memory.entering_of_mem (hground.global x v hv)⟩
  · rw [hparams]
    refine (Frame.shows_params hnames hlength).congr fun x v hv => ?_
    obtain ⟨v', hv', heq⟩ := List.mem_map.1 hv
    cases heq
    exact hlocal v hv'
  · obtain ⟨v, hv, rfl⟩ := List.mem_map.1 he
    refine ⟨v, rfl, hdepth v hv, ?_⟩
    rw [hlocal v hv]
    intro hnone
    have hmem : v ∈ (vs.zip args).map Prod.fst := by
      rwa [List.map_fst_zip (Nat.le_of_eq hlength.symm)]
    obtain ⟨e', he', rfl⟩ := List.mem_map.1 hmem
    simpa using List.lookup_eq_none_iff.1 hnone e' he'

/-- A function that has returned leaves its variables behind, but not those of the top level. -/
theorem returning (hground : Ground r ground) (h : Agrees ground μ scopes s)
    {callee : Store V} (hcallee : callee.root.Shows μ' ground) :
    Agrees ground (μ'.returning r.globals μ) scopes (callee.returning s) := by
  refine ⟨h.blocks.congr fun v hv => Memory.returning_of_notMem fun hglobal => ?_,
    hcallee.congr fun x v hv => Memory.returning_of_mem (hground.global x v hv)⟩
  have := hground.depth v hglobal
  omega

end Agrees

end Chipwright
