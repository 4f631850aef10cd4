import Chipwright.Proofs.Resolved.Recursion
import Chipwright.Proofs.Resolved.Variables
import Chipwright.Resolved.Yield

/-!
# Which statements come to a `yield`

Statements come to a `yield` if one stands in them, at any depth, or in a function that is reached
from a call in them. A search that ends with an answer finds out exactly that: whatever is
remembered from earlier searches, as long as it is right, the answer is the same, and what is
remembered then is right again. The proof is by induction on the depth, so it takes nothing from the
order of the functions. A search without an answer was in blocks and calls, each inside the one
before, that are more than its depth allows.
-/
namespace Chipwright.Resolved

/-! ### Statements in statements -/

namespace Stmt

mutual

/-- What stands in a statement, at any depth, in the order of the source. -/
def inner : Stmt → List Stmt
  | block body => parts body
  | loop _ body => parts body
  | ifThen _ _ thenBody => parts thenBody
  | ifElse _ _ thenBody elseBody => parts thenBody ++ parts elseBody
  | _ => []

/-- Statements, each with what stands in it. -/
def parts : List Stmt → List Stmt
  | [] => []
  | s :: ss => s :: (s.inner ++ parts ss)

end

/-- A `yield` stands in statements. -/
def HasYield (ss : List Stmt) : Prop := ∃ pos, yield pos ∈ parts ss

/-- A call of a function stands in statements. -/
def HasCall (ss : List Stmt) (name : String) : Prop :=
  ∃ pos f args, call pos f args ∈ parts ss ∧ f.name = name

mutual

theorem mem_inner_of_mem {x y : Stmt} : ∀ s : Stmt, x ∈ s.inner → y ∈ x.inner → y ∈ s.inner
  | block body, hx, hy => mem_parts_of_mem body hx hy
  | loop _ body, hx, hy => mem_parts_of_mem body hx hy
  | ifThen _ _ thenBody, hx, hy => mem_parts_of_mem thenBody hx hy
  | ifElse _ _ thenBody elseBody, hx, hy => by
    rw [inner, List.mem_append] at hx ⊢
    exact hx.imp (mem_parts_of_mem thenBody · hy) (mem_parts_of_mem elseBody · hy)
  | define .., hx, _ | assign .., hx, _ | call .., hx, _ | read .., hx, _ | write .., hx, _
  | yield _, hx, _ => by cases hx

/-- What stands in a statement of a list stands in the list. -/
theorem mem_parts_of_mem {x y : Stmt} : ∀ ss : List Stmt, x ∈ parts ss → y ∈ x.inner → y ∈ parts ss
  | [], hx, _ => by cases hx
  | s :: ss, hx, hy => by
    rw [parts, List.mem_cons, List.mem_append] at hx ⊢
    rcases hx with rfl | hx | hx
    · exact Or.inr (Or.inl hy)
    · exact Or.inr (Or.inl (mem_inner_of_mem s hx hy))
    · exact Or.inr (Or.inr (mem_parts_of_mem ss hx hy))

end

theorem mem_parts {s : Stmt} {ss : List Stmt} (h : s ∈ ss) : s ∈ parts ss := by
  induction ss with
  | nil => cases h
  | cons s' ss ih =>
    rw [parts, List.mem_cons, List.mem_append]
    exact (List.mem_cons.1 h).imp_right fun h => Or.inr (ih h)

/-- A call, as a site. -/
def callSite? (caller : Option String) : Stmt → Option CallSite
  | call pos f _ => some ⟨caller, f.name, pos⟩
  | _ => none

mutual

theorem calls_eq (caller : Option String) :
    ∀ s : Stmt, s.calls caller = (s :: s.inner).filterMap (callSite? caller)
  | block body => by simp [calls, inner, List.filterMap_cons, callSite?, callsAll_eq caller body]
  | loop _ body => by simp [calls, inner, List.filterMap_cons, callSite?, callsAll_eq caller body]
  | ifThen _ _ thenBody => by
    simp [calls, inner, List.filterMap_cons, callSite?, callsAll_eq caller thenBody]
  | ifElse _ _ thenBody elseBody => by
    simp [calls, inner, List.filterMap_cons, callSite?, callsAll_eq caller thenBody,
      callsAll_eq caller elseBody]
  | define .. | assign .. | call .. | read .. | write .. | yield _ => rfl

/-- The sites of statements are those of the calls that stand in them. -/
theorem callsAll_eq (caller : Option String) :
    ∀ ss : List Stmt, callsAll caller ss = (parts ss).filterMap (callSite? caller)
  | [] => rfl
  | s :: ss => by
    rw [callsAll, calls_eq caller s, callsAll_eq caller ss, ← List.filterMap_append]
    rfl

end

theorem hasCall_iff {caller : Option String} {ss : List Stmt} {name : String} :
    HasCall ss name ↔ name ∈ (callsAll caller ss).map (·.callee) := by
  rw [callsAll_eq, List.mem_map]
  constructor
  · rintro ⟨pos, f, args, hcall, rfl⟩
    exact ⟨_, List.mem_filterMap.2 ⟨_, hcall, rfl⟩, rfl⟩
  · rintro ⟨site, hsite, rfl⟩
    obtain ⟨x, hx, hsite⟩ := List.mem_filterMap.1 hsite
    cases x <;> cases hsite
    exact ⟨_, _, _, hx, rfl⟩

end Stmt

/-! ### Loops -/

structure Loop where
  pos : Position
  body : List Stmt

namespace Stmt

def loop? : Stmt → Option Loop
  | loop pos body => some ⟨pos, body⟩
  | _ => none

/-- The loops in statements, in the order of the source: a loop comes before those in it. -/
def loops (ss : List Stmt) : List Loop := (parts ss).filterMap loop?

@[simp] theorem loops_nil : loops [] = [] := rfl

theorem loops_cons (s : Stmt) (ss : List Stmt) : loops (s :: ss) = loops [s] ++ loops ss := by
  rw [loops, loops, loops, parts, parts, parts, List.append_nil, ← List.filterMap_append]
  rfl

@[simp] theorem loops_block (body : List Stmt) : loops [block body] = loops body := by
  simp [loops, parts, inner, List.filterMap_cons, loop?]

@[simp] theorem loops_loop (pos : Position) (body : List Stmt) :
    loops [loop pos body] = ⟨pos, body⟩ :: loops body := by
  simp [loops, parts, inner, loop?]

@[simp] theorem loops_ifThen (pos : Position) (e : Expr) (thenBody : List Stmt) :
    loops [ifThen pos e thenBody] = loops thenBody := by
  simp [loops, parts, inner, List.filterMap_cons, loop?]

@[simp] theorem loops_ifElse (pos : Position) (e : Expr) (thenBody elseBody : List Stmt) :
    loops [ifElse pos e thenBody elseBody] = loops thenBody ++ loops elseBody := by
  simp [loops, parts, inner, List.filterMap_cons, loop?]

/-- The calls in a loop are calls of the statements around it. -/
theorem hasCall_of_mem_loops {ss : List Stmt} {l : Loop} (hl : l ∈ loops ss) {name : String}
    (h : HasCall l.body name) : HasCall ss name := by
  obtain ⟨x, hx, heq⟩ := List.mem_filterMap.1 hl
  cases x <;> cases heq
  obtain ⟨pos, f, args, hcall, hname⟩ := h
  exact ⟨pos, f, args, mem_parts_of_mem ss hx hcall, hname⟩

end Stmt

namespace Program

variable {name : String}

variable {p : Program}

/-- The loops of a program: those of the top-level code, then those of the functions, callers
first. -/
def loops (p : Program) : List Loop :=
  Stmt.loops p.main ++
    (p.functionOrder.filterMap fun name => p.function? name).flatMap fun f => Stmt.loops f.body

theorem mem_loops_of_function (hname : name ∈ p.functionOrder) {f : Function}
    (hf : p.function? name = some f) {l : Loop} (hl : l ∈ Stmt.loops f.body) : l ∈ p.loops :=
  List.mem_append_right _ (List.mem_flatMap.2 ⟨f, List.mem_filterMap.2 ⟨name, hname, hf⟩, hl⟩)

/-! ### Calls that lead to a `yield` -/

/-- A `yield` stands in a function that is reached from the given one. -/
def FunctionYields (p : Program) (name : String) : Prop :=
  ∃ g ∈ p.functions, p.Reaches name g.name ∧ Stmt.HasYield g.body

/-- A `yield` stands in statements, or in a function that is reached from a call in them. -/
def ComesToYield (p : Program) (ss : List Stmt) : Prop :=
  Stmt.HasYield ss ∨ ∃ name, Stmt.HasCall ss name ∧
    ∃ g ∈ p.functions, p.Reaches name g.name ∧ Stmt.HasYield g.body

/-- A function makes the calls that stand in its body. -/
theorem exists_of_mem_callees {caller callee : String}
    (h : callee ∈ p.callGraph.callees (some caller)) :
    ∃ f ∈ p.functions, f.name = caller ∧ Stmt.HasCall f.body callee := by
  obtain ⟨site, hsite, hcaller, rfl⟩ := CallGraph.mem_callees_iff.1 h
  obtain ⟨i, hi, hsite⟩ := List.mem_flatMap.1 hsite
  cases i with
  | func f =>
    rw [Stmt.caller_callsAll f.body hsite, Option.some.injEq] at hcaller
    exact ⟨f, List.mem_filterMap.2 ⟨_, hi, rfl⟩, hcaller,
      Stmt.hasCall_iff.2 (List.mem_map_of_mem hsite)⟩
  | stmt st =>
    rw [Stmt.caller_calls st hsite] at hcaller
    cases hcaller
  | _ => cases hsite

/-- What is reached from a function is the function itself, or is reached from one that it
calls. -/
theorem functionYields_iff : p.FunctionYields name ↔
    ∃ f ∈ p.functions, f.name = name ∧ p.ComesToYield f.body := by
  constructor
  · rintro ⟨g, hg, hreaches, hyield⟩
    rcases hreaches.cases_head with rfl | ⟨callee, hcallee, hreaches⟩
    · exact ⟨g, hg, rfl, Or.inl hyield⟩
    · obtain ⟨f, hf, hname, hcall⟩ := exists_of_mem_callees hcallee
      exact ⟨f, hf, hname, Or.inr ⟨callee, hcall, g, hg, hreaches, hyield⟩⟩
  · rintro ⟨f, hf, rfl, hyield | ⟨callee, hcall, g, hg, hreaches, hyield⟩⟩
    · exact ⟨f, hf, .refl, hyield⟩
    · exact ⟨g, hg, .head (mem_callees hf (Stmt.hasCall_iff.1 hcall)) hreaches, hyield⟩

/-- The function that is found by a name is the only one of that name. -/
theorem functionYields_iff_of_function? (hp : p.WellScoped) {f : Function}
    (h : p.function? name = some f) : p.FunctionYields name ↔ p.ComesToYield f.body := by
  obtain ⟨hf, hname⟩ := mem_of_function? h
  rw [functionYields_iff]
  constructor
  · rintro ⟨f', hf', hname', hcomes⟩
    rwa [List.inj_on_of_nodup_map hp.names hf hf' (hname.trans hname'.symm)]
  · exact fun hcomes => ⟨f, hf, hname, hcomes⟩

/-! ### The search -/

/-- A way leads to a `yield`. -/
def LeadsToYield (p : Program) : Way → Prop
  | .yield => True
  | .block body => p.ComesToYield body
  | .function name => p.FunctionYields name

/-- A statement is a `yield`, or a call that leads to one. -/
def YieldsAt (p : Program) : Stmt → Prop
  | .yield _ => True
  | .call _ f _ => p.FunctionYields f.name
  | _ => False

theorem comesToYield_iff_parts {ss : List Stmt} :
    p.ComesToYield ss ↔ ∃ x ∈ Stmt.parts ss, p.YieldsAt x := by
  constructor
  · rintro (⟨pos, hx⟩ | ⟨name, ⟨pos, f, args, hx, rfl⟩, hyields⟩)
    · exact ⟨_, hx, trivial⟩
    · exact ⟨_, hx, hyields⟩
  · rintro ⟨x, hx, hyields⟩
    cases x with
    | yield pos => exact Or.inl ⟨pos, hx⟩
    | call pos f args => exact Or.inr ⟨_, ⟨pos, f, args, hx, rfl⟩, hyields⟩
    | _ => exact hyields.elim

theorem exists_yieldsAt_iff (s : Stmt) :
    (∃ x ∈ s :: s.inner, p.YieldsAt x) ↔ ∃ w ∈ s.ways, p.LeadsToYield w := by
  cases s <;> simp [YieldsAt, Stmt.inner, Stmt.ways, LeadsToYield, comesToYield_iff_parts,
    or_and_right, exists_or]

/-- Statements come to a `yield` by one of the ways that start at them. -/
theorem comesToYield_iff {ss : List Stmt} :
    p.ComesToYield ss ↔ ∃ w ∈ ss.flatMap Stmt.ways, p.LeadsToYield w := by
  rw [comesToYield_iff_parts]
  induction ss with
  | nil => simp [Stmt.parts]
  | cons s ss ih =>
    rw [Stmt.parts, ← List.cons_append, List.flatMap_cons]
    simp only [List.mem_append, or_and_right, exists_or, ih, exists_yieldsAt_iff]

/-- What is remembered is right. -/
def Remembers (p : Program) (memory : Memory) : Prop :=
  ∀ name found, memory.lookup name = some found → (found = true ↔ p.FunctionYields name)

theorem Remembers.cons {memory : Memory} (h : p.Remembers memory) {found : Bool}
    (hfound : found = true ↔ p.FunctionYields name) : p.Remembers ((name, found) :: memory) := by
  intro name' found' hlookup
  rw [lookup_cons_ite] at hlookup
  split at hlookup
  · rename_i heq
    cases hlookup
    exact heq ▸ hfound
  · exact h name' found' hlookup

/-- With any memory that is right, an answer is yes exactly if `P` holds, and the memory is right
again. -/
def Answers (p : Program) (x : Search) (P : Prop) : Prop :=
  ∀ {memory memory' : Memory} {found : Bool}, p.Remembers memory →
    x memory = .ok (found, memory') → (found = true ↔ P) ∧ p.Remembers memory'

theorem answers_anyM {search : Way → Search} {P : Way → Prop}
    (h : ∀ w, p.Answers (search w) (P w)) (ws : List Way) :
    p.Answers (ws.anyM search) (∃ w ∈ ws, P w) := by
  induction ws with
  | nil =>
    intro memory memory' found hmemory hok
    cases hok
    exact ⟨by simp, hmemory⟩
  | cons w ws ih =>
    intro memory memory' found hmemory hok
    rw [Search.anyM_cons_apply] at hok
    obtain ⟨⟨first, memory₁⟩, hfirst, hok⟩ := bind_eq_ok.1 hok
    obtain ⟨hiff, hmemory₁⟩ := h w hmemory hfirst
    cases first with
    | true =>
      cases hok
      exact ⟨iff_of_true rfl ⟨w, List.mem_cons_self .., hiff.1 rfl⟩, hmemory₁⟩
    | false =>
      have hno : ¬ P w := fun hw => by simpa using hiff.2 hw
      simpa [hno] using ih hmemory₁ hok

/-- Whatever is remembered from earlier searches, an answer says exactly if a way leads to a
`yield`. -/
theorem answers_search (hp : p.WellScoped) (depth : Nat) (w : Way) :
    p.Answers (p.search depth w) (p.LeadsToYield w) := by
  induction depth generalizing w with
  | zero =>
    intro memory memory' found hmemory hok
    cases w with
    | yield =>
      cases hok
      exact ⟨iff_of_true rfl trivial, hmemory⟩
    | block | function => cases hok
  | succ depth ih =>
    intro memory memory' found hmemory hok
    cases w with
    | yield =>
      cases hok
      exact ⟨iff_of_true rfl trivial, hmemory⟩
    | block body =>
      rw [LeadsToYield, comesToYield_iff]
      exact answers_anyM ih _ hmemory hok
    | function name =>
      simp only [search] at hok
      split at hok
      · rename_i hlookup
        cases hok
        exact ⟨hmemory name _ hlookup, hmemory⟩
      · cases hok
      · rename_i f _ hf
        obtain ⟨⟨found', memory₁⟩, hbody, hok⟩ := bind_eq_ok.1 hok
        cases hok
        obtain ⟨hiff, hmemory₁⟩ := ih _ hmemory hbody
        have hyields : found' = true ↔ p.FunctionYields name :=
          hiff.trans (functionYields_iff_of_function? hp hf).symm
        exact ⟨hyields, hmemory₁.cons hyields⟩

/-- What may be remembered: it was found by searches, one after another. -/
inductive Recalls (p : Program) : Memory → Prop
  | nil : Recalls p []
  | search {depth : Nat} {w : Way} {memory memory' : Memory} {found : Bool} : Recalls p memory →
    p.search depth w memory = .ok (found, memory') → Recalls p memory'

theorem remembers_nil : p.Remembers [] := by
  intro name found h
  cases h

theorem Recalls.remembers (hp : p.WellScoped) {memory : Memory} (h : p.Recalls memory) :
    p.Remembers memory := by
  induction h with
  | nil => exact remembers_nil
  | search _ hok ih => exact (answers_search hp _ _ ih hok).2

/-! ### Searches that are too deep -/

/-- The functions are known that a way goes to. -/
def Knows (p : Program) : Way → Prop
  | .yield => True
  | .block body => ∀ name, Stmt.HasCall body name → ∃ f, p.function? name = some f
  | .function name => ∃ f, p.function? name = some f

/-- On a way there are more than `depth` blocks and calls, each inside the one before. -/
inductive Deep (p : Program) : Nat → Way → Prop
  | zero {w : Way} : w ≠ .yield → Deep p 0 w
  | block {depth : Nat} {body : List Stmt} {w : Way} :
    w ∈ body.flatMap Stmt.ways → Deep p depth w → Deep p (depth + 1) (.block body)
  | function {depth : Nat} {name : String} {f : Function} :
    p.function? name = some f → Deep p depth (.block f.body) → Deep p (depth + 1) (.function name)

theorem failsOnly_anyM {Q : Failure → Prop} {search : Way → Search} {ws : List Way}
    (h : ∀ w ∈ ws, ∀ memory, FailsOnly Q (search w memory)) (memory : Memory) :
    FailsOnly Q (ws.anyM search memory) := by
  induction ws generalizing memory with
  | nil => exact .ok _
  | cons w ws ih =>
    rw [Search.anyM_cons_apply]
    refine (h w (List.mem_cons_self ..) memory).bind fun (found, memory') _ => ?_
    cases found with
    | true => exact .ok _
    | false => exact ih (fun w' hw' => h w' (List.mem_cons_of_mem _ hw')) memory'

theorem Knows.of_mem_ways {body : List Stmt} (h : p.Knows (.block body)) {w : Way}
    (hw : w ∈ body.flatMap Stmt.ways) : p.Knows w := by
  obtain ⟨s, hs, hw⟩ := List.mem_flatMap.1 hw
  have hself : s ∈ Stmt.parts body := Stmt.mem_parts hs
  have hinner : ∀ x ∈ s.inner, x ∈ Stmt.parts body := fun x => Stmt.mem_parts_of_mem body hself
  have hblock : ∀ block, (∀ x ∈ Stmt.parts block, x ∈ s.inner) → p.Knows (.block block) := by
    rintro block hsub name ⟨pos, f, args, hcall, hname⟩
    exact h name ⟨pos, f, args, hinner _ (hsub _ hcall), hname⟩
  cases s <;> simp only [Stmt.ways, List.mem_cons, List.not_mem_nil, or_false] at hw
  case yield => exact hw ▸ trivial
  case block => exact hw ▸ hblock _ fun x hx => hx
  case call pos f args => exact hw ▸ h f.name ⟨pos, f, args, hself, rfl⟩
  case loop => exact hw ▸ hblock _ fun x hx => hx
  case ifThen => exact hw ▸ hblock _ fun x hx => hx
  case ifElse =>
    rcases hw with rfl | rfl
    · exact hblock _ fun x hx => List.mem_append_left _ hx
    · exact hblock _ fun x hx => List.mem_append_right _ hx

theorem WellScoped.exists_function (hp : p.WellScoped) {caller : Option String}
    (h : name ∈ p.callGraph.callees caller) : ∃ f, p.function? name = some f := by
  obtain ⟨g, hg, rfl⟩ := hp.callees _ _ h
  exact Option.isSome_iff_exists.1 (by simpa [function?] using ⟨g, hg, rfl⟩)

theorem WellScoped.knows (hp : p.WellScoped) {f : Function} (hf : f ∈ p.functions) :
    p.Knows (.block f.body) :=
  fun _ hcall => hp.exists_function (mem_callees hf (Stmt.hasCall_iff.1 hcall))

/-- Where all functions are known, a search without an answer was too deep. -/
theorem failsOnly_search (hp : p.WellScoped) {depth : Nat} {w : Way} (hw : p.Knows w)
    (memory : Memory) :
    FailsOnly (fun e => e = .tooDeep ∧ p.Deep depth w) (p.search depth w memory) := by
  induction depth generalizing w memory with
  | zero =>
    cases w with
    | yield => exact .ok _
    | block | function => exact .error ⟨rfl, .zero (by simp)⟩
  | succ depth ih =>
    cases w with
    | yield => exact .ok _
    | block body =>
      exact failsOnly_anyM (fun w' hw' memory' e he =>
        (ih (hw.of_mem_ways hw') memory' e he).imp_right (.block hw')) memory
    | function name =>
      obtain ⟨f, hf⟩ := hw
      simp only [search, hf]
      cases memory.lookup name with
      | some found => exact .ok _
      | none =>
        have hbody := ih (hp.knows (mem_of_function? hf).1) memory
        refine FailsOnly.bind (fun e he => ?_) fun _ _ => .ok _
        exact (hbody e he).imp_right (.function hf)

/-! ### Loops that never yield -/

open Classical in
/-- Of some loops, those that do not come to a `yield`. -/
noncomputable def silent (p : Program) (ls : List Loop) : List Loop :=
  ls.filter fun l => ¬ p.ComesToYield l.body

/-- The loops of a program that do not come to a `yield`. -/
noncomputable def silentLoops (p : Program) : List Loop := p.silent p.loops

theorem silent_append (ls ls' : List Loop) : p.silent (ls ++ ls') = p.silent ls ++ p.silent ls' :=
  List.filter_append ..

theorem silent_of_comesToYield {l : Loop} (h : p.ComesToYield l.body) : p.silent [l] = [] := by
  simp [silent, h]

theorem silent_of_not_comesToYield {l : Loop} (h : ¬ p.ComesToYield l.body) :
    p.silent [l] = [l] := by
  simp [silent, h]

theorem mem_silent {l : Loop} {ls : List Loop} :
    l ∈ p.silent ls ↔ l ∈ ls ∧ ¬ p.ComesToYield l.body := by
  simp [silent]

/-- What a search answers that starts with nothing remembered. -/
def answer? (p : Program) (depth : Nat) (body : List Stmt) : Option Bool :=
  (p.search depth (.block body) []).toOption.map Prod.fst

theorem comesToYield_of_answer? (hp : p.WellScoped) {depth : Nat} {body : List Stmt} {found : Bool}
    (h : p.answer? depth body = some found) : found = true ↔ p.ComesToYield body := by
  obtain ⟨⟨found', memory⟩, hsearch, rfl⟩ := Option.map_eq_some_iff.1 h
  exact (answers_search hp depth (.block body) remembers_nil (toOption_eq_some.1 hsearch)).1

/-- Where searches have answers, these say which loops never yield. -/
theorem silent_eq_filter (hp : p.WellScoped) {depth : Nat} {ls : List Loop}
    (h : ∀ l ∈ ls, (p.answer? depth l.body).isSome) :
    p.silent ls = ls.filter fun l => p.answer? depth l.body = some false := by
  refine List.filter_congr fun l hl => ?_
  obtain ⟨found, hfound⟩ := Option.isSome_iff_exists.1 (h l hl)
  have hiff := comesToYield_of_answer? hp hfound
  rw [hfound, decide_eq_decide, ← hiff, Option.some.injEq, Bool.not_eq_true]

/-- The functions are known that a loop of a program calls. -/
theorem WellScoped.knows_loop (hp : p.WellScoped) {l : Loop} (h : l ∈ p.loops) :
    p.Knows (.block l.body) := by
  intro name hcall
  rcases List.mem_append.1 h with h | h
  · have hcall := Stmt.hasCall_of_mem_loops h hcall
    exact hp.exists_function (mem_callees_main (Stmt.hasCall_iff.1 hcall))
  · obtain ⟨f, hf, h⟩ := List.mem_flatMap.1 h
    obtain ⟨name', -, hf⟩ := List.mem_filterMap.1 hf
    exact hp.knows (mem_of_function? hf).1 name (Stmt.hasCall_of_mem_loops h hcall)

end Program

end Chipwright.Resolved
