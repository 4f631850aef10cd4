import Chipwright.Proofs.Lexing.Tiling
import Chipwright.Proofs.Parsing.Program

/-!
# Prompt readers

A reader looks at one token after those that it has taken, and it fails at the first token that no
phrase has at that place: what it has taken until then can be completed to a phrase, by tokens that
can be written down. Both are kept when readers are put together.
-/
namespace Chipwright

/-- Some text spells a token of this kind. -/
def Lexer.Writable (kind : TokenKind) : Prop := ∃ text, Spelling kind text

/-- A fault that is found after some tokens is told of the next one, or of the end if there is none.
Only that of a minus without a number is told of the minus, the last token before. -/
inductive ParseFault.Told : ParseFault → (before rest : List Token) → Prop
  | unexpected {before rest : List Token} (expected : String) :
    Told (.unexpected expected rest) before rest
  | missing {before rest : List Token} (expected : String) :
    Told (.missing expected rest) before rest
  | chained {before rest : List Token} (t : Token) :
    Told ⟨.chainedComparison t.kind.text, t.pos⟩ before (t :: rest)
  | tooLarge {before rest : List Token} {n : Nat} {pos : Position} :
    Told ⟨.integerTooLarge (toString n), pos⟩ before (⟨.integer n, pos⟩ :: rest)
  | tooDeep {before rest : List Token} (t : Token) :
    Told ⟨.nestingTooDeep, t.pos⟩ before (t :: rest)
  | dangling {before rest : List Token} (pos : Position) :
    Told ⟨.danglingMinus, pos⟩ (before ++ [⟨.symbol .minus, pos⟩]) rest

theorem ParseFault.Told.append {fault : ParseFault} {before rest : List Token}
    (h : fault.Told before rest) (earlier : List Token) : fault.Told (earlier ++ before) rest := by
  cases h with
  | unexpected expected => exact .unexpected expected
  | missing expected => exact .missing expected
  | chained t => exact .chained t
  | tooLarge => exact .tooLarge
  | tooDeep t => exact .tooDeep t
  | dangling pos =>
    rw [← List.append_assoc]
    exact .dangling pos

theorem head?_append_eq {α : Type} (xs : List α) {ys zs : List α} (h : ys.head? = zs.head?) :
    (xs ++ ys).head? = (xs ++ zs).head? := by
  simp [List.head?_append, h]

namespace Reader

open Grammar Operator Lexer

variable {kind : TokenKind}

variable {α β : Type}

/-- The kind of the token at the front. -/
def front (ts : List Token) : Option TokenKind := ts.head?.map (·.kind)

/-- What has been taken is completed by tokens of these kinds, wherever they stand, if what may
follow comes after them. The end may follow. -/
structure Fills (p : Reader α) (follow : Option TokenKind → Prop) (used : List Token)
    (kinds : List TokenKind) : Prop where
  writable : ∀ kind ∈ kinds, Writable kind
  ends : follow none
  reads : ∀ us rest, us.map (·.kind) = kinds → follow (front rest) →
    ∃ a, p.Reads (used ++ (us ++ rest)) a rest

/-- The reader fails where the tokens before can be completed and the next one cannot stand. -/
def Stuck (p : Reader α) (follow : Option TokenKind → Prop) (ts : List Token) (fault : ParseFault) :
    Prop :=
  ∃ used rest, ts = used ++ rest ∧ fault.Told used rest ∧
    (∀ rest', rest'.head? = rest.head? → p (used ++ rest') = .error fault) ∧
    (fault.cause ≠ .nestingTooDeep → ∃ kinds, p.Fills follow used kinds)

/-- A reader that looks at one token after those that it takes, and that fails as soon as what it
has taken does not go on with the next token. -/
structure Prompt (p : Reader α) (follow : Option TokenKind → Prop) : Prop where
  reads : ∀ {ts a rest}, p.Reads ts a rest → ∃ used, ts = used ++ rest ∧
    ∀ rest', rest'.head? = rest.head? ∨ follow (front rest') → p.Reads (used ++ rest') a rest'
  fails : ∀ {ts fault}, p ts = .error fault → p.Stuck follow ts fault

/-- A prompt reader with one phrase that it reads. -/
structure PromptFor (p : Reader α) (follow : Option TokenKind → Prop) (kinds : List TokenKind) :
    Prop extends Prompt p follow where
  fills : p.Fills follow [] kinds

/-- What the reader reads starts with a token of some kinds. -/
def Begins (p : Reader α) (follow starts : Option TokenKind → Prop) : Prop :=
  ∀ ts a rest, p.Reads ts a rest → follow (front rest) → starts (front ts)

/-- Everything may follow. -/
def anything : Option TokenKind → Prop := fun _ => True

theorem Prompt.mono {p : Reader α} {follow follow' : Option TokenKind → Prop}
    (h : Prompt p follow) (hle : ∀ next, follow' next → follow next) (hends : follow' none) :
    Prompt p follow' where
  reads := by
    intro ts a rest hreads
    obtain ⟨used, heq, hsame⟩ := h.reads hreads
    exact ⟨used, heq, fun rest' hrest' => hsame rest' (hrest'.imp_right (hle _))⟩
  fails := by
    intro ts fault hfault
    obtain ⟨used, rest, heq, htold, hsame, hfills⟩ := h.fails hfault
    refine ⟨used, rest, heq, htold, hsame, fun hlimit => ?_⟩
    obtain ⟨kinds, hkinds⟩ := hfills hlimit
    exact ⟨kinds, hkinds.writable, hends, fun us rest' hus hrest' =>
      hkinds.reads us rest' hus (hle _ hrest')⟩

/-! ### One after another -/

theorem bind_eq_error_iff {p : Reader α} {f : α → Reader β} {ts : List Token} {fault : ParseFault} :
    (p >>= f) ts = .error fault ↔
      p ts = .error fault ∨ ∃ a mid, p.Reads ts a mid ∧ f a mid = .error fault := by
  constructor
  · intro h
    simp only [Bind.bind, bind] at h
    split at h
    · rename_i hp
      exact .inl (hp.trans (congrArg _ (Except.error.inj h)))
    · rename_i a mid hmid hp
      split at h
      · rename_i hf
        exact .inr ⟨a, mid, ⟨hmid, hp⟩, hf.trans (congrArg _ (Except.error.inj h))⟩
      · cases h
  · rintro (hp | ⟨a, mid, ⟨hmid, hp⟩, hf⟩)
    · simp only [Bind.bind, bind, hp]
    · simp only [Bind.bind, bind, hp, hf]

section Bind

variable {p : Reader α} {f : α → Reader β} {follow follow' : Option TokenKind → Prop}
  {kinds kinds' : List TokenKind}

theorem Fills.nonempty {used : List Token} (h : p.Fills follow used kinds) : Nonempty α := by
  obtain ⟨a, -⟩ := h.reads (kinds.map (⟨·, .first⟩)) [] (by simp [Function.comp_def]) h.ends
  exact ⟨a⟩

theorem Fills.bind {used : List Token} (hp : p.Fills follow used kinds)
    (hf : ∀ a, (f a).Fills follow' [] kinds') (hbegins : ∀ a, (f a).Begins follow' follow) :
    (p >>= f).Fills follow' used (kinds ++ kinds') := by
  obtain ⟨a₀⟩ := hp.nonempty
  refine ⟨?_, (hf a₀).ends, fun us rest hus hrest => ?_⟩
  · intro kind hkind
    rcases List.mem_append.1 hkind with hkind | hkind
    · exact hp.writable kind hkind
    · exact (hf a₀).writable kind hkind
  · obtain ⟨us₁, us₂, rfl, hus₁, hus₂⟩ := List.map_eq_append_iff.1 hus
    have hnext : follow (front (us₂ ++ rest)) := by
      obtain ⟨b₀, hb₀⟩ := (hf a₀).reads us₂ rest hus₂ hrest
      exact hbegins a₀ _ b₀ rest hb₀ hrest
    obtain ⟨a, ha⟩ := hp.reads us₁ (us₂ ++ rest) hus₁ hnext
    obtain ⟨b, hb⟩ := (hf a).reads us₂ rest hus₂ hrest
    refine ⟨b, reads_bind.2 ⟨a, us₂ ++ rest, ?_, hb⟩⟩
    rwa [List.append_assoc]

theorem PromptFor.bind (hp : PromptFor p follow kinds) (hf : ∀ a, PromptFor (f a) follow' kinds')
    (hbegins : ∀ a, (f a).Begins follow' follow) :
    PromptFor (p >>= f) follow' (kinds ++ kinds') where
  reads := by
    intro ts b rest hreads
    obtain ⟨a, mid, ha, hb⟩ := reads_bind.1 hreads
    obtain ⟨used, rfl, hsame⟩ := hp.reads ha
    obtain ⟨used', rfl, hsame'⟩ := (hf a).reads hb
    refine ⟨used ++ used', by simp, fun rest' hrest' => ?_⟩
    have hb' := hsame' rest' hrest'
    rw [List.append_assoc]
    refine reads_bind.2 ⟨a, used' ++ rest', hsame _ ?_, hb'⟩
    exact hrest'.imp (head?_append_eq used') (hbegins a _ b rest' hb')
  fails := by
    intro ts fault hfault
    rcases bind_eq_error_iff.1 hfault with hfault | ⟨a, mid, ha, hfault⟩
    · obtain ⟨used, rest, heq, htold, hsame, hfills⟩ := hp.fails hfault
      refine ⟨used, rest, heq, htold, fun rest' hrest' => ?_, fun hlimit => ?_⟩
      · exact bind_eq_error_iff.2 (.inl (hsame rest' hrest'))
      · obtain ⟨more, hmore⟩ := hfills hlimit
        exact ⟨more ++ kinds', hmore.bind (fun a => (hf a).fills) hbegins⟩
    · obtain ⟨used, heq, hsame₀⟩ := hp.reads ha
      obtain ⟨used', rest, rfl, htold, hsame, hfills⟩ := (hf a).fails hfault
      refine ⟨used ++ used', rest, by simp [heq], htold.append used, fun rest' hrest' => ?_,
        fun hlimit => ?_⟩
      · rw [List.append_assoc]
        refine bind_eq_error_iff.2 (.inr ⟨a, used' ++ rest', ?_, hsame rest' hrest'⟩)
        exact hsame₀ _ (.inl (head?_append_eq used' hrest'))
      · obtain ⟨more, hmore⟩ := hfills hlimit
        refine ⟨more, hmore.writable, hmore.ends, fun us rest' hus hrest' => ?_⟩
        obtain ⟨b, hb⟩ := hmore.reads us rest' hus hrest'
        rw [List.append_assoc]
        exact ⟨b, reads_bind.2 ⟨a, _, hsame₀ _ (.inr (hbegins a _ b rest' hb hrest')), hb⟩⟩
  fills := hp.fills.bind (fun a => (hf a).fills) hbegins

end Bind

theorem PromptFor.andThen {p : Reader α} {f : α → Reader β} {follow : Option TokenKind → Prop}
    {kinds kinds' : List TokenKind} (hp : PromptFor p anything kinds)
    (hf : ∀ a, PromptFor (f a) follow kinds') : PromptFor (p >>= f) follow (kinds ++ kinds') :=
  hp.bind hf fun _ _ _ _ _ _ => trivial

theorem promptFor_pure {follow : Option TokenKind → Prop} (hends : follow none) (a : α) :
    PromptFor (Pure.pure a : Reader α) follow [] where
  reads h := by
    obtain ⟨rfl, rfl⟩ := reads_pure.1 h
    exact ⟨[], rfl, fun _ _ => reads_pure.2 ⟨rfl, rfl⟩⟩
  fails h := by cases h
  fills := {
    writable := List.forall_mem_nil _
    ends := hends
    reads := fun us rest hus _ => by
      obtain rfl := List.map_eq_nil_iff.1 hus
      exact ⟨a, reads_pure.2 ⟨rfl, rfl⟩⟩ }

/-! ### One token -/

/-- A reader that takes one token, whatever follows it. -/
theorem promptFor_one {p : Reader α} (hkind : Writable kind)
    (hreads : ∀ {ts a rest}, p.Reads ts a rest → ∃ t, ts = t :: rest ∧
      ∀ rest', p.Reads (t :: rest') a rest')
    (hfails : ∀ {ts fault}, p ts = .error fault → fault.Told [] ts ∧
      ∀ ts', ts'.head? = ts.head? → p ts' = .error fault)
    (hfills : ∀ pos rest, ∃ a, p.Reads (⟨kind, pos⟩ :: rest) a rest) :
    PromptFor p anything [kind] := by
  have hone : p.Fills anything [] [kind] := by
    refine ⟨by simpa using hkind, trivial, fun us rest hus _ => ?_⟩
    obtain ⟨t, rfl, rfl⟩ : ∃ t : Token, us = [t] ∧ t.kind = kind := by
      simpa [List.map_eq_cons_iff] using hus
    exact hfills t.pos rest
  refine ⟨⟨fun h => ?_, fun h => ?_⟩, hone⟩
  · obtain ⟨t, rfl, hsame⟩ := hreads h
    exact ⟨[t], rfl, fun rest' _ => hsame rest'⟩
  · obtain ⟨htold, hsame⟩ := hfails h
    exact ⟨[], _, rfl, htold, hsame, fun _ => ⟨[kind], hone⟩⟩

theorem promptFor_expect (hkind : Writable kind) : PromptFor (expect kind) anything [kind] := by
  refine promptFor_one hkind (fun h => ?_) (fun h => ?_) fun pos rest => ?_
  · obtain rfl := reads_expect.1 h
    exact ⟨_, rfl, fun rest' => reads_expect.2 rfl⟩
  · rename_i ts fault
    cases ts with
    | nil =>
      cases h
      refine ⟨.missing _, fun ts' hts' => ?_⟩
      rw [List.head?_eq_none_iff.1 hts']
      rfl
    | cons t ts =>
      rw [expect] at h
      split at h
      · cases h
      · rename_i hne
        cases h
        refine ⟨.missing _, fun ts' hts' => ?_⟩
        obtain ⟨more, rfl⟩ := List.head?_eq_some_iff.1 hts'
        rw [expect, if_neg hne]
        rfl
  · exact ⟨pos, reads_expect.2 rfl⟩

theorem writable_symbol (s : Symbol) : Writable (.symbol s) := ⟨_, .symbol s⟩

theorem writable_keyword (k : Keyword) : Writable (.keyword k) := ⟨_, .keyword k⟩

theorem promptFor_symbol (s : Symbol) : PromptFor (symbol s) anything [.symbol s] :=
  (promptFor_expect (writable_symbol s)).andThen fun _ => promptFor_pure trivial ()

theorem promptFor_keyword (k : Keyword) : PromptFor (keyword k) anything [.keyword k] :=
  (promptFor_expect (writable_keyword k)).andThen fun _ => promptFor_pure trivial ()

theorem promptFor_take {expected : String} {pick : Token → Option α} (hkind : Writable kind)
    (hpick : ∀ pos, (pick ⟨kind, pos⟩).isSome) :
    PromptFor (take expected pick) anything [kind] := by
  refine promptFor_one hkind (fun h => ?_) (fun h => ?_) fun pos rest => ?_
  · obtain ⟨t, rfl, ht⟩ := reads_take.1 h
    exact ⟨t, rfl, fun rest' => reads_take.2 ⟨t, rfl, ht⟩⟩
  · rename_i ts fault
    cases ts with
    | nil =>
      cases h
      refine ⟨.unexpected _, fun ts' hts' => ?_⟩
      rw [List.head?_eq_none_iff.1 hts']
      rfl
    | cons t ts =>
      rw [take] at h
      split at h
      · cases h
      · rename_i hnone
        cases h
        refine ⟨.unexpected _, fun ts' hts' => ?_⟩
        obtain ⟨more, rfl⟩ := List.head?_eq_some_iff.1 hts'
        simp only [take, hnone]
        rfl
  · obtain ⟨a, ha⟩ := Option.isSome_iff_exists.1 (hpick pos)
    exact ⟨a, reads_take.2 ⟨_, rfl, ha⟩⟩

theorem writable_name : Writable (.name "x") := by
  have hword : wordKind (String.ofList ['x']) = .name "x" := by decide
  exact ⟨['x'], hword ▸ spelling_word (by decide) (List.forall_mem_nil _)⟩

theorem promptFor_name (expected : String) : PromptFor (name expected) anything [.name "x"] :=
  promptFor_take writable_name fun _ => rfl

/-! ### Choices and repetitions -/

theorem reads_congr {p q : Reader α} {ts rest : List Token} {a : α} (heq : p ts = q ts)
    (h : q.Reads ts a rest) : p.Reads ts a rest := by
  obtain ⟨hle, h⟩ := h
  exact ⟨hle, heq.trans h⟩

/-- The token at the front decides how to read, or that there is nothing to read. -/
theorem PromptFor.choose {r : Reader α} {follow : Option TokenKind → Prop} {kinds : List TokenKind}
    (hr : ∀ next : Option Token,
      (∃ p : Reader α, Prompt p follow ∧ (∀ ts, ts.head? = next → r ts = p ts) ∧
        ∀ ts a rest, p.Reads ts a rest → follow (front rest) → r.Reads ts a rest) ∨
      ∃ fault : ParseFault, ∀ ts, ts.head? = next → r ts = .error fault ∧ fault.Told [] ts)
    (hfills : r.Fills follow [] kinds) : PromptFor r follow kinds where
  reads := by
    intro ts a rest h
    rcases hr ts.head? with ⟨p, hp, heq, hreads⟩ | ⟨fault, hfault⟩
    · obtain ⟨used, rfl, hsame⟩ := hp.reads (reads_congr (heq ts rfl).symm h)
      refine ⟨used, rfl, fun rest' hrest' => ?_⟩
      have hp' := hsame rest' hrest'
      rcases hrest' with hrest' | hrest'
      · exact reads_congr (heq _ (head?_append_eq used hrest')) hp'
      · exact hreads _ a rest' hp' hrest'
    · obtain ⟨hle, h⟩ := h
      cases h.symm.trans (hfault ts rfl).1
  fails := by
    intro ts fault h
    rcases hr ts.head? with ⟨p, hp, heq, hreads⟩ | ⟨fault', hfault'⟩
    · obtain ⟨used, rest, rfl, htold, hsame, hmore⟩ := hp.fails ((heq ts rfl).symm.trans h)
      refine ⟨used, rest, rfl, htold, fun rest' hrest' => ?_, fun hlimit => ?_⟩
      · exact (heq _ (head?_append_eq used hrest')).trans (hsame rest' hrest')
      · obtain ⟨more, hmore⟩ := hmore hlimit
        refine ⟨more, hmore.writable, hmore.ends, fun us rest' hus hrest' => ?_⟩
        obtain ⟨a, ha⟩ := hmore.reads us rest' hus hrest'
        exact ⟨a, hreads _ a rest' ha hrest'⟩
    · obtain ⟨hfault, htold⟩ := hfault' ts rfl
      obtain rfl : fault' = fault := Except.error.inj (hfault.symm.trans h)
      exact ⟨[], ts, rfl, htold, fun rest' hrest' => (hfault' rest' hrest').1,
        fun _ => ⟨kinds, hfills⟩⟩
  fills := hfills

/-- A token that may be there decides how reading goes on. -/
theorem PromptFor.orElse {yes no : Reader α} {follow : Option TokenKind → Prop}
    {kinds kinds' : List TokenKind} (hkind : Writable kind) (hyes : PromptFor yes follow kinds')
    (hno : PromptFor no follow kinds) (hbegins : no.Begins follow (· ≠ some kind)) :
    PromptFor (accept kind >>= fun found => if found then yes else no) follow kinds := by
  have hskip : ∀ ts a rest, no.Reads ts a rest → follow (front rest) →
      (accept kind >>= fun found => if found then yes else no).Reads ts a rest := by
    intro ts a rest h hrest
    refine reads_bind.2 ⟨false, ts, reads_accept.2 ⟨rfl, fun t ht hkind => ?_⟩, h⟩
    exact hbegins ts a rest h hrest (by rw [front, ht, Option.map_some, hkind])
  refine .choose (fun next => .inl ?_)
    ⟨hno.fills.writable, hno.fills.ends, fun us rest hus hrest => ?_⟩
  · by_cases hnext : next.map (·.kind) = some kind
    · obtain ⟨t, rfl, rfl⟩ := Option.map_eq_some_iff.1 hnext
      refine ⟨_, ((promptFor_expect hkind).andThen fun _ => hyes).toPrompt, fun ts hts => ?_,
        fun ts a rest h _ => ?_⟩
      · obtain ⟨more, rfl⟩ := List.head?_eq_some_iff.1 hts
        simp only [Bind.bind, Reader.bind, accept, expect, if_true]
      · obtain ⟨pos, mid, hpos, hmid⟩ := reads_bind.1 h
        obtain rfl := reads_expect.1 hpos
        exact reads_bind.2 ⟨true, mid, reads_accept.2 ⟨pos, rfl⟩, hmid⟩
    · refine ⟨no, hno.toPrompt, fun ts hts => ?_, hskip⟩
      obtain rfl := hts
      have haccept : accept kind ts = .ok ⟨(false, ts), Nat.le_refl _⟩ := by
        cases ts with
        | nil => rfl
        | cons t ts => rw [accept, if_neg fun heq => hnext (congrArg some heq)]
      simp only [Bind.bind, Reader.bind, haccept, Bool.false_eq_true, if_false]
      cases no ts <;> rfl
  · obtain ⟨a, ha⟩ := hno.fills.reads us rest hus hrest
    exact ⟨a, hskip _ a rest ha hrest⟩

/-! ### Repetitions -/

/-- An item is rejected at its first token, in whose place another item may stand. -/
def Rejected (stop : TokenKind → Bool) (item : Token → Reader α) (follow : Option TokenKind → Prop)
    (t : Token) : Prop :=
  ∃ fault : ParseFault, (∀ ts, item t ts = .error fault ∧ fault.Told [] (t :: ts)) ∧
    (fault.cause ≠ .nestingTooDeep → ∃ kind kinds, stop kind = false ∧ Writable kind ∧
      ∀ pos, (item ⟨kind, pos⟩).Fills follow [] kinds)

/-- What may follow a repetition: what ends it, after an item too. -/
def afterMany (stop : TokenKind → Bool) (follow : Option TokenKind → Prop)
    (next : Option TokenKind) : Prop :=
  (∀ kind ∈ next, stop kind = true) ∧ follow next

section Many

variable {rest ts : List Token} {t : Token} {fault : ParseFault}

variable {stop : TokenKind → Bool} {item : Token → Reader α} {follow : Option TokenKind → Prop}

theorem ends_of_front (h : ∀ kind ∈ front rest, stop kind = true) : Ends stop rest := by
  intro t ht
  exact h t.kind (by rw [front, ht]; rfl)

theorem reads_many_cons {mid : List Token} {a : α} {as : List α} (hstop : stop t.kind = false)
    (ha : (item t).Reads ts a mid) (has : Reads (many stop item) mid as rest) :
    Reads (many stop item) (t :: ts) (a :: as) rest :=
  reads_many_iff.2 (.inr ⟨t, ts, a, as, mid, rfl, rfl, hstop, ha, has⟩)

theorem many_cons_eq_error (hstop : stop t.kind = false) (h : item t ts = .error fault ∨
      ∃ a mid, (item t).Reads ts a mid ∧ many stop item mid = .error fault) :
    many stop item (t :: ts) = .error fault := by
  rcases h with h | ⟨a, mid, ⟨hle, ha⟩, h⟩
  · rw [many]
    simp [hstop, h]
  · rw [many]
    simp [hstop, ha, h]

theorem begins_many (hbegins : ∀ t ts a rest, stop t.kind = false → (item t).Reads ts a rest →
      follow (some t.kind)) :
    Begins (α := List α) (many stop item) (afterMany stop follow) follow := by
  intro ts as rest h hrest
  rcases reads_many_iff.1 h with ⟨-, rfl, -⟩ | ⟨t, ts', a, as', mid, -, rfl, hstop, ha, -⟩
  · exact hrest.2
  · exact hbegins t ts' a mid hstop ha

theorem reads_many_nil (h : ∀ kind ∈ front rest, stop kind = true) :
    Reads (many stop item) rest [] rest :=
  reads_many_iff.2 (.inl ⟨rfl, rfl, ends_of_front h⟩)

theorem stuck_many_of_item (hstop : stop t.kind = false) (h : (item t).Stuck follow ts fault)
    (hends : follow none) :
    Stuck (α := List α) (many stop item) (afterMany stop follow) (t :: ts) fault := by
  obtain ⟨used, rest, rfl, htold, hsame, hmore⟩ := h
  refine ⟨t :: used, rest, rfl, htold.append [t], fun rest' hrest' => ?_, fun hlimit => ?_⟩
  · exact many_cons_eq_error hstop (.inl (hsame rest' hrest'))
  · obtain ⟨more, hmore⟩ := hmore hlimit
    refine ⟨more, hmore.writable, ⟨by simp, hends⟩, fun us rest' hus hrest' => ?_⟩
    obtain ⟨a, ha⟩ := hmore.reads us rest' hus hrest'.2
    exact ⟨[a], reads_many_cons hstop ha (reads_many_nil hrest'.1)⟩

theorem stuck_many_of_rejected (hstop : stop t.kind = false)
    (hrejected : Rejected stop item follow t) (h : item t ts = .error fault) (hends : follow none) :
    Stuck (α := List α) (many stop item) (afterMany stop follow) (t :: ts) fault := by
  obtain ⟨fault', hfault', hfills⟩ := hrejected
  obtain ⟨heq, htold⟩ := hfault' ts
  obtain rfl : fault' = fault := Except.error.inj (heq.symm.trans h)
  refine ⟨[], t :: ts, rfl, htold, fun rest' hrest' => ?_, fun hlimit => ?_⟩
  · obtain ⟨more, rfl⟩ := List.head?_eq_some_iff.1 hrest'
    exact many_cons_eq_error hstop (.inl (hfault' more).1)
  · obtain ⟨kind, kinds, hkind, hwritable, hmore⟩ := hfills hlimit
    refine ⟨kind :: kinds, ?_, ⟨by simp, hends⟩, fun us rest' hus hrest' => ?_⟩
    · exact List.forall_mem_cons.2 ⟨hwritable, (hmore .first).writable⟩
    · obtain ⟨⟨_, pos⟩, us, rfl, rfl, hus'⟩ := List.map_eq_cons_iff.1 hus
      obtain ⟨a, ha⟩ := (hmore pos).reads us rest' hus' hrest'.2
      exact ⟨[a], reads_many_cons hkind ha (reads_many_nil hrest'.1)⟩

theorem promptFor_many
    (hitem : ∀ t, stop t.kind = false → Prompt (item t) follow ∨ Rejected stop item follow t)
    (hbegins : ∀ t ts a rest, stop t.kind = false → (item t).Reads ts a rest → follow (some t.kind))
    (hends : follow none) :
    PromptFor (α := List α) (many stop item) (afterMany stop follow) [] where
  reads := by
    intro ts as rest h
    induction as generalizing ts with
    | nil =>
      rcases reads_many_iff.1 h with ⟨-, rfl, hstop⟩ | ⟨_, _, _, _, _, hnil, -⟩
      · refine ⟨[], rfl, fun rest' hrest' => reads_many_iff.2 (.inl ⟨rfl, rfl, ?_⟩)⟩
        rcases hrest' with hrest' | hrest'
        · intro t ht
          exact hstop t (hrest' ▸ ht)
        · exact ends_of_front hrest'.1
      · cases hnil
    | cons a as ih =>
      rcases reads_many_iff.1 h with ⟨hnil, -⟩ | ⟨t, ts', a', as', mid, hcons, rfl, hstop, ha, has⟩
      · cases hnil
      obtain ⟨rfl, rfl⟩ := List.cons.inj hcons
      obtain ⟨used', rfl, hsame'⟩ := ih has
      rcases hitem t hstop with hprompt | ⟨fault, hfault, -⟩
      · obtain ⟨used, rfl, hsame⟩ := hprompt.reads ha
        refine ⟨t :: (used ++ used'), by simp, fun rest' hrest' => ?_⟩
        have has' := hsame' rest' hrest'
        rw [List.cons_append, List.append_assoc]
        refine reads_many_cons hstop (hsame _ ?_) has'
        exact hrest'.imp (head?_append_eq used') (begins_many hbegins _ _ rest' has')
      · obtain ⟨hle, ha⟩ := ha
        cases ha.symm.trans (hfault ts').1
  fails := by
    intro ts fault h
    fun_induction many stop item ts with
    | case1 => cases h
    | case2 => cases h
    | case3 t ts hstop fault' hfault =>
      cases h
      have hstop : stop t.kind = false := by simpa using hstop
      rcases hitem t hstop with hprompt | hrejected
      · exact stuck_many_of_item hstop (hprompt.fails hfault) hends
      · exact stuck_many_of_rejected hstop hrejected hfault hends
    | case4 t ts hstop a mid hmid ha fault' hfault ih =>
      cases h
      have hstop : stop t.kind = false := by simpa using hstop
      obtain ⟨used', rest, rfl, htold, hsame', hmore⟩ := ih hfault
      rcases hitem t hstop with hprompt | ⟨fault', hfault', -⟩
      · obtain ⟨used, rfl, hsame⟩ := hprompt.reads ⟨hmid, ha⟩
        refine ⟨t :: (used ++ used'), rest, by simp, ?_, fun rest' hrest' => ?_, fun hlimit => ?_⟩
        · exact htold.append (t :: used)
        · rw [List.cons_append, List.append_assoc]
          refine many_cons_eq_error hstop (.inr ⟨a, _, hsame _ ?_, hsame' rest' hrest'⟩)
          exact .inl (head?_append_eq used' hrest')
        · obtain ⟨more, hmore⟩ := hmore hlimit
          refine ⟨more, hmore.writable, hmore.ends, fun us rest' hus hrest' => ?_⟩
          obtain ⟨as, has⟩ := hmore.reads us rest' hus hrest'
          rw [List.cons_append, List.append_assoc]
          refine ⟨a :: as, reads_many_cons hstop (hsame _ (.inr ?_)) has⟩
          exact begins_many hbegins _ as rest' has hrest'
      · cases ha.symm.trans (hfault' ts).1
    | case5 => cases h
  fills := {
    writable := List.forall_mem_nil _
    ends := ⟨by simp, hends⟩
    reads := fun us rest hus hrest => by
      obtain rfl := List.map_eq_nil_iff.1 hus
      exact ⟨[], reads_many_nil hrest.1⟩ }

end Many

/-! ### Lists in parentheses -/

theorem Begins.bind {p : Reader α} {f : α → Reader β} {follow mid starts : Option TokenKind → Prop}
    (hp : p.Begins mid starts) (hf : ∀ a, (f a).Begins follow mid) :
    (p >>= f).Begins follow starts := by
  intro ts b rest h hrest
  obtain ⟨a, ts', ha, hb⟩ := reads_bind.1 h
  exact hp ts a ts' ha (hf a ts' b rest hb hrest)

theorem begins_symbol {s : Symbol} {f : Unit → Reader α} {follow starts : Option TokenKind → Prop}
    (h : starts (some (.symbol s))) : (symbol s >>= f).Begins follow starts := by
  intro ts a rest hreads _
  obtain ⟨_, mid, hsymbol, -⟩ := reads_bind.1 hreads
  obtain ⟨pos, rfl⟩ := reads_symbol.1 hsymbol
  exact h

theorem begins_keyword {k : Keyword} {f : Unit → Reader α} {follow starts : Option TokenKind → Prop}
    (h : starts (some (.keyword k))) : (keyword k >>= f).Begins follow starts := by
  intro ts a rest hreads _
  obtain ⟨_, mid, hkeyword, -⟩ := reads_bind.1 hreads
  obtain ⟨pos, rfl⟩ := reads_keyword.1 hkeyword
  exact h

section Lists

variable {item : Reader α} {follow : Option TokenKind → Prop} {kinds : List TokenKind}

theorem promptFor_commaTail (hitem : PromptFor item follow kinds)
    (hcomma : follow (some (.symbol .comma))) :
    PromptFor (α := List α) (commaTail item) (afterMany endsList follow) [] ∧
      Begins (α := List α) (commaTail item) (afterMany endsList follow) follow := by
  have hbegins : ∀ (t : Token) ts a rest, endsList t.kind = false → item.Reads ts a rest →
      follow (some t.kind) := by
    intro t ts a rest ht _
    rw [endsList_eq_false_iff.1 ht]
    exact hcomma
  exact ⟨promptFor_many (fun _ _ => .inl hitem.toPrompt) hbegins hitem.fills.ends,
    begins_many hbegins⟩

theorem promptFor_parenthesized (hitem : PromptFor item follow kinds)
    (hcomma : follow (some (.symbol .comma))) (hrparen : follow (some (.symbol .rparen)))
    (hbegins : item.Begins follow (· ≠ some (.symbol .rparen))) :
    PromptFor (parenthesized item) anything (.symbol .lparen :: kinds ++ [.symbol .rparen]) := by
  obtain ⟨htail, hbeginsTail⟩ := promptFor_commaTail hitem hcomma
  have hclose : ∀ (first : α) (others : List α),
      (symbol .rparen >>= fun _ => (Pure.pure (first :: others) : Reader (List α))).Begins anything
        (afterMany endsList follow) :=
    fun _ _ => begins_symbol ⟨by simp [endsList], hrparen⟩
  have hrest : ∀ first : α, (commaTail item >>= fun others => symbol .rparen >>= fun _ =>
      (Pure.pure (first :: others) : Reader (List α))).Begins anything follow :=
    fun first => hbeginsTail.bind (hclose first)
  refine (promptFor_symbol .lparen).andThen fun _ =>
    .orElse (writable_symbol .rparen) (promptFor_pure trivial []) ?_ (hbegins.bind hrest)
  exact hitem.bind (fun first => htail.bind (fun others =>
    (promptFor_symbol .rparen).andThen fun _ => promptFor_pure trivial _) (hclose first)) hrest

end Lists

end Reader

end Chipwright
