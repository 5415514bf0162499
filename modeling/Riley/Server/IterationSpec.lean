import Riley.Constraint.Decision
import Riley.Library.Pairing
import Riley.Sampling.GreedySpec
import Riley.Server.Iteration

/-!
The device's choice against the host's. Two backends that differ in their automata, and
in the places where the cursors of their requests are kept there, sample a plan alike:
each output slot gets the same token on both, whether the choice of the device stands
or a row of logits is read for it.
-/

namespace Riley.Server

open Constraint (Grammar GrammarAutomaton GrammarCursor Stack TokenIndex Sharing)
open Generation (GenerationState GenerationError GenerationM acceptToken preStep)
open Outcome Sampling

variable {K ρ τ ℓ : Type}

section Cursors

/-- The cursor of a request in one automaton. -/
def cursorIn (automaton : Nat) (request : CudaRequest K ρ τ) : Option GrammarCursor :=
  request.structured.bind fun structured =>
    if structured.automaton = automaton then some structured.cursor else none

/-- The cursors of one automaton, in the order of their requests. -/
def cursorsOf (automaton : Nat) (requests : List (CudaRequest K ρ τ)) : List GrammarCursor :=
  requests.filterMap (cursorIn automaton)

theorem filterMap_set_same {α β : Type} {f : α → Option β} {items : List α} {index : Nat}
    {item item' : α} (hitem : items[index]? = some item) (hsame : f item' = f item) :
    (items.set index item').filterMap f = items.filterMap f := by
  induction items generalizing index with
  | nil => rfl
  | cons first rest ih =>
      cases index with
      | zero =>
          obtain rfl := Option.some.inj hitem
          rw [List.set_cons_zero, List.filterMap_cons, List.filterMap_cons, hsame]
      | succ index =>
          rw [List.set_cons_succ, List.filterMap_cons, List.filterMap_cons, ih hitem]

theorem filterMap_set_some {α β : Type} {f : α → Option β} {items : List α} {index : Nat}
    {item item' : α} {value value' : β} (hitem : items[index]? = some item)
    (hvalue : f item = some value) (hvalue' : f item' = some value') :
    ∃ place, (items.filterMap f)[place]? = some value ∧
      (items.set index item').filterMap f = (items.filterMap f).set place value' := by
  induction items generalizing index with
  | nil => cases hitem
  | cons first rest ih =>
      cases index with
      | zero =>
          obtain rfl := Option.some.inj hitem
          rw [List.set_cons_zero, List.filterMap_cons_some hvalue,
            List.filterMap_cons_some hvalue']
          exact ⟨0, rfl, rfl⟩
      | succ index =>
          obtain ⟨place, hplace, hset⟩ := ih hitem
          rw [List.set_cons_succ, List.filterMap_cons, List.filterMap_cons, hset]
          cases f first with
          | none => exact ⟨place, hplace, rfl⟩
          | some other => exact ⟨place + 1, hplace, rfl⟩

end Cursors

section Shared

variable (tokens : List (List UInt8)) (capacity reach : Nat)

/-- Every automaton is right for the cursors of its requests. -/
def Shared (backend : CudaBackend K ρ τ ℓ) : Prop :=
  ∀ automaton (g : Grammar) (a : GrammarAutomaton g), backend.automata[automaton]? = some ⟨g, a⟩ →
    ∃ entries, Sharing.Ok tokens capacity reach ⟨a, entries⟩ ∧
      entries.map Prod.fst = cursorsOf automaton backend.requests

/-- A call that answers for the stacks of a cursor alone, whatever the table holds. -/
def Means {α : Type}
    (call : (g : Grammar) → GrammarAutomaton g → GrammarCursor →
      Option (α × GrammarCursor × GrammarAutomaton g))
    (meaning : (g : Grammar) → List Stack → α × List Stack) : Prop :=
  ∀ (g : Grammar) (a : GrammarAutomaton g) entries slot (cursor : GrammarCursor) word,
    Sharing.Ok tokens capacity reach ⟨a, entries⟩ → entries[slot]? = some (cursor, word) →
    ∃ cursor' a' word', call g a cursor = some ((meaning g cursor.stackSet).1, cursor', a') ∧
      cursor'.stackSet = (meaning g cursor.stackSet).2 ∧
      Sharing.Ok tokens capacity reach ⟨a', entries.set slot (cursor', word')⟩

variable {tokens capacity reach} {backend : CudaBackend K ρ τ ℓ} {index : Nat}
  {request : CudaRequest K ρ τ} {structured : StructuredRequest}

/-- A request that keeps its cursor keeps the automata right. -/
theorem Shared.setRequest (h : Shared tokens capacity reach backend)
    (hrequest : backend.requests[index]? = some request) {request' : CudaRequest K ρ τ}
    (hsame : request'.structured = request.structured) :
    Shared tokens capacity reach (backend.setRequest index request') := by
  intro automaton g a ha
  obtain ⟨entries, hok, hentries⟩ := h automaton g a ha
  refine ⟨entries, hok, hentries.trans ?_⟩
  have hcursor : cursorIn automaton request' = cursorIn automaton request := by
    unfold cursorIn
    rw [hsame]
  exact (filterMap_set_same hrequest hcursor).symm

theorem Shared.moveCursor (h : Shared tokens capacity reach backend)
    (hrequest : backend.requests[index]? = some request)
    (hstructured : request.structured = some structured) {g : Grammar} {a a' : GrammarAutomaton g}
    (ha : backend.automata[structured.automaton]? = some ⟨g, a⟩) {cursor : GrammarCursor}
    (hcall : ∀ entries slot word, Sharing.Ok tokens capacity reach ⟨a, entries⟩ →
      entries[slot]? = some (structured.cursor, word) → ∃ word',
        Sharing.Ok tokens capacity reach ⟨a', entries.set slot (cursor, word')⟩) :
    Shared tokens capacity reach
      (backend.moveCursor index request structured cursor ⟨g, a'⟩) := by
  intro automaton g' b hb
  have hmoved : cursorIn structured.automaton
      { request with structured := some { structured with cursor := cursor } } = some cursor :=
    if_pos rfl
  have hbefore : cursorIn structured.automaton request = some structured.cursor := by
    unfold cursorIn
    rw [hstructured]
    exact if_pos rfl
  by_cases hsame : automaton = structured.automaton
  · subst hsame
    have hlt := (List.getElem?_eq_some_iff.mp ha).choose
    have hset : (backend.automata.set structured.automaton ⟨g, a'⟩)[structured.automaton]? =
        some ⟨g, a'⟩ := List.getElem?_set_self hlt
    obtain ⟨rfl, hb⟩ := Sigma.mk.inj (Option.some.inj (hset.symm.trans hb))
    obtain rfl := eq_of_heq hb
    obtain ⟨entries, hok, hentries⟩ := h _ g a ha
    obtain ⟨place, hplace, hcursors⟩ := filterMap_set_some hrequest hbefore hmoved
    have hmapped : (entries.map Prod.fst)[place]? = some structured.cursor := by
      rw [hentries]
      exact hplace
    rw [List.getElem?_map] at hmapped
    obtain ⟨⟨_, word⟩, hentry, rfl⟩ := Option.map_eq_some_iff.mp hmapped
    obtain ⟨word', hok'⟩ := hcall entries place word hok hentry
    refine ⟨_, hok', ?_⟩
    rw [List.map_set, hentries]
    exact hcursors.symm
  · have hother : (backend.automata.set structured.automaton ⟨g, a'⟩)[automaton]? =
        backend.automata[automaton]? := List.getElem?_set_ne (Ne.symm hsame)
    obtain ⟨entries, hok, hentries⟩ := h automaton g' b (hother.symm.trans hb)
    refine ⟨entries, hok, hentries.trans ?_⟩
    have hcursor : cursorIn automaton
        { request with structured := some { structured with cursor := cursor } } =
        cursorIn automaton request := by
      unfold cursorIn
      rw [hstructured]
      simp only [Option.bind_some, if_neg (Ne.symm hsame)]
    exact (filterMap_set_same hrequest hcursor).symm

theorem onAutomaton_none {α : Type}
    {call : (g : Grammar) → GrammarAutomaton g → GrammarCursor →
      Option (α × GrammarCursor × GrammarAutomaton g)}
    (ha : backend.automata[structured.automaton]? = none) :
    onAutomaton index request structured call backend = .error .panicked backend := by
  unfold onAutomaton
  rw [seq_get, ha]
  rfl

/-- What a call on the automaton of a request gives, and what it moves. -/
theorem onAutomaton_ok {α : Type}
    {call : (g : Grammar) → GrammarAutomaton g → GrammarCursor →
      Option (α × GrammarCursor × GrammarAutomaton g)}
    {meaning : (g : Grammar) → List Stack → α × List Stack}
    (hcall : Means tokens capacity reach call meaning) (h : Shared tokens capacity reach backend)
    (hrequest : backend.requests[index]? = some request)
    (hstructured : request.structured = some structured) {g : Grammar} {a : GrammarAutomaton g}
    (ha : backend.automata[structured.automaton]? = some ⟨g, a⟩) :
    ∃ cursor a', onAutomaton index request structured call backend =
        .ok (meaning g structured.cursor.stackSet).1
          (backend.moveCursor index request structured cursor ⟨g, a'⟩) ∧
      cursor.stackSet = (meaning g structured.cursor.stackSet).2 ∧
      Shared tokens capacity reach
        (backend.moveCursor index request structured cursor ⟨g, a'⟩) := by
  obtain ⟨entries, hok, hentries⟩ := h _ g a ha
  have hbefore : cursorIn structured.automaton request = some structured.cursor := by
    unfold cursorIn
    rw [hstructured]
    exact if_pos rfl
  obtain ⟨place, hplace, _⟩ := filterMap_set_some hrequest hbefore hbefore
  have hmapped : (entries.map Prod.fst)[place]? = some structured.cursor := by
    rw [hentries]
    exact hplace
  rw [List.getElem?_map] at hmapped
  obtain ⟨⟨_, word⟩, hentry, rfl⟩ := Option.map_eq_some_iff.mp hmapped
  obtain ⟨cursor, a', _, hrun, hstacks, _⟩ := hcall g a entries place _ word hok hentry
  refine ⟨cursor, a', ?_, hstacks, ?_⟩
  · unfold onAutomaton
    rw [seq_get, ha]
    simp only [hrun]
    rfl
  · apply h.moveCursor hrequest hstructured ha
    intro entries slot word hok hentry
    obtain ⟨_, _, word', hrun', _, hok'⟩ := hcall g a entries slot _ word hok hentry
    rw [hrun] at hrun'
    cases hrun'
    exact ⟨word', hok'⟩

end Shared

section Meanings

open Constraint.GrammarAutomaton (Continues)

variable (tokens : List (List UInt8))

open Classical in
/-- What `allows` answers for some stacks. -/
noncomputable def allowsMeaning (tokenId : Nat) (g : Grammar) (stackSet : List Stack) :
    Bool × List Stack :=
  (decide (Continues g tokens stackSet tokenId), stackSet)

theorem allowsMeaning_iff (tokenId : Nat) (g : Grammar) (stackSet : List Stack) :
    (allowsMeaning tokens tokenId g stackSet).1 = true ↔ Continues g tokens stackSet tokenId := by
  classical
  exact decide_eq_true_iff

/-- The tokens that a grammar leaves of those that were allowed. -/
def Offers (eos : List Nat) (allowed : List Bool) (g : Grammar) (stackSet : List Stack)
    (id : Nat) : Prop :=
  id ∈ eos ∧ (Grammar.accepting stackSet = true ∨
      ∀ other, allowed.getD other false = true → ¬ Continues g tokens stackSet other) ∨
    allowed.getD id false = true ∧ (id < tokens.length → Continues g tokens stackSet id)

open Classical in
/-- What `constrain` makes of a mask for some stacks. -/
noncomputable def constrainMeaning (eos : List Nat) (allowed : List Bool) (g : Grammar)
    (stackSet : List Stack) : List Bool × List Stack :=
  ((List.range allowed.length).map fun id => decide (Offers tokens eos allowed g stackSet id),
    stackSet)

theorem getD_constrainMeaning (eos : List Nat) (allowed : List Bool) (g : Grammar)
    (stackSet : List Stack) (id : Nat) :
    (constrainMeaning tokens eos allowed g stackSet).1.getD id false = true ↔
      id < allowed.length ∧ Offers tokens eos allowed g stackSet id := by
  classical
  unfold constrainMeaning
  by_cases hlt : id < allowed.length
  · rw [List.getD_eq_getElem _ _ (by rw [List.length_map, List.length_range]; exact hlt),
      List.getElem_map, List.getElem_range, decide_eq_true_iff]
    exact ⟨fun h => ⟨hlt, h⟩, fun h => h.2⟩
  · rw [List.getD_eq_default _ _ (by rw [List.length_map, List.length_range]; omega)]
    exact ⟨fun h => absurd h Bool.false_ne_true, fun h => absurd h.1 hlt⟩

/-- Where `advance` leads some stacks. -/
def advanceMeaning (bytes : List UInt8) (g : Grammar) (stackSet : List Stack) :
    Bool × List Stack :=
  match g.follow stackSet bytes with
  | some last => (true, last)
  | none => (false, stackSet)

variable {tokens} {capacity reach : Nat} (hlimits : Sharing.Limits tokens capacity reach)
include hlimits

theorem means_allows (tokenId : Nat) :
    Means tokens capacity reach
      (fun _ automaton cursor => automaton.allows cursor (TokenIndex.new tokens) tokenId)
      (allowsMeaning tokens tokenId) := by
  intro g a entries slot cursor word hok hentry
  obtain ⟨admitted, cursor', a', hrun, hadmitted, hok'⟩ := hok.allows hlimits hentry tokenId
  have hstacks := (hok'.slot_follows (Sharing.getElem?_set_slot hentry)).symm.trans
    (hok.slot_follows hentry)
  have hvalue : admitted = (allowsMeaning tokens tokenId g cursor.stackSet).1 := by
    rw [Bool.eq_iff_iff, hadmitted]
    simp only [allowsMeaning, decide_eq_true_iff]
  rw [hvalue] at hrun
  exact ⟨cursor', a', word, hrun, Option.some.inj hstacks, hok'⟩

theorem means_constrain (eos : List Nat) {allowed : List Bool}
    (hallowed : tokens.length ≤ allowed.length) :
    Means tokens capacity reach
      (fun _ automaton cursor => automaton.constrain cursor (TokenIndex.new tokens) eos allowed)
      (constrainMeaning tokens eos allowed) := by
  intro g a entries slot cursor word hok hentry
  obtain ⟨offered, cursor', a', hrun, hlength, hoffered, hstacks, hok'⟩ :=
    hok.constrained hlimits hentry eos hallowed
  have hvalue : offered = (constrainMeaning tokens eos allowed g cursor.stackSet).1 := by
    apply List.ext_getElem
    · rw [hlength, constrainMeaning, List.length_map, List.length_range]
    · intro id hid _
      have hbit := hoffered id (hlength ▸ hid)
      rw [List.getD_eq_getElem _ _ hid] at hbit
      rw [Bool.eq_iff_iff, hbit]
      simp only [constrainMeaning, List.getElem_map, List.getElem_range, decide_eq_true_iff]
      exact Iff.rfl
  rw [hvalue] at hrun
  exact ⟨cursor', a', word, hrun, hstacks, hok'⟩

theorem means_advance {bytes : List UInt8} (hbytes : bytes.length ≤ reach) :
    Means tokens capacity reach (fun _ automaton cursor => automaton.advance cursor bytes)
      (advanceMeaning bytes) := by
  intro g a entries slot cursor word hok hentry
  obtain ⟨advanced, cursor', a', hrun, hcase, hok'⟩ := hok.advance hlimits hentry hbytes
  refine ⟨cursor', a', _, ?_, ?_, hok'⟩
  · rcases hcase with ⟨rfl, hnone, _⟩ | ⟨rfl, hsome⟩
    · rw [advanceMeaning, hnone]
      exact hrun
    · rw [advanceMeaning, hsome]
      exact hrun
  · rcases hcase with ⟨rfl, hnone, hstacks⟩ | ⟨rfl, hsome⟩
    · rw [advanceMeaning, hnone]
      exact hstacks
    · rw [advanceMeaning, hsome]

end Meanings

section Agreement

/-- One automaton and the same stacks, wherever the table keeps them. -/
def SameCursor (left right : StructuredRequest) : Prop :=
  left.automaton = right.automaton ∧ left.cursor.stackSet = right.cursor.stackSet

/-- Requests alike but for the place of their cursor in its automaton. -/
structure SameRequest (left right : CudaRequest K ρ τ) : Prop where
  structured : Option.Rel SameCursor left.structured right.structured
  rest : left = { right with structured := left.structured }

/-- Backends alike but for their automata. -/
structure SameBackend (left right : CudaBackend K ρ τ ℓ) : Prop where
  grammars : left.automata.map Sigma.fst = right.automata.map Sigma.fst
  sampling : left.sampling = right.sampling
  samples : left.samples = right.samples
  pendingTokens : left.pendingTokens = right.pendingTokens
  requests : List.Forall₂ SameRequest left.requests right.requests

/-- A generation state that may be given any token. -/
structure Open (vocabularySize : Nat) (state : GenerationState) : Prop where
  gate : state.finishTokensMasked = []
  vocabulary : state.vocabularySize = vocabularySize
  history : ∀ id ∈ state.historyTokenIds, id < vocabularySize

/-- A request of a plan that takes the device's choice. -/
structure Ready [Field K] [LinearOrder K] (decodeGraph : Bool) (vocabularySize : Nat)
    (request : CudaRequest K ρ τ) : Prop where
  greedy : IsGreedy request.samplingParams
  valid : request.samplingParams.validate vocabularySize = .ok ()
  eager : decodeGraph = true → request.structured = none ∧ request.logprobsTop = none
  state : Open vocabularySize request.state

section Requests

variable {left right : CudaRequest K ρ τ}

theorem SameRequest.refl (request : CudaRequest K ρ τ) : SameRequest request request where
  structured := by
    cases request.structured with
    | none => exact .none
    | some structured => exact .some ⟨rfl, rfl⟩
  rest := rfl

theorem SameRequest.state (h : SameRequest left right) : left.state = right.state := by
  rw [h.rest]

theorem SameRequest.structured_some (h : SameRequest left right) {first : StructuredRequest}
    (hfirst : left.structured = some first) :
    ∃ second, right.structured = some second ∧ SameCursor first second := by
  have hstructured := h.structured
  rw [hfirst] at hstructured
  generalize right.structured = other at hstructured ⊢
  cases hstructured with
  | some hcursor => exact ⟨_, rfl, hcursor⟩

theorem SameRequest.structured_none (h : SameRequest left right)
    (hnone : left.structured = none) : right.structured = none := by
  have hstructured := h.structured
  rw [hnone] at hstructured
  generalize right.structured = other at hstructured ⊢
  cases hstructured with
  | none => rfl

theorem SameRequest.samplingParams (h : SameRequest left right) :
    left.samplingParams = right.samplingParams := by
  rw [h.rest]

theorem SameRequest.schedulerId (h : SameRequest left right) :
    left.schedulerId = right.schedulerId := by
  rw [h.rest]

theorem SameRequest.tokenDecodeState (h : SameRequest left right) :
    left.tokenDecodeState = right.tokenDecodeState := by
  rw [h.rest]

theorem SameRequest.logprobsTop (h : SameRequest left right) :
    left.logprobsTop = right.logprobsTop := by
  rw [h.rest]

theorem SameRequest.withState (h : SameRequest left right) (state : GenerationState) :
    SameRequest { left with state := state } { right with state := state } where
  structured := h.structured
  rest := by rw [h.rest]

theorem SameRequest.withDecoder (h : SameRequest left right) (decoder : τ) :
    SameRequest { left with tokenDecodeState := decoder }
      { right with tokenDecodeState := decoder } where
  structured := h.structured
  rest := by rw [h.rest]

theorem SameRequest.withCursors (h : SameRequest left right) {first second : StructuredRequest}
    (hsame : SameCursor first second) :
    SameRequest { left with structured := some first } { right with structured := some second } where
  structured := .some hsame
  rest := by rw [h.rest]

theorem forall₂_map_eq {α β γ : Type} {related : α → β → Prop} {xs : List α} {ys : List β}
    (h : List.Forall₂ related xs ys) {f : α → γ} {f' : β → γ}
    (hsame : ∀ x y, related x y → f x = f' y) : xs.map f = ys.map f' := by
  induction h with
  | nil => rfl
  | cons hfirst _ ih => rw [List.map_cons, List.map_cons, hsame _ _ hfirst, ih]

theorem forall₂_set {α β : Type} {related : α → β → Prop} {xs : List α} {ys : List β}
    (h : List.Forall₂ related xs ys) {x : α} {y : β} (hxy : related x y) (index : Nat) :
    List.Forall₂ related (xs.set index x) (ys.set index y) := by
  induction h generalizing index with
  | nil => exact .nil
  | cons hfirst hrest ih =>
      cases index with
      | zero => exact .cons hxy hrest
      | succ index => exact .cons hfirst (ih index)

theorem set_same {α : Type} {items : List α} {index : Nat} {item : α}
    (hitem : items[index]? = some item) : items.set index item = items := by
  obtain ⟨hlt, rfl⟩ := List.getElem?_eq_some_iff.mp hitem
  exact List.set_getElem_self hlt

end Requests

/-- What no output slot changes: the tokens and what bounds their automata, the way
the model runs, the size of a row, the plan, and the ids and random streams of the
requests. -/
structure Fixed (ρ : Type) where
  tokens : List (List UInt8)
  capacity : Nat
  reach : Nat
  decodeGraph : Bool
  vocabularySize : Nat
  plan : IterationPlan
  streams : List (Nat × ρ)

/-- The requests that have an output slot. -/
def Fixed.Planned (fixed : Fixed ρ) (index : Nat) : Prop :=
  ∃ slot ∈ fixed.plan.outputSlots, ∃ item, fixed.plan.itemOf slot = some item ∧
    fixed.streams.findIdx? (·.1 = item.requestId) = some index

def streamsOf (requests : List (CudaRequest K ρ τ)) : List (Nat × ρ) :=
  requests.map fun request => (request.schedulerId, request.rng)

variable [Field K] [LinearOrder K]

/-- What holds of the two backends from one output slot to the next. -/
structure Agree (fixed : Fixed ρ) (left right : CudaBackend K ρ τ ℓ) : Prop where
  same : SameBackend left right
  leftShared : Shared fixed.tokens fixed.capacity fixed.reach left
  rightShared : Shared fixed.tokens fixed.capacity fixed.reach right
  size : left.sampling.vocabularySize = fixed.vocabularySize
  streams : streamsOf left.requests = fixed.streams
  ready : ∀ index request, fixed.Planned index → left.requests[index]? = some request →
    Ready fixed.decodeGraph fixed.vocabularySize request

variable {fixed : Fixed ρ} {s t : CudaBackend K ρ τ ℓ} {index : Nat}
  {left right : CudaRequest K ρ τ}

theorem Agree.rightStreams (h : Agree fixed s t) :
    streamsOf t.requests = fixed.streams := by
  rw [← h.streams]
  apply Eq.symm
  apply forall₂_map_eq h.same.requests
  intro left right hsame
  rw [hsame.rest]

/-- The requests at one place are alike. -/
theorem Agree.at (h : Agree fixed s t)
    (index : Nat) :
    s.requests[index]? = none ∧ t.requests[index]? = none ∨
      ∃ left right, s.requests[index]? = some left ∧ t.requests[index]? = some right ∧
        SameRequest left right := by
  have hlength := h.same.requests.length_eq
  by_cases hlt : index < s.requests.length
  · refine .inr ⟨_, _, List.getElem?_eq_getElem hlt,
      List.getElem?_eq_getElem (hlength ▸ hlt), ?_⟩
    exact (List.forall₂_iff_get.mp h.same.requests).2 index hlt (hlength ▸ hlt)
  · have hle := Nat.le_of_not_lt hlt
    exact .inl ⟨List.getElem?_eq_none hle, List.getElem?_eq_none (hlength ▸ hle)⟩

/-- The automata at one place have one grammar. -/
theorem Agree.automata (h : Agree fixed s t)
    (place : Nat) :
    s.automata[place]? = none ∧ t.automata[place]? = none ∨
      ∃ g a b, s.automata[place]? = some ⟨g, a⟩ ∧ t.automata[place]? = some ⟨g, b⟩ := by
  have hgrammar := congrArg (fun grammars => grammars[place]?) h.same.grammars
  simp only [List.getElem?_map] at hgrammar
  cases hleft : s.automata[place]? with
  | none =>
      rw [hleft, Option.map_none] at hgrammar
      exact .inl ⟨rfl, Option.map_eq_none_iff.mp hgrammar.symm⟩
  | some entry =>
      rw [hleft, Option.map_some] at hgrammar
      obtain ⟨⟨g', b⟩, hright, hg⟩ := Option.map_eq_some_iff.mp hgrammar.symm
      obtain ⟨g, a⟩ := entry
      obtain rfl : g' = g := hg
      exact .inr ⟨g', a, b, rfl, hright⟩

/-- New automata of the same grammars and a request of each side in the place of another. -/
theorem Agree.update (h : Agree fixed s t)
    (hleft : s.requests[index]? = some left) {left' right' : CudaRequest K ρ τ}
    {automata automata' : List ((g : Grammar) × GrammarAutomaton g)}
    (hautomata : automata.map Sigma.fst = s.automata.map Sigma.fst)
    (hautomata' : automata'.map Sigma.fst = t.automata.map Sigma.fst)
    (hsame : SameRequest left' right')
    (hstream : (left'.schedulerId, left'.rng) = (left.schedulerId, left.rng))
    (hready : Ready fixed.decodeGraph fixed.vocabularySize left →
      Ready fixed.decodeGraph fixed.vocabularySize left')
    (hshared : Shared fixed.tokens fixed.capacity fixed.reach
      { s with automata := automata, requests := s.requests.set index left' })
    (hshared' : Shared fixed.tokens fixed.capacity fixed.reach
      { t with automata := automata', requests := t.requests.set index right' }) :
    Agree fixed
      { s with automata := automata, requests := s.requests.set index left' }
      { t with automata := automata', requests := t.requests.set index right' } where
  same :=
    { grammars := hautomata.trans (h.same.grammars.trans hautomata'.symm)
      sampling := h.same.sampling
      samples := h.same.samples
      pendingTokens := h.same.pendingTokens
      requests := forall₂_set h.same.requests hsame index }
  leftShared := hshared
  rightShared := hshared'
  size := h.size
  streams := by
    rw [← h.streams, streamsOf, List.map_set, hstream]
    apply set_same
    rw [List.getElem?_map, hleft]
    rfl
  ready := by
    intro place request hplanned hrequest
    by_cases hplace : place = index
    · subst hplace
      have hlt := (List.getElem?_eq_some_iff.mp hleft).choose
      rw [List.getElem?_set_self hlt] at hrequest
      rw [← Option.some.inj hrequest]
      exact hready (h.ready place left hplanned hleft)
    · rw [List.getElem?_set_ne (Ne.symm hplace)] at hrequest
      exact h.ready place request hplanned hrequest

end Agreement

end Riley.Server
