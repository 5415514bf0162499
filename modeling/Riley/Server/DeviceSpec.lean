import Riley.Server.IterationSpec

/-!
The steps of an output slot on two backends that agree, and what is left of them for a
request that takes the device's choice.
-/

namespace Riley.Server

open Constraint (Grammar GrammarAutomaton GrammarCursor Stack TokenIndex Sharing)
open Generation (GenerationState GenerationError GenerationM acceptToken preStep)
open Constraint.GrammarAutomaton (Continues)
open Outcome Ranking Sampling
open SamplingWorkspace (allowedFrom)

variable {K ρ τ ℓ : Type} {fixed : Fixed ρ}
  {s t : CudaBackend K ρ τ ℓ} {index : Nat} {left right : CudaRequest K ρ τ}

section Reads

theorem readRequest_ok (hrequest : s.requests[index]? = some left) :
    (readRequest index : IterationM K ρ τ ℓ (CudaRequest K ρ τ)) s = .ok left s := by
  show (orReject s.requests[index]? .panicked : IterationM K ρ τ ℓ (CudaRequest K ρ τ)) s = _
  rw [hrequest]
  rfl

theorem requestIndexByScheduler_eq (requests : List (CudaRequest K ρ τ)) (requestId : Nat) :
    requestIndexByScheduler requests requestId =
      (streamsOf requests).findIdx? (·.1 = requestId) := by
  rw [requestIndexByScheduler, streamsOf, List.findIdx?_map]
  rfl

theorem length_addressable (model : CudaModel K ρ τ ℓ) (vocabularySize : Nat) :
    (addressable model vocabularySize).length = vocabularySize := by
  rw [addressable, List.length_map, List.length_range]

theorem wp_preStep (vocabularySize : Nat) (state : GenerationState)
    (h : Open vocabularySize state) :
    wp preStep (fun _ state' => Open vocabularySize state') (fun _ _ => True) state := by
  unfold preStep
  apply wp_read
  cases state.finishReason with
  | none => exact h
  | some reason => trivial

theorem onState_preStep {lift : GenerationError → IterationError K}
    (hrequest : s.requests[index]? = some left) (hfinish : left.state.finishReason = none) :
    onState index lift preStep s = .ok () s := by
  have hrun : preStep left.state = .ok () left.state := by
    unfold preStep
    rw [seq_get, hfinish]
    rfl
  unfold onState
  rw [seq_ok (readRequest_ok hrequest), hrun]
  show EStateM.Result.ok () (s.setRequest index left) = _
  unfold CudaBackend.setRequest
  rw [set_same hrequest]

theorem rowOf_ok {model : CudaModel K ρ τ ℓ} {downloaded : DownloadedIteration} {slot : Nat}
    {row : List UInt8} {backend : SamplingBackend}
    (hgraph : ¬ (backend = .gpuGreedy ∧ model.decodeGraph = true))
    (hrow : downloaded.logits slot = some row) :
    rowOf model downloaded backend slot s = .ok row s := by
  unfold rowOf rejectIf
  rw [if_neg hgraph, hrow]
  rfl

end Reads

section Grammars

variable {model : CudaModel K ρ τ ℓ} {tokenId : Nat} {first second : StructuredRequest}

theorem admits_plain (hleft : s.requests[index]? = some left) (hnone : left.structured = none) :
    admitsDeviceToken model index tokenId s = .ok true s := by
  unfold admitsDeviceToken
  rw [seq_ok (readRequest_ok hleft), hnone]
  rfl

theorem admits_ended (hleft : s.requests[index]? = some left)
    (hfirst : left.structured = some first) (hended : tokenId ∈ model.eos) :
    admitsDeviceToken model index tokenId s = .ok false s := by
  unfold admitsDeviceToken
  rw [seq_ok (readRequest_ok hleft), hfirst]
  show (if left.state.finishTokensMasked = [] ∧ tokenId ∉ model.eos then _ else pure false :
    IterationM K ρ τ ℓ Bool) s = _
  rw [if_neg (fun hboth => hboth.2 hended)]
  rfl

theorem admits_asks (hleft : s.requests[index]? = some left)
    (hfirst : left.structured = some first) (hgate : left.state.finishTokensMasked = [])
    (hended : tokenId ∉ model.eos) :
    admitsDeviceToken model index tokenId s = onAutomaton index left first
      (fun _ automaton cursor => automaton.allows cursor model.tokenIndex tokenId) s := by
  unfold admitsDeviceToken
  rw [seq_ok (readRequest_ok hleft), hfirst]
  show (if left.state.finishTokensMasked = [] ∧ tokenId ∉ model.eos then _ else pure false :
    IterationM K ρ τ ℓ Bool) s = _
  rw [if_pos ⟨hgate, hended⟩]

theorem allowed_plain (model : CudaModel K ρ τ ℓ)
    (hright : t.requests[index]? = some right)
    (hgate : right.state.finishTokensMasked = []) (hnone : right.structured = none) :
    allowedTokens model index t =
      .ok (addressable model t.sampling.vocabularySize) t := by
  unfold allowedTokens
  rw [seq_get, seq_ok (readRequest_ok hright), hgate, hnone]
  rfl

theorem allowed_asks (hright : t.requests[index]? = some right)
    (hgate : right.state.finishTokensMasked = []) (hsecond : right.structured = some second) :
    allowedTokens model index t = onAutomaton index right second
      (fun _ automaton cursor => automaton.constrain cursor model.tokenIndex model.eos
        (addressable model t.sampling.vocabularySize)) t := by
  unfold allowedTokens
  rw [seq_get, seq_ok (readRequest_ok hright), hgate, hsecond]
  rfl

theorem getD_addressable (model : CudaModel K ρ τ ℓ) (vocabularySize id : Nat) :
    (addressable model vocabularySize).getD id false = true ↔
      id < vocabularySize ∧ id < model.addressableTokens := by
  unfold addressable
  by_cases hlt : id < vocabularySize
  · rw [List.getD_eq_getElem _ _ (by rw [List.length_map, List.length_range]; exact hlt),
      List.getElem_map, List.getElem_range, decide_eq_true_iff]
    exact ⟨fun h => ⟨hlt, h⟩, fun h => h.2⟩
  · rw [List.getD_eq_default _ _ (by rw [List.length_map, List.length_range]; omega)]
    exact ⟨fun h => absurd h Bool.false_ne_true, fun h => absurd h.1 hlt⟩

end Grammars

variable [Field K] [LinearOrder K]

section Steps

theorem paired_readRequest (h : Agree fixed s t)
    (index : Nat) :
    Paired (fun left s' right t' => s' = s ∧ t' = t ∧ s.requests[index]? = some left ∧
        t.requests[index]? = some right ∧ SameRequest left right)
      (readRequest index) (readRequest index) s t := by
  unfold readRequest
  refine paired_left rfl ?_
  refine paired_right rfl ?_
  apply paired_orReject
  rcases h.at index with hnone | ⟨left, right, hleft, hright, hsame⟩
  · exact .inl hnone
  · exact .inr ⟨left, right, hleft, hright, rfl, rfl, hleft, hright, hsame⟩

theorem paired_requestOf {slot : Nat} (hslot : slot ∈ fixed.plan.outputSlots)
    (h : Agree fixed s t) :
    Paired (fun index s' index' t' => s' = s ∧ t' = t ∧ index' = index ∧ fixed.Planned index)
      (requestOf fixed.plan slot) (requestOf fixed.plan slot) s t := by
  unfold requestOf
  refine paired_left rfl ?_
  refine paired_right rfl ?_
  cases hitem : fixed.plan.itemOf slot with
  | none => exact (fails_throw _).seq.paired (fails_throw _).seq
  | some item =>
      refine paired_left rfl ?_
      refine paired_right rfl ?_
      rw [requestIndexByScheduler_eq, requestIndexByScheduler_eq, h.streams, h.rightStreams]
      apply paired_orReject
      cases hindex : fixed.streams.findIdx? (·.1 = item.requestId) with
      | none => exact .inl ⟨rfl, rfl⟩
      | some index =>
          exact .inr ⟨index, index, rfl, rfl, rfl, rfl, rfl, slot, hslot, item, hitem, hindex⟩

/-- A request with an output slot is there. -/
theorem Agree.planned (h : Agree fixed s t) (hplanned : fixed.Planned index) :
    ∃ left right, s.requests[index]? = some left ∧ t.requests[index]? = some right ∧
      SameRequest left right := by
  rcases h.at index with ⟨hnone, _⟩ | hsome
  · obtain ⟨_, _, _, _, hindex⟩ := hplanned
    obtain ⟨hlt, _⟩ := List.findIdx?_eq_some_iff_getElem.mp hindex
    rw [← h.streams, streamsOf, List.length_map] at hlt
    rw [List.getElem?_eq_getElem hlt] at hnone
    cases hnone
  · exact hsome

/-- A change of one request that leaves its automaton alone. -/
theorem Agree.setRequest (h : Agree fixed s t)
    (hleft : s.requests[index]? = some left) (hright : t.requests[index]? = some right)
    {left' right' : CudaRequest K ρ τ} (hsame : SameRequest left' right')
    (hstream : (left'.schedulerId, left'.rng) = (left.schedulerId, left.rng))
    (hready : Ready fixed.decodeGraph fixed.vocabularySize left →
      Ready fixed.decodeGraph fixed.vocabularySize left')
    (hkeep : left'.structured = left.structured) (hkeep' : right'.structured = right.structured) :
    Agree fixed (s.setRequest index left')
      (t.setRequest index right') :=
  h.update hleft rfl rfl hsame hstream hready (h.leftShared.setRequest hleft hkeep)
    (h.rightShared.setRequest hright hkeep')

/-- A request that still samples and may be given any token. -/
theorem paired_onState {α : Type} {lift : GenerationError → IterationError K}
    {call : GenerationM α}
    (hcall : ∀ vocabularySize state, Open vocabularySize state →
      wp call (fun _ state' => Open vocabularySize state') (fun _ _ => True) state)
    (h : Agree fixed s t) (hplanned : fixed.Planned index) :
    Paired (fun result s' result' t' => result' = result ∧
        Agree fixed s' t')
      (onState index lift call) (onState index lift call) s t := by
  unfold onState
  apply Paired.bind (paired_readRequest h index)
  rintro left _ right _ ⟨rfl, rfl, hleft, hright, hsame⟩
  have hready := h.ready index left hplanned hleft
  have hopen := wp_elim (hcall _ _ hready.state)
  rw [← hsame.state]
  cases hrun : call left.state with
  | error error state => exact .neither rfl rfl
  | ok result state =>
      refine .both rfl rfl ⟨rfl, ?_⟩
      apply h.setRequest hleft hright (hsame.withState state) rfl ?_ rfl rfl
      intro hready
      exact ⟨hready.greedy, hready.valid, hready.eager, hopen.1 _ _ hrun⟩

section Automata

variable {first second : StructuredRequest} {g : Grammar} {a b a' b' : GrammarAutomaton g}
  {cursor cursor' : GrammarCursor}

theorem set_fst {automata : List ((g : Grammar) × GrammarAutomaton g)} {place : Nat}
    (ha : automata[place]? = some ⟨g, a⟩) :
    (automata.set place ⟨g, a'⟩).map Sigma.fst = automata.map Sigma.fst := by
  rw [List.map_set]
  apply set_same
  rw [List.getElem?_map, ha]
  rfl

theorem Ready.withCursor {decodeGraph : Bool} {vocabularySize : Nat}
    (h : Ready decodeGraph vocabularySize left)
    (hfirst : left.structured = some first) (structured : StructuredRequest) :
    Ready decodeGraph vocabularySize { left with structured := some structured } where
  greedy := h.greedy
  valid := h.valid
  eager := by
    intro hgraph
    have hnone := (h.eager hgraph).1
    rw [hfirst] at hnone
    cases hnone
  state := h.state

/-- Both requests move in their automata, to the same stacks. -/
theorem Agree.moveBoth (h : Agree fixed s t)
    (hleft : s.requests[index]? = some left) (hsame : SameRequest left right)
    (hfirst : left.structured = some first) (ha : s.automata[first.automaton]? = some ⟨g, a⟩)
    (hb : t.automata[second.automaton]? = some ⟨g, b⟩)
    (hmoved : SameCursor { first with cursor := cursor } { second with cursor := cursor' })
    (hshared : Shared fixed.tokens fixed.capacity fixed.reach (s.moveCursor index left first cursor ⟨g, a'⟩))
    (hshared' : Shared fixed.tokens fixed.capacity fixed.reach
      (t.moveCursor index right second cursor' ⟨g, b'⟩)) :
    Agree fixed
      (s.moveCursor index left first cursor ⟨g, a'⟩)
      (t.moveCursor index right second cursor' ⟨g, b'⟩) :=
  h.update hleft (set_fst ha) (set_fst hb) (hsame.withCursors hmoved) rfl
    (fun hready => hready.withCursor hfirst _) hshared hshared'

/-- The left request alone moves in its automaton, and stays at its stacks. -/
theorem Agree.moveLeft (h : Agree fixed s t)
    (hleft : s.requests[index]? = some left) (hright : t.requests[index]? = some right)
    (hsame : SameRequest left right) (hfirst : left.structured = some first)
    (ha : s.automata[first.automaton]? = some ⟨g, a⟩)
    (hstacks : cursor.stackSet = first.cursor.stackSet)
    (hshared : Shared fixed.tokens fixed.capacity fixed.reach (s.moveCursor index left first cursor ⟨g, a'⟩)) :
    Agree fixed
      (s.moveCursor index left first cursor ⟨g, a'⟩) t := by
  obtain ⟨second, hsecond, hcursor⟩ := hsame.structured_some hfirst
  have hsame' : SameRequest
      { left with structured := some { first with cursor := cursor } } right := by
    constructor
    · rw [hsecond]
      exact .some ⟨hcursor.1, hstacks.trans hcursor.2⟩
    · show { left with structured := some { first with cursor := cursor } } = _
      rw [hsame.rest]
  have hkept : t = { t with requests := t.requests.set index right } := by rw [set_same hright]
  rw [hkept]
  apply h.update hleft (set_fst ha) rfl hsame' rfl (fun hready => hready.withCursor hfirst _)
    hshared
  rw [set_same hright]
  exact h.rightShared

variable {α : Type}
  {call : (g : Grammar) → GrammarAutomaton g → GrammarCursor →
    Option (α × GrammarCursor × GrammarAutomaton g)}
  {meaning : (g : Grammar) → List Stack → α × List Stack}

theorem paired_onAutomaton (hcall : Means fixed.tokens fixed.capacity fixed.reach call meaning)
    (h : Agree fixed s t)
    (hleft : s.requests[index]? = some left) (hright : t.requests[index]? = some right)
    (hsame : SameRequest left right) (hfirst : left.structured = some first)
    (hsecond : right.structured = some second) (hcursor : SameCursor first second) :
    Paired (fun result s' result' t' => result' = result ∧
        Agree fixed s' t')
      (onAutomaton index left first call) (onAutomaton index right second call) s t := by
  rcases h.automata first.automaton with ⟨ha, hb⟩ | ⟨g, a, b, ha, hb⟩
  · rw [hcursor.1] at hb
    exact .neither (onAutomaton_none ha) (onAutomaton_none hb)
  · rw [hcursor.1] at hb
    obtain ⟨cursor, a', hrun, hstacks, hshared⟩ :=
      onAutomaton_ok hcall h.leftShared hleft hfirst ha
    obtain ⟨cursor', b', hrun', hstacks', hshared'⟩ :=
      onAutomaton_ok hcall h.rightShared hright hsecond hb
    have hmoved : SameCursor { first with cursor := cursor } { second with cursor := cursor' } := by
      refine ⟨hcursor.1, ?_⟩
      show cursor.stackSet = cursor'.stackSet
      rw [hstacks, hstacks', hcursor.2]
    refine .both hrun hrun' ⟨?_, ?_⟩
    · rw [hcursor.2]
    · exact h.moveBoth hleft hsame hfirst ha hb hmoved hshared hshared'

end Automata

end Steps

section Rows

/-- What loading has checked of the tokenizer. -/
structure Loaded (model : CudaModel K ρ τ ℓ) (tokens : List (List UInt8))
    (vocabularySize : Nat) : Prop where
  index : model.tokenIndex = TokenIndex.new tokens
  count : tokens.length = model.addressableTokens
  fits : model.addressableTokens ≤ vocabularySize
  eos : ∀ id ∈ model.eos, id < model.addressableTokens

/-- A row of finite logits and the token that the device returns for it: the first of
the greatest logit among the tokens that the tokenizer knows. -/
structure Chosen (model : CudaModel K ρ τ ℓ) (vocabularySize : Nat) (row : List UInt8)
    (tokenId : Nat) : Prop where
  length : row.length = 2 * vocabularySize
  finite : ∀ bits ∈ rowBits model.endian row, isFiniteBf16 bits = true
  leads : Leads (fun id => decodeFiniteBf16 K ((rowBits model.endian row).getD id 0))
    (List.range model.addressableTokens) tokenId

variable {model : CudaModel K ρ τ ℓ} (hloaded : Loaded model fixed.tokens fixed.vocabularySize)
include hloaded

theorem paired_allowedTokens (hlimits : Sharing.Limits fixed.tokens fixed.capacity fixed.reach)
    (h : Agree fixed s t) (hplanned : fixed.Planned index) :
    Paired (fun allowed s' allowed' t' => allowed' = allowed ∧
        Agree fixed s' t')
      (allowedTokens model index) (allowedTokens model index) s t := by
  unfold allowedTokens
  refine paired_left rfl ?_
  refine paired_right rfl ?_
  apply Paired.bind (paired_readRequest h index)
  rintro left _ right _ ⟨rfl, rfl, hleft, hright, hsame⟩
  have hgate := (h.ready index left hplanned hleft).state.gate
  rw [← hsame.state, hgate, ← h.same.sampling]
  refine paired_left rfl ?_
  refine paired_right rfl ?_
  cases hstructured : left.structured with
  | none =>
      rw [hsame.structured_none hstructured]
      exact paired_pure ⟨rfl, h⟩
  | some first =>
      obtain ⟨second, hsecond, hcursor⟩ := hsame.structured_some hstructured
      rw [hsecond, hloaded.index]
      apply paired_onAutomaton (means_constrain hlimits model.eos ?_) h hleft hright hsame
        hstructured hsecond hcursor
      rw [length_addressable, h.size, hloaded.count]
      exact hloaded.fits

theorem paired_sampleRow (hlimits : Sharing.Limits fixed.tokens fixed.capacity fixed.reach)
    (h : Agree fixed s t) (hplanned : fixed.Planned index)
    (row : List UInt8) :
    Paired (fun tokenId s' tokenId' t' => tokenId' = tokenId ∧
        Agree fixed s' t')
      (sampleRow model index row) (sampleRow model index row) s t := by
  unfold sampleRow
  apply Paired.bind (paired_allowedTokens hloaded hlimits h hplanned)
  rintro _ s' allowed t' ⟨rfl, h'⟩
  refine paired_left rfl ?_
  refine paired_right rfl ?_
  apply Paired.bind (paired_readRequest h' index)
  rintro left s' right t' ⟨rfl, rfl, hleft, hright, hsame⟩
  have hgreedy := (h'.ready index left hplanned hleft).greedy
  rw [← h'.same.sampling, ← hsame.state, ← hsame.samplingParams]
  cases hsample : greedyBf16Native model.endian s'.sampling.vocabularySize row
      (.allowedMask allowed) left.state.historyTokenIds left.samplingParams with
  | error error => exact .neither rfl rfl
  | ok sample =>
      cases sample with
      | none => exact absurd hsample (greedy_answers hgreedy)
      | some sample =>
          apply Paired.bind (paired_onState wp_preStep h' hplanned)
          rintro _ s'' _ t'' ⟨_, h''⟩
          exact paired_pure ⟨rfl, h''⟩

/-- What the host samples where the device's choice is allowed. -/
theorem sampleRow_chosen [IsStrictOrderedRing K] {row : List UInt8} {tokenId : Nat}
    (hchosen : Chosen model fixed.vocabularySize row tokenId) (h : Agree fixed s t)
    (hplanned : fixed.Planned index) (hleft : s.requests[index]? = some left)
    (hfinish : left.state.finishReason = none) {start : CudaBackend K ρ τ ℓ}
    {allowed : List Bool} (hallowed : allowedTokens model index start = .ok allowed t)
    (hlength : allowed.length = fixed.vocabularySize)
    (hwithin : ∀ id, allowed.getD id false = true → id < model.addressableTokens)
    (htoken : allowed.getD tokenId false = true) :
    sampleRow model index row start = .ok tokenId t := by
  obtain ⟨_, right, hleft', hright, hsame⟩ := h.planned hplanned
  obtain rfl := Option.some.inj (hleft.symm.trans hleft')
  have hready := h.ready index left hplanned hleft
  have hvalid : validateInputs model.endian fixed.vocabularySize row (.allowedMask allowed)
      left.state.historyTokenIds left.samplingParams = .ok () := by
    apply validateInputs_ok hready.valid hchosen.length _ hready.state.history hchosen.finite
    rintro mask ⟨⟩
    exact hlength
  have hleads : Leads (fun id => decodeFiniteBf16 K ((rowBits model.endian row).getD id 0))
      (allowedFrom (.allowedMask allowed) 0 fixed.vocabularySize) tokenId := by
    constructor
    · have hlt := List.mem_range.mp hchosen.leads.1
      exact mem_allowedFrom.mpr ⟨Nat.lt_of_lt_of_le hlt hloaded.fits, htoken⟩
    · intro id hid
      apply hchosen.leads.2
      exact List.mem_range.mpr (hwithin id (mem_allowedFrom.mp hid).2)
  have hsample := greedy_picks hready.greedy hvalid hleads
  rw [← h.size, h.same.sampling, hsame.state, hsame.samplingParams] at hsample
  unfold sampleRow
  rw [seq_ok hallowed, seq_get, seq_ok (readRequest_ok hright), hsample]
  rw [hsame.state] at hfinish
  show (onState index .randomnessFailed preStep >>= fun _ => pure tokenId :
    IterationM K ρ τ ℓ Nat) t = _
  rw [seq_ok (onState_preStep hright hfinish)]
  rfl

end Rows

section Choices

variable {model : CudaModel K ρ τ ℓ} {downloaded : DownloadedIteration} {slot tokenId : Nat}
  {row : List UInt8}

/-- The host reads a row and samples from it. -/
theorem chooseToken_host (model : CudaModel K ρ τ ℓ)
    (hright : t.requests[index]? = some right)
    (hrow : downloaded.logits slot = some row) :
    chooseToken model downloaded .cpuNormative index slot t =
      (sampleRow model index row >>= fun tokenId =>
        pure (tokenId, right.logprobsTop.map (tokenLogprob model row tokenId))) t := by
  have hdevice : deviceToken model downloaded .cpuNormative index slot t = .ok none t := rfl
  unfold chooseToken
  rw [seq_ok hdevice, seq_ok (readRequest_ok hright)]
  show (rowOf model downloaded .cpuNormative slot >>= fun row => _ : IterationM K ρ τ ℓ _) t = _
  rw [seq_ok (rowOf_ok (by rintro ⟨⟨⟩, _⟩) hrow)]

/-- What stops the question to a grammar stops the choice. -/
theorem chooseToken_stops (htoken : downloaded.greedyToken slot = some tokenId)
    {start : CudaBackend K ρ τ ℓ} {error : IterationError K}
    (hadmits : admitsDeviceToken model index tokenId start = .error error s) :
    chooseToken model downloaded .gpuGreedy index slot start = .error error s := by
  have hdevice : deviceToken model downloaded .gpuGreedy index slot start = .error error s := by
    unfold deviceToken
    rw [htoken]
    show (admitsDeviceToken model index tokenId >>= fun admitted => _ : IterationM K ρ τ ℓ _)
      start = _
    rw [seq_error hadmits]
  unfold chooseToken
  rw [seq_error hdevice]

/-- The choice of the device stands; a row is read for the log-probabilities alone. -/
theorem chooseToken_admitted (htoken : downloaded.greedyToken slot = some tokenId)
    {start : CudaBackend K ρ τ ℓ}
    (hadmits : admitsDeviceToken model index tokenId start = .ok true s)
    (hleft : s.requests[index]? = some left)
    (hgraph : model.decodeGraph = true → left.logprobsTop = none)
    (hrow : downloaded.logits slot = some row) :
    chooseToken model downloaded .gpuGreedy index slot start =
      .ok (tokenId, left.logprobsTop.map (tokenLogprob model row tokenId)) s := by
  have hdevice : deviceToken model downloaded .gpuGreedy index slot start =
      .ok (some tokenId) s := by
    unfold deviceToken
    rw [htoken]
    show (admitsDeviceToken model index tokenId >>= fun admitted => _ : IterationM K ρ τ ℓ _)
      start = _
    rw [seq_ok hadmits]
    rfl
  unfold chooseToken
  rw [seq_ok hdevice, seq_ok (readRequest_ok hleft)]
  cases htop : left.logprobsTop with
  | none => rfl
  | some top =>
      have hnot : ¬ (SamplingBackend.gpuGreedy = .gpuGreedy ∧ model.decodeGraph = true) := by
        rintro ⟨_, hgraph'⟩
        rw [hgraph hgraph'] at htop
        cases htop
      show (rowOf model downloaded .gpuGreedy slot >>= fun row => _ : IterationM K ρ τ ℓ _) s = _
      rw [seq_ok (rowOf_ok hnot hrow)]
      rfl

/-- The choice of the device does not stand, and the host samples as ever. -/
theorem chooseToken_refused (htoken : downloaded.greedyToken slot = some tokenId)
    {start : CudaBackend K ρ τ ℓ}
    (hadmits : admitsDeviceToken model index tokenId start = .ok false s)
    (hleft : s.requests[index]? = some left) (hgraph : model.decodeGraph = false)
    (hrow : downloaded.logits slot = some row) :
    chooseToken model downloaded .gpuGreedy index slot start =
      (sampleRow model index row >>= fun tokenId =>
        pure (tokenId, left.logprobsTop.map (tokenLogprob model row tokenId))) s := by
  have hdevice : deviceToken model downloaded .gpuGreedy index slot start = .ok none s := by
    unfold deviceToken
    rw [htoken]
    show (admitsDeviceToken model index tokenId >>= fun admitted => _ : IterationM K ρ τ ℓ _)
      start = _
    rw [seq_ok hadmits]
    rfl
  unfold chooseToken
  rw [seq_ok hdevice, seq_ok (readRequest_ok hleft)]
  show (rowOf model downloaded .gpuGreedy slot >>= fun row => _ : IterationM K ρ τ ℓ _) s = _
  rw [seq_ok (rowOf_ok (by rw [hgraph]; rintro ⟨_, ⟨⟩⟩) hrow)]

end Choices

section Equal

variable {model : CudaModel K ρ τ ℓ} {downloaded : DownloadedIteration}
  {slot tokenId : Nat} {row : List UInt8}

/-- Where the choice of the device does not stand, both sides sample from the row. -/
theorem paired_refused (hloaded : Loaded model fixed.tokens fixed.vocabularySize)
    (hlimits : Sharing.Limits fixed.tokens fixed.capacity fixed.reach)
    (hgraph : model.decodeGraph = false) (hplanned : fixed.Planned index)
    (htoken : downloaded.greedyToken slot = some tokenId)
    (hrow : downloaded.logits slot = some row) {start : CudaBackend K ρ τ ℓ}
    (hadmits : admitsDeviceToken model index tokenId start = .ok false s) (h : Agree fixed s t) :
    Paired (fun choice s' choice' t' => choice' = choice ∧ Agree fixed s' t')
      (chooseToken model downloaded .gpuGreedy index slot)
      (chooseToken model downloaded .cpuNormative index slot) start t := by
  obtain ⟨left, right, hleft, hright, hsame⟩ := h.planned hplanned
  apply paired_congr (chooseToken_refused htoken hadmits hleft hgraph hrow)
    (chooseToken_host model hright hrow)
  apply Paired.bind (paired_sampleRow hloaded hlimits h hplanned row)
  rintro _ s' sampled t' ⟨rfl, h'⟩
  apply paired_pure
  rw [hsame.logprobsTop]
  exact ⟨rfl, h'⟩

variable [IsStrictOrderedRing K]

/-- Where it stands, the host samples the same token. -/
theorem paired_admitted (hloaded : Loaded model fixed.tokens fixed.vocabularySize)
    (hgraph : fixed.decodeGraph = model.decodeGraph) (hplanned : fixed.Planned index)
    (hfinish : ∀ request, s.requests[index]? = some request →
      request.state.finishReason = none)
    (hchosen : Chosen model fixed.vocabularySize row tokenId)
    (htoken : downloaded.greedyToken slot = some tokenId)
    (hrow : downloaded.logits slot = some row) {start start' : CudaBackend K ρ τ ℓ}
    (hadmits : admitsDeviceToken model index tokenId start = .ok true s)
    (hright : start'.requests[index]? = some right) {allowed : List Bool}
    (hallowed : allowedTokens model index start' = .ok allowed t)
    (hlength : allowed.length = fixed.vocabularySize)
    (hwithin : ∀ id, allowed.getD id false = true → id < model.addressableTokens)
    (hknown : allowed.getD tokenId false = true)
    (htop : ∀ request, s.requests[index]? = some request →
      request.logprobsTop = right.logprobsTop) (h : Agree fixed s t) :
    Paired (fun choice s' choice' t' => choice' = choice ∧ Agree fixed s' t')
      (chooseToken model downloaded .gpuGreedy index slot)
      (chooseToken model downloaded .cpuNormative index slot) start start' := by
  obtain ⟨left, _, hleft, _, _⟩ := h.planned hplanned
  have hready := h.ready index left hplanned hleft
  have hsample := sampleRow_chosen hloaded hchosen h hplanned hleft (hfinish left hleft) hallowed
    hlength hwithin hknown
  have hhost := chooseToken_host model hright hrow
  rw [seq_ok hsample] at hhost
  have hdevice := chooseToken_admitted htoken hadmits hleft
    (fun hcaptured => (hready.eager (hgraph.trans hcaptured)).2) hrow
  refine .both hdevice hhost ⟨?_, h⟩
  rw [htop left hleft]

/-- Both ways of choosing a token choose the same one. -/
theorem paired_chooseToken (hloaded : Loaded model fixed.tokens fixed.vocabularySize)
    (hlimits : Sharing.Limits fixed.tokens fixed.capacity fixed.reach)
    (hgraph : fixed.decodeGraph = model.decodeGraph) (h : Agree fixed s t)
    (hplanned : fixed.Planned index) (hleft : s.requests[index]? = some left)
    (hfinish : left.state.finishReason = none)
    (hchosen : Chosen model fixed.vocabularySize row tokenId)
    (htoken : downloaded.greedyToken slot = some tokenId)
    (hrow : downloaded.logits slot = some row) :
    Paired (fun choice s' choice' t' => choice' = choice ∧ Agree fixed s' t')
      (chooseToken model downloaded .gpuGreedy index slot)
      (chooseToken model downloaded .cpuNormative index slot) s t := by
  obtain ⟨_, right, hleft', hright, hsame⟩ := h.planned hplanned
  obtain rfl := Option.some.inj (hleft.symm.trans hleft')
  have hready := h.ready index left hplanned hleft
  have hgate := hready.state.gate
  have hgate' := hsame.state ▸ hgate
  have hlt := List.mem_range.mp hchosen.leads.1
  have hsize : t.sampling.vocabularySize = fixed.vocabularySize := by
    rw [← h.same.sampling, h.size]
  have hknown := (getD_addressable model fixed.vocabularySize tokenId).mpr
    ⟨Nat.lt_of_lt_of_le hlt hloaded.fits, hlt⟩
  have hhere : ∀ request, s.requests[index]? = some request → request = left := by
    intro request hrequest
    exact Option.some.inj (hrequest.symm.trans hleft)
  cases hstructured : left.structured with
  | none =>
      have hallowed := allowed_plain model hright hgate' (hsame.structured_none hstructured)
      rw [hsize] at hallowed
      exact paired_admitted hloaded hgraph hplanned
        (fun request hrequest => hhere request hrequest ▸ hfinish) hchosen htoken hrow
        (admits_plain hleft hstructured) hright hallowed (length_addressable model _)
        (fun id hid => ((getD_addressable model _ id).mp hid).2) hknown
        (fun request hrequest => hhere request hrequest ▸ hsame.logprobsTop) h
  | some first =>
      obtain ⟨second, hsecond, hcursor⟩ := hsame.structured_some hstructured
      have huncaptured : model.decodeGraph = false := by
        rw [← hgraph]
        cases hcaptured : fixed.decodeGraph with
        | false => rfl
        | true =>
            have hnone := (hready.eager hcaptured).1
            rw [hstructured] at hnone
            cases hnone
      by_cases hended : tokenId ∈ model.eos
      · exact paired_refused hloaded hlimits huncaptured hplanned htoken hrow
          (admits_ended hleft hstructured hended) h
      have hasks := admits_asks hleft hstructured hgate hended
      have hallowed : allowedTokens model index t = _ := allowed_asks hright hgate' hsecond
      rw [hsize] at hallowed
      rw [hloaded.index] at hasks hallowed
      have hfits : fixed.tokens.length ≤ (addressable model fixed.vocabularySize).length := by
        rw [length_addressable, hloaded.count]
        exact hloaded.fits
      rcases h.automata first.automaton with ⟨ha, hb⟩ | ⟨g, a, b, ha, hb⟩
      · rw [hcursor.1] at hb
        rw [onAutomaton_none ha] at hasks
        rw [onAutomaton_none hb] at hallowed
        have hsample : sampleRow model index row t = .error .panicked t := by
          unfold sampleRow
          rw [seq_error hallowed]
        have hhost := chooseToken_host model hright hrow
        rw [seq_error hsample] at hhost
        exact .neither (chooseToken_stops htoken hasks) hhost
      · rw [hcursor.1] at hb
        obtain ⟨cursor, a', hrun, hstacks, hshared⟩ :=
          onAutomaton_ok (means_allows hlimits tokenId) h.leftShared hleft hstructured ha
        rw [hrun] at hasks
        by_cases hcontinues : Continues g fixed.tokens first.cursor.stackSet tokenId
        · obtain ⟨cursor', b', hrun', hstacks', hshared'⟩ :=
            onAutomaton_ok (means_constrain hlimits model.eos hfits) h.rightShared hright hsecond
              hb
          rw [hrun'] at hallowed
          rw [(allowsMeaning_iff fixed.tokens _ _ _).mpr hcontinues] at hasks
          have hmoved : SameCursor { first with cursor := cursor }
              { second with cursor := cursor' } := by
            refine ⟨hcursor.1, ?_⟩
            show cursor.stackSet = cursor'.stackSet
            rw [hstacks, hstacks']
            exact hcursor.2
          have h' := h.moveBoth hleft hsame hstructured ha hb hmoved hshared hshared'
          have hat : ∀ request, (s.moveCursor index left first cursor ⟨g, a'⟩).requests[index]? =
              some request →
                request = { left with structured := some { first with cursor := cursor } } := by
            intro request hrequest
            have hlt := (List.getElem?_eq_some_iff.mp hleft).choose
            have hset := List.getElem?_set_self (a :=
              { left with structured := some { first with cursor := cursor } }) hlt
            exact Option.some.inj (hrequest.symm.trans hset)
          have hbit := getD_constrainMeaning fixed.tokens model.eos
            (addressable model fixed.vocabularySize) g second.cursor.stackSet
          refine paired_admitted hloaded hgraph hplanned ?_ hchosen htoken hrow hasks hright
            hallowed ?_ ?_ ?_ ?_ h'
          · intro request hrequest
            rw [hat request hrequest]
            exact hfinish
          · unfold constrainMeaning
            rw [List.length_map, List.length_range, length_addressable]
          · intro id hid
            rcases ((hbit id).mp hid).2 with ⟨heos, _⟩ | ⟨hallow, _⟩
            · exact hloaded.eos id heos
            · exact ((getD_addressable model _ id).mp hallow).2
          · apply (hbit tokenId).mpr
            rw [length_addressable]
            refine ⟨Nat.lt_of_lt_of_le hlt hloaded.fits, .inr ⟨hknown, ?_⟩⟩
            intro _
            rw [← hcursor.2]
            exact hcontinues
          · intro request hrequest
            rw [hat request hrequest]
            exact hsame.logprobsTop
        · rw [← allowsMeaning_iff, Bool.not_eq_true] at hcontinues
          rw [hcontinues] at hasks
          exact paired_refused hloaded hlimits huncaptured hplanned htoken hrow hasks
            (h.moveLeft hleft hright hsame hstructured ha hstacks hshared)

end Equal

end Riley.Server
