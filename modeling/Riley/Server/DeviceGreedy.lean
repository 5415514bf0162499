import Riley.Generation.AcceptSpec
import Riley.Server.DeviceSpec

/-!
The device's choice equals the host's over a whole plan. The slots are taken in order on
both sides; a request that is over fails on both, wherever its token came from.
-/

namespace Riley.Server

open Constraint (Grammar GrammarAutomaton GrammarCursor TokenIndex Sharing)
open Generation (GenerationState GenerationError GenerationM acceptToken preStep)
open Outcome Ranking Sampling

variable {K ρ τ ℓ : Type} {fixed : Fixed ρ} {s t : CudaBackend K ρ τ ℓ} {index : Nat}
  {left right : CudaRequest K ρ τ}

section Open

/-- The gate stays open, for the request only grows. -/
theorem wp_acceptToken_open (tokenId : Nat) (decodedBytes : Option (List UInt8))
    (vocabularySize : Nat) (state : GenerationState) (h : Open vocabularySize state) :
    wp (acceptToken tokenId decodedBytes) (fun _ state' => Open vocabularySize state')
      (fun _ _ => True) state := by
  apply wp_ok_mono (Generation.wp_acceptToken_growth tokenId decodedBytes)
  rintro _ _ ⟨hrange, stopState, reason, rfl⟩
  constructor
  · have hgate := h.gate
    unfold GenerationState.finishTokensMasked GenerationState.stopConditionsEnabled at hgate ⊢
    rw [List.length_append, List.length_singleton]
    split
    · rfl
    · next hclosed =>
        rw [if_neg] at hgate
        · exact hgate
        · simp only [decide_eq_true_eq] at hclosed ⊢
          omega
  · exact h.vocabulary
  · intro id hid
    rcases List.mem_append.mp hid with hid | hid
    · exact h.history id hid
    · rw [List.mem_singleton.mp hid, ← h.vocabulary]
      exact hrange

theorem wp_tokenNeedsDecoding_open (tokenId vocabularySize : Nat) (state : GenerationState)
    (h : Open vocabularySize state) :
    wp (tokenNeedsDecoding tokenId) (fun _ state' => Open vocabularySize state')
      (fun _ _ => True) state := by
  unfold tokenNeedsDecoding
  apply wp_call (wp_preStep vocabularySize state h)
  · intro _ state' h'
    apply wp_read
    apply wp_check
    · exact fun _ => trivial
    · exact fun _ => h'
  · exact fun _ _ _ => trivial

end Open

theorem wp_readRequest {ok : CudaRequest K ρ τ → CudaBackend K ρ τ ℓ → Prop}
    (h : ∀ request, s.requests[index]? = some request → ok request s) :
    wp (readRequest index) ok (fun _ _ => True) s := by
  unfold readRequest
  apply wp_read
  apply (wp_orReject _ _).mpr
  exact ⟨fun _ => trivial, h⟩

variable [Field K] [LinearOrder K] {model : CudaModel K ρ τ ℓ}
  {downloaded : DownloadedIteration} {slot tokenId : Nat} {row : List UInt8}

section Publish

theorem paired_advanceGrammar (hloaded : Loaded model fixed.tokens fixed.vocabularySize)
    (hlimits : Sharing.Limits fixed.tokens fixed.capacity fixed.reach) (h : Agree fixed s t)
    (tokenId : Nat) :
    Paired (fun _ s' _ t' => Agree fixed s' t') (advanceGrammar model index tokenId)
      (advanceGrammar model index tokenId) s t := by
  unfold advanceGrammar
  apply Paired.bind (paired_readRequest h index)
  rintro left s right t ⟨rfl, rfl, hleft, hright, hsame⟩
  cases hstructured : left.structured with
  | none =>
      rw [hsame.structured_none hstructured]
      exact paired_pure h
  | some first =>
      obtain ⟨second, hsecond, hcursor⟩ := hsame.structured_some hstructured
      have hbytes := TokenIndex.bytesOf_new (Nat.le_of_lt hlimits.fits.bytes) tokenId
      have hreach : (fixed.tokens.getD tokenId []).length ≤ fixed.reach := by
        have hall := hlimits.bytes
        by_cases hlt : tokenId < fixed.tokens.length
        · rw [List.getD_eq_getElem _ _ hlt]
          exact (List.Sublist.length_le
            (List.sublist_flatten_of_mem (List.getElem_mem hlt))).trans hall
        · rw [List.getD_eq_default _ _ (Nat.le_of_not_lt hlt)]
          exact Nat.zero_le _
      rw [hsecond, hloaded.index, hbytes]
      refine paired_left rfl ?_
      refine paired_right rfl ?_
      apply Paired.bind (paired_onAutomaton (means_advance hlimits hreach) h hleft hright hsame
        hstructured hsecond hcursor)
      rintro _ s' advanced t' ⟨rfl, h'⟩
      exact paired_rejectIf fun _ => h'

theorem paired_decodeToken (h : Agree fixed s t) (hplanned : fixed.Planned index)
    (tokenId : Nat) :
    Paired (fun decoded s' decoded' t' => decoded' = decoded ∧ Agree fixed s' t')
      (decodeToken model index tokenId) (decodeToken model index tokenId) s t := by
  unfold decodeToken
  apply Paired.bind (paired_onState (wp_tokenNeedsDecoding_open tokenId) h hplanned)
  rintro _ s needed t ⟨rfl, h⟩
  cases needed with
  | false => exact paired_pure ⟨rfl, h⟩
  | true =>
      apply Paired.bind (paired_readRequest h index)
      rintro left s right t ⟨rfl, rfl, hleft, hright, hsame⟩
      rw [← hsame.tokenDecodeState]
      cases hdecoded : model.decodeTokenBytes tokenId left.tokenDecodeState with
      | error text => exact .neither rfl rfl
      | ok decoded =>
          refine .both rfl rfl ⟨rfl, ?_⟩
          apply h.setRequest hleft hright (hsame.withDecoder decoded.2) rfl ?_ rfl rfl
          exact fun hready => ⟨hready.greedy, hready.valid, hready.eager, hready.state⟩

theorem paired_publishToken (h : Agree fixed s t) (hplanned : fixed.Planned index)
    (tokenId : Nat) (logprob : Option (TokenLogprob ℓ)) :
    Paired (fun _ s' _ t' => Agree fixed s' t') (publishToken model index tokenId logprob)
      (publishToken model index tokenId logprob) s t := by
  unfold publishToken
  apply Paired.bind (paired_decodeToken h hplanned tokenId)
  rintro _ s decoded t ⟨rfl, h⟩
  apply Paired.bind (paired_onState (wp_acceptToken_open tokenId decoded) h hplanned)
  rintro _ s generated t ⟨rfl, h⟩
  apply Paired.bind (paired_readRequest h index)
  rintro left s right t ⟨rfl, rfl, hleft, hright, hsame⟩
  refine .both rfl rfl ?_
  constructor
  · constructor
    · exact h.same.grammars
    · exact h.same.sampling
    · show s.samples ++ _ = t.samples ++ _
      rw [h.same.samples]
    · show s.pendingTokens ++ _ = t.pendingTokens ++ _
      rw [h.same.pendingTokens, hsame.schedulerId]
    · exact h.same.requests
  · exact h.leftShared
  · exact h.rightShared
  · exact h.size
  · exact h.streams
  · exact h.ready

end Publish

section Over

/-- A request that is over, if there is one. -/
def Over (index : Nat) (backend : CudaBackend K ρ τ ℓ) : Prop :=
  ∀ request, backend.requests[index]? = some request → request.state.finishReason ≠ none

omit [Field K] [LinearOrder K] in
theorem Over.onAutomaton {α : Type} {structured : StructuredRequest}
    {call : (g : Grammar) → GrammarAutomaton g → GrammarCursor →
      Option (α × GrammarCursor × GrammarAutomaton g)} (h : Over index s)
    (hleft : s.requests[index]? = some left) :
    wp (onAutomaton index left structured call) (fun _ s' => Over index s') (fun _ _ => True)
      s := by
  unfold Server.onAutomaton
  apply wp_read
  cases s.automata[structured.automaton]? with
  | none => trivial
  | some entry =>
      obtain ⟨g, automaton⟩ := entry
      cases hcall : call g automaton structured.cursor with
      | none =>
          simp only [hcall]
          trivial
      | some outcome =>
          obtain ⟨result, cursor, grown⟩ := outcome
          simp only [hcall]
          show Over index (s.moveCursor index left structured cursor ⟨g, grown⟩)
          intro request hrequest
          have hlt := (List.getElem?_eq_some_iff.mp hleft).choose
          have hset := List.getElem?_set_self (a :=
            { left with structured := some { structured with cursor := cursor } }) hlt
          rw [Option.some.inj (hrequest.symm.trans hset)]
          exact h left hleft

theorem fails_preStep {state : GenerationState} (h : state.finishReason ≠ none) :
    Fails preStep state := by
  unfold Fails preStep
  apply wp_read
  cases hfinish : state.finishReason with
  | none => exact absurd hfinish h
  | some reason => trivial

omit [Field K] [LinearOrder K] in
theorem Over.onState {α : Type} {lift : GenerationError → IterationError K}
    {call : GenerationM α} (h : Over index s)
    (hcall : ∀ state : GenerationState, state.finishReason ≠ none → Fails call state) :
    Fails (onState index lift call) s := by
  unfold Fails Server.onState
  apply wp_seq
  apply wp_readRequest
  intro request hrequest
  have hfails := wp_elim (hcall request.state (h request hrequest))
  cases hrun : call request.state with
  | ok result state => exact (hfails.1 _ _ hrun).elim
  | error error state => trivial

omit [Field K] [LinearOrder K] in
theorem Over.admitsDeviceToken (h : Over index s) :
    wp (admitsDeviceToken model index tokenId) (fun _ s' => Over index s') (fun _ _ => True)
      s := by
  unfold Server.admitsDeviceToken
  apply wp_seq
  apply wp_readRequest
  intro request hrequest
  cases request.structured with
  | none => exact h
  | some structured =>
      apply wp_ite
      · exact fun _ => h.onAutomaton hrequest
      · exact fun _ => h

omit [Field K] [LinearOrder K] in
theorem Over.allowedTokens (h : Over index s) :
    wp (allowedTokens model index) (fun _ s' => Over index s') (fun _ _ => True) s := by
  unfold Server.allowedTokens
  apply wp_read
  apply wp_seq
  apply wp_readRequest
  intro request hrequest
  apply wp_seq
  apply (wp_fromExcept _).mpr
  refine ⟨fun _ _ => trivial, ?_⟩
  intro allowed _
  cases request.structured with
  | none => exact h
  | some structured => exact h.onAutomaton hrequest

/-- A token is not sampled for a request that is over. -/
theorem Over.sampleRow (h : Over index s) : Fails (sampleRow model index row) s := by
  unfold Server.sampleRow
  apply fails_after h.allowedTokens
  intro allowed s' h'
  apply wp_read
  apply wp_seq
  apply wp_readRequest
  intro request hrequest
  cases greedyBf16Native model.endian s'.sampling.vocabularySize row (.allowedMask allowed)
      request.state.historyTokenIds request.samplingParams with
  | error error => trivial
  | ok sample =>
      cases sample with
      | some sample => exact (h'.onState fun _ => fails_preStep).seq
      | none =>
          apply Fails.seq
          unfold sampleDistribution
          apply wp_seq
          apply wp_readRequest
          intro _ _
          apply wp_seq
          apply (wp_zoom _ _ _ _ _).mpr
          apply wp_any
          · intro distribution sampling
            apply Fails.seq
            exact Over.onState (fun request hrequest => h' request hrequest)
              fun _ => fails_preStep
          · exact fun _ _ => trivial

theorem Over.chooseToken (h : Over index s) (backend : SamplingBackend) :
    wp (chooseToken model downloaded backend index slot) (fun _ s' => Over index s')
      (fun _ _ => True) s := by
  unfold Server.chooseToken
  have hdevice : wp (deviceToken model downloaded backend index slot)
      (fun _ s' => Over index s') (fun _ _ => True) s := by
    unfold deviceToken
    cases backend with
    | cpuNormative => exact h
    | gpuGreedy =>
        apply wp_seq
        apply (wp_orReject _ _).mpr
        refine ⟨fun _ => trivial, ?_⟩
        intro tokenId _
        exact wp_call h.admitsDeviceToken (fun _ _ h' => h') fun _ _ _ => trivial
  apply wp_call hdevice
  · intro device s' h'
    apply wp_seq
    apply wp_readRequest
    intro request hrequest
    have hrow : wp (rowOf model downloaded backend slot) (fun _ s'' => s'' = s')
        (fun _ _ => True) s' := by
      unfold rowOf
      apply wp_check
      · exact fun _ => trivial
      · intro _
        apply (wp_orReject _ _).mpr
        exact ⟨fun _ => trivial, fun _ _ => rfl⟩
    cases device with
    | none =>
        apply wp_call hrow
        · rintro row _ rfl
          exact wp_call h'.sampleRow (fun _ _ h => h.elim) fun _ _ _ => trivial
        · exact fun _ _ _ => trivial
    | some tokenId =>
        cases request.logprobsTop with
        | none => exact h'
        | some top =>
            apply wp_call hrow
            · rintro row _ rfl
              exact h'
            · exact fun _ _ _ => trivial
  · exact fun _ _ _ => trivial

omit [Field K] [LinearOrder K] in
theorem Over.advanceGrammar (h : Over index s) :
    wp (advanceGrammar model index tokenId) (fun _ s' => Over index s') (fun _ _ => True) s := by
  unfold Server.advanceGrammar
  apply wp_seq
  apply wp_readRequest
  intro request hrequest
  cases request.structured with
  | none => exact h
  | some structured =>
      apply wp_seq
      apply (wp_orReject _ _).mpr
      refine ⟨fun _ => trivial, ?_⟩
      intro bytes _
      apply wp_call (h.onAutomaton hrequest)
      · intro advanced s' h'
        apply (wp_rejectIf _ _).mpr
        exact ⟨fun _ => trivial, fun _ => h'⟩
      · exact fun _ _ _ => trivial

omit [Field K] [LinearOrder K] in
theorem Over.publishToken (h : Over index s) (logprob : Option (TokenLogprob ℓ)) :
    Fails (publishToken model index tokenId logprob) s := by
  unfold Server.publishToken
  apply Fails.seq
  unfold decodeToken
  apply Fails.seq
  apply h.onState
  intro state hfinish
  exact (fails_preStep hfinish).seq

end Over

section Selection

variable {plan : IterationPlan}

/-- A request that nothing keeps from the device. -/
theorem requestIneligibility_none (h : requestIneligibility model left = none) :
    (model.decodeGraph = true → left.structured = none ∧ left.logprobsTop = none) ∧
      IsGreedy left.samplingParams ∧ left.state.finishTokensMasked = [] := by
  unfold requestIneligibility at h
  split at h
  · cases h
  · next hlogits =>
      refine ⟨?_, ?_⟩
      · intro hgraph
        rw [hgraph, Bool.true_and, Bool.or_eq_true, not_or] at hlogits
        simpa using hlogits
      · unfold gpuGreedyIneligibility at h
        simp only [Bool.not_true, Bool.false_eq_true, if_false] at h
        split at h
        · cases h
        · next htemperature =>
            split at h
            · cases h
            · next hpenalty =>
                split at h
                · cases h
                · next hmask =>
                    refine ⟨⟨not_not.mp htemperature, not_not.mp hpenalty⟩, ?_⟩
                    simpa using hmask

/-- The request of a slot, which nothing keeps from the device. -/
def Eligible (model : CudaModel K ρ τ ℓ) (plan : IterationPlan) (backend : CudaBackend K ρ τ ℓ)
    (slot : Nat) : Prop :=
  ∀ item index request, plan.itemOf slot = some item →
    requestIndexByScheduler backend.requests item.requestId = some index →
    backend.requests[index]? = some request → requestIneligibility model request = none

theorem wp_ineligibilityFrom (slots : List Nat) :
    wp (ineligibilityFrom model plan slots)
      (fun reason _ => reason = none → ∀ slot ∈ slots, Eligible model plan s slot)
      (fun _ _ => True) s := by
  induction slots with
  | nil => exact fun _ slot hslot => absurd hslot List.not_mem_nil
  | cons slot rest ih =>
      unfold ineligibilityFrom requestOf
      apply wp_seq
      apply wp_read
      apply wp_seq
      apply (wp_orReject _ _).mpr
      refine ⟨fun _ => trivial, ?_⟩
      intro item hitem
      apply (wp_orReject _ _).mpr
      refine ⟨fun _ => trivial, ?_⟩
      intro index hindex
      apply wp_seq
      apply wp_readRequest
      intro request hrequest
      cases hreason : requestIneligibility model request with
      | some reason => exact fun hnone => absurd hnone (Option.some_ne_none _)
      | none =>
          apply wp_ok_mono ih
          intro reason _ hrest hnone other hother
          rcases List.mem_cons.mp hother with rfl | hother
          · intro item' index' request' hitem' hindex' hrequest'
            obtain rfl := Option.some.inj (hitem.symm.trans hitem')
            obtain rfl := Option.some.inj (hindex.symm.trans hindex')
            obtain rfl := Option.some.inj (hrequest.symm.trans hrequest')
            exact hreason
          · exact hrest hnone other hother

/-- What the selection of the device says of the requests of a plan. -/
theorem eligible_of_selected {reason : Option GpuGreedyIneligibility}
    {final : CudaBackend K ρ τ ℓ}
    (h : samplingSelectionForPlan model plan s = .ok (.gpuGreedy, reason) final) :
    ∀ slot ∈ plan.outputSlots, Eligible model plan s slot := by
  have hwp : wp (samplingSelectionForPlan model plan)
      (fun selection _ => selection.1 = .gpuGreedy →
        ∀ slot ∈ plan.outputSlots, Eligible model plan s slot) (fun _ _ => True) s := by
    unfold samplingSelectionForPlan
    apply wp_read
    simp only
    split
    · intro hgpu
      cases hgpu
    · apply wp_call (wp_ineligibilityFrom plan.outputSlots)
      · intro reason _ heligible hgpu
        cases reason with
        | none => exact heligible rfl
        | some reason => cases hgpu
      · exact fun _ _ _ => trivial
  exact (wp_elim hwp).1 _ _ h rfl

end Selection

section Plans

/-- What the device returned for a slot. -/
def Answered (model : CudaModel K ρ τ ℓ) (downloaded : DownloadedIteration)
    (vocabularySize slot : Nat) : Prop :=
  ∃ row tokenId, downloaded.logits slot = some row ∧
    downloaded.greedyToken slot = some tokenId ∧ Chosen model vocabularySize row tokenId

/-- No slot is sampled for a request that is over. -/
theorem fails_of_over (h : Over index s) (backend : SamplingBackend) :
    Fails (do
      let (tokenId, logprob) ← chooseToken model downloaded backend index slot
      advanceGrammar model index tokenId
      publishToken model index tokenId logprob) s := by
  apply fails_after (h.chooseToken backend)
  rintro ⟨tokenId, logprob⟩ s' h'
  apply fails_after h'.advanceGrammar
  intro _ s'' h''
  exact h''.publishToken logprob

variable [IsStrictOrderedRing K]

theorem paired_sampleSlot (hloaded : Loaded model fixed.tokens fixed.vocabularySize)
    (hlimits : Sharing.Limits fixed.tokens fixed.capacity fixed.reach)
    (hgraph : fixed.decodeGraph = model.decodeGraph) (hslot : slot ∈ fixed.plan.outputSlots)
    (hanswered : Answered model downloaded fixed.vocabularySize slot) (h : Agree fixed s t) :
    Paired (fun _ s' _ t' => Agree fixed s' t')
      (sampleSlot model fixed.plan downloaded .gpuGreedy slot)
      (sampleSlot model fixed.plan downloaded .cpuNormative slot) s t := by
  unfold sampleSlot
  apply Paired.bind (paired_requestOf hslot h)
  rintro _ s index t ⟨rfl, rfl, rfl, hplanned⟩
  obtain ⟨left, right, hleft, hright, hsame⟩ := h.planned hplanned
  obtain ⟨row, tokenId, hrow, htoken, hchosen⟩ := hanswered
  by_cases hfinish : left.state.finishReason = none
  · apply Paired.bind (paired_chooseToken hloaded hlimits hgraph h hplanned hleft hfinish hchosen
      htoken hrow)
    rintro ⟨tokenId, logprob⟩ s _ t ⟨rfl, h⟩
    apply Paired.bind (paired_advanceGrammar hloaded hlimits h tokenId)
    intro _ s _ t h
    exact paired_publishToken h hplanned tokenId logprob
  · have hover : Over index s := by
      intro request hrequest
      rw [Option.some.inj (hrequest.symm.trans hleft)]
      exact hfinish
    have hover' : Over index t := by
      intro request hrequest
      rw [Option.some.inj (hrequest.symm.trans hright), ← hsame.state]
      exact hfinish
    exact (fails_of_over hover .gpuGreedy).paired (fails_of_over hover' .cpuNormative)

/-- What the submissions and the iterations before have made sure of. -/
structure Sound (tokens : List (List UInt8)) (capacity reach : Nat)
    (backend : CudaBackend K ρ τ ℓ) : Prop where
  shared : Shared tokens capacity reach backend
  valid : ∀ request ∈ backend.requests,
    request.samplingParams.validate backend.sampling.vocabularySize = .ok ()
  vocabulary : ∀ request ∈ backend.requests,
    request.state.vocabularySize = backend.sampling.vocabularySize
  history : ∀ request ∈ backend.requests, ∀ id ∈ request.state.historyTokenIds,
    id < backend.sampling.vocabularySize

/-- The backend at the start of an iteration. -/
def CudaBackend.cleared (backend : CudaBackend K ρ τ ℓ) : CudaBackend K ρ τ ℓ :=
  { backend with samples := [], pendingTokens := [] }

omit [IsStrictOrderedRing K] in
/-- A backend agrees with itself where nothing keeps the plan from the device. -/
theorem Sound.agree {tokens : List (List UInt8)} {capacity reach : Nat} {plan : IterationPlan}
    (h : Sound tokens capacity reach s)
    (heligible : ∀ slot ∈ plan.outputSlots, Eligible model plan s slot) :
    Agree ⟨tokens, capacity, reach, model.decodeGraph, s.sampling.vocabularySize, plan,
      streamsOf s.requests⟩ s.cleared s.cleared where
  same :=
    { grammars := rfl
      sampling := rfl
      samples := rfl
      pendingTokens := rfl
      requests := List.forall₂_same.mpr fun request _ => SameRequest.refl request }
  leftShared := h.shared
  rightShared := h.shared
  size := rfl
  streams := rfl
  ready := by
    rintro index request ⟨slot, hslot, item, hitem, hindex⟩ hrequest
    have hmem := List.mem_of_getElem? hrequest
    have hfound := (requestIndexByScheduler_eq s.requests item.requestId).trans hindex
    obtain ⟨heager, hgreedy, hgate⟩ :=
      requestIneligibility_none (heligible slot hslot item index request hitem hfound hrequest)
    exact ⟨hgreedy, h.valid request hmem, heager, hgate, h.vocabulary request hmem,
      h.history request hmem⟩

/-- A plan that is selected for the device is sampled as the host would sample it. Either
both sides fail, or both hold the same samples, pending tokens and requests, up to the
places of the cursors in their automata, and no random stream has moved. -/
theorem sampleIteration_gpuGreedy {plan : IterationPlan} {tokens : List (List UInt8)}
    {capacity reach : Nat} {reason : Option GpuGreedyIneligibility}
    {selected backend : CudaBackend K ρ τ ℓ}
    (hloaded : Loaded model tokens backend.sampling.vocabularySize)
    (hlimits : Sharing.Limits tokens capacity reach) (hsound : Sound tokens capacity reach backend)
    (hselected : samplingSelectionForPlan model plan backend = .ok (.gpuGreedy, reason) selected)
    (hanswered : ∀ slot ∈ plan.outputSlots,
      Answered model downloaded backend.sampling.vocabularySize slot) :
    Paired (fun _ device _ host => SameBackend device host ∧
        streamsOf device.requests = streamsOf backend.requests ∧
        streamsOf host.requests = streamsOf backend.requests ∧
        Shared tokens capacity reach device ∧ Shared tokens capacity reach host)
      (sampleIteration model plan downloaded .gpuGreedy)
      (sampleIteration model plan downloaded .cpuNormative) backend backend := by
  have hagree := hsound.agree (eligible_of_selected hselected)
  have hclear : (modify CudaBackend.cleared : IterationM K ρ τ ℓ Unit) backend =
      .ok () backend.cleared := rfl
  unfold sampleIteration
  apply paired_left hclear
  apply paired_right hclear
  apply Paired.mono (paired_forEach _ hagree)
  · intro _ device _ host h
    exact ⟨h.same, h.streams, h.rightStreams, h.leftShared, h.rightShared⟩
  · intro slot hslot device host h
    exact paired_sampleSlot hloaded hlimits rfl hslot (hanswered slot hslot) h

end Plans

section Mixture

open Constraint (bracketed fourBytes limits_fourBytes)

def fourBytesModel : CudaModel ℚ Unit Unit Unit where
  endian := .little
  exp := id
  ln := id
  addressableTokens := 4
  eos := []
  tokenIndex := TokenIndex.new fourBytes
  gpuGreedy := true
  decodeGraph := false
  greedyCandidateCount := none
  nextU32 := pure 0
  decodeTokenBytes := fun tokenId decoder => .ok (fourBytes.getD tokenId [], decoder)
  tokenText := fun tokenId => fourBytes.getD tokenId []
  rawLogprobs := fun _ _ _ _ => ((), [])

def oneToken : GenerationState where
  request :=
    { requestId := [1]
      seed := 0
      promptTokenIds := [0]
      samplingParams := ⟨fun _ => .ok ()⟩
      minNewTokens := 0
      maxNewTokens := 2
      eosTokenIds := []
      stopTokenIds := []
      stopStrings := [] }
  vocabularySize := 4
  maximumDecodedTokenBytes := 2
  generatedTokenIds := []
  historyTokenIds := [0]
  maskedFinishTokenIds := []
  stopState := Generation.StopState.new [] 4
  finishReason := none
  failure := none

/-- A request that wants a log-probability. -/
def plainRequest : CudaRequest ℚ Unit Unit :=
  ⟨7, oneToken, ⟨.finite 0, none, none, .finite 1⟩, (), (), some 1, none⟩

/-- A request that follows a grammar. -/
def bracketedRequest : CudaRequest ℚ Unit Unit :=
  ⟨8, oneToken, ⟨.finite 0, none, none, .finite 1⟩, (), (), none,
    some ⟨0, (GrammarAutomaton.new bracketed).start.1⟩⟩

def mixedBackend : CudaBackend ℚ Unit Unit Unit where
  automata := [⟨bracketed, (GrammarAutomaton.new bracketed).start.2⟩]
  sampling :=
    { processedLogits := List.replicate 4 ⊥
      probabilities := List.replicate 4 0
      logProbabilities := List.replicate 4 ⊥
      candidateIds := List.replicate 4 0
      historySeen := List.replicate 4 false }
  requests := [plainRequest, bracketedRequest]
  samples := []
  pendingTokens := []

/-- The second of four tokens leads, where the grammar begins with no closing bracket. -/
def mixedRow : List UInt8 := [0x80, 0x3f, 0x00, 0x40, 0x00, 0x40, 0x00, 0x40]

def mixedDownload : DownloadedIteration := ⟨fun _ => some mixedRow, fun _ => some 1⟩

def mixedPlan : IterationPlan := ⟨[0, 1], [], [⟨7, some 0⟩, ⟨8, some 1⟩]⟩

theorem chosen_mixedRow : Chosen fourBytesModel 4 mixedRow 1 where
  length := rfl
  finite := List.all_eq_true.mp (by decide)
  leads := by
    unfold Leads Ranks
    decide +kernel

theorem eligible_plainRequest : requestIneligibility fourBytesModel plainRequest = none := by
  decide +kernel

theorem eligible_bracketedRequest :
    requestIneligibility fourBytesModel bracketedRequest = none := by
  decide +kernel

theorem sound_mixedBackend : Sound fourBytes 8 4096 mixedBackend where
  shared := by
    intro automaton g a ha
    cases automaton with
    | zero =>
        obtain ⟨rfl, ha⟩ := Sigma.mk.inj (Option.some.inj ha)
        obtain rfl := eq_of_heq ha
        exact ⟨_, Sharing.ok_new.start limits_fourBytes (by decide), rfl⟩
    | succ automaton => cases ha
  valid := by
    intro request hrequest
    rcases List.mem_pair.mp hrequest with rfl | rfl <;> decide +kernel
  vocabulary := by
    intro request hrequest
    rcases List.mem_pair.mp hrequest with rfl | rfl <;> rfl
  history := by
    intro request hrequest
    rcases List.mem_pair.mp hrequest with rfl | rfl <;> decide

theorem selected_mixedPlan :
    samplingSelectionForPlan fourBytesModel mixedPlan mixedBackend =
      .ok (.gpuGreedy, none) mixedBackend := by
  have hfrom : ineligibilityFrom fourBytesModel mixedPlan [0, 1] mixedBackend =
      .ok none mixedBackend := by
    have hfirst : requestOf mixedPlan 0 mixedBackend = .ok 0 mixedBackend := rfl
    have hsecond : requestOf mixedPlan 1 mixedBackend = .ok 1 mixedBackend := rfl
    have hleft : readRequest 0 mixedBackend = .ok plainRequest mixedBackend := rfl
    have hright : readRequest 1 mixedBackend = .ok bracketedRequest mixedBackend := rfl
    unfold ineligibilityFrom
    rw [seq_ok hfirst, seq_ok hleft, eligible_plainRequest]
    show ineligibilityFrom fourBytesModel mixedPlan [1] mixedBackend = _
    unfold ineligibilityFrom
    rw [seq_ok hsecond, seq_ok hright, eligible_bracketedRequest]
    rfl
  have hstatic : gpuGreedyIneligibility (K := ℚ) true true (.finite 0) (.finite 1) false =
      none := by
    decide +kernel
  have hvocabulary : fourBytesModel.addressableTokens = mixedBackend.sampling.vocabularySize :=
    rfl
  unfold samplingSelectionForPlan
  rw [seq_get, decide_eq_true (.inl hvocabulary), fourBytesModel, hstatic]
  exact seq_ok hfrom

/-- The choice of the device stands for the first request and is refused the second. -/
theorem sampleIteration_mixture :
    samplingSelectionForPlan fourBytesModel mixedPlan mixedBackend =
        .ok (.gpuGreedy, none) mixedBackend ∧
      Paired (fun _ device _ host => SameBackend device host ∧
          streamsOf device.requests = streamsOf mixedBackend.requests ∧
          streamsOf host.requests = streamsOf mixedBackend.requests ∧
          Shared fourBytes 8 4096 device ∧ Shared fourBytes 8 4096 host)
        (sampleIteration fourBytesModel mixedPlan mixedDownload .gpuGreedy)
        (sampleIteration fourBytesModel mixedPlan mixedDownload .cpuNormative) mixedBackend
        mixedBackend := by
  have hloaded : Loaded fourBytesModel fourBytes mixedBackend.sampling.vocabularySize :=
    ⟨rfl, rfl, Nat.le_refl 4, fun id hid => absurd hid List.not_mem_nil⟩
  have hanswered : ∀ slot ∈ mixedPlan.outputSlots,
      Answered fourBytesModel mixedDownload mixedBackend.sampling.vocabularySize slot :=
    fun slot _ => ⟨mixedRow, 1, rfl, rfl, chosen_mixedRow⟩
  exact ⟨selected_mixedPlan, sampleIteration_gpuGreedy hloaded limits_fourBytes
    sound_mixedBackend selected_mixedPlan hanswered⟩

end Mixture

end Riley.Server
