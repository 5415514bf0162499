import Riley.Generation.StopSpec
import Riley.Generation.State

/-!
Runs of a request against the search of the whole text. Stop strings count
from the byte where the tokens after the minimum begin.
-/

namespace Riley.Generation

open Outcome Search
open Utf8 (Text encode validUpTo)

/-- The offset of the first byte from which stop strings count. -/
def gateOffset (minNewTokens : Nat) (tokens : List Bytes) : Nat :=
  (tokens.take minNewTokens).flatten.length

/-- The stop state of a request that has accepted these tokens. -/
structure Streaming (tokens : List Bytes) (released : Text) (state : GenerationState) : Prop where
  stopStrings : state.stopState.stopStrings = state.request.stopStrings.map encode
  generated : state.generatedTokenIds.length = tokens.length
  text : state.stopState.text = released
  shows : Shows (gateOffset state.request.minNewTokens tokens) tokens.flatten state.stopState
  maximum : state.stopState.maximumOutputBytes =
    state.request.maxNewTokens * state.maximumDecodedTokenBytes
  bounded : state.stopState.maximumOutputBytes ≤ usizeMax
  unfinished : state.finishReason = none →
    Following (gateOffset state.request.minNewTokens tokens) tokens.flatten state.stopState ∧
      Withheld tokens.flatten state.stopState ∧
      tokens.length < state.request.maxNewTokens ∧
      tokens.flatten.length ≤ tokens.length * state.maximumDecodedTokenBytes

/-- The request goes on, the token is in the vocabulary, and its bytes are
given and within their bound when they are needed. -/
def Acceptable (tokenId : Nat) (decodedBytes : Option Bytes) (state : GenerationState) : Prop :=
  state.finishReason = none ∧ tokenId < state.vocabularySize ∧
    (state.isEos tokenId = false → state.isStopToken tokenId = false →
      ∃ bytes, decodedBytes = some bytes ∧ bytes.length ≤ state.maximumDecodedTokenBytes)

/-- What keeps a token of a request that goes on from being accepted. -/
inductive Fault (tokenId : Nat) (decodedBytes : Option Bytes) (state : GenerationState) :
    GenerationError → Prop
  | range (h : state.vocabularySize ≤ tokenId) :
      Fault tokenId decodedBytes state (.tokenOutOfRange "generated_token_ids"
        state.generatedTokenIds.length tokenId state.vocabularySize)
  | missing (hrange : tokenId < state.vocabularySize) (heos : state.isEos tokenId = false)
      (hstop : state.isStopToken tokenId = false) (h : decodedBytes = none) :
      Fault tokenId decodedBytes state (.decodedBytesRequired tokenId)
  | tooLong {bytes : Bytes} (hrange : tokenId < state.vocabularySize)
      (heos : state.isEos tokenId = false) (hstop : state.isStopToken tokenId = false)
      (h : decodedBytes = some bytes) (hlong : state.maximumDecodedTokenBytes < bytes.length) :
      Fault tokenId decodedBytes state
        (.decodedTokenTooLong tokenId bytes.length state.maximumDecodedTokenBytes)

/-- How a token is refused: by a request that is over, or by failing the request. -/
inductive Refused (tokenId : Nat) (decodedBytes : Option Bytes) (state : GenerationState) :
    GenerationError → GenerationState → Prop
  | ended {reason : FinishReason} (h : state.finishReason = some reason) :
      Refused tokenId decodedBytes state (.alreadyFinished reason) state
  | failed {error : GenerationError} (h : state.finishReason = none)
      (hfault : Fault tokenId decodedBytes state error) :
      Refused tokenId decodedBytes state error
        { state with finishReason := some .error, failure := some error }

section Gate

variable {minNewTokens : Nat} {tokens : List Bytes}

theorem gateOffset_closed (h : tokens.length ≤ minNewTokens) :
    gateOffset minNewTokens tokens = tokens.flatten.length := by
  unfold gateOffset
  rw [List.take_of_length_le h]

theorem gateOffset_open (h : minNewTokens ≤ tokens.length) (bytes : Bytes) :
    gateOffset minNewTokens (tokens ++ [bytes]) = gateOffset minNewTokens tokens := by
  unfold gateOffset
  rw [List.take_append_of_le_length h]

theorem flatten_snoc (bytes : Bytes) : (tokens ++ [bytes]).flatten = tokens.flatten ++ bytes := by
  rw [List.flatten_append, List.flatten_singleton]

end Gate

section Accepting

variable {tokens : List Bytes} {released : Text} {state : GenerationState}

/-- A call that fails leaves everything but the outcome of the request. -/
theorem Streaming.ended (h : Streaming tokens released state) {reason : FinishReason}
    {failure : Option GenerationError} :
    Streaming tokens released { state with finishReason := some reason, failure := failure } where
  stopStrings := h.stopStrings
  generated := h.generated
  text := h.text
  shows := h.shows
  maximum := h.maximum
  bounded := h.bounded
  unfinished := nofun

section Refusing

variable {tokenId : Nat} {decodedBytes : Option Bytes} {error : GenerationError}
  {now : GenerationState}

theorem Refused.request (h : Refused tokenId decodedBytes state error now) :
    now.request = state.request := by
  cases h <;> rfl

theorem Streaming.refused (h : Streaming tokens released state)
    (hrefused : Refused tokenId decodedBytes state error now) : Streaming tokens released now := by
  cases hrefused with
  | ended _ => exact h
  | failed _ _ => exact h.ended

theorem Refused.not_acceptable (h : Refused tokenId decodedBytes state error now) :
    ¬ Acceptable tokenId decodedBytes state := by
  rintro ⟨hnone, hrange, hbytes⟩
  cases h with
  | ended hfinish =>
      rw [hnone] at hfinish
      cases hfinish
  | failed _ hfault =>
      cases hfault with
      | range hout => exact Nat.not_lt.mpr hout hrange
      | missing _ heos hstop hmissing =>
          obtain ⟨bytes, hsome, _⟩ := hbytes heos hstop
          rw [hmissing] at hsome
          cases hsome
      | tooLong _ heos hstop hsome hlong =>
          obtain ⟨bytes, hsome', hshort⟩ := hbytes heos hstop
          rw [hsome] at hsome'
          cases hsome'
          exact Nat.not_lt.mpr hshort hlong

end Refusing

section Failing

variable {α : Type} {ok : α → GenerationState → Prop} {err : GenerationError → GenerationState → Prop}

theorem wp_fail {error : GenerationError}
    (h : err error { state with finishReason := some .error, failure := some error }) :
    wp (fail error) ok err state := h

theorem wp_onStopState {action : StopM α}
    (h : wp action (fun a stopState => ok a { state with stopState := stopState })
      (fun _ _ => False) state.stopState) : wp (onStopState action) ok err state := by
  unfold onStopState
  apply wp_seq
  rw [wp_attempt, wp_zoom]
  apply wp_mono h
  · exact fun _ _ hok => hok
  · exact fun _ _ hfalse => hfalse.elim

/-- The checks of a token, with what they leave to do for a visible and for a
hidden one. -/
theorem wp_visibleBytes {tokenId : Nat} {decodedBytes : Option Bytes}
    {next : Bytes → GenerationM α} (hrange : tokenId < state.vocabularySize)
    (hhidden : state.isEos tokenId = true ∨ state.isStopToken tokenId = true →
      wp (next []) ok err state)
    (hvisible : ∀ bytes, state.isEos tokenId = false → state.isStopToken tokenId = false →
      decodedBytes = some bytes → bytes.length ≤ state.maximumDecodedTokenBytes →
      wp (next bytes) ok err state)
    (hfail : ∀ error, Fault tokenId decodedBytes state error →
      err error { state with finishReason := some .error, failure := some error }) :
    wp (visibleBytes tokenId decodedBytes >>= next) ok err state := by
  apply wp_seq
  unfold visibleBytes
  apply wp_read
  apply wp_ite
  · intro hhide
    exact hhidden (Bool.or_eq_true_iff.mp hhide)
  · intro hshow
    obtain ⟨heos, hstop⟩ := Bool.or_eq_false_iff.mp (Bool.eq_false_iff.mpr hshow)
    cases decodedBytes with
    | none => exact wp_fail (hfail _ (.missing hrange heos hstop rfl))
    | some bytes =>
        apply wp_ite
        · exact fun hlong => wp_fail (hfail _ (.tooLong hrange heos hstop rfl hlong))
        · exact fun hshort => hvisible bytes heos hstop rfl (Nat.le_of_not_lt hshort)

end Failing

/-- A token whose bytes were pushed. -/
theorem Streaming.pushed {bytes : Bytes} {matched : Bool} {now : StopState} {tokenId : Nat}
    (h : Streaming tokens released state) (hnone : state.finishReason = none)
    (hbytes : bytes.length ≤ state.maximumDecodedTokenBytes)
    (hpushed : Processed (gateOffset state.request.minNewTokens (tokens ++ [bytes]))
      (tokens.flatten ++ bytes)
      (decide (state.generatedTokenIds.length + 1 = state.request.maxNewTokens))
      state.stopState matched now) {reason : Option FinishReason}
    (hreason : reason = none → matched = false ∧
      state.generatedTokenIds.length + 1 ≠ state.request.maxNewTokens) :
    Streaming (tokens ++ [bytes]) (released ++ now.lastDelta)
      { state with
        stopState := now
        finishReason := reason
        generatedTokenIds := state.generatedTokenIds ++ [tokenId]
        historyTokenIds := state.historyTokenIds ++ [tokenId] } where
  stopStrings := hpushed.stopStrings.trans h.stopStrings
  generated := by
    rw [List.length_append, List.length_append, h.generated]
    rfl
  text := by
    rw [← h.text]
    exact hpushed.delta
  shows := by
    rw [flatten_snoc]
    exact hpushed.shows
  maximum := hpushed.maximum.trans h.maximum
  bounded := by
    rw [hpushed.maximum]
    exact h.bounded
  unfinished := by
    intro hfinish
    obtain ⟨hmatched, hlength⟩ := hreason hfinish
    obtain ⟨hfollowing, hwithheld⟩ := hpushed.following hmatched (decide_eq_false hlength)
    obtain ⟨_, _, hcount, hsize⟩ := h.unfinished hnone
    have hgenerated := h.generated
    rw [flatten_snoc, List.length_append, List.length_append, List.length_singleton, Nat.add_mul,
      Nat.one_mul]
    exact ⟨hfollowing, hwithheld, by dsimp only; omega, Nat.add_le_add hsize hbytes⟩

theorem wp_pushVisible {bytes : Bytes} {ok : Unit → GenerationState → Prop}
    {err : GenerationError → GenerationState → Prop} (h : Streaming tokens released state)
    (hnone : state.finishReason = none) (hbytes : bytes.length ≤ state.maximumDecodedTokenBytes)
    (hok : ∀ matched now reason,
      Processed (gateOffset state.request.minNewTokens (tokens ++ [bytes]))
        (tokens.flatten ++ bytes)
        (decide (state.generatedTokenIds.length + 1 = state.request.maxNewTokens))
        state.stopState matched now →
      (reason = none → matched = false ∧
        state.generatedTokenIds.length + 1 ≠ state.request.maxNewTokens) →
      ok () { state with stopState := now, finishReason := reason }) :
    wp (pushVisible bytes) ok err state := by
  obtain ⟨hfollowing, _, hcount, hsize⟩ := h.unfinished hnone
  have hfits : (encode state.stopState.text).length + state.stopState.pending.length +
      bytes.length ≤ state.stopState.maximumOutputBytes := by
    rw [← List.length_append, hfollowing.split, h.maximum]
    calc tokens.flatten.length + bytes.length
        ≤ tokens.length * state.maximumDecodedTokenBytes + state.maximumDecodedTokenBytes :=
          Nat.add_le_add hsize hbytes
      _ = (tokens.length + 1) * state.maximumDecodedTokenBytes := (Nat.succ_mul _ _).symm
      _ ≤ state.request.maxNewTokens * state.maximumDecodedTokenBytes :=
          Nat.mul_le_mul_right _ hcount
  have hpush : wp (push bytes state.stopConditionsEnabled
      (decide (state.generatedTokenIds.length + 1 = state.request.maxNewTokens)))
      (Processed (gateOffset state.request.minNewTokens (tokens ++ [bytes]))
        (tokens.flatten ++ bytes)
        (decide (state.generatedTokenIds.length + 1 = state.request.maxNewTokens))
        state.stopState) (fun _ _ => False) state.stopState := by
    cases henabled : state.stopConditionsEnabled with
    | true =>
        have hopen : state.request.minNewTokens ≤ tokens.length := by
          rw [← h.generated]
          exact of_decide_eq_true henabled
        rw [gateOffset_open hopen]
        exact wp_push_open hfollowing hfits h.bounded
    | false =>
        have hclosed : tokens.length < state.request.minNewTokens := by
          rw [← h.generated]
          exact Nat.lt_of_not_le (of_decide_eq_false henabled)
        rw [gateOffset_closed (Nat.le_of_lt hclosed)] at hfollowing
        rw [gateOffset_closed (by rw [List.length_append]; exact hclosed), flatten_snoc]
        exact wp_push_closed hfollowing hfits h.bounded
  unfold pushVisible
  apply wp_read
  apply wp_seq
  apply wp_onStopState
  apply wp_mono hpush
  · intro matched now hpushed
    cases matched with
    | true =>
        rw [if_pos rfl, wp_modify]
        exact hok true now _ hpushed nofun
    | false =>
        rw [if_neg Bool.false_ne_true, wp_runIf]
        constructor
        · intro hlength
          exact hok false now _ hpushed nofun
        · intro hlength
          have hkept := hok false now none hpushed fun _ => ⟨rfl, hlength⟩
          rw [← hnone] at hkept
          exact hkept
  · exact fun _ _ hfalse => hfalse

/-- A request that ended between tokens has shown its withheld text. -/
theorem Streaming.flushed {lead : Text} {rest : Bytes} (h : Streaming tokens released state)
    (hnone : state.finishReason = none) (hpending : state.stopState.pending = encode lead ++ rest)
    (reason : FinishReason) :
    Streaming tokens (released ++ lead)
      { state with
        stopState := { state.stopState with lastDelta := [] }.emitted lead rest
        finishReason := some reason } where
  stopStrings := h.stopStrings
  generated := h.generated
  text := congrArg (· ++ lead) h.text
  shows := by
    obtain ⟨hfollowing, _⟩ := h.unfinished hnone
    have hcleared : Following (gateOffset state.request.minNewTokens tokens) tokens.flatten
        { state.stopState with lastDelta := [] } :=
      ⟨⟨hfollowing.texts, hfollowing.split, hfollowing.start, hfollowing.unmatched,
        hfollowing.behind, hfollowing.safe⟩, hfollowing.absent⟩
    exact hcleared.finished hpending
  maximum := h.maximum
  bounded := h.bounded
  unfinished := nofun

/-- A hidden token adds no bytes. -/
theorem Streaming.hidden (h : Streaming tokens released state) (hfinish : state.finishReason ≠ none)
    (hopen : state.request.minNewTokens ≤ tokens.length) (tokenId : Nat) :
    Streaming (tokens ++ [[]]) released
      { state with
        generatedTokenIds := state.generatedTokenIds ++ [tokenId]
        historyTokenIds := state.historyTokenIds ++ [tokenId] } where
  stopStrings := h.stopStrings
  generated := by
    rw [List.length_append, List.length_append, h.generated]
    rfl
  text := h.text
  shows := by
    rw [flatten_snoc, List.append_nil, gateOffset_open hopen]
    exact h.shows
  maximum := h.maximum
  bounded := h.bounded
  unfinished := fun hnone => absurd hnone hfinish

theorem wp_flush {ok : Unit → GenerationState → Prop}
    {err : GenerationError → GenerationState → Prop}
    (hok : ∀ lead rest, state.stopState.pending = encode lead ++ rest →
      ok () { state with stopState := { state.stopState with lastDelta := [] }.emitted lead rest }) :
    wp (onStopState do clearDelta; finishPending) ok err state := by
  apply wp_onStopState
  apply wp_write
  apply wp_finishPending
  exact hok

theorem enabled_of_hidden {tokenId : Nat}
    (h : state.isEos tokenId = true ∨ state.isStopToken tokenId = true) :
    state.request.minNewTokens ≤ state.generatedTokenIds.length := by
  unfold GenerationState.isEos GenerationState.isStopToken GenerationState.stopConditionsEnabled at h
  simp only [Bool.and_eq_true, decide_eq_true_eq] at h
  tauto

/-- An accepted token extends the run by its bytes and its text. -/
theorem wp_acceptToken (h : Streaming tokens released state) (tokenId : Nat)
    (decodedBytes : Option Bytes) :
    wp (acceptToken tokenId decodedBytes)
      (fun token now => now.request = state.request ∧
        Streaming (tokens ++ [state.addedBytes tokenId decodedBytes])
          (released ++ token.textDelta) now)
      (Refused tokenId decodedBytes state) state := by
  unfold acceptToken preStep
  apply wp_seq
  apply wp_read
  cases hfinish : state.finishReason with
  | some reason => exact .ended hfinish
  | none =>
      rw [wp_pure]
      apply wp_seq
      unfold validateGeneratedToken
      apply wp_read
      apply wp_ite
      · intro hrange
        rw [wp_pure]
        apply wp_read
        apply wp_visibleBytes hrange
        · intro hhide
          have hopen := enabled_of_hidden hhide
          rw [h.generated] at hopen
          have hadded : state.addedBytes tokenId decodedBytes = [] :=
            if_pos (Bool.or_eq_true_iff.mpr hhide)
          rw [if_pos (Bool.or_eq_true_iff.mpr hhide)]
          apply wp_seq
          unfold finishHidden
          apply wp_seq
          apply wp_flush
          intro lead rest hpending
          rw [wp_modify]
          apply wp_write
          apply wp_read
          rw [wp_pure, hadded]
          exact ⟨rfl, (h.flushed hfinish hpending _).hidden nofun hopen tokenId⟩
        · intro bytes heos hstop hsome hbytes
          have hshow : ¬ (state.isEos tokenId || state.isStopToken tokenId) = true := by
            rw [heos, hstop]
            exact Bool.false_ne_true
          have hadded : state.addedBytes tokenId decodedBytes = bytes := by
            rw [GenerationState.addedBytes, if_neg hshow, hsome]
            rfl
          rw [if_neg hshow]
          apply wp_seq
          apply wp_pushVisible h hfinish hbytes
          intro matched now reason hpushed hreason
          apply wp_write
          apply wp_read
          rw [wp_pure, hadded]
          exact ⟨rfl, h.pushed hfinish hbytes hpushed hreason⟩
        · exact fun error hfault => .failed hfinish hfault
      · exact fun hrange => .failed hfinish (.range (Nat.le_of_not_lt hrange))

theorem wp_cancel (h : Streaming tokens released state) :
    wp cancel
      (fun delta now => now.request = state.request ∧ Streaming tokens (released ++ delta) now)
      (fun _ now => now.request = state.request ∧ Streaming tokens released now) state := by
  unfold cancel preStep
  apply wp_seq
  apply wp_read
  cases hfinish : state.finishReason with
  | some reason => exact ⟨rfl, h⟩
  | none =>
      rw [wp_pure]
      apply wp_seq
      apply wp_flush
      intro lead rest hpending
      apply wp_write
      apply wp_read
      rw [wp_pure]
      exact ⟨rfl, h.flushed hfinish hpending _⟩

theorem wp_markFailed (h : Streaming tokens released state) :
    wp markFailed
      (fun _ now => now.request = state.request ∧ Streaming tokens released now)
      (fun _ _ => False) state := by
  unfold markFailed
  apply wp_read
  apply wp_ite
  · exact fun _ => ⟨rfl, h⟩
  · exact fun _ => ⟨rfl, h.ended⟩

end Accepting

section Runs

variable {request : GenerationRequest} {vocabularySize maximumDecodedTokenBytes : Nat}
  {first state : GenerationState} {exchanges : List Exchange}

theorem acceptedBytes_append (past next : List Exchange) :
    acceptedBytes (past ++ next) = acceptedBytes past ++ acceptedBytes next :=
  List.filterMap_append

theorem releasedText_append (past next : List Exchange) :
    releasedText (past ++ next) = releasedText past ++ releasedText next :=
  List.flatMap_append

/-- A request and what its run has exchanged. -/
def InRun (request : GenerationRequest) (exchanges : List Exchange) (state : GenerationState) :
    Prop :=
  state.request = request ∧
    Streaming (acceptedBytes exchanges) (releasedText exchanges) state

theorem InRun.step {past next : List Exchange} {state now : GenerationState}
    (h : InRun request past state) (hstep : Step state next now) :
    InRun request (past ++ next) now := by
  obtain ⟨rfl, hstream⟩ := h
  unfold InRun
  rw [acceptedBytes_append, releasedText_append]
  cases hstep with
  | accepted hrun =>
      have htoken := (wp_elim (wp_acceptToken hstream _ _)).1 _ _ hrun
      simpa [acceptedBytes, releasedText] using htoken
  | refused hrun =>
      have hrefused := (wp_elim (wp_acceptToken hstream _ _)).2 _ _ hrun
      simpa [acceptedBytes, releasedText] using
        And.intro hrefused.request (hstream.refused hrefused)
  | cancelled hrun =>
      have hcancelled := (wp_elim (wp_cancel hstream)).1 _ _ hrun
      simpa [acceptedBytes, releasedText] using hcancelled
  | kept hrun =>
      have hkept := (wp_elim (wp_cancel hstream)).2 _ _ hrun
      simpa [acceptedBytes, releasedText] using hkept
  | failed hrun =>
      have hfailed := (wp_elim (wp_markFailed hstream)).1 _ _ hrun
      simpa [acceptedBytes, releasedText] using hfailed

theorem orOverflow_eq_ok {value : Option Nat} {field : String} {total : Nat} :
    orOverflow value field = .ok total ↔ value = some total := by
  unfold orOverflow
  cases value <;> simp

theorem stopStrings_of_valid
    (h : request.validate vocabularySize = .ok ()) : [] ∉ request.stopStrings := by
  unfold GenerationRequest.validate at h
  obtain ⟨_, _, h⟩ := except_bind_eq_ok.mp h
  obtain ⟨_, _, h⟩ := except_bind_eq_ok.mp h
  obtain ⟨_, _, h⟩ := except_bind_eq_ok.mp h
  obtain ⟨_, _, h⟩ := except_bind_eq_ok.mp h
  obtain ⟨_, hstops, _⟩ := except_bind_eq_ok.mp h
  unfold invalidIf at hstops
  intro hmem
  rw [if_pos hmem] at hstops
  cases hstops

/-- A new request has exchanged nothing. -/
theorem InRun.new
    (h : GenerationState.new request vocabularySize maximumDecodedTokenBytes = .ok first) :
    InRun request [] first ∧ [] ∉ request.stopStrings := by
  unfold GenerationState.new at h
  obtain ⟨_, hvalid, h⟩ := except_bind_eq_ok.mp h
  obtain ⟨_, _, h⟩ := except_bind_eq_ok.mp h
  obtain ⟨_, _, h⟩ := except_bind_eq_ok.mp h
  obtain ⟨maximum, hmaximum, h⟩ := except_bind_eq_ok.mp h
  obtain ⟨_, _, h⟩ := except_bind_eq_ok.mp h
  obtain ⟨_, _, h⟩ := except_bind_eq_ok.mp h
  have hstops := stopStrings_of_valid hvalid
  obtain ⟨hproduct, hbound⟩ := checkedMul_eq_some.mp (orOverflow_eq_ok.mp hmaximum)
  cases h
  refine ⟨⟨rfl, ?_⟩, hstops⟩
  have hfollowing : Following 0 [] (StopState.new request.stopStrings maximum) := by
    have hnonempty : ∀ pattern ∈ request.stopStrings.map encode, ∃ stop, stop ≠ [] ∧
        pattern = encode stop := by
      intro pattern hpattern
      obtain ⟨stop, hmem, rfl⟩ := List.mem_map.mp hpattern
      exact ⟨stop, fun hnil => hstops (hnil ▸ hmem), rfl⟩
    have habsent : ∀ m, ¬ Occurs (request.stopStrings.map encode) 0 [] m := by
      apply not_occurs_end _ []
      intro pattern hpattern hnil
      obtain ⟨stop, hstop, rfl⟩ := hnonempty pattern hpattern
      exact hstop (Utf8.encode_eq_nil.mp hnil)
    apply Following.mk
    · apply Searching.mk hnonempty
      · rfl
      · rfl
      · rfl
      · exact fun m hm => absurd hm (habsent m)
      · exact fun place _ hlt => absurd hlt (Nat.not_lt_zero place)
    · exact habsent
  have hgate : gateOffset request.minNewTokens [] = 0 := by
    rw [gateOffset, List.take_nil]
    rfl
  apply Streaming.mk
  · rfl
  · rfl
  · rfl
  · simpa [acceptedBytes, hgate] using hfollowing.shows
  · exact hproduct.symm
  · rwa [← hproduct]
  · intro hnone
    refine ⟨by simpa [acceptedBytes, hgate] using hfollowing, Or.inr ?_, ?_, Nat.zero_le _⟩
    · rfl
    · apply Nat.pos_of_ne_zero
      intro hzero
      rw [if_pos hzero] at hnone
      cases hnone

theorem InRun.of_run
    (h : GenerationState.new request vocabularySize maximumDecodedTokenBytes = .ok first)
    (hrun : Trace.Run Step first exchanges state) : InRun request exchanges state :=
  hrun.extends (InRun request) (fun _ _ _ _ hstep hpast => hpast.step hstep) (InRun.new h).1

/-- Whatever the tokens, the text released and the bytes withheld are what the
search of the whole text leaves before the first stop string. -/
theorem stream_eq_reference
    (h : GenerationState.new request vocabularySize maximumDecodedTokenBytes = .ok first)
    (hrun : Trace.Run Step first exchanges state) :
    let patterns := request.stopStrings.map encode
    let gate := gateOffset request.minNewTokens (acceptedBytes exchanges)
    let whole := (acceptedBytes exchanges).flatten
    encode (releasedText exchanges) ++ state.stopState.pending = upToMatch patterns gate whole ∧
    state.stopState.text = releasedText exchanges ∧
    state.stopState.matchedStopStringIndex = (firstMatch patterns gate whole).map (·.index) ∧
    (∀ found, firstMatch patterns gate whole = some found →
      state.finishReason ≠ none ∧
      (encode (releasedText exchanges)).length ≤ found.start ∧
      ∀ more, firstMatch patterns gate (whole ++ more) = some found) ∧
    (state.finishReason = none →
      (∃ pattern ∈ patterns, state.stopState.pending <+: pattern ∧
        state.stopState.pending ≠ pattern) ∨
      (encode (releasedText exchanges)).length = validUpTo whole) ∧
    ∀ tokenId decodedBytes, Acceptable tokenId decodedBytes state →
      ∃ token now, acceptToken tokenId decodedBytes state = .ok token now := by
  obtain ⟨hrequest, hstream⟩ := InRun.of_run h hrun
  have hstops := (InRun.new h).2
  have hpatterns : ∀ pattern ∈ request.stopStrings.map encode, pattern ≠ [] := by
    intro pattern hpattern hnil
    obtain ⟨stop, hmem, rfl⟩ := List.mem_map.mp hpattern
    exact hstops (Utf8.encode_eq_nil.mp hnil ▸ hmem)
  have hstrings := hstream.stopStrings
  rw [hrequest] at hstrings
  have hshows := hstream.shows
  have hunfinished := hstream.unfinished
  rw [hrequest] at hshows hunfinished
  have hsplit := hshows.split
  rw [hstrings, hstream.text] at hsplit
  refine ⟨hsplit, hstream.text, hstrings ▸ hshows.matched, ?_, ?_, ?_⟩
  · intro found hfound
    refine ⟨?_, ?_, firstMatch_append hpatterns hfound⟩
    · intro hnone
      obtain ⟨hfollowing, _⟩ := hunfinished hnone
      rw [← hstrings] at hfound
      exact hfollowing.absent found ((firstMatch_firstOf hfollowing.nonempty _ _).found found hfound)
    · have hlength := congrArg List.length hsplit
      unfold upToMatch at hlength
      rw [hfound, List.length_append, List.length_take] at hlength
      omega
  · intro hnone
    obtain ⟨hfollowing, hwithheld, _⟩ := hunfinished hnone
    unfold Withheld at hwithheld
    have hwhole := hfollowing.split
    rw [hstrings, hstream.text] at hwithheld
    rw [hstream.text] at hwhole
    apply hwithheld.imp_left
    rintro ⟨pattern, hpattern, hbegins, hne⟩
    rw [← hwhole, List.drop_left] at hbegins hne
    exact ⟨pattern, hpattern, hbegins, hne⟩
  · intro tokenId decodedBytes hacceptable
    have haccept := wp_acceptToken hstream tokenId decodedBytes
    obtain ⟨token, now, hok, _⟩ := wp_ok_iff.mp
      (wp_mono haccept (fun _ _ hok => hok) fun _ _ herr => herr.not_acceptable hacceptable)
    exact ⟨token, now, hok⟩

/-- A request that stops at `b`. -/
def stopRequest : GenerationRequest where
  requestId := [1]
  seed := 0
  promptTokenIds := [0]
  samplingParams := { validate := fun _ => .ok () }
  minNewTokens := 0
  maxNewTokens := 2
  eosTokenIds := []
  stopTokenIds := []
  stopStrings := [['b']]

def stopStart : GenerationState where
  request := stopRequest
  vocabularySize := 4
  maximumDecodedTokenBytes := 2
  generatedTokenIds := []
  historyTokenIds := [0]
  maskedFinishTokenIds := []
  stopState := StopState.new [['b']] 4
  finishReason := none
  failure := none

def stopReached : GenerationState :=
  { stopStart with
    generatedTokenIds := [1]
    historyTokenIds := [0, 1]
    stopState :=
      { stopStart.stopState with
        text := ['a']
        lastDelta := ['a']
        matchedStopStringIndex := some 0 }
    finishReason := some .stopString }

theorem stopReached_of_bytes :
    acceptToken 1 (some [97, 98]) stopStart = .ok ⟨1, ['a'], some .stopString⟩ stopReached := by
  rfl

theorem stop_at_reference :
    encode ['a'] ++ stopReached.stopState.pending =
      upToMatch [encode ['b']] 0 [97, 98] := by
  have hstart : GenerationState.new stopRequest 4 2 = .ok stopStart := by
    rfl
  have hstep := Step.accepted stopReached_of_bytes
  exact (stream_eq_reference hstart (Trace.Run.single hstep)).1

end Runs

end Riley.Generation
