import Riley.Generation.StreamSpec

/-!
What a refused token leaves behind: a request that goes on fails for good, with
its tokens and its text as they were, and a request that is over stays as it is.
-/

namespace Riley.Generation

open Outcome Search
open Utf8 (Text encode fromUtf8)

/-- A request that is over refuses every token and cannot be cancelled. -/
structure Refuses (reason : FinishReason) (state : GenerationState) : Prop where
  accept : ∀ tokenId decodedBytes,
    acceptToken tokenId decodedBytes state = .error (.alreadyFinished reason) state
  cancel : cancel state = .error (.alreadyFinished reason) state

section Over

variable {state now final : GenerationState} {exchanges : List Exchange}

/-- A call whose one outcome is known. -/
theorem call_eq_error {α : Type} {call : GenerationM α} {error : GenerationError}
    (h : wp call (fun _ _ => False) (fun error' now' => error' = error ∧ now' = now) state) :
    call state = .error error now := by
  cases hcall : call state with
  | ok value now' => exact ((wp_elim h).1 _ _ hcall).elim
  | error error' now' =>
      obtain ⟨rfl, rfl⟩ := (wp_elim h).2 _ _ hcall
      rfl

theorem refuses_of_finished {reason : FinishReason} (h : state.finishReason = some reason) :
    Refuses reason state where
  accept tokenId decodedBytes := by
    apply call_eq_error
    unfold acceptToken preStep
    apply wp_seq
    apply wp_read
    rw [h]
    exact ⟨rfl, rfl⟩
  cancel := by
    apply call_eq_error
    unfold Generation.cancel preStep
    apply wp_seq
    apply wp_read
    rw [h]
    exact ⟨rfl, rfl⟩

theorem markFailed_of_failed (h : state.finishReason = some .error) :
    markFailed state = .ok false state := by
  obtain ⟨changed, now, hcall, rfl, rfl⟩ : ∃ changed now,
      markFailed state = .ok changed now ∧ changed = false ∧ now = state := by
    apply wp_ok_iff.mp
    unfold markFailed
    apply wp_read
    rw [if_pos h]
    exact ⟨rfl, rfl⟩
  exact hcall

/-- A call on a failed request exchanges nothing and changes nothing. -/
theorem Step.of_failed (h : state.finishReason = some .error)
    (hstep : Step state exchanges now) : now = state ∧ exchanges = [] := by
  have hrefuses := refuses_of_finished h
  cases hstep with
  | accepted hcall =>
      rw [hrefuses.accept] at hcall
      cases hcall
  | refused hcall =>
      rw [hrefuses.accept] at hcall
      cases hcall
      exact ⟨rfl, rfl⟩
  | cancelled hcall =>
      rw [hrefuses.cancel] at hcall
      cases hcall
  | kept hcall =>
      rw [hrefuses.cancel] at hcall
      cases hcall
      exact ⟨rfl, rfl⟩
  | failed hcall =>
      rw [markFailed_of_failed h] at hcall
      cases hcall
      exact ⟨rfl, rfl⟩

theorem run_of_failed (h : state.finishReason = some .error)
    (hrun : Trace.Run Step state exchanges final) : final = state ∧ exchanges = [] := by
  induction hrun with
  | refl => exact ⟨rfl, rfl⟩
  | cons hstep _ ih =>
      obtain ⟨rfl, rfl⟩ := hstep.of_failed h
      exact ih h

end Over

section Claim

variable {request : GenerationRequest} {vocabularySize maximumDecodedTokenBytes : Nat}
  {first state : GenerationState} {exchanges : List Exchange}

/-- Text released and bytes withheld are what the tokens have added, up to a stop
string. -/
theorem released_prefix
    (h : GenerationState.new request vocabularySize maximumDecodedTokenBytes = .ok first)
    (hrun : Trace.Run Step first exchanges state) :
    encode state.stopState.text <+: (acceptedBytes exchanges).flatten := by
  obtain ⟨hsplit, htext, _⟩ := stream_eq_reference h hrun
  rw [htext]
  apply (List.prefix_append _ state.stopState.pending).trans
  rw [hsplit]
  unfold upToMatch
  split
  · exact List.take_prefix _ _
  · exact List.prefix_refl _

/-- After any calls on a new request, a refused token leaves tokens, history, text and
withheld bytes as they were. The first refusal that is not for being over fails the
request for good. -/
theorem acceptToken_transactional
    (h : GenerationState.new request vocabularySize maximumDecodedTokenBytes = .ok first)
    (hrun : Trace.Run Step first exchanges state) (tokenId : Nat) (decodedBytes : Option Bytes) :
    fromUtf8 (encode state.stopState.text) = .ok state.stopState.text ∧
    encode state.stopState.text <+: (acceptedBytes exchanges).flatten ∧
    ∀ error now, acceptToken tokenId decodedBytes state = .error error now →
      (∀ maximum requested, error ≠ .outputCapacityExceeded maximum requested) ∧
      (∀ field, error ≠ .arithmeticOverflow field) ∧
      (∀ validUpTo, error ≠ .invalidUtf8 validUpTo) ∧
      now.generatedTokenIds = state.generatedTokenIds ∧
      now.historyTokenIds = state.historyTokenIds ∧
      now.stopState.text = state.stopState.text ∧
      now.stopState.pending = state.stopState.pending ∧
      (state.finishReason = none →
        now.finishReason = some .error ∧ now.failure = some error ∧ Refuses .error now ∧
        ∀ later final, Trace.Run Step now later final → final = now ∧ later = []) ∧
      ∀ reason, state.finishReason = some reason →
        error = .alreadyFinished reason ∧ now = state ∧ Refuses reason now := by
  obtain ⟨_, hstream⟩ := InRun.of_run h hrun
  refine ⟨Utf8.fromUtf8_encode _, released_prefix h hrun, ?_⟩
  intro error now hcall
  have hrefused := (wp_elim (wp_acceptToken hstream tokenId decodedBytes)).2 _ _ hcall
  cases hrefused with
  | ended hfinish =>
      refine ⟨nofun, nofun, nofun, rfl, rfl, rfl, rfl, ?_, ?_⟩
      · intro hnone
        rw [hfinish] at hnone
        cases hnone
      · intro reason' hreason
        rw [hfinish] at hreason
        cases hreason
        exact ⟨rfl, rfl, refuses_of_finished hfinish⟩
  | failed hnone hfault =>
      refine ⟨?_, ?_, ?_, rfl, rfl, rfl, rfl, ?_, ?_⟩
      · rintro _ _ rfl
        cases hfault
      · rintro _ rfl
        cases hfault
      · rintro _ rfl
        cases hfault
      · intro _
        exact ⟨rfl, rfl, refuses_of_finished rfl,
          fun later final hlater => run_of_failed rfl hlater⟩
      · intro reason hfinish
        rw [hnone] at hfinish
        cases hfinish

theorem acceptToken_transactional_range :
    ∃ error now, acceptToken 9 none stopStart = .error error now ∧
      now.stopState = stopStart.stopState ∧ Refuses .error now := by
  have hstart : GenerationState.new stopRequest 4 2 = .ok stopStart := by
    rfl
  obtain ⟨_, _, hrefused⟩ := acceptToken_transactional hstart (Trace.Run.refl stopStart) 9 none
  have hcall : acceptToken 9 none stopStart =
      .error (.tokenOutOfRange "generated_token_ids" 0 9 4)
        { stopStart with
          finishReason := some .error
          failure := some (.tokenOutOfRange "generated_token_ids" 0 9 4) } := by
    rfl
  obtain ⟨_, _, hrefuses, _⟩ := (hrefused _ _ hcall).2.2.2.2.2.2.2.1 rfl
  exact ⟨_, _, hcall, rfl, hrefuses⟩

/-- A request that asks for no tokens is over at once: it refuses a token and keeps
its reason, which is not a failure. -/
theorem acceptToken_over_unfailed :
    ∃ first error now,
      GenerationState.new { stopRequest with maxNewTokens := 0 } 4 2 = .ok first ∧
      acceptToken 1 (some []) first = .error error now ∧ now.finishReason = some .length := by
  refine ⟨{ stopStart with
    request := { stopRequest with maxNewTokens := 0 }
    stopState := StopState.new [['b']] 0
    finishReason := some .length }, _, _, rfl, rfl, rfl⟩

end Claim

section Growth

variable {state : GenerationState}

/-- Whatever becomes of the stop state, the rest of the request stays. -/
theorem wp_onStopState_frame {α : Type} (action : StopM α) :
    wp (onStopState action) (fun _ now => ∃ stopState, now = { state with stopState := stopState })
      (fun _ _ => True) state := by
  unfold onStopState
  apply wp_seq
  rw [wp_attempt, wp_zoom]
  apply wp_any
  · exact fun _ stopState => ⟨stopState, rfl⟩
  · exact fun _ _ => trivial

theorem wp_visibleBytes_frame (tokenId : Nat) (decodedBytes : Option Bytes) :
    wp (visibleBytes tokenId decodedBytes) (fun _ now => now = state) (fun _ _ => True) state := by
  unfold visibleBytes
  apply wp_read
  apply wp_ite
  · exact fun _ => rfl
  · intro _
    cases decodedBytes with
    | none => trivial
    | some bytes =>
        apply wp_ite
        · exact fun _ => trivial
        · exact fun _ => rfl

/-- What ends a token leaves: the stop state and the reason to finish. -/
def Settled (state now : GenerationState) : Prop :=
  ∃ stopState reason, now = { state with stopState := stopState, finishReason := reason }

theorem wp_finishHidden_frame (isEos : Bool) :
    wp (finishHidden isEos) (fun _ now => Settled state now) (fun _ _ => True) state := by
  unfold finishHidden
  apply wp_call (wp_onStopState_frame _)
  · rintro _ _ ⟨stopState, rfl⟩
    exact ⟨stopState, _, rfl⟩
  · exact fun _ _ _ => trivial

theorem wp_pushVisible_frame (bytes : Bytes) :
    wp (pushVisible bytes) (fun _ now => Settled state now) (fun _ _ => True) state := by
  unfold pushVisible
  apply wp_read
  apply wp_call (wp_onStopState_frame _)
  · rintro matched _ ⟨stopState, rfl⟩
    apply wp_ite
    · exact fun _ => ⟨stopState, _, rfl⟩
    · intro _
      apply (wp_runIf _ _).mpr
      exact ⟨fun _ => ⟨stopState, _, rfl⟩, fun _ => ⟨stopState, _, rfl⟩⟩
  · exact fun _ _ _ => trivial

/-- An accepted token is in the vocabulary and is added to the history. -/
theorem wp_acceptToken_growth (tokenId : Nat) (decodedBytes : Option Bytes) :
    wp (acceptToken tokenId decodedBytes)
      (fun _ now => tokenId < state.vocabularySize ∧
        Settled { state with
          generatedTokenIds := state.generatedTokenIds ++ [tokenId]
          historyTokenIds := state.historyTokenIds ++ [tokenId] } now)
      (fun _ _ => True) state := by
  unfold acceptToken preStep
  apply wp_seq
  apply wp_read
  cases state.finishReason with
  | some reason => trivial
  | none =>
      rw [wp_pure]
      apply wp_seq
      unfold validateGeneratedToken
      apply wp_read
      apply wp_ite
      · intro hrange
        rw [wp_pure]
        apply wp_read
        apply wp_call (wp_visibleBytes_frame tokenId decodedBytes)
        · intro bytes now hnow
          obtain rfl := hnow.symm
          apply wp_ite
          · intro _
            apply wp_call (wp_finishHidden_frame _)
            · rintro _ _ ⟨stopState, reason, rfl⟩
              exact ⟨hrange, stopState, reason, rfl⟩
            · exact fun _ _ _ => trivial
          · intro _
            apply wp_call (wp_pushVisible_frame bytes)
            · rintro _ _ ⟨stopState, reason, rfl⟩
              exact ⟨hrange, stopState, reason, rfl⟩
            · exact fun _ _ _ => trivial
        · exact fun _ _ _ => trivial
      · exact fun _ => trivial

end Growth

end Riley.Generation
