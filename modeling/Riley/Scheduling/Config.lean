import Riley.PagedKv.Pool

/-!
Identifiers, errors, the bounded scheduler configuration and the policies
that later iterations can be given. Error constructors that only metrics or
no path at all produce are left out, and `HostAllocation` keeps the resource
without the requested element count.
-/

namespace Riley.Scheduling

open PagedKv Outcome

/-- Scheduler-issued request identity; zero is reserved. -/
structure RequestId where
  value : Nat
  nonzero : value ≠ 0
  deriving DecidableEq

/-- Scheduler-issued immutable iteration identity; zero is reserved. -/
structure IterationId where
  value : Nat
  nonzero : value ≠ 0
  deriving DecidableEq

def RequestId.new (value : Nat) : Option RequestId :=
  if h : value = 0 then none else some ⟨value, h⟩

def IterationId.new (value : Nat) : Option IterationId :=
  if h : value = 0 then none else some ⟨value, h⟩

inductive SchedulerError where
  | invalidConfiguration (field reason : String)
  | arithmeticOverflow (field : String)
  | hostAllocation (resource : String)
  | pendingCompletions (count : Nat)
  | completionBacklogCapacity (limit pending needed : Nat)
  | schedulerClosed
  | closeDispositionRequired (iterationId : IterationId)
  | identifierExhausted (kind : String)
  | clockRegression (previousNs currentNs : Nat)
  | waitingQueueFull (limit : Nat)
  | waitingTokenLimit (limit requested : Nat)
  | sequenceTokenLimit (limit requested : Nat)
  | activeSequenceLimit (limit : Nat)
  | kvCapacityExceeded (requestedBlocks availableBlocks : Nat)
  | unknownRequest (requestId : RequestId)
  | invalidStateTransition (requestId : RequestId) (source target : String)
  | iterationInFlight (iterationId : IterationId)
  | noIterationInFlight
  | unexpectedIteration (expected actual : IterationId)
  | unsupportedSchemaVersion (resource : String) (expected actual : Nat)
  | invalidPlan (field reason : String)
  | invalidIterationResult (field reason : String)
  | pagedKv (source : PagedKvError)
  deriving DecidableEq

/-- Behavior when a request cannot be admitted to the active set immediately. -/
inductive OverloadPolicy where
  | rejectImmediately
  | wait
  deriving DecidableEq, Repr

def validateNonzero (field : String) (value : Nat) : Except SchedulerError Unit :=
  if value = 0 then .error (.invalidConfiguration field "must be greater than zero")
  else .ok ()

/-- Step size by decode load. -/
structure PrefillBurstPolicy where
  steadyBudget : Nat
  maxDecodeRows : Nat
  minPromptTokens : Nat
  deriving DecidableEq, Repr

def PrefillBurstPolicy.validate (policy : PrefillBurstPolicy)
    (iterationTokenBudget : Nat) : Except SchedulerError PrefillBurstPolicy := do
  validateNonzero "prefill_burst.steady_budget" policy.steadyBudget
  if iterationTokenBudget ≤ policy.steadyBudget then
    .error (.invalidConfiguration "prefill_burst.steady_budget"
      "must be below the iteration token budget")
  else
    .ok policy

/-- Holds newly admitted prompts back so that they start together. -/
structure PrefillCoalescingPolicy where
  minTokens : Nat
  maxWaitNs : Nat
  minDecodeRows : Nat
  deriving DecidableEq, Repr

def PrefillCoalescingPolicy.validate (policy : PrefillCoalescingPolicy) :
    Except SchedulerError PrefillCoalescingPolicy := do
  validateNonzero "prefill_coalescing.min_tokens" policy.minTokens
  validateNonzero "prefill_coalescing.min_decode_rows" policy.minDecodeRows
  if policy.maxWaitNs = 0 then
    .error (.invalidConfiguration "prefill_coalescing.max_wait_ns" "must be positive")
  else
    .ok policy

/-- Trims small prefill overflows at executor cost boundaries. -/
structure PrefillPlateauPolicy where
  boundaries : List Nat
  maxDeferredTokens : Nat
  minDecodeRows : Nat
  deriving DecidableEq, Repr

/-- `windows(2).any(|pair| pair[0] >= pair[1])` -/
def hasDescent : List Nat → Bool
  | a :: b :: rest => decide (b ≤ a) || hasDescent (b :: rest)
  | _ => false

def PrefillPlateauPolicy.validate (policy : PrefillPlateauPolicy)
    (iterationTokenBudget : Nat) : Except SchedulerError PrefillPlateauPolicy := do
  match policy.boundaries with
  | [] =>
      .error (.invalidConfiguration "prefill_plateau.boundaries"
        "must name at least one boundary")
  | first :: rest =>
      if first = 0 ∨ hasDescent (first :: rest) then
        .error (.invalidConfiguration "prefill_plateau.boundaries"
          "must be non-zero and strictly ascending")
      else if iterationTokenBudget ≤ (first :: rest).getLast (List.cons_ne_nil _ _) then
        .error (.invalidConfiguration "prefill_plateau.boundaries"
          "must stay below iteration_token_budget")
      else do
        validateNonzero "prefill_plateau.max_deferred_tokens" policy.maxDeferredTokens
        .ok policy

/-- All host-memory, work, and KV promises enforced by one scheduler. -/
structure SchedulerConfig where
  maxWaitingRequests : Nat
  maxWaitingPromptTokens : Nat
  maxActiveSequences : Nat
  maxSequenceTokens : Nat
  iterationTokenBudget : Nat
  maxPrefillChunkTokens : Nat
  agingThresholdNs : Nat
  overloadPolicy : OverloadPolicy
  admissionTimeoutNs : Option Nat
  maxPromisedKvBlocks : Nat
  metricsWindowSamples : Nat
  deriving DecidableEq, Repr

def SchedulerConfig.validate (config : SchedulerConfig) :
    Except SchedulerError SchedulerConfig := do
  validateNonzero "max_waiting_requests" config.maxWaitingRequests
  validateNonzero "max_waiting_prompt_tokens" config.maxWaitingPromptTokens
  validateNonzero "max_active_sequences" config.maxActiveSequences
  validateNonzero "max_sequence_tokens" config.maxSequenceTokens
  if u32Max < config.maxSequenceTokens then
    .error (.invalidConfiguration "max_sequence_tokens"
      "must fit the paged-KV V1 u32 logical length")
  else do
  validateNonzero "iteration_token_budget" config.iterationTokenBudget
  validateNonzero "max_prefill_chunk_tokens" config.maxPrefillChunkTokens
  validateNonzero "max_promised_kv_blocks" config.maxPromisedKvBlocks
  validateNonzero "metrics_window_samples" config.metricsWindowSamples
  if config.agingThresholdNs = 0 then
    .error (.invalidConfiguration "aging_threshold_ns" "must be greater than zero")
  else if config.iterationTokenBudget < config.maxPrefillChunkTokens then
    .error (.invalidConfiguration "max_prefill_chunk_tokens"
      "must not exceed iteration_token_budget")
  else if config.maxSequenceTokens < config.maxPrefillChunkTokens then
    .error (.invalidConfiguration "max_prefill_chunk_tokens"
      "must not exceed max_sequence_tokens")
  else
    match config.overloadPolicy, config.admissionTimeoutNs with
    | .rejectImmediately, some _ =>
        .error (.invalidConfiguration "admission_timeout_ns"
          "must be absent when overload_policy rejects immediately")
    | .wait, some 0 =>
        .error (.invalidConfiguration "admission_timeout_ns"
          "must be greater than zero when present")
    | _, _ => .ok config

/-- What a validated configuration guarantees. -/
structure SchedulerConfig.Valid (config : SchedulerConfig) : Prop where
  waiting_pos : 0 < config.maxWaitingRequests
  active_pos : 0 < config.maxActiveSequences
  sequence_le : config.maxSequenceTokens ≤ u32Max
  budget_pos : 0 < config.iterationTokenBudget
  chunk_pos : 0 < config.maxPrefillChunkTokens
  promised_pos : 0 < config.maxPromisedKvBlocks
  aging_pos : 0 < config.agingThresholdNs
  chunk_le_budget : config.maxPrefillChunkTokens ≤ config.iterationTokenBudget
  chunk_le_sequence : config.maxPrefillChunkTokens ≤ config.maxSequenceTokens

theorem validateNonzero_eq_ok {field : String} {value : Nat} :
    validateNonzero field value = .ok () ↔ 0 < value := by
  unfold validateNonzero
  split <;> simp <;> omega

theorem SchedulerConfig.valid_of_validate {config config' : SchedulerConfig}
    (h : config.validate = .ok config') : config' = config ∧ config.Valid := by
  unfold SchedulerConfig.validate at h
  obtain ⟨_, hwaiting, h⟩ := except_bind_eq_ok.mp h
  obtain ⟨_, _, h⟩ := except_bind_eq_ok.mp h
  obtain ⟨_, hactive, h⟩ := except_bind_eq_ok.mp h
  obtain ⟨_, _, h⟩ := except_bind_eq_ok.mp h
  split at h
  · cases h
  obtain ⟨_, hbudget, h⟩ := except_bind_eq_ok.mp h
  obtain ⟨_, hchunk, h⟩ := except_bind_eq_ok.mp h
  obtain ⟨_, hpromised, h⟩ := except_bind_eq_ok.mp h
  obtain ⟨_, _, h⟩ := except_bind_eq_ok.mp h
  split at h
  · cases h
  split at h
  · cases h
  split at h
  · cases h
  have hresult : config' = config := by
    split at h <;> cases h
    rfl
  refine ⟨hresult, ⟨validateNonzero_eq_ok.mp hwaiting, validateNonzero_eq_ok.mp hactive,
    ?_, validateNonzero_eq_ok.mp hbudget, validateNonzero_eq_ok.mp hchunk,
    validateNonzero_eq_ok.mp hpromised, ?_, ?_, ?_⟩⟩
  all_goals omega

end Riley.Scheduling
