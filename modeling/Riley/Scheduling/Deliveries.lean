import Mathlib
import Riley.Library.Conservation
import Riley.Scheduling.Ledger
import Riley.Scheduling.QueueCalls

/-!
What the public calls do to the ledger. Planning and aborting keep every strand, publishing a
token makes one grow by the token of its event, and what a call answers with is what left the
outbox: completions are neither lost nor delivered twice.
-/

namespace Riley.Scheduling

open PagedKv Outcome Journal

section Planning

theorem kept_copyTokens (tokens : List TokenId) (resource : String) :
    Moves SameLedger (copyTokens tokens resource) :=
  .bind (kept_onHost _) fun _ => .pure _

theorem kept_payloadOf (candidate : Candidate) (record : RequestRecord) :
    Moves SameLedger (payloadOf candidate record) := by
  unfold payloadOf
  split
  · refine .bind (.orReject _ _) fun stop => .bind (.rejectIf _ _) fun _ => ?_
    exact .bind (kept_copyTokens _ _) fun input => .pure _
  · refine .bind (.orReject _ _) fun token => .bind (.orReject _ _) fun sequence => ?_
    refine .bind (.orReject _ _) fun target => ?_
    exact .bind (kept_copyTokens _ _) fun input => .pure _

theorem kept_buildPayloads (slots : Nat) (candidates : List Candidate) :
    Moves SameLedger (buildPayloads slots candidates) := by
  induction candidates generalizing slots with
  | nil => exact .pure _
  | cons candidate rest ih =>
      refine .bind (kept_requireRecord _) fun found => .bind (kept_payloadOf _ _) fun payload => ?_
      exact .bind (.rejectIf _ _) fun _ => .bind (ih _) fun built => .pure _

theorem kept_reservePayload (payload : CandidatePayload) :
    Moves SameLedger (reservePayload payload) := by
  refine .bind (kept_requireRecord _) fun found => .bind (.orReject _ _) fun sequence => ?_
  refine .bind .get fun s => .bind (.repeatWhile _ (kept_evictForRoom _)) fun _ => ?_
  exact .bind (kept_onSequence _ _ _) fun reservation => .pure _

theorem kept_transportPayload (payload : CandidatePayload) (item : InflightItem)
    (tableIndex : Nat) : Moves SameLedger (transportPayload payload item tableIndex) := by
  refine .bind (kept_requireRecord _) fun found => .bind (.orReject _ _) fun sequence => ?_
  refine .bind (.fromExcept _) fun view => .bind (kept_onHost _) fun table => ?_
  exact .bind (.fromExcept _) fun workItem => .pure _

theorem held_rollbackItems (items : List InflightItem) (cleanup : Option SchedulerError) :
    Moves SameHeld (rollbackItems items cleanup) := by
  induction items generalizing cleanup with
  | nil => exact .pure _
  | cons item rest ih =>
      refine .bind (held_settleReservation _ _ _).attempt fun answer => ?_
      cases answer with
      | error error => exact ih _
      | ok _ =>
          refine .bind .get fun s => ?_
          split
          · exact ih _
          · refine .bind (held_of_same (kept_modifyRecord (fun _ => by rfl) _)) fun _ => ih _

theorem held_rollbackPreparedPlan {α : Type} (items : List InflightItem)
    (original : SchedulerError) :
    Moves SameHeld (rollbackPreparedPlan items original : SchedulerM α) :=
  .bind (held_rollbackItems _ _) fun _ => .throw _

theorem held_reservePayloads (payloads : List CandidatePayload) (prepared : Prepared) :
    Moves SameHeld (reservePayloads prepared payloads) := by
  induction payloads generalizing prepared with
  | nil => exact .pure _
  | cons payload rest ih =>
      refine .bind (held_of_same (kept_reservePayload payload)).attempt fun answer => ?_
      cases answer with
      | error error => exact held_rollbackPreparedPlan _ _
      | ok item =>
          refine .bind (held_of_same (kept_transportPayload payload item _)).attempt fun answer => ?_
          cases answer with
          | error error => exact held_rollbackPreparedPlan _ _
          | ok made => exact ih _

theorem held_orRollback {α : Type} (items : List InflightItem) {action : SchedulerM α}
    (h : Moves SameLedger action) : Moves SameHeld (orRollback items action) := by
  refine .bind (held_of_same h).attempt fun answer => ?_
  cases answer with
  | ok a => exact .pure _
  | error error => exact held_rollbackPreparedPlan _ _

theorem kept_checkTransitions (items : List InflightItem) :
    Moves SameLedger (checkTransitions items) := by
  induction items with
  | nil => exact .pure _
  | cons item rest ih =>
      refine .bind (kept_requireRecord _) fun found => .bind (.rejectIf _ _) fun _ => ?_
      exact .bind ih fun indices => .pure _

theorem held_dispatchPlan (iterationId : IterationId) (prepared : Prepared) (slots nowNs : Nat) :
    Moves SameHeld (dispatchPlan iterationId prepared slots nowNs) := by
  refine .bind (held_orRollback _ (kept_onHost _)) fun plan => ?_
  refine .bind (held_orRollback _ (.orReject _ _)) fun prefillTokens => ?_
  refine .bind (held_orRollback _ (.orReject _ _)) fun decodeTokens => ?_
  refine .bind (held_orRollback _ (kept_checkTransitions _)) fun indices => ?_
  have hstart : Moves SameLedger (startItems nowNs (prepared.inflightItems.zip indices)) :=
    .forEach _ fun _ => kept_modifyRecord (fun _ => by rfl) _
  exact .bind (held_of_same hstart) fun _ => .bind (.modify fun _ => rfl) fun _ => .pure _

theorem held_preparePlan (iterationId : IterationId) (candidates : List Candidate)
    (nowNs : Nat) : Moves SameHeld (preparePlan iterationId candidates nowNs) := by
  have hbuffers : Moves SameLedger reservePlanBuffers := .forEach _ fun _ => kept_onHost _
  refine .bind (held_of_same hbuffers) fun _ => ?_
  refine .bind (held_of_same (kept_buildPayloads _ _)) fun built => ?_
  exact .bind (held_reservePayloads _ _) fun prepared => held_dispatchPlan _ _ _ _

end Planning

section Settling

theorem held_commitItems (nowNs : Nat) (items : List (InflightItem × SettledInflightItem)) :
    Moves SameHeld (commitItems nowNs items) := by
  induction items with
  | nil => exact .pure _
  | cons item rest ih =>
      refine .bind (held_of_same (kept_commitReservation item.1)).attempt fun answer => ?_
      cases answer with
      | ok _ => exact .bind ih fun _ => .pure _
      | error error =>
          refine .bind (held_forceReclaim _ nowNs).attempt fun reclaimed => ?_
          exact .bind ih fun _ => .pure _

theorem held_failCommitted (nowNs : Nat) (items : List SettledInflightItem) :
    Moves SameHeld (failCommitted nowNs items) := by
  induction items with
  | nil => exact .pure _
  | cons item rest ih =>
      refine .bind (held_finish _ _ nowNs).attempt fun answer => ?_
      cases answer with
      | ok _ => exact ih
      | error error =>
          exact .bind (held_containFailure _ nowNs _) fun _ => .bind ih fun _ => .pure _

theorem held_abortRecord (abort : ExecutionAbort) (item : InflightItem) (index : Nat)
    (record : RequestRecord) (nowNs : Nat) :
    Moves SameHeld (abortRecord abort item index record nowNs) := by
  cases abort with
  | notDispatched =>
      refine .ite (fun _ => held_finish _ _ _) fun _ => ?_
      exact held_of_same (kept_modifyRecord (fun _ => by rfl) _)
  | deviceQuiescedMutationUnknown => exact held_finish _ _ _

theorem held_abortItem (abort : ExecutionAbort) (nowNs : Nat) (item : InflightItem) :
    Moves SameHeld (abortItem abort nowNs item) := by
  refine .bind (held_settleReservation _ _ _).attempt fun answer => ?_
  cases answer with
  | error error => exact .pure _
  | ok _ =>
      refine .bind .get fun s => ?_
      split
      · exact .pure _
      · refine .bind (held_abortRecord _ _ _ _ _).attempt fun answer => ?_
        cases answer with
        | ok _ => exact .pure _
        | error error => exact .bind (held_containFailure _ nowNs _) fun _ => .pure _

theorem held_abortItems (abort : ExecutionAbort) (nowNs : Nat) (items : List InflightItem) :
    Moves SameHeld (abortItems abort nowNs items) := by
  induction items with
  | nil => exact .pure _
  | cons item rest ih =>
      exact .bind (held_abortItem abort nowNs item) fun _ => .bind ih fun _ => .pure _

end Settling

section Publishing

variable {s : Scheduler} {index : Nat} {record : RequestRecord}

/-- A published token makes the strand of its request grow. -/
theorem wp_pushHeld (hrow : s.ledger.rows[index]? = some record.strand) (tokenId : TokenId) :
    wp (modifyRecord index (pushToken tokenId))
      (fun _ t => Grows [⟨record.requestId, record.generatedTokenIds.length, tokenId⟩] s.held t.held)
      (fun _ _ => False) s := by
  have hrequests := hrow
  change (s.requests.map RequestRecord.strand)[index]? = _ at hrequests
  rw [List.getElem?_map] at hrequests
  obtain ⟨found, hget, hsame⟩ := Option.map_eq_some_iff.mp hrequests
  obtain ⟨hlt, hrow⟩ := List.getElem?_eq_some_iff.mp hrow
  change Grows _ s.held (s.modifyRecordAt index (pushToken tokenId)).held
  rw [Scheduler.modifyRecordAt_self hget]
  have hpushed : (s.put index (pushToken tokenId found) s.pool).ledger.rows =
      s.ledger.rows.set index ⟨record.requestId, record.generatedTokenIds ++ [tokenId]⟩ := by
    change (s.requests.set index (pushToken tokenId found)).map RequestRecord.strand = _
    obtain ⟨hid, htokens⟩ := Strand.mk.inj hsame
    rw [List.map_set]
    change (s.requests.map RequestRecord.strand).set index
      ⟨found.requestId, found.generatedTokenIds ++ [tokenId]⟩ = _
    rw [hid, htokens]
    rfl
  have hbefore : (s.ledger.rows : Multiset (Strand RequestId TokenId)) =
      record.strand ::ₘ (s.ledger.rows.eraseIdx index : Multiset (Strand RequestId TokenId)) := by
    have hperm := List.getElem_cons_eraseIdx_perm hlt
    rw [hrow] at hperm
    exact (Multiset.coe_eq_coe.mpr hperm).symm
  unfold Scheduler.held
  rw [hpushed, Multiset.coe_eq_coe.mpr (List.set_perm_cons_eraseIdx hlt _), hbefore]
  exact Grows.beside (Grows.single tokenId) _

/-- Ending a request publishes what was published before. -/
theorem held_finishPublished (requestId : RequestId) (reason : RequestFinishReason) (nowNs : Nat)
    (events : List TokenEvent) :
    wp (finishPublished requestId reason nowNs events)
      (fun published t => published.events = events ∧ SameHeld s t) (fun _ _ => False) s := by
  refine wp_seq ((wp_attempt _).mpr (wp_mono (held_finish requestId reason nowNs s)
    (fun _ t hsame => ?_) fun _ t hsame => ?_))
  · exact ⟨rfl, hsame⟩
  · exact ⟨rfl, hsame⟩

/-- The events of some tokens, as the journal has them. -/
def stamps (events : List TokenEvent) : List (Stamp RequestId TokenId) :=
  events.map TokenEvent.stamp

theorem grows_of_same {t : Scheduler} (h : SameHeld s t) : Grows [] s.held t.held := by
  rw [show s.held = t.held from h]
  exact .refl _

theorem wp_publishOutputHeld {item : SettledInflightItem}
    (hrow : s.ledger.rows[index]? = some record.strand) (hid : record.requestId = item.requestId)
    (nowNs : Nat) :
    wp (publishOutput item index record nowNs)
      (fun published t => Grows (stamps published.events) s.held t.held)
      (fun _ _ => False) s := by
  unfold publishOutput
  split
  · exact grows_of_same (SameLedger.held (ledger_modifyRecordAt (fun _ => by rfl) index s).symm)
  next output _ =>
    refine wp_call (wp_pushHeld hrow output.tokenId) (fun _ t hpushed => ?_)
      fun _ _ hfalse => hfalse.elim
    rw [hid] at hpushed
    refine wp_ite (fun _ => ?_) fun _ => ?_
    · refine wp_mono (held_finishPublished _ _ nowNs _) (fun published u hdone => ?_)
        fun _ _ hfalse => hfalse
      obtain ⟨hevents, hsame⟩ := hdone
      rw [hevents, ← show t.held = u.held from hsame]
      exact hpushed
    · have hready : SameHeld t (t.modifyRecordAt index (readyAgain .decoding nowNs)) :=
        SameLedger.held (ledger_modifyRecordAt (fun _ => by rfl) index t).symm
      change Grows _ s.held (t.modifyRecordAt index (readyAgain .decoding nowNs)).held
      rw [← show t.held = _ from hready]
      exact hpushed

theorem wp_publishCommittedHeld (item : SettledInflightItem) (nowNs : Nat) :
    wp (publishCommittedItem item nowNs)
      (fun published t => Grows (stamps published.events) s.held t.held)
      (fun _ t => SameHeld s t) s := by
  refine wp_require rfl fun index record hget hrecord => wp_ite (fun _ => ?_) fun _ => ?_
  · refine wp_mono (held_finishPublished _ _ nowNs []) (fun published t hdone => ?_)
      fun _ _ hfalse => hfalse.elim
    obtain ⟨hevents, hsame⟩ := hdone
    rw [hevents]
    exact grows_of_same hsame
  · have hadvance : Moves SameLedger (runIf (item.kind = .prefill) do
        modifyRecord index (advanceCursor item.targetLogicalLength)
        publishPromptBlocks index) :=
      .runIf fun _ => .bind (kept_modifyRecord (fun _ => by rfl) _) fun _ =>
        kept_publishPromptBlocks index
    refine wp_kept hadvance (fun _ t hsame => ?_) fun _ _ hsame => SameLedger.held (Eq.symm hsame)
    have hrow := row_of_requests hget
    rw [← hsame] at hrow
    refine wp_mono (wp_publishOutputHeld hrow hrecord nowNs) (fun published u hgrows => ?_)
      fun _ _ hfalse => hfalse.elim
    rwa [← show s.held = t.held from SameLedger.held (Eq.symm hsame)] at hgrows

/-- Containing a failure does not fail. -/
theorem wp_containHeld (requestId : RequestId) (nowNs : Nat) (original : SchedulerError) :
    wp (containLiveRequestFailure requestId nowNs original) (fun _ t => SameHeld s t)
      (fun _ _ => False) s := by
  refine wp_read (wp_ite (fun _ => rfl) fun _ => ?_)
  refine wp_seq ((wp_attempt _).mpr (wp_mono (held_forceReclaim requestId nowNs s)
    (fun _ t hsame => ?_) fun _ t hsame => ?_))
  · exact hsame
  · exact hsame

/-- The token events of a publication are what the strands grew by. -/
theorem wp_publishItemsHeld (nowNs : Nat) (items : List SettledInflightItem) :
    wp (publishItems nowNs items) (fun result t => Grows (stamps result.1) s.held t.held)
      (fun _ _ => False) s := by
  induction items generalizing s with
  | nil => exact .refl _
  | cons item rest ih =>
      have hrest : ∀ (events : List TokenEvent) (t : Scheduler),
          Grows (stamps events) s.held t.held →
          wp (publishItems nowNs rest)
            (fun result u => Grows (stamps (events ++ result.1)) s.held u.held)
            (fun _ _ => False) t := by
        intro events t hfirst
        refine wp_mono ih (fun result u hmore => ?_) fun _ _ hfalse => hfalse
        rw [stamps, List.map_append]
        exact hfirst.trans hmore
      have hcontained : ∀ (events : List TokenEvent) (error : SchedulerError) (t : Scheduler),
          Grows (stamps events) s.held t.held →
          wp (containLiveRequestFailure item.requestId nowNs error)
            (fun _ u => wp (publishItems nowNs rest)
              (fun result v => Grows (stamps (events ++ result.1)) s.held v.held)
              (fun _ _ => False) u) (fun _ _ => False) t := by
        intro events error t hfirst
        refine wp_mono (wp_containHeld _ nowNs error) (fun _ u hsame => ?_)
          fun _ _ hfalse => hfalse
        rw [show t.held = u.held from hsame] at hfirst
        exact hrest events u hfirst
      refine wp_seq ((wp_attempt _).mpr (wp_mono (wp_publishCommittedHeld item nowNs)
        (fun published t hfirst => ?_) fun error t hsame => ?_))
      · dsimp only
        split
        · exact wp_call (hrest published.events t hfirst) (fun _ _ hdone => hdone)
            fun _ _ hfalse => hfalse
        · exact wp_call (hcontained published.events _ t hfirst)
            (fun _ _ hmore => wp_call hmore (fun _ _ hdone => hdone) fun _ _ hfalse => hfalse)
            fun _ _ hfalse => hfalse
      · exact wp_call (hcontained [] error t (grows_of_same hsame))
          (fun _ _ hmore => wp_call hmore (fun _ _ hdone => hdone) fun _ _ hfalse => hfalse)
          fun _ _ hfalse => hfalse

end Publishing

section Calls

variable {ε α β : Type} {s : Scheduler}

/-- A call that delivers some of its answer: what it holds afterwards and what it delivers is
what it held. -/
abbrev Delivers (given : α → List RequestCompletion) (action : EStateM ε Scheduler α) : Prop :=
  Conserves Scheduler.held 0 (fun a => completed (given a)) action

theorem kept_ensureCompletionBacklogEmpty : Moves SameLedger ensureCompletionBacklogEmpty :=
  .bind .get fun _ => .rejectIf _ _

theorem kept_ensureNoIterationInFlight : Moves SameLedger ensureNoIterationInFlight := by
  refine .bind .get fun s => ?_
  split
  · exact .pure _
  · exact .throw _

theorem kept_validateNow (nowNs : Nat) : Moves SameLedger (validateNow nowNs) := by
  refine .bind .get fun s => ?_
  split
  · exact .pure _
  · exact .rejectIf _ _

theorem kept_observeNow (nowNs : Nat) : Moves SameLedger (observeNow nowNs) :=
  .bind (kept_validateNow nowNs) fun _ => .modify fun _ => rfl

theorem kept_peekIterationId : Moves SameLedger peekIterationId :=
  .bind .get fun _ => .bind (.orReject _ _) fun _ => .orReject _ _

theorem kept_advanceIterationId : Moves SameLedger advanceIterationId :=
  fun _ => wp_read (wp_seq ((wp_orReject _ _).mpr ⟨fun _ => rfl, fun _ _ => rfl⟩))

theorem kept_requireInflight : Moves SameLedger requireInflight :=
  .bind .get fun _ => .orReject _ _

theorem kept_takeInflight : Moves SameLedger takeInflight :=
  .bind kept_requireInflight fun _ => .bind (.modify fun _ => rfl) fun _ => .pure _

theorem kept_validateIterationResult (result : IterationResult) :
    Moves SameLedger (validateIterationResult result) := by
  refine .bind kept_requireInflight fun _ => .bind (.rejectIf _ _) fun _ => ?_
  exact .bind (.rejectIf _ _) fun _ => .bind (.rejectIf _ _) fun _ => .rejectIf _ _

theorem kept_checkReservedTable (item : InflightItem) (record : RequestRecord)
    (missing : String) : Moves SameLedger (checkReservedTable item record missing) :=
  .bind (.orReject _ _) fun _ => .bind (.fromExcept _) fun _ => .rejectIf _ _

theorem kept_validateInflightReservations : Moves SameLedger validateInflightReservations :=
  .bind kept_requireInflight fun _ => .forEach _ fun _ =>
    .bind (kept_requireRecord _) fun _ => kept_checkReservedTable _ _ _

theorem kept_prevalidateItems (result : IterationResult) (items : List InflightItem) :
    Moves SameLedger (prevalidateItems result items) := by
  have hitem : ∀ item, Moves SameLedger (prevalidateItem result item) := by
    intro item
    refine .bind (.rejectIf _ _) fun _ => .bind (kept_requireRecord _) fun found => ?_
    refine .bind (kept_checkReservedTable _ _ _) fun _ => .bind (.fromExcept _) fun output => ?_
    exact .bind (.fromExcept _) fun target => .bind (.rejectIf _ _) fun _ => .pure _
  induction items with
  | nil => exact .pure _
  | cons item rest ih => exact .bind (hitem item) fun _ => .bind ih fun _ => .pure _

theorem delivers_drain : Delivers id drainCompletionOutbox := by
  intro s
  change (s.ledger.rows : Multiset (Strand RequestId TokenId)) + 0 +
    completed s.completionOutbox = s.held + 0
  rw [add_zero, add_zero]
  rfl

theorem delivers_pop : Delivers Option.toList popPendingCompletion := by
  intro s
  change (s.ledger.rows : Multiset (Strand RequestId TokenId)) +
    completed (s.completionOutbox.drop 1) + completed s.completionOutbox.head?.toList = s.held + 0
  have hsplit : s.completionOutbox.head?.toList ++ s.completionOutbox.drop 1 =
      s.completionOutbox := by
    cases s.completionOutbox with
    | nil => rfl
    | cons first rest => rfl
  rw [add_zero, add_assoc, add_comm (completed _), ← completed_append, hsplit]
  rfl

theorem delivers_planIteration (nowNs : Nat) :
    Delivers PlanningOutput.completions (planIteration nowNs) := by
  refine .step (held_of_same kept_ensureCompletionBacklogEmpty) fun _ => ?_
  refine .step (held_of_same (kept_observeNow nowNs)) fun _ => ?_
  refine .step (held_of_same kept_ensureNoIterationInFlight) fun _ => .step .get fun s => ?_
  refine .step (held_of_same (kept_ensureCompletionCapacity _)) fun _ => ?_
  refine .step (held_of_same (kept_onHost _)) fun _ => ?_
  refine .step (held_expireWaiting nowNs) fun _ => ?_
  refine .step (held_of_same (kept_admitWaiting nowNs)) fun _ => ?_
  refine .step (held_of_same kept_adoptCachedPrefixes) fun _ => .step .get fun t => ?_
  refine .step (held_of_same (kept_onHost _)) fun selection => .ite (fun _ => ?_) fun _ => ?_
  · exact .step (.modify fun _ => rfl) fun _ => delivers_drain.bind fun completions => .pure _
  · refine .step (held_of_same kept_peekIterationId) fun iterationId => ?_
    refine .step (held_preparePlan _ _ nowNs) fun plan => ?_
    refine .step (held_of_same kept_advanceIterationId) fun _ => .step (.modify fun u => ?_) ?_
    · have hmarked : ∀ record, (markDeferred selection.2.2 record).strand = record.strand := by
        intro record
        unfold markDeferred
        split <;> rfl
      exact SameLedger.held (ledger_mapRecords hmarked u).symm
    · exact fun _ => delivers_drain.bind fun completions => .pure _

theorem delivers_abortIteration (iterationId : IterationId) (abort : ExecutionAbort)
    (nowNs : Nat) :
    Delivers IterationUpdates.completions (abortIteration iterationId abort nowNs) := by
  refine .step (held_of_same kept_ensureCompletionBacklogEmpty) fun _ => ?_
  refine .step (held_of_same (kept_validateNow nowNs)) fun _ => ?_
  refine .step (held_of_same kept_requireInflight) fun inflight => ?_
  refine .step (.rejectIf _ _) fun _ => ?_
  refine .step (held_of_same kept_validateInflightReservations) fun _ => ?_
  refine .step (held_of_same (.forEach _ fun _ => kept_onHost _)) fun _ => ?_
  refine .step (held_of_same (kept_ensureCompletionCapacity _)) fun _ => ?_
  refine .step (.modify fun _ => rfl) fun _ => ?_
  refine .step (held_of_same kept_takeInflight) fun inflight => ?_
  refine .step (held_of_same (.runIf fun _ => kept_dropPrefixCacheEntries)) fun _ => ?_
  refine .step (held_abortItems abort nowNs _) fun failures => ?_
  exact delivers_drain.bind fun completions => .pure _

theorem delivers_cancel (requestId : RequestId) (nowNs : Nat) :
    Delivers (fun outcome => outcome.completion.toList) (cancel requestId nowNs) := by
  have hnone : ∀ deferred terminal, Delivers (fun outcome => outcome.completion.toList)
      (pure ⟨requestId, deferred, terminal, none⟩ : SchedulerM CancellationOutcome) :=
    fun _ _ => .pure _
  refine .step (held_of_same kept_ensureCompletionBacklogEmpty) fun _ => ?_
  refine .step (held_of_same (kept_observeNow nowNs)) fun _ => .step .get fun s => ?_
  refine .ite (fun _ => hnone _ _) fun _ => ?_
  refine .step (held_of_same (kept_requireRecord _)) fun found => .ite (fun _ => hnone _ _) fun _ => ?_
  refine .ite (fun _ => ?_) fun _ => ?_
  · exact .step (held_of_same (kept_modifyRecord (fun _ => by rfl) _)) fun _ => hnone _ _
  · refine .step (held_of_same (kept_ensureCompletionCapacity 1)) fun _ => ?_
    refine .step (held_finish _ _ _) fun _ => delivers_pop.bind fun completion => ?_
    cases completion with
    | none => exact .throw _
    | some completion => exact .pure _

theorem delivers_shutdown (nowNs : Nat) : Delivers id (shutdown nowNs) := by
  have hcancelLast : Moves SameHeld (cancelLast nowNs) := by
    refine .bind .get fun s => ?_
    split
    · exact .pure _
    · exact .bind (held_finish _ _ _) fun _ => .pure _
  refine .step (.modify fun _ => rfl) fun _ => ?_
  refine .step (held_of_same kept_ensureCompletionBacklogEmpty) fun _ => ?_
  refine .step (held_of_same (kept_observeNow nowNs)) fun _ => ?_
  refine .step (held_of_same kept_ensureNoIterationInFlight) fun _ => ?_
  refine .step (held_of_same (kept_onHost _)) fun _ => .step .get fun s => ?_
  refine .step (held_of_same (kept_ensureCompletionCapacity _)) fun _ => ?_
  refine .step (.repeatWhile _ hcancelLast) fun _ => ?_
  exact .step (held_of_same kept_dropPrefixCacheEntries) fun _ => delivers_drain

section Close

/-- A close that fails puts back the completions that it had collected. -/
theorem conserves_closeFailure {given : α → Multiset (Strand RequestId TokenId)}
    (error : SchedulerError) (recovered : List RequestCompletion)
    (failures : List RequestSettlementFailure) :
    Conserves Scheduler.held (completed recovered) given
      (closeFailure error recovered failures : CloseM α) := by
  intro s
  change (s.ledger.rows : Multiset (Strand RequestId TokenId)) +
    completed (recovered ++ s.completionOutbox) = s.held + completed recovered
  rw [completed_append, add_comm (completed recovered), ← add_assoc]
  rfl

theorem conserves_orClose {given : α → Multiset (Strand RequestId TokenId)} {action : SchedulerM α}
    (h : Conserves Scheduler.held 0 given action) :
    Conserves Scheduler.held 0 given (orCloseFailure action) := by
  refine (h.attempt 0).bind fun answer => ?_
  cases answer with
  | ok a =>
      refine Conserves.of_eq (.pure a) ?_
      change given a = given a + 0
      rw [add_zero]
  | error error =>
      refine Conserves.of_eq (.throw _) ?_
      change 0 = 0 + (0 : Multiset (Strand RequestId TokenId))
      rw [add_zero]

theorem delivers_closeInflight (nowNs : Nat) (inflightAbort : Option ExecutionAbort)
    (completions : List RequestCompletion) :
    Conserves Scheduler.held (completed completions) (fun answer => completed answer.1)
      (closeInflight nowNs inflightAbort completions) := by
  intro s
  refine wp_read ?_
  split
  · exact rfl
  next plan _ =>
    cases inflightAbort with
    | none => exact conserves_closeFailure _ completions [] s
    | some abort =>
        have habort := delivers_abortIteration plan.iterationId abort nowNs
        refine Conserves.bind (habort.attempt (completed completions)) (fun answer => ?_) s
        cases answer with
        | error error =>
            refine Conserves.of_eq (conserves_closeFailure error completions []) ?_
            exact (zero_add _).symm
        | ok updates =>
            refine Conserves.of_eq (.pure _) ?_
            change completed (completions ++ updates.completions) =
              completed updates.completions + completed completions
            rw [completed_append, add_comm]

/-- A close that succeeds delivers everything, and one that fails keeps everything. -/
theorem delivers_close (nowNs : Nat) (inflightAbort : Option ExecutionAbort) :
    Delivers SchedulerCloseOutput.completions (close nowNs inflightAbort) := by
  have hshutdown : Moves SameHeld beginShutdown := .modify fun _ => rfl
  refine (conserves_orClose (.of_moves hshutdown)).bind fun _ => ?_
  refine (conserves_orClose (.of_moves (held_of_same (kept_validateNow nowNs)))).bind fun _ => ?_
  refine .step .get fun s => (conserves_orClose (.of_moves (.orReject _ _))).bind fun _ => ?_
  refine (conserves_orClose (.of_moves (held_of_same (kept_onHost _)))).bind fun _ => ?_
  refine (conserves_orClose delivers_drain).bind fun drained => ?_
  intro s
  refine wp_write ?_
  refine Conserves.bind (delivers_closeInflight nowNs inflightAbort drained) (fun settled => ?_) _
  refine ((delivers_shutdown nowNs).attempt (completed settled.1)).bind fun answer => ?_
  cases answer with
  | error error =>
      refine Conserves.of_eq (conserves_closeFailure error settled.1 settled.2) ?_
      exact (zero_add _).symm
  | ok remaining =>
      have hcollected : completed (settled.1 ++ remaining) =
          completed remaining + completed settled.1 := by
        rw [completed_append, add_comm]
      refine Conserves.of_eq ?_ hcollected
      intro t
      refine wp_read (wp_ite (fun _ => ?_) fun _ => ?_)
      · exact conserves_closeFailure _ _ _ t
      · have hscratch := Conserves.of_moves
          (held_of_same (kept_onHost (tryReserveExact "metric percentile scratch")))
        refine Conserves.bind (hscratch.attempt (completed (settled.1 ++ remaining)))
          (fun answer => ?_) t
        cases answer with
        | error error =>
            refine Conserves.of_eq (conserves_closeFailure error _ _) ?_
            exact (zero_add _).symm
        | ok _ =>
            refine Conserves.of_eq (.pure _) ?_
            exact (zero_add _).symm

end Close

end Calls

end Riley.Scheduling
