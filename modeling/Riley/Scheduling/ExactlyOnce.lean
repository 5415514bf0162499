import Mathlib
import Riley.Library.Agreement
import Riley.Scheduling.Deliveries
import Riley.Scheduling.Fcfs

/-!
Histories of a scheduler: all that was submitted to it and all that it answered with. Every
request is at one place, alive, in the outbox or delivered, and its tokens are the token events
of its request, in order, whatever fails on the way.
-/

namespace Riley.Scheduling

open PagedKv Outcome Journal

section Submit

variable {α : Type} {s : Scheduler} {ok : α → Scheduler → Prop}
  {err : SchedulerError → Scheduler → Prop}

theorem kept_enqueueWaiting (requestId : RequestId) (promptTokens : Nat) :
    Moves SameLedger (enqueueWaiting requestId promptTokens) :=
  fun _ => wp_read (wp_seq ((wp_orReject _ _).mpr ⟨fun _ => rfl, fun _ _ => rfl⟩))

theorem kept_validateWaitingCapacity (promptTokens : Nat) :
    Moves SameLedger (validateWaitingCapacity promptTokens) :=
  .bind .get fun _ => .bind (.rejectIf _ _) fun _ => .bind (.orReject _ _) fun _ => .rejectIf _ _

/-- An admitted record begins with the tokens that it had. -/
theorem wp_admitStrand (record : RequestRecord) (maximum nowNs : Nat) :
    wp (admitRecord record maximum nowNs)
      (fun admitted t => t.ledger = s.ledger ∧ admitted.strand = record.strand)
      (fun _ t => t.ledger = s.ledger) s := by
  refine wp_kept (kept_createSequence maximum) (fun sequence t hmade => ?_) fun _ _ hmade => hmade
  refine wp_check (fun _ => hmade) fun _ => ?_
  refine wp_kept (kept_promise _) (fun _ u hpromised => ?_) fun _ _ hpromised => ?_
  · exact ⟨hpromised.trans hmade, rfl⟩
  · exact hpromised.trans hmade

theorem held_join (record : RequestRecord) :
    Scheduler.held { s with requests := s.requests ++ [record] } = record.strand ::ₘ s.held := by
  change ((s.requests ++ [record]).map RequestRecord.strand : Multiset _) +
    completed s.completionOutbox = _
  rw [List.map_append, List.map_singleton,
    Multiset.coe_eq_coe.mpr (List.perm_append_singleton _ _), ← Multiset.cons_coe, Multiset.cons_add]
  rfl

/-- An accepted request joins the ledger with no tokens. -/
theorem wp_joinHeld {record : RequestRecord} {submission : Submission} {t : Scheduler}
    (hmore : s.nextRequestId + 1 ≤ u64Max) (hsame : t.ledger = s.ledger)
    (hrecord : record.strand = ⟨submission.requestId, []⟩) :
    wp (do
        modify fun s => { s with requests := s.requests ++ [record] }
        advanceRequestId
        return submission)
      (fun submission t => t.held = ⟨submission.requestId, []⟩ ::ₘ s.held)
      (fun _ t => SameHeld s t) t := by
  have hnext : t.nextRequestId = s.nextRequestId := congrArg Ledger.nextRequestId hsame
  rw [← hnext] at hmore
  refine wp_write (wp_advanceRequestId hmore ?_)
  change Scheduler.held { t with requests := t.requests ++ [record] } = _
  rw [held_join, hrecord, show s.held = t.held from SameLedger.held (Eq.symm hsame)]

theorem wp_acceptHeld (descriptor : RequestDescriptor) (maximum promised : Nat)
    (canAdmit : Bool) (nowNs : Nat) :
    wp (acceptRequest descriptor maximum promised canAdmit nowNs)
      (fun submission t => t.held = ⟨submission.requestId, []⟩ ::ₘ s.held)
      (fun _ t => SameHeld s t) s := by
  have hfails : ∀ t : Scheduler, t.ledger = s.ledger → SameHeld s t :=
    fun t hsame => SameLedger.held (Eq.symm hsame)
  refine wp_kept (kept_onHost _) (fun _ t hasked => ?_) fun _ t hsame => hfails t hsame
  refine wp_peekRequestId (fun id _ hmore => ?_) fun _ => hfails t hasked
  have hnext : t.nextRequestId = s.nextRequestId := congrArg Ledger.nextRequestId hasked
  rw [hnext] at hmore
  refine wp_kept (kept_onHost _) (fun _ u hagain => ?_) fun _ u hsame => hfails u (hsame.trans hasked)
  replace hasked := hagain.trans hasked
  refine wp_ite (fun _ => ?_) fun _ => ?_
  · refine wp_call (wp_admitStrand _ maximum nowNs) (fun record v hadmitted => ?_)
      fun _ v hsame => hfails v (hsame.trans hasked)
    obtain ⟨hsame, hrecord⟩ := hadmitted
    exact wp_joinHeld hmore (hsame.trans hasked) hrecord
  · refine wp_kept (kept_enqueueWaiting _ _) (fun _ v hqueued => ?_)
      fun _ v hsame => hfails v (hsame.trans hasked)
    exact wp_joinHeld hmore (hqueued.trans hasked) rfl

theorem wp_submitHeld (descriptor : RequestDescriptor) (nowNs : Nat) :
    wp (submit descriptor nowNs)
      (fun submission t => t.held = ⟨submission.requestId, []⟩ ::ₘ s.held)
      (fun _ t => SameHeld s t) s := by
  have hfails : ∀ t : Scheduler, t.ledger = s.ledger → SameHeld s t :=
    fun t hsame => SameLedger.held (Eq.symm hsame)
  refine wp_kept kept_ensureCompletionBacklogEmpty (fun _ t hempty => ?_) fun _ t hsame => hfails t hsame
  refine wp_read (wp_check (fun _ => hfails t hempty) fun _ => ?_)
  refine wp_kept (kept_observeNow nowNs) (fun _ u hobserved => wp_read ?_)
    fun _ u hsame => hfails u (hsame.trans hempty)
  replace hobserved := hobserved.trans hempty
  refine wp_seq ((wp_fromExcept _).mpr ⟨fun _ _ => hfails u hobserved, fun maximum _ => ?_⟩)
  refine wp_check (fun _ => hfails u hobserved) fun _ => wp_check (fun _ => hfails u hobserved) fun _ => ?_
  refine wp_kept (.runIf fun _ => kept_validateWaitingCapacity _) (fun _ v hvalid => ?_)
    fun _ v hsame => hfails v (hsame.trans hobserved)
  have hheld : v.held = s.held := Eq.symm (hfails v (hvalid.trans hobserved))
  refine wp_mono (wp_acceptHeld _ _ _ _ _) (fun submission w hjoined => ?_) fun _ w hsame => ?_
  · rw [hjoined, hheld]
  · exact hheld.symm.trans hsame

end Submit

section Complete

variable {β : Type} {s : Scheduler}

/-- A call that publishes the tokens that the strands grow by, and delivers what leaves the
outbox. -/
def Publishes (action : SchedulerM IterationUpdates) : Prop :=
  ∀ s, wp action (fun updates t => Grows (stamps updates.tokenEvents) s.held
      (t.held + completed updates.completions))
    (fun _ t => SameHeld s t) s

theorem Publishes.step {action : SchedulerM β} {next : β → SchedulerM IterationUpdates}
    (h : Moves SameHeld action) (hnext : ∀ b, Publishes (next b)) :
    Publishes (action >>= next) := by
  intro s
  refine wp_call (h s) (fun b t hsame => ?_) fun _ _ hsame => hsame
  refine wp_mono (hnext b t) (fun updates u hdone => ?_) fun _ u hfailed => hsame.trans hfailed
  rwa [← show s.held = t.held from hsame] at hdone

/-- The end of a settled iteration. -/
theorem wp_drainPublished {events : List TokenEvent} (failures : List RequestSettlementFailure)
    {t : Scheduler} (hgrows : Grows (stamps events) s.held t.held) :
    wp (do
        let completions ← drainCompletionOutbox
        return (⟨events, completions, failures⟩ : IterationUpdates))
      (fun updates u => Grows (stamps updates.tokenEvents) s.held
        (u.held + completed updates.completions))
      (fun _ u => SameHeld s u) t := by
  have hdone : Scheduler.held { t with completionOutbox := [] } + completed t.completionOutbox =
      t.held + 0 := delivers_drain t
  change Grows (stamps events) s.held
    (Scheduler.held { t with completionOutbox := [] } + completed t.completionOutbox)
  rw [hdone, add_zero]
  exact hgrows

theorem publishes_completeIteration (result : IterationResult) (nowNs : Nat) :
    Publishes (completeIteration result nowNs) := by
  have hchecks : Moves SameLedger (prevalidateCompletionPublication result) :=
    .bind kept_requireInflight fun _ => .bind (kept_onHost _) fun _ => kept_prevalidateItems _ _
  refine .step (held_of_same kept_ensureCompletionBacklogEmpty) fun _ => ?_
  refine .step (held_of_same (kept_validateNow nowNs)) fun _ => ?_
  refine .step (held_of_same (kept_validateIterationResult result)) fun _ => ?_
  refine .step (held_of_same kept_requireInflight) fun inflight => ?_
  refine .step (.orReject _ _) fun _ => ?_
  refine .step (held_of_same (.forEach _ fun _ => kept_onHost _)) fun _ => ?_
  refine .step (held_of_same (kept_ensureCompletionCapacity _)) fun _ => ?_
  refine .step (held_of_same hchecks) fun settledItems => ?_
  refine .step (held_of_same (kept_onHost _)) fun _ => .step (.modify fun _ => rfl) fun _ => ?_
  refine .step (held_of_same kept_takeInflight) fun inflight => ?_
  refine .step (held_commitItems nowNs _) fun committing s => ?_
  refine wp_ite (fun _ => ?_) fun _ => ?_
  · refine wp_call (held_failCommitted nowNs committing.1 s) (fun later t hsame => ?_)
      fun _ _ hsame => hsame
    exact wp_drainPublished _ (grows_of_same hsame)
  · refine wp_call (wp_publishItemsHeld nowNs committing.1) (fun published t hgrows => ?_)
      fun _ _ hfalse => hfalse.elim
    exact wp_drainPublished _ hgrows

end Complete

section Call

variable {ε α β : Type}

/-- What an answer of a call brings, and nothing when the call fails. -/
def answered (given : α → List β) (action : EStateM ε Scheduler α) (s : Scheduler) : List β :=
  (answer action s).toOption.elim [] given

namespace Call

/-- The completions that a call delivers to its caller. -/
def deliveries : Call → Scheduler → List RequestCompletion
  | popPendingCompletion => answered Option.toList Scheduling.popPendingCompletion
  | planIteration nowNs => answered PlanningOutput.completions (Scheduling.planIteration nowNs)
  | completeIteration result nowNs =>
      answered IterationUpdates.completions (Scheduling.completeIteration result nowNs)
  | abortIteration iterationId abort nowNs =>
      answered IterationUpdates.completions (Scheduling.abortIteration iterationId abort nowNs)
  | cancel requestId nowNs =>
      answered (fun outcome => outcome.completion.toList) (Scheduling.cancel requestId nowNs)
  | shutdown nowNs => answered id (Scheduling.shutdown nowNs)
  | close nowNs inflightAbort =>
      answered SchedulerCloseOutput.completions (Scheduling.close nowNs inflightAbort)
  | _ => fun _ => []

/-- The token events that a call publishes. -/
def tokenEvents : Call → Scheduler → List TokenEvent
  | completeIteration result nowNs =>
      answered IterationUpdates.tokenEvents (Scheduling.completeIteration result nowNs)
  | _ => fun _ => []

end Call

/-- What some submissions open. -/
def opened (submissions : List RequestId) : Multiset (Strand RequestId TokenId) :=
  (submissions.map fun requestId => ⟨requestId, []⟩ : List (Strand RequestId TokenId))

variable {s : Scheduler} {given : α → List RequestCompletion} {action : EStateM ε Scheduler α}

theorem Delivers.after (h : Delivers given action) (s : Scheduler) :
    (after action s).held + completed (answered given action s) = s.held := by
  unfold Outcome.after answered answer
  cases hrun : action s with
  | ok a t => exact h.ok hrun
  | error e t =>
      change t.held + 0 = s.held
      rw [add_zero]
      exact h.error hrun

/-- A call that neither accepts a request nor publishes a token. -/
theorem grows_of_delivers {t : Scheduler} {deliveries : List RequestCompletion}
    (h : t.held + completed deliveries = s.held) :
    Grows (stamps []) (opened [] + s.held) (t.held + completed deliveries) := by
  rw [h]
  change Grows [] (0 + s.held) s.held
  rw [zero_add]
  exact .refl _

theorem grows_of_held (h : Moves SameHeld action) :
    Grows (stamps []) (opened [] + s.held) ((after action s).held + completed []) :=
  grows_of_delivers (by
    rw [completed_nil, add_zero]
    exact Eq.symm (h.after s))

theorem grows_submit (descriptor : RequestDescriptor) (nowNs : Nat) :
    Grows (stamps []) (opened ((Call.submit descriptor nowNs).submissions s) + s.held)
      ((after (submit descriptor nowNs) s).held + completed []) := by
  obtain ⟨hok, herror⟩ := wp_elim (@wp_submitHeld s descriptor nowNs)
  rw [completed_nil, add_zero]
  change Grows [] (opened ((Call.accepted descriptor nowNs s).toList.map _) + s.held) _
  unfold after Call.accepted
  cases hrun : submit descriptor nowNs s with
  | ok submission t =>
      change Grows [] ({⟨submission.requestId, []⟩} + s.held) t.held
      rw [hok submission t hrun, Multiset.singleton_add]
      exact .refl _
  | error e t =>
      change Grows [] (0 + s.held) t.held
      rw [zero_add, show s.held = t.held from herror e t hrun]
      exact .refl _

theorem grows_complete (result : IterationResult) (nowNs : Nat) :
    Grows (stamps ((Call.completeIteration result nowNs).tokenEvents s)) (opened [] + s.held)
      ((after (completeIteration result nowNs) s).held +
        completed ((Call.completeIteration result nowNs).deliveries s)) := by
  obtain ⟨hok, herror⟩ := wp_elim (publishes_completeIteration result nowNs s)
  change Grows (stamps (answered _ _ s)) (0 + s.held) (_ + completed (answered _ _ s))
  unfold after answered answer
  rw [zero_add]
  cases hrun : completeIteration result nowNs s with
  | ok updates t => exact hok updates t hrun
  | error e t =>
      change Grows [] s.held (t.held + 0)
      rw [add_zero, show s.held = t.held from herror e t hrun]
      exact .refl _

theorem kept_setAtomicPrefillChunks (enabled : Bool) :
    Moves SameLedger (setAtomicPrefillChunks enabled) :=
  fun _ => wp_read (wp_check (fun _ => rfl) fun _ => rfl)

theorem kept_setPrefillPlateauPolicy (policy : Option PrefillPlateauPolicy) :
    Moves SameLedger (setPrefillPlateauPolicy policy) :=
  fun _ => wp_read (wp_check (fun _ => rfl) fun _ =>
    wp_seq ((wp_fromExcept _).mpr ⟨fun _ _ => rfl, fun _ _ => rfl⟩))

theorem kept_setPrefillCoalescingPolicy (policy : Option PrefillCoalescingPolicy) :
    Moves SameLedger (setPrefillCoalescingPolicy policy) :=
  fun _ => wp_read (wp_seq ((wp_fromExcept _).mpr ⟨fun _ _ => rfl, fun _ _ => rfl⟩))

theorem kept_setPrefillBurstPolicy (policy : Option PrefillBurstPolicy) :
    Moves SameLedger (setPrefillBurstPolicy policy) :=
  fun _ => wp_read (wp_seq ((wp_fromExcept _).mpr ⟨fun _ _ => rfl, fun _ _ => rfl⟩))

theorem kept_enablePrefixCache (maxBlocks : Nat) :
    Moves SameLedger (enablePrefixCache maxBlocks) := by
  refine .bind .get fun s => .bind (.rejectIf _ _) fun _ => .bind (.rejectIf _ _) fun _ => ?_
  refine .bind (.rejectIf _ _) fun _ => .bind (kept_onHost _) fun cache => ?_
  exact .modify fun _ => rfl

/-- Every call accounts for what it held, what it accepted, published and delivered. -/
theorem Call.grows (call : Call) (s : Scheduler) :
    Grows (stamps (call.tokenEvents s)) (opened (call.submissions s) + s.held)
      ((call.run s).held + completed (call.deliveries s)) := by
  cases call with
  | setAtomicPrefillChunks enabled =>
      exact grows_of_held (held_of_same (kept_setAtomicPrefillChunks enabled))
  | setPrefillPlateauPolicy policy =>
      exact grows_of_held (held_of_same (kept_setPrefillPlateauPolicy policy))
  | setPrefillCoalescingPolicy policy =>
      exact grows_of_held (held_of_same (kept_setPrefillCoalescingPolicy policy))
  | setPrefillBurstPolicy policy =>
      exact grows_of_held (held_of_same (kept_setPrefillBurstPolicy policy))
  | enablePrefixCache maxBlocks =>
      exact grows_of_held (held_of_same (kept_enablePrefixCache maxBlocks))
  | beginShutdown =>
      have hkept : Moves SameHeld Scheduling.beginShutdown := .modify fun _ => rfl
      exact grows_of_held hkept
  | popPendingCompletion => exact grows_of_delivers (delivers_pop.after s)
  | submit descriptor nowNs => exact grows_submit descriptor nowNs
  | planIteration nowNs => exact grows_of_delivers ((delivers_planIteration nowNs).after s)
  | completeIteration result nowNs => exact grows_complete result nowNs
  | abortIteration iterationId abort nowNs =>
      exact grows_of_delivers ((delivers_abortIteration iterationId abort nowNs).after s)
  | cancel requestId nowNs => exact grows_of_delivers ((delivers_cancel requestId nowNs).after s)
  | shutdown nowNs => exact grows_of_delivers ((delivers_shutdown nowNs).after s)
  | close nowNs inflightAbort =>
      exact grows_of_delivers ((delivers_close nowNs inflightAbort).after s)

end Call

section Histories

variable {cookie : Nat} {config : SchedulerConfig} {layout : KvLayout} {host host' : List Bool}
  {start s : Scheduler} {submitted : List RequestId} {delivered : List RequestCompletion}
  {events : List TokenEvent}

/-- The runs of a scheduler, with all that was submitted, delivered and published, in order. -/
inductive Scheduler.History (start : Scheduler) :
    List RequestId → List RequestCompletion → List TokenEvent → Scheduler → Prop
  | start : History start [] [] [] start
  | call {submitted : List RequestId} {delivered : List RequestCompletion}
      {events : List TokenEvent} {s : Scheduler} (host : List Bool) (call : Call) :
      History start submitted delivered events s →
      History start (submitted ++ call.submissions { s with hostAnswers := host })
        (delivered ++ call.deliveries { s with hostAnswers := host })
        (events ++ call.tokenEvents { s with hostAnswers := host })
        (call.run { s with hostAnswers := host })

theorem Scheduler.History.run (h : start.History submitted delivered events s) :
    ∃ admitted, start.Run submitted admitted s := by
  induction h with
  | start => exact ⟨[], .start⟩
  | call host call _ ih =>
      obtain ⟨admitted, hrun⟩ := ih
      exact ⟨_, hrun.call host call⟩

/-- No identity is submitted twice. -/
theorem Scheduler.History.nodup (h : start.History submitted delivered events s)
    (hnew : Scheduler.new cookie config layout host = .ok start host') : submitted.Nodup := by
  obtain ⟨admitted, hrun⟩ := h.run
  refine (hrun.inTurn hnew).submitted_order.imp fun hlt hsame => ?_
  exact absurd (congrArg RequestId.value hsame) (Nat.ne_of_lt hlt)

/-- The journal of a history: the published tokens tell of the requests at every place. -/
structure Scheduler.Accounted (submitted : List RequestId) (delivered : List RequestCompletion)
    (events : List TokenEvent) (s : Scheduler) : Prop where
  keys : (s.held + completed delivered).map Strand.key = submitted
  tells : Tells (stamps events) (s.held + completed delivered)

theorem stamps_concat (first second : List TokenEvent) :
    stamps (first ++ second) = stamps first ++ stamps second :=
  List.map_append

theorem keys_opened (submissions : List RequestId) :
    (opened submissions).map Strand.key = submissions := by
  unfold opened
  rw [Multiset.map_coe, List.map_map]
  exact congrArg _ (List.map_id _)

theorem Scheduler.Accounted.call (h : s.Accounted submitted delivered events) (call : Call)
    (hnodup : (submitted ++ call.submissions s).Nodup) :
    (call.run s).Accounted (submitted ++ call.submissions s) (delivered ++ call.deliveries s)
      (events ++ call.tokenEvents s) := by
  have hgrows := (call.grows s).beside (completed delivered)
  have hplaces : (call.run s).held + completed (call.deliveries s) + completed delivered =
      (call.run s).held + completed (delivered ++ call.deliveries s) := by
    rw [completed_append, add_assoc, add_comm (completed delivered)]
  rw [hplaces] at hgrows
  have hbefore : (opened (call.submissions s) + s.held + completed delivered).map Strand.key =
      (submitted ++ call.submissions s : List RequestId) := by
    rw [add_assoc, Multiset.map_add, h.keys, keys_opened, add_comm, Multiset.coe_add]
  refine ⟨hgrows.keys.trans hbefore, ?_⟩
  rw [stamps_concat]
  refine Tells.grow ?_ hgrows
  rw [add_assoc]
  apply h.tells.openAll
  rw [h.keys, add_comm, Multiset.coe_add]
  exact Multiset.coe_nodup.mpr hnodup

theorem wp_newHeld : wp (Scheduler.new cookie config layout) (fun s _ => s.held = 0)
    (fun _ _ => True) host := by
  refine wp_seq ((wp_fromExcept _).mpr ⟨fun _ _ => trivial, fun checked _ => ?_⟩)
  refine wp_check (fun _ => trivial) fun _ => ?_
  refine wp_seq ((wp_orReject _ _).mpr ⟨fun _ => trivial, fun capacity _ => ?_⟩)
  refine wp_seq (wp_any (fun _ _ => ?_) fun _ _ => trivial)
  exact wp_seq (wp_any (fun _ _ => rfl) fun _ _ => trivial)

theorem Scheduler.History.accounted (h : start.History submitted delivered events s)
    (hnew : Scheduler.new cookie config layout host = .ok start host') :
    s.Accounted submitted delivered events := by
  induction h with
  | start =>
      have hempty := (wp_elim wp_newHeld).1 start host' hnew
      have hnone : start.held + completed [] = 0 := by rw [hempty, completed_nil, add_zero]
      refine ⟨?_, ?_⟩
      · rw [hnone]
        rfl
      · rw [hnone]
        exact .nil
  | @call submitted delivered events s host call hbefore ih =>
      have hkept : Scheduler.Accounted submitted delivered events { s with hostAnswers := host } :=
        ⟨ih.keys, ih.tells⟩
      exact hkept.call call ((hbefore.call host call).nodup hnew)

/-- The token events of a request from its first token on. -/
def tokenEventsOf (requestId : RequestId) (tokens : List TokenId) : List TokenEvent :=
  tokens.zipIdx.map fun numbered => ⟨requestId, numbered.1, numbered.2⟩

theorem stamps_injective : Function.Injective stamps := by
  apply List.map_injective_iff.mpr
  intro first second hsame
  cases first
  cases second
  cases hsame
  rfl

theorem stamps_tokenEventsOf (requestId : RequestId) (tokens : List TokenId) :
    stamps (tokenEventsOf requestId tokens) = Strand.stamps ⟨requestId, tokens⟩ := by
  unfold stamps tokenEventsOf Strand.stamps
  rw [List.map_map]
  rfl

/-- What was published for a request is its tokens. -/
theorem filter_of_tells {strands : Multiset (Strand RequestId TokenId)}
    (h : Tells (stamps events) strands) {requestId : RequestId} {tokens : List TokenId}
    (hmem : ⟨requestId, tokens⟩ ∈ strands) :
    events.filter (·.requestId = requestId) = tokenEventsOf requestId tokens := by
  apply stamps_injective
  rw [stamps_tokenEventsOf, ← h.stamps _ hmem]
  unfold stamps
  rw [List.filter_map]
  rfl

theorem held_of_closedCleanly (h : s.closedCleanly = true) : s.held = 0 := by
  unfold Scheduler.closedCleanly at h
  simp only [Bool.and_eq_true, List.isEmpty_iff] at h
  obtain ⟨⟨⟨⟨_, hrequests⟩, _⟩, houtbox⟩, _⟩ := h
  unfold Scheduler.held Scheduler.ledger
  rw [hrequests, houtbox]
  rfl

/-- A close that succeeds leaves nothing behind. -/
theorem wp_closeEmpties (nowNs : Nat) (inflightAbort : Option ExecutionAbort) :
    wp (close nowNs inflightAbort) (fun _ t => t.held = 0) (fun _ _ => True) s := by
  have hany : ∀ {β γ : Type} {action : CloseM β} {next : β → CloseM γ}
      {ok : γ → Scheduler → Prop} {t : Scheduler},
      (∀ b u, wp (next b) ok (fun _ _ => True) u) → wp (action >>= next) ok (fun _ _ => True) t :=
    fun hnext => wp_seq (wp_any hnext fun _ _ => trivial)
  refine hany fun _ _ => hany fun _ _ => hany fun _ _ => hany fun _ _ => hany fun _ _ => ?_
  refine hany fun _ _ => hany fun _ _ => hany fun settled _ => hany fun answer t => ?_
  cases answer with
  | error error => exact trivial
  | ok remaining =>
      refine wp_read (wp_ite (fun _ => trivial) fun hclean => ?_)
      have hempty := held_of_closedCleanly (Bool.eq_true_of_not_eq_false hclean)
      refine wp_seq ((wp_attempt _).mpr (wp_mono
        (held_of_same (kept_onHost (tryReserveExact "metric percentile scratch")) t)
        (fun _ u hsame => ?_) fun _ u _ => trivial))
      exact Eq.trans (Eq.symm hsame) hempty

/-- Every request is at one place, with the tokens that were published for it. -/
structure Scheduler.ExactlyOnce (submitted : List RequestId) (delivered : List RequestCompletion)
    (events : List TokenEvent) (s : Scheduler) : Prop where
  once : submitted.Nodup
  placed : (s.requests.map RequestRecord.requestId ++
    (s.completionOutbox ++ delivered).map RequestCompletion.requestId).Perm submitted
  streaming : ∀ record ∈ s.requests, events.filter (·.requestId = record.requestId) =
    tokenEventsOf record.requestId record.generatedTokenIds
  streamed : ∀ completion ∈ s.completionOutbox ++ delivered,
    events.filter (·.requestId = completion.requestId) =
      tokenEventsOf completion.requestId completion.generatedTokenIds
  known : ∀ event ∈ events, event.requestId ∈ submitted
  closed : ∀ host nowNs inflightAbort output t,
    close nowNs inflightAbort { s with hostAnswers := host } = .ok output t →
    ((delivered ++ output.completions).map RequestCompletion.requestId).Perm submitted

theorem keys_completed (completions : List RequestCompletion) :
    (completed completions).map Strand.key =
      (completions.map RequestCompletion.requestId : List RequestId) := by
  unfold completed
  rw [Multiset.map_coe, List.map_map]
  rfl

theorem keys_held : s.held.map Strand.key =
    (s.requests.map RequestRecord.requestId ++
      s.completionOutbox.map RequestCompletion.requestId : List RequestId) := by
  unfold Scheduler.held
  rw [Multiset.map_add, keys_completed, Multiset.map_coe, Multiset.coe_add]
  unfold Scheduler.ledger
  rw [List.map_map]
  rfl

theorem Scheduler.Accounted.exactlyOnce (h : s.Accounted submitted delivered events)
    (hnodup : submitted.Nodup) : s.ExactlyOnce submitted delivered events where
  once := hnodup
  placed := by
    have hkeys := h.keys
    rw [Multiset.map_add, keys_held, keys_completed, Multiset.coe_add] at hkeys
    rw [List.map_append, ← List.append_assoc]
    exact Multiset.coe_eq_coe.mp hkeys
  streaming := by
    intro record hrecord
    apply filter_of_tells h.tells
    refine Multiset.mem_add.mpr (.inl (Multiset.mem_add.mpr (.inl ?_)))
    exact Multiset.mem_coe.mpr (List.mem_map_of_mem hrecord)
  streamed := by
    intro completion hcompletion
    apply filter_of_tells h.tells
    have hmem : ∀ {completions : List RequestCompletion}, completion ∈ completions →
        ⟨completion.requestId, completion.generatedTokenIds⟩ ∈ completed completions :=
      fun hmem => Multiset.mem_coe.mpr (List.mem_map_of_mem hmem)
    rcases List.mem_append.mp hcompletion with houtbox | hdelivered
    · exact Multiset.mem_add.mpr (.inl (Multiset.mem_add.mpr (.inr (hmem houtbox))))
    · exact Multiset.mem_add.mpr (.inr (hmem hdelivered))
  known := by
    intro event hevent
    have hknown := h.tells.known event.stamp (List.mem_map_of_mem hevent)
    rw [h.keys] at hknown
    exact Multiset.mem_coe.mp hknown
  closed := by
    intro host nowNs inflightAbort output t hclose
    have hempty := (wp_elim (wp_closeEmpties nowNs inflightAbort)).1 output t hclose
    have hall := (delivers_close nowNs inflightAbort).ok hclose
    change t.held + completed output.completions = s.held at hall
    have hkeys := h.keys
    rw [← hall, hempty, zero_add, add_comm, ← completed_append, keys_completed] at hkeys
    exact Multiset.coe_eq_coe.mp hkeys

/-- In every history of a scheduler, each accepted request is alive, in the outbox or delivered,
and never more than once; its tokens are the token events that were published for it, in order
and numbered from zero. After a close that succeeds, every request has been delivered. -/
theorem completes_exactly_once
    (hnew : Scheduler.new cookie config layout host = .ok start host')
    (hhistory : start.History submitted delivered events s) :
    s.ExactlyOnce submitted delivered events :=
  (hhistory.accounted hnew).exactlyOnce (hhistory.nodup hnew)

/-- The plan of the two requests of `submitTwice`, and its result: the first request ends with
one token while the second one waits. -/
def planned : Scheduler := Call.run (.planIteration 3) { submitTwice with hostAnswers := [] }

def stopFirst : IterationResult where
  iterationId := ⟨1, Nat.one_ne_zero⟩
  outputs := [⟨0, 9, true⟩]
  unique := List.nodup_singleton _

def stoppedFirst : Scheduler :=
  Call.run (.completeIteration stopFirst 4) { planned with hostAnswers := [] }

theorem stoppedFirst_history :
    oneSeatNew.History [⟨1, Nat.one_ne_zero⟩, ⟨2, Nat.succ_ne_zero 1⟩]
      [⟨⟨1, Nat.one_ne_zero⟩, .stop, [9], 0, 4⟩] [⟨⟨1, Nat.one_ne_zero⟩, 9, 0⟩] stoppedFirst := by
  have hplan : Call.deliveries (.planIteration 3) { submitTwice with hostAnswers := [] } = [] := by
    decide +kernel
  have hdelivers : Call.deliveries (.completeIteration stopFirst 4)
      { planned with hostAnswers := [] } = [⟨⟨1, Nat.one_ne_zero⟩, .stop, [9], 0, 4⟩] := by
    decide +kernel
  have hevents : Call.tokenEvents (.completeIteration stopFirst 4)
      { planned with hostAnswers := [] } = [⟨⟨1, Nat.one_ne_zero⟩, 9, 0⟩] := by
    decide +kernel
  have hsubmitted : oneSeatNew.History [⟨1, Nat.one_ne_zero⟩, ⟨2, Nat.succ_ne_zero 1⟩] [] []
      submitTwice :=
    .call [] (.submit ⟨[5], 2⟩ 2) (.call [] (.submit ⟨[5], 2⟩ 1) .start)
  have hplanned := hsubmitted.call [] (.planIteration 3)
  have hcompleted := hplanned.call [] (.completeIteration stopFirst 4)
  rw [hplan] at hcompleted
  change oneSeatNew.History _ ([] ++ Call.deliveries (.completeIteration stopFirst 4)
    { planned with hostAnswers := [] }) ([] ++ Call.tokenEvents (.completeIteration stopFirst 4)
    { planned with hostAnswers := [] }) stoppedFirst at hcompleted
  rw [hdelivers, hevents] at hcompleted
  exact hcompleted

theorem completes_exactly_once_stopped :
    stoppedFirst.ExactlyOnce [⟨1, Nat.one_ne_zero⟩, ⟨2, Nat.succ_ne_zero 1⟩]
      [⟨⟨1, Nat.one_ne_zero⟩, .stop, [9], 0, 4⟩] [⟨⟨1, Nat.one_ne_zero⟩, 9, 0⟩] :=
  completes_exactly_once oneSeatNew_new stoppedFirst_history

end Histories

end Riley.Scheduling
