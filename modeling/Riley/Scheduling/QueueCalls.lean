import Mathlib
import Riley.Scheduling.Queue
import Riley.Scheduling.Calls

/-!
What the public calls other than planning do to the queue: a new request joins its end or is
admitted past an empty one, a cancelled request leaves from wherever it stands, and the others
leave the queue as it is.
-/

namespace Riley.Scheduling

open PagedKv Outcome Relation

/-- From a roster in order to one whose queue was changed so at most. -/
def Orderly (admitted : List RequestId) (change : List RequestId → List RequestId → Prop)
    (s t : Scheduler) : Prop :=
  s.roster.Ok admitted → Roster.Keeps admitted change s.roster t.roster

/-- Some left the queue and the others kept their order. -/
def Thins (queue rest : List RequestId) : Prop := rest.Sublist queue

instance reflThins : Std.Refl Thins := ⟨List.Sublist.refl⟩

instance isTransThins : IsTrans (List RequestId) Thins := ⟨fun _ _ _ h h' => h'.trans h⟩

section Orderly

variable {α : Type} {s t : Scheduler} {admitted : List RequestId}
  {change : List RequestId → List RequestId → Prop}

instance reflOrderly [Std.Refl change] : Std.Refl (Orderly admitted change) :=
  ⟨fun s h => ⟨h, refl_of change s.waiting, rfl⟩⟩

theorem Roster.Keeps.trans [IsTrans (List RequestId) change] {roster middle roster' : Roster}
    (h : Roster.Keeps admitted change roster middle)
    (h' : Roster.Keeps admitted change middle roster') :
    Roster.Keeps admitted change roster roster' :=
  ⟨h'.ok, trans_of change h.queue h'.queue, h'.issues.trans h.issues⟩

instance isTransOrderly [IsTrans (List RequestId) change] :
    IsTrans Scheduler (Orderly admitted change) :=
  ⟨fun _ _ _ h h' hs => (h hs).trans (h' (h hs).ok)⟩

/-- It is enough to look at runs from a roster in order. -/
theorem moves_orderly {ε : Type} {action : EStateM ε Scheduler α}
    (h : ∀ s, s.roster.Ok admitted →
      wp action (fun _ t => Roster.Keeps admitted change s.roster t.roster)
        (fun _ t => Roster.Keeps admitted change s.roster t.roster) s) :
    Moves (Orderly admitted change) action := by
  intro s
  by_cases hs : s.roster.Ok admitted
  · exact wp_mono (h s hs) (fun _ _ hkept _ => hkept) fun _ _ hkept _ => hkept
  · exact wp_any (fun _ _ hok => absurd hok hs) fun _ _ hok => absurd hok hs

variable [Std.Refl change]

theorem Roster.Keeps.of_eq {roster roster' : Roster} (h : Roster.Keeps admitted Eq roster roster') :
    Roster.Keeps admitted change roster roster' :=
  ⟨h.ok, h.queue ▸ refl_of change roster.waiting, h.issues⟩

theorem orderly_of_same {action : SchedulerM α} (h : Moves SameRoster action) :
    Moves (Orderly admitted change) action :=
  h.mono fun _ _ hsame hok => (Roster.Keeps.of_same hok (Eq.symm hsame)).of_eq

theorem orderly_of_turning {action : SchedulerM α} (h : Moves (Turning (· ∈ admitted)) action) :
    Moves (Orderly admitted change) action :=
  h.mono fun s _ hturned hok => by
    obtain ⟨hok', hended⟩ := hok.worked hturned
    exact (Roster.Keeps.of_ended hok' hended).of_eq

theorem orderly_observeNow (nowNs : Nat) : Moves (Orderly admitted change) (observeNow nowNs) :=
  fun s => wp_validate (fun hnow h => ⟨h.observed hnow, refl_of change s.waiting, rfl⟩)
    fun _ => refl_of (Orderly admitted change) s

theorem orderly_drain : Moves (Orderly admitted change) drainCompletionOutbox :=
  fun s h => ⟨h.delivered [], refl_of change s.waiting, rfl⟩

theorem orderly_pop : Moves (Orderly admitted change) popPendingCompletion :=
  fun s h => ⟨h.delivered _, refl_of change s.waiting, rfl⟩

theorem same_ensureCompletionBacklogEmpty : Moves SameRoster ensureCompletionBacklogEmpty :=
  .bind .get fun _ => .rejectIf _ _

theorem same_ensureNoIterationInFlight : Moves SameRoster ensureNoIterationInFlight := by
  refine .bind .get fun s => ?_
  split
  · exact .pure _
  · exact .throw _

end Orderly

section Submit

variable {α : Type} {s : Scheduler} {admitted : List RequestId}
  {ok : α → Scheduler → Prop} {err : SchedulerError → Scheduler → Prop}

/-- The requests that a submission admits at once. -/
def Submission.admissions (submission : Submission) : List RequestId :=
  if submission.state = .admitted then [submission.requestId] else []

/-- A new request joined the end of the queue, and was admitted if it could be. -/
structure Roster.Joined (admitted : List RequestId) (submission : Submission)
    (roster roster' : Roster) : Prop where
  ok : roster'.Ok (admitted ++ submission.admissions)
  queue : roster.waiting ++ [submission.requestId] = submission.admissions ++ roster'.waiting
  issued : submission.requestId.value = roster.nextRequestId
  issues : roster'.nextRequestId = roster.nextRequestId + 1

theorem wp_peekRequestId {next : RequestId → SchedulerM α}
    (hnext : ∀ id, id.value = s.nextRequestId → s.nextRequestId + 1 ≤ u64Max →
      wp (next id) ok err s) (herr : ∀ e, err e s) : wp (peekRequestId >>= next) ok err s := by
  refine wp_seq (wp_read (wp_seq ((wp_orReject _ _).mpr ⟨fun _ => herr _, fun more hmore => ?_⟩)))
  refine (wp_orReject _ _).mpr ⟨fun _ => herr _, fun id hid => ?_⟩
  unfold RequestId.new at hid
  split_ifs at hid
  cases hid
  exact hnext _ rfl (checkedAdd_eq_some.mp hmore).2

theorem wp_advanceRequestId {next : Unit → SchedulerM α} (hmore : s.nextRequestId + 1 ≤ u64Max)
    (hnext : wp (next ()) ok err { s with nextRequestId := s.nextRequestId + 1 }) :
    wp (advanceRequestId >>= next) ok err s :=
  wp_seq (wp_read (wp_some (checkedAdd_eq_some.mpr ⟨rfl, hmore⟩) hnext))

theorem wp_validateWaitingCapacity (promptTokens : Nat) :
    wp (validateWaitingCapacity promptTokens) (fun _ t => t = s) (fun _ t => t = s) s := by
  refine wp_read (wp_check (fun _ => rfl) fun _ => ?_)
  refine wp_seq ((wp_orReject _ _).mpr ⟨fun _ => rfl, fun _ _ => ?_⟩)
  exact (wp_rejectIf _ _).mpr ⟨fun _ => rfl, fun _ => rfl⟩

theorem seats_append (record : RequestRecord) :
    (s.requests ++ [record]).map RequestRecord.seat = s.roster.seats ++ [record.seat] :=
  List.map_append

/-- A new request that is admitted past an empty queue. -/
theorem wp_enterRequest (h : s.roster.Ok admitted) {descriptor : RequestDescriptor}
    {id : RequestId} {maximum promised nowNs : Nat} (hid : id.value = s.nextRequestId)
    (hmore : s.nextRequestId + 1 ≤ u64Max) (hnow : s.lastNowNs = some nowNs)
    (hempty : s.waiting = []) (hcan : s.canAdmit promised = true) :
    wp (do
        let record ← admitRecord (.new id descriptor promised nowNs) maximum nowNs
        modify fun s => { s with requests := s.requests ++ [record] }
        advanceRequestId
        return (⟨id, .admitted⟩ : Submission))
      (fun submission t => Roster.Joined admitted submission s.roster t.roster)
      (fun _ t => Roster.Keeps admitted Eq s.roster t.roster) s := by
  obtain ⟨hplace, hpromised, -⟩ := canAdmit_iff.mp hcan
  refine wp_seq (wp_createAny (fun sequence pool host => ?_) fun _ _ _ => .of_same h rfl)
  have hallowed : ¬ validTransition (RequestRecord.new id descriptor promised nowNs).state
      .admitted = false := by
    change ¬ validTransition .waiting .admitted = false
    decide
  refine wp_passes hallowed (wp_promise ?_ hpromised ?_)
  · exact Nat.succ_le_of_lt (hplace.trans_le h.active_bound)
  · refine wp_write (wp_advanceRequestId hmore ?_)
    have hentered := @Roster.Ok.enter admitted s.roster
      ⟨id, false, nowNs, descriptor.promptTokenIds.length⟩ h rfl hid hnow hempty hplace
    have hseats := @seats_append s
      (Scheduling.admitted sequence nowNs (.new id descriptor promised nowNs))
    refine ⟨?_, ?_, hid, rfl⟩
    · change Roster.Ok (admitted ++ [id]) (Roster.mk _ _ ((s.requests ++
        [Scheduling.admitted sequence nowNs (.new id descriptor promised nowNs)]).map
          RequestRecord.seat) _ _ _ _ _ _ _ _)
      rw [hseats]
      exact hentered
    · change s.waiting ++ [id] = [id] ++ s.waiting
      rw [hempty]
      rfl

/-- A new request that has to wait. -/
theorem wp_queueRequest (h : s.roster.Ok admitted) {descriptor : RequestDescriptor}
    {id : RequestId} {promised nowNs : Nat} (hid : id.value = s.nextRequestId)
    (hmore : s.nextRequestId + 1 ≤ u64Max) (hnow : s.lastNowNs = some nowNs) :
    wp (do
        enqueueWaiting id descriptor.promptTokenIds.length
        modify fun s => { s with
          requests := s.requests ++ [RequestRecord.new id descriptor promised nowNs] }
        advanceRequestId
        return (⟨id, .waiting⟩ : Submission))
      (fun submission t => Roster.Joined admitted submission s.roster t.roster)
      (fun _ t => Roster.Keeps admitted Eq s.roster t.roster) s := by
  refine wp_seq (wp_read (wp_seq ((wp_orReject _ _).mpr
    ⟨fun _ => .of_same h rfl, fun tokens htokens => ?_⟩)))
  obtain ⟨rfl, -⟩ := checkedAdd_eq_some.mp htokens
  refine wp_write (wp_advanceRequestId hmore ⟨?_, rfl, hid, rfl⟩)
  have hqueued := @Roster.Ok.enqueue admitted s.roster
    ⟨id, true, nowNs, descriptor.promptTokenIds.length⟩ h rfl hid hnow
  have hseats := @seats_append s (.new id descriptor promised nowNs)
  change Roster.Ok (admitted ++ []) (Roster.mk _ _ ((s.requests ++
    [RequestRecord.new id descriptor promised nowNs]).map RequestRecord.seat) _ _ _ _ _ _ _ _)
  rw [hseats, List.append_nil]
  exact hqueued

/-- The part of `submit` after its checks. -/
theorem wp_acceptRequest (h : s.roster.Ok admitted) {descriptor : RequestDescriptor}
    {maximum promised nowNs : Nat} {canAdmit : Bool} (hnow : s.lastNowNs = some nowNs)
    (hopen : canAdmit = true → s.waiting = [] ∧ s.canAdmit promised = true) :
    wp (acceptRequest descriptor maximum promised canAdmit nowNs)
      (fun submission t => Roster.Joined admitted submission s.roster t.roster)
      (fun _ t => Roster.Keeps admitted Eq s.roster t.roster) s := by
  refine wp_onHost (fun t ht => ?_) fun _ t _ ht => ?_
  · obtain ⟨host, -, rfl⟩ := ht
    refine wp_peekRequestId (fun id hid hmore => ?_) fun _ => .of_same h rfl
    refine wp_onHost (fun u hu => ?_) fun _ u _ hu => ?_
    · obtain ⟨host', -, rfl⟩ := hu
      refine wp_ite (fun hcan => ?_) fun _ => ?_
      · exact @wp_enterRequest { s with hostAnswers := host' } admitted h descriptor id maximum
          promised nowNs hid hmore hnow (hopen hcan).1 (hopen hcan).2
      · exact @wp_queueRequest { s with hostAnswers := host' } admitted h descriptor id promised
          nowNs hid hmore hnow
    · obtain ⟨host', -, rfl⟩ := hu
      exact .of_same h rfl
  · obtain ⟨host, -, rfl⟩ := ht
    exact .of_same h rfl

theorem wp_submit (h : s.roster.Ok admitted) (descriptor : RequestDescriptor) (nowNs : Nat) :
    wp (submit descriptor nowNs)
      (fun submission t => Roster.Joined admitted submission s.roster t.roster)
      (fun _ t => Roster.Keeps admitted Eq s.roster t.roster) s := by
  refine wp_backlog (fun _ => ?_) fun _ => .of_same h rfl
  refine wp_read (wp_check (fun _ => .of_same h rfl) fun _ => ?_)
  refine wp_observe (fun hnow => ?_) fun _ => .of_same h rfl
  have hobserved : (Scheduler.roster { s with lastNowNs := some nowNs }).Ok admitted :=
    h.observed hnow
  have hkept : Roster.Keeps admitted Eq s.roster
      (Scheduler.roster { s with lastNowNs := some nowNs }) := ⟨hobserved, rfl, rfl⟩
  refine wp_read (wp_seq ((wp_fromExcept _).mpr ⟨fun _ _ => hkept, fun maximum _ => ?_⟩))
  refine wp_check (fun _ => hkept) fun _ => wp_check (fun _ => hkept) fun _ => ?_
  have haccept := @wp_acceptRequest { s with lastNowNs := some nowNs } admitted hobserved
    descriptor maximum (blocksForLength maximum) nowNs
    (s.waiting.isEmpty && s.canAdmit (blocksForLength maximum)) rfl fun hcan => by
      obtain ⟨hempty, hfits⟩ := (Bool.and_eq_true_iff).mp hcan
      exact ⟨List.isEmpty_iff.mp hempty, hfits⟩
  have hdone := wp_mono haccept
    (fun submission t hjoined => (⟨hjoined.ok, hjoined.queue, hjoined.issued, hjoined.issues⟩ :
      Roster.Joined admitted submission s.roster t.roster))
    fun _ t hfailed => hkept.trans hfailed
  refine wp_seq ((wp_runIf _ _).mpr ⟨fun _ => ?_, fun _ => hdone⟩)
  refine wp_mono (wp_validateWaitingCapacity _) (fun _ t hsame => ?_) fun _ t hsame => ?_
  · rw [hsame]
    exact hdone
  · rw [hsame]
    exact hkept

end Submit

section Setters

variable {admitted : List RequestId}

theorem same_setAtomicPrefillChunks (enabled : Bool) :
    Moves SameRoster (setAtomicPrefillChunks enabled) :=
  fun _ => wp_read (wp_check (fun _ => rfl) fun _ => rfl)

theorem same_setPrefillPlateauPolicy (policy : Option PrefillPlateauPolicy) :
    Moves SameRoster (setPrefillPlateauPolicy policy) :=
  fun _ => wp_read (wp_check (fun _ => rfl) fun _ =>
    wp_seq ((wp_fromExcept _).mpr ⟨fun _ _ => rfl, fun _ _ => rfl⟩))

theorem same_setPrefillCoalescingPolicy (policy : Option PrefillCoalescingPolicy) :
    Moves SameRoster (setPrefillCoalescingPolicy policy) :=
  fun _ => wp_read (wp_seq ((wp_fromExcept _).mpr ⟨fun _ _ => rfl, fun _ _ => rfl⟩))

theorem PrefillBurstPolicy.bounds_of_validate {policy policy' : PrefillBurstPolicy}
    {budget : Nat} (h : policy.validate budget = .ok policy') :
    0 < policy'.steadyBudget ∧ policy'.steadyBudget < budget := by
  obtain ⟨_, hpos, h⟩ := except_bind_eq_ok.mp h
  split_ifs at h with hbudget
  cases h
  exact ⟨validateNonzero_eq_ok.mp hpos, Nat.not_le.mp hbudget⟩

/-- A burst policy is only taken with a steady budget below that of the configuration. -/
theorem orderly_setPrefillBurstPolicy (policy : Option PrefillBurstPolicy) :
    Moves (Orderly admitted Eq) (setPrefillBurstPolicy policy) := by
  intro s
  refine wp_read (wp_seq ((wp_fromExcept _).mpr ⟨fun _ _ h => ⟨h, rfl, rfl⟩, fun taken htaken h => ?_⟩))
  have hbounds : ∀ policy', taken = some policy' →
      0 < policy'.steadyBudget ∧ policy'.steadyBudget < s.config.iterationTokenBudget := by
    intro policy' hsome
    rw [hsome] at htaken
    cases policy with
    | none => cases htaken
    | some policy =>
        change (policy.validate _).map some = _ at htaken
        cases hvalid : policy.validate s.config.iterationTokenBudget with
        | error e =>
            rw [hvalid] at htaken
            cases htaken
        | ok valid =>
            rw [hvalid] at htaken
            cases htaken
            exact PrefillBurstPolicy.bounds_of_validate hvalid
  exact ⟨{ h with burst_ok := hbounds }, rfl, rfl⟩

theorem same_enablePrefixCache (maxBlocks : Nat) :
    Moves SameRoster (enablePrefixCache maxBlocks) := by
  refine .bind .get fun s => .bind (.rejectIf _ _) fun _ => .bind (.rejectIf _ _) fun _ => ?_
  refine .bind (.rejectIf _ _) fun _ => .bind (same_onHost _) fun cache => ?_
  exact .modify fun _ => rfl

theorem same_beginShutdown : Moves SameRoster beginShutdown := .modify fun _ => rfl

end Setters

section Settle

variable {α : Type} {s : Scheduler} {admitted : List RequestId} {ids : RequestId → Prop}
  {ok : α → Scheduler → Prop} {err : SchedulerError → Scheduler → Prop}

theorem same_requireInflight : Moves SameRoster requireInflight :=
  .bind .get fun _ => .orReject _ _

theorem same_validateIterationResult (result : IterationResult) :
    Moves SameRoster (validateIterationResult result) := by
  refine .bind same_requireInflight fun _ => .bind (.rejectIf _ _) fun _ => ?_
  exact .bind (.rejectIf _ _) fun _ => .bind (.rejectIf _ _) fun _ => .rejectIf _ _

theorem same_checkReservedTable (item : InflightItem) (record : RequestRecord)
    (missing : String) : Moves SameRoster (checkReservedTable item record missing) :=
  .bind (.orReject _ _) fun _ => .bind (.fromExcept _) fun _ => .rejectIf _ _

theorem same_validateInflightReservations : Moves SameRoster validateInflightReservations :=
  .bind same_requireInflight fun _ => .forEach _ fun _ =>
    .bind (same_requireRecord _) fun _ => same_checkReservedTable _ _ _

theorem wp_takeInflight {next : InflightPlan → SchedulerM α}
    (hnext : ∀ plan, s.inflight = some plan → wp (next plan) ok err { s with inflight := none })
    (herr : ∀ e, err e s) : wp (takeInflight >>= next) ok err s := by
  refine wp_seq (wp_seq (wp_read ((wp_orReject _ _).mpr ⟨fun _ => herr _, fun plan hplan => ?_⟩)))
  exact hnext plan hplan

/-- A settled item is about the request of its reservation. -/
theorem wp_prevalidateItem (result : IterationResult) (item : InflightItem) :
    wp (prevalidateItem result item)
      (fun settled t => t.roster = s.roster ∧ settled.requestId = item.requestId)
      (fun _ t => t.roster = s.roster) s := by
  refine wp_check (fun _ => rfl) fun _ => wp_require rfl fun index record _ _ => ?_
  refine wp_same (same_checkReservedTable _ _ _) (fun _ t hsame => ?_) fun _ _ hsame => hsame
  refine wp_seq ((wp_fromExcept _).mpr ⟨fun _ _ => hsame, fun output _ => ?_⟩)
  refine wp_seq ((wp_fromExcept _).mpr ⟨fun _ _ => hsame, fun target _ => ?_⟩)
  exact wp_check (fun _ => hsame) fun _ => ⟨hsame, rfl⟩

theorem wp_prevalidateItems (result : IterationResult) (items : List InflightItem)
    (h : ∀ item ∈ items, ids item.requestId) :
    wp (prevalidateItems result items)
      (fun settled t => t.roster = s.roster ∧ ∀ item ∈ settled, ids item.requestId)
      (fun _ t => t.roster = s.roster) s := by
  induction items generalizing s with
  | nil => exact ⟨rfl, nofun⟩
  | cons item rest ih =>
      refine wp_call (wp_prevalidateItem result item) (fun settled t hsettled => ?_)
        fun _ _ hsame => hsame
      obtain ⟨hsame, hid⟩ := hsettled
      refine wp_call (ih fun other hother => h other (List.mem_cons_of_mem _ hother))
        (fun others u hothers => ?_) fun _ _ hagain => hagain.trans hsame
      refine ⟨hothers.1.trans hsame, fun other hother => ?_⟩
      rcases List.mem_cons.mp hother with rfl | hother
      · exact hid ▸ h item List.mem_cons_self
      · exact hothers.2 other hother

theorem wp_prevalidateRunning (h : s.roster.Ok admitted) (result : IterationResult) :
    wp (prevalidateCompletionPublication result)
      (fun settled t => t.roster = s.roster ∧ ∀ item ∈ settled, item.requestId ∈ admitted)
      (fun _ t => t.roster = s.roster) s := by
  refine wp_seq (wp_read ((wp_orReject _ _).mpr ⟨fun _ => rfl, fun plan hplan => ?_⟩))
  refine wp_same (same_onHost _) (fun _ t hsame => ?_) fun _ _ hsame => hsame
  refine wp_mono (wp_prevalidateItems result plan.items fun item hitem =>
    (h.inflight plan hplan item hitem).1) (fun settled u hsettled => ?_)
    fun _ _ hagain => hagain.trans hsame
  exact ⟨hsettled.1.trans hsame, hsettled.2⟩

/-- The items that committed are among those that were settled. -/
theorem wp_committed (nowNs : Nat) (items : List (InflightItem × SettledInflightItem)) :
    wp (commitItems nowNs items) (fun result _ => result.1 ⊆ items.map Prod.snd)
      (fun _ _ => True) s := by
  induction items generalizing s with
  | nil => exact List.nil_subset _
  | cons item rest ih =>
      refine wp_seq (wp_any (fun answer t => ?_) fun _ _ => trivial)
      cases answer with
      | ok _ =>
          refine wp_call ih (fun result u hresult => ?_) fun _ _ _ => trivial
          exact List.cons_subset_cons _ hresult
      | error error =>
          refine wp_seq (wp_any (fun reclaimed u => ?_) fun _ _ => trivial)
          refine wp_call ih (fun result v hresult => ?_) fun _ _ _ => trivial
          exact List.subset_cons_of_subset _ hresult

/-- Settling a plan works on requests that have been admitted. -/
theorem orderly_completeIteration (result : IterationResult) (nowNs : Nat) :
    Moves (Orderly admitted Eq) (completeIteration result nowNs) := by
  refine moves_orderly fun s h => ?_
  refine wp_backlog (fun _ => ?_) fun _ => .of_same h rfl
  refine wp_validate (fun hnow => ?_) fun _ => .of_same h rfl
  refine wp_same (same_validateIterationResult _) (fun _ t hsame => ?_)
    fun _ _ hsame => .of_same h hsame
  refine wp_same same_requireInflight (fun inflight u hread => ?_)
    fun _ _ hread => .of_same h (hread.trans hsame)
  replace hsame := hread.trans hsame
  refine wp_seq ((wp_orReject _ _).mpr ⟨fun _ => .of_same h hsame, fun _ _ => ?_⟩)
  refine wp_same (.forEach _ fun _ => same_onHost _) (fun _ v hreserved => ?_)
    fun _ _ hreserved => .of_same h (hreserved.trans hsame)
  replace hsame := hreserved.trans hsame
  refine wp_same (same_ensureCompletionCapacity _) (fun _ w hroom => ?_)
    fun _ _ hroom => .of_same h (hroom.trans hsame)
  replace hsame := hroom.trans hsame
  refine wp_call (wp_prevalidateRunning (hsame ▸ h) result) (fun settled x hsettled => ?_)
    fun _ _ hagain => .of_same h (hagain.trans hsame)
  obtain ⟨hagain, hids⟩ := hsettled
  replace hsame := hagain.trans hsame
  refine wp_same (same_onHost _) (fun _ y hlast => ?_)
    fun _ _ hlast => .of_same h (hlast.trans hsame)
  replace hsame := hlast.trans hsame
  have hobserved := (hsame ▸ h : y.roster.Ok admitted).observed (by rw [hsame]; exact hnow)
  have hqueue := congrArg Roster.waiting hsame
  have hissues := congrArg Roster.nextRequestId hsame
  refine wp_write (wp_takeInflight (fun plan hplan => ?_) fun _ => ⟨hobserved, hqueue.symm, hissues⟩)
  have hrunning : ∀ item ∈ plan.items.zip settled, item.1.requestId ∈ admitted := fun item hitem =>
    (hobserved.inflight plan hplan item.1 (List.of_mem_zip hitem).1).1
  have htaken : Roster.Keeps admitted Eq s.roster
      (Scheduler.roster { y with lastNowNs := some nowNs, inflight := none }) :=
    ⟨hobserved.settled, hqueue.symm, hissues⟩
  refine wp_call (wp_and (wp_committed nowNs _)
    (orderly_of_turning (turning_commitItems nowNs _ hrunning) _))
    (fun committing z hcommitted => ?_) fun _ _ hfailed => htaken.trans (hfailed.2 htaken.ok)
  obtain ⟨hsub, hcommitted⟩ := hcommitted
  replace htaken := htaken.trans (hcommitted htaken.ok)
  have hcommittedIds : ∀ item ∈ committing.1, item.requestId ∈ admitted := by
    intro item hitem
    obtain ⟨pair, hpair, rfl⟩ := List.mem_map.mp (hsub hitem)
    exact hids pair.2 (List.of_mem_zip hpair).2
  have hfail : Moves (Orderly admitted Eq) (failCommitted nowNs committing.1) :=
    orderly_of_turning (turning_failCommitted nowNs _ hcommittedIds)
  have hpublish : Moves (Orderly admitted Eq) (publishItems nowNs committing.1) :=
    orderly_of_turning (turning_publishItems nowNs _ hcommittedIds)
  refine wp_ite (fun _ => ?_) fun _ => ?_
  · exact wp_mono ((Moves.bind hfail fun _ => .bind orderly_drain fun _ => .pure _) z)
      (fun _ _ hdone => htaken.trans (hdone htaken.ok))
      fun _ _ hdone => htaken.trans (hdone htaken.ok)
  · exact wp_mono ((Moves.bind hpublish fun _ => .bind orderly_drain fun _ => .pure _) z)
      (fun _ _ hdone => htaken.trans (hdone htaken.ok))
      fun _ _ hdone => htaken.trans (hdone htaken.ok)

theorem orderly_abortIteration (iterationId : IterationId) (abort : ExecutionAbort)
    (nowNs : Nat) : Moves (Orderly admitted Eq) (abortIteration iterationId abort nowNs) := by
  refine moves_orderly fun s h => ?_
  refine wp_backlog (fun _ => ?_) fun _ => .of_same h rfl
  refine wp_validate (fun hnow => ?_) fun _ => .of_same h rfl
  refine wp_same same_requireInflight (fun inflight t hsame => ?_)
    fun _ _ hsame => .of_same h hsame
  refine wp_check (fun _ => .of_same h hsame) fun _ => ?_
  refine wp_same same_validateInflightReservations (fun _ u hvalid => ?_)
    fun _ _ hvalid => .of_same h (hvalid.trans hsame)
  replace hsame := hvalid.trans hsame
  refine wp_same (.forEach _ fun _ => same_onHost _) (fun _ v hreserved => ?_)
    fun _ _ hreserved => .of_same h (hreserved.trans hsame)
  replace hsame := hreserved.trans hsame
  refine wp_same (same_ensureCompletionCapacity _) (fun _ w hroom => ?_)
    fun _ _ hroom => .of_same h (hroom.trans hsame)
  replace hsame := hroom.trans hsame
  have hobserved := (hsame ▸ h : w.roster.Ok admitted).observed (by rw [hsame]; exact hnow)
  have hqueue := congrArg Roster.waiting hsame
  have hissues := congrArg Roster.nextRequestId hsame
  refine wp_write (wp_takeInflight (fun plan hplan => ?_) fun _ => ⟨hobserved, hqueue.symm, hissues⟩)
  have htaken : Roster.Keeps admitted Eq s.roster
      (Scheduler.roster { w with lastNowNs := some nowNs, inflight := none }) :=
    ⟨hobserved.settled, hqueue.symm, hissues⟩
  have hdrop : Moves (Orderly admitted Eq)
      (runIf (abort = .deviceQuiescedMutationUnknown) dropPrefixCacheEntries) :=
    .runIf fun _ => orderly_of_same same_dropPrefixCacheEntries
  have habort : Moves (Orderly admitted Eq) (abortItems abort nowNs plan.items) :=
    orderly_of_turning (turning_abortItems abort nowNs _ (hobserved.inflight plan hplan))
  have hrest := Moves.bind hdrop fun _ => .bind habort fun failures =>
    .bind orderly_drain fun completions => .pure (IterationUpdates.mk [] completions failures)
  exact wp_mono (hrest _) (fun _ _ hdone => htaken.trans (hdone htaken.ok))
    fun _ _ hdone => htaken.trans (hdone htaken.ok)

end Settle

section Leaving

variable {s : Scheduler} {admitted : List RequestId}

/-- A request that is cancelled leaves the queue if it stands there. -/
theorem wp_finishCancelled (h : s.roster.Ok admitted) (requestId : RequestId) (nowNs : Nat) :
    wp (finishLiveRequest requestId .cancelled nowNs)
      (fun _ t => Roster.Keeps admitted (fun queue rest => rest = queue.erase requestId)
        s.roster t.roster)
      (fun _ t => Roster.Keeps admitted Eq s.roster t.roster) s := by
  by_cases hqueued : requestId ∈ s.waiting
  · refine wp_mono (wp_finishWaiting h hqueued rfl nowNs) (fun _ t hleft => ?_) fun _ t hsame => ?_
    · obtain ⟨hok, hleft⟩ := hleft
      have hissues := congrArg Roster.nextRequestId hleft.same
      exact ⟨hok, hleft.waiting, hissues⟩
    · rw [hsame.1]
      exact .of_same h rfl
  · have hturns : ∀ t, Turning (Eq requestId) s t → Roster.Keeps admitted Eq s.roster t.roster := by
      intro t hturned
      obtain ⟨hok, hended⟩ := h.turns hturned fun id hid => hid ▸ hqueued
      exact .of_ended hok hended
    refine wp_mono (turning_finish rfl (by decide) nowNs s) (fun _ t hturned => ?_)
      fun _ t hturned => hturns t hturned
    have hkept := hturns t hturned
    refine ⟨hkept.ok, ?_, hkept.issues⟩
    rw [← hkept.queue]
    exact (List.erase_of_not_mem hqueued).symm

/-- A cancelled request leaves from wherever it stands and the others stay. -/
def Drops (requestId : RequestId) (queue rest : List RequestId) : Prop :=
  rest = queue ∨ rest = queue.erase requestId

theorem Drops.thins {requestId : RequestId} {queue rest : List RequestId}
    (h : Drops requestId queue rest) : Thins queue rest := by
  rcases h with rfl | rfl
  · exact List.Sublist.refl _
  · exact List.erase_sublist

theorem orderly_cancel (requestId : RequestId) (nowNs : Nat) :
    Moves (Orderly admitted (Drops requestId)) (cancel requestId nowNs) := by
  refine moves_orderly fun s h => ?_
  refine wp_backlog (fun _ => ?_) fun _ => ⟨h, .inl rfl, rfl⟩
  refine wp_observe (fun hnow => ?_) fun _ => ⟨h, .inl rfl, rfl⟩
  have hobserved : (Scheduler.roster { s with lastNowNs := some nowNs }).Ok admitted :=
    h.observed hnow
  have hstay : ∀ t : Scheduler, t.roster = Scheduler.roster { s with lastNowNs := some nowNs } →
      Roster.Keeps admitted (Drops requestId) s.roster t.roster := by
    intro t hsame
    rw [hsame]
    exact ⟨hobserved, .inl rfl, rfl⟩
  refine wp_read (wp_ite (fun _ => hstay _ rfl) fun _ => ?_)
  refine wp_require (hstay _ rfl) fun index record _ _ => wp_ite (fun _ => hstay _ rfl) fun _ => ?_
  refine wp_ite (fun _ => ?_) fun _ => ?_
  · exact wp_same (same_modifyRecord (fun _ => by rfl) _) (fun _ t hsame => hstay t hsame)
      fun _ t hsame => hstay t hsame
  · refine wp_same (same_ensureCompletionCapacity 1) (fun _ t hsame => ?_)
      fun _ t hsame => hstay t hsame
    refine wp_call (wp_finishCancelled (hsame ▸ hobserved) requestId nowNs) (fun _ u hleft => ?_)
      fun _ u hfailed => ?_
    · rw [hsame] at hleft
      have hpop : wp popPendingCompletion
          (fun _ v => Roster.Keeps admitted (Drops requestId) s.roster v.roster)
          (fun _ v => Roster.Keeps admitted (Drops requestId) s.roster v.roster) u :=
        ⟨hleft.ok.delivered _, .inr hleft.queue, hleft.issues⟩
      exact wp_call hpop (fun _ v hkept => wp_seq ((wp_orReject _ _).mpr
        ⟨fun _ => hkept, fun _ _ => hkept⟩)) fun _ _ hkept => hkept
    · rw [hsame] at hfailed
      exact ⟨hfailed.ok, .inl hfailed.queue.symm, hfailed.issues⟩

theorem orderly_finishCancelled (requestId : RequestId) (nowNs : Nat) :
    Moves (Orderly admitted Thins) (finishLiveRequest requestId .cancelled nowNs) := by
  refine moves_orderly fun s h => ?_
  refine wp_mono (wp_finishCancelled h requestId nowNs) (fun _ t hleft => ?_)
    fun _ _ hkept => hkept.of_eq
  refine ⟨hleft.ok, ?_, hleft.issues⟩
  rw [hleft.queue]
  exact List.erase_sublist

theorem orderly_cancelLast (nowNs : Nat) : Moves (Orderly admitted Thins) (cancelLast nowNs) := by
  refine .bind .get fun s => ?_
  split
  · exact .pure _
  · exact .bind (orderly_finishCancelled _ _) fun _ => .pure _

theorem orderly_shutdown (nowNs : Nat) : Moves (Orderly admitted Thins) (shutdown nowNs) := by
  refine .bind (orderly_of_same same_beginShutdown) fun _ => ?_
  refine .bind (orderly_of_same same_ensureCompletionBacklogEmpty) fun _ => ?_
  refine .bind (orderly_observeNow nowNs) fun _ => ?_
  refine .bind (orderly_of_same same_ensureNoIterationInFlight) fun _ => ?_
  refine .bind (orderly_of_same (same_onHost _)) fun _ => .bind .get fun s => ?_
  refine .bind (orderly_of_same (same_ensureCompletionCapacity _)) fun _ => ?_
  refine .bind (.repeatWhile _ (orderly_cancelLast nowNs)) fun _ => ?_
  exact .bind (orderly_of_same same_dropPrefixCacheEntries) fun _ => orderly_drain

end Leaving

section Close

variable {α : Type} {admitted : List RequestId} {change : List RequestId → List RequestId → Prop}

theorem orderly_closeFailure [Std.Refl change] (error : SchedulerError)
    (recovered : List RequestCompletion) (failures : List RequestSettlementFailure) :
    Moves (Orderly admitted change) (closeFailure error recovered failures : CloseM α) :=
  fun s h => ⟨h.delivered _, refl_of change s.waiting, rfl⟩

/-- A step of `close` that fails with the state that it reached. -/
theorem wp_orClose {β : Type} {s : Scheduler} {action : SchedulerM β} {next : β → CloseM α}
    {ok : α → Scheduler → Prop} {err : SchedulerCloseFailure → Scheduler → Prop}
    (h : wp action (fun b t => wp (next b) ok err t) (fun e t => err ⟨e, []⟩ t) s) :
    wp (orCloseFailure action >>= next) ok err s :=
  wp_seq (wp_seq ((wp_attempt _).mpr (wp_mono h (fun _ _ hnext => hnext) fun _ _ herr => herr)))

theorem orderly_closeInflight (nowNs : Nat) (inflightAbort : Option ExecutionAbort)
    (completions : List RequestCompletion) :
    Moves (Orderly admitted Thins) (closeInflight nowNs inflightAbort completions) := by
  refine .bind .get fun s => ?_
  split
  · exact .pure _
  next plan hplan =>
    cases inflightAbort with
    | none => exact orderly_closeFailure _ _ _
    | some abort =>
        have habort : Moves (Orderly admitted Thins)
            (abortIteration plan.iterationId abort nowNs) :=
          (orderly_abortIteration _ _ _).mono fun _ _ horderly h => (horderly h).of_eq
        refine .bind habort.attempt fun answer => ?_
        cases answer with
        | ok updates => exact .pure _
        | error error => exact orderly_closeFailure _ _ _

/-- A close that fails can be tried again; it only takes requests off the queue. -/
theorem orderly_close (nowNs : Nat) (inflightAbort : Option ExecutionAbort) :
    Moves (Orderly admitted Thins) (close nowNs inflightAbort) := by
  refine moves_orderly fun s h => wp_orClose ?_
  refine wp_orClose (wp_mono (wp_validateNow nowNs) (fun _ t hvalid => ?_) fun _ t hsame => ?_)
  · obtain ⟨rfl, hnow⟩ := hvalid
    refine wp_read (wp_orClose ((wp_orReject _ _).mpr ⟨fun _ => ⟨h, .refl _, rfl⟩, fun _ _ => ?_⟩))
    refine wp_orClose (wp_mono (same_onHost _ _) (fun _ t hreserved => ?_) fun _ t hreserved => ?_)
    · have hsame : t.roster = s.roster := Eq.symm hreserved
      have hqueue := congrArg Roster.waiting hsame
      have hissues := congrArg Roster.nextRequestId hsame
      have hobserved : t.roster.Ok admitted := hsame ▸ h
      refine wp_orClose (wp_write ?_)
      have hstarted : Roster.Keeps admitted Thins s.roster
          (Scheduler.roster { t with completionOutbox := [], lastNowNs := some nowNs }) := by
        refine ⟨(hobserved.observed ?_).delivered [], ?_, hissues⟩
        · rw [hsame]
          exact hnow
        · exact hqueue ▸ List.Sublist.refl _
      refine wp_mono (Moves.bind (orderly_closeInflight _ _ _) (fun settled => ?_) _)
        (fun _ _ hdone => hstarted.trans (hdone hstarted.ok))
        fun _ _ hdone => hstarted.trans (hdone hstarted.ok)
      refine .bind (orderly_shutdown nowNs).attempt fun answer => ?_
      cases answer with
      | error error => exact orderly_closeFailure _ _ _
      | ok remaining =>
          refine .bind .get fun u => .ite (fun _ => orderly_closeFailure _ _ _) fun _ => ?_
          refine .bind (orderly_of_same (same_onHost _)).attempt fun answer => ?_
          cases answer with
          | error error => exact orderly_closeFailure _ _ _
          | ok _ => exact .pure _
    · have hsame : t.roster = s.roster := Eq.symm hreserved
      exact (Roster.Keeps.of_same h hsame).of_eq
  · rw [hsame]
    exact ⟨h, .refl _, rfl⟩

end Close

end Riley.Scheduling
