import Mathlib
import Riley.Library.Queueing
import Riley.Scheduling.Planning
import Riley.Scheduling.QueueCalls

/-!
Runs of a scheduler: its public calls in any order, with any answers of the host allocator.
Every call moves the queue as a line may be moved, so admission is first come, first served, and
every plan of a run keeps to the limits of the state that it was selected from.
-/

namespace Riley.Scheduling

open PagedKv Outcome Relation Queueing

/-- A call that may change a scheduler. -/
inductive Call where
  | setAtomicPrefillChunks (enabled : Bool)
  | setPrefillPlateauPolicy (policy : Option PrefillPlateauPolicy)
  | setPrefillCoalescingPolicy (policy : Option PrefillCoalescingPolicy)
  | setPrefillBurstPolicy (policy : Option PrefillBurstPolicy)
  | enablePrefixCache (maxBlocks : Nat)
  | beginShutdown
  | popPendingCompletion
  | submit (descriptor : RequestDescriptor) (nowNs : Nat)
  | planIteration (nowNs : Nat)
  | completeIteration (result : IterationResult) (nowNs : Nat)
  | abortIteration (iterationId : IterationId) (abort : ExecutionAbort) (nowNs : Nat)
  | cancel (requestId : RequestId) (nowNs : Nat)
  | shutdown (nowNs : Nat)
  | close (nowNs : Nat) (inflightAbort : Option ExecutionAbort)

namespace Call

/-- The scheduler after a call, whether or not it failed. -/
def run : Call → Scheduler → Scheduler
  | setAtomicPrefillChunks enabled => after (Scheduling.setAtomicPrefillChunks enabled)
  | setPrefillPlateauPolicy policy => after (Scheduling.setPrefillPlateauPolicy policy)
  | setPrefillCoalescingPolicy policy => after (Scheduling.setPrefillCoalescingPolicy policy)
  | setPrefillBurstPolicy policy => after (Scheduling.setPrefillBurstPolicy policy)
  | enablePrefixCache maxBlocks => after (Scheduling.enablePrefixCache maxBlocks)
  | beginShutdown => after Scheduling.beginShutdown
  | popPendingCompletion => after Scheduling.popPendingCompletion
  | submit descriptor nowNs => after (Scheduling.submit descriptor nowNs)
  | planIteration nowNs => after (Scheduling.planIteration nowNs)
  | completeIteration result nowNs => after (Scheduling.completeIteration result nowNs)
  | abortIteration iterationId abort nowNs =>
      after (Scheduling.abortIteration iterationId abort nowNs)
  | cancel requestId nowNs => after (Scheduling.cancel requestId nowNs)
  | shutdown nowNs => after (Scheduling.shutdown nowNs)
  | close nowNs inflightAbort => after (Scheduling.close nowNs inflightAbort)

/-- The submission that a call answers with, when it accepts the request. -/
def accepted (descriptor : RequestDescriptor) (nowNs : Nat) (s : Scheduler) : Option Submission :=
  match Scheduling.submit descriptor nowNs s with
  | .ok submission _ => some submission
  | .error _ _ => none

/-- The requests that a call accepts. -/
def submissions : Call → Scheduler → List RequestId
  | submit descriptor nowNs, s =>
      (accepted descriptor nowNs s).toList.map Submission.requestId
  | _, _ => []

/-- The requests that a call admits, in the order in which it admits them. -/
def admissions : Call → Scheduler → List RequestId
  | submit descriptor nowNs, s =>
      (accepted descriptor nowNs s).toList.flatMap Submission.admissions
  | planIteration nowNs, s => planAdmissions nowNs s
  | _, _ => []

/-- The waiting requests that a call may take off the queue without admitting them: those that
it expires or cancels. -/
def drops : Call → Scheduler → RequestId → Bool
  | planIteration nowNs, s, id => s.expires nowNs id
  | cancel requestId _, _, id => id = requestId
  | shutdown _, _, _ => true
  | close _ _, _, _ => true
  | _, _, _ => false

end Call

/-- The runs of a scheduler, with all that was submitted and all that was admitted, in order. -/
inductive Scheduler.Run (start : Scheduler) : List RequestId → List RequestId → Scheduler → Prop
  | start : Run start [] [] start
  | call {submitted admitted : List RequestId} {s : Scheduler} (host : List Bool) (call : Call) :
      Run start submitted admitted s →
      Run start (submitted ++ call.submissions { s with hostAnswers := host })
        (admitted ++ call.admissions { s with hostAnswers := host })
        (call.run { s with hostAnswers := host })

section New

/-- A new scheduler is in order. -/
theorem wp_newRoster {cookie : Nat} {config : SchedulerConfig} {layout : KvLayout}
    {host : List Bool} :
    wp (Scheduler.new cookie config layout) (fun s _ => s.roster.Ok [] ∧ s.waiting = [])
      (fun _ _ => True) host := by
  refine wp_seq ((wp_fromExcept _).mpr ⟨fun _ _ => trivial, fun checked hchecked => ?_⟩)
  obtain ⟨rfl, hvalid⟩ := SchedulerConfig.valid_of_validate hchecked
  refine wp_check (fun _ => trivial) fun _ => ?_
  refine wp_seq ((wp_orReject _ _).mpr ⟨fun _ => trivial, fun capacity hcapacity => ?_⟩)
  obtain ⟨rfl, hbound⟩ := checkedAdd_eq_some.mp hcapacity
  refine wp_seq (wp_any (fun _ _ => ?_) fun _ _ => trivial)
  refine wp_seq (wp_any (fun _ _ => ⟨?_, rfl⟩) fun _ _ => trivial)
  exact {
    config_ok := hvalid
    active_bound := (Nat.le_add_left _ _).trans hbound
    burst_ok := nofun
    seats_nodup := .nil
    line := .nil
    issued := nofun
    queued := nofun
    present := nofun
    ran := nofun
    ordered := nofun
    clock := nofun
    tokens := rfl
    active := rfl
    active_le := Nat.zero_le _
    inflight := nofun }

end New

section Step

variable {s : Scheduler} {admitted : List RequestId}

/-- What one call does: it keeps the roster in order, moves the queue as a line may be moved,
takes nobody off it but those that it drops or admits, and gives a new request the next
identity. -/
structure Call.Serves (admitted : List RequestId) (call : Call) (s : Scheduler) : Prop where
  ok : (call.run s).roster.Ok (admitted ++ call.admissions s)
  steps : ∀ submitted, Steps ⟨submitted, admitted, s.waiting⟩
    ⟨submitted ++ call.submissions s, admitted ++ call.admissions s, (call.run s).waiting⟩
  kept : ((s.waiting ++ call.submissions s).filter (!call.drops s ·)).Sublist
    (call.admissions s ++ (call.run s).waiting)
  issues : (call.submissions s = [] ∧ (call.run s).nextRequestId = s.nextRequestId) ∨
    ∃ id, call.submissions s = [id] ∧ id.value = s.nextRequestId ∧
      (call.run s).nextRequestId = s.nextRequestId + 1

/-- A call that only lets requests leave. -/
theorem Call.Serves.of_thins {call : Call} (hsubmits : call.submissions s = [])
    (hadmits : call.admissions s = [])
    (h : Roster.Keeps admitted Thins s.roster (call.run s).roster)
    (hkept : (s.waiting.filter (!call.drops s ·)).Sublist (call.run s).waiting) :
    call.Serves admitted s := by
  refine ⟨?_, fun submitted => ?_, ?_, .inl ⟨hsubmits, h.issues⟩⟩
  · rw [hadmits, List.append_nil]
    exact h.ok
  · rw [hsubmits, hadmits, List.append_nil, List.append_nil]
    exact .single (.leave h.queue)
  · rw [hsubmits, hadmits, List.append_nil, List.nil_append]
    exact hkept

/-- A call that leaves the queue as it is. -/
theorem Call.Serves.of_keeps {call : Call} (hsubmits : call.submissions s = [])
    (hadmits : call.admissions s = [])
    (h : Roster.Keeps admitted Eq s.roster (call.run s).roster) : call.Serves admitted s := by
  refine .of_thins hsubmits hadmits h.of_eq ?_
  rw [← show s.waiting = (call.run s).waiting from h.queue]
  exact List.filter_sublist

theorem Call.Serves.of_orderly {α : Type} {call : Call} {action : SchedulerM α}
    (hok : s.roster.Ok admitted) (hsubmits : call.submissions s = [])
    (hadmits : call.admissions s = []) (hrun : call.run s = after action s)
    (h : Moves (Orderly admitted Eq) action) : call.Serves admitted s := by
  refine .of_keeps hsubmits hadmits ?_
  rw [hrun]
  exact h.after s hok

/-- A call that may cancel everyone. -/
theorem Call.Serves.of_dropping {ε α : Type} {call : Call} {action : EStateM ε Scheduler α}
    (hok : s.roster.Ok admitted) (hsubmits : call.submissions s = [])
    (hadmits : call.admissions s = []) (hrun : call.run s = after action s)
    (hdrops : ∀ id, call.drops s id = true) (h : Moves (Orderly admitted Thins) action) :
    call.Serves admitted s := by
  refine .of_thins hsubmits hadmits ?_ ?_
  · rw [hrun]
    exact h.after s hok
  · have hnone : s.waiting.filter (!call.drops s ·) = [] := by
      refine List.filter_eq_nil_iff.mpr fun id _ => ?_
      rw [hdrops]
      decide
    rw [hnone]
    exact List.nil_sublist _

theorem serves_submit (h : s.roster.Ok admitted) (descriptor : RequestDescriptor)
    (nowNs : Nat) : (Call.submit descriptor nowNs).Serves admitted s := by
  obtain ⟨hjoined, hrefused⟩ := wp_elim (wp_submit h descriptor nowNs)
  cases hrun : submit descriptor nowNs s with
  | error e t =>
      have hafter : (Call.submit descriptor nowNs).run s = t := by
        change after (submit descriptor nowNs) s = t
        unfold after
        rw [hrun]
      have hnone : Call.accepted descriptor nowNs s = none := by
        unfold Call.accepted
        rw [hrun]
      refine .of_keeps ?_ ?_ ?_
      · change (Call.accepted descriptor nowNs s).toList.map _ = []
        rw [hnone]
        rfl
      · change (Call.accepted descriptor nowNs s).toList.flatMap _ = []
        rw [hnone]
        rfl
      · rw [hafter]
        exact hrefused e t hrun
  | ok submission t =>
      have hafter : (Call.submit descriptor nowNs).run s = t := by
        change after (submit descriptor nowNs) s = t
        unfold after
        rw [hrun]
      have hsome : Call.accepted descriptor nowNs s = some submission := by
        unfold Call.accepted
        rw [hrun]
      have hsubmits : (Call.submit descriptor nowNs).submissions s = [submission.requestId] := by
        change (Call.accepted descriptor nowNs s).toList.map _ = _
        rw [hsome]
        rfl
      have hadmits : (Call.submit descriptor nowNs).admissions s = submission.admissions := by
        change (Call.accepted descriptor nowNs s).toList.flatMap _ = _
        rw [hsome]
        exact List.flatMap_singleton ..
      have hdone := hjoined submission t hrun
      refine ⟨?_, fun submitted => ?_, ?_, .inr ⟨_, hsubmits, hdone.issued, ?_⟩⟩
      · rw [hafter, hadmits]
        exact hdone.ok
      · rw [hafter, hsubmits, hadmits]
        exact .tail (.single (.join submission.requestId)) (.serve hdone.queue)
      · rw [hafter, hsubmits, hadmits,
          ← show s.waiting ++ _ = submission.admissions ++ t.waiting from hdone.queue]
        exact List.filter_sublist
      · rw [hafter]
        exact hdone.issues

theorem serves_planIteration (h : s.roster.Ok admitted) (nowNs : Nat) :
    (Call.planIteration nowNs).Serves admitted s := by
  have hplan := wp_planRoster h nowNs
  have hserved := @after_of_wp _ _ _ _ (fun t : Scheduler =>
    t.roster.Ok (admitted ++ planAdmissions nowNs s) ∧
      Roster.Served (s.expires nowNs) (planAdmissions nowNs s) s.roster t.roster) _
    (wp_mono hplan (fun _ _ hdone => ⟨hdone.1, hdone.2.1⟩) fun _ _ hdone => hdone)
  obtain ⟨hok, hserved⟩ := hserved
  refine ⟨hok, fun submitted => ?_, ?_, .inl ⟨rfl, hserved.issues⟩⟩
  · change Steps _ ⟨submitted ++ [], admitted ++ planAdmissions nowNs s, _⟩
    rw [List.append_nil]
    exact .tail (.single (.leave List.filter_sublist)) (.serve hserved.queue)
  · change ((s.waiting ++ []).filter (!s.expires nowNs ·)).Sublist (planAdmissions nowNs s ++ _)
    rw [List.append_nil]
    exact hserved.queue ▸ List.Sublist.refl _

theorem serves_cancel (h : s.roster.Ok admitted) (requestId : RequestId) (nowNs : Nat) :
    (Call.cancel requestId nowNs).Serves admitted s := by
  have hkept := (orderly_cancel requestId nowNs).after s h
  refine .of_thins rfl rfl ⟨hkept.ok, hkept.queue.thins, hkept.issues⟩ ?_
  change (s.waiting.filter fun id => !decide (id = requestId)).Sublist
    (after (cancel requestId nowNs) s).roster.waiting
  rcases hkept.queue with hsame | herased
  · rw [hsame]
    exact List.filter_sublist
  · rw [herased, h.waiting_nodup.erase_eq_filter]
    exact List.Sublist.refl _

/-- Every call serves the queue in order. -/
theorem Call.serves (h : s.roster.Ok admitted) (call : Call) : call.Serves admitted s := by
  cases call with
  | setAtomicPrefillChunks enabled =>
      exact .of_orderly h rfl rfl rfl (orderly_of_same (same_setAtomicPrefillChunks enabled))
  | setPrefillPlateauPolicy policy =>
      exact .of_orderly h rfl rfl rfl (orderly_of_same (same_setPrefillPlateauPolicy policy))
  | setPrefillCoalescingPolicy policy =>
      exact .of_orderly h rfl rfl rfl (orderly_of_same (same_setPrefillCoalescingPolicy policy))
  | setPrefillBurstPolicy policy =>
      exact .of_orderly h rfl rfl rfl (orderly_setPrefillBurstPolicy policy)
  | enablePrefixCache maxBlocks =>
      exact .of_orderly h rfl rfl rfl (orderly_of_same (same_enablePrefixCache maxBlocks))
  | beginShutdown => exact .of_orderly h rfl rfl rfl (orderly_of_same same_beginShutdown)
  | popPendingCompletion => exact .of_orderly h rfl rfl rfl orderly_pop
  | submit descriptor nowNs => exact serves_submit h descriptor nowNs
  | planIteration nowNs => exact serves_planIteration h nowNs
  | completeIteration result nowNs =>
      exact .of_orderly h rfl rfl rfl (orderly_completeIteration result nowNs)
  | abortIteration iterationId abort nowNs =>
      exact .of_orderly h rfl rfl rfl (orderly_abortIteration iterationId abort nowNs)
  | cancel requestId nowNs => exact serves_cancel h requestId nowNs
  | shutdown nowNs => exact .of_dropping h rfl rfl rfl (fun _ => rfl) (orderly_shutdown nowNs)
  | close nowNs inflightAbort =>
      exact .of_dropping h rfl rfl rfl (fun _ => rfl) (orderly_close nowNs inflightAbort)

end Step

section Runs

variable {cookie : Nat} {config : SchedulerConfig} {layout : KvLayout} {host host' : List Bool}
  {start s : Scheduler} {submitted admitted : List RequestId}

/-- What every run keeps. -/
structure Scheduler.InTurn (submitted admitted : List RequestId) (s : Scheduler) : Prop where
  ok : s.roster.Ok admitted
  steps : Steps ⟨[], [], []⟩ ⟨submitted, admitted, s.waiting⟩
  submitted_order : submitted.Pairwise fun a b => a.value < b.value
  issued : ∀ id ∈ submitted, id.value < s.nextRequestId

theorem Scheduler.InTurn.call (h : s.InTurn submitted admitted) (host : List Bool)
    (call : Call) :
    (call.run { s with hostAnswers := host }).InTurn
      (submitted ++ call.submissions { s with hostAnswers := host })
      (admitted ++ call.admissions { s with hostAnswers := host }) := by
  have hserves := @Call.serves { s with hostAnswers := host } admitted h.ok call
  refine ⟨hserves.ok, h.steps.trans (hserves.steps submitted), ?_, ?_⟩
  · rcases hserves.issues with ⟨hnone, -⟩ | ⟨id, hsome, hid, -⟩
    · rw [hnone, List.append_nil]
      exact h.submitted_order
    · rw [hsome]
      refine List.pairwise_append.mpr ⟨h.submitted_order, List.pairwise_singleton _ _, ?_⟩
      intro earlier hearlier last hlast
      rw [List.mem_singleton.mp hlast, hid]
      exact h.issued earlier hearlier
  · rcases hserves.issues with ⟨hnone, hnext⟩ | ⟨id, hsome, hid, hnext⟩
    · rw [hnone, List.append_nil, hnext]
      exact h.issued
    · rw [hsome, hnext]
      intro other hother
      rcases List.mem_append.mp hother with hother | hother
      · exact Nat.lt_succ_of_lt (h.issued other hother)
      · rw [List.mem_singleton.mp hother, hid]
        exact Nat.lt_succ_self _

theorem Scheduler.Run.inTurn (h : start.Run submitted admitted s)
    (hnew : Scheduler.new cookie config layout host = .ok start host') :
    s.InTurn submitted admitted := by
  induction h with
  | start =>
      obtain ⟨hok, hempty⟩ := (wp_elim wp_newRoster).1 _ _ hnew
      exact ⟨hok, hempty ▸ .refl, .nil, nofun⟩
  | call host call _ ih => exact ih.call host call

/-- A scheduler with room for one active sequence. -/
def oneSeat : SchedulerConfig where
  maxWaitingRequests := 2
  maxWaitingPromptTokens := 4
  maxActiveSequences := 1
  maxSequenceTokens := 4
  iterationTokenBudget := 4
  maxPrefillChunkTokens := 4
  agingThresholdNs := 10
  overloadPolicy := .wait
  admissionTimeoutNs := some 10
  maxPromisedKvBlocks := 1
  metricsWindowSamples := 1

def oneSeatNew : Scheduler where
  config := oneSeat
  pool := KvBlockPool.new 7 ⟨1, 1, 1, 1, Nat.one_pos, one_le_u32Max⟩
  requests := []
  waiting := []
  terminal := []
  terminalCapacity := 3
  completionOutbox := []
  completionOutboxCapacity := 3
  activeSequences := 0
  waitingPromptTokens := 0
  promisedKvBlocks := 0
  nextRequestId := 1
  nextIterationId := 1
  lastNowNs := none
  agingOverrideLastIteration := false
  prefillPlateau := none
  atomicPrefillChunks := false
  prefillCoalescing := none
  prefillBurst := none
  prefixCache := none
  inflight := none
  accepting := true
  hostAnswers := []

theorem oneSeatNew_new :
    Scheduler.new 7 oneSeat ⟨1, 1, 1, 1, Nat.one_pos, one_le_u32Max⟩ [] = .ok oneSeatNew [] := rfl

/-- The first of two requests takes the seat and the second one waits. -/
def submitTwice : Scheduler :=
  Call.run (.submit ⟨[5], 2⟩ 2)
    { Call.run (.submit ⟨[5], 2⟩ 1) oneSeatNew with hostAnswers := [] }

theorem submitTwice_run :
    oneSeatNew.Run [⟨1, Nat.one_ne_zero⟩, ⟨2, Nat.succ_ne_zero 1⟩] [⟨1, Nat.one_ne_zero⟩]
      submitTwice :=
  .call [] (.submit ⟨[5], 2⟩ 2) (.call [] (.submit ⟨[5], 2⟩ 1) .start)

/-- First come, first served. The requests that were admitted and those that wait are in the
order of their submission; only waiting requests stand in the queue and only admitted ones run;
a call takes off the queue those that it drops and, from what is then its front, those that it
admits. -/
structure Scheduler.Fcfs (submitted admitted : List RequestId) (s : Scheduler) : Prop where
  submitted_order : submitted.Pairwise fun a b => a.value < b.value
  in_turn : (admitted ++ s.waiting).Sublist submitted
  earlier_first : ∀ id ∈ admitted, ∀ later ∈ s.waiting, id.value < later.value
  queued : ∀ record ∈ s.requests, record.state = .waiting ↔ record.requestId ∈ s.waiting
  ran : ∀ record ∈ s.requests, record.state ≠ .waiting → record.requestId ∈ admitted
  kept : ∀ host call, ((s.waiting ++ Call.submissions call { s with hostAnswers := host }).filter
      (!call.drops { s with hostAnswers := host } ·)).Sublist
    (call.admissions { s with hostAnswers := host } ++
      (call.run { s with hostAnswers := host }).waiting)
  planned : ∀ host nowNs,
    s.waiting.filter (!Scheduler.expires { s with hostAnswers := host } nowNs ·) =
      planAdmissions nowNs { s with hostAnswers := host } ++
        (after (planIteration nowNs) { s with hostAnswers := host }).waiting
  expired : ∀ host nowNs output t,
    planIteration nowNs { s with hostAnswers := host } = .ok output t →
    (∀ id, Scheduler.expires { s with hostAnswers := host } nowNs id = s.overdue nowNs id) ∧
      Roster.timeouts output.completions = s.waiting.filter (s.overdue nowNs)

theorem expires_eq {nowNs : Nat} {output : PlanningOutput} {t : Scheduler}
    (hrun : planIteration nowNs s = .ok output t) : s.expires nowNs = s.overdue nowNs := by
  rw [planIteration_eq] at hrun
  unfold Scheduler.expires
  cases hopen : openIteration nowNs s with
  | ok _ _ => rfl
  | error e u =>
      have hready : readyIteration nowNs s = .error e u := by
        change EStateM.bind _ _ _ = _
        unfold EStateM.bind
        rw [hopen]
      change EStateM.bind _ _ _ = _ at hrun
      unfold EStateM.bind at hrun
      rw [hready] at hrun
      cases hrun

/-- In every run of a scheduler, admission is first come, first served, and expiry takes off
exactly the waiting requests whose deadline has passed. -/
theorem admission_fcfs (hnew : Scheduler.new cookie config layout host = .ok start host')
    (hrun : start.Run submitted admitted s) : s.Fcfs submitted admitted := by
  have hturn := hrun.inTurn hnew
  have hok : ∀ host, (Scheduler.roster { s with hostAnswers := host }).Ok admitted :=
    fun _ => hturn.ok
  have hfair := fair_of_steps hturn.steps
  exact {
    submitted_order := hturn.submitted_order
    in_turn := hfair
    earlier_first := hfair.before hturn.submitted_order
    queued := fun record hrecord => by
      have hseat := hturn.ok.queued record.seat (List.mem_map_of_mem hrecord)
      rw [← show record.seat.waiting = true ↔ record.state = .waiting from decide_eq_true_iff]
      exact hseat
    ran := fun record hrecord hruns =>
      hturn.ok.ran record.seat (List.mem_map_of_mem hrecord) (decide_eq_false hruns)
    kept := fun host call => (Call.serves (hok host) call).kept
    planned := fun host nowNs =>
      (@after_of_wp _ _ _ _ (fun t : Scheduler => Roster.Served _ _ _ t.roster) _
        (wp_mono (wp_planRoster (hok host) nowNs) (fun _ _ hdone => hdone.2.1)
          fun _ _ hdone => hdone.2)).queue
    expired := fun host nowNs output t hplan => by
      have hexpires := expires_eq hplan
      have hdone := (wp_elim (wp_planRoster (hok host) nowNs)).1 output t hplan
      refine ⟨fun id => by rw [hexpires]; rfl, ?_⟩
      rw [hdone.2.2.1, hexpires]
      rfl }

theorem admission_fcfs_twice :
    submitTwice.Fcfs [⟨1, Nat.one_ne_zero⟩, ⟨2, Nat.succ_ne_zero 1⟩] [⟨1, Nat.one_ne_zero⟩] :=
  admission_fcfs oneSeatNew_new submitTwice_run

/-- In every run of a scheduler, a plan keeps to the limits of the state that it is selected
from. -/
theorem plan_withinBudget (hnew : Scheduler.new cookie config layout host = .ok start host')
    (hrun : start.Run submitted admitted s) {answers : List Bool} {nowNs : Nat}
    {plan : IterationPlan} {completions : List RequestCompletion} {t : Scheduler}
    (hplan : planIteration nowNs { s with hostAnswers := answers } = .ok ⟨some plan, completions⟩ t) :
    ∃ u, readyIteration nowNs { s with hostAnswers := answers } = .ok () u ∧
      u.config = s.config ∧ u.prefillBurst = s.prefillBurst ∧ WithinBudget u nowNs plan ∧
      t.agingOverrideLastIteration = (u.overrides nowNs).isSome := by
  have hok : (Scheduler.roster { s with hostAnswers := answers }).Ok admitted :=
    (hrun.inTurn hnew).ok
  obtain ⟨-, -, -, hlimits⟩ := (wp_elim (wp_planRoster hok nowNs)).1 _ t hplan
  exact hlimits plan rfl

/-- A new scheduler with room for two active sequences. -/
def twoSeatsNew : Scheduler :=
  { oneSeatNew with
    config :=
      { oneSeat with maxActiveSequences := 2, maxPrefillChunkTokens := 3, maxPromisedKvBlocks := 2 }
    pool := KvBlockPool.new 7 ⟨1, 2, 1, 1, Nat.two_pos, two_le_u32Max⟩
    terminalCapacity := 4
    completionOutboxCapacity := 4 }

theorem twoSeatsNew_new : Scheduler.new 7 twoSeatsNew.config
    ⟨1, 2, 1, 1, Nat.two_pos, two_le_u32Max⟩ [] = .ok twoSeatsNew [] := rfl

/-- Calls one after another, with no refusal of the host allocator. -/
def Call.runAll (calls : List Call) (s : Scheduler) : Scheduler :=
  calls.foldl (fun s call => call.run { s with hostAnswers := [] }) s

theorem Scheduler.Run.runAll (h : start.Run submitted admitted s) (calls : List Call) :
    ∃ submitted admitted, start.Run submitted admitted (Call.runAll calls s) := by
  induction calls generalizing submitted admitted s with
  | nil => exact ⟨submitted, admitted, h⟩
  | cons call rest ih => exact ih (.call [] call h)

/-- One request decodes, and a prompt of three tokens is ready since the time 4. While a
request decodes, the burst policy leaves an iteration two tokens. -/
def agedPrompt : Scheduler :=
  Call.runAll [.setPrefillBurstPolicy (some ⟨2, 0, 0⟩), .submit ⟨[5], 2⟩ 1, .planIteration 2,
    .completeIteration ⟨⟨1, Nat.one_ne_zero⟩, [⟨0, 9, false⟩], by decide⟩ 3,
    .submit ⟨[5, 6, 7], 1⟩ 4] twoSeatsNew

/-- The items and the tokens that a call plans, and whether it overrides a decode. -/
def plannedItems (nowNs : Nat) (s : Scheduler) : Option (Nat × Nat × Bool) :=
  match planIteration nowNs s with
  | .ok output t =>
      output.plan.map fun plan => (plan.items.length, plan.totalTokens, t.agingOverrideLastIteration)
  | .error _ _ => none

theorem exists_plan {nowNs items tokens : Nat} {aged : Bool} {s : Scheduler}
    (h : plannedItems nowNs s = some (items, tokens, aged)) :
    ∃ plan completions t, planIteration nowNs s = .ok ⟨some plan, completions⟩ t ∧
      plan.items.length = items ∧ plan.totalTokens = tokens ∧
      t.agingOverrideLastIteration = aged := by
  unfold plannedItems at h
  cases hrun : planIteration nowNs s with
  | error e t =>
      rw [hrun] at h
      cases h
  | ok output t =>
      rw [hrun] at h
      obtain ⟨plan, hplan, hseen⟩ := Option.map_eq_some_iff.mp h
      cases hseen
      exact ⟨plan, output.completions, t, by rw [← hplan], rfl, rfl, rfl⟩

/-- The aged prompt gets one token and the decode the other one. -/
theorem plan_withinBudget_twice : ∃ plan completions t,
    planIteration 14 { agedPrompt with hostAnswers := [] } = .ok ⟨some plan, completions⟩ t ∧
    plan.items.length = 2 ∧ plan.totalTokens = 2 ∧ t.agingOverrideLastIteration = true ∧
    ∃ u, readyIteration 14 { agedPrompt with hostAnswers := [] } = .ok () u ∧
      u.config = agedPrompt.config ∧ u.prefillBurst = agedPrompt.prefillBurst ∧
      WithinBudget u 14 plan ∧ t.agingOverrideLastIteration = (u.overrides 14).isSome := by
  have hplanned : plannedItems 14 { agedPrompt with hostAnswers := [] } = some (2, 2, true) := by
    decide +kernel
  obtain ⟨plan, completions, t, hplan, hitems, htokens, haged⟩ := exists_plan hplanned
  obtain ⟨submitted, admitted, hrun⟩ := (@Scheduler.Run.start twoSeatsNew).runAll _
  exact ⟨plan, completions, t, hplan, hitems, htokens, haged,
    plan_withinBudget twoSeatsNew_new hrun hplan⟩

end Runs

end Riley.Scheduling
