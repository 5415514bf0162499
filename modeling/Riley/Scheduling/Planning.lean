import Mathlib
import Riley.Scheduling.Queue
import Riley.Scheduling.SelectSpec

/-!
Planning, in the parts that its claims are about: the checks, the turn of the queue, and the
plan for the requests that then run. Whether or not a part fails, the roster stays in order.
-/

namespace Riley.Scheduling

open PagedKv Outcome Relation

/-- The checks of `plan_iteration` before it looks at the queue. -/
def openIteration (nowNs : Nat) : SchedulerM Unit := do
  ensureCompletionBacklogEmpty
  observeNow nowNs
  ensureNoIterationInFlight
  let s ← get
  ensureCompletionCapacity s.waiting.length
  onHost (tryReserveExact "admission timeout completions")

/-- The part of `plan_iteration` before it selects. -/
def readyIteration (nowNs : Nat) : SchedulerM Unit := do
  openIteration nowNs
  expireWaiting nowNs
  admitWaiting nowNs
  adoptCachedPrefixes

/-- The part of `plan_iteration` from the selection on. -/
def planReady (nowNs : Nat) : SchedulerM PlanningOutput := do
  let s ← get
  let (candidates, usedAgingOverride, plateauDeferred) ← onHost (s.selectCandidates nowNs)
  if candidates = [] then do
    modify fun s => { s with agingOverrideLastIteration := false }
    let completions ← drainCompletionOutbox
    return ⟨none, completions⟩
  else do
    let iterationId ← peekIterationId
    let plan ← preparePlan iterationId candidates nowNs
    advanceIterationId
    modify fun s => { s with
      agingOverrideLastIteration := usedAgingOverride
      requests := s.requests.map (markDeferred plateauDeferred) }
    let completions ← drainCompletionOutbox
    return ⟨some plan, completions⟩

theorem planIteration_eq (nowNs : Nat) :
    planIteration nowNs = (readyIteration nowNs >>= fun _ => planReady nowNs) := by
  unfold planIteration readyIteration openIteration planReady
  simp only [bind_assoc]

/-- The waiting requests that a plan expires: none when its checks fail. -/
def Scheduler.expires (s : Scheduler) (nowNs : Nat) (requestId : RequestId) : Bool :=
  match openIteration nowNs s with
  | .ok _ _ => s.overdue nowNs requestId
  | .error _ _ => false

/-- The requests that a plan admits, in the order of the rounds. -/
def planAdmissions (nowNs : Nat) (s : Scheduler) : List RequestId :=
  match (openIteration nowNs >>= fun _ => expireWaiting nowNs) s with
  | .ok _ t => admissions nowNs t.waiting.length t
  | .error _ _ => []

namespace Roster

/-- The completions of late requests among some. -/
def timeouts (outbox : List RequestCompletion) : List RequestId :=
  (outbox.filter (·.reason = .admissionTimeout)).map RequestCompletion.requestId

/-- The queue once the late requests left and the first of the others were admitted. -/
structure Served (late : RequestId → Bool) (ids : List RequestId) (roster roster' : Roster) :
    Prop where
  queue : roster.waiting.filter (!late ·) = ids ++ roster'.waiting
  issues : roster'.nextRequestId = roster.nextRequestId

/-- The roster then, with the completions of the late ones delivered. -/
structure Planned (late : RequestId → Bool) (ids : List RequestId) (roster roster' : Roster) :
    Prop extends Served late ids roster roster' where
  config : roster'.config = roster.config
  burst : roster'.burst = roster.burst
  outbox : timeouts roster'.outbox = roster.waiting.filter late

variable {late : RequestId → Bool} {ids : List RequestId} {roster middle roster' : Roster}

theorem timeouts_append (first second : List RequestCompletion) :
    timeouts (first ++ second) = timeouts first ++ timeouts second := by
  unfold timeouts
  rw [List.filter_append, List.map_append]

theorem timeouts_eq_nil {outbox : List RequestCompletion}
    (h : ∀ completion ∈ outbox, completion.reason ≠ .admissionTimeout) :
    timeouts outbox = [] := by
  unfold timeouts
  rw [List.map_eq_nil_iff, List.filter_eq_nil_iff]
  exact fun completion hcompletion => by simpa using h completion hcompletion

theorem timeouts_eq {outbox : List RequestCompletion}
    (h : ∀ completion ∈ outbox, completion.reason = .admissionTimeout) :
    timeouts outbox = outbox.map RequestCompletion.requestId := by
  unfold timeouts
  rw [List.filter_eq_self.mpr]
  exact fun completion hcompletion => decide_eq_true (h completion hcompletion)

theorem Expired.planned (h : Expired late roster middle) (hempty : roster.outbox = [])
    (hadmits : Admits ids middle roster') : Planned late ids roster roster' := by
  obtain ⟨completions, houtbox, hids, hreasons⟩ := h.outbox
  have hsame : ∀ {β : Type} (view : Roster → β),
      view { roster' with
        seats := middle.seats
        waiting := middle.waiting
        waitingPromptTokens := middle.waitingPromptTokens
        activeSequences := middle.activeSequences } = view middle :=
    fun view => congrArg view hadmits.same
  have hsame' : ∀ {β : Type} (view : Roster → β),
      view { middle with
        seats := roster.seats
        waiting := roster.waiting
        waitingPromptTokens := roster.waitingPromptTokens
        outbox := roster.outbox } = view roster :=
    fun view => congrArg view h.same
  refine ⟨⟨?_, ?_⟩, ?_, ?_, ?_⟩
  · rw [← h.waiting, hadmits.queue]
  · exact (hsame Roster.nextRequestId).trans (hsame' Roster.nextRequestId)
  · exact (hsame Roster.config).trans (hsame' Roster.config)
  · exact (hsame Roster.burst).trans (hsame' Roster.burst)
  · rw [show roster'.outbox = middle.outbox from hsame Roster.outbox, houtbox, hempty,
      List.nil_append, timeouts_eq hreasons, hids]

end Roster

section Ready

variable {s : Scheduler} {admitted : List RequestId}

theorem wp_openIteration (h : s.roster.Ok admitted) (nowNs : Nat) :
    wp (openIteration nowNs)
      (fun _ t => t.roster.Ok admitted ∧ s.completionOutbox = [] ∧
        t.HasRoom t.waiting.length ∧
        ∃ host, t = { s with lastNowNs := some nowNs, hostAnswers := host })
      (fun _ t => t.roster.Ok admitted ∧ t.waiting = s.waiting ∧
        t.nextRequestId = s.nextRequestId) s := by
  refine wp_backlog (fun hempty => ?_) fun _ => ⟨h, rfl, rfl⟩
  refine wp_observe (fun hnow => ?_) fun _ => ⟨h, rfl, rfl⟩
  have hobserved := h.observed hnow
  refine wp_seq (wp_read ?_)
  split
  next hidle =>
    refine wp_read (wp_room (fun hroom => ?_) fun _ _ => ⟨hobserved, rfl, rfl⟩)
    unfold onHost
    rw [wp_zoom]
    exact wp_any (fun _ host => ⟨hobserved, hempty, hroom, host, rfl⟩)
      fun _ _ => ⟨hobserved, rfl, rfl⟩
  next inflight hinflight => exact ⟨hobserved, rfl, rfl⟩

/-- The turn of the queue: the late ones leave and the first of the others are admitted. -/
theorem wp_readyIteration (h : s.roster.Ok admitted) (nowNs : Nat) :
    wp (readyIteration nowNs)
      (fun _ t => t.roster.Ok (admitted ++ planAdmissions nowNs s) ∧
        Roster.Planned (s.expires nowNs) (planAdmissions nowNs s) s.roster t.roster)
      (fun _ t => t.roster.Ok (admitted ++ planAdmissions nowNs s) ∧
        Roster.Served (s.expires nowNs) (planAdmissions nowNs s) s.roster t.roster) s := by
  obtain ⟨hopened, hrefused⟩ := wp_elim (wp_openIteration h nowNs)
  refine wp_seq ?_
  cases hopen : openIteration nowNs s with
  | error e t =>
      obtain ⟨hok, hsame, hissues⟩ := hrefused e t hopen
      have hnone : planAdmissions nowNs s = [] := by
        unfold planAdmissions
        rw [show (openIteration nowNs >>= fun _ => expireWaiting nowNs) s = .error e t by
          change EStateM.bind _ _ _ = _
          unfold EStateM.bind
          rw [hopen]]
      have hkept : s.waiting.filter (!s.expires nowNs ·) = s.waiting := by
        refine List.filter_eq_self.mpr fun id _ => ?_
        unfold Scheduler.expires
        rw [hopen]
        rfl
      unfold wp
      rw [hopen, hnone, List.append_nil]
      exact ⟨hok, hkept.trans hsame.symm, hissues⟩
  | ok opened t =>
      obtain ⟨hok, hempty, hroom, host, ht⟩ := hopened opened t hopen
      obtain ⟨expired, u, hexpire, hok', hexpired⟩ := wp_ok_iff.mp (wp_expireQueue hok hroom nowNs)
      have hadmissions : planAdmissions nowNs s = admissions nowNs u.waiting.length u := by
        unfold planAdmissions
        rw [show (openIteration nowNs >>= fun _ => expireWaiting nowNs) s = .ok expired u by
          change EStateM.bind _ _ _ = _
          unfold EStateM.bind
          rw [hopen]
          exact hexpire]
      have hlate : s.expires nowNs = t.overdue nowNs := by
        funext id
        unfold Scheduler.expires
        rw [hopen, ht]
        rfl
      have hqueue : t.roster.waiting = s.roster.waiting := by rw [ht]; rfl
      have hplanned : ∀ v : Scheduler,
          Roster.Admits (admissions nowNs u.waiting.length u) u.roster v.roster →
          Roster.Planned (s.expires nowNs) (planAdmissions nowNs s) s.roster v.roster := by
        intro v hadmits
        rw [hlate, hadmissions]
        have hdone := hexpired.planned (by rw [ht]; exact hempty) hadmits
        rw [ht] at hdone ⊢
        exact ⟨⟨hdone.queue, hdone.issues⟩, hdone.config, hdone.burst, hdone.outbox⟩
      refine wp_of_ok hopen (wp_seq (wp_of_ok hexpire ?_))
      rw [hadmissions] at hplanned ⊢
      refine wp_call (wp_admitQueue hok' nowNs) (fun _ v hadmitted => ?_)
        fun _ v hadmitted => ?_
      · obtain ⟨hdone, hadmits⟩ := hadmitted
        refine wp_mono (same_adoptCachedPrefixes v) (fun _ w hsame => ?_) fun _ w hsame => ?_
        · rw [← show v.roster = w.roster from hsame]
          exact ⟨hdone, hplanned v hadmits⟩
        · rw [← show v.roster = w.roster from hsame]
          exact ⟨hdone, (hplanned v hadmits).toServed⟩
      · exact ⟨hadmitted.1, (hplanned v hadmitted.2).toServed⟩

end Ready

section Budget

variable {s : Scheduler} {admitted : List RequestId} {candidates : List Candidate}
  {items : List WorkItem} {plan : IterationPlan} {nowNs : Nat}

/-- When the burst policy holds an iteration to its steady budget. -/
def PrefillBurstPolicy.Restricts (policy : PrefillBurstPolicy) (s : Scheduler) : Prop :=
  policy.maxDecodeRows < s.decodeReady.length ∨
    0 < policy.minPromptTokens ∧
      ∀ item ∈ s.prefillReady, item.remainingTokens < policy.minPromptTokens

theorem iterationBudget_none (hnone : s.prefillBurst = none) :
    s.iterationBudget = s.config.iterationTokenBudget := by
  unfold Scheduler.iterationBudget Scheduler.openBudget
  rw [hnone]

theorem iterationBudget_burst {policy : PrefillBurstPolicy}
    (hpolicy : s.prefillBurst = some policy) :
    (policy.Restricts s → s.iterationBudget = policy.steadyBudget) ∧
      (¬ policy.Restricts s → s.iterationBudget = s.config.iterationTokenBudget) := by
  have hprompts : (¬ s.prefillReady.any fun item =>
      decide (policy.minPromptTokens ≤ item.remainingTokens)) ↔
      ∀ item ∈ s.prefillReady, item.remainingTokens < policy.minPromptTokens := by
    simp
  unfold Scheduler.iterationBudget Scheduler.openBudget PrefillBurstPolicy.Restricts
  rw [hpolicy]
  constructor
  · intro hrestricts
    exact if_pos (by rwa [hprompts])
  · intro hopen
    exact if_neg (by rwa [hprompts])

/-- The budget of an iteration is positive and at most that of the configuration. -/
theorem Roster.Ok.iterationBudget (h : s.roster.Ok admitted) :
    0 < s.iterationBudget ∧ s.iterationBudget ≤ s.config.iterationTokenBudget := by
  have hpos : 0 < s.config.iterationTokenBudget := h.config_ok.budget_pos
  cases hburst : s.prefillBurst with
  | none =>
      rw [iterationBudget_none hburst]
      exact ⟨hpos, Nat.le_refl _⟩
  | some policy =>
      obtain ⟨hsteady, hbelow⟩ := h.burst_ok policy hburst
      obtain ⟨hrestricted, hfull⟩ := iterationBudget_burst hburst
      by_cases hrestricts : policy.Restricts s
      · rw [hrestricted hrestricts]
        exact ⟨hsteady, Nat.le_of_lt hbelow⟩
      · rw [hfull hrestricts]
        exact ⟨hpos, Nat.le_refl _⟩

theorem inputCount_runs (h : List.Forall₂ Runs candidates items) :
    inputCount items = totalTokens candidates := by
  induction h with
  | nil => rfl
  | cons hrun _ ih =>
      rw [totalTokens_cons, ← ih, ← hrun.tokens]
      rfl

theorem length_decodes (h : List.Forall₂ Runs candidates items) :
    (items.filter (·.kind = .decode)).length = decodeCount candidates := by
  rw [← List.countP_eq_length_filter]
  induction h with
  | nil => rfl
  | cons hrun _ ih =>
      unfold decodeCount at ih ⊢
      rw [List.countP_cons, List.countP_cons, ih, hrun.kind]

/-- The items of a plan, its prefill work first. -/
theorem perm_split (items : List WorkItem) :
    (items.filter (·.kind = .prefill) ++ items.filter (·.kind = .decode)).Perm items := by
  have hdecode : items.filter (·.kind = .decode) =
      items.filter fun item => !decide (item.kind = .prefill) := by
    refine List.filter_congr fun item _ => ?_
    cases item.kind <;> rfl
  rw [hdecode]
  exact List.filter_append_perm _ items

theorem Carries.perm (h : Carries candidates plan) :
    ∃ items, List.Forall₂ Runs candidates items ∧ plan.items.Perm items := by
  obtain ⟨items, hruns, hprefill, hdecode⟩ := h.split
  refine ⟨items, hruns, ?_⟩
  unfold IterationPlan.items
  rw [hprefill, hdecode]
  exact perm_split items

/-- An item of a plan runs one of the candidates. -/
theorem exists_candidate (h : List.Forall₂ Runs candidates items) {item : WorkItem}
    (hitem : item ∈ items) : ∃ candidate ∈ candidates, Runs candidate item := by
  induction h with
  | nil => cases hitem
  | cons hrun _ ih =>
      rcases List.mem_cons.mp hitem with rfl | hitem
      · exact ⟨_, List.mem_cons_self, hrun⟩
      · obtain ⟨candidate, hcandidate, hruns⟩ := ih hitem
        exact ⟨candidate, List.mem_cons_of_mem _ hcandidate, hruns⟩

theorem exists_item (h : List.Forall₂ Runs candidates items) {candidate : Candidate}
    (hcandidate : candidate ∈ candidates) : ∃ item ∈ items, Runs candidate item := by
  induction h with
  | nil => cases hcandidate
  | cons hrun _ ih =>
      rcases List.mem_cons.mp hcandidate with rfl | hcandidate
      · exact ⟨_, List.mem_cons_self, hrun⟩
      · obtain ⟨item, hitem, hruns⟩ := ih hcandidate
        exact ⟨item, List.mem_cons_of_mem _ hitem, hruns⟩

/-- A plan within the limits of the state that it was selected from. -/
structure WithinBudget (s : Scheduler) (nowNs : Nat) (plan : IterationPlan) : Prop where
  once : (plan.items.map WorkItem.requestId).Nodup
  tokens : inputCount plan.items ≤ s.config.iterationTokenBudget
  steady : ∀ policy, s.prefillBurst = some policy → policy.Restricts s →
    inputCount plan.items ≤ policy.steadyBudget
  sequences : plan.items.length ≤ s.config.maxActiveSequences
  chunks : ∀ item ∈ plan.prefillItems,
    0 < item.inputTokens.length ∧ item.inputTokens.length ≤ s.config.maxPrefillChunkTokens
  all_decode : s.overrides nowNs = none →
    plan.decodeItems.length = min s.decodeReady.length s.iterationBudget
  /-- The decodes that an aged prompt displaces are those that its tokens leave no room for. -/
  aged_decode : ∀ requestId, s.overrides nowNs = some requestId →
    ∃ item ∈ plan.prefillItems, item.requestId = requestId ∧
      plan.decodeItems.length =
        min s.decodeReady.length (s.iterationBudget - item.inputTokens.length) ∧
      min s.decodeReady.length s.iterationBudget - plan.decodeItems.length ≤
        item.inputTokens.length - (s.iterationBudget - s.decodeReady.length)

/-- A request in a plan runs, and so is one of the active sequences. -/
theorem Carries.sequences (h : Carries candidates plan) (hok : s.roster.Ok admitted)
    (hpicks : ∀ candidate ∈ candidates, Picks s candidate) :
    plan.items.length ≤ s.config.maxActiveSequences := by
  obtain ⟨items, hruns, hperm⟩ := h.perm
  have hsub : plan.items.map WorkItem.requestId ⊆
      (s.roster.seats.filter (!·.waiting)).map Seat.requestId := by
    intro id hid
    obtain ⟨item, hitem, rfl⟩ := List.mem_map.mp hid
    obtain ⟨candidate, hcandidate, hrun⟩ := exists_candidate hruns (hperm.mem_iff.mp hitem)
    obtain ⟨record, hrecord, hsame, hstate⟩ := (hpicks candidate hcandidate).running
    refine List.mem_map.mpr ⟨record.seat, List.mem_filter.mpr ⟨?_, ?_⟩, ?_⟩
    · exact List.mem_map_of_mem hrecord
    · change (!decide (record.state = .waiting)) = true
      rw [decide_eq_false hstate]
      rfl
    · exact hsame.trans hrun.request.symm
  have hlength := (h.once.subperm hsub).length_le
  rw [List.length_map, List.length_map, ← List.countP_eq_length_filter] at hlength
  have hactive : Roster.running s.roster.seats ≤ s.config.maxActiveSequences := by
    rw [← hok.active]
    exact hok.active_le
  exact hlength.trans hactive

theorem Selection.withinBudget (h : Selection s (s.overrides nowNs) candidates)
    (hok : s.roster.Ok admitted) (hcarries : Carries candidates plan) :
    WithinBudget s nowNs plan := by
  obtain ⟨items, hruns, hprefill, hdecode⟩ := hcarries.split
  have hcount : inputCount plan.items = totalTokens candidates := by
    rw [← inputCount_runs hruns]
    unfold IterationPlan.items inputCount
    rw [hprefill, hdecode]
    exact ((perm_split items).map _).sum_eq
  have hdecodes : plan.decodeItems.length = decodeCount candidates := by
    rw [hdecode]
    exact length_decodes hruns
  exact {
    once := hcarries.once
    tokens := by
      rw [hcount]
      exact h.tokens.trans hok.iterationBudget.2
    steady := fun policy hpolicy hrestricts => by
      rw [hcount, ← (iterationBudget_burst hpolicy).1 hrestricts]
      exact h.tokens
    sequences := hcarries.sequences hok h.picks
    chunks := fun item hitem => by
      rw [hprefill] at hitem
      obtain ⟨hitem, hkind⟩ := List.mem_filter.mp hitem
      obtain ⟨candidate, hcandidate, hrun⟩ := exists_candidate hruns hitem
      rw [hrun.tokens]
      exact (h.picks candidate hcandidate).prefill (hrun.kind ▸ of_decide_eq_true hkind)
    all_decode := fun hnone => by
      rw [hdecodes]
      exact h.all_decode hnone
    aged_decode := fun requestId haged => by
      obtain ⟨candidate, hcandidate, hkind, hid, hlength⟩ := h.aged_decode requestId haged
      obtain ⟨item, hitem, hrun⟩ := exists_item hruns hcandidate
      rw [← hrun.tokens] at hlength
      refine ⟨item, ?_, hrun.request.trans hid, hdecodes.trans hlength, ?_⟩
      · rw [hprefill]
        exact List.mem_filter.mpr ⟨hitem, decide_eq_true (hrun.kind.trans hkind)⟩
      · omega }

end Budget

section Plan

variable {α : Type} {s : Scheduler} {admitted : List RequestId} {nowNs : Nat}

theorem same_peekIterationId : Moves SameRoster peekIterationId :=
  .bind .get fun _ => .bind (.orReject _ _) fun _ => .orReject _ _

theorem same_advanceIterationId : Moves SameRoster advanceIterationId := fun _ =>
  wp_read (wp_seq ((wp_orReject _ _).mpr ⟨fun _ => rfl, fun _ _ => rfl⟩))

theorem seat_markDeferred (deferred : List RequestId) (record : RequestRecord) :
    (markDeferred deferred record).seat = record.seat := by
  unfold markDeferred
  split
  · rfl
  · rfl

theorem roster_deferred (deferred : List RequestId) (aging : Bool) :
    Scheduler.roster { s with
      agingOverrideLastIteration := aging
      requests := s.requests.map (markDeferred deferred) } = s.roster := by
  have hseats : (s.requests.map (markDeferred deferred)).map RequestRecord.seat =
      s.requests.map RequestRecord.seat := by
    rw [List.map_map]
    exact List.map_congr_left fun record _ => seat_markDeferred deferred record
  change Roster.mk _ _ ((s.requests.map (markDeferred deferred)).map RequestRecord.seat)
    _ _ _ _ _ _ _ _ = _
  rw [hseats]
  rfl

/-- What the rest of planning does to a roster in order. -/
theorem wp_planReady (h : s.roster.Ok admitted) (nowNs : Nat) :
    wp (planReady nowNs)
      (fun output t => Roster.Keeps admitted Eq s.roster t.roster ∧
        Roster.timeouts output.completions = Roster.timeouts s.completionOutbox ∧
        ∀ plan, output.plan = some plan → WithinBudget s nowNs plan ∧
          t.agingOverrideLastIteration = (s.overrides nowNs).isSome)
      (fun _ t => Roster.Keeps admitted Eq s.roster t.roster) s := by
  have hselect : wp (onHost (s.selectCandidates nowNs))
      (fun result t => t.roster = s.roster ∧ Selection s (s.overrides nowNs) result.1 ∧
        result.2.1 = (s.overrides nowNs).isSome)
      (fun _ t => t.roster = s.roster) s := by
    unfold onHost
    rw [wp_zoom]
    exact wp_mono (wp_selectCandidates h.config_ok.chunk_pos h.iterationBudget.1)
      (fun _ _ hselected => ⟨rfl, hselected⟩) fun _ _ _ => rfl
  refine wp_read (wp_call hselect (fun result t hresult => ?_) fun _ t hsame => .of_same h hsame)
  obtain ⟨hsame, hselection, haging⟩ := hresult
  refine wp_ite (fun _ => ?_) fun _ => ?_
  · have hkept := Roster.Keeps.of_same h hsame
    refine ⟨⟨hkept.ok.delivered [], hkept.queue, hkept.issues⟩, ?_, nofun⟩
    exact congrArg (fun roster => Roster.timeouts roster.outbox) hsame
  · refine wp_same same_peekIterationId (fun iterationId u hpeeked => ?_)
      fun _ u hpeeked => .of_same h (hpeeked.trans hsame)
    have hagain := hpeeked.trans hsame
    have hids : ∀ candidate ∈ result.1, candidate.requestId ∈ admitted := by
      intro candidate hcandidate
      obtain ⟨record, hrecord, hid, hstate⟩ := (hselection.picks candidate hcandidate).running
      rw [← hid]
      exact h.ran record.seat (List.mem_map_of_mem hrecord) (decide_eq_false hstate)
    refine wp_call (wp_prepareRunning (hagain ▸ h) iterationId nowNs hids
      fun candidate hcandidate => (hselection.picks candidate hcandidate).decode)
      (fun plan v hprepared => ?_) fun _ v hfailed => ?_
    · obtain ⟨hdone, hcarries, roster, inflight, hended, hroster⟩ := hprepared
      rw [hagain] at hended
      have hissues := congrArg Roster.nextRequestId hended.same
      have hkept : Roster.Keeps admitted Eq s.roster v.roster := by
        rw [hroster] at hdone ⊢
        exact ⟨hdone, hended.waiting.symm, hissues⟩
      refine wp_same same_advanceIterationId (fun _ w hadvanced => ?_) fun _ w hadvanced => ?_
      · have htimeouts : Roster.timeouts w.roster.outbox = Roster.timeouts s.roster.outbox := by
          obtain ⟨completions, houtbox, hreasons⟩ := hended.outbox
          rw [hadvanced, hroster]
          change Roster.timeouts roster.outbox = _
          rw [houtbox, Roster.timeouts_append, Roster.timeouts_eq_nil hreasons,
            List.append_nil]
        rw [← hadvanced, ← @roster_deferred w result.2.2 result.2.1] at hkept
        refine ⟨⟨hkept.ok.delivered [], hkept.queue, hkept.issues⟩, htimeouts,
          fun plan' hplan => ?_⟩
        cases hplan
        exact ⟨hselection.withinBudget h hcarries, haging⟩
      · rw [hadvanced]
        exact hkept
    · rw [hagain] at hfailed
      exact .of_ended hfailed.1 hfailed.2

/-- What one plan does to a roster in order. -/
theorem wp_planRoster (h : s.roster.Ok admitted) (nowNs : Nat) :
    wp (planIteration nowNs)
      (fun output t => t.roster.Ok (admitted ++ planAdmissions nowNs s) ∧
        Roster.Served (s.expires nowNs) (planAdmissions nowNs s) s.roster t.roster ∧
        Roster.timeouts output.completions = s.waiting.filter (s.expires nowNs) ∧
        ∀ plan, output.plan = some plan → ∃ u, readyIteration nowNs s = .ok () u ∧
          u.config = s.config ∧ u.prefillBurst = s.prefillBurst ∧ WithinBudget u nowNs plan ∧
          t.agingOverrideLastIteration = (u.overrides nowNs).isSome)
      (fun _ t => t.roster.Ok (admitted ++ planAdmissions nowNs s) ∧
        Roster.Served (s.expires nowNs) (planAdmissions nowNs s) s.roster t.roster) s := by
  rw [planIteration_eq]
  refine wp_call (wp_ran (wp_readyIteration h nowNs)) (fun _ u hready => ?_)
    fun _ _ hfailed => hfailed
  obtain ⟨hrun, hok, hplanned⟩ := hready
  have hserved : ∀ t : Scheduler,
      Roster.Keeps (admitted ++ planAdmissions nowNs s) Eq u.roster t.roster →
      Roster.Served (s.expires nowNs) (planAdmissions nowNs s) s.roster t.roster := by
    intro t hkept
    refine ⟨?_, hkept.issues.trans hplanned.issues⟩
    rw [← hkept.queue, hplanned.queue]
  refine wp_mono (wp_planReady hok nowNs) (fun output t hdone => ?_) fun _ t hfailed => ?_
  · obtain ⟨hkept, htimeouts, hplan⟩ := hdone
    refine ⟨hkept.ok, hserved t hkept, htimeouts.trans hplanned.outbox, fun plan hsome => ?_⟩
    exact ⟨u, hrun, hplanned.config, hplanned.burst, hplan plan hsome⟩
  · exact ⟨hfailed.ok, hserved t hfailed⟩

end Plan

end Riley.Scheduling
