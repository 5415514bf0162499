import Mathlib
import Riley.Scheduling.RosterSpec

/-!
What the operations on the queue do to a roster in order: a request leaves it from wherever it
stands, the overdue ones leave it together, the first ones start to run, and a new one joins
its end or, when nobody waits, runs at once.
-/

namespace Riley.Scheduling

open PagedKv Outcome Relation

section Rules

variable {α : Type} {s : Scheduler} {admitted : List RequestId} {seat : Seat}
  {ok : α → Scheduler → Prop} {err : SchedulerError → Scheduler → Prop}

/-- The outbox has room for so many more completions. -/
def Scheduler.HasRoom (s : Scheduler) (needed : Nat) : Prop :=
  s.completionOutbox.length + needed ≤ s.completionOutboxCapacity ∧
    s.completionOutbox.length + needed ≤ usizeMax

theorem wp_room {needed : Nat} {next : Unit → SchedulerM α}
    (hnext : s.HasRoom needed → wp (next ()) ok err s)
    (herr : ∀ e, ¬ s.HasRoom needed → err e s) :
    wp (ensureCompletionCapacity needed >>= next) ok err s := by
  refine wp_seq (wp_read (wp_seq ((wp_orReject _ _).mpr ⟨fun hnone => ?_, fun total htotal => ?_⟩)))
  · exact herr _ fun hroom => absurd hroom.2 (Nat.not_le.mpr (checkedAdd_eq_none.mp hnone))
  · obtain ⟨rfl, hle⟩ := checkedAdd_eq_some.mp htotal
    rw [wp_rejectIf]
    exact ⟨fun hfull => herr _ fun hroom => absurd hroom.1 (Nat.not_le.mpr hfull),
      fun hfits => hnext ⟨Nat.not_lt.mp hfits, hle⟩⟩

theorem wp_backlog {next : Unit → SchedulerM α}
    (hnext : s.completionOutbox = [] → wp (next ()) ok err s) (herr : ∀ e, err e s) :
    wp (ensureCompletionBacklogEmpty >>= next) ok err s := by
  refine wp_seq (wp_read ((wp_rejectIf _ _).mpr ⟨fun _ => herr _, fun hempty => ?_⟩))
  exact hnext (not_not.mp hempty)

theorem wp_validateNow (nowNs : Nat) :
    wp (validateNow nowNs)
      (fun _ t => t = s ∧ ∀ last, s.lastNowNs = some last → last ≤ nowNs) (fun _ t => t = s) s := by
  refine wp_read ?_
  split
  next hnone =>
    refine ⟨rfl, fun last hlast => ?_⟩
    rw [hnone] at hlast
    cases hlast
  next previousNs hprevious =>
    refine (wp_rejectIf _ _).mpr ⟨fun _ => rfl, fun hlater => ⟨rfl, fun last hlast => ?_⟩⟩
    rw [hprevious] at hlast
    cases hlast
    exact Nat.not_lt.mp hlater

theorem wp_validate {nowNs : Nat} {next : Unit → SchedulerM α}
    (hnext : (∀ last, s.lastNowNs = some last → last ≤ nowNs) → wp (next ()) ok err s)
    (herr : ∀ e, err e s) : wp (validateNow nowNs >>= next) ok err s := by
  refine wp_call (wp_validateNow nowNs) (fun _ t hvalid => ?_) fun _ t hsame => ?_
  · rw [hvalid.1]
    exact hnext hvalid.2
  · rw [hsame]
    exact herr _

theorem wp_observe {nowNs : Nat} {next : Unit → SchedulerM α}
    (hnext : (∀ last, s.lastNowNs = some last → last ≤ nowNs) →
      wp (next ()) ok err { s with lastNowNs := some nowNs })
    (herr : ∀ e, err e s) : wp (observeNow nowNs >>= next) ok err s :=
  wp_seq (wp_validate (fun hnow => hnext hnow) herr)

/-- Everyone on the roster is found. -/
theorem lookup_of_seat (hseat : seat ∈ s.roster.seats) :
    ∃ index record, s.lookup seat.requestId = some (index, record) := by
  obtain ⟨record, hrecord, rfl⟩ := List.mem_map.mp hseat
  have hfind : (s.requests.findIdx? (·.requestId = record.requestId)).isSome := by
    rw [List.findIdx?_isSome, List.any_eq_true]
    exact ⟨record, hrecord, decide_eq_true rfl⟩
  obtain ⟨index, hindex⟩ := Option.isSome_iff_exists.mp hfind
  obtain ⟨hlt, -, -⟩ := List.findIdx?_eq_some_iff_getElem.mp hindex
  refine ⟨index, s.requests[index], ?_⟩
  change (s.requests.findIdx? (·.requestId = record.requestId)).bind _ = _
  rw [hindex, Option.bind_some, List.getElem?_eq_getElem hlt]
  rfl

/-- The record of a request that waits. -/
theorem wp_requireQueued (h : s.roster.Ok admitted) {requestId : RequestId}
    (hqueued : requestId ∈ s.waiting) {next : Nat × RequestRecord → SchedulerM α}
    (hnext : ∀ index record, s.requests[index]? = some record → record.requestId = requestId →
      record.state = .waiting → wp (next (index, record)) ok err s) :
    wp (requireRecord requestId >>= next) ok err s := by
  obtain ⟨seat, hseat, rfl⟩ := h.present requestId hqueued
  obtain ⟨index, record, hlookup⟩ := lookup_of_seat hseat
  obtain ⟨hget, hid⟩ := lookup_eq_some hlookup
  refine wp_found hlookup (hnext index record hget hid ?_)
  have hwaits := (h.queued record.seat (List.mem_of_getElem? (seats_of_requests hget))).mpr
    (show record.requestId ∈ s.waiting from hid ▸ hqueued)
  exact of_decide_eq_true hwaits

end Rules

namespace Roster

/-- A roster in order that issued no identity, and how its queue was changed. -/
structure Keeps (admitted : List RequestId) (change : List RequestId → List RequestId → Prop)
    (roster roster' : Roster) : Prop where
  ok : roster'.Ok admitted
  queue : change roster.waiting roster'.waiting
  issues : roster'.nextRequestId = roster.nextRequestId

theorem Keeps.of_ended {admitted : List RequestId} {roster roster' : Roster}
    (hok : roster'.Ok admitted) (hended : Ended roster roster') :
    Keeps admitted Eq roster roster' := by
  have hissues := congrArg Roster.nextRequestId hended.same
  exact ⟨hok, hended.waiting.symm, hissues⟩

theorem Keeps.of_same {admitted : List RequestId} {s t : Scheduler} (h : s.roster.Ok admitted)
    (hsame : t.roster = s.roster) : Keeps admitted Eq s.roster t.roster := by
  rw [hsame]
  exact ⟨h, rfl, rfl⟩

/-- The roster once a waiting request left, with its terminal payload delivered. -/
structure Left (requestId : RequestId) (reason : RequestFinishReason) (roster roster' : Roster) :
    Prop where
  same : { roster' with
    seats := roster.seats
    waiting := roster.waiting
    waitingPromptTokens := roster.waitingPromptTokens
    outbox := roster.outbox } = roster
  waiting : roster'.waiting = roster.waiting.erase requestId
  seats : roster'.seats ⊆ roster.seats
  outbox : ∃ completion, roster'.outbox = roster.outbox ++ [completion] ∧
    completion.requestId = requestId ∧ completion.reason = reason

end Roster

section Leaving

variable {s : Scheduler} {admitted : List RequestId}

theorem Roster.Ok.promptTokens_le {roster : Roster} (h : roster.Ok admitted) {seat : Seat}
    (hseat : seat ∈ roster.seats) (hwaits : seat.waiting = true) :
    seat.promptTokens ≤ roster.waitingPromptTokens := by
  rw [h.tokens]
  exact List.le_sum_of_mem (List.mem_map_of_mem (List.mem_filter.mpr ⟨hseat, hwaits⟩))

/-- A waiting request ends for want of nothing but room for its completion. -/
theorem wp_finishWaiting (h : s.roster.Ok admitted) {requestId : RequestId}
    (hqueued : requestId ∈ s.waiting) {reason : RequestFinishReason}
    (hreason : validTransition .waiting reason.state = true) (nowNs : Nat) :
    wp (finishLiveRequest requestId reason nowNs)
      (fun _ t => t.roster.Ok admitted ∧ Roster.Left requestId reason s.roster t.roster)
      (fun _ t => t = s ∧ ¬ s.HasRoom 1) s := by
  refine wp_room (fun _ => ?_) fun _ hfull => ⟨rfl, hfull⟩
  refine wp_requireQueued h hqueued fun index record hget hid hstate => ?_
  have hseat := seats_of_requests hget
  have hmem := List.mem_of_getElem? hseat
  have hwaits : record.seat.waiting = true := decide_eq_true hstate
  have hwaiting : record.requestId ∈ s.waiting := hid ▸ hqueued
  have hallowed : ¬ validTransition record.state reason.state = false := by
    rw [hstate, hreason]
    decide
  refine wp_passes hallowed ?_
  rw [if_pos hstate]
  refine wp_leaveWaiting (fun _ _ => ?_) fun _ hrefused =>
    absurd ⟨hwaiting, h.promptTokens_le hmem hwaits⟩ hrefused
  refine wp_mono (wp_completeSeat hseat) (fun _ t hdone => ?_) fun _ _ hfalse => hfalse.elim
  obtain ⟨seats, hperm, hdone⟩ := hdone
  rw [hdone]
  refine ⟨h.leave hperm hwaiting _, rfl, ?_, fun other hother => ?_, _, rfl, hid, rfl⟩
  · change s.waiting.erase record.requestId = _
    rw [hid]
    rfl
  · exact hperm.mem_iff.mpr (List.mem_cons_of_mem _ hother)

end Leaving

/-- A waiting request that has waited for the admission timeout. -/
def Scheduler.overdue (s : Scheduler) (nowNs : Nat) (requestId : RequestId) : Bool :=
  s.config.admissionTimeoutNs.any fun timeoutNs => s.requests.any fun record =>
    decide (record.requestId = requestId ∧ timeoutNs ≤ nowNs - record.submittedAtNs)

namespace Roster

/-- The roster once the late requests left, in order and with their completions delivered. -/
structure Expired (late : RequestId → Bool) (roster roster' : Roster) : Prop where
  same : { roster' with
    seats := roster.seats
    waiting := roster.waiting
    waitingPromptTokens := roster.waitingPromptTokens
    outbox := roster.outbox } = roster
  waiting : roster'.waiting = roster.waiting.filter (!late ·)
  outbox : ∃ completions, roster'.outbox = roster.outbox ++ completions ∧
    completions.map RequestCompletion.requestId = roster.waiting.filter late ∧
    ∀ completion ∈ completions, completion.reason = .admissionTimeout

variable {late : RequestId → Bool} {roster middle roster' : Roster} {admitted : List RequestId}

theorem Expired.none (h : ∀ id ∈ roster.waiting, late id = false) :
    Expired late roster roster where
  same := rfl
  waiting := (List.filter_eq_self.mpr fun id hid => by rw [h id hid]; rfl).symm
  outbox := by
    refine ⟨[], (List.append_nil _).symm, ?_, List.forall_mem_nil _⟩
    exact (List.filter_eq_nil_iff.mpr fun id hid => by rw [h id hid]; exact Bool.false_ne_true).symm

/-- The first of the queue leaves for being late, and then the others do. -/
theorem Expired.cons {id : RequestId} {rest : List RequestId}
    (hleft : Left id .admissionTimeout roster middle) (hhead : roster.waiting = id :: rest)
    (hlate : late id = true) (h : Expired late middle roster') : Expired late roster roster' := by
  obtain ⟨completion, houtbox, hid, hreason⟩ := hleft.outbox
  obtain ⟨completions, hmore, hids, hreasons⟩ := h.outbox
  have hrest : middle.waiting = rest := by
    rw [hleft.waiting, hhead]
    exact List.erase_cons_head ..
  refine ⟨?_, ?_, completion :: completions, ?_, ?_, ?_⟩
  · have hmiddle := congrArg (fun between => { between with
      seats := roster.seats
      waiting := roster.waiting
      waitingPromptTokens := roster.waitingPromptTokens
      outbox := roster.outbox }) h.same
    exact hmiddle.trans hleft.same
  · rw [h.waiting, hrest, hhead, List.filter_cons, hlate]
    rfl
  · rw [hmore, houtbox, List.append_assoc]
    rfl
  · rw [List.map_cons, hid, hids, hrest, hhead, List.filter_cons, hlate]
    rfl
  · intro other hother
    rcases List.mem_cons.mp hother with rfl | hother
    · exact hreason
    · exact hreasons other hother

/-- When the first of the queue is not late, nobody is. -/
theorem Ok.none_late (h : roster.Ok admitted) {timeoutNs nowNs : Nat}
    (hlate : ∀ seat ∈ roster.seats,
      late seat.requestId = decide (timeoutNs ≤ nowNs - seat.submittedAtNs))
    {id : RequestId} {rest : List RequestId} (hhead : roster.waiting = id :: rest)
    (hfirst : late id = false) : ∀ other ∈ roster.waiting, late other = false := by
  intro other hother
  obtain ⟨first, hfirstSeat, rfl⟩ := h.present id (by rw [hhead]; exact List.mem_cons_self)
  obtain ⟨seat, hseat, rfl⟩ := h.present other hother
  rw [hhead] at hother
  rcases List.mem_cons.mp hother with hsame | hother
  · rw [hsame]
    exact hfirst
  · have hline := (List.pairwise_append.mp h.line).2.1
    rw [hhead] at hline
    have hage := h.ordered first hfirstSeat seat hseat ((List.pairwise_cons.mp hline).1 _ hother)
    rw [hlate first hfirstSeat, decide_eq_false_iff_not] at hfirst
    rw [hlate seat hseat, decide_eq_false_iff_not]
    omega

end Roster

section Expiring

variable {s : Scheduler} {admitted : List RequestId}

/-- The rounds of `expire_waiting` take off exactly the late requests. -/
theorem wp_expireRounds {late : RequestId → Bool} {timeoutNs nowNs : Nat} (fuel : Nat)
    (h : s.roster.Ok admitted) (hfuel : s.waiting.length ≤ fuel)
    (hlate : ∀ seat ∈ s.roster.seats,
      late seat.requestId = decide (timeoutNs ≤ nowNs - seat.submittedAtNs))
    (hroom : s.HasRoom s.waiting.length) :
    wp (repeatWhile fuel (expireFront timeoutNs nowNs))
      (fun _ t => t.roster.Ok admitted ∧ Roster.Expired late s.roster t.roster)
      (fun _ _ => False) s := by
  induction fuel generalizing s with
  | zero =>
      have hempty : s.roster.waiting = [] := List.length_eq_zero_iff.mp (Nat.le_zero.mp hfuel)
      refine ⟨h, .none fun id hid => ?_⟩
      rw [hempty] at hid
      cases hid
  | succ fuel ih =>
      rw [repeatWhile]
      refine wp_seq (wp_read ?_)
      cases hhead : s.waiting with
      | nil =>
          refine ⟨h, .none fun id hid => ?_⟩
          change id ∈ s.waiting at hid
          rw [hhead] at hid
          cases hid
      | cons id rest =>
          refine wp_requireQueued h (by rw [hhead]; exact List.mem_cons_self)
            fun index record hget hid hstate => ?_
          have hmem := List.mem_of_getElem? (seats_of_requests hget)
          have hrecord : late id = decide (timeoutNs ≤ nowNs - record.submittedAtNs) := by
            rw [← hid]
            exact hlate record.seat hmem
          refine wp_ite (fun hyoung => ?_) fun hold => ?_
          · refine ⟨h, .none (h.none_late hlate hhead ?_)⟩
            rw [hrecord, decide_eq_false_iff_not]
            omega
          · have hfinish := @wp_finishWaiting s admitted h id
              (by rw [hhead]; exact List.mem_cons_self) .admissionTimeout rfl nowNs
            rw [hhead, List.length_cons] at hroom hfuel
            refine wp_call hfinish (fun _ t hleft => ?_) fun _ t hfull => ?_
            · obtain ⟨hok, hleft⟩ := hleft
              have hrest : t.waiting = rest := by
                have hwaiting := hleft.waiting
                change t.waiting = s.waiting.erase id at hwaiting
                rw [hwaiting, hhead]
                exact List.erase_cons_head ..
              have hcapacity : t.completionOutboxCapacity = s.completionOutboxCapacity := by
                have hsame := congrArg Roster.outboxCapacity hleft.same
                exact hsame
              obtain ⟨completion, houtbox, -, -⟩ := hleft.outbox
              change t.completionOutbox = s.completionOutbox ++ [completion] at houtbox
              change wp (repeatWhile fuel (expireFront timeoutNs nowNs)) _ _ t
              refine wp_mono (ih hok (by rw [hrest]; omega)
                (fun seat hseat => hlate seat (hleft.seats hseat)) ?_)
                (fun _ u hexpired => ⟨hexpired.1, hexpired.2.cons hleft hhead ?_⟩)
                fun _ _ hfalse => hfalse
              · unfold Scheduler.HasRoom at hroom ⊢
                rw [hrest, hcapacity, houtbox, List.length_append, List.length_singleton]
                omega
              · rw [hrecord]
                exact decide_eq_true (Nat.not_lt.mp hold)
            · refine hfull.2 ?_
              unfold Scheduler.HasRoom at hroom ⊢
              omega

theorem overdue_eq (h : s.roster.Ok admitted) {timeoutNs : Nat}
    (htimeout : s.config.admissionTimeoutNs = some timeoutNs) (nowNs : Nat) {seat : Seat}
    (hseat : seat ∈ s.roster.seats) :
    s.overdue nowNs seat.requestId = decide (timeoutNs ≤ nowNs - seat.submittedAtNs) := by
  obtain ⟨record, hrecord, rfl⟩ := List.mem_map.mp hseat
  have hnodup := h.seats_nodup
  change ((s.requests.map RequestRecord.seat).map Seat.requestId).Nodup at hnodup
  rw [List.map_map] at hnodup
  unfold Scheduler.overdue
  rw [htimeout, Option.any_some, Bool.eq_iff_iff, List.any_eq_true, decide_eq_true_iff]
  constructor
  · rintro ⟨other, hother, hdue⟩
    obtain ⟨hid, hdue⟩ := of_decide_eq_true hdue
    rw [List.inj_on_of_nodup_map hnodup hother hrecord hid] at hdue
    exact hdue
  · intro hdue
    exact ⟨record, hrecord, decide_eq_true ⟨rfl, hdue⟩⟩

/-- Expiry removes exactly the waiting requests whose deadline has passed. -/
theorem wp_expireQueue (h : s.roster.Ok admitted) (hroom : s.HasRoom s.waiting.length)
    (nowNs : Nat) :
    wp (expireWaiting nowNs)
      (fun _ t => t.roster.Ok admitted ∧
        Roster.Expired (s.overdue nowNs) s.roster t.roster)
      (fun _ _ => False) s := by
  refine wp_read ?_
  cases htimeout : s.config.admissionTimeoutNs with
  | none =>
      refine ⟨h, .none fun id _ => ?_⟩
      unfold Scheduler.overdue
      rw [htimeout]
      rfl
  | some timeoutNs =>
      exact wp_expireRounds s.waiting.length h (Nat.le_refl _)
        (fun seat hseat => overdue_eq h htimeout nowNs hseat) hroom

end Expiring

/-- The requests that the rounds of `admit_waiting` admit, in the order of the rounds. -/
def admissions (nowNs : Nat) : Nat → Scheduler → List RequestId
  | 0, _ => []
  | fuel + 1, s =>
      match admitFront nowNs s with
      | .ok true t => s.waiting.take 1 ++ admissions nowNs fuel t
      | _ => []

namespace Roster

/-- The roster once the first so many of the queue started to run. -/
structure Admits (ids : List RequestId) (roster roster' : Roster) : Prop where
  same : { roster' with
    seats := roster.seats
    waiting := roster.waiting
    waitingPromptTokens := roster.waitingPromptTokens
    activeSequences := roster.activeSequences } = roster
  queue : roster.waiting = ids ++ roster'.waiting

theorem Admits.nil (roster : Roster) : Admits [] roster roster := ⟨rfl, rfl⟩

theorem Admits.append {first second : List RequestId} {roster middle roster' : Roster}
    (h : Admits first roster middle) (h' : Admits second middle roster') :
    Admits (first ++ second) roster roster' := by
  refine ⟨?_, ?_⟩
  · have hmiddle := congrArg (fun between => { between with
      seats := roster.seats
      waiting := roster.waiting
      waitingPromptTokens := roster.waitingPromptTokens
      activeSequences := roster.activeSequences }) h'.same
    exact hmiddle.trans h.same
  · rw [h.queue, h'.queue, List.append_assoc]

end Roster

section Admitting

variable {α : Type} {s : Scheduler} {admitted : List RequestId}
  {ok : α → Scheduler → Prop} {err : SchedulerError → Scheduler → Prop}

theorem wp_createAny {maximum : Nat} {next : SequenceState → SchedulerM α}
    (hnext : ∀ sequence pool host, wp (next sequence) ok err (s.withSequencePool pool host))
    (herr : ∀ e pool host, err e (s.withSequencePool pool host)) :
    wp (createSequence maximum >>= next) ok err s := by
  refine wp_seq ?_
  unfold createSequence
  rw [wp_zoom]
  exact wp_any (fun sequence state => hnext sequence state.1 state.2)
    fun e state => herr _ state.1 state.2

/-- A round of admission takes the first of the queue or nobody. -/
theorem wp_admitRound (h : s.roster.Ok admitted) (nowNs : Nat) :
    wp (admitFront nowNs)
      (fun again t => if again then t.roster.Ok (admitted ++ s.waiting.take 1) ∧
          Roster.Admits (s.waiting.take 1) s.roster t.roster
        else t.roster = s.roster)
      (fun _ t => t.roster = s.roster) s := by
  refine wp_read ?_
  cases hhead : s.waiting with
  | nil => rfl
  | cons id rest =>
      refine wp_requireQueued h (by rw [hhead]; exact List.mem_cons_self)
        fun index record hget hid hstate => wp_ite (fun _ => rfl) fun hfits => ?_
      obtain ⟨hplace, hpromised, -⟩ := canAdmit_iff.mp (Bool.eq_true_of_not_eq_false hfits)
      refine wp_seq ((wp_fromExcept _).mpr ⟨fun _ _ => rfl, fun maximum _ => ?_⟩)
      refine wp_createAny (fun sequence pool host => wp_write (wp_read ?_)) fun _ _ _ => rfl
      have hseat := seats_of_requests hget
      have hmem := List.mem_of_getElem? hseat
      have hwaits : record.seat.waiting = true := decide_eq_true hstate
      refine wp_some (checkedSub_eq_some.mpr ⟨h.promptTokens_le hmem hwaits, rfl⟩) ?_
      refine wp_seq ((wp_set _).mpr (wp_promise ?_ hpromised (wp_passes ?_ ?_)))
      · exact Nat.succ_le_of_lt (hplace.trans_le h.active_bound)
      · rw [hstate]
        decide
      · refine wp_modifyRecord hget ?_
        obtain ⟨hlt, hrecord⟩ := List.getElem?_eq_some_iff.mp hget
        have hperm : s.roster.seats.Perm
            (record.seat :: (s.requests.eraseIdx index).map RequestRecord.seat) := by
          have hfocus := (List.getElem_cons_eraseIdx_perm hlt).symm.map RequestRecord.seat
          rw [hrecord] at hfocus
          exact hfocus
        have hperm' := (List.set_perm_cons_eraseIdx hlt
          (Scheduling.admitted sequence nowNs record)).map RequestRecord.seat
        have hqueue : s.roster.waiting = record.seat.requestId :: rest := by
          change s.waiting = record.requestId :: rest
          rw [hhead, hid]
        have hdone := h.takesSeat hperm hperm' hqueue hplace
        rw [show record.seat.requestId = id from hid] at hdone
        exact ⟨hdone, rfl, hhead⟩

theorem Roster.Ok.admits_nil (h : s.roster.Ok admitted) {t : Scheduler}
    (hsame : t.roster = s.roster) :
    t.roster.Ok (admitted ++ []) ∧ Roster.Admits [] s.roster t.roster := by
  rw [hsame, List.append_nil]
  exact ⟨h, .nil _⟩

/-- The rounds of `admit_waiting` take the queue from its front. -/
theorem wp_admitRounds (fuel : Nat) (h : s.roster.Ok admitted) (nowNs : Nat) :
    wp (repeatWhile fuel (admitFront nowNs))
      (fun _ t => t.roster.Ok (admitted ++ admissions nowNs fuel s) ∧
        Roster.Admits (admissions nowNs fuel s) s.roster t.roster)
      (fun _ t => t.roster.Ok (admitted ++ admissions nowNs fuel s) ∧
        Roster.Admits (admissions nowNs fuel s) s.roster t.roster) s := by
  induction fuel generalizing s admitted with
  | zero => exact h.admits_nil rfl
  | succ fuel ih =>
      obtain ⟨hround, hrefused⟩ := wp_elim (wp_admitRound h nowNs)
      unfold admissions repeatWhile
      cases hrun : admitFront nowNs s with
      | error e t =>
          refine wp_seq ?_
          unfold wp
          rw [hrun]
          exact h.admits_nil (hrefused e t hrun)
      | ok again t =>
          refine wp_seq (wp_of_ok hrun ?_)
          cases again with
          | false => exact h.admits_nil (hround false t hrun)
          | true =>
              obtain ⟨hok, hadmits⟩ := hround true t hrun
              have hrest := ih hok
              rw [List.append_assoc] at hrest
              exact wp_mono hrest (fun _ _ hmore => ⟨hmore.1, hadmits.append hmore.2⟩)
                fun _ _ hmore => ⟨hmore.1, hadmits.append hmore.2⟩

theorem wp_admitQueue (h : s.roster.Ok admitted) (nowNs : Nat) :
    wp (admitWaiting nowNs)
      (fun _ t => t.roster.Ok (admitted ++ admissions nowNs s.waiting.length s) ∧
        Roster.Admits (admissions nowNs s.waiting.length s) s.roster t.roster)
      (fun _ t => t.roster.Ok (admitted ++ admissions nowNs s.waiting.length s) ∧
        Roster.Admits (admissions nowNs s.waiting.length s) s.roster t.roster) s :=
  wp_read (wp_admitRounds _ h nowNs)

end Admitting

end Riley.Scheduling
