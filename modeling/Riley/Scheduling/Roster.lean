import Mathlib
import Riley.Library.Moves
import Riley.Scheduling.Records

/-!
The roster of a scheduler: its queue, its counters and what they depend on in the request
records. Most operations change the progress of requests and the pool but not the roster. What
the others do to it is a list of turns, each at one request, whatever state the operation is
run from and whether or not it fails.
-/

namespace Riley.Scheduling

open PagedKv Outcome Relation

/-- What the queue and the counters depend on in a request record. -/
structure Seat where
  requestId : RequestId
  waiting : Bool
  submittedAtNs : Nat
  promptTokens : Nat

def RequestRecord.seat (record : RequestRecord) : Seat where
  requestId := record.requestId
  waiting := record.state = .waiting
  submittedAtNs := record.submittedAtNs
  promptTokens := record.prompt.length

structure Roster where
  config : SchedulerConfig
  burst : Option PrefillBurstPolicy
  seats : List Seat
  waiting : List RequestId
  waitingPromptTokens : Nat
  activeSequences : Nat
  nextRequestId : Nat
  lastNowNs : Option Nat
  inflight : Option InflightPlan
  outbox : List RequestCompletion
  outboxCapacity : Nat

def Scheduler.roster (s : Scheduler) : Roster where
  config := s.config
  burst := s.prefillBurst
  seats := s.requests.map RequestRecord.seat
  waiting := s.waiting
  waitingPromptTokens := s.waitingPromptTokens
  activeSequences := s.activeSequences
  nextRequestId := s.nextRequestId
  lastNowNs := s.lastNowNs
  inflight := s.inflight
  outbox := s.completionOutbox
  outboxCapacity := s.completionOutboxCapacity

abbrev SameRoster : Scheduler → Scheduler → Prop := InvImage Eq Scheduler.roster

section Same

variable {α : Type}

theorem seats_modify {f : RequestRecord → RequestRecord}
    (hf : ∀ record, (f record).seat = record.seat) (index : Nat)
    (requests : List RequestRecord) :
    (requests.modify index f).map RequestRecord.seat = requests.map RequestRecord.seat := by
  refine List.ext_getElem? fun position => ?_
  rw [List.getElem?_map, List.getElem?_map, List.getElem?_modify]
  cases requests[position]? with
  | none => rfl
  | some record =>
      change some (RequestRecord.seat (ite _ _ _)) = some record.seat
      split
      · rw [hf]
      · rfl

theorem roster_modifyRecordAt {f : RequestRecord → RequestRecord}
    (hf : ∀ record, (f record).seat = record.seat) (index : Nat) (s : Scheduler) :
    (s.modifyRecordAt index f).roster = s.roster := by
  change Roster.mk _ _ ((s.requests.modify index f).map RequestRecord.seat) _ _ _ _ _ _ _ _ = _
  rw [seats_modify hf]
  rfl

theorem same_modifyRecord {f : RequestRecord → RequestRecord}
    (hf : ∀ record, (f record).seat = record.seat) (index : Nat) :
    Moves SameRoster (modifyRecord index f) :=
  .modify fun s => (roster_modifyRecordAt hf index s).symm

theorem same_onSequence (index : Nat) (sequence : SequenceState) (action : KvM α) :
    Moves SameRoster (onSequence index sequence action) :=
  .zoom_other fun state s =>
    (@roster_modifyRecordAt (withSequence (some state.seq)) (fun _ => rfl) index
      { s with pool := state.pool }).symm

theorem same_onHost (action : HostM α) : Moves SameRoster (onHost action) :=
  .zoom_other fun _ _ => rfl

theorem same_onCache (cache : PrefixCache) (action : CacheM α) :
    Moves SameRoster (onCache cache action) :=
  .zoom_other fun _ _ => rfl

theorem same_requireRecord (requestId : RequestId) :
    Moves SameRoster (requireRecord requestId) :=
  .bind .get fun _ => .orReject _ _

theorem same_ensureCompletionCapacity (needed : Nat) :
    Moves SameRoster (ensureCompletionCapacity needed) :=
  .bind .get fun _ => .bind (.orReject _ _) fun _ => .rejectIf _ _

theorem same_touchTip (index : Nat) : Moves SameRoster (touchTip index) := by
  refine .bind .get fun s => ?_
  split
  · exact same_onCache _ _
  · exact .pure _

theorem same_adoptPages (fuel index : Nat) : Moves SameRoster (adoptPages fuel index) := by
  induction fuel with
  | zero => exact .pure _
  | succ fuel ih =>
      refine .bind .get fun s => ?_
      split
      · split
        · exact .pure _
        · refine .ite (fun _ => .bind (.fromExcept _) fun found => ?_) fun _ => .pure _
          split
          · exact .pure _
          · refine .bind (same_onSequence _ _ _) fun _ => ?_
            exact .bind (same_modifyRecord (fun _ => by rfl) _) fun _ => ih
      · exact .pure _

theorem same_adoptCachedPrefix (index : Nat) : Moves SameRoster (adoptCachedPrefix index) := by
  refine .bind .get fun s => ?_
  split
  · exact .pure _
  · refine .ite (fun _ => .bind (same_adoptPages _ _) fun _ => ?_) fun _ => .pure _
    refine .bind .get fun t => .runIf fun _ => ?_
    exact .bind (same_modifyRecord (fun _ => by rfl) _) fun _ => same_touchTip index

theorem same_adoptCachedPrefixes : Moves SameRoster adoptCachedPrefixes := by
  refine .bind .get fun s => ?_
  split
  · exact .pure _
  · exact .forEach _ same_adoptCachedPrefix

theorem same_makeRoom (cache : PrefixCache) : Moves SameRoster (makeRoom cache) :=
  .ite (fun _ => .pure _) fun _ => same_onCache _ _

theorem same_listNextBlock (index : Nat) (record : RequestRecord) (sequence : SequenceState)
    (tokens : List TokenId) : Moves SameRoster (listNextBlock index record sequence tokens) := by
  refine .bind (same_onSequence _ _ _) fun block => .bind .get fun s => ?_
  split
  · exact .pure _
  · exact .bind (same_onCache _ _) fun entry => same_modifyRecord (fun _ => by rfl) _

theorem same_publishPages (count index : Nat) : Moves SameRoster (publishPages count index) := by
  induction count with
  | zero => exact .pure _
  | succ count ih =>
      have hunlink : Moves SameRoster (modifyRecord index unlinkPrefix) :=
        same_modifyRecord (fun _ => by rfl) _
      refine .bind .get fun s => ?_
      split
      · split
        · exact .pure _
        · refine .ite (fun _ => .pure _) fun _ => .bind (.fromExcept _) fun found => ?_
          split
          · exact .bind hunlink fun _ => .pure _
          · refine .bind (same_makeRoom _) fun room => .ite (fun _ => ?_) fun _ => ?_
            · refine .bind (same_listNextBlock _ _ _ _) fun _ => ?_
              exact .bind ih fun _ => .pure _
            · exact .bind hunlink fun _ => .pure _
      · exact .pure _

theorem same_publishPromptBlocks (index : Nat) :
    Moves SameRoster (publishPromptBlocks index) := by
  refine .bind .get fun s => ?_
  split
  · split
    · exact .pure _
    · exact .bind (same_publishPages _ _) fun listed => .runIf fun _ => same_touchTip index
  · exact .pure _

theorem same_dropPrefixCacheEntries : Moves SameRoster dropPrefixCacheEntries := by
  refine .bind .get fun s => ?_
  split
  · exact .pure _
  · refine .bind (same_onCache _ _) fun _ => .modify fun t => ?_
    change Roster.mk _ _ (t.requests.map RequestRecord.seat) _ _ _ _ _ _ _ _ =
      Roster.mk _ _ ((t.requests.map unlinkPrefix).map RequestRecord.seat) _ _ _ _ _ _ _ _
    rw [List.map_map]
    rfl

theorem same_evictForRoom (neededBlocks : Nat) :
    Moves SameRoster (evictForRoom neededBlocks) := by
  refine .bind .get fun s => ?_
  split
  · exact .pure _
  · exact .ite (fun _ => same_onCache _ _) fun _ => .pure _

theorem same_commitReservation (item : InflightItem) :
    Moves SameRoster (commitReservation item) := by
  refine .bind (same_requireRecord _) fun found => .bind (.orReject _ _) fun sequence => ?_
  exact .bind (same_onSequence _ _ _) fun commit => .rejectIf _ _

end Same

namespace Roster

/-- What may happen to the requests that an operation works on. -/
inductive Turn (ids : RequestId → Prop) : Roster → Roster → Prop
  | wake {roster : Roster} {index : Nat} {seat : Seat} :
      roster.seats[index]? = some seat → ids seat.requestId →
      Turn ids roster
        { roster with seats := roster.seats.set index { seat with waiting := false } }
  | finish {roster : Roster} {seat : Seat} {seats : List Seat}
      {completion : RequestCompletion} :
      roster.seats.Perm (seat :: seats) → ids seat.requestId →
      completion.requestId = seat.requestId → completion.reason ≠ .admissionTimeout →
      Turn ids roster
        { roster with
          seats := seats
          activeSequences := roster.activeSequences - 1
          outbox := roster.outbox ++ [completion] }
  | leave {roster : Roster} {seat : Seat} {seats : List Seat}
      {completion : RequestCompletion} :
      roster.seats.Perm (seat :: seats) → ids seat.requestId →
      seat.requestId ∈ roster.waiting → completion.requestId = seat.requestId →
      Turn ids roster
        { roster with
          seats := seats
          waiting := roster.waiting.erase seat.requestId
          waitingPromptTokens := roster.waitingPromptTokens - seat.promptTokens
          outbox := roster.outbox ++ [completion] }

abbrev Turns (ids : RequestId → Prop) : Roster → Roster → Prop := ReflTransGen (Turn ids)

end Roster

/-- The schedulers that an operation on the given requests can end in. -/
abbrev Turning (ids : RequestId → Prop) : Scheduler → Scheduler → Prop :=
  InvImage (Roster.Turns ids) Scheduler.roster

section Turning

variable {α : Type} {ids : RequestId → Prop} {s : Scheduler} {index : Nat}
  {record : RequestRecord} {requestId : RequestId}

theorem SameRoster.turning {t : Scheduler} (h : SameRoster s t) : Turning ids s t := by
  change Roster.Turns ids s.roster t.roster
  rw [show s.roster = t.roster from h]

theorem Turning.trans {t u : Scheduler} (h : Turning ids s t) (h' : Turning ids t u) :
    Turning ids s u :=
  ReflTransGen.trans h h'

theorem Turning.of_same {t u : Scheduler} (h : Turning ids t u) (hsame : t.roster = s.roster) :
    Turning ids s u := by
  change Roster.Turns ids s.roster u.roster
  rw [← hsame]
  exact h

theorem turning_of_same {action : SchedulerM α} (h : Moves SameRoster action) :
    Moves (Turning ids) action :=
  h.mono fun _ _ => SameRoster.turning

section Rules

variable {ok : α → Scheduler → Prop} {err : SchedulerError → Scheduler → Prop}

/-- A step that leaves the roster as it is. -/
theorem wp_same {β : Type} {action : SchedulerM β} {next : β → SchedulerM α}
    (h : Moves SameRoster action)
    (hnext : ∀ a t, t.roster = s.roster → wp (next a) ok err t)
    (herr : ∀ e t, t.roster = s.roster → err e t) : wp (action >>= next) ok err s :=
  wp_call (h s) (fun a t hsame => hnext a t (Eq.symm hsame))
    fun e t hsame => herr e t (Eq.symm hsame)

theorem lookup_eq_some (h : s.lookup requestId = some (index, record)) :
    s.requests[index]? = some record ∧ record.requestId = requestId := by
  unfold Scheduler.lookup Scheduler.recordIndex at h
  obtain ⟨found, hfound, hmap⟩ := Option.bind_eq_some_iff.mp h
  obtain ⟨other, hget, hpair⟩ := Option.map_eq_some_iff.mp hmap
  obtain ⟨rfl, rfl⟩ := Prod.mk.inj hpair
  obtain ⟨hlt, hid, -⟩ := List.findIdx?_eq_some_iff_getElem.mp hfound
  rw [List.getElem?_eq_getElem hlt] at hget
  cases hget
  exact ⟨List.getElem?_eq_getElem hlt, of_decide_eq_true hid⟩

theorem seats_of_requests (h : s.requests[index]? = some record) :
    s.roster.seats[index]? = some record.seat := by
  change (s.requests.map RequestRecord.seat)[index]? = _
  rw [List.getElem?_map, h]
  rfl

/-- The record that a request is looked up as. -/
theorem wp_require {next : Nat × RequestRecord → SchedulerM α}
    (hunknown : err (.unknownRequest requestId) s)
    (hfound : ∀ index record, s.requests[index]? = some record →
      record.requestId = requestId → wp (next (index, record)) ok err s) :
    wp (requireRecord requestId >>= next) ok err s := by
  refine wp_seq (wp_read ((wp_orReject _ _).mpr ⟨fun _ => hunknown, ?_⟩))
  rintro ⟨index, record⟩ hlookup
  obtain ⟨hget, hid⟩ := lookup_eq_some hlookup
  exact hfound index record hget hid

end Rules

theorem perm_swapRemove (hget : s.requests[index]? = some record) :
    s.requests.Perm (record :: Scheduler.swapRemove index s.requests) := by
  obtain ⟨hlt, rfl⟩ := List.getElem?_eq_some_iff.mp hget
  have hrest := Multiset.coe_eq_coe.mp (coe_swapRemove hget)
  exact (List.getElem_cons_eraseIdx_perm hlt).symm.trans (hrest.symm.cons _)

/-- Completing a record takes its seat away and delivers its terminal payload. -/
theorem wp_completeSeat {reason : RequestFinishReason} {state : RequestState} {nowNs : Nat}
    (hseat : s.roster.seats[index]? = some record.seat) :
    wp (completeRecord index record reason state nowNs)
      (fun _ t => ∃ seats, s.roster.seats.Perm (record.seat :: seats) ∧
        t.roster = { s.roster with
          seats := seats
          outbox := s.roster.outbox ++ [record.completion reason nowNs] })
      (fun _ _ => False) s := by
  change (s.requests.map RequestRecord.seat)[index]? = _ at hseat
  rw [List.getElem?_map] at hseat
  obtain ⟨held, hget, hsame⟩ := Option.map_eq_some_iff.mp hseat
  have hperm := (perm_swapRemove hget).map RequestRecord.seat
  rw [List.map_cons, hsame] at hperm
  exact ⟨_, hperm, rfl⟩

theorem turning_forceReclaim (hid : ids requestId) (nowNs : Nat) :
    Moves (Turning ids) (forceReclaimLiveRequest requestId nowNs) := by
  refine .bind (turning_of_same (same_ensureCompletionCapacity 1)) fun _ s => ?_
  refine wp_require .refl fun index record hget hrecord => wp_read ?_
  refine wp_seq ((wp_orReject _ _).mpr ⟨fun _ => .refl, fun active hactive => ?_⟩)
  refine wp_seq ((wp_orReject _ _).mpr ⟨fun _ => .refl, fun promised _ => ?_⟩)
  refine wp_seq ((wp_orReject _ _).mpr ⟨fun _ => .refl, fun sequence _ => ?_⟩)
  refine wp_same (same_modifyRecord (fun _ => by rfl) _) (fun _ t hstripped => ?_)
    fun _ _ hsame => SameRoster.turning hsame.symm
  have hreclaim : Moves SameRoster (zoom Scheduler.pool (fun pool s => { s with pool := pool })
      SchedulerError.pagedKv (KvBlockPool.reclaimSequence sequence.abandonForReclaim)) :=
    .zoom_other fun _ _ => rfl
  refine wp_same hreclaim (fun _ u hreclaimed => wp_write ?_)
    fun _ _ hsame => SameRoster.turning (hsame.trans hstripped).symm
  have hroster : u.roster = s.roster := hreclaimed.trans hstripped
  have hseat : u.roster.seats[index]? = some record.seat := by
    rw [hroster]
    exact seats_of_requests hget
  refine wp_mono (wp_completeSeat hseat) (fun _ v hdone => ?_) fun _ _ hfalse => hfalse.elim
  obtain ⟨seats, hperm, hdone⟩ := hdone
  obtain ⟨-, rfl⟩ := checkedSub_eq_some.mp hactive
  refine .single ?_
  rw [hdone]
  change Roster.Turn ids s.roster { u.roster with
    seats := seats
    activeSequences := s.roster.activeSequences - 1
    outbox := u.roster.outbox ++ [record.completion .executorFailure nowNs] }
  change u.roster.seats.Perm _ at hperm
  rw [hroster] at hperm ⊢
  exact .finish hperm (show ids record.requestId from hrecord ▸ hid) rfl nofun

/-- Closing the sequence of a running request gives its place back. -/
theorem wp_leaveActive (hid : ids record.requestId) (nowNs : Nat) :
    wp (leaveActive index record nowNs)
      (fun _ t => t.roster =
        { s.roster with activeSequences := s.roster.activeSequences - 1 })
      (fun _ t => Turning ids s t) s := by
  refine wp_read (wp_seq ((wp_orReject _ _).mpr ⟨fun _ => .refl, fun active hactive => ?_⟩))
  refine wp_seq ((wp_orReject _ _).mpr ⟨fun _ => .refl, fun promised _ => ?_⟩)
  refine wp_seq ((wp_orReject _ _).mpr ⟨fun _ => .refl, fun sequence _ => ?_⟩)
  refine wp_same (same_onSequence _ _ _).attempt (fun answer t hclosed => ?_)
    fun _ _ hsame => SameRoster.turning hsame.symm
  obtain ⟨-, rfl⟩ := checkedSub_eq_some.mp hactive
  cases answer with
  | ok done =>
      change Roster.mk t.roster.config t.roster.burst t.roster.seats t.roster.waiting
        t.roster.waitingPromptTokens _ t.roster.nextRequestId t.roster.lastNowNs
        t.roster.inflight t.roster.outbox t.roster.outboxCapacity = _
      rw [hclosed]
      rfl
  | error original =>
      have hforced := Moves.bind (turning_forceReclaim hid nowNs) fun _ =>
        (Moves.throw original : Moves (Turning ids) (throw original : SchedulerM Unit))
      refine wp_seq (wp_mono (turning_forceReclaim hid nowNs t) (fun _ u hturned => ?_)
        fun _ u hturned => hturned.of_same hclosed)
      exact hturned.of_same hclosed

/-- Leaving the queue takes the request and its tokens off it, if it is there. -/
theorem wp_leaveWaiting {α : Type} {next : Unit → SchedulerM α} {ok : α → Scheduler → Prop}
    {err : SchedulerError → Scheduler → Prop}
    (hnext : record.requestId ∈ s.waiting → record.prompt.length ≤ s.waitingPromptTokens →
      wp (next ()) ok err { s with
        waiting := s.waiting.erase record.requestId
        waitingPromptTokens := s.waitingPromptTokens - record.prompt.length })
    (herr : ∀ e, ¬ (record.requestId ∈ s.waiting ∧
      record.prompt.length ≤ s.waitingPromptTokens) → err e s) :
    wp (leaveWaiting record >>= next) ok err s := by
  refine wp_seq (wp_read (wp_check (fun habsent => herr _ fun h => habsent h.1) fun hqueued => ?_))
  refine wp_seq ((wp_orReject _ _).mpr ⟨fun hfew => herr _ fun h => ?_, fun tokens htokens => ?_⟩)
  · exact absurd h.2 (Nat.not_le.mpr (checkedSub_eq_none.mp hfew))
  · obtain ⟨hle, rfl⟩ := checkedSub_eq_some.mp htokens
    exact hnext (not_not.mp hqueued) hle

/-- Ending a request is at most one turn, and none when it fails before its resources are
given back. -/
theorem turning_finish (hid : ids requestId) {reason : RequestFinishReason}
    (hreason : reason ≠ .admissionTimeout) (nowNs : Nat) :
    Moves (Turning ids) (finishLiveRequest requestId reason nowNs) := by
  refine .bind (turning_of_same (same_ensureCompletionCapacity 1)) fun _ s => ?_
  refine wp_require .refl fun index record hget hrecord => ?_
  have hids : ids record.requestId := hrecord ▸ hid
  have hseat := seats_of_requests hget
  refine wp_check (fun _ => .refl) fun _ => wp_ite (fun _ => ?_) fun _ => ?_
  · refine wp_leaveWaiting (fun hqueued _ => ?_) fun _ _ => .refl
    refine wp_mono (wp_completeSeat hseat) (fun _ t hdone => ?_) fun _ _ hfalse => hfalse.elim
    obtain ⟨seats, hperm, hdone⟩ := hdone
    change Roster.Turns ids s.roster t.roster
    rw [hdone]
    exact .single (@Roster.Turn.leave ids s.roster record.seat seats _ hperm hids hqueued rfl)
  · refine wp_call (wp_leaveActive hids nowNs) (fun _ t hleft => ?_) fun _ _ hturned => hturned
    have hheld : t.roster.seats[index]? = some record.seat := by
      rw [hleft]
      exact hseat
    refine wp_mono (wp_completeSeat hheld) (fun _ u hdone => ?_) fun _ _ hfalse => hfalse.elim
    obtain ⟨seats, hperm, hdone⟩ := hdone
    change Roster.Turns ids s.roster u.roster
    rw [hdone, hleft]
    rw [hleft] at hperm
    exact .single (.finish hperm hids rfl hreason)

theorem turning_containFailure (hid : ids requestId) (nowNs : Nat) (original : SchedulerError) :
    Moves (Turning ids) (containLiveRequestFailure requestId nowNs original) := by
  refine .bind .get fun s => .ite (fun _ => .pure _) fun _ => ?_
  refine .bind (turning_forceReclaim hid nowNs).attempt fun answer => ?_
  cases answer with
  | ok _ => exact .pure _
  | error error => exact .pure _

theorem turning_settleReservation (hid : ids requestId) (reservation : SequenceReservation)
    (settlement : ReservationSettlement) :
    Moves (Turning ids) (settleReservation requestId reservation settlement) := by
  refine .bind (turning_of_same (same_requireRecord _)) fun found => ?_
  refine .bind (.orReject _ _) fun sequence => ?_
  refine .bind (turning_of_same (same_onSequence _ _ _)).attempt fun answer => ?_
  cases answer with
  | ok _ => exact .pure _
  | error original =>
      exact .bind .get fun s => .bind (turning_forceReclaim hid _) fun _ => .throw _

/-- The request at a position is one of those that an operation works on. -/
def WorksAt (ids : RequestId → Prop) (roster : Roster) (index : Nat) : Prop :=
  ∀ id, (roster.seats.map Seat.requestId)[index]? = some id → ids id

theorem worksAt (hget : s.requests[index]? = some record) (hid : ids record.requestId) :
    WorksAt ids s.roster index := by
  intro id hindex
  rw [List.getElem?_map, seats_of_requests hget] at hindex
  cases hindex
  exact hid

/-- Changing the state of a running request, which stays where it is. -/
theorem wp_wake {f : RequestRecord → RequestRecord}
    (hf : ∀ record, (f record).seat = { record.seat with waiting := false })
    (hat : WorksAt ids s.roster index) :
    wp (modifyRecord index f) (fun _ t => Turning ids s t ∧
      t.roster.seats.map Seat.requestId = s.roster.seats.map Seat.requestId)
      (fun _ _ => False) s := by
  change Roster.Turns ids s.roster (s.modifyRecordAt index f).roster ∧
    (s.modifyRecordAt index f).roster.seats.map Seat.requestId = _
  cases hget : s.requests[index]? with
  | none =>
      have hsame : s.requests.modify index f = s.requests := by
        rw [List.modify_eq_set_getElem?, hget]
        rfl
      unfold Scheduler.modifyRecordAt
      rw [hsame]
      exact ⟨.refl, rfl⟩
  | some record =>
      rw [Scheduler.modifyRecordAt_self hget]
      have hseat := seats_of_requests hget
      have hwoken : (s.put index (f record) s.pool).roster = { s.roster with
          seats := s.roster.seats.set index { record.seat with waiting := false } } := by
        change Roster.mk _ _ ((s.requests.set index (f record)).map RequestRecord.seat)
          _ _ _ _ _ _ _ _ = _
        rw [List.map_set, hf]
        rfl
      rw [hwoken]
      obtain ⟨hlt, hsame⟩ := List.getElem?_eq_some_iff.mp hseat
      refine ⟨.single (.wake hseat (hat _ ?_)), ?_⟩
      · rw [List.getElem?_map, hseat]
        rfl
      · change (s.roster.seats.set index _).map Seat.requestId = _
        rw [List.map_set]
        refine List.ext_getElem? fun other => ?_
        rw [List.getElem?_set]
        split
        · subst other
          rw [List.getElem?_map, hseat, List.length_map, if_pos hlt]
          rfl
        · rfl

/-- Starting the running requests at some positions. -/
theorem wp_startRunning (nowNs : Nat) (items : List (InflightItem × Nat))
    (hat : ∀ item ∈ items, WorksAt ids s.roster item.2) :
    wp (startItems nowNs items) (fun _ t => Turning ids s t) (fun _ _ => False) s := by
  induction items generalizing s with
  | nil => exact .refl
  | cons item rest ih =>
      refine wp_call (wp_wake (fun record => ?_) (hat item List.mem_cons_self))
        (fun _ t hwoken => ?_) fun _ _ hfalse => hfalse.elim
      · cases item.1.kind <;> simp [started, RequestRecord.seat, WorkKind.state,
          RequestRecord.prompt]
      · obtain ⟨hturned, hids⟩ := hwoken
        have hrest : ∀ other ∈ rest, WorksAt ids t.roster other.2 := by
          intro other hother
          unfold WorksAt
          rw [hids]
          exact hat other (List.mem_cons_of_mem _ hother)
        exact wp_mono (ih hrest) (fun _ _ hmore => hturned.trans hmore) fun _ _ hfalse => hfalse

section Settling

/-- A working item whose request can go back to its state. -/
def Resumes (ids : RequestId → Prop) (item : InflightItem) : Prop :=
  ids item.requestId ∧ item.previousState ≠ .waiting

theorem restored_seat {item : InflightItem} (h : item.previousState ≠ .waiting)
    (record : RequestRecord) :
    (restored item record).seat = { record.seat with waiting := false } := by
  change Seat.mk _ (decide (item.previousState = .waiting)) _ _ = _
  rw [decide_eq_false h]
  rfl

theorem turning_rollbackItems (items : List InflightItem) (cleanup : Option SchedulerError)
    (h : ∀ item ∈ items, Resumes ids item) :
    Moves (Turning ids) (rollbackItems items cleanup) := by
  induction items generalizing cleanup with
  | nil => exact .pure _
  | cons item rest ih =>
      obtain ⟨hid, hstate⟩ := h item List.mem_cons_self
      have hrest := fun cleanup => ih cleanup fun other hother =>
        h other (List.mem_cons_of_mem _ hother)
      refine .bind (turning_settleReservation hid _ _).attempt fun answer => ?_
      cases answer with
      | error error => exact hrest _
      | ok _ =>
          intro s
          refine wp_read ?_
          split
          · exact hrest _ s
          next index hindex =>
            obtain ⟨hlt, hfound, -⟩ := List.findIdx?_eq_some_iff_getElem.mp hindex
            have hat := @worksAt ids s index _ (List.getElem?_eq_getElem hlt)
              ((of_decide_eq_true hfound : _ = item.requestId) ▸ hid)
            refine wp_call (wp_wake (restored_seat hstate) hat) (fun _ t hwoken => ?_)
              fun _ _ hfalse => hfalse.elim
            exact wp_mono (hrest cleanup t) (fun _ _ hturned => hwoken.1.trans hturned)
              fun _ _ hturned => hwoken.1.trans hturned

theorem wp_rollbackTurning {ok : α → Scheduler → Prop} {items : List InflightItem}
    (original : SchedulerError) (h : ∀ item ∈ items, Resumes ids item) :
    wp (rollbackPreparedPlan items original) ok (fun _ t => Turning ids s t) s := by
  refine wp_call (turning_rollbackItems items.reverse none (fun item hitem => ?_) s)
    (fun _ _ hturned => hturned) fun _ _ hturned => hturned
  exact h item (List.mem_reverse.mp hitem)

theorem turning_commitItems (nowNs : Nat) (items : List (InflightItem × SettledInflightItem))
    (h : ∀ item ∈ items, ids item.1.requestId) : Moves (Turning ids) (commitItems nowNs items) := by
  induction items with
  | nil => exact .pure _
  | cons item rest ih =>
      have hrest := ih fun other hother => h other (List.mem_cons_of_mem _ hother)
      refine .bind (turning_of_same (same_commitReservation item.1)).attempt fun answer => ?_
      cases answer with
      | ok _ => exact .bind hrest fun _ => .pure _
      | error error =>
          refine .bind (turning_forceReclaim (h item List.mem_cons_self) nowNs).attempt ?_
          exact fun _ => .bind hrest fun _ => .pure _

theorem turning_finishPublished (hid : ids requestId) {reason : RequestFinishReason}
    (hreason : reason ≠ .admissionTimeout) (nowNs : Nat) (events : List TokenEvent) :
    Moves (Turning ids) (finishPublished requestId reason nowNs events) := by
  refine .bind (turning_finish hid hreason nowNs).attempt fun answer => ?_
  cases answer with
  | ok _ => exact .pure _
  | error error => exact .pure _

theorem wp_publishOutput {item : SettledInflightItem} (hid : ids item.requestId) (nowNs : Nat)
    (hat : WorksAt ids s.roster index) :
    wp (publishOutput item index record nowNs) (fun _ t => Turning ids s t)
      (fun _ t => Turning ids s t) s := by
  unfold publishOutput
  split
  · exact wp_call (wp_wake (fun _ => rfl) hat) (fun _ _ hwoken => hwoken.1)
      fun _ _ hfalse => hfalse.elim
  next output _ =>
    refine wp_same (same_modifyRecord (fun _ => by rfl) _) (fun _ t hpushed => ?_)
      fun _ _ hsame => SameRoster.turning hsame.symm
    refine wp_ite (fun _ => ?_) fun _ => ?_
    · have hreason : (if output.stop then RequestFinishReason.stop else .length) ≠
          .admissionTimeout := by split <;> nofun
      exact wp_mono (turning_finishPublished hid hreason nowNs _ t)
        (fun _ _ hturned => hturned.of_same hpushed) fun _ _ hturned => hturned.of_same hpushed
    · rw [← hpushed] at hat
      exact wp_call (wp_wake (fun _ => rfl) hat) (fun _ _ hwoken => hwoken.1.of_same hpushed)
        fun _ _ hfalse => hfalse.elim

theorem turning_publishCommitted {item : SettledInflightItem} (hid : ids item.requestId)
    (nowNs : Nat) : Moves (Turning ids) (publishCommittedItem item nowNs) := by
  intro s
  refine wp_require .refl fun index record hget hrecord => wp_ite (fun _ => ?_) fun _ => ?_
  · exact turning_finishPublished hid (by decide) nowNs [] s
  · have hadvance : Moves SameRoster (runIf (item.kind = .prefill) do
        modifyRecord index (advanceCursor item.targetLogicalLength)
        publishPromptBlocks index) :=
      .runIf fun _ => .bind (same_modifyRecord (fun _ => by rfl) _) fun _ =>
        same_publishPromptBlocks index
    refine wp_same hadvance (fun _ t hsame => ?_) fun _ _ hsame => SameRoster.turning hsame.symm
    have hat := worksAt hget (show ids record.requestId from hrecord ▸ hid)
    rw [← hsame] at hat
    exact wp_mono (wp_publishOutput hid nowNs hat) (fun _ _ hturned => hturned.of_same hsame)
      fun _ _ hturned => hturned.of_same hsame

theorem turning_publishItems (nowNs : Nat) (items : List SettledInflightItem)
    (h : ∀ item ∈ items, ids item.requestId) : Moves (Turning ids) (publishItems nowNs items) := by
  induction items with
  | nil => exact .pure _
  | cons item rest ih =>
      have hid := h item List.mem_cons_self
      have hrest := ih fun other hother => h other (List.mem_cons_of_mem _ hother)
      refine .bind (turning_publishCommitted hid nowNs).attempt fun attempted => ?_
      dsimp only
      split
      · exact .bind hrest fun _ => .pure _
      · refine .bind (turning_containFailure hid nowNs _) fun contained => ?_
        exact .bind hrest fun _ => .pure _

theorem turning_failCommitted (nowNs : Nat) (items : List SettledInflightItem)
    (h : ∀ item ∈ items, ids item.requestId) :
    Moves (Turning ids) (failCommitted nowNs items) := by
  induction items with
  | nil => exact .pure _
  | cons item rest ih =>
      have hid := h item List.mem_cons_self
      have hrest := ih fun other hother => h other (List.mem_cons_of_mem _ hother)
      refine .bind (turning_finish hid (by decide) nowNs).attempt fun answer => ?_
      cases answer with
      | ok _ => exact hrest
      | error error =>
          refine .bind (turning_containFailure hid nowNs _) fun contained => ?_
          exact .bind hrest fun _ => .pure _

theorem wp_abortRecord {abort : ExecutionAbort} {item : InflightItem} (h : Resumes ids item)
    (nowNs : Nat) (hat : WorksAt ids s.roster index) :
    wp (abortRecord abort item index record nowNs) (fun _ t => Turning ids s t)
      (fun _ t => Turning ids s t) s := by
  cases abort with
  | notDispatched =>
      refine wp_ite (fun _ => turning_finish h.1 (by decide) nowNs s) fun _ => ?_
      exact wp_mono (wp_wake (restored_seat h.2) hat) (fun _ _ hwoken => hwoken.1)
        fun _ _ hfalse => hfalse.elim
  | deviceQuiescedMutationUnknown => exact turning_finish h.1 (by decide) nowNs s

theorem turning_abortItem (abort : ExecutionAbort) (nowNs : Nat) {item : InflightItem}
    (h : Resumes ids item) : Moves (Turning ids) (abortItem abort nowNs item) := by
  refine .bind (turning_settleReservation h.1 _ _).attempt fun answer => ?_
  cases answer with
  | error error => exact .pure _
  | ok _ =>
      intro s
      refine wp_read ?_
      split
      · exact .refl
      next index record hlookup =>
        obtain ⟨hget, hrecord⟩ := lookup_eq_some hlookup
        have hat := worksAt hget (show ids record.requestId from hrecord ▸ h.1)
        have habort : wp (attempt (abortRecord abort item index record nowNs) : SchedulerM _)
            (fun _ t => Turning ids s t) (fun _ t => Turning ids s t) s :=
          (wp_attempt _).mpr (wp_abortRecord h nowNs hat)
        refine wp_call habort (fun answer t hturned => ?_) fun _ _ hturned => hturned
        cases answer with
        | ok _ => exact hturned
        | error error =>
            refine wp_call (turning_containFailure h.1 nowNs error t)
              (fun _ _ hcontained => Turning.trans hturned hcontained)
              fun _ _ hcontained => Turning.trans hturned hcontained

theorem turning_abortItems (abort : ExecutionAbort) (nowNs : Nat) (items : List InflightItem)
    (h : ∀ item ∈ items, Resumes ids item) :
    Moves (Turning ids) (abortItems abort nowNs items) := by
  induction items with
  | nil => exact .pure _
  | cons item rest ih =>
      refine .bind (turning_abortItem abort nowNs (h item List.mem_cons_self)) fun _ => ?_
      exact .bind (ih fun other hother => h other (List.mem_cons_of_mem _ hother)) fun _ => .pure _

end Settling

end Turning

end Riley.Scheduling
