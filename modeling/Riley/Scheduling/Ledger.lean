import Mathlib
import Riley.Library.Journal
import Riley.Library.Moves
import Riley.Scheduling.Roster

/-!
The ledger of a scheduler: the tokens of its live requests and of the completions that nobody
collected yet. Most operations leave the ledger as it is; those that end requests move a strand
from the table to the outbox, whatever else they do and whether or not they fail.
-/

namespace Riley.Scheduling

open PagedKv Outcome Journal

def RequestRecord.strand (record : RequestRecord) : Strand RequestId TokenId :=
  ⟨record.requestId, record.generatedTokenIds⟩

def RequestCompletion.strand (completion : RequestCompletion) : Strand RequestId TokenId :=
  ⟨completion.requestId, completion.generatedTokenIds⟩

def TokenEvent.stamp (event : TokenEvent) : Stamp RequestId TokenId :=
  ⟨event.requestId, event.generatedIndex, event.tokenId⟩

/-- What some completions tell of their requests. -/
def completed (completions : List RequestCompletion) : Multiset (Strand RequestId TokenId) :=
  (completions.map RequestCompletion.strand : List (Strand RequestId TokenId))

@[simp] theorem completed_nil : completed [] = 0 := rfl

@[simp] theorem completed_append (first second : List RequestCompletion) :
    completed (first ++ second) = completed first + completed second := by
  unfold completed
  rw [List.map_append, ← Multiset.coe_add]

structure Ledger where
  rows : List (Strand RequestId TokenId)
  outbox : List RequestCompletion
  nextRequestId : Nat

namespace Scheduler

def ledger (s : Scheduler) : Ledger where
  rows := s.requests.map RequestRecord.strand
  outbox := s.completionOutbox
  nextRequestId := s.nextRequestId

/-- The strands of the live requests and of the completions in the outbox. -/
def held (s : Scheduler) : Multiset (Strand RequestId TokenId) :=
  (s.ledger.rows : Multiset (Strand RequestId TokenId)) + completed s.ledger.outbox

end Scheduler

abbrev SameLedger : Scheduler → Scheduler → Prop := InvImage Eq Scheduler.ledger

abbrev SameHeld : Scheduler → Scheduler → Prop := InvImage Eq Scheduler.held

section Same

variable {α β : Type} {s t : Scheduler} {index : Nat} {record : RequestRecord}
  {ok : α → Scheduler → Prop} {err : SchedulerError → Scheduler → Prop}

theorem SameLedger.held (h : SameLedger s t) : SameHeld s t := by
  change s.held = t.held
  unfold Scheduler.held
  rw [show s.ledger = t.ledger from h]

theorem SameHeld.trans {u : Scheduler} (h : SameHeld s t) (h' : SameHeld t u) : SameHeld s u :=
  Eq.trans h h'

theorem held_of_same {action : SchedulerM α} (h : Moves SameLedger action) :
    Moves SameHeld action :=
  h.mono fun _ _ => SameLedger.held

/-- A step that leaves the ledger as it is. -/
theorem wp_kept {action : SchedulerM β} {next : β → SchedulerM α} (h : Moves SameLedger action)
    (hnext : ∀ b t, t.ledger = s.ledger → wp (next b) ok err t)
    (herr : ∀ e t, t.ledger = s.ledger → err e t) : wp (action >>= next) ok err s :=
  wp_call (h s) (fun b t hsame => hnext b t (Eq.symm hsame))
    fun e t hsame => herr e t (Eq.symm hsame)

theorem rows_modify {f : RequestRecord → RequestRecord}
    (hf : ∀ record, (f record).strand = record.strand) (index : Nat)
    (requests : List RequestRecord) :
    (requests.modify index f).map RequestRecord.strand = requests.map RequestRecord.strand := by
  apply List.ext_getElem?
  intro position
  rw [List.getElem?_map, List.getElem?_map, List.getElem?_modify]
  cases requests[position]? with
  | none => rfl
  | some record =>
      change some (RequestRecord.strand (ite _ _ _)) = some record.strand
      split
      · rw [hf]
      · rfl

theorem ledger_modifyRecordAt {f : RequestRecord → RequestRecord}
    (hf : ∀ record, (f record).strand = record.strand) (index : Nat) (s : Scheduler) :
    (s.modifyRecordAt index f).ledger = s.ledger := by
  change Ledger.mk ((s.requests.modify index f).map RequestRecord.strand) _ _ = _
  rw [rows_modify hf]
  rfl

theorem kept_modifyRecord {f : RequestRecord → RequestRecord}
    (hf : ∀ record, (f record).strand = record.strand) (index : Nat) :
    Moves SameLedger (modifyRecord index f) :=
  .modify fun s => (ledger_modifyRecordAt hf index s).symm

theorem kept_onSequence (index : Nat) (sequence : SequenceState) (action : KvM α) :
    Moves SameLedger (onSequence index sequence action) :=
  .zoom_other fun state s =>
    (@ledger_modifyRecordAt (withSequence (some state.seq)) (fun _ => rfl) index
      { s with pool := state.pool }).symm

theorem kept_onHost (action : HostM α) : Moves SameLedger (onHost action) :=
  .zoom_other fun _ _ => rfl

theorem kept_onCache (cache : PrefixCache) (action : CacheM α) :
    Moves SameLedger (onCache cache action) :=
  .zoom_other fun _ _ => rfl

theorem kept_createSequence (maximum : Nat) : Moves SameLedger (createSequence maximum) :=
  .zoom_other fun _ _ => rfl

theorem kept_requireRecord (requestId : RequestId) :
    Moves SameLedger (requireRecord requestId) :=
  .bind .get fun _ => .orReject _ _

theorem kept_ensureCompletionCapacity (needed : Nat) :
    Moves SameLedger (ensureCompletionCapacity needed) :=
  .bind .get fun _ => .bind (.orReject _ _) fun _ => .rejectIf _ _

theorem kept_promise (promisedKvBlocks : Nat) : Moves SameLedger (promise promisedKvBlocks) := by
  intro s
  apply wp_read
  refine wp_seq ((wp_orReject _ _).mpr ⟨fun _ => rfl, fun active _ => ?_⟩)
  refine wp_seq ((wp_set _).mpr (wp_read ?_))
  exact wp_seq ((wp_orReject _ _).mpr ⟨fun _ => rfl, fun _ _ => rfl⟩)

theorem kept_touchTip (index : Nat) : Moves SameLedger (touchTip index) := by
  refine .bind .get fun s => ?_
  split
  · exact kept_onCache _ _
  · exact .pure _

theorem kept_adoptPages (fuel index : Nat) : Moves SameLedger (adoptPages fuel index) := by
  induction fuel with
  | zero => exact .pure _
  | succ fuel ih =>
      refine .bind .get fun s => ?_
      split
      · split
        · exact .pure _
        · refine .ite (fun _ => .bind (.fromExcept _) fun found => ?_) fun _ => .pure _
          split
          · exact .pure _
          · refine .bind (kept_onSequence _ _ _) fun _ => ?_
            exact .bind (kept_modifyRecord (fun _ => by rfl) _) fun _ => ih
      · exact .pure _

theorem kept_adoptCachedPrefix (index : Nat) : Moves SameLedger (adoptCachedPrefix index) := by
  refine .bind .get fun s => ?_
  split
  · exact .pure _
  · refine .ite (fun _ => .bind (kept_adoptPages _ _) fun _ => ?_) fun _ => .pure _
    refine .bind .get fun t => .runIf fun _ => ?_
    exact .bind (kept_modifyRecord (fun _ => by rfl) _) fun _ => kept_touchTip index

theorem kept_adoptCachedPrefixes : Moves SameLedger adoptCachedPrefixes := by
  refine .bind .get fun s => ?_
  split
  · exact .pure _
  · exact .forEach _ kept_adoptCachedPrefix

theorem kept_makeRoom (cache : PrefixCache) : Moves SameLedger (makeRoom cache) :=
  .ite (fun _ => .pure _) fun _ => kept_onCache _ _

theorem kept_listNextBlock (index : Nat) (record : RequestRecord) (sequence : SequenceState)
    (tokens : List TokenId) : Moves SameLedger (listNextBlock index record sequence tokens) := by
  refine .bind (kept_onSequence _ _ _) fun block => .bind .get fun s => ?_
  split
  · exact .pure _
  · exact .bind (kept_onCache _ _) fun _ => kept_modifyRecord (fun _ => by rfl) _

theorem kept_publishPages (count index : Nat) : Moves SameLedger (publishPages count index) := by
  induction count with
  | zero => exact .pure _
  | succ count ih =>
      have hunlink : Moves SameLedger (modifyRecord index unlinkPrefix) :=
        kept_modifyRecord (fun _ => by rfl) _
      refine .bind .get fun s => ?_
      split
      · split
        · exact .pure _
        · refine .ite (fun _ => .pure _) fun _ => .bind (.fromExcept _) fun found => ?_
          split
          · exact .bind hunlink fun _ => .pure _
          · refine .bind (kept_makeRoom _) fun room => .ite (fun _ => ?_) fun _ => ?_
            · refine .bind (kept_listNextBlock _ _ _ _) fun _ => ?_
              exact .bind ih fun _ => .pure _
            · exact .bind hunlink fun _ => .pure _
      · exact .pure _

theorem kept_publishPromptBlocks (index : Nat) :
    Moves SameLedger (publishPromptBlocks index) := by
  refine .bind .get fun s => ?_
  split
  · split
    · exact .pure _
    · exact .bind (kept_publishPages _ _) fun listed => .runIf fun _ => kept_touchTip index
  · exact .pure _

/-- Changes to every record that leave its tokens alone. -/
theorem ledger_mapRecords {f : RequestRecord → RequestRecord}
    (hf : ∀ record, (f record).strand = record.strand) (s : Scheduler) :
    Scheduler.ledger { s with requests := s.requests.map f } = s.ledger := by
  change Ledger.mk ((s.requests.map f).map RequestRecord.strand) _ _ = _
  have hsame : RequestRecord.strand ∘ f = RequestRecord.strand := funext hf
  rw [List.map_map, hsame]
  rfl

theorem kept_dropPrefixCacheEntries : Moves SameLedger dropPrefixCacheEntries := by
  refine .bind .get fun s => ?_
  split
  · exact .pure _
  · exact .bind (kept_onCache _ _) fun _ => .modify fun t =>
      (@ledger_mapRecords unlinkPrefix (fun _ => rfl) t).symm

theorem kept_evictForRoom (neededBlocks : Nat) :
    Moves SameLedger (evictForRoom neededBlocks) := by
  refine .bind .get fun s => ?_
  split
  · exact .pure _
  · exact .ite (fun _ => kept_onCache _ _) fun _ => .pure _

theorem kept_commitReservation (item : InflightItem) :
    Moves SameLedger (commitReservation item) := by
  refine .bind (kept_requireRecord _) fun found => .bind (.orReject _ _) fun sequence => ?_
  exact .bind (kept_onSequence _ _ _) fun commit => .rejectIf _ _

end Same

section Finish

variable {s : Scheduler} {index : Nat} {record : RequestRecord}

theorem row_of_requests (hget : s.requests[index]? = some record) :
    s.ledger.rows[index]? = some record.strand := by
  change (s.requests.map RequestRecord.strand)[index]? = _
  rw [List.getElem?_map, hget]
  rfl

/-- Completing a request moves its strand from the table to the outbox. -/
theorem wp_completeHeld {reason : RequestFinishReason} {state : RequestState} {nowNs : Nat}
    (hrow : s.ledger.rows[index]? = some record.strand) :
    wp (completeRecord index record reason state nowNs) (fun _ t => SameHeld s t)
      (fun _ _ => False) s := by
  change (s.requests.map RequestRecord.strand)[index]? = _ at hrow
  rw [List.getElem?_map] at hrow
  obtain ⟨found, hget, hsame⟩ := Option.map_eq_some_iff.mp hrow
  have hperm := (perm_swapRemove hget).map RequestRecord.strand
  rw [List.map_cons, hsame] at hperm
  change s.held = ((Scheduler.swapRemove index s.requests).map RequestRecord.strand :
    List (Strand RequestId TokenId)) +
      completed (s.completionOutbox ++ [record.completion reason nowNs])
  have hrows : (s.ledger.rows : Multiset (Strand RequestId TokenId)) =
      {record.strand} + ((Scheduler.swapRemove index s.requests).map RequestRecord.strand :
        List (Strand RequestId TokenId)) :=
    Multiset.coe_eq_coe.mpr hperm
  have hlast : completed [record.completion reason nowNs] = {record.strand} := rfl
  unfold Scheduler.held
  rw [hrows, completed_append, hlast]
  change {record.strand} + _ + completed s.completionOutbox = _
  abel

theorem held_forceReclaim (requestId : RequestId) (nowNs : Nat) :
    Moves SameHeld (forceReclaimLiveRequest requestId nowNs) := by
  refine .bind (held_of_same (kept_ensureCompletionCapacity 1)) fun _ s => ?_
  refine wp_require rfl fun index record hget _ => wp_read ?_
  refine wp_seq ((wp_orReject _ _).mpr ⟨fun _ => rfl, fun active _ => ?_⟩)
  refine wp_seq ((wp_orReject _ _).mpr ⟨fun _ => rfl, fun promised _ => ?_⟩)
  refine wp_seq ((wp_orReject _ _).mpr ⟨fun _ => rfl, fun sequence _ => ?_⟩)
  refine wp_kept (kept_modifyRecord (fun _ => by rfl) _) (fun _ t hstripped => ?_)
    fun _ _ hsame => SameLedger.held hsame.symm
  have hreclaim : Moves SameLedger (zoom Scheduler.pool (fun pool s => { s with pool := pool })
      SchedulerError.pagedKv (KvBlockPool.reclaimSequence sequence.abandonForReclaim)) :=
    .zoom_other fun _ _ => rfl
  refine wp_kept hreclaim (fun _ u hreclaimed => wp_write ?_)
    fun _ _ hsame => SameLedger.held (hsame.trans hstripped).symm
  have hledger : u.ledger = s.ledger := hreclaimed.trans hstripped
  have hrow : u.ledger.rows[index]? = some record.strand := by
    rw [hledger]
    exact row_of_requests hget
  refine wp_mono (wp_completeHeld hrow) (fun _ v hdone => ?_) fun _ _ hfalse => hfalse.elim
  exact (SameLedger.held hledger.symm).trans hdone

/-- Closing the sequence of a running request leaves its row in its place. -/
theorem wp_leaveActiveHeld (nowNs : Nat) :
    wp (leaveActive index record nowNs) (fun _ t => t.ledger = s.ledger)
      (fun _ t => SameHeld s t) s := by
  refine wp_read (wp_seq ((wp_orReject _ _).mpr ⟨fun _ => rfl, fun active _ => ?_⟩))
  refine wp_seq ((wp_orReject _ _).mpr ⟨fun _ => rfl, fun promised _ => ?_⟩)
  refine wp_seq ((wp_orReject _ _).mpr ⟨fun _ => rfl, fun sequence _ => ?_⟩)
  refine wp_kept (kept_onSequence _ _ _).attempt (fun answer t hclosed => ?_)
    fun _ _ hsame => SameLedger.held hsame.symm
  have hkept := SameLedger.held (Eq.symm hclosed)
  cases answer with
  | ok done => exact hclosed
  | error original =>
      refine wp_seq (wp_mono (held_forceReclaim _ nowNs t) (fun _ u hforced => ?_)
        fun _ u hforced => ?_)
      · exact hkept.trans hforced
      · exact hkept.trans hforced

theorem held_finish (requestId : RequestId) (reason : RequestFinishReason) (nowNs : Nat) :
    Moves SameHeld (finishLiveRequest requestId reason nowNs) := by
  refine .bind (held_of_same (kept_ensureCompletionCapacity 1)) fun _ s => ?_
  refine wp_require rfl fun index record hget _ => wp_check (fun _ => rfl) fun _ => ?_
  have hrow := row_of_requests hget
  refine wp_ite (fun _ => ?_) fun _ => ?_
  · refine wp_leaveWaiting (fun _ _ => ?_) fun _ _ => rfl
    exact wp_mono (wp_completeHeld hrow) (fun _ _ hdone => hdone) fun _ _ hfalse => hfalse.elim
  · refine wp_call (wp_leaveActiveHeld nowNs) (fun _ t hleft => ?_) fun _ _ hkept => hkept
    rw [← hleft] at hrow
    refine wp_mono (wp_completeHeld hrow) (fun _ u hdone => ?_) fun _ _ hfalse => hfalse.elim
    exact (SameLedger.held (Eq.symm hleft)).trans hdone

theorem held_containFailure (requestId : RequestId) (nowNs : Nat) (original : SchedulerError) :
    Moves SameHeld (containLiveRequestFailure requestId nowNs original) := by
  refine .bind .get fun s => .ite (fun _ => .pure _) fun _ => ?_
  refine .bind (held_forceReclaim requestId nowNs).attempt fun answer => ?_
  cases answer with
  | ok _ => exact .pure _
  | error error => exact .pure _

theorem held_settleReservation (requestId : RequestId) (reservation : SequenceReservation)
    (settlement : ReservationSettlement) :
    Moves SameHeld (settleReservation requestId reservation settlement) := by
  refine .bind (held_of_same (kept_requireRecord _)) fun found => ?_
  refine .bind (.orReject _ _) fun sequence => ?_
  refine .bind (held_of_same (kept_onSequence _ _ _)).attempt fun answer => ?_
  cases answer with
  | ok _ => exact .pure _
  | error original =>
      exact .bind .get fun s => .bind (held_forceReclaim _ _) fun _ => .throw _

end Finish

section Waiting

theorem held_expireFront (timeoutNs nowNs : Nat) :
    Moves SameHeld (expireFront timeoutNs nowNs) := by
  refine .bind .get fun s => ?_
  split
  · exact .pure _
  · refine .bind (held_of_same (kept_requireRecord _)) fun found => ?_
    refine .ite (fun _ => .pure _) fun _ => ?_
    exact .bind (held_finish _ _ _) fun _ => .pure _

theorem held_expireWaiting (nowNs : Nat) : Moves SameHeld (expireWaiting nowNs) := by
  refine .bind .get fun s => ?_
  split
  · exact .pure _
  · exact .repeatWhile _ (held_expireFront _ _)

theorem kept_admitFront (nowNs : Nat) : Moves SameLedger (admitFront nowNs) := by
  refine .bind .get fun s => ?_
  split
  · exact .pure _
  · refine .bind (kept_requireRecord _) fun found => .ite (fun _ => .pure _) fun _ => ?_
    refine .bind (.fromExcept _) fun maximum => .bind (kept_createSequence _) fun sequence => ?_
    refine .bind (.modify fun _ => rfl) fun _ t => wp_read ?_
    refine wp_seq ((wp_orReject _ _).mpr ⟨fun _ => rfl, fun tokens _ => ?_⟩)
    refine wp_seq ((wp_set _).mpr ?_)
    refine wp_kept (kept_promise _) (fun _ u hpromised => ?_) fun _ _ hpromised => Eq.symm hpromised
    refine wp_check (fun _ => Eq.symm hpromised) fun _ => ?_
    refine wp_kept (kept_modifyRecord (fun _ => by rfl) _) (fun _ v hadmitted => ?_)
      fun _ _ hadmitted => Eq.symm (hadmitted.trans hpromised)
    exact Eq.symm (hadmitted.trans hpromised)

theorem kept_admitWaiting (nowNs : Nat) : Moves SameLedger (admitWaiting nowNs) :=
  .bind .get fun _ => .repeatWhile _ (kept_admitFront nowNs)

end Waiting

end Riley.Scheduling
