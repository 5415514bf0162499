import Mathlib.Data.List.Perm.Basic
import Mathlib.Data.Multiset.AddSub
import Riley.PagedKv.SequenceSpec
import Riley.Scheduling.Calls

/-!
Records and promises: what the operations on one request record, on the counters of a
scheduler and on the host allocator do to its state.
-/

namespace Riley.Scheduling

open PagedKv Outcome

namespace Scheduler

/-- The scheduler with another record at `index` and another pool. -/
def put (index : Nat) (record : RequestRecord) (pool : KvBlockPool) (s : Scheduler) :
    Scheduler :=
  { s with pool := pool, requests := s.requests.set index record }

theorem modifyRecordAt_eq {s : Scheduler} {index : Nat} {record : RequestRecord}
    (h : s.requests[index]? = some record) (f : RequestRecord → RequestRecord)
    (pool : KvBlockPool) :
    modifyRecordAt index f { s with pool := pool } = s.put index (f record) pool := by
  have hmodify : s.requests.modify index f = s.requests.set index (f record) := by
    rw [List.modify_eq_set_getElem?, h]
    rfl
  simp only [modifyRecordAt, put, hmodify]

theorem modifyRecordAt_self {s : Scheduler} {index : Nat} {record : RequestRecord}
    (h : s.requests[index]? = some record) (f : RequestRecord → RequestRecord) :
    modifyRecordAt index f s = s.put index (f record) s.pool :=
  modifyRecordAt_eq h f s.pool

/-- The scheduler after a new sequence was created. -/
def withSequencePool (pool : KvBlockPool) (host : List Bool) (s : Scheduler) :
    Scheduler :=
  { s with pool := pool, hostAnswers := host }

end Scheduler

/-- The terminal payload of a request. -/
def RequestRecord.completion (reason : RequestFinishReason) (nowNs : Nat)
    (record : RequestRecord) : RequestCompletion where
  requestId := record.requestId
  reason := reason
  generatedTokenIds := record.generatedTokenIds
  cachedPromptTokens := record.cachedPromptTokens
  completedAtNs := nowNs

/-- What a rolled back request goes back to. -/
def restored (item : InflightItem) (record : RequestRecord) : RequestRecord :=
  { record with
    state := item.previousState
    readySinceNs := item.previousReadySinceNs }

section Focus

variable {s : Scheduler} {index : Nat} {record : RequestRecord}

/-- The records beside the one at `index`. -/
def beside (s : Scheduler) (index : Nat) : Multiset RequestRecord :=
  (s.requests.eraseIdx index : List RequestRecord)

/-- `swap_remove` takes exactly the record at `index` out. -/
theorem coe_swapRemove (hget : s.requests[index]? = some record) :
    (Scheduler.swapRemove index s.requests : Multiset RequestRecord) = beside s index := by
  obtain ⟨hlt, hrecord⟩ := List.getElem?_eq_some_iff.mp hget
  have hne : s.requests ≠ [] := List.ne_nil_of_length_pos (by omega)
  rw [Scheduler.swapRemove, List.getLast?_eq_some_getLast hne]
  simp only
  by_cases hlast : index = s.requests.length - 1
  · have hset : s.requests.set index (s.requests.getLast hne) = s.requests := by
      rw [List.getLast_eq_getElem]
      subst hlast
      exact List.set_getElem_self _
    rw [hset, beside, hlast, List.eraseIdx_eq_take_drop_succ,
      List.drop_of_length_le (by omega), List.append_nil, ← List.dropLast_eq_take]
  · have hset : (s.requests.set index (s.requests.getLast hne)).dropLast =
        s.requests.dropLast.set index (s.requests.getLast hne) := by
      rw [List.dropLast_eq_take, List.dropLast_eq_take, List.length_set, List.take_set]
    have hinit : index < s.requests.dropLast.length := by
      rw [List.length_dropLast]
      omega
    rw [hset, Multiset.coe_eq_coe.mpr (List.set_perm_cons_eraseIdx hinit _), beside]
    have hsplit : s.requests.eraseIdx index =
        s.requests.dropLast.eraseIdx index ++ [s.requests.getLast hne] := by
      conv_lhs => rw [← List.dropLast_append_getLast hne]
      exact List.eraseIdx_append_of_lt_length hinit _
    rw [hsplit]
    exact Multiset.coe_eq_coe.mpr (List.perm_append_singleton _ _).symm

theorem wp_found {α : Type} {next : Nat × RequestRecord → SchedulerM α}
    {ok : α → Scheduler → Prop} {err : SchedulerError → Scheduler → Prop}
    {id : RequestId} (hlookup : s.lookup id = some (index, record))
    (hnext : wp (next (index, record)) ok err s) :
    wp (requireRecord id >>= next) ok err s := by
  refine wp_seq ?_
  unfold requireRecord
  refine wp_read ?_
  rw [wp_orReject, hlookup]
  exact ⟨by simp, fun found hfound => by cases hfound; exact hnext⟩

theorem wp_modifyRecord {α : Type} {next : Unit → SchedulerM α}
    {f : RequestRecord → RequestRecord} {ok : α → Scheduler → Prop}
    {err : SchedulerError → Scheduler → Prop} (hget : s.requests[index]? = some record)
    (h : wp (next ()) ok err (s.put index (f record) s.pool)) :
    wp (modifyRecord index f >>= next) ok err s := by
  refine wp_write ?_
  rw [Scheduler.modifyRecordAt_self hget]
  exact h

end Focus

section Promises

variable {s : Scheduler}

theorem canAdmit_iff {blocks : Nat} : s.canAdmit blocks = true ↔
    s.activeSequences < s.config.maxActiveSequences ∧
      s.promisedKvBlocks + blocks ≤ usizeMax ∧
      s.promisedKvBlocks + blocks ≤ s.config.maxPromisedKvBlocks := by
  unfold Scheduler.canAdmit checkedAdd
  split <;> simp_all

theorem wp_promise {α : Type} {promised : Nat} {next : Unit → SchedulerM α}
    {ok : α → Scheduler → Prop} {err : SchedulerError → Scheduler → Prop}
    (hactive : s.activeSequences + 1 ≤ usizeMax)
    (hpromised : s.promisedKvBlocks + promised ≤ usizeMax)
    (h : wp (next ()) ok err { s with
      activeSequences := s.activeSequences + 1
      promisedKvBlocks := s.promisedKvBlocks + promised }) :
    wp (promise promised >>= next) ok err s := by
  refine wp_seq ?_
  unfold promise
  refine wp_read (wp_some (checkedAdd_eq_some.mpr ⟨rfl, hactive⟩) ?_)
  refine wp_seq ?_
  rw [wp_set]
  refine wp_read (wp_some (checkedAdd_eq_some.mpr ⟨rfl, hpromised⟩) ?_)
  rw [wp_set]
  exact h

end Promises

section Host

/-- Failures that admission leaves to exhausted host memory or identifiers. -/
def Exhausted (s : Scheduler) (error : SchedulerError) : Prop :=
  (∃ resource, error = .hostAllocation resource ∨
      error = .pagedKv (.hostAllocation resource)) ∧ s.hostAnswers ≠ [] ∨
    (∃ kind, error = .identifierExhausted kind) ∨
    error = .pagedKv .sequenceIdExhausted ∨
    (∃ index, error = .pagedKv (.generationExhausted index)) ∨
    error = .pagedKv .reservationNonceExhausted

/-- Only the host allocator was asked. -/
def HostSpent (s t : Scheduler) : Prop :=
  ∃ host, (s.hostAnswers = [] → host = []) ∧ t = { s with hostAnswers := host }

theorem wp_onHost {s : Scheduler} {α : Type} {resource : String}
    {next : Unit → SchedulerM α} {ok : α → Scheduler → Prop}
    {err : SchedulerError → Scheduler → Prop}
    (hok : ∀ t, HostSpent s t → wp (next ()) ok err t)
    (herr : ∀ error t, Exhausted s error → HostSpent s t → err error t) :
    wp (onHost (tryReserveExact resource) >>= next) ok err s := by
  refine wp_seq ?_
  unfold onHost
  rw [wp_zoom]
  refine wp_mono wp_hostReserve (fun _ host hhost => hok _ ⟨host, hhost, rfl⟩) ?_
  rintro _ host ⟨rfl, hne⟩
  refine herr _ _ (Or.inl ⟨⟨resource, Or.inl rfl⟩, hne⟩) ⟨host, fun hnil => absurd hnil hne, rfl⟩

end Host

end Riley.Scheduling
