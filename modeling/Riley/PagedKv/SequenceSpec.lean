import Riley.PagedKv.Ownership
import Mathlib.Algebra.BigOperators.Group.Multiset.Basic

/-!
What each sequence operation does to the block table of its sequence and to
the holds of the pool. Every statement carries two frames, the exclusive and
the shared holds that live elsewhere, so it can be used inside a system that
runs many sequences and a prefix cache over one pool.
-/

namespace Riley.PagedKv

open Outcome Holdings

theorem blocksForLength_le_iff {length blocks : Nat} :
    blocksForLength length ≤ blocks ↔ length ≤ blocks * kvBlockSize := by
  unfold blocksForLength kvBlockSize
  omega

theorem lt_blocksForLength_iff {length block : Nat} :
    block < blocksForLength length ↔ block * kvBlockSize < length := by
  unfold blocksForLength kvBlockSize
  omega

theorem blocksForLength_mono {a b : Nat} (h : a ≤ b) :
    blocksForLength a ≤ blocksForLength b := by
  unfold blocksForLength kvBlockSize
  omega

/-- The valid counts of full blocks followed by one tail. -/
def canonicalTokens (length : Nat) : List Nat :=
  (List.range (blocksForLength length)).map fun index =>
    min (length - index * kvBlockSize) kvBlockSize

namespace SequenceState

def exclusiveHolds (seq : SequenceState) : Multiset (BlockId × SequenceId) :=
  ((seq.blockIds.drop seq.sharedBlockCount).map fun block => (block, seq.sequenceId) :
    List (BlockId × SequenceId))

def sharedHolds (seq : SequenceState) : Multiset BlockId :=
  (seq.blockIds.take seq.sharedBlockCount : List BlockId)

/-- The length that the table addresses: the reserved one while a reservation
is pending. -/
def visibleLength (seq : SequenceState) : Nat :=
  match seq.pending with
  | none => seq.logicalLength
  | some pending => pending.targetLogicalLength

/-- The sequence with only its first table entries left. -/
def keep (count : Nat) (seq : SequenceState) : SequenceState :=
  { seq with
    blockIds := seq.blockIds.take count
    validTokens := seq.validTokens.take count
    sharedBlockCount := min seq.sharedBlockCount count }

/-- The sequence with more entries at the end of its table. -/
def extend (blocks : List BlockId) (seq : SequenceState) : SequenceState :=
  { seq with
    blockIds := seq.blockIds ++ blocks
    validTokens := seq.validTokens ++ List.replicate blocks.length 0 }

/-- The sequence with its tentative entries dropped. -/
def rolledBack (seq : SequenceState) : SequenceState :=
  { seq with
    blockIds := seq.blockIds.take (blocksForLength seq.logicalLength)
    validTokens := canonicalTokens seq.logicalLength
    pending := none }

theorem fillValidTokens_eq {seq : SequenceState} {length : Nat}
    (hlen : seq.blockIds.length = blocksForLength length) :
    fillValidTokens length (blocksForLength length) seq =
      { seq with validTokens := canonicalTokens length } := by
  have htokens : (List.range seq.allocatedBlockCount).map (fun index =>
      if index < blocksForLength length then
        min (length - index * kvBlockSize) kvBlockSize
      else 0) = canonicalTokens length := by
    unfold canonicalTokens allocatedBlockCount
    rw [hlen]
    exact List.map_congr_left fun index hindex => if_pos (List.mem_range.mp hindex)
  simp only [fillValidTokens, htokens]

theorem keep_keep (seq : SequenceState) (a b : Nat) :
    (seq.keep a).keep b = seq.keep (min b a) := by
  simp only [keep, List.take_take, Nat.min_assoc, Nat.min_comm a b]

theorem keep_of_le {seq : SequenceState} {count : Nat}
    (hblocks : seq.blockIds.length ≤ count) (hvalid : seq.validTokens.length ≤ count)
    (hshared : seq.sharedBlockCount ≤ count) : seq.keep count = seq := by
  simp only [keep, List.take_of_length_le hblocks, List.take_of_length_le hvalid,
    Nat.min_eq_left hshared]

end SequenceState

/-- The block table of one sequence of a pool. -/
structure SequenceTable (pool : KvBlockPool) (seq : SequenceState) : Prop where
  cookie : seq.poolCookie = pool.cookie
  id_cookie : seq.sequenceId.poolCookie = pool.cookie
  id_pos : seq.sequenceId.value ≠ sharedBlockOwner
  id_lt : seq.sequenceId.value < pool.nextSequenceId
  maximum_le : seq.maximumLogicalLength ≤ u32Max
  shared_le : seq.sharedBlockCount * kvBlockSize ≤ seq.logicalLength
  blocks : seq.blockIds.length = blocksForLength seq.visibleLength
  valid : seq.validTokens = canonicalTokens seq.visibleLength
  pending : ∀ pending, seq.pending = some pending →
    pending.previousBlockCount = blocksForLength seq.logicalLength ∧
    seq.logicalLength ≤ pending.targetLogicalLength

/-- The table of a sequence that stays within its maximum length. Adopting
shared blocks may round a length up past the maximum, so only an owner that
keeps room for whole blocks has this. -/
structure SequenceOk (pool : KvBlockPool) (seq : SequenceState) : Prop
    extends SequenceTable pool seq where
  logical_le : seq.logicalLength ≤ seq.maximumLogicalLength
  target_le : ∀ pending, seq.pending = some pending →
    pending.targetLogicalLength ≤ seq.maximumLogicalLength

theorem SequenceTable.advance {pool pool' : KvBlockPool} {seq : SequenceState}
    (h : SequenceTable pool seq) (ha : Advances pool pool') : SequenceTable pool' seq :=
  { h with
    cookie := h.cookie.trans ha.cookie.symm
    id_cookie := h.id_cookie.trans ha.cookie.symm
    id_lt := Nat.lt_of_lt_of_le h.id_lt ha.next_le }

theorem SequenceTable.logical_le_visible {pool : KvBlockPool} {seq : SequenceState}
    (h : SequenceTable pool seq) : seq.logicalLength ≤ seq.visibleLength := by
  unfold SequenceState.visibleLength
  cases hp : seq.pending with
  | none => exact Nat.le_refl _
  | some pending => exact (h.pending pending hp).2

theorem SequenceTable.poisoned {pool : KvBlockPool} {seq : SequenceState}
    (h : SequenceTable pool seq) (mark : Bool) :
    SequenceTable pool { seq with poisoned := mark } :=
  ⟨h.cookie, h.id_cookie, h.id_pos, h.id_lt, h.maximum_le, h.shared_le, h.blocks, h.valid,
    h.pending⟩

theorem SequenceTable.shared_le_length {pool : KvBlockPool} {seq : SequenceState}
    (h : SequenceTable pool seq) : seq.sharedBlockCount ≤ seq.blockIds.length := by
  have hshared := h.shared_le
  have hvisible := h.logical_le_visible
  rw [h.blocks]
  unfold blocksForLength kvBlockSize at *
  omega

theorem SequenceTable.valid_length {pool : KvBlockPool} {seq : SequenceState}
    (h : SequenceTable pool seq) : seq.validTokens.length = seq.blockIds.length := by
  rw [h.valid, h.blocks]
  simp [canonicalTokens]

section Holds

variable {pool : KvBlockPool} {seq : SequenceState}
  {exclusive : Multiset (BlockId × SequenceId)} {shared : Multiset BlockId}

theorem mem_exclusiveHolds {index : Nat} (hshared : seq.sharedBlockCount ≤ index)
    (hlt : index < seq.blockIds.length) :
    (seq.blockIds[index], seq.sequenceId) ∈ seq.exclusiveHolds := by
  rw [SequenceState.exclusiveHolds, Multiset.mem_coe]
  refine List.mem_map.mpr ⟨_, ?_, rfl⟩
  rw [List.mem_iff_getElem]
  refine ⟨index - seq.sharedBlockCount, by rw [List.length_drop]; omega, ?_⟩
  rw [List.getElem_drop]
  congr 1
  omega

theorem mem_sharedHolds {index : Nat} (hshared : index < seq.sharedBlockCount)
    (hlt : index < seq.blockIds.length) : seq.blockIds[index] ∈ seq.sharedHolds := by
  rw [SequenceState.sharedHolds, Multiset.mem_coe, List.mem_iff_getElem]
  exact ⟨index, by rw [List.length_take]; omega, by rw [List.getElem_take]⟩

theorem allocatedBlock_ok {index : Nat} (hlt : index < seq.blockIds.length) :
    seq.allocatedBlock index = .ok seq.blockIds[index] := by
  simp [SequenceState.allocatedBlock, hlt]

theorem validatePrivate_ok
    (h : Owns pool (seq.exclusiveHolds + exclusive) shared) {index : Nat}
    (hshared : seq.sharedBlockCount ≤ index) (hlt : index < seq.blockIds.length) :
    pool.validateBlock seq.blockIds[index] seq.sequenceId = .ok () :=
  h.validateBlock_ok (Multiset.mem_add.mpr (Or.inl (mem_exclusiveHolds hshared hlt)))

theorem validateHeldBlock_ok
    (h : Owns pool (seq.exclusiveHolds + exclusive) (seq.sharedHolds + shared))
    {index : Nat} (hlt : index < seq.blockIds.length) :
    seq.validateHeldBlock pool index = .ok () := by
  simp only [SequenceState.validateHeldBlock, allocatedBlock_ok hlt, bind, Except.bind]
  by_cases hs : index < seq.sharedBlockCount
  · rw [if_pos hs, h.sharedReferences_ok
      (Multiset.mem_add.mpr (Or.inl (mem_sharedHolds hs hlt)))]
  · rw [if_neg hs]
    exact validatePrivate_ok h (by omega) hlt

/-- A read-only pass over table entries that all check leaves the state. -/
theorem wp_checkPass {check : Nat → KvM Unit} {indices : List Nat}
    {ok : Unit → KvState → Prop} {err : PagedKvError → KvState → Prop} {state : KvState}
    (hcheck : ∀ index ∈ indices, wp (check index) (fun _ t => t = state)
      (fun _ _ => False) state)
    (h : ok () state) : wp (forEach indices check) ok err state := by
  refine wp_forEach (fun rest t => (∀ index ∈ rest, index ∈ indices) ∧ t = state) check
    indices ?_ (fun t ht => ht.2 ▸ h) ⟨fun _ hi => hi, rfl⟩
  rintro index rest t ⟨hsub, rfl⟩
  refine wp_mono (hcheck index (hsub index List.mem_cons_self)) ?_ (fun _ _ hf => hf.elim)
  rintro _ u rfl
  exact ⟨fun i hi => hsub i (List.mem_cons_of_mem _ hi), rfl⟩

/-- Clearing the sidecars of private blocks keeps every hold. -/
theorem wp_clearSidecars {indices : List Nat}
    (h : Owns pool (seq.exclusiveHolds + exclusive) shared)
    (hindices : ∀ index ∈ indices, seq.sharedBlockCount ≤ index ∧
      index < seq.blockIds.length) (held : SequenceState) :
    wp (forEach indices fun index => do
        let block ← fromExcept (seq.allocatedBlock index)
        onPool (KvBlockPool.clearSidecar block seq.sequenceId))
      (fun _ state => state.seq = held ∧ Advances pool state.pool ∧
        state.pool.freeList = pool.freeList ∧
        Owns state.pool (seq.exclusiveHolds + exclusive) shared)
      (fun _ _ => False) ⟨held, pool⟩ := by
  refine wp_forEach (fun rest state => (∀ index ∈ rest, index ∈ indices) ∧
    state.seq = held ∧ Advances pool state.pool ∧ state.pool.freeList = pool.freeList ∧
    Owns state.pool (seq.exclusiveHolds + exclusive) shared) _ _ ?_
    (fun _ ht => ht.2) ⟨fun _ hi => hi, rfl, Advances.refl pool, rfl, h⟩
  rintro index rest state ⟨hsub, hheld, hadv, hfree, howns⟩
  obtain ⟨hs, hlt⟩ := hindices index (hsub index List.mem_cons_self)
  simp only [wp_bind, wp_fromExcept, allocatedBlock_ok hlt, onPool, wp_zoom,
    KvBlockPool.clearSidecar, wp_get, wp_set]
  refine ⟨by simp, fun block hblock => ?_⟩
  cases hblock
  rw [validatePrivate_ok howns hs hlt]
  refine ⟨by simp, fun _ _ => ⟨fun i hi => hsub i (List.mem_cons_of_mem _ hi), hheld,
    hadv.trans (advances_dropSidecar _ _), ?_, howns.dropSidecar _⟩⟩
  exact (KvBlockPool.dropSidecar_frame _ _).2.2.2.1.trans hfree

/-- The last entry of a table split off its holds. -/
theorem holds_keep_last {count : Nat} (hlen : seq.blockIds.length = count + 1) :
    (count < seq.sharedBlockCount →
      seq.sharedHolds = seq.blockIds[count] ::ₘ (seq.keep count).sharedHolds ∧
      seq.exclusiveHolds = (seq.keep count).exclusiveHolds) ∧
    (seq.sharedBlockCount ≤ count →
      seq.exclusiveHolds =
        (seq.blockIds[count], seq.sequenceId) ::ₘ (seq.keep count).exclusiveHolds ∧
      seq.sharedHolds = (seq.keep count).sharedHolds) := by
  have hsplit : seq.blockIds = seq.blockIds.take count ++ [seq.blockIds[count]] := by
    rw [List.take_append_getElem, List.take_of_length_le (by omega)]
  constructor
  · intro hshared
    have hmin : min seq.sharedBlockCount count = count := Nat.min_eq_right (by omega)
    constructor
    · simp only [SequenceState.sharedHolds, SequenceState.keep, hmin, List.take_take,
        Nat.min_self, Multiset.cons_coe, Multiset.coe_eq_coe]
      rw [List.take_of_length_le (by omega)]
      conv_lhs => rw [hsplit]
      exact List.perm_append_singleton _ _
    · simp only [SequenceState.exclusiveHolds, SequenceState.keep, hmin]
      rw [List.drop_of_length_le (by omega), List.drop_of_length_le (by simp)]
  · intro hshared
    have hmin : min seq.sharedBlockCount count = seq.sharedBlockCount :=
      Nat.min_eq_left hshared
    constructor
    · simp only [SequenceState.exclusiveHolds, SequenceState.keep, hmin,
        Multiset.cons_coe, Multiset.coe_eq_coe]
      conv_lhs => rw [hsplit]
      rw [List.drop_append_of_le_length (by rw [List.length_take]; omega), List.map_append]
      exact List.perm_append_singleton _ _
    · simp only [SequenceState.sharedHolds, SequenceState.keep, hmin, List.take_take]

theorem wp_releaseLast {count : Nat}
    (h : Owns pool (seq.exclusiveHolds + exclusive) (seq.sharedHolds + shared))
    (hlen : seq.blockIds.length = count + 1)
    (hshared : seq.sharedBlockCount ≤ seq.blockIds.length) :
    wp SequenceState.releaseLast
      (fun _ state => state.seq = seq.keep count ∧
        Owns state.pool ((seq.keep count).exclusiveHolds + exclusive)
          ((seq.keep count).sharedHolds + shared) ∧
        Advances pool state.pool ∧
        (seq.sharedBlockCount ≤ count →
          state.pool.freeBlockCount = pool.freeBlockCount + 1))
      (fun _ _ => False) ⟨seq, pool⟩ := by
  obtain ⟨hsharedEntry, hprivateEntry⟩ := holds_keep_last hlen
  have hindex : seq.allocatedBlockCount - 1 = count := by
    unfold SequenceState.allocatedBlockCount
    omega
  have hentry : seq.allocatedBlock count = .ok seq.blockIds[count] :=
    allocatedBlock_ok (by omega)
  simp only [SequenceState.releaseLast, wp_bind, wp_get, wp_fromExcept, hindex, hentry]
  refine ⟨by simp, fun block hblock => ?_⟩
  cases hblock
  rw [wp_runIf]
  constructor
  · intro hs
    rw [hindex] at hs
    obtain ⟨hsh, hex⟩ := hsharedEntry hs
    rw [hsh, hex, Multiset.cons_add] at h
    have hmin : min seq.sharedBlockCount count = count := Nat.min_eq_right (by omega)
    simp only [wp_bind, onPool, wp_zoom]
    refine wp_ok_mono h.releaseSharedBlock ?_
    rintro _ pool' ⟨howns, hadv, _, _⟩
    simp only [modifySeq, wp_modify, wp_runIf]
    refine ⟨fun hns => absurd (hindex ▸ hs) hns, fun _ => ⟨?_, howns, hadv, fun hle => by omega⟩⟩
    simp only [SequenceState.keep, hmin]
  · intro hs
    rw [hindex] at hs
    obtain ⟨hex, hsh⟩ := hprivateEntry (by omega)
    rw [hsh, hex, Multiset.cons_add] at h
    have hmin : min seq.sharedBlockCount count = seq.sharedBlockCount :=
      Nat.min_eq_left (by omega)
    rw [wp_runIf]
    refine ⟨fun _ => ?_, fun hns => absurd (hindex ▸ hs) hns⟩
    simp only [onPool, wp_zoom]
    refine wp_ok_mono h.releaseBlock ?_
    rintro _ pool' ⟨howns, hv⟩
    simp only [modifySeq, wp_modify]
    refine ⟨?_, howns, hv.advances, fun _ => hv.freeBlockCount⟩
    simp only [SequenceState.keep, hmin]

theorem wp_releaseLasts (count : Nat)
    (h : Owns pool (seq.exclusiveHolds + exclusive) (seq.sharedHolds + shared))
    (hshared : seq.sharedBlockCount ≤ seq.blockIds.length)
    (hvalid : seq.validTokens.length = seq.blockIds.length)
    (hcount : count ≤ seq.blockIds.length) :
    wp (SequenceState.releaseLasts count)
      (fun _ state => state.seq = seq.keep (seq.blockIds.length - count) ∧
        Owns state.pool
          ((seq.keep (seq.blockIds.length - count)).exclusiveHolds + exclusive)
          ((seq.keep (seq.blockIds.length - count)).sharedHolds + shared) ∧
        Advances pool state.pool ∧
        (seq.sharedBlockCount ≤ seq.blockIds.length - count →
          state.pool.freeBlockCount = pool.freeBlockCount + count))
      (fun _ _ => False) ⟨seq, pool⟩ := by
  induction count generalizing seq pool with
  | zero =>
      have hkeep : seq.keep (seq.blockIds.length - 0) = seq :=
        SequenceState.keep_of_le (by omega) (by omega) (by omega)
      simp only [SequenceState.releaseLasts, wp_pure, hkeep]
      exact ⟨trivial, h, Advances.refl pool, fun _ => rfl⟩
  | succ count ih =>
      simp only [SequenceState.releaseLasts, wp_bind]
      have hlen : seq.blockIds.length = (seq.blockIds.length - 1) + 1 := by omega
      refine wp_ok_mono (wp_releaseLast h hlen hshared) ?_
      rintro _ ⟨seq', pool'⟩ ⟨rfl, howns, hadv, hfree⟩
      have hlast : (seq.keep (seq.blockIds.length - 1)).blockIds.length =
          seq.blockIds.length - 1 := by
        simp [SequenceState.keep]
      have hrest := ih howns (by rw [hlast]; exact Nat.min_le_right _ _)
        (by rw [hlast]; simp [SequenceState.keep, hvalid]) (by omega)
      have hkeep : (seq.keep (seq.blockIds.length - 1)).keep
          (seq.blockIds.length - 1 - count) =
          seq.keep (seq.blockIds.length - (count + 1)) := by
        rw [SequenceState.keep_keep]
        congr 1
        omega
      rw [hlast, hkeep] at hrest
      refine wp_ok_mono hrest ?_
      rintro _ ⟨seq'', pool''⟩ ⟨rfl, howns', hadv', hfree'⟩
      refine ⟨rfl, howns', hadv.trans hadv', fun hle => ?_⟩
      have hle' : (seq.keep (seq.blockIds.length - 1)).sharedBlockCount ≤
          seq.blockIds.length - 1 - count := by
        simp only [SequenceState.keep]
        omega
      have hone := hfree (by omega)
      have hmore := hfree' hle'
      simp only at hone hmore ⊢
      omega

/-- Giving back the private entries past `previous`. -/
theorem wp_rollbackNewBlocks {previous : Nat}
    (h : Owns pool (seq.exclusiveHolds + exclusive) (seq.sharedHolds + shared))
    (hvalid : seq.validTokens.length = seq.blockIds.length)
    (hshared : seq.sharedBlockCount ≤ previous) (hprevious : previous ≤ seq.blockIds.length) :
    wp (SequenceState.rollbackNewBlocks previous)
      (fun _ state => state.seq = seq.keep previous ∧
        Owns state.pool ((seq.keep previous).exclusiveHolds + exclusive)
          ((seq.keep previous).sharedHolds + shared) ∧
        Advances pool state.pool ∧
        state.pool.freeBlockCount = pool.freeBlockCount + (seq.blockIds.length - previous))
      (fun _ _ => False) ⟨seq, pool⟩ := by
  simp only [SequenceState.rollbackNewBlocks, wp_bind, wp_get]
  refine wp_checkPass ?_ ?_
  · intro index hindex
    obtain ⟨hle, hlt⟩ := List.mem_range'_1.mp hindex
    have hlt' : index < seq.blockIds.length := by
      simp only [SequenceState.allocatedBlockCount] at hlt
      omega
    simp only [wp_bind, wp_fromExcept, allocatedBlock_ok hlt']
    refine ⟨by simp, fun block hblock => ?_⟩
    cases hblock
    rw [validatePrivate_ok h (by omega) hlt']
    simp
  · simp only [SequenceState.releaseTail, wp_bind, wp_get,
      SequenceState.allocatedBlockCount]
    refine wp_ok_mono (wp_releaseLasts _ h (by omega) hvalid (Nat.sub_le _ _)) ?_
    have hrest : seq.blockIds.length - (seq.blockIds.length - previous) = previous := by
      omega
    rw [hrest]
    rintro _ state ⟨hseq, howns, hadv, hfree⟩
    exact ⟨hseq, howns, hadv, hfree hshared⟩

theorem holds_extend (blocks : List BlockId)
    (hshared : seq.sharedBlockCount ≤ seq.blockIds.length) :
    (seq.extend blocks).exclusiveHolds = seq.exclusiveHolds +
      (blocks.map fun block => (block, seq.sequenceId) : List (BlockId × SequenceId)) ∧
    (seq.extend blocks).sharedHolds = seq.sharedHolds := by
  constructor
  · simp only [SequenceState.exclusiveHolds, SequenceState.extend, Multiset.coe_add]
    rw [List.drop_append_of_le_length hshared, List.map_append]
  · simp only [SequenceState.sharedHolds, SequenceState.extend]
    rw [List.take_append_of_le_length hshared]

theorem keep_extend (blocks : List BlockId)
    (hvalid : seq.validTokens.length = seq.blockIds.length)
    (hshared : seq.sharedBlockCount ≤ seq.blockIds.length) :
    (seq.extend blocks).keep seq.blockIds.length = seq := by
  simp only [SequenceState.keep, SequenceState.extend, Nat.min_eq_left hshared]
  rw [List.take_append_of_le_length (Nat.le_refl _), List.take_length, ← hvalid,
    List.take_append_of_le_length (Nat.le_refl _), List.take_length]

/-- The loop of `reserve_to`: every round takes one fresh block, and a round
that fails leaves the table as it was before the first. -/
theorem wp_allocateEntries (count : Nat) {start : KvBlockPool} (news : List BlockId)
    (h : Owns pool ((seq.extend news).exclusiveHolds + exclusive)
      ((seq.extend news).sharedHolds + shared))
    (hok : SequenceTable start seq)
    (hadv : Advances start pool)
    (hfresh : ∀ block ∈ news,
      (start.slot block.physicalIndex).generation < block.generation)
    (hfree : pool.freeBlockCount + news.length = start.freeBlockCount)
    (hcount : count ≤ pool.freeBlockCount) :
    wp (SequenceState.allocateEntries seq.blockIds.length count)
      (fun _ state => ∃ blocks, blocks.length = news.length + count ∧
        state.seq = seq.extend blocks ∧
        (∀ block ∈ blocks,
          (start.slot block.physicalIndex).generation < block.generation) ∧
        Owns state.pool ((seq.extend blocks).exclusiveHolds + exclusive)
          ((seq.extend blocks).sharedHolds + shared) ∧
        Advances start state.pool ∧
        state.pool.freeBlockCount + blocks.length = start.freeBlockCount)
      (fun error state => (∃ index, error = .generationExhausted index) ∧
        state.seq = seq ∧
        Owns state.pool (seq.exclusiveHolds + exclusive) (seq.sharedHolds + shared) ∧
        Advances start state.pool ∧
        state.pool.freeBlockCount = start.freeBlockCount)
      ⟨seq.extend news, pool⟩ := by
  have hshared := hok.shared_le_length
  have hvalid := hok.valid_length
  induction count generalizing pool news with
  | zero =>
      simp only [SequenceState.allocateEntries, wp_pure]
      exact ⟨news, rfl, rfl, hfresh, h, hadv, hfree⟩
  | succ count ih =>
      simp only [SequenceState.allocateEntries, SequenceState.allocateEntry, wp_bind,
        wp_attempt, wp_get, onPool, wp_zoom, modifySeq, wp_modify]
      have hcookie : (seq.extend news).sequenceId.poolCookie = pool.cookie :=
        hok.id_cookie.trans hadv.cookie.symm
      refine wp_mono (h.allocateBlock hcookie hok.id_pos
        (Nat.lt_of_lt_of_le hok.id_lt hadv.next_le)) ?_ ?_
      · rintro block pool' ⟨howns, hadv', _, hfree', hgen⟩
        have hext : (seq.extend news).extend [block] = seq.extend (news ++ [block]) := by
          simp [SequenceState.extend, List.replicate_add]
        have hsharedNews : (seq.extend news).sharedBlockCount ≤
            (seq.extend news).blockIds.length := by
          simp only [SequenceState.extend, List.length_append]
          omega
        obtain ⟨hex, hsh⟩ := holds_extend [block] hsharedNews
        rw [hext] at hex hsh
        have hnext := ih (news ++ [block])
          (by
            rw [hex, hsh, List.map_singleton, Multiset.coe_singleton, add_right_comm,
              add_comm _ ({_} : Multiset (BlockId × SequenceId)), Multiset.singleton_add]
            exact howns)
          (hadv.trans hadv')
          (by
            intro b hb
            rcases List.mem_append.mp hb with hb | hb
            · exact hfresh b hb
            · rw [List.mem_singleton.mp hb]
              exact Nat.lt_of_le_of_lt (hadv.generation_le _) hgen)
          (by simp only [List.length_append, List.length_singleton]; omega) (by omega)
        rw [← hext] at hnext
        refine wp_ok_mono hnext ?_
        rintro _ state ⟨blocks, hlen, hrest⟩
        refine ⟨blocks, ?_, hrest⟩
        simp only [List.length_append, List.length_singleton] at hlen
        omega
      · rintro error pool' ⟨rfl, herror⟩
        rcases herror with ⟨_, hzero⟩ | hexhausted
        · omega
        · have hroll := wp_rollbackNewBlocks h
            (by simp [SequenceState.extend, hvalid]) hshared
            (by simp [SequenceState.extend])
          rw [keep_extend news hvalid hshared] at hroll
          refine wp_mono hroll ?_ (fun _ _ hf => hf.elim)
          rintro _ state ⟨hseq, howns, hadv', hfree'⟩
          simp only [wp_throw]
          refine ⟨hexhausted, hseq, howns, hadv.trans hadv', ?_⟩
          rw [hfree']
          simp only [SequenceState.extend, List.length_append]
          omega

/-- A sequence that takes new reservations: usable, with none outstanding. -/
structure Ready (pool : KvBlockPool) (seq : SequenceState) : Prop where
  table : SequenceTable pool seq
  pending : seq.pending = none
  healthy : seq.poisoned = false

/-- A ready sequence within its maximum length. -/
structure Idle (pool : KvBlockPool) (seq : SequenceState) : Prop where
  ok : SequenceOk pool seq
  pending : seq.pending = none
  healthy : seq.poisoned = false

/-- The table that `reserve_to target` leaves, given the blocks it took. -/
def SequenceState.reserved (target : Nat) (blocks : List BlockId) (seq : SequenceState) :
    SequenceState :=
  { seq with
    blockIds := seq.blockIds ++ blocks
    validTokens := canonicalTokens target
    pending := some ⟨seq.nextReservationNonce, seq.blockIds.length, target⟩
    nextReservationNonce := seq.nextReservationNonce + 1 }

/-- The token that goes with it. -/
def SequenceState.reservation (target : Nat) (seq : SequenceState) :
    SequenceReservation :=
  ⟨seq.poolCookie, seq.sequenceId, seq.nextReservationNonce, seq.blockIds.length, target⟩

theorem Ready.visibleLength (h : Ready pool seq) :
    seq.visibleLength = seq.logicalLength := by
  simp [SequenceState.visibleLength, h.pending]

theorem Ready.ensureMutable (h : Ready pool seq) : seq.ensureMutable pool = .ok () := by
  simp [SequenceState.ensureMutable, SequenceState.ensurePool, h.table.cookie, h.healthy,
    bind, Except.bind]

theorem Ready.reserved_table {target : Nat} {blocks : List BlockId} (h : Ready pool seq)
    (hle : seq.logicalLength ≤ target)
    (hblocks : blocks.length = blocksForLength target - seq.blockIds.length) :
    SequenceTable pool (seq.reserved target blocks) := by
  have hlen := h.table.blocks
  rw [h.visibleLength] at hlen
  have hmono := blocksForLength_mono hle
  constructor
  · exact h.table.cookie
  · exact h.table.id_cookie
  · exact h.table.id_pos
  · exact h.table.id_lt
  · exact h.table.maximum_le
  · exact h.table.shared_le
  · simp only [SequenceState.reserved, SequenceState.visibleLength, List.length_append]
    omega
  · rfl
  · intro pending hpending
    cases hpending
    exact ⟨hlen, hle⟩

/-- Reserving succeeds when the pool has the blocks; its failures change no
hold and leave the sequence as it was. -/
theorem wp_reserveTo {target : Nat} (hready : Ready pool seq)
    (h : Owns pool (seq.exclusiveHolds + exclusive) (seq.sharedHolds + shared))
    (hle : seq.logicalLength ≤ target) (hmax : target ≤ seq.maximumLogicalLength) :
    wp (SequenceState.reserveTo target)
      (fun reservation state => ∃ blocks,
        blocks.length = blocksForLength target - seq.blockIds.length ∧
        reservation = seq.reservation target ∧
        state.seq = seq.reserved target blocks ∧
        (∀ block ∈ blocks,
          (pool.slot block.physicalIndex).generation < block.generation) ∧
        Owns state.pool ((seq.reserved target blocks).exclusiveHolds + exclusive)
          ((seq.reserved target blocks).sharedHolds + shared) ∧
        Advances pool state.pool)
      (fun error state =>
        ((∃ requested free, error = .outOfBlocks requested free) ∧
            pool.freeBlockCount < blocksForLength target - seq.blockIds.length ∨
          (∃ index, error = .generationExhausted index) ∨
          error = .reservationNonceExhausted) ∧
        state.seq = seq ∧
        Owns state.pool (seq.exclusiveHolds + exclusive) (seq.sharedHolds + shared) ∧
        Advances pool state.pool)
      ⟨seq, pool⟩ := by
  have hshared := hready.table.shared_le_length
  have hmax' := hready.table.maximum_le
  unfold SequenceState.reserveTo
  refine wp_read ?_
  refine wp_ofOk hready.ensureMutable ?_
  refine wp_passes (by simp [hready.pending]) ?_
  refine wp_passes (by omega) ?_
  refine wp_passes (by omega) ?_
  refine wp_passes (by omega) ?_
  refine wp_check (fun hfree => ?_) (fun hfree => ?_)
  · exact ⟨Or.inl ⟨⟨_, _, rfl⟩, hfree⟩, rfl, h, Advances.refl pool⟩
  · have hcheck : wp (runIf (seq.blockIds.length ≠ 0)
          (fromExcept (seq.validateHeldBlock pool (seq.blockIds.length - 1))))
        (fun _ state => state = ⟨seq, pool⟩) (fun (_ : PagedKvError) _ => False)
        (⟨seq, pool⟩ : KvState) := by
      rw [wp_runIf, wp_fromExcept]
      refine ⟨fun hne => ?_, fun _ => rfl⟩
      rw [validateHeldBlock_ok h (by omega)]
      simp
    refine wp_call hcheck ?_ (fun _ _ hf => hf.elim)
    rintro _ _ rfl
    refine wp_seq ((wp_orReject _ _).mpr
      ⟨fun _ => ⟨Or.inr (Or.inr rfl), rfl, h, Advances.refl pool⟩, fun nonce hnonce => ?_⟩)
    obtain ⟨rfl, _⟩ := checkedAdd_eq_some.mp hnonce
    have hnil : seq.extend [] = seq := by simp [SequenceState.extend]
    have hloop := wp_allocateEntries
      (blocksForLength target - seq.blockIds.length) []
      (by rw [hnil]; exact h) hready.table (Advances.refl pool) (by simp) (by simp)
      (Nat.le_of_not_lt hfree)
    rw [hnil] at hloop
    refine wp_call hloop ?_ ?_
    · rintro _ ⟨seq', pool'⟩ ⟨blocks, hlen, hseq, hfresh, howns, hadv, _⟩
      simp only [List.length_nil, Nat.zero_add] at hlen hseq
      subst hseq
      have hlength : (seq.extend blocks).blockIds.length = blocksForLength target := by
        have hblocks := hready.table.blocks
        rw [hready.visibleLength] at hblocks
        have hmono := blocksForLength_mono hle
        simp only [SequenceState.extend, List.length_append]
        omega
      simp only [modifySeq, wp_bind, wp_modify, wp_pure,
        SequenceState.fillValidTokens_eq hlength]
      exact ⟨blocks, hlen, rfl, rfl, hfresh, howns, hadv⟩
    · rintro error state ⟨hexhausted, hseq, howns, hadv, _⟩
      exact ⟨Or.inr (Or.inl hexhausted), hseq, howns, hadv⟩

/-- Dropping the tentative entries of a reservation. -/
theorem wp_rollbackPending (hok : SequenceTable pool seq) (hpending : seq.pending.isSome)
    (h : Owns pool (seq.exclusiveHolds + exclusive) (seq.sharedHolds + shared)) :
    wp SequenceState.rollbackPending
      (fun _ state => state.seq = seq.rolledBack ∧
        Owns state.pool (seq.rolledBack.exclusiveHolds + exclusive)
          (seq.rolledBack.sharedHolds + shared) ∧
        Advances pool state.pool)
      (fun _ _ => False) ⟨seq, pool⟩ := by
  obtain ⟨pending, hsome⟩ := Option.isSome_iff_exists.mp hpending
  obtain ⟨hprevious, hle⟩ := hok.pending pending hsome
  have hblocks := hok.blocks
  simp only [SequenceState.visibleLength, hsome] at hblocks
  have hmono := blocksForLength_mono hle
  have hvalid := hok.valid_length
  have hshared : seq.sharedBlockCount ≤ blocksForLength seq.logicalLength := by
    have hcommitted := hok.shared_le
    unfold blocksForLength kvBlockSize at *
    omega
  have hkeep : (seq.keep pending.previousBlockCount).sharedBlockCount =
      seq.sharedBlockCount := by
    simp only [SequenceState.keep]
    omega
  have hlen : (seq.keep pending.previousBlockCount).blockIds.length =
      blocksForLength seq.logicalLength := by
    simp only [SequenceState.keep, List.length_take]
    omega
  have hresult : ({ seq.keep pending.previousBlockCount with
      validTokens := canonicalTokens seq.logicalLength, pending := none } : SequenceState) =
      seq.rolledBack := by
    rw [hprevious] at hkeep ⊢
    simp only [SequenceState.rolledBack, hkeep]
    rfl
  unfold SequenceState.rollbackPending
  refine wp_read (wp_some hsome ?_)
  refine wp_call (wp_rollbackNewBlocks h hvalid (by omega) (by omega)) ?_
    (fun _ _ hf => hf.elim)
  rintro _ ⟨seq', pool'⟩ ⟨rfl, howns, hadv, _⟩
  have hfill := SequenceState.fillValidTokens_eq hlen
  simp only [modifySeq, wp_bind, wp_modify]
  have hlogical : (seq.keep pending.previousBlockCount).logicalLength =
      seq.logicalLength := rfl
  rw [hlogical, hfill, hresult]
  refine ⟨rfl, ?_, hadv⟩
  rw [← hresult]
  exact howns

theorem validateReservation_ok {pending : PendingReservation}
    (hpending : seq.pending = some pending) :
    seq.validateReservation ⟨seq.poolCookie, seq.sequenceId, pending.nonce,
      pending.previousBlockCount, pending.targetLogicalLength⟩ = .ok () := by
  simp [SequenceState.validateReservation, hpending]

/-- The token that a pending reservation answers to. -/
def SequenceState.token (pending : PendingReservation) (seq : SequenceState) :
    SequenceReservation :=
  ⟨seq.poolCookie, seq.sequenceId, pending.nonce, pending.previousBlockCount,
    pending.targetLogicalLength⟩

theorem SequenceTable.ensurePool (h : SequenceTable pool seq) :
    seq.ensurePool pool = .ok () := by
  simp [SequenceState.ensurePool, h.cookie]

/-- The sequence after its reservation was committed. -/
def SequenceState.committed (target : Nat) (seq : SequenceState) : SequenceState :=
  { seq with pending := none, logicalLength := target }

/-- Committing publishes the target length and moves no hold. -/
theorem wp_commit {pending : PendingReservation} (hok : SequenceTable pool seq)
    (hpending : seq.pending = some pending)
    (h : Owns pool (seq.exclusiveHolds + exclusive) (seq.sharedHolds + shared)) :
    wp (SequenceState.commit (seq.token pending))
      (fun commit state =>
        commit.logicalLength = pending.targetLogicalLength ∧
        state.seq = seq.committed pending.targetLogicalLength ∧
        Owns state.pool (seq.exclusiveHolds + exclusive) (seq.sharedHolds + shared) ∧
        Advances pool state.pool ∧ state.pool.freeList = pool.freeList)
      (fun _ _ => False) ⟨seq, pool⟩ := by
  unfold SequenceState.commit
  refine wp_read (wp_ofOk hok.ensurePool ?_)
  refine wp_ofOk (validateReservation_ok hpending) ?_
  have hprivate : ∀ index ∈ List.range'
      (if seq.logicalLength < (seq.token pending).targetLogicalLength then
        seq.logicalLength / kvBlockSize else seq.allocatedBlockCount)
      (seq.allocatedBlockCount -
        (if seq.logicalLength < (seq.token pending).targetLogicalLength then
          seq.logicalLength / kvBlockSize else seq.allocatedBlockCount)),
      seq.sharedBlockCount ≤ index ∧ index < seq.blockIds.length := by
    intro index hindex
    obtain ⟨hle, hlt⟩ := List.mem_range'_1.mp hindex
    have hshared := hok.shared_le
    unfold SequenceState.allocatedBlockCount kvBlockSize at *
    split at hle
    · rw [if_pos ‹_›] at hlt
      omega
    · rw [if_neg ‹_›] at hlt
      omega
  refine wp_seq (wp_checkPass ?_ ?_)
  · intro index hindex
    obtain ⟨hle, hlt⟩ := hprivate index hindex
    simp only [wp_bind, wp_fromExcept, allocatedBlock_ok hlt]
    refine ⟨by simp, fun block hblock => ?_⟩
    cases hblock
    rw [validatePrivate_ok h hle hlt]
    simp
  · refine wp_call (wp_clearSidecars h hprivate seq) ?_ (fun _ _ hf => hf.elim)
    rintro _ ⟨seq', pool'⟩ ⟨rfl, hadv, hfree, howns⟩
    simp only [modifySeq, wp_bind, wp_modify, wp_pure]
    exact ⟨rfl, rfl, howns, hadv, hfree⟩

/-- Poisoning drops the reservation too; only a reset clears the mark. -/
theorem wp_poison {pending : PendingReservation} (hok : SequenceTable pool seq)
    (hpending : seq.pending = some pending)
    (h : Owns pool (seq.exclusiveHolds + exclusive) (seq.sharedHolds + shared)) :
    wp (SequenceState.poison (seq.token pending))
      (fun _ state => state.seq = { seq.rolledBack with poisoned := true } ∧
        Owns state.pool (seq.rolledBack.exclusiveHolds + exclusive)
          (seq.rolledBack.sharedHolds + shared) ∧
        Advances pool state.pool)
      (fun _ _ => False) ⟨seq, pool⟩ := by
  have hshared := hok.shared_le_length
  unfold SequenceState.poison
  refine wp_read (wp_ofOk hok.ensurePool ?_)
  refine wp_ofOk (validateReservation_ok hpending) ?_
  refine wp_write ?_
  refine wp_seq (wp_checkPass ?_ ?_)
  · intro index hindex
    have hlt : index < seq.blockIds.length := List.mem_range.mp hindex
    rw [wp_fromExcept, validateHeldBlock_ok h hlt]
    simp
  · refine wp_call (wp_clearSidecars h ?_ { seq with poisoned := true }) ?_
      (fun _ _ hf => hf.elim)
    · intro index hindex
      obtain ⟨hle, hlt⟩ := List.mem_range'_1.mp hindex
      unfold SequenceState.allocatedBlockCount at hlt
      omega
    rintro _ ⟨seq', pool'⟩ ⟨rfl, hadv, _, howns⟩
    have hok' := (hok.poisoned true).advance hadv
    refine wp_mono (wp_rollbackPending hok' (by simp [hpending]) howns) ?_
      (fun _ _ hf => hf.elim)
    rintro _ state ⟨hseq, howns', hadv'⟩
    exact ⟨hseq, howns', hadv.trans hadv'⟩

theorem rolledBack_blocks_length (hok : SequenceTable pool seq) :
    seq.rolledBack.blockIds.length = blocksForLength seq.logicalLength := by
  have hblocks := hok.blocks
  have hmono := blocksForLength_mono hok.logical_le_visible
  simp only [SequenceState.rolledBack, List.length_take]
  omega

theorem SequenceTable.rolledBack (hok : SequenceTable pool seq) :
    SequenceTable pool seq.rolledBack where
  cookie := hok.cookie
  id_cookie := hok.id_cookie
  id_pos := hok.id_pos
  id_lt := hok.id_lt
  maximum_le := hok.maximum_le
  shared_le := hok.shared_le
  blocks := rolledBack_blocks_length hok
  valid := rfl
  pending := fun _ h => by cases h

theorem SequenceTable.committed {pending : PendingReservation} (hok : SequenceTable pool seq)
    (hpending : seq.pending = some pending) :
    SequenceTable pool (seq.committed pending.targetLogicalLength) := by
  obtain ⟨_, hle⟩ := hok.pending pending hpending
  have hvisible : seq.visibleLength = pending.targetLogicalLength := by
    simp [SequenceState.visibleLength, hpending]
  constructor
  · exact hok.cookie
  · exact hok.id_cookie
  · exact hok.id_pos
  · exact hok.id_lt
  · exact hok.maximum_le
  · exact Nat.le_trans hok.shared_le hle
  · rw [← hvisible]
    exact hok.blocks
  · rw [← hvisible]
    exact hok.valid
  · intro _ h
    cases h

/-- The sequence after a reset: an empty table, usable again. -/
def SequenceState.cleared (seq : SequenceState) : SequenceState :=
  { seq with
    blockIds := []
    validTokens := []
    sharedBlockCount := 0
    logicalLength := 0
    pending := none
    poisoned := false }

theorem SequenceTable.cleared (hok : SequenceTable pool seq) :
    SequenceTable pool seq.cleared where
  cookie := hok.cookie
  id_cookie := hok.id_cookie
  id_pos := hok.id_pos
  id_lt := hok.id_lt
  maximum_le := hok.maximum_le
  shared_le := Nat.le_refl _
  blocks := by simp [SequenceState.cleared, SequenceState.visibleLength, blocksForLength,
    kvBlockSize]
  valid := by simp [SequenceState.cleared, SequenceState.visibleLength, canonicalTokens,
    blocksForLength, kvBlockSize]
  pending := fun _ h => by cases h

/-- Resetting gives back every hold of the sequence, poisoned or not. -/
theorem wp_reset (hok : SequenceTable pool seq)
    (h : Owns pool (seq.exclusiveHolds + exclusive) (seq.sharedHolds + shared)) :
    wp SequenceState.reset
      (fun _ state => state.seq = seq.cleared ∧ Owns state.pool exclusive shared ∧
        Advances pool state.pool)
      (fun _ _ => False) ⟨seq, pool⟩ := by
  have hroll : wp (runIf (seq.pending.isSome = true) SequenceState.rollbackPending)
      (fun _ state => state.seq.cleared = seq.cleared ∧ SequenceTable state.pool state.seq ∧
        Advances pool state.pool ∧
        Owns state.pool (state.seq.exclusiveHolds + exclusive)
          (state.seq.sharedHolds + shared))
      (fun _ _ => False) ⟨seq, pool⟩ := by
    rw [wp_runIf]
    refine ⟨fun hpending => ?_, fun _ => ⟨rfl, hok, Advances.refl pool, h⟩⟩
    refine wp_ok_mono (wp_rollbackPending hok hpending h) ?_
    rintro _ ⟨seq', pool'⟩ ⟨rfl, howns, hadv⟩
    exact ⟨rfl, hok.rolledBack.advance hadv, hadv, howns⟩
  unfold SequenceState.reset
  refine wp_read (wp_ofOk hok.ensurePool ?_)
  refine wp_call hroll ?_ (fun _ _ hf => hf.elim)
  rintro _ ⟨seq', pool'⟩ ⟨hcleared, hok', hadv, howns⟩
  refine wp_read (wp_seq (wp_checkPass ?_ ?_))
  · intro index hindex
    rw [wp_fromExcept, validateHeldBlock_ok howns (List.mem_range.mp hindex)]
    simp
  · have hvalid := hok'.valid_length
    unfold SequenceState.releaseTail
    refine wp_seq (wp_read ?_)
    refine wp_mono (wp_releaseLasts (seq'.allocatedBlockCount - 0) howns
      hok'.shared_le_length hvalid (Nat.sub_le _ _)) ?_ (fun _ _ hf => hf.elim)
    have hzero : seq'.blockIds.length - (seq'.allocatedBlockCount - 0) = 0 := by
      unfold SequenceState.allocatedBlockCount
      omega
    rw [hzero]
    rintro _ ⟨seq'', pool''⟩ ⟨rfl, howns', hadv', _⟩
    have hnone : (seq'.keep 0).exclusiveHolds = 0 ∧ (seq'.keep 0).sharedHolds = 0 := by
      simp [SequenceState.keep, SequenceState.exclusiveHolds, SequenceState.sharedHolds]
    rw [hnone.1, hnone.2, zero_add, zero_add] at howns'
    simp only [modifySeq, wp_modify]
    refine ⟨?_, howns', hadv.trans hadv'⟩
    rw [← hcleared]
    simp [SequenceState.keep, SequenceState.cleared]

/-- The sequence after it took one more full shared block. -/
def SequenceState.adopted (block : BlockId) (seq : SequenceState) : SequenceState :=
  { seq with
    blockIds := seq.blockIds ++ [block]
    validTokens := seq.validTokens ++ [kvBlockSize]
    sharedBlockCount := seq.sharedBlockCount + 1
    logicalLength := (seq.sharedBlockCount + 1) * kvBlockSize }

/-- A ready sequence that holds full shared blocks and nothing else. -/
structure AllShared (pool : KvBlockPool) (seq : SequenceState) : Prop where
  ready : Ready pool seq
  blocks : seq.blockIds.length = seq.sharedBlockCount

theorem AllShared.logical (h : AllShared pool seq) :
    seq.logicalLength = seq.sharedBlockCount * kvBlockSize := by
  have hblocks := h.ready.table.blocks
  have hshared := h.ready.table.shared_le
  rw [h.ready.visibleLength, h.blocks] at hblocks
  unfold blocksForLength kvBlockSize at *
  omega

/-- The same within the maximum length. -/
structure OnlyShared (pool : KvBlockPool) (seq : SequenceState) : Prop where
  idle : Idle pool seq
  logical : seq.logicalLength = seq.sharedBlockCount * kvBlockSize

theorem canonicalTokens_full (count : Nat) :
    canonicalTokens (count * kvBlockSize) = List.replicate count kvBlockSize := by
  have hblocks : blocksForLength (count * kvBlockSize) = count := by
    unfold blocksForLength kvBlockSize
    omega
  unfold canonicalTokens
  rw [hblocks, List.eq_replicate_iff]
  refine ⟨by simp, fun b hb => ?_⟩
  obtain ⟨index, hindex, rfl⟩ := List.mem_map.mp hb
  have hlt := List.mem_range.mp hindex
  unfold kvBlockSize
  omega

theorem AllShared.adopted (h : AllShared pool seq) (block : BlockId) :
    AllShared pool (seq.adopted block) := by
  have hblocks := h.blocks
  have hvalid := h.ready.table.valid
  rw [h.ready.visibleLength, h.logical, canonicalTokens_full] at hvalid
  have hvisible : (seq.adopted block).visibleLength =
      (seq.sharedBlockCount + 1) * kvBlockSize := by
    simp [SequenceState.visibleLength, SequenceState.adopted, h.ready.pending]
  have hlength : (seq.adopted block).blockIds.length = seq.sharedBlockCount + 1 := by
    simp only [SequenceState.adopted, List.length_append, List.length_singleton, hblocks]
  refine ⟨⟨?_, h.ready.pending, h.ready.healthy⟩, hlength⟩
  constructor
  · exact h.ready.table.cookie
  · exact h.ready.table.id_cookie
  · exact h.ready.table.id_pos
  · exact h.ready.table.id_lt
  · exact h.ready.table.maximum_le
  · exact Nat.le_refl _
  · rw [hvisible, hlength]
    unfold blocksForLength kvBlockSize
    omega
  · rw [hvisible, canonicalTokens_full]
    simp only [SequenceState.adopted, hvalid, List.replicate_succ']
  · intro pending hpending
    exact absurd hpending (by simp [SequenceState.adopted, h.ready.pending])

/-- A table that is not full takes one more hold on a shared block. -/
theorem wp_adoptSharedBlock {block : BlockId} {holders : Multiset BlockId}
    (hall : AllShared pool seq) (h : Owns pool exclusive holders) (hmem : block ∈ holders)
    (hroom : seq.sharedBlockCount ≠ seq.maximumBlockCount)
    (hfits : (seq.sharedBlockCount + 1) * kvBlockSize ≤ u32Max)
    (hcount : holders.count block < u32Max) :
    wp (SequenceState.adoptSharedBlock block)
      (fun _ state => state.seq = seq.adopted block ∧
        Owns state.pool exclusive (block ::ₘ holders) ∧
        Advances pool state.pool ∧ state.pool.freeList = pool.freeList)
      (fun _ _ => False) ⟨seq, pool⟩ := by
  have hlen : seq.allocatedBlockCount = seq.sharedBlockCount := hall.blocks
  unfold SequenceState.adoptSharedBlock
  refine wp_read (wp_ofOk hall.ready.ensureMutable ?_)
  refine wp_passes (by simp [hall.ready.pending]) ?_
  refine wp_passes (not_not.mpr hlen) ?_
  refine wp_passes (by rwa [hlen]) ?_
  refine wp_ofOk (h.sharedReferences_ok hmem) ?_
  refine wp_some (checkedAdd_eq_some.mpr ⟨rfl, hcount⟩) ?_
  have hlogical : (seq.sharedBlockCount + 1) * kvBlockSize % (u32Max + 1) =
      (seq.sharedBlockCount + 1) * kvBlockSize := Nat.mod_eq_of_lt (by omega)
  rw [wp_set, hlen, hlogical]
  exact ⟨rfl, h.borrow hmem, advances_setSlot pool _ _ (Nat.le_refl _), rfl⟩

theorem holds_adopted (hall : AllShared pool seq) (block : BlockId) :
    (seq.adopted block).exclusiveHolds = seq.exclusiveHolds ∧
    (seq.adopted block).sharedHolds = block ::ₘ seq.sharedHolds := by
  have hblocks := hall.blocks
  constructor
  · simp only [SequenceState.exclusiveHolds, SequenceState.adopted]
    rw [List.drop_of_length_le (by simp; omega), List.drop_of_length_le (by omega)]
  · simp only [SequenceState.sharedHolds, SequenceState.adopted, Multiset.cons_coe]
    rw [List.take_of_length_le (by simp; omega), List.take_of_length_le (by omega)]
    exact Multiset.coe_eq_coe.mpr (List.perm_append_singleton _ _)

/-- The sequence after its first private block became shared. -/
def SequenceState.listedNext (seq : SequenceState) : SequenceState :=
  { seq with sharedBlockCount := seq.sharedBlockCount + 1 }

theorem holds_listedNext (hlt : seq.sharedBlockCount < seq.blockIds.length) :
    seq.exclusiveHolds = (seq.blockIds[seq.sharedBlockCount], seq.sequenceId) ::ₘ
      seq.listedNext.exclusiveHolds ∧
    seq.listedNext.sharedHolds = seq.blockIds[seq.sharedBlockCount] ::ₘ seq.sharedHolds := by
  constructor
  · simp only [SequenceState.exclusiveHolds, SequenceState.listedNext, Multiset.cons_coe]
    rw [List.drop_eq_getElem_cons hlt, List.map_cons]
  · simp only [SequenceState.sharedHolds, SequenceState.listedNext, Multiset.cons_coe]
    rw [List.take_add_one, List.getElem?_eq_getElem hlt]
    exact Multiset.coe_eq_coe.mpr (List.perm_append_singleton _ _)

theorem Ready.listedNext (h : Ready pool seq)
    (hfull : (seq.sharedBlockCount + 1) * kvBlockSize ≤ seq.logicalLength) :
    Ready pool seq.listedNext :=
  ⟨⟨h.table.cookie, h.table.id_cookie, h.table.id_pos, h.table.id_lt, h.table.maximum_le,
    hfull, h.table.blocks, h.table.valid, h.table.pending⟩, h.pending, h.healthy⟩

/-- Sharing a committed block leaves one hold with the sequence and hands one
to the caller. -/
theorem wp_shareNextBlock {others : Multiset BlockId} (hready : Ready pool seq)
    (h : Owns pool (seq.exclusiveHolds + exclusive) (seq.sharedHolds + others))
    (hfull : (seq.sharedBlockCount + 1) * kvBlockSize ≤ seq.logicalLength) :
    wp SequenceState.shareNextBlock
      (fun block state => seq.blockIds[seq.sharedBlockCount]? = some block ∧
        state.seq = seq.listedNext ∧
        Owns state.pool (seq.listedNext.exclusiveHolds + exclusive)
          (seq.listedNext.sharedHolds + (block ::ₘ others)) ∧
        Advances pool state.pool ∧ state.pool.freeList = pool.freeList)
      (fun _ _ => False) ⟨seq, pool⟩ := by
  have hlt : seq.sharedBlockCount < seq.blockIds.length := by
    rw [hready.table.blocks, hready.visibleLength]
    unfold blocksForLength kvBlockSize at *
    omega
  obtain ⟨hex, hsh⟩ := holds_listedNext hlt
  have hvalidate : pool.validateBlock seq.blockIds[seq.sharedBlockCount] seq.sequenceId =
      .ok () := validatePrivate_ok h (Nat.le_refl _) hlt
  unfold SequenceState.shareNextBlock
  refine wp_read (wp_ofOk hready.ensureMutable ?_)
  refine wp_passes (by simp [hready.pending]) ?_
  refine wp_passes (by omega) ?_
  refine wp_ofOk (allocatedBlock_ok hlt) ?_
  refine wp_ofOk hvalidate ?_
  refine wp_seq ((wp_zoom _ _ _ _ _).mpr ?_)
  unfold KvBlockPool.clearSidecar
  refine wp_read (wp_ofOk hvalidate ?_)
  set block := seq.blockIds[seq.sharedBlockCount]
  have hdropped := h.dropSidecar block.physicalIndex
  rw [hex, Multiset.cons_add] at hdropped
  have hpublished := hdropped.publish
  rw [hready.table.id_cookie, ← hready.table.cookie] at hpublished
  simp only [onPool, modifySeq, wp_set, wp_bind, wp_zoom, wp_modify, wp_pure]
  refine ⟨List.getElem?_eq_getElem hlt, rfl, ?_, ?_, ?_⟩
  · rw [hsh, Multiset.cons_add, Multiset.add_cons]
    exact hpublished
  · exact (advances_dropSidecar pool _).trans (advances_setSlot _ _ _ (Nat.le_refl _))
  · exact (KvBlockPool.dropSidecar_frame pool _).2.2.2.1

end Holds

/-- The pool after it handed out a sequence identifier. -/
def KvBlockPool.withNextSequence (pool : KvBlockPool) : KvBlockPool :=
  { pool with nextSequenceId := pool.nextSequenceId + 1 }

theorem Owns.withNextSequence {pool : KvBlockPool}
    {exclusive : Multiset (BlockId × SequenceId)} {shared : Multiset BlockId}
    (h : Owns pool exclusive shared) : Owns pool.withNextSequence exclusive shared := by
  refine ⟨⟨h.ok.slots_length, h.ok.free_nodup, h.ok.free_iff, h.ok.free_references,
    fun index owner howner => ?_, h.ok.shared_iff, h.ok.count, Nat.succ_pos _⟩, h.accounts⟩
  obtain ⟨hcookie, hlt⟩ := h.ok.owner_bound index owner howner
  exact ⟨hcookie, Nat.lt_succ_of_lt hlt⟩

theorem advances_withNextSequence (pool : KvBlockPool) :
    Advances pool pool.withNextSequence :=
  ⟨rfl, rfl, rfl, Nat.le_succ _, fun _ => Nat.le_refl _⟩

/-- The sequence that `create_sequence` hands out next. -/
def KvBlockPool.nextSequence (pool : KvBlockPool) (maximum : Nat) : SequenceState :=
  SequenceState.new pool.cookie ⟨pool.cookie, pool.nextSequenceId⟩ maximum

theorem onlyShared_nextSequence {pool : KvBlockPool} {maximum : Nat}
    (hpos : 0 < pool.nextSequenceId) (hmax : maximum ≤ u32Max) :
    OnlyShared pool.withNextSequence (pool.nextSequence maximum) := by
  have htable : SequenceTable pool.withNextSequence (pool.nextSequence maximum) := by
    constructor
    · rfl
    · rfl
    · exact Nat.ne_of_gt hpos
    · exact Nat.lt_succ_self _
    · exact hmax
    · exact Nat.le_refl _
    · simp [KvBlockPool.nextSequence, SequenceState.new, SequenceState.visibleLength,
        blocksForLength, kvBlockSize]
    · exact (canonicalTokens_full 0).symm
    · intro _ hpending
      cases hpending
  refine ⟨⟨⟨htable, Nat.zero_le _, ?_⟩, rfl, rfl⟩, rfl⟩
  intro _ hpending
  cases hpending

theorem wp_hostReserve {ε : Type} {error : ε} {host : List Bool} :
    wp (hostReserve error) (fun _ host' => host = [] → host' = [])
      (fun e _ => e = error ∧ host ≠ []) host := by
  unfold hostReserve
  refine wp_read ?_
  cases host with
  | nil => exact fun _ => rfl
  | cons answer rest =>
      simp only [wp_bind, wp_set, wp_rejectIf]
      exact ⟨fun _ => ⟨trivial, by simp⟩, fun _ => by simp⟩

/-- A new sequence moves no hold. Its failures leave the pool as it was. -/
theorem wp_createSequence {pool : KvBlockPool} {host : List Bool} {maximum : Nat}
    (hpos : 0 < maximum) (hmax : maximum ≤ u32Max) :
    wp (KvBlockPool.createSequence maximum)
      (fun seq state => seq = pool.nextSequence maximum ∧
        state.1 = pool.withNextSequence ∧ (host = [] → state.2 = []))
      (fun error state => state.1 = pool ∧ (host = [] → state.2 = []) ∧
        ((∃ resource, error = .hostAllocation resource) ∧ host ≠ [] ∨
          error = .sequenceIdExhausted ∧ u64Max ≤ pool.nextSequenceId))
      (pool, host) := by
  unfold KvBlockPool.createSequence
  refine wp_passes (by omega) (wp_passes (by omega) (wp_read ?_))
  refine wp_seq ((wp_orReject _ _).mpr ⟨fun hnone => ?_, fun next hnext => ?_⟩)
  · have hlimit := checkedAdd_eq_none.mp hnone
    exact ⟨rfl, id, Or.inr ⟨rfl, by omega⟩⟩
  obtain ⟨rfl, _⟩ := checkedAdd_eq_some.mp hnext
  refine wp_seq (wp_forEach (fun _ state => state.1 = pool ∧ (host = [] → state.2 = []))
    _ _ ?_ ?_ ⟨rfl, fun hnil => hnil⟩)
  · rintro resource rest ⟨pool', host'⟩ ⟨rfl, hhost⟩
    rw [wp_zoom]
    refine wp_mono wp_hostReserve (fun _ host'' h => ⟨rfl, fun hnil => h (hhost hnil)⟩) ?_
    rintro e host'' ⟨rfl, hne⟩
    have hhost' : host ≠ [] := fun hnil => hne (hhost hnil)
    exact ⟨rfl, fun hnil => absurd hnil hhost', Or.inl ⟨⟨resource, rfl⟩, hhost'⟩⟩
  · rintro ⟨pool', host'⟩ ⟨rfl, hhost⟩
    simp only [wp_bind, wp_modify, wp_pure]
    exact ⟨rfl, rfl, hhost⟩

end Riley.PagedKv
