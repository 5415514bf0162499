import Riley.PagedKv.Sidecars
import Riley.PagedKv.SystemSpec

/-!
Reservations as transactions. The blocks of a reservation come off the head of the free list
and go back in the reverse order, so a reservation that fails or is rolled back leaves the pool
as it was but for generations. `Lent base owner taken pool` is the state in between.
-/

namespace Riley.PagedKv

open Outcome Relation

/-- What a pool has beside its slots, its free list and the count of allocated blocks. -/
def KvBlockPool.frame (pool : KvBlockPool) : Nat × KvLayout × Nat × Nat × Nat :=
  (pool.cookie, pool.layout, pool.nextSequenceId, pool.sidecarCount, pool.sidecarDeviceBytes)

/-- Generations advanced, and nothing else changed. -/
structure OnlyGenerations (pool pool' : KvBlockPool) : Prop where
  frame : pool'.frame = pool.frame
  freeList : pool'.freeList = pool.freeList
  allocated : pool'.allocatedBlockCount = pool.allocatedBlockCount
  slots_length : pool'.slots.length = pool.slots.length
  generation : ∀ index, (pool.slot index).generation ≤ (pool'.slot index).generation
  slot : ∀ index, pool'.slot index =
    { pool.slot index with generation := (pool'.slot index).generation }

/-- The slots `taken` came off the free list of `base`, first to last, and have an owner. -/
structure Lent (base : KvBlockPool) (owner : SequenceId) (taken : List Nat)
    (pool : KvBlockPool) : Prop where
  frame : pool.frame = base.frame
  free : base.freeList = taken ++ pool.freeList
  allocated : pool.allocatedBlockCount = base.allocatedBlockCount + taken.length
  slots_length : pool.slots.length = base.slots.length
  generation : ∀ index, (base.slot index).generation ≤ (pool.slot index).generation
  slot : ∀ index, pool.slot index = { base.slot index with
    generation := (pool.slot index).generation
    owner := if index ∈ taken then some owner else (base.slot index).owner }

/-- The free list of a pool names unowned slots without sidecars, each once. -/
structure FreeOk (pool : KvBlockPool) : Prop where
  inRange : ∀ index ∈ pool.freeList, index < pool.slots.length
  unowned : ∀ index ∈ pool.freeList, (pool.slot index).owner = none
  bare : ∀ index ∈ pool.freeList, (pool.slot index).sidecar = none
  nodup : pool.freeList.Nodup

section Lending

variable {base pool pool' : KvBlockPool} {owner : SequenceId} {taken : List Nat} {index : Nat}
  {block : BlockId}

theorem lent_nil (base : KvBlockPool) (owner : SequenceId) : Lent base owner [] base :=
  ⟨rfl, rfl, rfl, rfl, fun _ => Nat.le_refl _, fun _ => rfl⟩

theorem Lent.onlyGenerations (h : Lent base owner [] pool) : OnlyGenerations base pool :=
  ⟨h.frame, h.free.symm, h.allocated, h.slots_length, h.generation, h.slot⟩

theorem Lent.cookie (h : Lent base owner taken pool) : pool.cookie = base.cookie :=
  congrArg Prod.fst h.frame

theorem Lent.allocate (h : Lent base owner taken pool) (hfree : FreeOk base)
    (hrun : KvBlockPool.allocateBlock owner pool = .ok block pool') :
    Lent base owner (taken ++ [block.physicalIndex]) pool' ∧
      block = pool'.handle block.physicalIndex ∧
      ∀ other ∈ taken, pool'.handle other = pool.handle other := by
  obtain ⟨rest, hlist, hcookie, hgeneration, -, rfl⟩ := allocateBlock_eq_ok hrun
  have hsplit := h.free
  rw [hlist] at hsplit
  have hmem : block.physicalIndex ∈ base.freeList := hsplit ▸ by simp
  have hlt : block.physicalIndex < pool.slots.length := h.slots_length ▸ hfree.inRange _ hmem
  have hfresh : block.physicalIndex ∉ taken := by
    have hnodup := hfree.nodup
    rw [hsplit] at hnodup
    exact fun htaken => (List.nodup_append.mp hnodup).2.2 _ htaken _ List.mem_cons_self rfl
  let fresh : BlockSlot := { pool.slot block.physicalIndex with
    generation := block.generation
    owner := some owner }
  have hself : (pool.setSlot block.physicalIndex fresh).slot block.physicalIndex = fresh :=
    KvBlockPool.slot_setSlot_self fresh hlt
  have hother (other : Nat) (hne : other ≠ block.physicalIndex) :
      (pool.setSlot block.physicalIndex fresh).slot other = pool.slot other :=
    KvBlockPool.slot_setSlot_of_ne fresh hne
  refine ⟨⟨h.frame, ?_, ?_, ?_, fun other => ?_, fun other => ?_⟩, ?_, fun other htaken => ?_⟩
  · rw [hsplit, List.append_assoc]
    rfl
  · rw [List.length_append, List.length_singleton, ← Nat.add_assoc, ← h.allocated]
  · exact (pool.slots_length_setSlot _ fresh).trans h.slots_length
  · change _ ≤ ((pool.setSlot block.physicalIndex fresh).slot other).generation
    by_cases heq : other = block.physicalIndex
    · rw [heq, hself]
      have hle := h.generation block.physicalIndex
      change _ ≤ block.generation
      omega
    · rw [hother other heq]
      exact h.generation other
  · change (pool.setSlot block.physicalIndex fresh).slot other = { base.slot other with
      generation := ((pool.setSlot block.physicalIndex fresh).slot other).generation
      owner := if other ∈ taken ++ [block.physicalIndex] then some owner
        else (base.slot other).owner }
    by_cases heq : other = block.physicalIndex
    · rw [heq, hself, if_pos (by simp)]
      have hslot := h.slot block.physicalIndex
      change ({ pool.slot block.physicalIndex with
        generation := block.generation
        owner := some owner } : BlockSlot) = _
      rw [hslot]
    · rw [hother other heq, h.slot other]
      simp [heq]
  · change block = ⟨pool.cookie, block.physicalIndex,
      ((pool.setSlot block.physicalIndex fresh).slot block.physicalIndex).generation⟩
    rw [hself, ← hcookie]
  · have hne : other ≠ block.physicalIndex := fun heq => hfresh (heq ▸ htaken)
    exact congrArg (BlockId.mk pool.cookie other) (congrArg BlockSlot.generation (hother other hne))

/-- A slot that was lent out goes back to the head of the free list. -/
theorem Lent.release (h : Lent base owner (taken ++ [index]) pool) (hfree : FreeOk base) :
    Lent base owner taken (pool.releaseSlot index) ∧
      ∀ other, (pool.releaseSlot index).handle other = pool.handle other := by
  have hsplit := h.free
  rw [List.append_assoc] at hsplit
  have hmem : index ∈ base.freeList := hsplit ▸ by simp
  have hfresh : index ∉ taken := by
    have hnodup := hfree.nodup
    rw [hsplit] at hnodup
    exact fun htaken => (List.nodup_append.mp hnodup).2.2 _ htaken _ List.mem_cons_self rfl
  have hsidecar : (pool.slot index).sidecar = none :=
    (congrArg BlockSlot.sidecar (h.slot index)).trans (hfree.bare index hmem)
  have hdrop : pool.dropSidecar index = pool := by
    unfold KvBlockPool.dropSidecar
    rw [hsidecar]
  have hrelease : pool.releaseSlot index = {
      pool.setSlot index ((pool.slot index).withOwner none) with
      allocatedBlockCount := pool.allocatedBlockCount - 1
      freeList := index :: pool.freeList } := by
    unfold KvBlockPool.releaseSlot
    rw [hdrop]
  have hgeneration (other : Nat) := (slot_releaseSlot pool index other).1
  refine ⟨⟨?_, ?_, ?_, ?_, fun other => ?_, fun other => ?_⟩, fun other => ?_⟩
  · rw [hrelease]
    exact h.frame
  · rw [hrelease, hsplit]
    rfl
  · rw [hrelease]
    change pool.allocatedBlockCount - 1 = _
    rw [h.allocated, List.length_append, List.length_singleton, ← Nat.add_assoc]
    rfl
  · rw [hrelease]
    exact (pool.slots_length_setSlot index _).trans h.slots_length
  · rw [hgeneration]
    exact h.generation other
  · have hslot : (pool.releaseSlot index).slot other =
        (pool.setSlot index ((pool.slot index).withOwner none)).slot other := by
      rw [hrelease]
      rfl
    rw [hslot, KvBlockPool.slot_setSlot]
    split
    next hself =>
      obtain ⟨rfl, -⟩ := hself
      rw [if_neg hfresh, hfree.unowned other hmem, h.slot other]
      rfl
    next hother =>
      by_cases heq : other = index
      · subst heq
        exact absurd ⟨rfl, h.slots_length ▸ hfree.inRange other hmem⟩ hother
      · rw [h.slot other]
        simp [heq]
  · refine congrArg (BlockId.mk _ other) (hgeneration other) |>.trans ?_
    rw [hrelease]
    rfl

theorem Lent.validates (h : Lent base owner taken pool) (hfree : FreeOk base)
    (hcookie : owner.poolCookie = base.cookie) (hmem : index ∈ taken) :
    pool.validateBlock (pool.handle index) owner = .ok () := by
  have hlt : index < pool.slots.length := by
    rw [h.slots_length]
    exact hfree.inRange index (h.free ▸ List.mem_append_left _ hmem)
  have howner : (pool.slot index).owner = some owner :=
    (congrArg BlockSlot.owner (h.slot index)).trans (if_pos hmem)
  unfold KvBlockPool.validateBlock
  rw [validateBlockIndex_ok rfl hlt]
  simp [KvBlockPool.handle, hcookie, h.cookie, howner, bind, Except.bind]

end Lending

section Sequences

variable {base pool : KvBlockPool} {seq : SequenceState} {taken : List Nat} {index : Nat}
  {front : List BlockId}

/-- Releasing the last entry of a table gives its slot back. -/
theorem Lent.wp_releaseLast (h : Lent base seq.sequenceId (taken ++ [index]) pool)
    (hfree : FreeOk base) (hcookie : seq.sequenceId.poolCookie = base.cookie)
    (hblocks : seq.blockIds = front ++ [pool.handle index])
    (hshared : seq.sharedBlockCount ≤ front.length) :
    wp SequenceState.releaseLast
      (fun _ state => state = ⟨seq.keep front.length, pool.releaseSlot index⟩)
      (fun _ _ => False) ⟨seq, pool⟩ := by
  have hindex : seq.allocatedBlockCount - 1 = front.length := by
    simp [SequenceState.allocatedBlockCount, hblocks]
  have hentry : seq.allocatedBlock front.length = .ok (pool.handle index) := by
    simp [SequenceState.allocatedBlock, hblocks]
  have hprivate : ¬ seq.allocatedBlockCount - 1 < seq.sharedBlockCount := by omega
  have hkeep : { seq with
      blockIds := seq.blockIds.take front.length
      validTokens := seq.validTokens.take front.length } = seq.keep front.length := by
    unfold SequenceState.keep
    rw [Nat.min_eq_left hshared]
  have hrelease : wp (KvBlockPool.releaseBlock (pool.handle index) seq.sequenceId)
      (fun _ pool' => pool' = pool.releaseSlot index) (fun _ _ => False) pool := by
    apply wp_read
    exact wp_ofOk (h.validates hfree hcookie (by simp)) rfl
  apply wp_read
  simp only [hindex]
  apply wp_ofOk hentry
  apply wp_seq
  rw [wp_runIf]
  refine ⟨fun hs => absurd hs hprivate, fun _ => ?_⟩
  apply wp_seq
  rw [wp_runIf]
  refine ⟨fun _ => ?_, fun hs => absurd hprivate hs⟩
  unfold onPool
  rw [wp_zoom]
  refine wp_mono hrelease ?_ fun _ _ hfalse => hfalse
  rintro _ _ rfl
  exact congrArg (KvState.mk · _) hkeep

/-- Releasing the lent entries, last to first, gives every slot back. -/
theorem Lent.wp_releaseLasts (h : Lent base seq.sequenceId taken pool) (hfree : FreeOk base)
    (hcookie : seq.sequenceId.poolCookie = base.cookie)
    (hblocks : seq.blockIds = front ++ taken.map pool.handle)
    (hshared : seq.sharedBlockCount ≤ front.length)
    (hvalid : seq.validTokens.length = seq.blockIds.length) :
    wp (SequenceState.releaseLasts taken.length)
      (fun _ state => state.seq = seq.keep front.length ∧
        Lent base seq.sequenceId [] state.pool)
      (fun _ _ => False) ⟨seq, pool⟩ := by
  induction taken using List.reverseRecOn generalizing seq pool with
  | nil =>
      have hlength : seq.blockIds.length = front.length := by simp [hblocks]
      exact ⟨(SequenceState.keep_of_le (by omega) (by omega) hshared).symm, h⟩
  | append_singleton taken index ih =>
      obtain ⟨hrest, hhandles⟩ := h.release hfree
      rw [List.length_append, List.length_singleton]
      rw [List.map_append, List.map_singleton, ← List.append_assoc] at hblocks
      refine wp_call (h.wp_releaseLast hfree hcookie hblocks ?_) ?_ fun _ _ hfalse => hfalse
      · rw [List.length_append]
        omega
      · rintro _ _ rfl
        have hkept : (seq.keep (front ++ taken.map pool.handle).length).blockIds =
            front ++ taken.map (pool.releaseSlot index).handle := by
          simp only [SequenceState.keep, hblocks, List.take_left']
          rw [List.map_congr_left fun other _ => (hhandles other).symm]
        have hkeep : (seq.keep (front ++ taken.map pool.handle).length).keep front.length =
            seq.keep front.length := by
          rw [SequenceState.keep_keep, Nat.min_eq_left (by simp)]
        have hlength := congrArg List.length hkept
        have hlast := ih (show Lent base (seq.keep _).sequenceId taken _ from hrest) hcookie
          hkept (Nat.le_trans (Nat.min_le_left _ _) hshared) ?_
        · rw [hkeep] at hlast
          exact hlast
        · simp only [SequenceState.keep, List.length_take, hvalid]

/-- A rollback to the entries before the lent ones. -/
theorem Lent.wp_rollbackNewBlocks (h : Lent base seq.sequenceId taken pool)
    (hfree : FreeOk base) (hcookie : seq.sequenceId.poolCookie = base.cookie)
    (hblocks : seq.blockIds = front ++ taken.map pool.handle)
    (hshared : seq.sharedBlockCount ≤ front.length)
    (hvalid : seq.validTokens.length = seq.blockIds.length) :
    wp (SequenceState.rollbackNewBlocks front.length)
      (fun _ state => state.seq = seq.keep front.length ∧
        Lent base seq.sequenceId [] state.pool)
      (fun _ _ => False) ⟨seq, pool⟩ := by
  have hcount : seq.allocatedBlockCount - front.length = taken.length := by
    simp [SequenceState.allocatedBlockCount, hblocks]
  apply wp_read
  apply wp_seq
  refine wp_checkPass (fun index hindex => ?_) ?_
  · obtain ⟨hle, hlt⟩ := List.mem_range'_1.mp hindex
    rw [hcount] at hlt
    have hlast : index - front.length < taken.length := by omega
    have hentry : seq.allocatedBlock index = .ok (pool.handle taken[index - front.length]) := by
      unfold SequenceState.allocatedBlock
      rw [hblocks, List.getElem?_append_right hle, List.getElem?_map,
        List.getElem?_eq_getElem hlast]
      rfl
    apply wp_ofOk hentry
    rw [wp_fromExcept, h.validates hfree hcookie (List.getElem_mem _)]
    simp
  · apply wp_read
    simp only [hcount]
    exact h.wp_releaseLasts hfree hcookie hblocks hshared hvalid

/-- The loop of `reserve_to`: it lends blocks to the sequence, or gives back what it took. -/
theorem Lent.wp_allocateEntries (count : Nat) (h : Lent base seq.sequenceId taken pool)
    (hfree : FreeOk base) (hcookie : seq.sequenceId.poolCookie = base.cookie)
    (hshared : seq.sharedBlockCount ≤ seq.blockIds.length)
    (hvalid : seq.validTokens.length = seq.blockIds.length) :
    wp (SequenceState.allocateEntries seq.blockIds.length count)
      (fun _ state => ∃ lent, lent.length = taken.length + count ∧
        state.seq = seq.extend (lent.map state.pool.handle) ∧
        Lent base seq.sequenceId lent state.pool)
      (fun _ state => state.seq = seq ∧ Lent base seq.sequenceId [] state.pool)
      ⟨seq.extend (taken.map pool.handle), pool⟩ := by
  induction count generalizing taken pool with
  | zero => exact ⟨taken, rfl, rfl, h⟩
  | succ count ih =>
      have hextend (pool' : KvBlockPool) (index : Nat) (hsame : ∀ other ∈ taken,
          pool'.handle other = pool.handle other) :
          (seq.extend (taken.map pool.handle)).extend [pool'.handle index] =
            seq.extend ((taken ++ [index]).map pool'.handle) := by
        rw [List.map_append, List.map_congr_left hsame]
        simp [SequenceState.extend, List.replicate_add]
      apply wp_seq
      rw [wp_attempt]
      apply wp_read
      apply wp_seq
      unfold onPool
      rw [wp_zoom]
      refine wp_mono (wp_ran (wp_allocateBlock _ pool)) ?_ ?_
      · rintro block pool' ⟨hrun, -⟩
        obtain ⟨hlent, hblock, hsame⟩ := h.allocate hfree hrun
        have hnext := hextend pool' block.physicalIndex hsame
        rw [← hblock] at hnext
        have hrest := ih hlent
        rw [← hnext] at hrest
        change wp (SequenceState.allocateEntries seq.blockIds.length count) _ _
          ⟨(seq.extend (taken.map pool.handle)).extend [block], pool'⟩
        refine wp_ok_mono hrest ?_
        rintro _ state ⟨lent, hlength, hstate⟩
        rw [List.length_append, List.length_singleton] at hlength
        exact ⟨lent, by omega, hstate⟩
      · rintro error pool' hsame
        rw [hsame]
        have hback := Lent.wp_rollbackNewBlocks
          (show Lent base (seq.extend (taken.map pool.handle)).sequenceId taken pool from h)
          hfree hcookie (rfl : _ = seq.blockIds ++ _) hshared
          (by simp [SequenceState.extend, hvalid])
        rw [keep_extend _ hvalid hshared] at hback
        exact wp_call hback (fun _ _ hkept => hkept) fun _ _ hfalse => False.elim hfalse

theorem reserved_length {target : Nat} {blocks : List BlockId} (htable : SequenceTable pool seq)
    (hpending : seq.pending = none) (hle : seq.logicalLength ≤ target)
    (hlength : blocks.length = blocksForLength target - seq.blockIds.length) :
    (seq.blockIds ++ blocks).length = blocksForLength target := by
  have hblocks := htable.blocks
  simp only [SequenceState.visibleLength, hpending] at hblocks
  have hmono := blocksForLength_mono hle
  rw [List.length_append]
  omega

/-- A reservation lends blocks to the sequence; one that fails leaves generations advanced. -/
theorem wp_reserveTo_exact (target : Nat) (htable : SequenceTable pool seq)
    (hfree : FreeOk pool) :
    wp (SequenceState.reserveTo target)
      (fun reservation state => ∃ taken : List Nat,
        seq.pending = none ∧ seq.logicalLength ≤ target ∧
        taken.length = blocksForLength target - seq.blockIds.length ∧
        reservation = seq.reservation target ∧
        state.seq = seq.reserved target (taken.map state.pool.handle) ∧
        Lent pool seq.sequenceId taken state.pool)
      (fun _ state => state.seq = seq ∧ OnlyGenerations pool state.pool) ⟨seq, pool⟩ := by
  have hsame : (⟨seq, pool⟩ : KvState).seq = seq ∧ OnlyGenerations pool pool :=
    ⟨rfl, (lent_nil pool seq.sequenceId).onlyGenerations⟩
  have hshared := htable.shared_le_length
  have hvalid := htable.valid_length
  apply wp_read
  refine wp_seq ((wp_fromExcept _).mpr ⟨fun _ _ => hsame, fun _ _ => ?_⟩)
  refine wp_check (fun _ => hsame) fun hpending => wp_check (fun _ => hsame) fun hle => ?_
  refine wp_check (fun _ => hsame) fun _ => wp_check (fun _ => hsame) fun _ => ?_
  refine wp_check (fun _ => hsame) fun _ => ?_
  have hcheck : wp (runIf (seq.allocatedBlockCount ≠ 0)
        (fromExcept (seq.validateHeldBlock pool (seq.allocatedBlockCount - 1))))
      (fun _ state => state = (⟨seq, pool⟩ : KvState))
      (fun (_ : PagedKvError) state => state = ⟨seq, pool⟩) ⟨seq, pool⟩ := by
    rw [wp_runIf, wp_fromExcept]
    exact ⟨fun _ => ⟨fun _ _ => rfl, fun _ _ => rfl⟩, fun _ => rfl⟩
  refine wp_call hcheck ?_ ?_
  · rintro _ _ rfl
    refine wp_seq ((wp_orReject _ _).mpr ⟨fun _ => hsame, fun nonce hnonce => ?_⟩)
    obtain ⟨rfl, -⟩ := checkedAdd_eq_some.mp hnonce
    have hnone := Option.not_isSome_iff_eq_none.mp hpending
    have hcookie : seq.sequenceId.poolCookie = pool.cookie := htable.id_cookie
    have hloop := (lent_nil pool seq.sequenceId).wp_allocateEntries
      (seq.additionalBlocksFor target) hfree hcookie hshared hvalid
    rw [show seq.extend ([].map pool.handle) = seq by simp [SequenceState.extend]] at hloop
    refine wp_call hloop ?_ ?_
    · rintro _ ⟨seq', pool'⟩ ⟨taken, hlength, hseq, hlent⟩
      simp only [List.length_nil, Nat.zero_add] at hlength hseq
      subst hseq
      have hblocks := @reserved_length pool seq target (taken.map pool'.handle) htable hnone
        (Nat.not_lt.mp hle) (by rw [List.length_map]; exact hlength)
      refine ⟨taken, hnone, Nat.not_lt.mp hle, hlength, rfl, ?_, hlent⟩
      change { SequenceState.fillValidTokens target (blocksForLength target)
        (seq.extend (taken.map pool'.handle)) with
          pending := some ⟨seq.nextReservationNonce, seq.blockIds.length, target⟩
          nextReservationNonce := seq.nextReservationNonce + 1 } = _
      rw [SequenceState.fillValidTokens_eq hblocks]
      rfl
    · rintro _ state ⟨hseq, hlent⟩
      exact ⟨hseq, hlent.onlyGenerations⟩
  · rintro _ _ rfl
    exact hsame

/-- A rollback of a fresh reservation leaves the sequence as it was but for the nonce, and the
pool as it was but for generations. -/
theorem Lent.wp_rollback {target : Nat} (h : Lent base seq.sequenceId taken pool)
    (htable : SequenceTable base seq) (hfree : FreeOk base) (hpending : seq.pending = none)
    (hle : seq.logicalLength ≤ target)
    (hlength : taken.length = blocksForLength target - seq.blockIds.length) :
    wp (SequenceState.rollback (seq.reservation target))
      (fun _ state =>
        state.seq = { seq with nextReservationNonce := seq.nextReservationNonce + 1 } ∧
        OnlyGenerations base state.pool)
      (fun _ _ => False) ⟨seq.reserved target (taken.map pool.handle), pool⟩ := by
  have hshared := htable.shared_le_length
  have hblocks := @reserved_length base seq target (taken.map pool.handle) htable hpending hle
    (by rw [List.length_map]; exact hlength)
  have htokens := htable.valid
  have hcount := htable.blocks
  simp only [SequenceState.visibleLength, hpending] at htokens hcount
  have hback := Lent.wp_rollbackNewBlocks
    (show Lent base (seq.reserved target (taken.map pool.handle)).sequenceId taken pool from h)
    hfree htable.id_cookie (rfl : _ = seq.blockIds ++ _) hshared
    (by simp only [SequenceState.reserved, hblocks, canonicalTokens, List.length_map,
      List.length_range])
  have hpool : (seq.reserved target (taken.map pool.handle)).ensurePool pool = .ok () := by
    unfold SequenceState.ensurePool
    rw [if_neg]
    rw [h.cookie]
    exact not_not.mpr htable.cookie.symm
  apply wp_read
  apply wp_ofOk hpool
  apply wp_ofOk (show (seq.reserved target (taken.map pool.handle)).validateReservation
    (seq.reservation target) = .ok () from
    @validateReservation_ok (seq.reserved target (taken.map pool.handle))
      ⟨seq.nextReservationNonce, seq.blockIds.length, target⟩ rfl)
  apply wp_read
  refine wp_some rfl (wp_call hback ?_ fun _ _ hfalse => hfalse)
  rintro _ ⟨seq', pool'⟩ ⟨hseq, hlent⟩
  simp only at hseq
  subst hseq
  refine ⟨?_, hlent.onlyGenerations⟩
  have hkept : ((seq.reserved target (taken.map pool.handle)).keep seq.blockIds.length).blockIds =
      seq.blockIds := List.take_left
  have hfill := @SequenceState.fillValidTokens_eq
    ((seq.reserved target (taken.map pool.handle)).keep seq.blockIds.length) seq.logicalLength
    (by rw [hkept, hcount])
  change { SequenceState.fillValidTokens seq.logicalLength (blocksForLength seq.logicalLength)
    ((seq.reserved target (taken.map pool.handle)).keep seq.blockIds.length) with
      pending := none } = _
  rw [hfill, ← htokens]
  simp only [SequenceState.keep, SequenceState.reserved, List.take_left,
    Nat.min_eq_left hshared, hpending]

end Sequences

/-- The free list of a pool that public calls reach. -/
theorem freeOk_of_reachable {contract : Bool} {cookie : Nat} {layout : KvLayout}
    {system : KvSystem} (hreachable : KvSystem.Reachable contract cookie layout system) :
    FreeOk system.pool := by
  have hedits := edits_of_run hreachable
  have hrange := Edits.inRange hedits (inRange_new cookie layout)
  have hok := Edits.sidecarsOk hedits (sidecarsOk_new cookie layout)
  exact ⟨hrange.free, hok.free, fun index hmem => hok.bare index (hok.free index hmem), hok.nodup⟩

/-- A reservation that fails leaves its sequence as it was, and one that is rolled back leaves
it as it was but for the nonce. Either way the pool has the free list, in its order, and the
count of allocated blocks that it had, and only generations advanced. Tables are well formed
where callers keep the contract; elsewhere that is all that is asked of them. -/
theorem reservation_transactional {contract : Bool} {cookie : Nat} {layout : KvLayout}
    {system : KvSystem} {index : Nat} {seq : SequenceState}
    (hreachable : KvSystem.Reachable contract cookie layout system)
    (hseq : system.sequences[index]? = some (some seq))
    (hcontract : contract = true ∨ SequenceTable system.pool seq) (target : Nat) :
    wp (SequenceState.reserveTo target)
      (fun reservation reserved =>
        wp (SequenceState.rollback reservation)
          (fun _ state =>
            state.seq = { seq with nextReservationNonce := seq.nextReservationNonce + 1 } ∧
            OnlyGenerations system.pool state.pool)
          (fun _ _ => False) reserved)
      (fun _ state => state.seq = seq ∧ OnlyGenerations system.pool state.pool)
      ⟨seq, system.pool⟩ := by
  have hfree := freeOk_of_reachable hreachable
  have htable : SequenceTable system.pool seq := by
    rcases hcontract with rfl | htable
    · exact ((SystemOk.of_reachable hreachable).table index seq hseq).1
    · exact htable
  refine wp_ok_mono (wp_reserveTo_exact target htable hfree) ?_
  rintro reservation ⟨seq', pool⟩ ⟨taken, hpending, hle, hlength, rfl, hseq', hlent⟩
  simp only at hseq'
  subst hseq'
  exact hlent.wp_rollback htable hfree hpending hle hlength

/-- A block reserved and rolled back is free again under its next generation. -/
theorem reservation_transactional_oneBlock :
    OnlyGenerations (oneBlock 0 false).pool (oneBlock 1 false).pool := by
  have hcreate : KvSystem.Step true (KvSystem.start 7 ⟨1, 1, 1, 1, Nat.one_pos, one_le_u32Max⟩)
      (oneBlockSystem 0 false) :=
    @KvSystem.Step.create true (KvSystem.start 7 ⟨1, 1, 1, 1, Nat.one_pos, one_le_u32Max⟩) 16 []
      (oneBlock 0 false).seq ((oneBlock 0 false).pool, []) rfl fun _ => by decide
  have hrun : _ ∧ OnlyGenerations (oneBlock 0 false).pool (oneBlock 1 false).pool :=
    @reservation_transactional _ _ _ (oneBlockSystem 0 false) 0 (oneBlock 0 false).seq
      (.single hcreate) rfl (.inl rfl) 16
  exact hrun.2

/-- The nonce of the sequence advanced too. -/
theorem reservation_nonce_advances :
    SequenceState.reserveTo 16 (oneBlock 0 false) =
        .ok ⟨7, ⟨7, 1⟩, 1, 0, 16⟩ (oneBlock 1 true) ∧
      SequenceState.rollback ⟨7, ⟨7, 1⟩, 1, 0, 16⟩ (oneBlock 1 true) =
        .ok () (oneBlock 1 false) ∧
      (oneBlock 0 false).seq.nextReservationNonce < (oneBlock 1 false).seq.nextReservationNonce :=
  ⟨rfl, rfl, by decide⟩

end Riley.PagedKv
