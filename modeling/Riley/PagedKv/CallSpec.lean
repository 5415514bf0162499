import Riley.PagedKv.System

/-!
Every call on a sequence, with any arguments, keeps its table and moves no
hold but its own. A call that is refused changes nothing.
-/

namespace Riley.PagedKv

open Outcome

variable {pool : KvBlockPool} {seq : SequenceState}
  {exclusive : Multiset (BlockId × SequenceId)} {shared : Multiset BlockId}

/-- A sequence of the pool with its holds on the books. Its table fits the
host arrays. -/
structure Held (exclusive : Multiset (BlockId × SequenceId)) (shared : Multiset BlockId)
    (pool : KvBlockPool) (seq : SequenceState) : Prop where
  table : SequenceTable pool seq
  owns : Owns pool (seq.exclusiveHolds + exclusive) (seq.sharedHolds + shared)
  capacity : seq.blockIds.length ≤ seq.maximumBlockCount

/-- What every call on a sequence leaves. -/
structure CallKeeps (exclusive : Multiset (BlockId × SequenceId)) (shared : Multiset BlockId)
    (pool : KvBlockPool) (seq : SequenceState) (state : KvState) : Prop where
  held : Held exclusive shared state.pool state.seq
  advances : Advances pool state.pool
  identity : state.seq.sequenceId = seq.sequenceId
  maximum : state.seq.maximumLogicalLength = seq.maximumLogicalLength

theorem Held.refused (h : Held exclusive shared pool seq) :
    CallKeeps exclusive shared pool seq ⟨seq, pool⟩ :=
  ⟨h, Advances.refl pool, rfl, rfl⟩

section Guards

variable {α β : Type} {kept : KvState → Prop} {state : KvState}

/-- A call that keeps an invariant, whether it succeeds or fails. -/
def Keeps (kept : KvState → Prop) (action : KvM α) (state : KvState) : Prop :=
  wp action (fun _ t => kept t) (fun _ t => kept t) state

theorem keeps_reject {condition : Prop} [Decidable condition] {error : PagedKvError}
    {next : Unit → KvM β} (hkept : kept state)
    (hnext : ¬ condition → Keeps kept (next ()) state) :
    Keeps kept (rejectIf condition error >>= next) state :=
  wp_check (fun _ => hkept) hnext

theorem keeps_read {value : Except PagedKvError α} {next : α → KvM β} (hkept : kept state)
    (hnext : ∀ a, value = .ok a → Keeps kept (next a) state) :
    Keeps kept (fromExcept value >>= next) state :=
  wp_seq ((wp_fromExcept value).mpr ⟨fun _ _ => hkept, hnext⟩)

theorem keeps_some {value : Option α} {error : PagedKvError} {next : α → KvM β}
    (hkept : kept state) (hnext : ∀ a, value = some a → Keeps kept (next a) state) :
    Keeps kept (orReject value error >>= next) state :=
  wp_seq ((wp_orReject value error).mpr ⟨fun _ => hkept, hnext⟩)

/-- A call that cannot fail from here. -/
theorem keeps_of_wp {action : KvM α} {ok : α → KvState → Prop}
    (h : wp action ok (fun _ _ => False) state) (hok : ∀ a t, ok a t → kept t) :
    Keeps kept action state :=
  wp_mono h hok fun _ _ hfalse => hfalse.elim

end Guards

section Calls

theorem ensureMutable_ok {pool : KvBlockPool} {seq : SequenceState} {done : Unit}
    (h : seq.ensureMutable pool = .ok done) : seq.poisoned = false := by
  unfold SequenceState.ensureMutable at h
  obtain ⟨_, _, h⟩ := except_bind_eq_ok.mp h
  split at h
  · cases h
  · exact Bool.eq_false_iff.mpr ‹_›

theorem Held.ready (h : Held exclusive shared pool seq) (hpending : ¬ seq.pending.isSome = true)
    (hhealthy : seq.poisoned = false) : Ready pool seq :=
  ⟨h.table, Option.not_isSome_iff_eq_none.mp hpending, hhealthy⟩

/-- A reservation is accepted only if it is the pending one. -/
theorem validateReservation_eq_ok {reservation : SequenceReservation} {done : Unit}
    (h : seq.validateReservation reservation = .ok done) :
    ∃ pending, seq.pending = some pending ∧ reservation = seq.token pending := by
  unfold SequenceState.validateReservation at h
  split_ifs at h with hforeign
  cases hpending : seq.pending with
  | none =>
      rw [hpending] at h
      cases h
  | some pending =>
      rw [hpending] at h
      simp only at h
      split_ifs at h with hother
      refine ⟨pending, rfl, ?_⟩
      cases reservation
      simp only [not_or, not_not] at hforeign hother
      simp only [SequenceState.token, SequenceReservation.mk.injEq]
      exact ⟨hforeign.1, hforeign.2, hother.1.symm, hother.2.1.symm, hother.2.2.symm⟩

theorem Held.rolledBack_capacity (h : Held exclusive shared pool seq) :
    seq.rolledBack.blockIds.length ≤ seq.rolledBack.maximumBlockCount :=
  Nat.le_trans (List.length_take_le' _ _) h.capacity

theorem Held.reserveTo (h : Held exclusive shared pool seq) (target : Nat) :
    Keeps (CallKeeps exclusive shared pool seq) (SequenceState.reserveTo target)
      ⟨seq, pool⟩ := by
  rcases Classical.em (Ready pool seq ∧ seq.logicalLength ≤ target ∧
    target ≤ seq.maximumLogicalLength) with ⟨hready, hle, hmax⟩ | hrefused
  · apply wp_mono (wp_reserveTo hready h.owns hle hmax)
    · rintro _ ⟨seq', pool'⟩ ⟨blocks, hlength, _, rfl, _, howns, hadv⟩
      have htable := (hready.reserved_table hle hlength).advance hadv
      exact ⟨⟨htable, howns, htable.blocks ▸ blocksForLength_mono hmax⟩, hadv, rfl, rfl⟩
    · rintro _ ⟨seq', pool'⟩ ⟨_, rfl, howns, hadv⟩
      exact ⟨⟨h.table.advance hadv, howns, h.capacity⟩, hadv, rfl, rfl⟩
  · unfold SequenceState.reserveTo
    apply wp_read
    apply keeps_read h.refused
    intro _ hmutable
    apply keeps_reject h.refused
    intro hpending
    apply keeps_reject h.refused
    intro hle
    apply keeps_reject h.refused
    intro hmax
    exact absurd ⟨h.ready hpending (ensureMutable_ok hmutable), Nat.le_of_not_lt hle,
      Nat.le_of_not_lt hmax⟩ hrefused

theorem Held.commit (h : Held exclusive shared pool seq) (reservation : SequenceReservation) :
    Keeps (CallKeeps exclusive shared pool seq) (SequenceState.commit reservation)
      ⟨seq, pool⟩ := by
  rcases Classical.em (∃ pending, seq.pending = some pending ∧ reservation = seq.token pending)
    with ⟨pending, hpending, rfl⟩ | hrefused
  · apply keeps_of_wp (wp_commit h.table hpending h.owns)
    rintro _ ⟨seq', pool'⟩ ⟨_, rfl, howns, hadv, _⟩
    exact ⟨⟨(h.table.committed hpending).advance hadv, howns, h.capacity⟩, hadv, rfl, rfl⟩
  · unfold SequenceState.commit
    apply wp_read
    apply keeps_read h.refused
    intro _ _
    apply keeps_read h.refused
    intro _ hvalid
    exact absurd (validateReservation_eq_ok hvalid) hrefused

theorem Held.rollback (h : Held exclusive shared pool seq) (reservation : SequenceReservation) :
    Keeps (CallKeeps exclusive shared pool seq) (SequenceState.rollback reservation)
      ⟨seq, pool⟩ := by
  unfold SequenceState.rollback
  apply wp_read
  apply keeps_read h.refused
  intro _ _
  apply keeps_read h.refused
  intro _ hvalid
  obtain ⟨pending, hpending, _⟩ := validateReservation_eq_ok hvalid
  apply keeps_of_wp (wp_rollbackPending h.table (Option.isSome_of_eq_some hpending) h.owns)
  rintro _ ⟨seq', pool'⟩ ⟨rfl, howns, hadv⟩
  exact ⟨⟨h.table.rolledBack.advance hadv, howns, h.rolledBack_capacity⟩, hadv, rfl, rfl⟩

theorem Held.poison (h : Held exclusive shared pool seq) (reservation : SequenceReservation) :
    Keeps (CallKeeps exclusive shared pool seq) (SequenceState.poison reservation)
      ⟨seq, pool⟩ := by
  rcases Classical.em (∃ pending, seq.pending = some pending ∧ reservation = seq.token pending)
    with ⟨pending, hpending, rfl⟩ | hrefused
  · apply keeps_of_wp (wp_poison h.table hpending h.owns)
    rintro _ ⟨seq', pool'⟩ ⟨rfl, howns, hadv⟩
    exact ⟨⟨(h.table.rolledBack.poisoned true).advance hadv, howns, h.rolledBack_capacity⟩,
      hadv, rfl, rfl⟩
  · unfold SequenceState.poison
    apply wp_read
    apply keeps_read h.refused
    intro _ _
    apply keeps_read h.refused
    intro _ hvalid
    exact absurd (validateReservation_eq_ok hvalid) hrefused

theorem Held.rollbackAbandonedReservation (h : Held exclusive shared pool seq) :
    Keeps (CallKeeps exclusive shared pool seq) SequenceState.rollbackAbandonedReservation
      ⟨seq, pool⟩ := by
  unfold SequenceState.rollbackAbandonedReservation
  apply wp_read
  apply keeps_read h.refused
  intro _ _
  apply keeps_reject h.refused
  intro hpending
  apply wp_write
  have hsome : seq.pending.isSome = true :=
    Option.isSome_iff_ne_none.mpr fun hnone => hpending (Option.isNone_iff_eq_none.mpr hnone)
  have howns : Owns pool (({ seq with poisoned := true } : SequenceState).exclusiveHolds +
      exclusive) (({ seq with poisoned := true } : SequenceState).sharedHolds + shared) := h.owns
  apply keeps_of_wp (wp_rollbackPending (h.table.poisoned true) hsome howns)
  rintro _ ⟨seq', pool'⟩ ⟨rfl, howns', hadv⟩
  exact ⟨⟨(h.table.poisoned true).rolledBack.advance hadv, howns', h.rolledBack_capacity⟩,
    hadv, rfl, rfl⟩

theorem Held.reset (h : Held exclusive shared pool seq) :
    Keeps (CallKeeps exclusive shared pool seq) SequenceState.reset ⟨seq, pool⟩ := by
  apply keeps_of_wp (wp_reset h.table h.owns)
  rintro _ ⟨seq', pool'⟩ ⟨rfl, howns, hadv⟩
  refine ⟨⟨h.table.cleared.advance hadv, ?_, Nat.zero_le _⟩, hadv, rfl, rfl⟩
  have hnone : seq.cleared.exclusiveHolds = 0 ∧ seq.cleared.sharedHolds = 0 := ⟨rfl, rfl⟩
  rw [hnone.1, hnone.2, zero_add, zero_add]
  exact howns

/-- A live shared block is one that somebody holds. -/
theorem Owns.mem_of_sharedReferences {block : BlockId} {references : Nat}
    (h : Owns pool exclusive shared) (href : pool.sharedReferences block = .ok references) :
    block ∈ shared ∧ references = shared.count block := by
  unfold KvBlockPool.sharedReferences at href
  obtain ⟨_, hindex, href⟩ := except_bind_eq_ok.mp href
  unfold KvBlockPool.validateBlockIndex at hindex
  split_ifs at hindex with hcookie hlt
  simp only at href
  split_ifs at href with hgeneration howner hzero
  cases href
  obtain ⟨owner, howner⟩ := Option.ne_none_iff_exists'.mp
    fun hnone => howner (Option.isNone_iff_eq_none.mpr hnone)
  have hcell : pool.cell block = .shared (pool.slot block.physicalIndex).sharedReferences := by
    unfold KvBlockPool.cell BlockSlot.holders
    rw [if_pos ⟨not_not.mp hcookie, Nat.lt_of_not_le hlt, not_not.mp hgeneration⟩, howner]
    exact if_neg hzero
  refine ⟨h.accounts.mem_shared.mpr ⟨_, hcell⟩, ?_⟩
  rw [h.accounts.shared_count, hcell]
  rfl

/-- Whole blocks up to the end of the U32 range fit every table made under
that bound. -/
theorem whole_blocks_fit (hmaximum : seq.maximumLogicalLength ≤ KvSystem.longestWholeLength)
    (hroom : seq.sharedBlockCount < seq.maximumBlockCount) :
    (seq.sharedBlockCount + 1) * kvBlockSize ≤ u32Max := by
  unfold SequenceState.maximumBlockCount blocksForLength KvSystem.longestWholeLength kvBlockSize
    u32Max at *
  omega

theorem Held.adoptSharedBlock (h : Held exclusive shared pool seq)
    (hmaximum : seq.maximumLogicalLength ≤ KvSystem.longestWholeLength) (block : BlockId) :
    Keeps (CallKeeps exclusive shared pool seq) (SequenceState.adoptSharedBlock block)
      ⟨seq, pool⟩ := by
  rcases Classical.em (AllShared pool seq ∧ seq.sharedBlockCount ≠ seq.maximumBlockCount ∧
      block ∈ seq.sharedHolds + shared ∧ (seq.sharedHolds + shared).count block < u32Max)
    with ⟨hall, hroom, hmem, hbelow⟩ | hrefused
  · have hbelow' := Nat.lt_of_le_of_ne (hall.blocks ▸ h.capacity) hroom
    have hfits := whole_blocks_fit hmaximum hbelow'
    apply keeps_of_wp (wp_adoptSharedBlock hall h.owns hmem hroom hfits hbelow)
    rintro _ ⟨seq', pool'⟩ ⟨rfl, howns, hadv, _⟩
    obtain ⟨hexclusive, hshared⟩ := holds_adopted hall block
    rw [← Multiset.cons_add, ← hshared, ← hexclusive] at howns
    refine ⟨⟨(hall.adopted block).ready.table.advance hadv, howns, ?_⟩, hadv, rfl, rfl⟩
    rw [(hall.adopted block).blocks]
    exact hbelow'
  · unfold SequenceState.adoptSharedBlock
    apply wp_read
    apply keeps_read h.refused
    intro _ hmutable
    apply keeps_reject h.refused
    intro hpending
    apply keeps_reject h.refused
    intro hprivate
    apply keeps_reject h.refused
    intro hroom
    apply keeps_read h.refused
    intro references href
    apply keeps_some h.refused
    intro incremented hincremented
    obtain ⟨hmem, rfl⟩ := h.owns.mem_of_sharedReferences href
    have hall : AllShared pool seq :=
      ⟨h.ready hpending (ensureMutable_ok hmutable), not_not.mp hprivate⟩
    have hlength : seq.allocatedBlockCount = seq.sharedBlockCount := hall.blocks
    rw [hlength] at hroom
    exact absurd ⟨hall, hroom, hmem, (checkedAdd_eq_some.mp hincremented).2⟩ hrefused

/-- The sequence cut down to a shorter length. -/
def SequenceState.truncated (target : Nat) (seq : SequenceState) : SequenceState :=
  { seq.keep (blocksForLength target) with
    logicalLength := target
    validTokens := canonicalTokens target }

theorem Ready.truncated {target : Nat} (h : Ready pool seq) (hle : target ≤ seq.logicalLength)
    (hshared : seq.sharedBlockCount * kvBlockSize ≤ target) :
    SequenceTable pool (seq.truncated target) := by
  have hblocks := h.table.blocks
  rw [h.visibleLength] at hblocks
  have hmono := blocksForLength_mono hle
  have hvisible : (seq.truncated target).visibleLength = target := by
    simp [SequenceState.visibleLength, SequenceState.truncated, SequenceState.keep, h.pending]
  constructor
  · exact h.table.cookie
  · exact h.table.id_cookie
  · exact h.table.id_pos
  · exact h.table.id_lt
  · exact h.table.maximum_le
  · exact Nat.le_trans (Nat.mul_le_mul_right _ (Nat.min_le_left _ _)) hshared
  · rw [hvisible]
    simp only [SequenceState.truncated, SequenceState.keep, List.length_take]
    omega
  · rw [hvisible]
    rfl
  · intro pending hpending
    exact absurd hpending (by simp [SequenceState.truncated, SequenceState.keep, h.pending])

/-- The release of a truncation, once its checks have passed. -/
theorem Held.releaseTo {target : Nat} {pool' : KvBlockPool}
    (h : Held exclusive shared pool seq) (hready : Ready pool seq)
    (hle : target ≤ seq.logicalLength)
    (hshared : seq.sharedBlockCount * kvBlockSize ≤ target) (hsame : SameHolders pool pool') :
    Keeps (CallKeeps exclusive shared pool seq)
      (do
        SequenceState.releaseTail (blocksForLength target)
        modifySeq fun seq => { seq with logicalLength := target }
        modifySeq (SequenceState.fillValidTokens target (blocksForLength target)))
      ⟨seq, pool'⟩ := by
  have hblocks := h.table.blocks
  rw [hready.visibleLength] at hblocks
  have hmono := blocksForLength_mono hle
  have hrest : seq.blockIds.length - (seq.allocatedBlockCount - blocksForLength target) =
      blocksForLength target := by
    unfold SequenceState.allocatedBlockCount
    omega
  have hrelease := wp_releaseLasts (seq.allocatedBlockCount - blocksForLength target)
    (h.owns.sameHolders hsame) h.table.shared_le_length h.table.valid_length (Nat.sub_le _ _)
  rw [hrest] at hrelease
  unfold SequenceState.releaseTail
  apply wp_seq
  apply wp_read
  apply wp_mono hrelease
  · rintro _ ⟨seq', pool''⟩ ⟨rfl, howns, hadv, _⟩
    apply wp_write
    have hlength : ({ seq.keep (blocksForLength target) with logicalLength := target } :
        SequenceState).blockIds.length = blocksForLength target := by
      simp only [SequenceState.keep, List.length_take]
      omega
    have hadv' := hsame.advances.trans hadv
    simp only [modifySeq, wp_modify, SequenceState.fillValidTokens_eq hlength]
    refine ⟨⟨(hready.truncated hle hshared).advance hadv', howns, ?_⟩, hadv', rfl, rfl⟩
    exact Nat.le_trans (List.length_take_le' _ _) h.capacity
  · exact fun _ _ hfalse => hfalse.elim

theorem Held.truncateTo (h : Held exclusive shared pool seq) (target : Nat) :
    Keeps (CallKeeps exclusive shared pool seq) (SequenceState.truncateTo target)
      ⟨seq, pool⟩ := by
  unfold SequenceState.truncateTo
  apply wp_read
  apply keeps_read h.refused
  intro _ hmutable
  apply keeps_reject h.refused
  intro hpending
  have hready := h.ready hpending (ensureMutable_ok hmutable)
  have hblocks := h.table.blocks
  rw [hready.visibleLength] at hblocks
  apply keeps_reject h.refused
  intro hle
  apply keeps_reject h.refused
  intro hshared
  have hfewer := blocksForLength_mono (Nat.le_of_not_lt hle)
  have hrelease : ∀ {pool'}, SameHolders pool pool' → _ := fun hsame =>
    h.releaseTo hready (Nat.le_of_not_lt hle) (Nat.le_of_not_lt hshared) hsame
  apply wp_seq
  apply wp_checkPass
  · intro index hindex
    have hrange := List.mem_range'_1.mp hindex
    have hlt : index < seq.blockIds.length := by
      unfold SequenceState.allocatedBlockCount at hrange
      omega
    rw [wp_fromExcept, validateHeldBlock_ok h.owns hlt]
    exact ⟨nofun, fun _ _ => rfl⟩
  apply wp_seq
  have hlast : wp (runIf (blocksForLength target ≠ 0 ∧ target ≠ seq.logicalLength)
        (fromExcept (seq.validateHeldBlock pool (blocksForLength target - 1))))
      (fun _ state => state = ⟨seq, pool⟩) (fun (_ : PagedKvError) _ => False)
      (⟨seq, pool⟩ : KvState) := by
    rw [wp_runIf, wp_fromExcept]
    refine ⟨fun hne => ?_, fun _ => rfl⟩
    rw [validateHeldBlock_ok h.owns (by omega)]
    exact ⟨nofun, fun _ _ => rfl⟩
  apply wp_mono hlast _ (fun _ _ hfalse => hfalse.elim)
  rintro _ _ rfl
  apply wp_seq
  rw [wp_runIf]
  constructor
  · rintro ⟨hprivate, _⟩
    have hlt : blocksForLength target - 1 < seq.blockIds.length := by
      omega
    have hvalid := validatePrivate_ok h.owns (Nat.le_sub_one_of_lt hprivate) hlt
    apply wp_ofOk (allocatedBlock_ok hlt)
    unfold KvBlockPool.clearSidecar onPool
    rw [wp_zoom]
    apply wp_read
    apply wp_ofOk hvalid
    rw [wp_set]
    exact hrelease (sameHolders_dropSidecar pool _)
  · intro _
    exact hrelease ⟨rfl, rfl, rfl, rfl, rfl, rfl, fun _ => ⟨rfl, rfl, rfl⟩⟩

/-- Replacing the sidecar of a slot. -/
theorem sameHolders_setSidecar (pool : KvBlockPool) (index : Nat)
    (metadata : OptionalBlockMetadata) (count bytes : Nat) :
    SameHolders pool
      { pool.setSlot index { pool.slot index with sidecar := some metadata } with
        sidecarCount := count
        sidecarDeviceBytes := bytes } := by
  refine ⟨rfl, rfl, KvBlockPool.slots_length_setSlot _ _ _, rfl, rfl, rfl, fun other => ?_⟩
  have hslot := pool.slot_setSlot index { pool.slot index with sidecar := some metadata } other
  change ((pool.setSlot index _).slot other).generation = _ ∧
    ((pool.setSlot index _).slot other).owner = _ ∧
    ((pool.setSlot index _).slot other).sharedReferences = _
  rw [hslot]
  split_ifs with hindex
  · rw [hindex.1]
    exact ⟨rfl, rfl, rfl⟩
  · exact ⟨rfl, rfl, rfl⟩

theorem Held.attachSidecar (h : Held exclusive shared pool seq) (logicalBlockIndex : Nat)
    (metadata : OptionalBlockMetadata) :
    Keeps (CallKeeps exclusive shared pool seq)
      (SequenceState.attachSidecar logicalBlockIndex metadata) ⟨seq, pool⟩ := by
  unfold SequenceState.attachSidecar
  apply wp_read
  apply keeps_read h.refused
  intro _ _
  apply keeps_read h.refused
  intro _ _
  apply keeps_read h.refused
  intro block _
  unfold onPool
  apply (wp_zoom _ _ _ _ _).mpr
  unfold KvBlockPool.attachSidecar
  apply wp_read
  apply wp_seq
  rw [wp_fromExcept]
  refine ⟨fun _ _ => h.refused, fun _ _ => ?_⟩
  apply wp_check
  · exact fun _ => h.refused
  intro _
  apply wp_seq
  rw [wp_orReject]
  refine ⟨fun _ => h.refused, fun bytes _ => ?_⟩
  rw [wp_set]
  have hsame := sameHolders_setSidecar pool block.physicalIndex metadata
    (if (pool.slot block.physicalIndex).sidecar.isNone = true then pool.sidecarCount + 1
      else pool.sidecarCount) bytes
  exact ⟨⟨h.table.advance hsame.advances, h.owns.sameHolders hsame, h.capacity⟩,
    hsame.advances, rfl, rfl⟩

/-- Sharing a block hands one hold to the caller. -/
theorem Held.shareNextBlock (h : Held exclusive shared pool seq) :
    wp SequenceState.shareNextBlock
      (fun block state => CallKeeps exclusive (block ::ₘ shared) pool seq state)
      (fun _ state => CallKeeps exclusive shared pool seq state) ⟨seq, pool⟩ := by
  rcases Classical.em (Ready pool seq ∧
    (seq.sharedBlockCount + 1) * kvBlockSize ≤ seq.logicalLength) with ⟨hready, hfull⟩ | hrefused
  · apply wp_mono (wp_shareNextBlock hready h.owns hfull)
    · rintro block ⟨seq', pool'⟩ ⟨_, rfl, howns, hadv, _⟩
      exact ⟨⟨(hready.listedNext hfull).table.advance hadv, howns, h.capacity⟩, hadv, rfl, rfl⟩
    · exact fun _ _ hfalse => hfalse.elim
  · unfold SequenceState.shareNextBlock
    apply wp_read
    apply wp_seq
    rw [wp_fromExcept]
    refine ⟨fun _ _ => h.refused, fun _ hmutable => ?_⟩
    apply wp_check
    · exact fun _ => h.refused
    intro hpending
    apply wp_check
    · exact fun _ => h.refused
    intro hfull
    exact absurd ⟨h.ready hpending (ensureMutable_ok hmutable), Nat.le_of_not_lt hfull⟩ hrefused

/-- A call whose result nobody looks at. -/
theorem keeps_ignore {α : Type} {kept : KvState → Prop} {state : KvState} {action : KvM α}
    (h : Keeps kept action state) :
    Keeps kept (do
      let _ ← action) state :=
  wp_seq h

/-- Every call with any arguments keeps the table and the books. -/
theorem Held.call (h : Held exclusive shared pool seq)
    (hmaximum : seq.maximumLogicalLength ≤ KvSystem.longestWholeLength) (call : SequenceCall) :
    CallKeeps exclusive shared pool seq (after call.run ⟨seq, pool⟩) := by
  apply after_of_wp
  cases call with
  | reserveTo target => exact keeps_ignore (h.reserveTo target)
  | commit reservation => exact keeps_ignore (h.commit reservation)
  | rollback reservation => exact h.rollback reservation
  | poison reservation => exact h.poison reservation
  | rollbackAbandonedReservation => exact h.rollbackAbandonedReservation
  | truncateTo target => exact h.truncateTo target
  | reset => exact h.reset
  | close => exact h.reset
  | adoptSharedBlock block => exact h.adoptSharedBlock hmaximum block
  | attachSidecar logicalBlockIndex metadata => exact h.attachSidecar logicalBlockIndex metadata

end Calls

end Riley.PagedKv
