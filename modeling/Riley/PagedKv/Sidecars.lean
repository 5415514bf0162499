import Mathlib
import Riley.Library.Focus
import Riley.PagedKv.Stale

/-!
Accounting for the sidecars of blocks. The two totals of the pool are kept by every edit, a
slot without an owner has no sidecar, and a commit takes the sidecars of the blocks it writes.
-/

namespace Riley.PagedKv

open Outcome Relation Holdings Focus

/-- What one slot adds to the count of sidecars. -/
def BlockSlot.sidecarTally (slot : BlockSlot) : Nat :=
  if slot.sidecar.isSome then 1 else 0

structure SidecarsOk (pool : KvBlockPool) : Prop where
  count : pool.sidecarCount = (pool.slots.map BlockSlot.sidecarTally).sum
  bytes : pool.sidecarDeviceBytes = (pool.slots.map BlockSlot.sidecarBytes).sum
  /-- A slot that nobody owns has no sidecar. -/
  bare : ∀ index, (pool.slot index).owner = none → (pool.slot index).sidecar = none
  /-- The slots on the free list are unowned, each listed once. -/
  free : ∀ index ∈ pool.freeList, (pool.slot index).owner = none
  nodup : pool.freeList.Nodup

section Edit

variable {attaching : Bool} {pool pool' : KvBlockPool} {block : BlockId} {owner : SequenceId}

theorem getElem?_slots {index : Nat} {slot : BlockSlot} (h : pool.slots[index]? = some slot) :
    pool.slot index = slot := by
  unfold KvBlockPool.slot
  rw [List.getD_eq_getElem?_getD, h]
  rfl

theorem slots_getElem? {index : Nat} (h : index < pool.slots.length) :
    pool.slots[index]? = some (pool.slot index) := by
  rw [getElem?_slots (List.getElem?_eq_getElem h)]
  exact List.getElem?_eq_getElem h

/-- A slot that changes hands keeps its sidecar, and the totals hold. -/
theorem SidecarsOk.setSlot (h : SidecarsOk pool) {index : Nat} {slot : BlockSlot}
    (hsidecar : slot.sidecar = (pool.slot index).sidecar)
    (hbare : slot.owner = none → slot.sidecar = none) :
    pool.sidecarCount = ((pool.setSlot index slot).slots.map BlockSlot.sidecarTally).sum ∧
      pool.sidecarDeviceBytes =
        ((pool.setSlot index slot).slots.map BlockSlot.sidecarBytes).sum ∧
      ∀ other, ((pool.setSlot index slot).slot other).owner = none →
        ((pool.setSlot index slot).slot other).sidecar = none := by
  refine ⟨?_, ?_, fun other => ?_⟩
  · rw [h.count]
    refine (sum_replace_same pool.slots index slot _ fun a ha => ?_).symm
    rw [← getElem?_slots ha, BlockSlot.sidecarTally, hsidecar]
    rfl
  · rw [h.bytes]
    refine (sum_replace_same pool.slots index slot _ fun a ha => ?_).symm
    rw [← getElem?_slots ha, BlockSlot.sidecarBytes, hsidecar]
    rfl
  · rw [KvBlockPool.slot_setSlot]
    split
    · exact hbare
    · exact h.bare other

theorem lt_of_sidecar {index : Nat} {sidecar : OptionalBlockMetadata}
    (h : (pool.slot index).sidecar = some sidecar) : index < pool.slots.length := by
  by_contra hout
  rw [slot_of_ge (Nat.not_lt.mp hout)] at h
  cases h

theorem sidecar_dropSidecar (pool : KvBlockPool) (index other : Nat) :
    ((pool.dropSidecar index).slot other).sidecar =
      if other = index then none else (pool.slot other).sidecar := by
  unfold KvBlockPool.dropSidecar
  cases hsidecar : (pool.slot index).sidecar with
  | none =>
      simp only
      split
      next heq => rw [heq, hsidecar]
      · rfl
  | some sidecar =>
      have hset := pool.slot_setSlot index (pool.slot index).withoutSidecar other
      refine (congrArg BlockSlot.sidecar hset).trans ?_
      by_cases heq : other = index
      · rw [if_pos ⟨heq, lt_of_sidecar hsidecar⟩, if_pos heq]
        rfl
      · rw [if_neg fun hboth => heq hboth.1, if_neg heq]

/-- Dropping a sidecar takes from the totals what its slot had added. -/
theorem totals_dropSidecar (h : SidecarsOk pool) (index : Nat) :
    (pool.dropSidecar index).sidecarCount =
        ((pool.dropSidecar index).slots.map BlockSlot.sidecarTally).sum ∧
      (pool.dropSidecar index).sidecarDeviceBytes =
        ((pool.dropSidecar index).slots.map BlockSlot.sidecarBytes).sum := by
  unfold KvBlockPool.dropSidecar
  cases hsidecar : (pool.slot index).sidecar with
  | none => exact ⟨h.count, h.bytes⟩
  | some sidecar =>
      have hget := slots_getElem? (lt_of_sidecar hsidecar)
      have hcount := sum_replace hget (pool.slot index).withoutSidecar BlockSlot.sidecarTally
      have hbytes := sum_replace hget (pool.slot index).withoutSidecar BlockSlot.sidecarBytes
      rw [← h.count] at hcount
      rw [← h.bytes] at hbytes
      simp only [BlockSlot.sidecarTally, BlockSlot.sidecarBytes, BlockSlot.withoutSidecar,
        hsidecar, Option.isSome_some, Option.isSome_none, if_true, Bool.false_eq_true,
        if_false, Nat.add_zero] at hcount hbytes
      exact ⟨Nat.sub_eq_of_eq_add hcount.symm, Nat.sub_eq_of_eq_add hbytes.symm⟩

theorem SidecarsOk.dropSidecar (h : SidecarsOk pool) (index : Nat) :
    SidecarsOk (pool.dropSidecar index) := by
  obtain ⟨-, -, -, hfree, -⟩ := pool.dropSidecar_frame index
  obtain ⟨hcount, hbytes⟩ := totals_dropSidecar h index
  refine ⟨hcount, hbytes, fun other hnone => ?_, fun other hmem => ?_, hfree ▸ h.nodup⟩
  · rw [(pool.dropSidecar_slot index other).2.1] at hnone
    rw [sidecar_dropSidecar]
    split
    · rfl
    · exact h.bare other hnone
  · rw [(pool.dropSidecar_slot index other).2.1]
    exact h.free other (hfree ▸ hmem)

/-- A sidecar that is attached replaces what its slot had added to the totals. -/
theorem totals_attach (h : SidecarsOk pool) {index : Nat} (hlt : index < pool.slots.length)
    (metadata : OptionalBlockMetadata) :
    (if (pool.slot index).sidecar.isNone then pool.sidecarCount + 1 else pool.sidecarCount) =
        ((pool.setSlot index { pool.slot index with sidecar := some metadata }).slots.map
          BlockSlot.sidecarTally).sum ∧
      pool.sidecarDeviceBytes - (pool.slot index).sidecarBytes + metadata.byteLen =
        ((pool.setSlot index { pool.slot index with sidecar := some metadata }).slots.map
          BlockSlot.sidecarBytes).sum := by
  have hget := slots_getElem? hlt
  constructor
  · have hcount : _ + _ = _ + 1 := sum_replace hget
      { pool.slot index with sidecar := some metadata } BlockSlot.sidecarTally
    rw [← h.count] at hcount
    unfold BlockSlot.sidecarTally at hcount
    unfold KvBlockPool.setSlot
    cases hsidecar : (pool.slot index).sidecar with
    | none =>
        rw [hsidecar] at hcount
        exact hcount.symm
    | some sidecar =>
        rw [hsidecar] at hcount
        exact (Nat.add_right_cancel hcount).symm
  · have hbytes : _ + _ = _ + metadata.byteLen := sum_replace hget
      { pool.slot index with sidecar := some metadata } BlockSlot.sidecarBytes
    have hrest := sum_focus hget BlockSlot.sidecarBytes
    rw [← h.bytes] at hbytes hrest
    unfold KvBlockPool.setSlot
    simp only at hbytes ⊢
    omega

theorem PoolEdit.sidecarsOk (h : PoolEdit attaching pool pool') (hok : SidecarsOk pool) :
    SidecarsOk pool' := by
  cases h with
  | @allocate _ owner block hrun =>
      obtain ⟨rest, hlist, -, -, -, rfl⟩ := allocateBlock_eq_ok hrun
      have hnodup := hok.nodup
      rw [hlist] at hnodup
      obtain ⟨hfresh, hnodup⟩ := List.nodup_cons.mp hnodup
      obtain ⟨hcount, hbytes, hbare⟩ := @SidecarsOk.setSlot pool hok block.physicalIndex
        { pool.slot block.physicalIndex with
          generation := block.generation
          owner := some owner } rfl nofun
      refine ⟨hcount, hbytes, hbare, fun index hmem => ?_, hnodup⟩
      have hne : index ≠ block.physicalIndex := fun heq => hfresh (heq ▸ hmem)
      refine (congrArg BlockSlot.owner (KvBlockPool.slot_setSlot_of_ne _ hne)).trans ?_
      exact hok.free index (hlist ▸ List.mem_cons_of_mem _ hmem)
  | @hold index owner references hlt hlive =>
      obtain ⟨hcount, hbytes, hbare⟩ := @SidecarsOk.setSlot pool hok index
        (((pool.slot index).withOwner (some owner)).withReferences references) rfl nofun
      refine ⟨hcount, hbytes, hbare, fun other hmem => ?_, hok.nodup⟩
      have hnone := hok.free other hmem
      have hne : other ≠ index := by
        intro heq
        rw [← heq, hnone] at hlive
        cases hlive
      rw [KvBlockPool.slot_setSlot_of_ne _ hne]
      exact hnone
  | clear index => exact hok.dropSidecar index
  | @release index hlt hlive =>
      have hdrop := hok.dropSidecar index
      obtain ⟨-, -, -, hfree, -⟩ := pool.dropSidecar_frame index
      have hnone : ((pool.dropSidecar index).slot index).sidecar = none := by
        rw [sidecar_dropSidecar, if_pos rfl]
      obtain ⟨hcount, hbytes, hbare⟩ := @SidecarsOk.setSlot _ hdrop index
        (((pool.dropSidecar index).slot index).withOwner none) rfl fun _ => hnone
      refine ⟨hcount, hbytes, hbare, fun other hmem => ?_, ?_⟩
      · rw [(slot_releaseSlot pool index other).2.2]
        split
        · rfl
        next hne =>
          exact hok.free other (hfree ▸ (List.mem_cons.mp hmem).resolve_left hne)
      · refine List.nodup_cons.mpr ⟨fun hmem => ?_, hdrop.nodup⟩
        rw [hok.free index (hfree ▸ hmem)] at hlive
        cases hlive
  | @attach _ block owner metadata _ hrun =>
      obtain ⟨haccepts, rfl⟩ := attachSidecar_eq_ok hrun
      obtain ⟨-, hlt, -, howner⟩ := validateBlock_eq_ok haccepts.valid
      let covered := { pool.slot block.physicalIndex with sidecar := some metadata }
      obtain ⟨hcount, hbytes⟩ := totals_attach hok hlt metadata
      refine ⟨hcount, hbytes, fun index hnone => ?_, fun index hmem => ?_, hok.nodup⟩
      · have hslot := pool.slot_setSlot block.physicalIndex covered index
        change ((pool.setSlot block.physicalIndex covered).slot index).sidecar = none
        change ((pool.setSlot block.physicalIndex covered).slot index).owner = none at hnone
        rw [hslot] at hnone ⊢
        split at hnone
        · rw [show covered.owner = some owner from howner] at hnone
          cases hnone
        next hne =>
          rw [if_neg hne]
          exact hok.bare index hnone
      · have hnone := hok.free index hmem
        have hne : index ≠ block.physicalIndex := by
          intro heq
          rw [heq, howner] at hnone
          cases hnone
        exact (congrArg BlockSlot.owner (KvBlockPool.slot_setSlot_of_ne covered hne)).trans hnone
  | identify next => exact ⟨hok.count, hok.bytes, hok.bare, hok.free, hok.nodup⟩

theorem Edits.sidecarsOk (h : Edits attaching pool pool') (hok : SidecarsOk pool) : SidecarsOk pool' := by
  induction h with
  | refl => exact hok
  | tail _ hedit ih => exact hedit.sidecarsOk ih

theorem sidecarsOk_new (cookie : Nat) (layout : KvLayout) :
    SidecarsOk (KvBlockPool.new cookie layout) := by
  refine ⟨?_, ?_, fun index _ => ?_, fun index _ => ?_, List.nodup_range⟩
  · simp [KvBlockPool.new, BlockSlot.sidecarTally, BlockSlot.vacant]
  · simp [KvBlockPool.new, BlockSlot.sidecarBytes, BlockSlot.vacant]
  · rw [slot_new]
    rfl
  · rw [slot_new]
    rfl

/-- The sidecars that are there were there before, on the same allocation. -/
def Carries (pool pool' : KvBlockPool) : Prop :=
  ∀ index metadata, (pool'.slot index).sidecar = some metadata →
    (pool.slot index).sidecar = some metadata ∧
      (pool'.slot index).generation = (pool.slot index).generation

theorem carries_dropSidecar (pool : KvBlockPool) (index : Nat) :
    Carries pool (pool.dropSidecar index) := by
  intro other metadata hsome
  rw [sidecar_dropSidecar] at hsome
  split at hsome
  · cases hsome
  · exact ⟨hsome, (pool.dropSidecar_slot index other).1⟩

/-- A block that is handed out has no sidecar. -/
theorem bare_allocated (h : SidecarsOk pool)
    (hrun : KvBlockPool.allocateBlock owner pool = .ok block pool') :
    (pool'.slot block.physicalIndex).sidecar = none := by
  obtain ⟨rest, hlist, -, -, -, rfl⟩ := allocateBlock_eq_ok hrun
  have hbare := h.bare _ (h.free block.physicalIndex (hlist ▸ List.mem_cons_self))
  refine (congrArg BlockSlot.sidecar (KvBlockPool.slot_setSlot pool _ _ _)).trans ?_
  split
  · exact hbare
  · exact hbare

/-- Edits that do not attach bring no sidecar to a slot, and none past an allocation. -/
theorem PoolEdit.carries (h : PoolEdit false pool pool') (hok : SidecarsOk pool) :
    Carries pool pool' := by
  cases h with
  | @allocate _ owner block hrun =>
      intro index metadata hsome
      by_cases heq : index = block.physicalIndex
      · rw [heq, bare_allocated hok hrun] at hsome
        cases hsome
      · obtain ⟨rest, -, -, -, -, rfl⟩ := allocateBlock_eq_ok hrun
        have hslot := @KvBlockPool.slot_setSlot_of_ne pool _ _ {
          pool.slot block.physicalIndex with
          generation := block.generation
          owner := some owner } heq
        exact ⟨(congrArg BlockSlot.sidecar hslot).symm.trans hsome,
          congrArg BlockSlot.generation hslot⟩
  | @hold index owner references hlt hlive =>
      intro other metadata hsome
      rw [KvBlockPool.slot_setSlot] at hsome ⊢
      split at hsome
      next heq =>
        rw [if_pos heq, heq.1]
        exact ⟨hsome, rfl⟩
      next hne =>
        rw [if_neg hne]
        exact ⟨hsome, rfl⟩
  | clear index => exact carries_dropSidecar pool index
  | @release index hlt hlive =>
      intro other metadata hsome
      have hslot := (pool.dropSidecar index).slot_setSlot index
        (((pool.dropSidecar index).slot index).withOwner none) other
      have hsame := (congrArg BlockSlot.sidecar hslot).symm.trans hsome
      have hdropped : ((pool.dropSidecar index).slot other).sidecar = some metadata := by
        split at hsame
        next heq =>
          rw [heq.1]
          exact hsame
        · exact hsame
      exact ⟨(carries_dropSidecar pool index other metadata hdropped).1,
        (slot_releaseSlot pool index other).1⟩
  | attach hattaching _ => cases hattaching
  | identify next => exact fun _ _ hsome => ⟨hsome, rfl⟩

theorem Edits.carries (h : Edits false pool pool') (hok : SidecarsOk pool) :
    Carries pool pool' := by
  induction h with
  | refl => exact fun _ _ hsome => ⟨hsome, rfl⟩
  | tail hedits hedit ih =>
      intro index metadata hsome
      obtain ⟨hmiddle, hgeneration⟩ :=
        hedit.carries (Edits.sidecarsOk hedits hok) index metadata hsome
      obtain ⟨hfirst, hgeneration'⟩ := ih index metadata hmiddle
      exact ⟨hfirst, hgeneration.trans hgeneration'⟩

end Edit

section Calls

variable {pool : KvBlockPool} {seq : SequenceState}

/-- Clearing sidecars over a table leaves none on the entries it visited. -/
theorem wp_clearAll (indices : List Nat) :
    wp (forEach indices fun index => do
        let block ← fromExcept (seq.allocatedBlock index)
        onPool (KvBlockPool.clearSidecar block seq.sequenceId))
      (fun _ state => ∀ index ∈ indices, ∀ block, seq.blockIds[index]? = some block →
        (state.pool.slot block.physicalIndex).sidecar = none)
      (fun _ _ => True) ⟨seq, pool⟩ := by
  apply wp_forEach (fun rest state => ∀ index ∈ indices, index ∉ rest →
    ∀ block, seq.blockIds[index]? = some block →
      (state.pool.slot block.physicalIndex).sidecar = none)
  · intro index rest state hcleared
    refine wp_seq ((wp_fromExcept _).mpr ⟨fun _ _ => trivial, fun block hblock => ?_⟩)
    unfold onPool
    rw [wp_zoom]
    apply wp_read
    refine wp_seq ((wp_fromExcept _).mpr ⟨fun _ _ => trivial, fun _ _ => ?_⟩)
    intro other hother hrest entry hentry
    rw [sidecar_dropSidecar]
    split
    · rfl
    next hne =>
      refine hcleared other hother (fun hmem => ?_) entry hentry
      rcases List.mem_cons.mp hmem with rfl | hmem
      · unfold SequenceState.allocatedBlock at hblock
        rw [hentry] at hblock
        cases hblock
        exact hne rfl
      · exact hrest hmem
  · exact fun state hcleared index hindex => hcleared index hindex List.not_mem_nil
  · exact fun index hindex hrest => absurd hindex hrest

/-- A commit leaves no sidecar on a block that it wrote a position of. -/
theorem wp_commit_bare (reservation : SequenceReservation) :
    wp (SequenceState.commit reservation)
      (fun _ state => ∀ position, seq.logicalLength ≤ position →
        position < reservation.targetLogicalLength →
        ∀ block, seq.blockIds[position / kvBlockSize]? = some block →
          (state.pool.slot block.physicalIndex).sidecar = none)
      (fun _ _ => True) ⟨seq, pool⟩ := by
  apply wp_read
  refine wp_seq ((wp_fromExcept _).mpr ⟨fun _ _ => trivial, fun _ _ => ?_⟩)
  refine wp_seq ((wp_fromExcept _).mpr ⟨fun _ _ => trivial, fun _ _ => ?_⟩)
  apply wp_seq
  apply wp_forEach (fun _ state => state = ⟨seq, pool⟩)
  · rintro index rest _ rfl
    refine wp_seq ((wp_fromExcept _).mpr ⟨fun _ _ => trivial, fun block _ => ?_⟩)
    exact (wp_fromExcept _).mpr ⟨fun _ _ => trivial, fun _ _ => rfl⟩
  · rintro _ rfl
    refine wp_call (wp_clearAll _) (fun _ state hcleared => ?_) fun _ _ _ => trivial
    intro position hlower hupper block hblock
    refine hcleared (position / kvBlockSize) ?_ block hblock
    rw [if_pos (Nat.lt_of_le_of_lt hlower hupper), List.mem_range'_1]
    have hfirst : seq.logicalLength / kvBlockSize ≤ position / kvBlockSize :=
      Nat.div_le_div_right hlower
    have hlength : position / kvBlockSize < seq.blockIds.length :=
      (List.getElem?_eq_some_iff.mp hblock).1
    exact ⟨hfirst, by unfold SequenceState.allocatedBlockCount; omega⟩
  · rfl

/-- What lets a sequence attach a sidecar: its committed block is its own. How full the block
is and whether it has a sidecar already play no part. -/
structure Attachable (pool : KvBlockPool) (seq : SequenceState) (logicalBlockIndex : Nat)
    (metadata : OptionalBlockMetadata) (block : BlockId) : Prop where
  readable : seq.ensureReadable = .ok ()
  own : seq.ensurePool pool = .ok ()
  committed : seq.committedBlock logicalBlockIndex = .ok block
  accepts : Accepts pool block seq.sequenceId metadata

theorem wp_attach (logicalBlockIndex : Nat) (metadata : OptionalBlockMetadata) :
    wp (SequenceState.attachSidecar logicalBlockIndex metadata)
      (fun _ state => ∃ block, Attachable pool seq logicalBlockIndex metadata block ∧
        state = ⟨seq, attached pool block.physicalIndex metadata⟩)
      (fun _ state => state = ⟨seq, pool⟩ ∧
        ∀ block, ¬ Attachable pool seq logicalBlockIndex metadata block) ⟨seq, pool⟩ := by
  apply wp_read
  refine wp_seq ((wp_fromExcept _).mpr ⟨fun error herror => ?_, fun _ hreadable => ?_⟩)
  · refine ⟨rfl, fun block h => ?_⟩
    rw [h.readable] at herror
    cases herror
  refine wp_seq ((wp_fromExcept _).mpr ⟨fun error herror => ?_, fun _ hown => ?_⟩)
  · refine ⟨rfl, fun block h => ?_⟩
    rw [h.own] at herror
    cases herror
  refine wp_seq ((wp_fromExcept _).mpr ⟨fun error herror => ?_, fun block hblock => ?_⟩)
  · refine ⟨rfl, fun block h => ?_⟩
    rw [h.committed] at herror
    cases herror
  unfold onPool
  rw [wp_zoom]
  refine wp_mono (wp_attachSidecar pool block seq.sequenceId metadata) ?_ ?_
  · rintro _ _ ⟨haccepts, rfl⟩
    exact ⟨block, ⟨hreadable, hown, hblock, haccepts⟩, rfl⟩
  · rintro error _ ⟨rfl, hrefused⟩
    refine ⟨rfl, fun other h => hrefused ?_⟩
    have hother := h.committed
    rw [hblock] at hother
    cases hother
    exact h.accepts

/-- The step attached this sidecar to the block in this slot. -/
def Attaches (system system' : KvSystem) (index : Nat) (metadata : OptionalBlockMetadata) :
    Prop :=
  ∃ (place : Nat) (seq : SequenceState) (logicalBlockIndex : Nat) (block : BlockId),
    system.sequences[place]? = some (some seq) ∧
    Attachable system.pool seq logicalBlockIndex metadata block ∧
    block.physicalIndex = index ∧
    system'.pool = attached system.pool index metadata

/-- A public call leaves a sidecar where it was, or attached it. -/
theorem carries_step {system system' : KvSystem} (h : KvSystem.Step false system system')
    (hok : SidecarsOk system.pool) {index : Nat} {metadata : OptionalBlockMetadata}
    (hsome : (system'.pool.slot index).sidecar = some metadata) :
    ((system.pool.slot index).sidecar = some metadata ∧
      (system'.pool.slot index).generation = (system.pool.slot index).generation) ∨
    Attaches system system' index metadata := by
  rcases h.edits_or_attach with hedits | ⟨place, seq, call, hattaches, hseq, rfl⟩
  · exact .inl (hedits.carries hok index metadata hsome)
  · cases call with
    | attachSidecar logicalBlockIndex metadata' =>
        have hafter := @after_of_wp _ _ _ _ (fun state : KvState => state.pool = system.pool ∨
            ∃ block, Attachable system.pool seq logicalBlockIndex metadata' block ∧
              state.pool = attached system.pool block.physicalIndex metadata') _
          (wp_mono (@wp_attach system.pool seq logicalBlockIndex metadata')
            (fun _ _ ⟨block, hattachable, hstate⟩ => .inr ⟨block, hattachable, by rw [hstate]⟩)
            fun _ _ hrefused => .inl (by rw [hrefused.1]))
        rcases hafter with hsame | ⟨block, hattachable, hpool⟩
        · have hslot := congrArg (fun pool => KvBlockPool.slot pool index) hsame
          exact .inl ⟨(congrArg BlockSlot.sidecar hslot).symm.trans hsome,
            congrArg BlockSlot.generation hslot⟩
        · have hslot := (congrArg (fun pool => KvBlockPool.slot pool index) hpool).trans
            (system.pool.slot_setSlot block.physicalIndex
              { system.pool.slot block.physicalIndex with sidecar := some metadata' } index)
          have hsidecar := (congrArg BlockSlot.sidecar hslot).symm.trans hsome
          split at hsidecar
          next hself =>
            cases hsidecar
            obtain ⟨rfl, _⟩ := hself
            exact .inr ⟨place, seq, logicalBlockIndex, block, hseq, hattachable, rfl, hpool⟩
          next hother =>
            rw [if_neg hother] at hslot
            exact .inl ⟨hsidecar, congrArg BlockSlot.generation hslot⟩
    | _ => cases hattaches

end Calls

/-- The sidecars of every reachable pool are accounted for. -/
theorem sidecars_accounted {cookie : Nat} {layout : KvLayout} {system : KvSystem}
    (hreachable : KvSystem.Reachable false cookie layout system) :
    system.pool.sidecarCount =
        (system.pool.slots.map fun slot => if slot.sidecar.isSome then 1 else 0).sum ∧
      system.pool.sidecarDeviceBytes =
        (system.pool.slots.map BlockSlot.sidecarBytes).sum ∧
      (∀ index, (system.pool.slot index).owner = none →
        (system.pool.slot index).sidecar = none) ∧
      (∀ owner block pool, KvBlockPool.allocateBlock owner system.pool = .ok block pool →
        (pool.slot block.physicalIndex).sidecar = none) ∧
      (∀ system' index metadata, KvSystem.Step false system system' →
        (system'.pool.slot index).sidecar = some metadata →
        ((system.pool.slot index).sidecar = some metadata ∧
          (system'.pool.slot index).generation = (system.pool.slot index).generation) ∨
        Attaches system system' index metadata) ∧
      (∀ seq reservation result state,
        SequenceState.commit reservation ⟨seq, system.pool⟩ = .ok result state →
        ∀ position, seq.logicalLength ≤ position →
          position < reservation.targetLogicalLength →
          ∀ block, seq.blockIds[position / kvBlockSize]? = some block →
            (state.pool.slot block.physicalIndex).sidecar = none) ∧
      ∀ seq logicalBlockIndex metadata,
        wp (SequenceState.attachSidecar logicalBlockIndex metadata)
          (fun _ state => ∃ block,
            Attachable system.pool seq logicalBlockIndex metadata block ∧
            state = ⟨seq, attached system.pool block.physicalIndex metadata⟩)
          (fun _ state => state = ⟨seq, system.pool⟩ ∧
            ∀ block, ¬ Attachable system.pool seq logicalBlockIndex metadata block)
          ⟨seq, system.pool⟩ := by
  have hok : SidecarsOk system.pool :=
    Edits.sidecarsOk (edits_of_run hreachable) (sidecarsOk_new cookie layout)
  refine ⟨hok.count, hok.bytes, hok.bare, fun owner block pool => bare_allocated hok,
    fun system' index metadata hstep hsome => carries_step hstep hok hsome, ?_, ?_⟩
  · exact fun seq reservation => (wp_elim (wp_commit_bare reservation)).1
  · exact fun seq logicalBlockIndex metadata => wp_attach logicalBlockIndex metadata

/-- A sequence that reserved one token of a block, by whether it is committed and by the sidecar
of the block. -/
def oneToken (committed : Bool) (sidecar : Option OptionalBlockMetadata) : KvState where
  seq := {
    SequenceState.new 7 ⟨7, 1⟩ 16 with
    blockIds := [⟨7, 0, 1⟩]
    validTokens := [1]
    logicalLength := if committed then 1 else 0
    nextReservationNonce := 2
    pending := if committed then none else some ⟨1, 0, 1⟩ }
  pool := {
    KvBlockPool.new 7 ⟨1, 1, 1, 1, Nat.one_pos, one_le_u32Max⟩ with
    slots := [⟨1, some ⟨7, 1⟩, 0, sidecar⟩]
    freeList := []
    allocatedBlockCount := 1
    nextSequenceId := 2
    sidecarCount := if sidecar.isSome then 1 else 0
    sidecarDeviceBytes := (sidecar.map OptionalBlockMetadata.byteLen).getD 0 }

def oneTokenSystem (committed : Bool) (sidecar : Option OptionalBlockMetadata) : KvSystem where
  pool := (oneToken committed sidecar).pool
  sequences := [some (oneToken committed sidecar).seq]
  tokens := []
  redeemed := []
  owed := 0

theorem reachable_oneToken :
    KvSystem.Reachable false 7 ⟨1, 1, 1, 1, Nat.one_pos, one_le_u32Max⟩ (oneTokenSystem true none) := by
  have hcreate : KvSystem.Step false (KvSystem.start 7 ⟨1, 1, 1, 1, Nat.one_pos, one_le_u32Max⟩)
      (oneBlockSystem 0 false) :=
    @KvSystem.Step.create false (KvSystem.start 7 ⟨1, 1, 1, 1, Nat.one_pos, one_le_u32Max⟩) 16 []
      (oneBlock 0 false).seq ((oneBlock 0 false).pool, []) rfl nofun
  have hreserve : KvSystem.Step false (oneBlockSystem 0 false) (oneTokenSystem false none) :=
    @KvSystem.Step.call false (oneBlockSystem 0 false) 0 (oneBlock 0 false).seq (.reserveTo 1) rfl
  have hcommit : KvSystem.Step false (oneTokenSystem false none) (oneTokenSystem true none) :=
    @KvSystem.Step.call false (oneTokenSystem false none) 0 (oneToken false none).seq
      (.commit ⟨7, ⟨7, 1⟩, 1, 0, 1⟩) rfl
  exact ((ReflTransGen.single hcreate).tail hreserve).tail hcommit

/-- A block with one of its sixteen tokens takes a sidecar, and takes another one in its
place. -/
theorem attach_partial_and_covered :
    KvSystem.Reachable false 7 ⟨1, 1, 1, 1, Nat.one_pos, one_le_u32Max⟩ (oneTokenSystem true none) ∧
      SequenceState.attachSidecar 0 ⟨1, 1, 4096, 64⟩ (oneToken true none) =
        .ok () (oneToken true (some ⟨1, 1, 4096, 64⟩)) ∧
      SequenceState.attachSidecar 0 ⟨1, 2, 8192, 32⟩ (oneToken true (some ⟨1, 1, 4096, 64⟩)) =
        .ok () (oneToken true (some ⟨1, 2, 8192, 32⟩)) :=
  ⟨reachable_oneToken, rfl, rfl⟩

/-- The totals of a reachable pool with one sidecar. -/
theorem sidecars_accounted_attached :
    (oneTokenSystem true (some ⟨1, 1, 4096, 64⟩)).pool.sidecarDeviceBytes =
      ((oneTokenSystem true (some ⟨1, 1, 4096, 64⟩)).pool.slots.map
        BlockSlot.sidecarBytes).sum := by
  have hattach : KvSystem.Step false (oneTokenSystem true none)
      (oneTokenSystem true (some ⟨1, 1, 4096, 64⟩)) :=
    @KvSystem.Step.call false (oneTokenSystem true none) 0 (oneToken true none).seq
      (.attachSidecar 0 ⟨1, 1, 4096, 64⟩) rfl
  exact (sidecars_accounted (reachable_oneToken.tail hattach)).2.1

end Riley.PagedKv
