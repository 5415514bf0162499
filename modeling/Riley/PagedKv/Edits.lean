import Riley.Library.Moves
import Riley.PagedKv.CallSpec

/-!
What any public call can do to a pool, said once. Whatever sequence it is run on, with whatever
arguments, a call changes the pool by a list of edits of one slot each, so a property of all
runs needs one case for each edit. Only `attach_sidecar` attaches, so the edits that may are told
apart by a flag. No invariant of the pool is assumed.
-/

namespace Riley.PagedKv

open Outcome Relation

inductive PoolEdit (attaching : Bool) : KvBlockPool → KvBlockPool → Prop
  | allocate {pool pool' : KvBlockPool} {owner : SequenceId} {block : BlockId}
      (hrun : KvBlockPool.allocateBlock owner pool = .ok block pool') : PoolEdit attaching pool pool'
  | hold {pool : KvBlockPool} {index : Nat} (owner : SequenceId) (references : Nat)
      (hlt : index < pool.slots.length) (hlive : (pool.slot index).owner.isSome) :
      PoolEdit attaching pool (pool.setSlot index
        (((pool.slot index).withOwner (some owner)).withReferences references))
  | clear {pool : KvBlockPool} (index : Nat) : PoolEdit attaching pool (pool.dropSidecar index)
  | release {pool : KvBlockPool} {index : Nat} (hlt : index < pool.slots.length)
      (hlive : (pool.slot index).owner.isSome) : PoolEdit attaching pool (pool.releaseSlot index)
  | attach {pool pool' : KvBlockPool} {block : BlockId} {owner : SequenceId}
      {metadata : OptionalBlockMetadata}
      (hattaching : attaching = true)
      (hrun : KvBlockPool.attachSidecar block owner metadata pool = .ok () pool') :
      PoolEdit attaching pool pool'
  | identify {pool : KvBlockPool} (next : Nat) :
      PoolEdit attaching pool { pool with nextSequenceId := next }

/-- The bytes that the sidecar of a slot accounts for. -/
def BlockSlot.sidecarBytes (slot : BlockSlot) : Nat :=
  match slot.sidecar with
  | none => 0
  | some sidecar => sidecar.byteLen

/-- The pools that edits reach. -/
abbrev Edits (attaching : Bool) : KvBlockPool → KvBlockPool → Prop :=
  ReflTransGen (PoolEdit attaching)

/-- The same order on a sequence with its pool. -/
abbrev EditsPool (attaching : Bool) : KvState → KvState → Prop :=
  InvImage (Edits attaching) KvState.pool

variable {attaching : Bool}

instance reflEdits : Std.Refl (Edits attaching) := ⟨fun _ => .refl⟩

instance isTransEdits : IsTrans KvBlockPool (Edits attaching) := ⟨fun _ _ _ => ReflTransGen.trans⟩

section Pool

variable {pool pool' : KvBlockPool} {block : BlockId} {owner : SequenceId}

theorem validateBlockIndex_eq_ok {done : Unit} (h : pool.validateBlockIndex block = .ok done) :
    block.poolCookie = pool.cookie ∧ block.physicalIndex < pool.slots.length := by
  unfold KvBlockPool.validateBlockIndex at h
  split_ifs at h with hforeign hout
  exact ⟨not_not.mp hforeign, Nat.not_le.mp hout⟩

theorem validateBlock_eq_ok {done : Unit} (h : pool.validateBlock block owner = .ok done) :
    block.poolCookie = pool.cookie ∧ block.physicalIndex < pool.slots.length ∧
      (pool.slot block.physicalIndex).generation = block.generation ∧
      (pool.slot block.physicalIndex).owner = some owner := by
  unfold KvBlockPool.validateBlock at h
  obtain ⟨_, hindex, h⟩ := except_bind_eq_ok.mp h
  obtain ⟨hcookie, hlt⟩ := validateBlockIndex_eq_ok hindex
  simp only at h
  split_ifs at h with hforeign hstale
  cases howner : (pool.slot block.physicalIndex).owner with
  | none =>
      rw [howner] at h
      cases h
  | some actual =>
      rw [howner] at h
      simp only at h
      split_ifs at h with hother
      exact ⟨hcookie, hlt, not_not.mp hstale, congrArg some (not_not.mp hother)⟩

theorem withOwner_self {slot : BlockSlot} (h : slot.owner = some owner) :
    slot.withOwner (some owner) = slot := by
  rw [← h]
  rfl

theorem lt_of_owned {index : Nat} (h : (pool.slot index).owner = some owner) :
    index < pool.slots.length := by
  by_contra hout
  unfold KvBlockPool.slot at h
  rw [List.getD_eq_getElem?_getD, List.getElem?_eq_none (Nat.not_lt.mp hout)] at h
  cases h

/-- What an allocation does: the next free slot gets an owner and a fresh generation. -/
theorem allocateBlock_eq_ok (h : KvBlockPool.allocateBlock owner pool = .ok block pool') :
    ∃ rest, pool.freeList = block.physicalIndex :: rest ∧
      block.poolCookie = pool.cookie ∧
      block.generation = (pool.slot block.physicalIndex).generation + 1 ∧
      block.generation ≤ u64Max ∧
      pool' = {
        pool.setSlot block.physicalIndex { pool.slot block.physicalIndex with
          generation := block.generation
          owner := some owner } with
        freeList := rest
        allocatedBlockCount := pool.allocatedBlockCount + 1 } := by
  have hwp : wp (KvBlockPool.allocateBlock owner) (fun block pool' =>
      ∃ rest, pool.freeList = block.physicalIndex :: rest ∧
      block.poolCookie = pool.cookie ∧
      block.generation = (pool.slot block.physicalIndex).generation + 1 ∧
      block.generation ≤ u64Max ∧
      pool' = {
        pool.setSlot block.physicalIndex { pool.slot block.physicalIndex with
          generation := block.generation
          owner := some owner } with
        freeList := rest
        allocatedBlockCount := pool.allocatedBlockCount + 1 }) (fun _ _ => True) pool := by
    apply wp_read
    split
    · trivial
    next index rest hfree =>
      refine wp_seq ((wp_orReject _ _).mpr ⟨fun _ => trivial, fun generation hgeneration => ?_⟩)
      obtain ⟨rfl, hle⟩ := checkedAdd_eq_some.mp hgeneration
      exact ⟨rest, hfree, rfl, rfl, hle, rfl⟩
  exact (wp_elim hwp).1 block pool' h

/-- A refused allocation changes nothing. -/
theorem wp_allocateBlock (owner : SequenceId) (pool : KvBlockPool) :
    wp (KvBlockPool.allocateBlock owner) (fun _ _ => True) (fun _ pool' => pool' = pool)
      pool := by
  apply wp_read
  split
  · rfl
  · exact wp_seq ((wp_orReject _ _).mpr ⟨fun _ => rfl, fun _ _ => trivial⟩)

theorem moves_allocateBlock (owner : SequenceId) :
    Moves (Edits attaching) (KvBlockPool.allocateBlock owner) :=
  .of_ok (wp_allocateBlock owner) fun _ _ _ hrun => .single (.allocate hrun)

theorem moves_releaseBlock (block : BlockId) (owner : SequenceId) :
    Moves (Edits attaching) (KvBlockPool.releaseBlock block owner) := by
  intro pool
  apply wp_read
  refine wp_seq ((wp_fromExcept _).mpr ⟨fun _ _ => .refl, fun _ hvalid => ?_⟩)
  obtain ⟨-, hlt, -, howner⟩ := validateBlock_eq_ok hvalid
  exact .single (.release hlt (by rw [howner]; rfl))

theorem moves_releaseSharedBlock (block : BlockId) :
    Moves (Edits attaching) (KvBlockPool.releaseSharedBlock block) := by
  intro pool
  apply wp_read
  refine wp_seq ((wp_fromExcept _).mpr ⟨fun _ _ => .refl, fun references hok => ?_⟩)
  obtain ⟨hlt, -, hlive, -, -⟩ := slot_of_shared (sharedReferences_eq_ok_iff.mp hok)
  obtain ⟨owner, howner⟩ := Option.isSome_iff_exists.mp hlive
  have hdrop : PoolEdit attaching pool (pool.setSlot block.physicalIndex
      ((pool.slot block.physicalIndex).withReferences (references - 1))) := by
    have hhold := @PoolEdit.hold attaching _ _ owner (references - 1) hlt hlive
    rwa [withOwner_self howner] at hhold
  rw [wp_set]
  split
  · refine .tail (.single hdrop) (.release ?_ ?_)
    · rwa [KvBlockPool.slots_length_setSlot]
    · rw [KvBlockPool.slot_setSlot_self _ hlt]
      exact hlive
  · exact .single hdrop

theorem moves_clearSidecar (block : BlockId) (owner : SequenceId) :
    Moves (Edits attaching) (KvBlockPool.clearSidecar block owner) := by
  intro pool
  apply wp_read
  refine wp_seq ((wp_fromExcept _).mpr ⟨fun _ _ => .refl, fun _ _ => ?_⟩)
  exact .single (.clear _)

/-- What a block, its owner and a descriptor must be for `attach_sidecar` to take them. -/
structure Accepts (pool : KvBlockPool) (block : BlockId) (owner : SequenceId)
    (metadata : OptionalBlockMetadata) : Prop where
  valid : pool.validateBlock block owner = .ok ()
  version : metadata.version = optionalBlockMetadataV1Version
  fits : pool.sidecarDeviceBytes - (pool.slot block.physicalIndex).sidecarBytes +
    metadata.byteLen ≤ u64Max

/-- The pool with a sidecar in place of the one that its slot had, and the totals with it. -/
def attached (pool : KvBlockPool) (index : Nat) (metadata : OptionalBlockMetadata) :
    KvBlockPool :=
  { pool.setSlot index { pool.slot index with sidecar := some metadata } with
    sidecarCount := if (pool.slot index).sidecar.isNone then pool.sidecarCount + 1
      else pool.sidecarCount
    sidecarDeviceBytes := pool.sidecarDeviceBytes - (pool.slot index).sidecarBytes +
      metadata.byteLen }

theorem wp_attachSidecar (pool : KvBlockPool) (block : BlockId) (owner : SequenceId)
    (metadata : OptionalBlockMetadata) :
    wp (KvBlockPool.attachSidecar block owner metadata)
      (fun _ pool' => Accepts pool block owner metadata ∧
        pool' = attached pool block.physicalIndex metadata)
      (fun _ pool' => pool' = pool ∧ ¬ Accepts pool block owner metadata) pool := by
  apply wp_read
  refine wp_seq ((wp_fromExcept _).mpr ⟨fun error herror => ?_, fun _ hvalid => ?_⟩)
  · refine ⟨rfl, fun haccepts => ?_⟩
    rw [haccepts.valid] at herror
    cases herror
  · refine wp_check (fun hversion => ⟨rfl, fun haccepts => hversion haccepts.version⟩)
      fun hversion => ?_
    refine wp_seq ((wp_orReject _ _).mpr ⟨fun hnone => ?_, fun bytes hbytes => ?_⟩)
    · refine ⟨rfl, fun haccepts => ?_⟩
      exact absurd haccepts.fits (Nat.not_le.mpr (checkedAdd_eq_none.mp hnone))
    · obtain ⟨rfl, hle⟩ := checkedAdd_eq_some.mp hbytes
      exact ⟨⟨hvalid, not_not.mp hversion, hle⟩, rfl⟩

theorem attachSidecar_eq_ok {metadata : OptionalBlockMetadata}
    (h : KvBlockPool.attachSidecar block owner metadata pool = .ok () pool') :
    Accepts pool block owner metadata ∧ pool' = attached pool block.physicalIndex metadata :=
  (wp_elim (wp_attachSidecar pool block owner metadata)).1 () pool' h

theorem moves_attachSidecar (block : BlockId) (owner : SequenceId)
    (metadata : OptionalBlockMetadata) :
    Moves (Edits true) (KvBlockPool.attachSidecar block owner metadata) := by
  refine .of_ok (fun pool => ?_) fun pool _ pool' hrun => .single (.attach rfl hrun)
  exact wp_mono (wp_attachSidecar pool block owner metadata) (fun _ _ _ => trivial)
    fun _ _ hrefused => hrefused.1

theorem moves_reclaimSequence (token : SequenceReclaimToken) :
    Moves (Edits attaching) (KvBlockPool.reclaimSequence token) := by
  refine .bind .get fun pool => .bind (.rejectIf _ _) fun _ => ?_
  refine .bind (.forEach _ fun block => .bind (.fromExcept _) fun _ => .pure _) fun _ => ?_
  refine .bind (.forEach _ fun index => .modify fun pool => ?_) fun _ => ?_
  · split
    next howned =>
      refine .single (.release (lt_of_owned howned) (by rw [howned]; rfl))
    · exact .refl
  · exact .bind (.forEach _ moves_releaseSharedBlock) fun _ => .pure _

end Pool

section Sequences

variable {α : Type}

theorem moves_onPool {action : PoolM α} (h : Moves (Edits attaching) action) :
    Moves (EditsPool attaching) (onPool action) :=
  .zoom (fun _ _ => rfl) h

theorem moves_modifySeq (f : SequenceState → SequenceState) :
    Moves (EditsPool attaching) (modifySeq f) :=
  .modify fun _ => .refl

theorem moves_releaseLasts (count : Nat) :
    Moves (EditsPool attaching) (SequenceState.releaseLasts count) := by
  induction count with
  | zero => exact .pure _
  | succ count ih =>
      refine .bind ?_ fun _ => ih
      refine .bind .get fun ⟨seq, _⟩ => .bind (.fromExcept _) fun block => ?_
      refine .bind (.runIf fun _ => ?_) fun _ => .bind (.runIf fun _ => ?_) fun _ => ?_
      · exact .bind (moves_onPool (moves_releaseSharedBlock block)) fun _ => moves_modifySeq _
      · exact moves_onPool (moves_releaseBlock block _)
      · exact moves_modifySeq _

theorem moves_releaseTail (retained : Nat) :
    Moves (EditsPool attaching) (SequenceState.releaseTail retained) :=
  .bind .get fun _ => moves_releaseLasts _

theorem moves_rollbackNewBlocks (previousBlockCount : Nat) :
    Moves (EditsPool attaching) (SequenceState.rollbackNewBlocks previousBlockCount) := by
  refine .bind .get fun ⟨seq, pool⟩ => .bind (.forEach _ fun index => ?_) fun _ => ?_
  · exact .bind (.fromExcept _) fun _ => .fromExcept _
  · exact moves_releaseTail _

theorem moves_rollbackPending : Moves (EditsPool attaching) SequenceState.rollbackPending := by
  refine .bind .get fun ⟨seq, pool⟩ => .bind (.orReject _ _) fun pending => ?_
  refine .bind (moves_rollbackNewBlocks _) fun _ => ?_
  exact .bind (moves_modifySeq _) fun _ => moves_modifySeq _

theorem moves_allocateEntries (previousBlockCount count : Nat) :
    Moves (EditsPool attaching) (SequenceState.allocateEntries previousBlockCount count) := by
  induction count with
  | zero => exact .pure _
  | succ count ih =>
      have hentry : Moves (EditsPool attaching) SequenceState.allocateEntry :=
        .bind .get fun ⟨seq, _⟩ =>
          .bind (moves_onPool (moves_allocateBlock _)) fun _ => moves_modifySeq _
      refine .bind hentry.attempt fun answer => ?_
      cases answer with
      | ok _ => exact ih
      | error error => exact .bind (moves_rollbackNewBlocks _) fun _ => .throw _

theorem moves_reserveTo (target : Nat) :
    Moves (EditsPool attaching) (SequenceState.reserveTo target) := by
  refine .bind .get fun ⟨seq, pool⟩ => .bind (.fromExcept _) fun _ => ?_
  refine .bind (.rejectIf _ _) fun _ => .bind (.rejectIf _ _) fun _ => ?_
  refine .bind (.rejectIf _ _) fun _ => .bind (.rejectIf _ _) fun _ => ?_
  refine .bind (.rejectIf _ _) fun _ => .bind (.runIf fun _ => .fromExcept _) fun _ => ?_
  refine .bind (.orReject _ _) fun _ => .bind (moves_allocateEntries _ _) fun _ => ?_
  exact .bind (moves_modifySeq _) fun _ => .bind (moves_modifySeq _) fun _ => .pure _

theorem moves_commit (reservation : SequenceReservation) :
    Moves (EditsPool attaching) (SequenceState.commit reservation) := by
  refine .bind .get fun ⟨seq, pool⟩ => .bind (.fromExcept _) fun _ => ?_
  refine .bind (.fromExcept _) fun _ => .bind (.forEach _ fun index => ?_) fun _ => ?_
  · exact .bind (.fromExcept _) fun _ => .fromExcept _
  · refine .bind (.forEach _ fun index => ?_) fun _ => ?_
    · exact .bind (.fromExcept _) fun block => moves_onPool (moves_clearSidecar block _)
    · exact .bind (moves_modifySeq _) fun _ => .pure _

theorem moves_rollback (reservation : SequenceReservation) :
    Moves (EditsPool attaching) (SequenceState.rollback reservation) :=
  .bind .get fun _ => .bind (.fromExcept _) fun _ => .bind (.fromExcept _) fun _ =>
    moves_rollbackPending

theorem moves_poison (reservation : SequenceReservation) :
    Moves (EditsPool attaching) (SequenceState.poison reservation) := by
  refine .bind .get fun ⟨seq, pool⟩ => .bind (.fromExcept _) fun _ => ?_
  refine .bind (.fromExcept _) fun _ => .bind (moves_modifySeq _) fun _ => ?_
  refine .bind (.forEach _ fun index => .fromExcept _) fun _ => ?_
  refine .bind (.forEach _ fun index => ?_) fun _ => moves_rollbackPending
  exact .bind (.fromExcept _) fun block => moves_onPool (moves_clearSidecar block _)

theorem moves_rollbackAbandonedReservation :
    Moves (EditsPool attaching) SequenceState.rollbackAbandonedReservation := by
  refine .bind .get fun ⟨seq, pool⟩ => .bind (.fromExcept _) fun _ => ?_
  refine .bind (.rejectIf _ _) fun _ => .bind (moves_modifySeq _) fun _ => ?_
  exact moves_rollbackPending

theorem moves_truncateTo (target : Nat) :
    Moves (EditsPool attaching) (SequenceState.truncateTo target) := by
  refine .bind .get fun ⟨seq, pool⟩ => .bind (.fromExcept _) fun _ => ?_
  refine .bind (.rejectIf _ _) fun _ => .bind (.rejectIf _ _) fun _ => ?_
  refine .bind (.rejectIf _ _) fun _ => .bind (.forEach _ fun index => .fromExcept _) fun _ => ?_
  refine .bind (.runIf fun _ => .fromExcept _) fun _ => .bind (.runIf fun _ => ?_) fun _ => ?_
  · exact .bind (.fromExcept _) fun tail => moves_onPool (moves_clearSidecar tail _)
  · refine .bind (moves_releaseTail _) fun _ => ?_
    exact .bind (moves_modifySeq _) fun _ => moves_modifySeq _

theorem moves_reset : Moves (EditsPool attaching) SequenceState.reset := by
  refine .bind .get fun ⟨seq, pool⟩ => .bind (.fromExcept _) fun _ => ?_
  refine .bind (.runIf fun _ => moves_rollbackPending) fun _ => .bind .get fun ⟨seq, pool⟩ => ?_
  refine .bind (.forEach _ fun index => .fromExcept _) fun _ => ?_
  exact .bind (moves_releaseTail _) fun _ => moves_modifySeq _

theorem moves_attach (logicalBlockIndex : Nat) (metadata : OptionalBlockMetadata) :
    Moves (EditsPool true) (SequenceState.attachSidecar logicalBlockIndex metadata) := by
  refine .bind .get fun ⟨seq, pool⟩ => .bind (.fromExcept _) fun _ => ?_
  refine .bind (.fromExcept _) fun _ => .bind (.fromExcept _) fun block => ?_
  exact moves_onPool (moves_attachSidecar block _ metadata)

/-- A further holder of a live shared block. -/
theorem moves_adoptSharedBlock (block : BlockId) :
    Moves (EditsPool attaching) (SequenceState.adoptSharedBlock block) := by
  rintro ⟨seq, pool⟩
  have hself : EditsPool attaching ⟨seq, pool⟩ ⟨seq, pool⟩ := .refl
  apply wp_read
  refine keeps_read hself fun _ _ => keeps_reject hself fun _ => keeps_reject hself fun _ => ?_
  refine keeps_reject hself fun _ => keeps_read hself fun references hok => ?_
  refine keeps_some hself fun incremented _ => ?_
  obtain ⟨hlt, -, hlive, -, -⟩ := slot_of_shared (sharedReferences_eq_ok_iff.mp hok)
  obtain ⟨owner, howner⟩ := Option.isSome_iff_exists.mp hlive
  have hhold := @PoolEdit.hold attaching _ _ owner incremented hlt hlive
  rw [withOwner_self howner] at hhold
  exact .single hhold

/-- A private block becomes a shared one without leaving its slot. -/
theorem moves_shareNextBlock : Moves (EditsPool attaching) SequenceState.shareNextBlock := by
  rintro ⟨seq, pool⟩
  have hself : EditsPool attaching ⟨seq, pool⟩ ⟨seq, pool⟩ := .refl
  apply wp_read
  refine keeps_read hself fun _ _ => keeps_reject hself fun _ => keeps_reject hself fun _ => ?_
  refine keeps_read hself fun block _ => keeps_read hself fun _ hvalid => ?_
  obtain ⟨-, hlt, -, howner⟩ := validateBlock_eq_ok hvalid
  have hclear : wp (onPool (KvBlockPool.clearSidecar block seq.sequenceId))
      (fun _ state => state = ⟨seq, pool.dropSidecar block.physicalIndex⟩)
      (fun _ _ => False) ⟨seq, pool⟩ := by
    unfold onPool
    rw [wp_zoom]
    apply wp_read
    exact wp_ofOk hvalid rfl
  refine wp_call hclear ?_ fun _ _ hfalse => hfalse.elim
  rintro _ _ rfl
  have hhold := @PoolEdit.hold attaching _ _ ⟨seq.poolCookie, sharedBlockOwner⟩ 2
    (by rw [(pool.dropSidecar_frame block.physicalIndex).2.2.1]; exact hlt)
    (by rw [(pool.dropSidecar_slot block.physicalIndex block.physicalIndex).2.1, howner]; rfl)
  exact ReflTransGen.tail (.single (.clear block.physicalIndex)) hhold

/-- Whether the call is the one that attaches. -/
def SequenceCall.attaches : SequenceCall → Bool
  | attachSidecar _ _ => true
  | _ => false

/-- Every call on a sequence edits the pool. -/
theorem moves_call (call : SequenceCall) : Moves (EditsPool call.attaches) call.run := by
  cases call with
  | reserveTo target => exact .bind (moves_reserveTo target) fun _ => .pure _
  | commit reservation => exact .bind (moves_commit reservation) fun _ => .pure _
  | rollback reservation => exact moves_rollback reservation
  | poison reservation => exact moves_poison reservation
  | rollbackAbandonedReservation => exact moves_rollbackAbandonedReservation
  | truncateTo target => exact moves_truncateTo target
  | reset => exact moves_reset
  | close => exact moves_reset
  | adoptSharedBlock block => exact moves_adoptSharedBlock block
  | attachSidecar logicalBlockIndex metadata => exact moves_attach logicalBlockIndex metadata

theorem moves_createSequence (maximum : Nat) :
    Moves (InvImage (Edits attaching) Prod.fst) (KvBlockPool.createSequence maximum) := by
  refine .bind (.rejectIf _ _) fun _ => .bind (.rejectIf _ _) fun _ => ?_
  refine .bind .get fun ⟨pool, _⟩ => .bind (.orReject _ _) fun next => ?_
  refine .bind (.forEach _ fun resource => .zoom_other fun _ _ => .refl) fun _ => ?_
  exact .bind (.modify fun _ => .single (.identify next)) fun _ => .pure _

end Sequences

theorem PoolEdit.any {pool pool' : KvBlockPool} (h : PoolEdit attaching pool pool') :
    PoolEdit true pool pool' := by
  cases h with
  | allocate hrun => exact .allocate hrun
  | hold owner references hlt hlive => exact .hold owner references hlt hlive
  | clear index => exact .clear index
  | release hlt hlive => exact .release hlt hlive
  | attach _ hrun => exact .attach rfl hrun
  | identify next => exact .identify next

theorem Edits.any {pool pool' : KvBlockPool} (h : Edits attaching pool pool') :
    Edits true pool pool' :=
  ReflTransGen.mono (fun _ _ hedit => PoolEdit.any hedit) _ _ h

/-- A public call, of any caller, edits the pool without attaching, or is `attach_sidecar`. -/
theorem KvSystem.Step.edits_or_attach {contract : Bool} {system system' : KvSystem}
    (h : KvSystem.Step contract system system') :
    Edits false system.pool system'.pool ∨
      ∃ index seq call, SequenceCall.attaches call = true ∧
        system.sequences[index]? = some (some seq) ∧
        system' = system.withSequence index (after call.run ⟨seq, system.pool⟩) := by
  cases h with
  | create hrun _ => exact .inl ((moves_createSequence _).ok hrun)
  | createFails hrun => exact .inl ((moves_createSequence _).error hrun)
  | @call index seq call hseq =>
      have hmoves := (moves_call call).after ⟨seq, system.pool⟩
      cases hattaches : call.attaches with
      | false =>
          rw [hattaches] at hmoves
          exact .inl hmoves
      | true => exact .inr ⟨index, seq, call, hattaches, hseq, rfl⟩
  | share _ hrun => exact .inl (moves_shareNextBlock.ok hrun)
  | shareFails _ hrun => exact .inl (moves_shareNextBlock.error hrun)
  | release hrun _ => exact .inl ((moves_releaseSharedBlock _).ok hrun)
  | releaseFails hrun => exact .inl ((moves_releaseSharedBlock _).error hrun)
  | abandon _ => exact .inl .refl
  | reclaim hrun _ => exact .inl ((moves_reclaimSequence _).ok hrun)
  | reclaimFails hrun _ => exact .inl ((moves_reclaimSequence _).error hrun)

theorem KvSystem.Step.edits {contract : Bool} {system system' : KvSystem}
    (h : KvSystem.Step contract system system') : Edits true system.pool system'.pool := by
  rcases h.edits_or_attach with hedits | ⟨index, seq, call, -, -, rfl⟩
  · exact hedits.any
  · exact ((moves_call call).after ⟨seq, system.pool⟩).any

/-- A run of public calls is a run of edits. -/
theorem edits_of_run {contract : Bool} {system system' : KvSystem}
    (h : ReflTransGen (KvSystem.Step contract) system system') :
    Edits true system.pool system'.pool := by
  induction h with
  | refl => exact .refl
  | tail _ hstep ih => exact ih.trans hstep.edits

end Riley.PagedKv
