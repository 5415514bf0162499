import Riley.Machine
import Riley.Library.Outcome

/-!
The physical block pool of the paged KV cache: its slots, the LIFO free list
and the operations that hand blocks out, share them and take them back.
The free list is kept with the next block to hand out at its head.
Allocation counters kept only for statistics and the timing of an allocation
are left out.
-/

namespace Riley.PagedKv

open Outcome

/-- Fixed token capacity of every physical block. -/
def kvBlockSize : Nat := 16

/-- No sequence has this identifier, so none can claim a shared block. -/
def sharedBlockOwner : Nat := 0

def blockTableV1Version : Nat := 1
def optionalBlockMetadataV1Version : Nat := 1

/-- `logical_length.div_ceil(KV_BLOCK_SIZE)` -/
def blocksForLength (logicalLength : Nat) : Nat :=
  (logicalLength + 15) / kvBlockSize

structure SequenceId where
  poolCookie : Nat
  value : Nat
  deriving DecidableEq, Repr

/-- One allocation of a physical block: the slot and its generation. -/
structure BlockId where
  poolCookie : Nat
  physicalIndex : Nat
  generation : Nat
  deriving DecidableEq, Repr

inductive PagedKvError where
  | invalidConfiguration (field reason : String)
  | arithmeticOverflow (field : String)
  | hostAllocation (resource : String)
  | poolCookieExhausted
  | sequenceIdExhausted
  | generationExhausted (physicalIndex : Nat)
  | foreignPool (expectedCookie actualCookie : Nat)
  | outOfBlocks (requestedBlocks freeBlocks : Nat)
  | capacityExceeded (requestedTokens maximumTokens : Nat)
  | lengthRegression (committedTokens requestedTokens : Nat)
  | invalidTruncateLength (committedTokens requestedTokens : Nat)
  | reservationInProgress
  | noReservationInProgress
  | reservationMismatch
  | reservationNonceExhausted
  | poisoned
  | corruptSequenceState (reason : String)
  | invalidLogicalBlock (logicalBlockIndex blockCount : Nat)
  | invalidPhysicalBlock (physicalIndex blockCount : Nat)
  | staleBlock (physicalIndex handleGeneration currentGeneration : Nat)
  | doubleFree (physicalIndex generation : Nat)
  | wrongOwner (physicalIndex : Nat) (expected actual : SequenceId)
  | unsupportedMetadataVersion (version : Nat)
  | notShared (physicalIndex : Nat)
  | sharedPrefixNotExtendable (reason : String)
  deriving DecidableEq, Repr

/-- The layout dimensions, each non-zero, with a block count that the U32
table can address. -/
structure KvLayout where
  layerCount : Nat
  physicalBlockCount : Nat
  keyValueHeadCount : Nat
  headDimension : Nat
  blocks_pos : 0 < physicalBlockCount
  blocks_le : physicalBlockCount ≤ u32Max

theorem one_le_u32Max : 1 ≤ u32Max := by decide

theorem two_le_u32Max : 2 ≤ u32Max := by decide

/-- Optional sidecar descriptor of a block. -/
structure OptionalBlockMetadata where
  version : Nat
  kind : Nat
  address : Nat
  byteLen : Nat
  deriving DecidableEq, Repr

structure BlockSlot where
  generation : Nat
  owner : Option SequenceId
  sharedReferences : Nat
  sidecar : Option OptionalBlockMetadata
  deriving DecidableEq, Repr

namespace BlockSlot

def vacant : BlockSlot := ⟨0, none, 0, none⟩

def withOwner (slot : BlockSlot) (owner : Option SequenceId) : BlockSlot :=
  { slot with owner := owner }

def withReferences (slot : BlockSlot) (references : Nat) : BlockSlot :=
  { slot with sharedReferences := references }

def withoutSidecar (slot : BlockSlot) : BlockSlot :=
  { slot with sidecar := none }

@[simp] theorem generation_withOwner (slot : BlockSlot) (owner : Option SequenceId) :
    (slot.withOwner owner).generation = slot.generation := rfl
@[simp] theorem owner_withOwner (slot : BlockSlot) (owner : Option SequenceId) :
    (slot.withOwner owner).owner = owner := rfl
@[simp] theorem sharedReferences_withOwner (slot : BlockSlot)
    (owner : Option SequenceId) :
    (slot.withOwner owner).sharedReferences = slot.sharedReferences := rfl
@[simp] theorem generation_withReferences (slot : BlockSlot) (references : Nat) :
    (slot.withReferences references).generation = slot.generation := rfl
@[simp] theorem owner_withReferences (slot : BlockSlot) (references : Nat) :
    (slot.withReferences references).owner = slot.owner := rfl
@[simp] theorem sharedReferences_withReferences (slot : BlockSlot) (references : Nat) :
    (slot.withReferences references).sharedReferences = references := rfl

end BlockSlot

structure KvBlockPool where
  cookie : Nat
  layout : KvLayout
  slots : List BlockSlot
  freeList : List Nat
  allocatedBlockCount : Nat
  nextSequenceId : Nat
  sidecarCount : Nat
  sidecarDeviceBytes : Nat

abbrev PoolM := EStateM PagedKvError KvBlockPool

namespace KvBlockPool

/-- Every slot vacant, handed out in the order `0, 1, ...`. -/
def new (cookie : Nat) (layout : KvLayout) : KvBlockPool where
  cookie := cookie
  layout := layout
  slots := List.replicate layout.physicalBlockCount BlockSlot.vacant
  freeList := List.range layout.physicalBlockCount
  allocatedBlockCount := 0
  nextSequenceId := 1
  sidecarCount := 0
  sidecarDeviceBytes := 0

def slot (pool : KvBlockPool) (index : Nat) : BlockSlot :=
  pool.slots.getD index BlockSlot.vacant

def freeBlockCount (pool : KvBlockPool) : Nat := pool.freeList.length

def setSlot (pool : KvBlockPool) (index : Nat) (slot : BlockSlot) : KvBlockPool :=
  { pool with slots := pool.slots.set index slot }

def validateBlockIndex (pool : KvBlockPool) (block : BlockId) :
    Except PagedKvError Unit :=
  if block.poolCookie ≠ pool.cookie then
    .error (.foreignPool pool.cookie block.poolCookie)
  else if pool.slots.length ≤ block.physicalIndex then
    .error (.invalidPhysicalBlock block.physicalIndex pool.slots.length)
  else
    .ok ()

/-- Validates pool, physical index, generation, allocation state and owner. -/
def validateBlock (pool : KvBlockPool) (block : BlockId) (owner : SequenceId) :
    Except PagedKvError Unit := do
  pool.validateBlockIndex block
  if owner.poolCookie ≠ pool.cookie then
    .error (.foreignPool pool.cookie owner.poolCookie)
  else
    let slot := pool.slot block.physicalIndex
    if slot.generation ≠ block.generation then
      .error (.staleBlock block.physicalIndex block.generation slot.generation)
    else
      match slot.owner with
      | none => .error (.doubleFree block.physicalIndex block.generation)
      | some actual =>
          if actual ≠ owner then
            .error (.wrongOwner block.physicalIndex owner actual)
          else
            .ok ()

/-- Holder count of a live shared block. -/
def sharedReferences (pool : KvBlockPool) (block : BlockId) :
    Except PagedKvError Nat := do
  pool.validateBlockIndex block
  let slot := pool.slot block.physicalIndex
  if slot.generation ≠ block.generation then
    .error (.staleBlock block.physicalIndex block.generation slot.generation)
  else if slot.owner.isNone then
    .error (.doubleFree block.physicalIndex block.generation)
  else if slot.sharedReferences = 0 then
    .error (.notShared block.physicalIndex)
  else
    .ok slot.sharedReferences

def allocateBlock (owner : SequenceId) : PoolM BlockId := do
  let pool ← get
  match pool.freeList with
  | [] => throw (.outOfBlocks 1 0)
  | physicalIndex :: rest =>
      let slot := pool.slot physicalIndex
      let generation ← orReject (checkedAdd u64Max slot.generation 1)
        (.generationExhausted physicalIndex)
      set { pool.setSlot physicalIndex
              { slot with generation := generation, owner := some owner } with
            freeList := rest
            allocatedBlockCount := pool.allocatedBlockCount + 1 }
      return ⟨pool.cookie, physicalIndex, generation⟩

/-- Forgets the sidecar of a slot and its accounting. -/
def dropSidecar (pool : KvBlockPool) (index : Nat) : KvBlockPool :=
  match (pool.slot index).sidecar with
  | none => pool
  | some sidecar =>
      { pool.setSlot index (pool.slot index).withoutSidecar with
        sidecarCount := pool.sidecarCount - 1
        sidecarDeviceBytes := pool.sidecarDeviceBytes - sidecar.byteLen }

def releaseSlot (pool : KvBlockPool) (index : Nat) : KvBlockPool :=
  let dropped := pool.dropSidecar index
  { dropped.setSlot index ((dropped.slot index).withOwner none) with
    allocatedBlockCount := dropped.allocatedBlockCount - 1
    freeList := index :: dropped.freeList }

def releaseBlock (block : BlockId) (owner : SequenceId) : PoolM Unit := do
  let pool ← get
  fromExcept (pool.validateBlock block owner)
  set (pool.releaseSlot block.physicalIndex)

/-- Drops one hold on a shared block; the last hold frees it. -/
def releaseSharedBlock (block : BlockId) : PoolM Unit := do
  let pool ← get
  let references ← fromExcept (pool.sharedReferences block)
  let index := block.physicalIndex
  let released := pool.setSlot index
    ((pool.slot index).withReferences (references - 1))
  set (if references = 1 then released.releaseSlot index else released)

def clearSidecar (block : BlockId) (owner : SequenceId) : PoolM Unit := do
  let pool ← get
  fromExcept (pool.validateBlock block owner)
  set (pool.dropSidecar block.physicalIndex)

def attachSidecar (block : BlockId) (owner : SequenceId)
    (metadata : OptionalBlockMetadata) : PoolM Unit := do
  let pool ← get
  fromExcept (pool.validateBlock block owner)
  rejectIf (metadata.version ≠ optionalBlockMetadataV1Version)
    (.unsupportedMetadataVersion metadata.version)
  let slot := pool.slot block.physicalIndex
  let priorBytes := match slot.sidecar with
    | none => 0
    | some sidecar => sidecar.byteLen
  let updated ← orReject
    (checkedAdd u64Max (pool.sidecarDeviceBytes - priorBytes) metadata.byteLen)
    (.arithmeticOverflow "sidecar_device_bytes")
  set { pool.setSlot block.physicalIndex { slot with sidecar := some metadata } with
        sidecarCount :=
          if slot.sidecar.isNone then pool.sidecarCount + 1 else pool.sidecarCount
        sidecarDeviceBytes := updated }

end KvBlockPool

/-- What is left of a consumed sequence: its owner and its shared blocks. -/
structure SequenceReclaimToken where
  owner : SequenceId
  blockIds : List BlockId
  sharedBlockCount : Nat
  deriving DecidableEq, Repr

namespace KvBlockPool

/-- Releases every slot whose owner is the consumed sequence, from the last
slot to the first, then its holds on shared blocks. -/
def reclaimSequence (token : SequenceReclaimToken) : PoolM Nat := do
  let pool ← get
  rejectIf (token.owner.poolCookie ≠ pool.cookie)
    (.foreignPool pool.cookie token.owner.poolCookie)
  let shared := token.blockIds.take token.sharedBlockCount
  forEach shared fun block => do
    let _ ← fromExcept (pool.sharedReferences block)
  let indices := (List.range pool.slots.length).reverse
  forEach indices fun index => modify fun pool =>
    if (pool.slot index).owner = some token.owner then pool.releaseSlot index else pool
  forEach shared releaseSharedBlock
  return (indices.filter fun index => (pool.slot index).owner = some token.owner).length

end KvBlockPool

end Riley.PagedKv
