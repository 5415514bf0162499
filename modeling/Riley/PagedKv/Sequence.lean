import Riley.PagedKv.Pool

/-!
One pool-bound sequence: its block table, the reserve / commit / rollback
protocol and the shared prefix at the head of its table.

The fixed-capacity host arrays of the source are kept as the list of their
allocated entries, so `allocated_block_count` is the length of that list and
the unused array tail, which holds only empty markers, is not represented.
-/

namespace Riley.PagedKv

open Outcome

structure PendingReservation where
  nonce : Nat
  previousBlockCount : Nat
  targetLogicalLength : Nat
  deriving DecidableEq, Repr

/-- Detached authorization to publish or abandon one tentative table. -/
structure SequenceReservation where
  poolCookie : Nat
  sequenceId : SequenceId
  nonce : Nat
  previousBlockCount : Nat
  targetLogicalLength : Nat
  deriving DecidableEq, Repr

structure ReservationCommit where
  previousLogicalLength : Nat
  logicalLength : Nat
  allocatedBlockCount : Nat
  deriving DecidableEq, Repr

/-- Borrowed V1 address-translation table. -/
structure BlockTableV1 where
  physicalBlockIds : List Nat
  validTokens : List Nat
  logicalLength : Nat
  deriving DecidableEq, Repr

structure SequenceState where
  poolCookie : Nat
  sequenceId : SequenceId
  maximumLogicalLength : Nat
  blockIds : List BlockId
  validTokens : List Nat
  sharedBlockCount : Nat
  logicalLength : Nat
  nextReservationNonce : Nat
  pending : Option PendingReservation
  poisoned : Bool
  deriving DecidableEq, Repr

/-- A sequence together with the pool its operations mutate. -/
structure KvState where
  seq : SequenceState
  pool : KvBlockPool

abbrev KvM := EStateM PagedKvError KvState

/-- A pool operation inside a sequence operation. -/
def onPool {α : Type} (action : PoolM α) : KvM α :=
  zoom KvState.pool (fun pool state => { state with pool := pool }) id action

def modifySeq (f : SequenceState → SequenceState) : KvM Unit :=
  modify fun state => { state with seq := f state.seq }

namespace SequenceState

def new (poolCookie : Nat) (sequenceId : SequenceId) (maximumLogicalLength : Nat) :
    SequenceState where
  poolCookie := poolCookie
  sequenceId := sequenceId
  maximumLogicalLength := maximumLogicalLength
  blockIds := []
  validTokens := []
  sharedBlockCount := 0
  logicalLength := 0
  nextReservationNonce := 1
  pending := none
  poisoned := false

def allocatedBlockCount (seq : SequenceState) : Nat := seq.blockIds.length

def maximumBlockCount (seq : SequenceState) : Nat :=
  blocksForLength seq.maximumLogicalLength

def additionalBlocksFor (seq : SequenceState) (targetLogicalLength : Nat) : Nat :=
  blocksForLength targetLogicalLength - seq.allocatedBlockCount

def ensurePool (seq : SequenceState) (pool : KvBlockPool) : Except PagedKvError Unit :=
  if pool.cookie ≠ seq.poolCookie then
    .error (.foreignPool seq.poolCookie pool.cookie)
  else
    .ok ()

def ensureMutable (seq : SequenceState) (pool : KvBlockPool) :
    Except PagedKvError Unit := do
  seq.ensurePool pool
  if seq.poisoned then .error .poisoned else .ok ()

def ensureReadable (seq : SequenceState) : Except PagedKvError Unit :=
  if seq.poisoned then .error .poisoned
  else if seq.pending.isSome then .error .reservationInProgress
  else .ok ()

def validateReservation (seq : SequenceState) (reservation : SequenceReservation) :
    Except PagedKvError Unit :=
  if reservation.poolCookie ≠ seq.poolCookie ∨
      reservation.sequenceId ≠ seq.sequenceId then
    .error .reservationMismatch
  else
    match seq.pending with
    | none => .error .noReservationInProgress
    | some pending =>
        if pending.nonce ≠ reservation.nonce ∨
            pending.previousBlockCount ≠ reservation.previousBlockCount ∨
            pending.targetLogicalLength ≠ reservation.targetLogicalLength then
          .error .reservationMismatch
        else
          .ok ()

def allocatedBlock (seq : SequenceState) (index : Nat) : Except PagedKvError BlockId :=
  match seq.blockIds[index]? with
  | some block => .ok block
  | none =>
      .error (.corruptSequenceState
        "allocated table prefix is missing a block handle")

def committedBlock (seq : SequenceState) (logicalBlockIndex : Nat) :
    Except PagedKvError BlockId :=
  let blockCount := blocksForLength seq.logicalLength
  if blockCount ≤ logicalBlockIndex then
    .error (.invalidLogicalBlock logicalBlockIndex blockCount)
  else
    seq.allocatedBlock logicalBlockIndex

def validateHeldBlock (seq : SequenceState) (pool : KvBlockPool) (index : Nat) :
    Except PagedKvError Unit := do
  let block ← seq.allocatedBlock index
  if index < seq.sharedBlockCount then
    let _ ← pool.sharedReferences block
    .ok ()
  else
    pool.validateBlock block seq.sequenceId

def tableView (seq : SequenceState) (blockCount logicalLength : Nat) : BlockTableV1 where
  physicalBlockIds := (seq.blockIds.take blockCount).map BlockId.physicalIndex
  validTokens := seq.validTokens.take blockCount
  logicalLength := logicalLength

def blockTable (seq : SequenceState) : Except PagedKvError BlockTableV1 := do
  seq.ensureReadable
  .ok (seq.tableView (blocksForLength seq.logicalLength) seq.logicalLength)

def reservedBlockTable (seq : SequenceState) (reservation : SequenceReservation) :
    Except PagedKvError BlockTableV1 := do
  seq.validateReservation reservation
  .ok (seq.tableView seq.allocatedBlockCount reservation.targetLogicalLength)

/-- Canonical valid counts for the first `blockCount` entries, zero after. -/
def fillValidTokens (logicalLength blockCount : Nat) (seq : SequenceState) :
    SequenceState :=
  { seq with
    validTokens := (List.range seq.allocatedBlockCount).map fun index =>
      if index < blockCount then min (logicalLength - index * kvBlockSize) kvBlockSize
      else 0 }

/-- Appends one full shared block to a sequence that holds nothing else. -/
def adoptSharedBlock (block : BlockId) : KvM Unit := do
  let ⟨seq, pool⟩ ← get
  fromExcept (seq.ensureMutable pool)
  rejectIf seq.pending.isSome .reservationInProgress
  rejectIf (seq.allocatedBlockCount ≠ seq.sharedBlockCount)
    (.sharedPrefixNotExtendable "the sequence already holds private blocks")
  let index := seq.allocatedBlockCount
  rejectIf (index = seq.maximumBlockCount)
    (.capacityExceeded ((index + 1) * kvBlockSize) seq.maximumLogicalLength)
  let references ← fromExcept (pool.sharedReferences block)
  let incremented ← orReject (checkedAdd u32Max references 1)
    (.arithmeticOverflow "shared block references")
  set (KvState.mk
    { seq with
      blockIds := seq.blockIds ++ [block]
      validTokens := seq.validTokens ++ [kvBlockSize]
      sharedBlockCount := index + 1
      logicalLength := (index + 1) * kvBlockSize % (u32Max + 1) }
    (pool.setSlot block.physicalIndex
      ((pool.slot block.physicalIndex).withReferences incremented)))

/-- Turns the first private block into a shared block with two holders, this
sequence and the caller. -/
def shareNextBlock : KvM BlockId := do
  let ⟨seq, pool⟩ ← get
  fromExcept (seq.ensureMutable pool)
  rejectIf seq.pending.isSome .reservationInProgress
  let index := seq.sharedBlockCount
  rejectIf (seq.logicalLength < (index + 1) * kvBlockSize)
    (.sharedPrefixNotExtendable "only a fully committed block can be shared")
  let block ← fromExcept (seq.allocatedBlock index)
  fromExcept (pool.validateBlock block seq.sequenceId)
  onPool (KvBlockPool.clearSidecar block seq.sequenceId)
  onPool (modify fun pool => pool.setSlot block.physicalIndex
    (((pool.slot block.physicalIndex).withOwner
      (some ⟨seq.poolCookie, sharedBlockOwner⟩)).withReferences 2))
  modifySeq fun seq => { seq with sharedBlockCount := index + 1 }
  return block

/-- Releases the last table entry, by the kind of hold it is. -/
def releaseLast : KvM Unit := do
  let ⟨seq, _⟩ ← get
  let index := seq.allocatedBlockCount - 1
  let block ← fromExcept (seq.allocatedBlock index)
  runIf (index < seq.sharedBlockCount) do
    onPool (KvBlockPool.releaseSharedBlock block)
    modifySeq fun seq => { seq with sharedBlockCount := index }
  runIf (¬ index < seq.sharedBlockCount)
    (onPool (KvBlockPool.releaseBlock block seq.sequenceId))
  modifySeq fun seq => { seq with
    blockIds := seq.blockIds.take index
    validTokens := seq.validTokens.take index }

def releaseLasts : Nat → KvM Unit
  | 0 => pure ()
  | count + 1 => do
      releaseLast
      releaseLasts count

/-- `release_tail`: one entry a round, until `retained` are left. -/
def releaseTail (retained : Nat) : KvM Unit := do
  let ⟨seq, _⟩ ← get
  releaseLasts (seq.allocatedBlockCount - retained)

def rollbackNewBlocks (previousBlockCount : Nat) : KvM Unit := do
  let ⟨seq, pool⟩ ← get
  forEach (List.range' previousBlockCount (seq.allocatedBlockCount - previousBlockCount))
    fun index => do
      let block ← fromExcept (seq.allocatedBlock index)
      fromExcept (pool.validateBlock block seq.sequenceId)
  releaseTail previousBlockCount

def rollbackPending : KvM Unit := do
  let ⟨seq, _⟩ ← get
  let pending ← orReject seq.pending .noReservationInProgress
  rollbackNewBlocks pending.previousBlockCount
  modifySeq fun seq =>
    fillValidTokens seq.logicalLength (blocksForLength seq.logicalLength) seq
  modifySeq fun seq => { seq with pending := none }

/-- Takes one block for the next table entry. -/
def allocateEntry : KvM Unit := do
  let ⟨seq, _⟩ ← get
  let block ← onPool (KvBlockPool.allocateBlock seq.sequenceId)
  modifySeq fun seq => { seq with
    blockIds := seq.blockIds ++ [block]
    validTokens := seq.validTokens ++ [0] }

/-- Takes `count` blocks; an allocator failure gives every new block back. -/
def allocateEntries (previousBlockCount : Nat) : Nat → KvM Unit
  | 0 => pure ()
  | count + 1 => do
      match ← attempt allocateEntry with
      | .ok () => allocateEntries previousBlockCount count
      | .error error => do
          rollbackNewBlocks previousBlockCount
          throw error

/-- Reserves the blocks that `target` needs and leaves the committed length. -/
def reserveTo (target : Nat) : KvM SequenceReservation := do
  let ⟨seq, pool⟩ ← get
  fromExcept (seq.ensureMutable pool)
  rejectIf seq.pending.isSome .reservationInProgress
  rejectIf (target < seq.logicalLength) (.lengthRegression seq.logicalLength target)
  rejectIf (seq.maximumLogicalLength < target)
    (.capacityExceeded target seq.maximumLogicalLength)
  rejectIf (u32Max < target) (.capacityExceeded target seq.maximumLogicalLength)
  let additional := seq.additionalBlocksFor target
  rejectIf (pool.freeBlockCount < additional)
    (.outOfBlocks additional pool.freeBlockCount)
  runIf (seq.allocatedBlockCount ≠ 0)
    (fromExcept (seq.validateHeldBlock pool (seq.allocatedBlockCount - 1)))
  let nonce := seq.nextReservationNonce
  let nextNonce ← orReject (checkedAdd u64Max nonce 1) .reservationNonceExhausted
  let previousBlockCount := seq.allocatedBlockCount
  allocateEntries previousBlockCount additional
  modifySeq (fillValidTokens target (blocksForLength target))
  modifySeq fun seq => { seq with
    pending := some ⟨nonce, previousBlockCount, target⟩
    nextReservationNonce := nextNonce }
  return ⟨seq.poolCookie, seq.sequenceId, nonce, previousBlockCount, target⟩

/-- Publishes the tentative length after successful device execution. -/
def commit (reservation : SequenceReservation) : KvM ReservationCommit := do
  let ⟨seq, pool⟩ ← get
  fromExcept (seq.ensurePool pool)
  fromExcept (seq.validateReservation reservation)
  let firstChanged :=
    if seq.logicalLength < reservation.targetLogicalLength then
      seq.logicalLength / kvBlockSize
    else
      seq.allocatedBlockCount
  let changed := List.range' firstChanged (seq.allocatedBlockCount - firstChanged)
  forEach changed fun index => do
    let block ← fromExcept (seq.allocatedBlock index)
    fromExcept (pool.validateBlock block seq.sequenceId)
  forEach changed fun index => do
    let block ← fromExcept (seq.allocatedBlock index)
    onPool (KvBlockPool.clearSidecar block seq.sequenceId)
  modifySeq fun seq => { seq with
    pending := none
    logicalLength := reservation.targetLogicalLength }
  return ⟨seq.logicalLength, reservation.targetLogicalLength, seq.allocatedBlockCount⟩

/-- Abandons a reservation known not to have mutated device content. -/
def rollback (reservation : SequenceReservation) : KvM Unit := do
  let ⟨seq, pool⟩ ← get
  fromExcept (seq.ensurePool pool)
  fromExcept (seq.validateReservation reservation)
  rollbackPending

/-- Rolls tentative blocks back and poisons the sequence. -/
def poison (reservation : SequenceReservation) : KvM Unit := do
  let ⟨seq, pool⟩ ← get
  fromExcept (seq.ensurePool pool)
  fromExcept (seq.validateReservation reservation)
  modifySeq fun seq => { seq with poisoned := true }
  forEach (List.range seq.allocatedBlockCount) fun index =>
    fromExcept (seq.validateHeldBlock pool index)
  forEach (List.range' seq.sharedBlockCount
      (seq.allocatedBlockCount - seq.sharedBlockCount)) fun index => do
    let block ← fromExcept (seq.allocatedBlock index)
    onPool (KvBlockPool.clearSidecar block seq.sequenceId)
  rollbackPending

/-- Recovers a lost reservation token by rolling back and poisoning. -/
def rollbackAbandonedReservation : KvM Unit := do
  let ⟨seq, pool⟩ ← get
  fromExcept (seq.ensurePool pool)
  rejectIf seq.pending.isNone .noReservationInProgress
  modifySeq fun seq => { seq with poisoned := true }
  rollbackPending

/-- Shrinks the committed state and releases the blocks past its new end. -/
def truncateTo (target : Nat) : KvM Unit := do
  let ⟨seq, pool⟩ ← get
  fromExcept (seq.ensureMutable pool)
  rejectIf seq.pending.isSome .reservationInProgress
  rejectIf (seq.logicalLength < target)
    (.invalidTruncateLength seq.logicalLength target)
  rejectIf (target < seq.sharedBlockCount * kvBlockSize)
    (.invalidTruncateLength seq.logicalLength target)
  let targetBlocks := blocksForLength target
  forEach (List.range' targetBlocks (seq.allocatedBlockCount - targetBlocks))
    fun index => fromExcept (seq.validateHeldBlock pool index)
  runIf (targetBlocks ≠ 0 ∧ target ≠ seq.logicalLength)
    (fromExcept (seq.validateHeldBlock pool (targetBlocks - 1)))
  runIf (seq.sharedBlockCount < targetBlocks ∧ target ≠ seq.logicalLength) do
    let tail ← fromExcept (seq.allocatedBlock (targetBlocks - 1))
    onPool (KvBlockPool.clearSidecar tail seq.sequenceId)
  releaseTail targetBlocks
  modifySeq fun seq => { seq with logicalLength := target }
  modifySeq (fillValidTokens target targetBlocks)

/-- Releases all blocks and clears poison and pending state. -/
def reset : KvM Unit := do
  let ⟨seq, pool⟩ ← get
  fromExcept (seq.ensurePool pool)
  runIf seq.pending.isSome rollbackPending
  let ⟨seq, pool⟩ ← get
  forEach (List.range seq.allocatedBlockCount) fun index =>
    fromExcept (seq.validateHeldBlock pool index)
  releaseTail 0
  modifySeq fun seq => { seq with
    logicalLength := 0
    pending := none
    poisoned := false }

def close : KvM Unit := reset

/-- Associates metadata with one committed block. -/
def attachSidecar (logicalBlockIndex : Nat) (metadata : OptionalBlockMetadata) :
    KvM Unit := do
  let ⟨seq, pool⟩ ← get
  fromExcept seq.ensureReadable
  fromExcept (seq.ensurePool pool)
  let block ← fromExcept (seq.committedBlock logicalBlockIndex)
  onPool (KvBlockPool.attachSidecar block seq.sequenceId metadata)

def abandonForReclaim (seq : SequenceState) : SequenceReclaimToken where
  owner := seq.sequenceId
  blockIds := seq.blockIds
  sharedBlockCount := seq.sharedBlockCount

end SequenceState

/-- One answer of the host allocator; an exhausted list answers yes. -/
def hostReserve {ε : Type} (error : ε) : EStateM ε (List Bool) Unit := do
  match ← get with
  | [] => pure ()
  | answer :: rest =>
      set rest
      rejectIf (answer = false) error

/-- Creates a pool-bound sequence. Its three host arrays are reserved before
the sequence identifier is used up. -/
def KvBlockPool.createSequence (maximumLogicalLength : Nat) :
    EStateM PagedKvError (KvBlockPool × List Bool) SequenceState := do
  rejectIf (maximumLogicalLength = 0)
    (.invalidConfiguration "maximum_logical_length" "must be non-zero")
  rejectIf (u32Max < maximumLogicalLength)
    (.invalidConfiguration "maximum_logical_length" "must fit the U32 block table")
  let ⟨pool, _⟩ ← get
  let sequenceValue := pool.nextSequenceId
  let next ← orReject (checkedAdd u64Max sequenceValue 1) .sequenceIdExhausted
  forEach ["sequence_block_handles", "sequence_physical_ids", "sequence_valid_tokens"]
    fun resource =>
      zoom Prod.snd (fun host state => (state.1, host)) id
        (hostReserve (.hostAllocation resource))
  modify fun state => ({ state.1 with nextSequenceId := next }, state.2)
  return SequenceState.new pool.cookie ⟨pool.cookie, sequenceValue⟩ maximumLogicalLength

end Riley.PagedKv
