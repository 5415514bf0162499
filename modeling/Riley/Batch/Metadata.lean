import Mathlib
import Riley.Library.Agreement
import Riley.Machine
import Riley.PagedKv.Pool

/-!
The host metadata of one mixed batch of prefill and decode rows. A prepared object owns
the buffers; a call validates borrowed rows and packs them into flat arrays, in which the
values of a row stand between two offsets.

Validation marks blocks and output slots by the number of the call, so that the marks need
not be cleared between calls. The target has 64 bits: a 32-bit value always converts.
-/

namespace Riley.Batch

open Outcome
open PagedKv (kvBlockSize)

inductive LlamaBatchError
  | invalidConfiguration (field reason : String)
  | capacityExceeded (resource : String) (requested capacity : Nat)
  | arithmeticOverflow (field : String)
  | hostAllocation (resource : String) (requestedElements : Nat)
  | unsupportedSchemaVersion (resource : String) (expected actual : Nat)
  | invalidBatch (field reason : String)
  /-- No error of the source: an index would be out of bounds. -/
  | panicked
  deriving DecidableEq, Repr

def llamaBatchMetadataV1Version : Nat := 1
def blockTableV1Version : Nat := 1

/-- What stands for the output slot of a row that has none. -/
def llamaBatchNoOutputSlot : Nat := u32Max

section Rows

inductive LlamaBatchRowKind
  | prefill
  | decode
  deriving DecidableEq, Repr

def LlamaBatchRowKind.code : LlamaBatchRowKind → Nat
  | .prefill => 0
  | .decode => 1

structure LlamaBatchBlockTable where
  schemaVersion : Nat
  physicalBlockIds : List Nat
  validTokens : List Nat
  logicalLength : Nat
  deriving DecidableEq, Repr

structure LlamaBatchRow where
  sequenceTag : Nat
  kind : LlamaBatchRowKind
  inputTokenIds : List Nat
  targetLogicalLength : Nat
  blockTable : LlamaBatchBlockTable
  outputSlot : Option Nat
  deriving DecidableEq, Repr

end Rows

section Checks

def require (condition : Prop) [Decidable condition] (error : LlamaBatchError) :
    Except LlamaBatchError (PLift condition) :=
  if h : condition then .ok ⟨h⟩ else .error error

def validatePositive (field : String) (value : Nat) :
    Except LlamaBatchError (PLift (0 < value)) :=
  require _ (.invalidConfiguration field "must be greater than zero")

def validateU32Bound (field : String) (value : Nat) :
    Except LlamaBatchError (PLift (value ≤ u32Max)) :=
  require _ (.invalidConfiguration field "must fit the V1 u32 transport representation")

def ensureCapacity (resource : String) (requested capacity : Nat) :
    Except LlamaBatchError (PLift (requested ≤ capacity)) :=
  require _ (.capacityExceeded resource requested capacity)

def checkedU32 (value : Nat) (field : String) : Except LlamaBatchError Nat :=
  if value ≤ u32Max then .ok value else .error (.arithmeticOverflow field)

end Checks

/-- The bounds of the buffers. Only bounds that pass every check can be built. -/
structure LlamaBatchMetadataConfig where
  maxRows : Nat
  maxInputTokens : Nat
  maxBlockEntries : Nat
  maxOutputSlots : Nat
  physicalBlockCount : Nat
  maxRows_pos : 0 < maxRows
  maxInputTokens_le : maxInputTokens ≤ u32Max
  physicalBlockCount_le : physicalBlockCount ≤ u32Max
  maxRows_le_inputTokens : maxRows ≤ maxInputTokens
  maxRows_le_blockEntries : maxRows ≤ maxBlockEntries
  maxOutputSlots_le : maxOutputSlots ≤ maxRows
  maxBlockEntries_le : maxBlockEntries ≤ physicalBlockCount

namespace LlamaBatchMetadataConfig

def new (maxRows maxInputTokens maxBlockEntries maxOutputSlots physicalBlockCount : Nat) :
    Except LlamaBatchError LlamaBatchMetadataConfig := do
  let ⟨hrows⟩ ← validatePositive "max_rows" maxRows
  let _ ← validatePositive "max_input_tokens" maxInputTokens
  let _ ← validatePositive "max_block_entries" maxBlockEntries
  let _ ← validatePositive "physical_block_count" physicalBlockCount
  let _ ← validateU32Bound "max_rows" maxRows
  let ⟨hinput⟩ ← validateU32Bound "max_input_tokens" maxInputTokens
  let _ ← validateU32Bound "max_block_entries" maxBlockEntries
  let _ ← validateU32Bound "max_output_slots" maxOutputSlots
  let ⟨hphysical⟩ ← validateU32Bound "physical_block_count" physicalBlockCount
  let ⟨hrowsInput⟩ ← require (maxRows ≤ maxInputTokens)
    (.invalidConfiguration "max_input_tokens" "must permit at least one input token per row")
  let ⟨hrowsBlock⟩ ← require (maxRows ≤ maxBlockEntries)
    (.invalidConfiguration "max_block_entries" "must permit at least one physical block per row")
  let ⟨houtput⟩ ← require (maxOutputSlots ≤ maxRows)
    (.invalidConfiguration "max_output_slots" "cannot exceed max_rows")
  let ⟨hblock⟩ ← require (maxBlockEntries ≤ physicalBlockCount)
    (.invalidConfiguration "max_block_entries" "cannot exceed the exclusive physical block pool")
  let _ ← require (maxRows + 1 ≤ usizeMax) (.arithmeticOverflow "row offset capacity")
  .ok { maxRows, maxInputTokens, maxBlockEntries, maxOutputSlots, physicalBlockCount
        maxRows_pos := hrows
        maxInputTokens_le := hinput
        physicalBlockCount_le := hphysical
        maxRows_le_inputTokens := hrowsInput
        maxRows_le_blockEntries := hrowsBlock
        maxOutputSlots_le := houtput
        maxBlockEntries_le := hblock }

theorem require_of {condition : Prop} [Decidable condition] (error : LlamaBatchError)
    (h : condition) : require condition error = .ok ⟨h⟩ := by
  simp [require, h]

/-- Every configuration is one that its own bounds make. -/
theorem new_self (config : LlamaBatchMetadataConfig) :
    new config.maxRows config.maxInputTokens config.maxBlockEntries config.maxOutputSlots
      config.physicalBlockCount = .ok config := by
  obtain ⟨rows, input, blocks, outputs, physical, hrows, hinput, hphysical, hrowsInput,
    hrowsBlock, houtput, hblock⟩ := config
  have husize : u32Max + 1 ≤ usizeMax := by decide
  unfold new
  simp only [validatePositive, validateU32Bound, bind, Except.bind]
  rw [require_of _ hrows, require_of _ (by omega), require_of _ (by omega),
    require_of _ (by omega), require_of _ (by omega), require_of _ hinput,
    require_of _ (by omega), require_of _ (by omega), require_of _ hphysical,
    require_of _ hrowsInput, require_of _ hrowsBlock, require_of _ houtput,
    require_of _ hblock, require_of _ (by omega)]

end LlamaBatchMetadataConfig

/-- The packed arrays. -/
@[ext] structure PackedArrays where
  sequenceTags : List Nat
  rowKindCodes : List Nat
  inputRowOffsets : List Nat
  inputTokenIds : List Nat
  positionIds : List Nat
  rowSequenceSlots : List Nat
  blockRowOffsets : List Nat
  physicalBlockIds : List Nat
  validTokens : List Nat
  logicalLengths : List Nat
  outputSlotsByRow : List Nat
  outputRowIndices : List Nat
  outputTokenIndices : List Nat
  prefillRowIndices : List Nat
  decodeRowIndices : List Nat
  deriving DecidableEq, Repr

def PackedArrays.empty : PackedArrays := ⟨[], [], [], [], [], [], [], [], [], [], [], [], [], [], []⟩

variable {config : LlamaBatchMetadataConfig}

/-- The owner of all buffers of a batch. -/
structure PreparedLlamaBatchMetadata (config : LlamaBatchMetadataConfig) extends PackedArrays where
  validationSequenceTags : List Nat
  outputSlotMarks : Vector UInt64 config.maxOutputSlots
  physicalBlockMarks : Vector UInt64 config.physicalBlockCount
  validationEpoch : UInt64

/-- What was counted while the rows were checked. -/
structure ValidatedBatch where
  totalInputTokens : Nat
  totalBlockEntries : Nat
  outputCount : Nat
  prefillRows : Nat
  decodeRows : Nat
  prefillTokens : Nat
  decodeTokens : Nat
  deriving DecidableEq, Repr

def ValidatedBatch.zero : ValidatedBatch := ⟨0, 0, 0, 0, 0, 0, 0⟩

/-- A packed batch as its reader sees it. -/
structure LlamaPackedBatchMetadata extends PackedArrays where
  schemaVersion : Nat
  blockTableSchemaVersion : Nat
  prefillTokenCount : Nat
  decodeTokenCount : Nat
  deriving DecidableEq, Repr

section Validation

def duplicateTagError : LlamaBatchError :=
  .invalidBatch "sequence_tag" "a sequence may appear at most once per iteration"

def blockAliasError : LlamaBatchError :=
  .invalidBatch "block_table.physical_block_ids"
    "physical blocks written by a row must not alias another row"

def slotTakenError : LlamaBatchError :=
  .invalidBatch "output_slot" "output slots must be unique within an iteration"

def slotGapError : LlamaBatchError :=
  .invalidBatch "output_slot" "output slots must be dense and zero-based"

/-- What validation remembers of the rows it has seen. -/
structure Marking (config : LlamaBatchMetadataConfig) (μ : Type) where
  tag : Nat → EStateM LlamaBatchError μ Unit
  block : Fin config.physicalBlockCount → Bool → EStateM LlamaBatchError μ Unit
  slot : Fin config.maxOutputSlots → EStateM LlamaBatchError μ Unit
  dense : (count : Nat) → count ≤ config.maxOutputSlots → EStateM LlamaBatchError μ Unit

/-- The object's own marks, of a call with that number. -/
def epochMarking (config : LlamaBatchMetadataConfig) (epoch : UInt64) :
    Marking config (PreparedLlamaBatchMetadata config) where
  tag sequenceTag := do
    let self ← get
    rejectIf (sequenceTag ∈ self.validationSequenceTags) duplicateTagError
    set { self with validationSequenceTags := self.validationSequenceTags ++ [sequenceTag] }
  block physicalIndex write := do
    let self ← get
    let mark := self.physicalBlockMarks[physicalIndex]
    rejectIf (mark >>> 1 = epoch ∧ (write = true ∨ mark &&& 1 = 1)) blockAliasError
    set { self with
      physicalBlockMarks :=
        self.physicalBlockMarks.set physicalIndex (epoch <<< 1 ||| write.toUInt64) }
  slot slotIndex := do
    let self ← get
    rejectIf (self.outputSlotMarks[slotIndex] = epoch) slotTakenError
    set { self with outputSlotMarks := self.outputSlotMarks.set slotIndex epoch }
  dense outputCount _ := do
    let self ← get
    rejectIf (∃ mark ∈ self.outputSlotMarks.toList.take outputCount, mark ≠ epoch) slotGapError

variable {μ : Type}

/-- The number of valid tokens that a block must have. -/
def expectedValid (targetLength requiredBlocks blockIndex : Nat) : Nat :=
  if blockIndex + 1 = requiredBlocks then
    if targetLength % kvBlockSize = 0 then kvBlockSize else targetLength % kvBlockSize
  else kvBlockSize

/-- The blocks of a row from an index on, with the sum of their valid tokens. -/
def validateBlocks (marking : Marking config μ) (targetLength requiredBlocks firstWritten : Nat) :
    Nat → List (Nat × Nat) → Nat → EStateM LlamaBatchError μ Nat
  | _, [], validTokenSum => pure validTokenSum
  | blockIndex, (physicalId, validTokens) :: rest, validTokenSum =>
      if h : physicalId < config.physicalBlockCount then do
        marking.block ⟨physicalId, h⟩ (decide (firstWritten ≤ blockIndex))
        rejectIf (validTokens ≠ expectedValid targetLength requiredBlocks blockIndex)
          (.invalidBatch "block_table.valid_tokens"
            "must contain full blocks followed by one canonical tail")
        let validTokenSum ← orReject (checkedAdd usizeMax validTokenSum validTokens)
          (.arithmeticOverflow "block table valid-token sum")
        validateBlocks marking targetLength requiredBlocks firstWritten (blockIndex + 1) rest
          validTokenSum
      else
        throw (.invalidBatch "block_table.physical_block_ids"
          "physical block ID is outside the prepared pool")

def validateBlockTable (marking : Marking config μ) (row : LlamaBatchRow) (targetLength : Nat) :
    EStateM LlamaBatchError μ Unit := do
  let table := row.blockTable
  rejectIf (table.schemaVersion ≠ blockTableV1Version)
    (.unsupportedSchemaVersion "Llama batch block table" blockTableV1Version table.schemaVersion)
  rejectIf (table.logicalLength ≠ row.targetLogicalLength)
    (.invalidBatch "block_table.logical_length" "must equal the row target logical length")
  rejectIf (table.physicalBlockIds.length ≠ table.validTokens.length)
    (.invalidBatch "block_table"
      "physical IDs and valid-token vectors must have equal length")
  let requiredBlocks := (targetLength + (kvBlockSize - 1)) / kvBlockSize
  rejectIf (table.physicalBlockIds.length ≠ requiredBlocks)
    (.invalidBatch "block_table" "block count must exactly address the target logical length")
  let firstWritten := (targetLength - row.inputTokenIds.length) / kvBlockSize
  let validTokenSum ← validateBlocks marking targetLength requiredBlocks firstWritten 0
    (table.physicalBlockIds.zip table.validTokens) 0
  rejectIf (validTokenSum ≠ targetLength)
    (.invalidBatch "block_table.valid_tokens"
      "valid-token sum must equal the target logical length")

/-- What one row adds to the counts of its kind. -/
def countKind (row : LlamaBatchRow) (totals : ValidatedBatch) :
    Except LlamaBatchError ValidatedBatch :=
  let add (field : String) (count more : Nat) : Except LlamaBatchError Nat :=
    match checkedAdd usizeMax count more with
    | some sum => .ok sum
    | none => .error (.arithmeticOverflow field)
  match row.kind with
  | .prefill => do
      let rows ← add "prefill row count" totals.prefillRows 1
      let tokens ← add "prefill token count" totals.prefillTokens row.inputTokenIds.length
      .ok { totals with prefillRows := rows, prefillTokens := tokens }
  | .decode => do
      let rows ← add "decode row count" totals.decodeRows 1
      let tokens ← add "decode token count" totals.decodeTokens row.inputTokenIds.length
      .ok { totals with decodeRows := rows, decodeTokens := tokens }

def validateSlot (marking : Marking config μ) (row : LlamaBatchRow) (totals : ValidatedBatch) :
    EStateM LlamaBatchError μ ValidatedBatch :=
  match row.outputSlot with
  | none => pure totals
  | some slot => do
      let requested ← orReject (checkedAdd usizeMax slot 1)
        (.arithmeticOverflow "output slot extent")
      if h : slot < config.maxOutputSlots then do
        marking.slot ⟨slot, h⟩
        let outputCount ← orReject (checkedAdd usizeMax totals.outputCount 1)
          (.arithmeticOverflow "output slot count")
        pure { totals with outputCount }
      else throw (.capacityExceeded "output slot index" requested config.maxOutputSlots)

def validateRow (marking : Marking config μ) (row : LlamaBatchRow) (totals : ValidatedBatch) :
    EStateM LlamaBatchError μ ValidatedBatch := do
  marking.tag row.sequenceTag
  rejectIf (row.inputTokenIds = [])
    (.invalidBatch "input_token_ids" "every row must contain at least one input token")
  rejectIf (row.kind = .decode ∧ row.inputTokenIds.length ≠ 1)
    (.invalidBatch "input_token_ids" "decode rows must contain exactly one input token")
  rejectIf (row.kind = .decode ∧ row.outputSlot = none)
    (.invalidBatch "output_slot" "decode rows must request one sampled output")
  let inputCount := row.inputTokenIds.length
  let targetLength := row.targetLogicalLength
  rejectIf (targetLength < inputCount)
    (.invalidBatch "target_logical_length" "cannot be shorter than the row input slice")
  let totalInputTokens ← orReject (checkedAdd usizeMax totals.totalInputTokens inputCount)
    (.arithmeticOverflow "total input tokens")
  let _ ← fromExcept (ensureCapacity "input tokens" totalInputTokens config.maxInputTokens)
  let totals ← fromExcept (countKind row { totals with totalInputTokens })
  validateBlockTable marking row targetLength
  let totalBlockEntries ← orReject
    (checkedAdd usizeMax totals.totalBlockEntries row.blockTable.physicalBlockIds.length)
    (.arithmeticOverflow "total block entries")
  let _ ← fromExcept (ensureCapacity "block entries" totalBlockEntries config.maxBlockEntries)
  validateSlot marking row { totals with totalBlockEntries }

def validateRows (marking : Marking config μ) :
    List LlamaBatchRow → ValidatedBatch → EStateM LlamaBatchError μ ValidatedBatch
  | [], totals => pure totals
  | row :: rest, totals => do
      let totals ← validateRow marking row totals
      validateRows marking rest totals

/-- The pass over the rows, and the look at all output slots behind it. -/
def validateMarked (marking : Marking config μ) (rows : List LlamaBatchRow) :
    EStateM LlamaBatchError μ ValidatedBatch := do
  let totals ← validateRows marking rows .zero
  let ⟨h⟩ ← fromExcept (ensureCapacity "output slots" totals.outputCount config.maxOutputSlots)
  marking.dense totals.outputCount h
  pure totals

end Validation

namespace PreparedLlamaBatchMetadata

def reserveVec (grants : String → Nat → Bool) (capacity : Nat) (resource : String) :
    Except LlamaBatchError (List Nat) :=
  if grants resource capacity then .ok [] else .error (.hostAllocation resource capacity)

def zeroedVec (grants : String → Nat → Bool) (capacity : Nat) (resource : String) :
    Except LlamaBatchError (Vector UInt64 capacity) :=
  if grants resource capacity then .ok (Vector.replicate capacity 0)
  else .error (.hostAllocation resource capacity)

/-- The object before its first call, where the host grants every buffer. -/
def prepare (grants : String → Nat → Bool) (config : LlamaBatchMetadataConfig) :
    Except LlamaBatchError (PreparedLlamaBatchMetadata config) := do
  let ⟨_⟩ ← require (config.maxRows + 1 ≤ usizeMax) (.arithmeticOverflow "row offset capacity")
  let rowOffsets := config.maxRows + 1
  let sequenceTags ← reserveVec grants config.maxRows "sequence tags"
  let rowKindCodes ← reserveVec grants config.maxRows "row kind codes"
  let inputRowOffsets ← reserveVec grants rowOffsets "input row offsets"
  let inputTokenIds ← reserveVec grants config.maxInputTokens "input token IDs"
  let positionIds ← reserveVec grants config.maxInputTokens "position IDs"
  let rowSequenceSlots ← reserveVec grants config.maxInputTokens "token row sequence slots"
  let blockRowOffsets ← reserveVec grants rowOffsets "block row offsets"
  let physicalBlockIds ← reserveVec grants config.maxBlockEntries "physical block IDs"
  let validTokens ← reserveVec grants config.maxBlockEntries "block valid tokens"
  let logicalLengths ← reserveVec grants config.maxRows "logical lengths"
  let outputSlotsByRow ← reserveVec grants config.maxRows "per-row output slots"
  let outputRowIndices ← reserveVec grants config.maxOutputSlots "output row indices"
  let outputTokenIndices ← reserveVec grants config.maxOutputSlots "output token indices"
  let prefillRowIndices ← reserveVec grants config.maxRows "prefill row indices"
  let decodeRowIndices ← reserveVec grants config.maxRows "decode row indices"
  let validationSequenceTags ← reserveVec grants config.maxRows "validation sequence tags"
  let outputSlotMarks ← zeroedVec grants config.maxOutputSlots "output slot marks"
  let physicalBlockMarks ← zeroedVec grants config.physicalBlockCount "physical block marks"
  .ok { sequenceTags, rowKindCodes, inputRowOffsets, inputTokenIds, positionIds, rowSequenceSlots
        blockRowOffsets, physicalBlockIds, validTokens, logicalLengths, outputSlotsByRow
        outputRowIndices, outputTokenIndices, prefillRowIndices, decodeRowIndices
        validationSequenceTags, outputSlotMarks, physicalBlockMarks
        validationEpoch := 0 }

/-- Numbers the call. Behind the last number the marks are cleared, and counting starts
over. -/
def advanceValidationEpoch (self : PreparedLlamaBatchMetadata config) :
    PreparedLlamaBatchMetadata config :=
  if self.validationEpoch.toNat + 1 ≤ u64Max then
    { self with validationEpoch := self.validationEpoch + 1 }
  else
    { self with
      outputSlotMarks := Vector.replicate _ 0
      physicalBlockMarks := Vector.replicate _ 0
      validationEpoch := 1 }

def validate (rows : List LlamaBatchRow) :
    EStateM LlamaBatchError (PreparedLlamaBatchMetadata config) ValidatedBatch := do
  rejectIf (rows = []) (.invalidBatch "rows" "an iteration must contain at least one row")
  let _ ← fromExcept (ensureCapacity "rows" rows.length config.maxRows)
  modify advanceValidationEpoch
  let epoch := (← get).validationEpoch
  modify fun self => { self with validationSequenceTags := [] }
  validateMarked (epochMarking config epoch) rows

def clearPacked (self : PreparedLlamaBatchMetadata config) : PreparedLlamaBatchMetadata config :=
  { self with toPackedArrays := .empty }

/-- Where the output of a row is read, kept at the slot that the row asks for. -/
def packSlot (rowIndex tokenOffset : Nat) (row : LlamaBatchRow) :
    EStateM LlamaBatchError PackedArrays Unit :=
  match row.outputSlot with
  | none =>
      modify fun self =>
        { self with outputSlotsByRow := self.outputSlotsByRow ++ [llamaBatchNoOutputSlot] }
  | some slot => do
      modify fun self => { self with outputSlotsByRow := self.outputSlotsByRow ++ [slot] }
      rejectIf ((← get).outputRowIndices.length ≤ slot) .panicked
      modify fun self => { self with outputRowIndices := self.outputRowIndices.set slot rowIndex }
      let lastToken ← orReject (checkedSub tokenOffset 1) (.arithmeticOverflow "output token index")
      rejectIf ((← get).outputTokenIndices.length ≤ slot) .panicked
      modify fun self =>
        { self with outputTokenIndices := self.outputTokenIndices.set slot lastToken }

/-- Appends a row, and tells the offsets behind it. -/
def packRow (rowIndex tokenOffset blockOffset : Nat) (row : LlamaBatchRow) :
    EStateM LlamaBatchError PackedArrays (Nat × Nat) := do
  let rowIndex ← fromExcept (checkedU32 rowIndex "row index")
  let inputCount ← fromExcept (checkedU32 row.inputTokenIds.length "row input token count")
  let blockCount ← fromExcept
    (checkedU32 row.blockTable.physicalBlockIds.length "row block count")
  let startPosition ← orReject (checkedSub row.targetLogicalLength inputCount)
    (.arithmeticOverflow "row start position")
  let tokenOffset ← orReject (checkedAdd u32Max tokenOffset inputCount)
    (.arithmeticOverflow "input CSR offset")
  let blockOffset ← orReject (checkedAdd u32Max blockOffset blockCount)
    (.arithmeticOverflow "block CSR offset")
  modify fun self =>
    { self with
      sequenceTags := self.sequenceTags ++ [row.sequenceTag]
      rowKindCodes := self.rowKindCodes ++ [row.kind.code]
      inputTokenIds := self.inputTokenIds ++ row.inputTokenIds
      positionIds := self.positionIds ++
        List.range' startPosition (row.targetLogicalLength - startPosition)
      rowSequenceSlots :=
        self.rowSequenceSlots ++ List.replicate row.inputTokenIds.length rowIndex
      inputRowOffsets := self.inputRowOffsets ++ [tokenOffset]
      physicalBlockIds := self.physicalBlockIds ++ row.blockTable.physicalBlockIds
      validTokens := self.validTokens ++ row.blockTable.validTokens
      blockRowOffsets := self.blockRowOffsets ++ [blockOffset]
      logicalLengths := self.logicalLengths ++ [row.targetLogicalLength] }
  match row.kind with
  | .prefill =>
      modify fun self => { self with prefillRowIndices := self.prefillRowIndices ++ [rowIndex] }
  | .decode =>
      modify fun self => { self with decodeRowIndices := self.decodeRowIndices ++ [rowIndex] }
  packSlot rowIndex tokenOffset row
  pure (tokenOffset, blockOffset)

def packRows : Nat → Nat → Nat → List LlamaBatchRow → EStateM LlamaBatchError PackedArrays Unit
  | _, _, _, [] => pure ()
  | rowIndex, tokenOffset, blockOffset, row :: rest => do
      let (tokenOffset, blockOffset) ← packRow rowIndex tokenOffset blockOffset row
      packRows (rowIndex + 1) tokenOffset blockOffset rest

/-- The rows as they are packed: as they came, or decode rows before the others. -/
def ordered (decodeFirst : Bool) (rows : List LlamaBatchRow) : List LlamaBatchRow :=
  rows.filter (fun row => !decodeFirst || row.kind == .decode) ++
    rows.filter (fun row => decodeFirst && row.kind != .decode)

def view (self : PreparedLlamaBatchMetadata config) (validated : ValidatedBatch) :
    LlamaPackedBatchMetadata where
  toPackedArrays := self.toPackedArrays
  schemaVersion := llamaBatchMetadataV1Version
  blockTableSchemaVersion := blockTableV1Version
  prefillTokenCount := validated.prefillTokens
  decodeTokenCount := validated.decodeTokens

/-- Only the packed arrays are written. -/
def onPacked (action : EStateM LlamaBatchError PackedArrays Unit) :
    EStateM LlamaBatchError (PreparedLlamaBatchMetadata config) Unit :=
  zoom (·.toPackedArrays) (fun arrays self => { self with toPackedArrays := arrays }) id action

def packOrdered (rows : List LlamaBatchRow) (decodeFirst : Bool) :
    EStateM LlamaBatchError (PreparedLlamaBatchMetadata config) LlamaPackedBatchMetadata := do
  let validated ← validate rows
  modify clearPacked
  modify fun self =>
    { self with
      outputRowIndices := List.replicate validated.outputCount llamaBatchNoOutputSlot
      outputTokenIndices := List.replicate validated.outputCount llamaBatchNoOutputSlot
      inputRowOffsets := self.inputRowOffsets ++ [0]
      blockRowOffsets := self.blockRowOffsets ++ [0] }
  onPacked (packRows 0 0 0 (ordered decodeFirst rows))
  return (← get).view validated

def pack (rows : List LlamaBatchRow) :
    EStateM LlamaBatchError (PreparedLlamaBatchMetadata config) LlamaPackedBatchMetadata :=
  packOrdered rows false

def packDecodeFirst (rows : List LlamaBatchRow) :
    EStateM LlamaBatchError (PreparedLlamaBatchMetadata config) LlamaPackedBatchMetadata :=
  packOrdered rows true

end PreparedLlamaBatchMetadata

section Readers

/-- The values between two offsets, where both are there. -/
def csrRow (offsets values : List Nat) (rowIndex : Nat) : Option (List Nat) := do
  let start ← offsets[rowIndex]?
  let stop ← offsets[rowIndex + 1]?
  if start ≤ stop ∧ stop ≤ values.length then some ((values.take stop).drop start) else none

namespace LlamaPackedBatchMetadata

def inputTokensForRow (packed : LlamaPackedBatchMetadata) (rowIndex : Nat) : Option (List Nat) :=
  csrRow packed.inputRowOffsets packed.inputTokenIds rowIndex

def positionsForRow (packed : LlamaPackedBatchMetadata) (rowIndex : Nat) : Option (List Nat) :=
  csrRow packed.inputRowOffsets packed.positionIds rowIndex

def physicalBlocksForRow (packed : LlamaPackedBatchMetadata) (rowIndex : Nat) :
    Option (List Nat) :=
  csrRow packed.blockRowOffsets packed.physicalBlockIds rowIndex

def validTokensForRow (packed : LlamaPackedBatchMetadata) (rowIndex : Nat) : Option (List Nat) :=
  csrRow packed.blockRowOffsets packed.validTokens rowIndex

def outputSlotForRow (packed : LlamaPackedBatchMetadata) (rowIndex : Nat) : Option Nat :=
  packed.outputSlotsByRow[rowIndex]?.filter (· ≠ llamaBatchNoOutputSlot)

end LlamaPackedBatchMetadata

end Readers

end Riley.Batch
