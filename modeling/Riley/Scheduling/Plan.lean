import Mathlib
import Riley.PagedKv.Sequence
import Riley.Scheduling.Config

/-!
Immutable, owned scheduler-to-runtime plans and runtime-to-scheduler results,
with their validators.
-/

namespace Riley.Scheduling

open PagedKv Outcome

abbrev TokenId := Nat

/-- Stable output-routing index within an iteration plan. -/
abbrev OutputSlot := Nat

def iterationSchemaVersion : Nat := 1

/-- Actions that only reserve host memory. -/
abbrev HostM := EStateM SchedulerError (List Bool)

/-- `try_reserve_exact` of the buffer that an allocation error names. -/
def tryReserveExact (resource : String) : HostM Unit :=
  hostReserve (.hostAllocation resource)

/-- Stage of model work represented by one item. -/
inductive WorkKind where
  | prefill
  | decode
  deriving DecidableEq, Repr

/-- Owned snapshot of the physical KV blocks visible to one request. -/
structure OwnedBlockTable where
  requestId : RequestId
  schemaVersion : Nat
  physicalBlockIds : List Nat
  validTokens : List Nat
  logicalLength : Nat
  deriving DecidableEq

namespace OwnedBlockTable

/-- The valid count of one table entry. -/
def expectedTokens (requiredBlocks logicalLength index : Nat) : Nat :=
  if index + 1 = requiredBlocks then
    let tail := logicalLength % kvBlockSize
    if tail = 0 then kvBlockSize else tail
  else
    kvBlockSize

/-- The pass over the entries of a table; returns the valid-token sum. -/
def checkEntries (requiredBlocks logicalLength : Nat) :
    Nat → List Nat → Nat → List (Nat × Nat) → Except SchedulerError Nat
  | _, _, tokenSum, [] => .ok tokenSum
  | index, uniqueIds, tokenSum, (physicalId, valid) :: rest =>
      if physicalId ∈ uniqueIds then
        .error (.invalidPlan "block_tables"
          "physical block IDs must be unique within one table")
      else if valid ≠ expectedTokens requiredBlocks logicalLength index then
        .error (.invalidPlan "block_tables"
          "valid-token counts must be full blocks followed by one canonical tail")
      else
        match checkedAdd usizeMax tokenSum valid with
        | none => .error (.arithmeticOverflow "block table valid-token sum")
        | some tokenSum =>
            checkEntries requiredBlocks logicalLength (index + 1)
              (physicalId :: uniqueIds) tokenSum rest

def new (requestId : RequestId) (schemaVersion : Nat) (physicalBlockIds : List Nat)
    (validTokens : List Nat) (logicalLength : Nat) : HostM OwnedBlockTable := do
  rejectIf (schemaVersion ≠ blockTableV1Version)
    (.unsupportedSchemaVersion "block table" blockTableV1Version schemaVersion)
  rejectIf (physicalBlockIds.length ≠ validTokens.length)
    (.invalidPlan "block_tables"
      "physical IDs and valid-token vectors must have equal length")
  let requiredBlocks := blocksForLength logicalLength
  rejectIf (physicalBlockIds.length ≠ requiredBlocks)
    (.invalidPlan "block_tables" "block count must exactly address the logical length")
  tryReserveExact "block table physical ID set"
  let tokenSum ← fromExcept (checkEntries requiredBlocks logicalLength 0 [] 0
    (physicalBlockIds.zip validTokens))
  rejectIf (tokenSum ≠ logicalLength)
    (.invalidPlan "block_tables" "valid-token sum must equal logical length")
  return ⟨requestId, schemaVersion, physicalBlockIds, validTokens, logicalLength⟩

/-- Copies the transport fields of a borrowed runtime table. -/
def copyFromV1 (requestId : RequestId) (table : BlockTableV1) :
    HostM OwnedBlockTable := do
  tryReserveExact "owned block table physical IDs"
  tryReserveExact "owned block table valid tokens"
  new requestId blockTableV1Version table.physicalBlockIds table.validTokens
    table.logicalLength

end OwnedBlockTable

/-- One request's work in an immutable iteration. -/
structure WorkItem where
  requestId : RequestId
  kind : WorkKind
  inputTokens : List TokenId
  targetLogicalLength : Nat
  blockTableIndex : Nat
  outputSlot : Option OutputSlot
  deriving DecidableEq

def WorkItem.new (requestId : RequestId) (kind : WorkKind) (inputTokens : List TokenId)
    (targetLogicalLength blockTableIndex : Nat) (outputSlot : Option OutputSlot) :
    Except SchedulerError WorkItem :=
  if inputTokens = [] then
    .error (.invalidPlan "input_tokens" "a work item must contain at least one input token")
  else if targetLogicalLength < inputTokens.length then
    .error (.invalidPlan "target_logical_length" "must be at least the input token count")
  else if kind = .decode ∧ inputTokens.length ≠ 1 then
    .error (.invalidPlan "input_tokens" "decode work must contain exactly one token")
  else
    .ok ⟨requestId, kind, inputTokens, targetLogicalLength, blockTableIndex, outputSlot⟩

/-- Immutable, self-contained input to one runtime execution. -/
structure IterationPlan where
  schemaVersion : Nat
  iterationId : IterationId
  prefillItems : List WorkItem
  decodeItems : List WorkItem
  totalTokens : Nat
  blockTables : List OwnedBlockTable
  outputSlots : List OutputSlot
  deriving DecidableEq

namespace IterationPlan

/-- What the pass over the items has seen. The set of unique slots of the
source holds exactly the slots listed so far. -/
structure Scan where
  requestIds : List RequestId
  referencedBlockTables : List Bool
  totalTokens : Nat
  outputSlots : List OutputSlot

def scanItem (blockTables : List OwnedBlockTable) (expectedKind : WorkKind) (scan : Scan)
    (item : WorkItem) : Except SchedulerError Scan :=
  if item.kind ≠ expectedKind then
    .error (.invalidPlan "work kind" "item is stored in the wrong stage vector")
  else if expectedKind = .decode ∧ item.outputSlot = none then
    .error (.invalidPlan "output_slots" "decode work must request one sampled output")
  else if item.requestId ∈ scan.requestIds then
    .error (.invalidPlan "request_id" "a request may appear at most once per iteration")
  else
    match blockTables[item.blockTableIndex]? with
    | none =>
        .error (.invalidPlan "block_table_index"
          "work item references a missing block table")
    | some table =>
        if scan.referencedBlockTables.getD item.blockTableIndex false then
          .error (.invalidPlan "block_table_index"
            "each block table must be referenced exactly once")
        else if table.requestId ≠ item.requestId then
          .error (.invalidPlan "block_table_index"
            "work item references another request's block table")
        else if table.logicalLength ≠ item.targetLogicalLength then
          .error (.invalidPlan "block_tables"
            "table logical length must equal the work target")
        else
          match checkedAdd usizeMax scan.totalTokens item.inputTokens.length with
          | none => .error (.arithmeticOverflow "iteration token count")
          | some totalTokens =>
              let scanned : Scan :=
                { requestIds := item.requestId :: scan.requestIds
                  referencedBlockTables :=
                    scan.referencedBlockTables.set item.blockTableIndex true
                  totalTokens := totalTokens
                  outputSlots := scan.outputSlots }
              match item.outputSlot with
              | none => .ok scanned
              | some slot =>
                  if slot ∈ scan.outputSlots then
                    .error (.invalidPlan "output_slots"
                      "output slots must be unique within an iteration")
                  else
                    .ok { scanned with outputSlots := scan.outputSlots ++ [slot] }

def scanItems (blockTables : List OwnedBlockTable) (expectedKind : WorkKind) :
    Scan → List WorkItem → Except SchedulerError Scan
  | scan, [] => .ok scan
  | scan, item :: rest => do
      let scan ← scanItem blockTables expectedKind scan item
      scanItems blockTables expectedKind scan rest

def tableIds (blockTables : List OwnedBlockTable) (item : WorkItem) : List Nat :=
  match blockTables[item.blockTableIndex]? with
  | none => []
  | some table => table.physicalBlockIds

/-- The first table entry that the item writes. -/
def firstWritten (blockTables : List OwnedBlockTable) (item : WorkItem) : Nat :=
  min ((item.targetLogicalLength - item.inputTokens.length) / kvBlockSize)
    (tableIds blockTables item).length

def aliasError : SchedulerError :=
  .invalidPlan "block_tables"
    "physical blocks written by a work item must not alias another table"

/-- Collects one item's written blocks into the set of all of them. -/
def collectWritten : List Nat → List Nat → Except SchedulerError (List Nat)
  | written, [] => .ok written
  | written, id :: rest =>
      if id ∈ written then .error aliasError else collectWritten (id :: written) rest

def collectAllWritten (blockTables : List OwnedBlockTable) :
    List Nat → List WorkItem → Except SchedulerError (List Nat)
  | written, [] => .ok written
  | written, item :: rest => do
      let written ← collectWritten written
        ((tableIds blockTables item).drop (firstWritten blockTables item))
      collectAllWritten blockTables written rest

def readsWritten (blockTables : List OwnedBlockTable) (written : List Nat)
    (item : WorkItem) : Bool :=
  ((tableIds blockTables item).take (firstWritten blockTables item)).any (· ∈ written)

/-- Total number of table entries, or `none` past `usize::MAX`. -/
def blockEntryCount : List OwnedBlockTable → Nat → Option Nat
  | [], count => some count
  | table :: rest, count =>
      match checkedAdd usizeMax count table.physicalBlockIds.length with
      | none => none
      | some count => blockEntryCount rest count

def validatePhysicalBlockAliases (items : List WorkItem)
    (blockTables : List OwnedBlockTable) : HostM Unit := do
  let _ ← orReject (blockEntryCount blockTables 0)
    (.arithmeticOverflow "iteration physical block entry count")
  tryReserveExact "iteration physical block identity set"
  let written ← fromExcept (collectAllWritten blockTables [] items)
  rejectIf (items.any (readsWritten blockTables written)) aliasError

def fromVersion (schemaVersion : Nat) (iterationId : IterationId)
    (prefillItems decodeItems : List WorkItem) (blockTables : List OwnedBlockTable) :
    HostM IterationPlan := do
  rejectIf (schemaVersion ≠ iterationSchemaVersion)
    (.unsupportedSchemaVersion "iteration plan" iterationSchemaVersion schemaVersion)
  rejectIf (prefillItems = [] ∧ decodeItems = [])
    (.invalidPlan "items" "an iteration must contain work")
  let itemCount ← orReject (checkedAdd usizeMax prefillItems.length decodeItems.length)
    (.arithmeticOverflow "iteration item count")
  rejectIf (blockTables.length ≠ itemCount)
    (.invalidPlan "block_tables"
      "each work item must own exactly one referenced block table")
  tryReserveExact "iteration block table reference map"
  tryReserveExact "iteration request identity set"
  tryReserveExact "iteration output slots"
  tryReserveExact "iteration output slot set"
  let start : Scan := ⟨[], List.replicate blockTables.length false, 0, []⟩
  let afterPrefill ← fromExcept (scanItems blockTables .prefill start prefillItems)
  let scan ← fromExcept (scanItems blockTables .decode afterPrefill decodeItems)
  rejectIf (scan.referencedBlockTables.any (!·))
    (.invalidPlan "block_tables" "each block table must be referenced exactly once")
  validatePhysicalBlockAliases (prefillItems ++ decodeItems) blockTables
  rejectIf (u32Max < scan.outputSlots.length)
    (.arithmeticOverflow "iteration output slot count")
  rejectIf (scan.outputSlots.any fun slot => scan.outputSlots.length ≤ slot)
    (.invalidPlan "output_slots" "output slots must be dense and zero-based")
  return {
    schemaVersion := schemaVersion
    iterationId := iterationId
    prefillItems := prefillItems
    decodeItems := decodeItems
    totalTokens := scan.totalTokens
    blockTables := blockTables
    outputSlots := scan.outputSlots.insertionSort (· ≤ ·) }

def new (iterationId : IterationId) (prefillItems decodeItems : List WorkItem)
    (blockTables : List OwnedBlockTable) : HostM IterationPlan :=
  fromVersion iterationSchemaVersion iterationId prefillItems decodeItems blockTables

/-- The items in execution order. -/
def items (plan : IterationPlan) : List WorkItem := plan.prefillItems ++ plan.decodeItems

end IterationPlan

/-- Runtime output routed back to one stable plan slot. -/
structure IterationOutput where
  slot : OutputSlot
  tokenId : TokenId
  stop : Bool
  deriving DecidableEq, Repr

/-- Versioned runtime feedback for one immutable iteration. Its constructors
refuse a slot that occurs twice. -/
structure IterationResult where
  iterationId : IterationId
  outputs : List IterationOutput
  unique : (outputs.map IterationOutput.slot).Nodup
  deriving DecidableEq

end Riley.Scheduling
