import Mathlib
import Riley.Batch.EpochSpec
import Riley.Library.Offsets

/-!
What the packed arrays hold: the rows in their order, laid end to end, and for every
output slot the place of the last token of the row that asks for it.
-/

namespace Riley.Batch

open Outcome
open Offsets

variable {config : LlamaBatchMetadataConfig}

section Contents

/-- The positions of the input tokens of a row, which are the last ones of its sequence. -/
def positions (row : LlamaBatchRow) : List Nat :=
  List.range' (row.targetLogicalLength - row.inputTokenIds.length) row.inputTokenIds.length

def inputs (rows : List LlamaBatchRow) : List (List Nat) := rows.map (·.inputTokenIds)

def tables (rows : List LlamaBatchRow) : List (List Nat) :=
  rows.map (·.blockTable.physicalBlockIds)

/-- The index of a row, once for each of its tokens. -/
def tokenRows (rows : List LlamaBatchRow) : List (List Nat) :=
  rows.zipIdx.map fun entry => List.replicate entry.1.inputTokenIds.length entry.2

/-- The indices of the rows of a kind, in order. -/
def kindIndices (kind : LlamaBatchRowKind) (rows : List LlamaBatchRow) : List Nat :=
  (List.range rows.length).filter fun index => rows[index]?.any (·.kind = kind)

theorem kindIndices_concat (kind : LlamaBatchRowKind) (rows : List LlamaBatchRow)
    (row : LlamaBatchRow) :
    kindIndices kind (rows ++ [row]) =
      kindIndices kind rows ++ if row.kind = kind then [rows.length] else [] := by
  have hold : (List.range rows.length).filter
        (fun index => (rows ++ [row])[index]?.any (·.kind = kind)) = kindIndices kind rows := by
    apply List.filter_congr
    intro index hindex
    rw [List.getElem?_append_left (List.mem_range.mp hindex)]
  rw [kindIndices, List.length_append, List.length_singleton, List.range_succ,
    List.filter_append, hold]
  by_cases hkind : row.kind = kind
  · simp [hkind]
  · simp [hkind]

theorem tokenRows_concat (rows : List LlamaBatchRow) (row : LlamaBatchRow) :
    tokenRows (rows ++ [row]) =
      tokenRows rows ++ [List.replicate row.inputTokenIds.length rows.length] := by
  simp [tokenRows, List.zipIdx_append]

/-- The arrays hold those rows, with that many output slots. -/
structure Holds (slots : Nat) (rows : List LlamaBatchRow) (arrays : PackedArrays) : Prop where
  sequenceTags : arrays.sequenceTags = rows.map (·.sequenceTag)
  rowKindCodes : arrays.rowKindCodes = rows.map (·.kind.code)
  inputRowOffsets : arrays.inputRowOffsets = offsets (inputs rows)
  inputTokenIds : arrays.inputTokenIds = (inputs rows).flatten
  positionIds : arrays.positionIds = (rows.map positions).flatten
  rowSequenceSlots : arrays.rowSequenceSlots = (tokenRows rows).flatten
  blockRowOffsets : arrays.blockRowOffsets = offsets (tables rows)
  physicalBlockIds : arrays.physicalBlockIds = (tables rows).flatten
  validTokens : arrays.validTokens = (rows.map (·.blockTable.validTokens)).flatten
  logicalLengths : arrays.logicalLengths = rows.map (·.targetLogicalLength)
  outputSlotsByRow : arrays.outputSlotsByRow =
    rows.map fun row => row.outputSlot.getD llamaBatchNoOutputSlot
  outputRows : arrays.outputRowIndices.length = slots
  outputTokens : arrays.outputTokenIndices.length = slots
  routed : ∀ index row slot, rows[index]? = some row → row.outputSlot = some slot →
    arrays.outputRowIndices[slot]? = some index ∧
      arrays.outputTokenIndices[slot]? = some (offset (inputs rows) (index + 1) - 1)
  prefillRowIndices : arrays.prefillRowIndices = kindIndices .prefill rows
  decodeRowIndices : arrays.decodeRowIndices = kindIndices .decode rows

/-- The arrays before the first row. -/
def blankArrays (slots : Nat) : PackedArrays :=
  { PackedArrays.empty with
    outputRowIndices := List.replicate slots llamaBatchNoOutputSlot
    outputTokenIndices := List.replicate slots llamaBatchNoOutputSlot
    inputRowOffsets := PackedArrays.empty.inputRowOffsets ++ [0]
    blockRowOffsets := PackedArrays.empty.blockRowOffsets ++ [0] }

theorem holds_blank (slots : Nat) : Holds slots [] (blankArrays slots) where
  sequenceTags := rfl
  rowKindCodes := rfl
  inputRowOffsets := rfl
  inputTokenIds := rfl
  positionIds := rfl
  rowSequenceSlots := rfl
  blockRowOffsets := rfl
  physicalBlockIds := rfl
  validTokens := rfl
  logicalLengths := rfl
  outputSlotsByRow := rfl
  outputRows := List.length_replicate
  outputTokens := List.length_replicate
  routed := by simp
  prefillRowIndices := rfl
  decodeRowIndices := rfl

end Contents

namespace PreparedLlamaBatchMetadata

section Rows

/-- A row whose slot, if any, is one of so many and no other row's. -/
def SlotFree (slots : Nat) (before : List LlamaBatchRow) (row : LlamaBatchRow) : Prop :=
  ∀ slot, row.outputSlot = some slot → slot < slots ∧ slot ∉ requestedSlots before

/-- What the arrays gain from a row, but for its slot. -/
def appendRow (rowIndex tokenOffset blockOffset : Nat) (row : LlamaBatchRow)
    (arrays : PackedArrays) : PackedArrays :=
  { arrays with
    sequenceTags := arrays.sequenceTags ++ [row.sequenceTag]
    rowKindCodes := arrays.rowKindCodes ++ [row.kind.code]
    inputTokenIds := arrays.inputTokenIds ++ row.inputTokenIds
    positionIds := arrays.positionIds ++ positions row
    rowSequenceSlots := arrays.rowSequenceSlots ++ List.replicate row.inputTokenIds.length rowIndex
    inputRowOffsets := arrays.inputRowOffsets ++ [tokenOffset]
    physicalBlockIds := arrays.physicalBlockIds ++ row.blockTable.physicalBlockIds
    validTokens := arrays.validTokens ++ row.blockTable.validTokens
    blockRowOffsets := arrays.blockRowOffsets ++ [blockOffset]
    logicalLengths := arrays.logicalLengths ++ [row.targetLogicalLength]
    prefillRowIndices := arrays.prefillRowIndices ++ if row.kind = .prefill then [rowIndex] else []
    decodeRowIndices := arrays.decodeRowIndices ++ if row.kind = .decode then [rowIndex] else [] }

/-- What the arrays gain from the slot of a row. -/
def routeRow (rowIndex tokenOffset : Nat) (row : LlamaBatchRow) (arrays : PackedArrays) :
    PackedArrays :=
  match row.outputSlot with
  | none => { arrays with outputSlotsByRow := arrays.outputSlotsByRow ++ [llamaBatchNoOutputSlot] }
  | some slot =>
      { arrays with
        outputSlotsByRow := arrays.outputSlotsByRow ++ [slot]
        outputRowIndices := arrays.outputRowIndices.set slot rowIndex
        outputTokenIndices := arrays.outputTokenIndices.set slot (tokenOffset - 1) }

theorem packSlot_eq {rowIndex tokenOffset slots : Nat} {row : LlamaBatchRow}
    {arrays : PackedArrays} (htoken : 0 < tokenOffset)
    (hrows : arrays.outputRowIndices.length = slots)
    (htokens : arrays.outputTokenIndices.length = slots)
    (hslot : ∀ slot, row.outputSlot = some slot → slot < slots) :
    packSlot rowIndex tokenOffset row arrays =
      .ok () (routeRow rowIndex tokenOffset row arrays) := by
  unfold packSlot routeRow
  cases houtput : row.outputSlot with
  | none => rfl
  | some slot =>
      have hlt := hslot slot houtput
      have hin : ¬ arrays.outputRowIndices.length ≤ slot := by omega
      have hin' : ¬ arrays.outputTokenIndices.length ≤ slot := by omega
      have hlast : checkedSub tokenOffset 1 = some (tokenOffset - 1) :=
        checkedSub_eq_some.mpr ⟨htoken, rfl⟩
      simp [bind, EStateM.bind, modify, modifyGet, MonadStateOf.modifyGet, EStateM.modifyGet, get,
        getThe, MonadStateOf.get, EStateM.get, rejectIf, hin, hin', hlast, orReject, pure,
        EStateM.pure]

theorem packRow_eq {slots : Nat} {before : List LlamaBatchRow} {row : LlamaBatchRow}
    {arrays : PackedArrays} (h : Holds slots before arrays) (hrow : RowOk row)
    (hslot : SlotFree slots before row) (hcount : before.length ≤ u32Max)
    (htokens : (inputs before).flatten.length + row.inputTokenIds.length ≤ u32Max)
    (hblocks : (tables before).flatten.length + row.blockTable.physicalBlockIds.length ≤ u32Max) :
    packRow before.length (inputs before).flatten.length (tables before).flatten.length row arrays =
      .ok ((inputs before).flatten.length + row.inputTokenIds.length,
          (tables before).flatten.length + row.blockTable.physicalBlockIds.length)
        (routeRow before.length ((inputs before).flatten.length + row.inputTokenIds.length) row
          (appendRow before.length ((inputs before).flatten.length + row.inputTokenIds.length)
            ((tables before).flatten.length + row.blockTable.physicalBlockIds.length) row
            arrays)) := by
  have hpositive : 0 < row.inputTokenIds.length := List.length_pos_iff.mpr hrow.input_ne
  have hindex : checkedU32 before.length "row index" = .ok before.length := if_pos hcount
  have hinput : checkedU32 row.inputTokenIds.length "row input token count" =
      .ok row.inputTokenIds.length := if_pos (by omega)
  have hblock : checkedU32 row.blockTable.physicalBlockIds.length "row block count" =
      .ok row.blockTable.physicalBlockIds.length := if_pos (by omega)
  have hstart : checkedSub row.targetLogicalLength row.inputTokenIds.length =
      some (row.targetLogicalLength - row.inputTokenIds.length) :=
    checkedSub_eq_some.mpr ⟨hrow.input_le, rfl⟩
  have htoken := checkedAdd_eq_some.mpr ⟨rfl, htokens⟩
  have htable := checkedAdd_eq_some.mpr ⟨rfl, hblocks⟩
  have hsize : row.targetLogicalLength - (row.targetLogicalLength - row.inputTokenIds.length) =
      row.inputTokenIds.length := by
    have := hrow.input_le
    omega
  have hroute := @packSlot_eq before.length
    ((inputs before).flatten.length + row.inputTokenIds.length) slots row
    (appendRow before.length ((inputs before).flatten.length + row.inputTokenIds.length)
      ((tables before).flatten.length + row.blockTable.physicalBlockIds.length) row arrays)
    (by omega) h.outputRows h.outputTokens fun slot hsome => (hslot slot hsome).1
  unfold packRow
  rw [hindex, hinput, hblock]
  cases hkind : row.kind with
  | prefill =>
      simp only [appendRow, hkind, if_true, reduceCtorEq, if_false, List.append_nil] at hroute ⊢
      simp only [fromExcept, hstart, orReject, htoken, htable, bind, EStateM.bind,
        modify, modifyGet, MonadStateOf.modifyGet, EStateM.modifyGet, pure, EStateM.pure, hsize]
      rw [← positions, hroute]
  | decode =>
      simp only [appendRow, hkind, if_true, reduceCtorEq, if_false, List.append_nil] at hroute ⊢
      simp only [fromExcept, hstart, orReject, htoken, htable, bind, EStateM.bind,
        modify, modifyGet, MonadStateOf.modifyGet, EStateM.modifyGet, pure, EStateM.pure, hsize]
      rw [← positions, hroute]

/-- A slot that is set stays out of the way of the others. -/
theorem holds_append {slots : Nat} {before : List LlamaBatchRow} {row : LlamaBatchRow}
    {arrays : PackedArrays} (h : Holds slots before arrays) (hslot : SlotFree slots before row) :
    Holds slots (before ++ [row])
      (routeRow before.length ((inputs before).flatten.length + row.inputTokenIds.length) row
        (appendRow before.length ((inputs before).flatten.length + row.inputTokenIds.length)
          ((tables before).flatten.length + row.blockTable.physicalBlockIds.length) row
          arrays)) := by
  have hinputs : inputs (before ++ [row]) = inputs before ++ [row.inputTokenIds] := by
    simp [inputs]
  have htables : tables (before ++ [row]) = tables before ++ [row.blockTable.physicalBlockIds] := by
    simp [tables]
  have hlength : (inputs before).length = before.length := by simp [inputs]
  have hlast : offset (inputs before ++ [row.inputTokenIds]) (before.length + 1) =
      (inputs before).flatten.length + row.inputTokenIds.length := by
    rw [offset, List.take_of_length_le (by simp [hlength])]
    simp
  have hearlier : ∀ index earlier, before[index]? = some earlier →
      offset (inputs before ++ [row.inputTokenIds]) (index + 1) =
        offset (inputs before) (index + 1) := by
    intro index earlier hsome
    apply offset_append
    rw [hlength]
    exact (List.getElem?_eq_some_iff.mp hsome).1
  have hbefore : ∀ (index : Nat) (earlier : LlamaBatchRow) (slot : Nat),
      before[index]? = some earlier → earlier.outputSlot = some slot → slot ∈ requestedSlots before := by
    intro index earlier slot hsome houtput
    exact List.mem_filterMap.mpr ⟨earlier, List.mem_of_getElem? hsome, houtput⟩
  have hkept : ∀ (index : Nat) (other : LlamaBatchRow), (before ++ [row])[index]? = some other →
      before[index]? = some other ∨ index = before.length ∧ other = row := by
    intro index other hsome
    rcases Nat.lt_trichotomy index before.length with hlt | heq | hgt
    · exact .inl (by rwa [List.getElem?_append_left hlt] at hsome)
    · subst heq
      rw [List.getElem?_concat_length] at hsome
      exact .inr ⟨rfl, (Option.some.inj hsome).symm⟩
    · rw [List.getElem?_eq_none (by simp; omega)] at hsome
      cases hsome
  cases houtput : row.outputSlot with
  | none =>
      simp only [routeRow, houtput, appendRow]
      constructor
      case routed =>
        intro index other slot hsome hother
        rcases hkept index other hsome with hold | ⟨_, rfl⟩
        · rw [hinputs, hearlier index other hold]
          exact h.routed index other slot hold hother
        · rw [houtput] at hother
          cases hother
      case outputRows => exact h.outputRows
      case outputTokens => exact h.outputTokens
      all_goals
        simp [h.sequenceTags, h.rowKindCodes, h.inputRowOffsets, h.inputTokenIds, h.positionIds,
          h.rowSequenceSlots, h.blockRowOffsets, h.physicalBlockIds, h.validTokens,
          h.logicalLengths, h.outputSlotsByRow, h.prefillRowIndices, h.decodeRowIndices, hinputs,
          htables, offsets_concat, tokenRows_concat, kindIndices_concat, houtput]
  | some taken =>
      obtain ⟨hlt, hfree⟩ := hslot taken houtput
      simp only [routeRow, houtput, appendRow]
      constructor
      case routed =>
        intro index other slot hsome hother
        rcases hkept index other hsome with hold | ⟨rfl, rfl⟩
        · have hne : taken ≠ slot := by
            rintro rfl
            exact hfree (hbefore index other taken hold hother)
          rw [hinputs, hearlier index other hold, List.getElem?_set_ne hne,
            List.getElem?_set_ne hne]
          exact h.routed index other slot hold hother
        · obtain rfl : taken = slot := Option.some.inj (houtput.symm.trans hother)
          rw [hinputs, hlast, List.getElem?_set_self (by rw [h.outputRows]; exact hlt),
            List.getElem?_set_self (by rw [h.outputTokens]; exact hlt)]
          exact ⟨rfl, rfl⟩
      case outputRows => exact (List.length_set).trans h.outputRows
      case outputTokens => exact (List.length_set).trans h.outputTokens
      all_goals
        simp [h.sequenceTags, h.rowKindCodes, h.inputRowOffsets, h.inputTokenIds, h.positionIds,
          h.rowSequenceSlots, h.blockRowOffsets, h.physicalBlockIds, h.validTokens,
          h.logicalLengths, h.outputSlotsByRow, h.prefillRowIndices, h.decodeRowIndices, hinputs,
          htables, offsets_concat, tokenRows_concat, kindIndices_concat, houtput]

/-- The rest of a batch is packed behind what is held already. -/
theorem packRows_ok {slots : Nat} {rest before : List LlamaBatchRow} {arrays : PackedArrays}
    (h : Holds slots before arrays) (hrows : ∀ row ∈ rest, RowOk row)
    (hnodup : (requestedSlots (before ++ rest)).Nodup)
    (hslots : ∀ slot ∈ requestedSlots rest, slot < slots)
    (hcount : (before ++ rest).length ≤ u32Max)
    (htokens : (inputs (before ++ rest)).flatten.length ≤ u32Max)
    (hblocks : (tables (before ++ rest)).flatten.length ≤ u32Max) :
    ∃ arrays', packRows before.length (inputs before).flatten.length
        (tables before).flatten.length rest arrays = .ok () arrays' ∧
      Holds slots (before ++ rest) arrays' := by
  induction rest generalizing before arrays with
  | nil =>
      rw [List.append_nil]
      exact ⟨arrays, rfl, h⟩
  | cons row rest ih =>
      have hsplit : before ++ row :: rest = (before ++ [row]) ++ rest := by simp
      have hfree : SlotFree slots before row := by
        intro slot houtput
        have hrow : slot ∈ requestedSlots [row] := by simp [requestedSlots, houtput]
        have hnow : slot ∈ requestedSlots (row :: rest) := by
          rw [requestedSlots_cons]
          exact List.mem_append_left _ hrow
        refine ⟨hslots slot hnow, fun hearlier => ?_⟩
        rw [requestedSlots, List.filterMap_append] at hnodup
        exact (List.nodup_append.mp hnodup).2.2 slot hearlier slot hnow rfl
      have hinputs : inputs (before ++ [row]) = inputs before ++ [row.inputTokenIds] := by
        simp [inputs]
      have htables : tables (before ++ [row]) =
          tables before ++ [row.blockTable.physicalBlockIds] := by
        simp [tables]
      have hinputLength : (inputs (before ++ [row])).flatten.length =
          (inputs before).flatten.length + row.inputTokenIds.length := by
        simp [hinputs]
      have htableLength : (tables (before ++ [row])).flatten.length =
          (tables before).flatten.length + row.blockTable.physicalBlockIds.length := by
        simp [htables]
      have hinputLe : (inputs (before ++ [row])).flatten.length ≤
          (inputs (before ++ row :: rest)).flatten.length := by
        simp [inputs]
      have htableLe : (tables (before ++ [row])).flatten.length ≤
          (tables (before ++ row :: rest)).flatten.length := by
        simp [tables]
      have hstep := packRow_eq h (hrows row List.mem_cons_self) hfree
        (by simp at hcount; omega) (by omega) (by omega)
      have hheld := holds_append h hfree
      rw [packRows]
      simp only [bind, EStateM.bind, hstep]
      rw [hsplit] at hnodup hcount htokens hblocks ⊢
      have hlength : (before ++ [row]).length = before.length + 1 := by simp
      have hrest := ih hheld (fun other hmem => hrows other (List.mem_cons_of_mem _ hmem)) hnodup
        (fun slot hmem => hslots slot (by
          rw [requestedSlots_cons]
          exact List.mem_append_right _ hmem)) hcount htokens hblocks
      rw [hlength, hinputLength, htableLength] at hrest
      exact hrest

end Rows

section Order

theorem ordered_false (rows : List LlamaBatchRow) : ordered false rows = rows := by
  simp [ordered]

theorem ordered_true (rows : List LlamaBatchRow) :
    ordered true rows =
      rows.filter (·.kind == .decode) ++ rows.filter (·.kind != .decode) := by
  simp [ordered]

theorem ordered_perm (decodeFirst : Bool) (rows : List LlamaBatchRow) :
    (ordered decodeFirst rows).Perm rows := by
  cases decodeFirst with
  | false => rw [ordered_false]
  | true =>
      rw [ordered_true]
      exact List.filter_append_perm (·.kind == .decode) rows

theorem length_flatten_inputs (rows : List LlamaBatchRow) :
    (inputs rows).flatten.length = (batchCounts rows).totalInputTokens := by
  simp [inputs, batchCounts, List.length_flatten, List.map_map, Function.comp_def]

theorem length_flatten_tables (rows : List LlamaBatchRow) :
    (tables rows).flatten.length = (batchCounts rows).totalBlockEntries := by
  simp [tables, batchCounts, List.length_flatten, List.map_map, Function.comp_def]

/-- Packing starts from the same arrays whatever the object held before. -/
theorem packOrdered_eq (prepared : PreparedLlamaBatchMetadata config)
    (rows : List LlamaBatchRow) (decodeFirst : Bool) :
    packOrdered rows decodeFirst prepared =
      match validate rows prepared with
      | .error error t => .error error t
      | .ok validated t =>
          match packRows 0 0 0 (ordered decodeFirst rows) (blankArrays validated.outputCount) with
          | .error error arrays => .error error { t with toPackedArrays := arrays }
          | .ok _ arrays =>
              .ok (view { t with toPackedArrays := arrays } validated)
                { t with toPackedArrays := arrays } := by
  unfold packOrdered
  simp only [bind, EStateM.bind]
  cases validate rows prepared with
  | error error t => rfl
  | ok validated t =>
      cases hrun : packRows 0 0 0 (ordered decodeFirst rows)
        (blankArrays validated.outputCount) with
      | error error arrays =>
          have hblank := hrun
          unfold blankArrays at hblank
          simp only [modify, modifyGet, MonadStateOf.modifyGet, EStateM.modifyGet, onPacked, zoom,
            clearPacked, hblank, hrun, id]
      | ok _ arrays =>
          have hblank := hrun
          unfold blankArrays at hblank
          simp only [modify, modifyGet, MonadStateOf.modifyGet, EStateM.modifyGet, onPacked, zoom,
            clearPacked, hblank, hrun, get, getThe, MonadStateOf.get, EStateM.get, pure, EStateM.pure]

variable {aliases : Bool} {rows : List LlamaBatchRow}

/-- A batch that validation accepts is packed. -/
theorem packRows_accepted (h : Accepted config aliases true rows) (decodeFirst : Bool) :
    ∃ arrays, packRows 0 0 0 (ordered decodeFirst rows)
        (blankArrays (requestedSlots rows).length) = .ok () arrays ∧
      Holds (requestedSlots rows).length (ordered decodeFirst rows) arrays := by
  have hperm := ordered_perm decodeFirst rows
  have hslots : (requestedSlots (ordered decodeFirst rows)).Perm (requestedSlots rows) :=
    hperm.filterMap _
  have hdense := h.dense rfl
  have htokens : (inputs (ordered decodeFirst rows)).flatten.length ≤ u32Max := by
    have hsum : (batchCounts (ordered decodeFirst rows)).totalInputTokens =
        (batchCounts rows).totalInputTokens := (hperm.map _).sum_nat
    rw [length_flatten_inputs, hsum]
    exact Nat.le_trans h.fits.1 config.maxInputTokens_le
  have hblocks : (tables (ordered decodeFirst rows)).flatten.length ≤ u32Max := by
    have hsum : (batchCounts (ordered decodeFirst rows)).totalBlockEntries =
        (batchCounts rows).totalBlockEntries := (hperm.map _).sum_nat
    rw [length_flatten_tables, hsum]
    exact Nat.le_trans h.fits.2 (Nat.le_trans config.maxBlockEntries_le config.physicalBlockCount_le)
  have hcount : (ordered decodeFirst rows).length ≤ u32Max := by
    rw [hperm.length_eq]
    exact Nat.le_trans h.length_le
      (Nat.le_trans config.maxRows_le_inputTokens config.maxInputTokens_le)
  apply @packRows_ok _ (ordered decodeFirst rows) []
  · exact holds_blank _
  · exact fun row hmem => h.rowOk row (hperm.mem_iff.mp hmem)
  · rw [List.nil_append]
    exact hslots.nodup_iff.mpr hdense.nodup
  · intro slot hmem
    exact List.mem_range.mp (hdense.mem_iff.mp (hslots.mem_iff.mp hmem))
  · exact hcount
  · exact htokens
  · exact hblocks

end Order

end PreparedLlamaBatchMetadata

section Reading

/-- The values of a part are read between its offsets. -/
theorem csrRow_offsets {parts others : List (List Nat)} {index : Nat} {part : List Nat}
    (hlengths : others.map List.length = parts.map List.length)
    (h : parts[index]? = some part) :
    csrRow (offsets others) parts.flatten index = some part := by
  obtain ⟨hlt, _⟩ := List.getElem?_eq_some_iff.mp h
  have hbounds : offset parts index ≤ offset parts (index + 1) ∧
      offset parts (index + 1) ≤ parts.flatten.length :=
    ⟨by rw [offset_succ h]; exact Nat.le_add_right _ _, offset_le _ _⟩
  rw [offsets_congr hlengths, csrRow, getElem?_offsets (Nat.le_of_lt hlt),
    getElem?_offsets (Nat.succ_le_of_lt hlt)]
  show (if _ then _ else _) = _
  rw [if_pos hbounds, slice_offsets h]

/-- Every row can be read off the packed arrays, and every slot leads to its row. -/
structure RoundTrip (rows : List LlamaBatchRow) (packed : LlamaPackedBatchMetadata) : Prop where
  rowCount : packed.sequenceTags.length = rows.length
  row : ∀ index row, rows[index]? = some row →
    packed.sequenceTags[index]? = some row.sequenceTag ∧
    packed.rowKindCodes[index]? = some row.kind.code ∧
    packed.inputTokensForRow index = some row.inputTokenIds ∧
    packed.physicalBlocksForRow index = some row.blockTable.physicalBlockIds ∧
    packed.validTokensForRow index = some row.blockTable.validTokens ∧
    packed.logicalLengths[index]? = some row.targetLogicalLength ∧
    packed.outputSlotForRow index = row.outputSlot
  /-- The positions are consecutive, and end before the target length. -/
  positions : ∀ index row, rows[index]? = some row →
    row.inputTokenIds.length ≤ row.targetLogicalLength ∧
    packed.positionsForRow index = some (List.range'
      (row.targetLogicalLength - row.inputTokenIds.length) row.inputTokenIds.length)
  tokenRows : ∀ index row, rows[index]? = some row →
    csrRow packed.inputRowOffsets packed.rowSequenceSlots index =
      some (List.replicate row.inputTokenIds.length index)
  prefillRows : packed.prefillRowIndices =
    (List.range rows.length).filter fun index => rows[index]?.any (·.kind = .prefill)
  decodeRows : packed.decodeRowIndices =
    (List.range rows.length).filter fun index => rows[index]?.any (·.kind = .decode)
  partition : (packed.prefillRowIndices ++ packed.decodeRowIndices).Perm
    (List.range rows.length)
  prefillTokens : packed.prefillTokenCount =
    ((rows.filter (·.kind = .prefill)).map (·.inputTokenIds.length)).sum
  decodeTokens : packed.decodeTokenCount =
    ((rows.filter (·.kind = .decode)).map (·.inputTokenIds.length)).sum
  slotCount : packed.outputRowIndices.length = (requestedSlots rows).length ∧
    packed.outputTokenIndices.length = (requestedSlots rows).length
  /-- A slot leads to the row that asks for it, and to its last token. -/
  routed : ∀ index row slot, rows[index]? = some row → row.outputSlot = some slot →
    packed.outputRowIndices[slot]? = some index ∧
    ∃ token, packed.outputTokenIndices[slot]? = some token ∧
      packed.inputRowOffsets[index + 1]? = some (token + 1) ∧
      packed.inputTokenIds[token]? = row.inputTokenIds.getLast? ∧
      packed.rowSequenceSlots[token]? = some index
  requested : ∀ slot < packed.outputRowIndices.length,
    ∃ row ∈ rows, row.outputSlot = some slot

theorem kindIndices_perm (rows : List LlamaBatchRow) :
    (kindIndices .prefill rows ++ kindIndices .decode rows).Perm (List.range rows.length) := by
  have hdecode : kindIndices .decode rows = (List.range rows.length).filter
      (fun index => !rows[index]?.any (·.kind = .prefill)) := by
    apply List.filter_congr
    intro index hindex
    rw [List.getElem?_eq_getElem (List.mem_range.mp hindex)]
    cases hkind : (rows.get ⟨index, List.mem_range.mp hindex⟩).kind <;>
      simp_all
  rw [hdecode]
  exact List.filter_append_perm _ _

theorem roundTrip_of_holds {rows : List LlamaBatchRow} {packed : LlamaPackedBatchMetadata}
    (h : Holds (requestedSlots rows).length rows packed.toPackedArrays)
    (hrows : ∀ row ∈ rows, RowOk row) (hdense : Dense (requestedSlots rows))
    (hslots : ∀ slot ∈ requestedSlots rows, slot < u32Max)
    (hprefill : packed.prefillTokenCount = (batchCounts rows).prefillTokens)
    (hdecode : packed.decodeTokenCount = (batchCounts rows).decodeTokens) :
    RoundTrip rows packed := by
  have hinput : ∀ (index : Nat) (row : LlamaBatchRow), rows[index]? = some row →
      (inputs rows)[index]? = some row.inputTokenIds := by
    intro index row hrow
    rw [inputs, List.getElem?_map, hrow, Option.map_some]
  have htokenRow : ∀ (index : Nat) (row : LlamaBatchRow), rows[index]? = some row →
      (tokenRows rows)[index]? = some (List.replicate row.inputTokenIds.length index) := by
    intro index row hrow
    simp [tokenRows, List.getElem?_map, List.getElem?_zipIdx, hrow]
  have htokenLengths : (tokenRows rows).map List.length = (inputs rows).map List.length := by
    apply List.ext_getElem?
    intro index
    simp only [tokenRows, inputs, List.getElem?_map, List.getElem?_zipIdx, Option.map_map]
    cases rows[index]? <;> simp
  have hpositionLengths : (rows.map positions).map List.length = (inputs rows).map List.length := by
    simp [inputs, positions, Function.comp_def]
  have hvalidLengths : (rows.map (·.blockTable.validTokens)).map List.length =
      (tables rows).map List.length := by
    rw [tables, List.map_map, List.map_map]
    apply List.map_congr_left
    intro row hmem
    exact (hrows row hmem).validTokens.symm
  constructor
  case rowCount => rw [h.sequenceTags, List.length_map]
  case row =>
    intro index row hrow
    refine ⟨?_, ?_, ?_, ?_, ?_, ?_, ?_⟩
    · rw [h.sequenceTags, List.getElem?_map, hrow, Option.map_some]
    · rw [h.rowKindCodes, List.getElem?_map, hrow, Option.map_some]
    · rw [LlamaPackedBatchMetadata.inputTokensForRow, h.inputRowOffsets, h.inputTokenIds]
      exact csrRow_offsets rfl (hinput index row hrow)
    · rw [LlamaPackedBatchMetadata.physicalBlocksForRow, h.blockRowOffsets, h.physicalBlockIds]
      exact csrRow_offsets rfl (by rw [tables, List.getElem?_map, hrow, Option.map_some])
    · rw [LlamaPackedBatchMetadata.validTokensForRow, h.blockRowOffsets, h.validTokens]
      exact csrRow_offsets hvalidLengths.symm (by rw [List.getElem?_map, hrow, Option.map_some])
    · rw [h.logicalLengths, List.getElem?_map, hrow, Option.map_some]
    · rw [LlamaPackedBatchMetadata.outputSlotForRow, h.outputSlotsByRow, List.getElem?_map, hrow,
        Option.map_some]
      cases houtput : row.outputSlot with
      | none => simp
      | some slot =>
          have hlt := hslots slot
            (List.mem_filterMap.mpr ⟨row, List.mem_of_getElem? hrow, houtput⟩)
          have hne : slot ≠ llamaBatchNoOutputSlot := Nat.ne_of_lt hlt
          simp [hne]
  case positions =>
    intro index row hrow
    refine ⟨(hrows row (List.mem_of_getElem? hrow)).input_le, ?_⟩
    rw [LlamaPackedBatchMetadata.positionsForRow, h.inputRowOffsets, h.positionIds]
    exact csrRow_offsets hpositionLengths.symm
      (by rw [List.getElem?_map, hrow, Option.map_some, Batch.positions])
  case tokenRows =>
    intro index row hrow
    rw [h.inputRowOffsets, h.rowSequenceSlots]
    exact csrRow_offsets htokenLengths.symm (htokenRow index row hrow)
  case prefillRows => exact h.prefillRowIndices
  case decodeRows => exact h.decodeRowIndices
  case partition =>
    rw [h.prefillRowIndices, h.decodeRowIndices]
    exact kindIndices_perm rows
  case prefillTokens => exact hprefill
  case decodeTokens => exact hdecode
  case slotCount => exact ⟨h.outputRows, h.outputTokens⟩
  case routed =>
    intro index row slot hrow houtput
    obtain ⟨hrowIndex, htokenIndex⟩ := h.routed index row slot hrow houtput
    have hne := (hrows row (List.mem_of_getElem? hrow)).input_ne
    have hpositive : 0 < row.inputTokenIds.length := List.length_pos_iff.mpr hne
    have hstop := offset_succ (hinput index row hrow)
    have hlast : offset (inputs rows) (index + 1) - 1 =
        offset (inputs rows) index + (row.inputTokenIds.length - 1) := by
      omega
    have hin : index < rows.length := (List.getElem?_eq_some_iff.mp hrow).1
    refine ⟨hrowIndex, _, htokenIndex, ?_, ?_, ?_⟩
    · rw [h.inputRowOffsets, getElem?_offsets (by rw [inputs, List.length_map]; exact hin)]
      congr 1
      omega
    · rw [h.inputTokenIds, hlast, getElem?_flatten (hinput index row hrow) (by omega),
        List.getLast?_eq_getElem?]
    · rw [h.rowSequenceSlots, hlast, ← offset_congr htokenLengths,
        getElem?_flatten (htokenRow index row hrow) (by rw [List.length_replicate]; omega),
        List.getElem?_replicate_of_lt (by omega)]
  case requested =>
    intro slot hlt
    rw [h.outputRows] at hlt
    exact List.mem_filterMap.mp (hdense.mem hlt)

end Reading

namespace PreparedLlamaBatchMetadata

section Capacity

/-- No buffer holds more than was reserved for it. -/
structure WithinCapacity (prepared : PreparedLlamaBatchMetadata config) : Prop where
  sequenceTags : prepared.sequenceTags.length ≤ config.maxRows
  rowKindCodes : prepared.rowKindCodes.length ≤ config.maxRows
  inputRowOffsets : prepared.inputRowOffsets.length ≤ config.maxRows + 1
  inputTokenIds : prepared.inputTokenIds.length ≤ config.maxInputTokens
  positionIds : prepared.positionIds.length ≤ config.maxInputTokens
  rowSequenceSlots : prepared.rowSequenceSlots.length ≤ config.maxInputTokens
  blockRowOffsets : prepared.blockRowOffsets.length ≤ config.maxRows + 1
  physicalBlockIds : prepared.physicalBlockIds.length ≤ config.maxBlockEntries
  validTokens : prepared.validTokens.length ≤ config.maxBlockEntries
  logicalLengths : prepared.logicalLengths.length ≤ config.maxRows
  outputSlotsByRow : prepared.outputSlotsByRow.length ≤ config.maxRows
  outputRowIndices : prepared.outputRowIndices.length ≤ config.maxOutputSlots
  outputTokenIndices : prepared.outputTokenIndices.length ≤ config.maxOutputSlots
  prefillRowIndices : prepared.prefillRowIndices.length ≤ config.maxRows
  decodeRowIndices : prepared.decodeRowIndices.length ≤ config.maxRows
  validationSequenceTags : prepared.validationSequenceTags.length ≤ config.maxRows

/-- Arrays that hold rows within the bounds are within capacity. -/
theorem withinCapacity_of_holds {prepared : PreparedLlamaBatchMetadata config} {slots : Nat}
    {rows : List LlamaBatchRow} (h : Holds slots rows prepared.toPackedArrays)
    (hrows : ∀ row ∈ rows, RowOk row) (hlength : rows.length ≤ config.maxRows)
    (hfits : Fits config (batchCounts rows)) (hslots : slots ≤ config.maxOutputSlots)
    (htags : prepared.validationSequenceTags.length ≤ config.maxRows) :
    prepared.WithinCapacity := by
  have hinputs : (inputs rows).flatten.length ≤ config.maxInputTokens := by
    rw [length_flatten_inputs]
    exact hfits.1
  have htables : (tables rows).flatten.length ≤ config.maxBlockEntries := by
    rw [length_flatten_tables]
    exact hfits.2
  have hpositions : (rows.map positions).flatten.length = (inputs rows).flatten.length := by
    simp [inputs, positions, List.length_flatten, Function.comp_def]
  have htokenRows : (tokenRows rows).flatten.length = (inputs rows).flatten.length := by
    have hlengths : (tokenRows rows).map List.length = (inputs rows).map List.length := by
      apply List.ext_getElem?
      intro index
      simp only [tokenRows, inputs, List.getElem?_map, List.getElem?_zipIdx, Option.map_map]
      cases rows[index]? <;> simp
    rw [List.length_flatten, hlengths, ← List.length_flatten]
  have hvalid : (rows.map (·.blockTable.validTokens)).flatten.length =
      (tables rows).flatten.length := by
    rw [List.length_flatten, List.length_flatten, tables, List.map_map, List.map_map]
    congr 1
    apply List.map_congr_left
    intro row hmem
    exact (hrows row hmem).validTokens.symm
  have hkinds : ∀ kind, (kindIndices kind rows).length ≤ config.maxRows := by
    intro kind
    refine Nat.le_trans (List.length_filter_le _ _) ?_
    rw [List.length_range]
    exact hlength
  constructor
  case validationSequenceTags => exact htags
  case sequenceTags => simpa [h.sequenceTags] using hlength
  case rowKindCodes => simpa [h.rowKindCodes] using hlength
  case inputRowOffsets => simpa [h.inputRowOffsets, inputs] using hlength
  case inputTokenIds => rwa [h.inputTokenIds]
  case positionIds => rwa [h.positionIds, hpositions]
  case rowSequenceSlots => rwa [h.rowSequenceSlots, htokenRows]
  case blockRowOffsets => simpa [h.blockRowOffsets, tables] using hlength
  case physicalBlockIds => rwa [h.physicalBlockIds]
  case validTokens => rwa [h.validTokens, hvalid]
  case logicalLengths => simpa [h.logicalLengths] using hlength
  case outputSlotsByRow => simpa [h.outputSlotsByRow] using hlength
  case outputRowIndices => rwa [h.outputRows]
  case outputTokenIndices => rwa [h.outputTokens]
  case prefillRowIndices =>
    rw [h.prefillRowIndices]
    exact hkinds .prefill
  case decodeRowIndices =>
    rw [h.decodeRowIndices]
    exact hkinds .decode

/-- What a call makes of the verdict of validation. -/
theorem Aged.packOrdered_cases {prepared : PreparedLlamaBatchMetadata config}
    (h : prepared.Aged) (rows : List LlamaBatchRow) (decodeFirst : Bool) :
    (∃ error, answer (validate rows) prepared = .error error ∧
      packOrdered rows decodeFirst prepared = .error error (after (validate rows) prepared)) ∨
    ∃ arrays, Accepted config (detects prepared.opened.validationEpoch) true rows ∧
      answer (validate rows) prepared = .ok (batchCounts rows) ∧
      packRows 0 0 0 (ordered decodeFirst rows)
        (blankArrays (requestedSlots rows).length) = .ok () arrays ∧
      Holds (requestedSlots rows).length (ordered decodeFirst rows) arrays ∧
      packOrdered rows decodeFirst prepared =
        .ok (view { after (validate rows) prepared with toPackedArrays := arrays }
            (batchCounts rows))
          { after (validate rows) prepared with toPackedArrays := arrays } := by
  have hanswer := h.validate_answer rows
  rw [packOrdered_eq]
  cases hvalidate : validate rows prepared with
  | error error t =>
      left
      refine ⟨error, by rw [answer, hvalidate], ?_⟩
      rw [after, hvalidate]
  | ok totals t =>
      right
      rw [answer, hvalidate] at hanswer
      obtain ⟨haccepted, rfl⟩ := pairwiseWith_ok hanswer.symm
      obtain ⟨arrays, hpack, hholds⟩ := packRows_accepted haccepted decodeFirst
      refine ⟨arrays, haccepted, by rw [answer, hvalidate], hpack, hholds, ?_⟩
      rw [after, hvalidate]
      have hslots : (batchCounts rows).outputCount = (requestedSlots rows).length := rfl
      simp only [hslots, hpack]

theorem ordered_accepted {aliases : Bool} {rows : List LlamaBatchRow}
    (h : Accepted config aliases true rows) (decodeFirst : Bool) :
    (∀ row ∈ ordered decodeFirst rows, RowOk row) ∧
      (ordered decodeFirst rows).length ≤ config.maxRows ∧
      Fits config (batchCounts (ordered decodeFirst rows)) := by
  have hperm := ordered_perm decodeFirst rows
  refine ⟨fun row hmem => h.rowOk row (hperm.mem_iff.mp hmem), ?_, ?_, ?_⟩
  · rw [hperm.length_eq]
    exact h.length_le
  · have hsum : (batchCounts (ordered decodeFirst rows)).totalInputTokens =
        (batchCounts rows).totalInputTokens := (hperm.map _).sum_nat
    rw [hsum]
    exact h.fits.1
  · have hsum : (batchCounts (ordered decodeFirst rows)).totalBlockEntries =
        (batchCounts rows).totalBlockEntries := (hperm.map _).sum_nat
    rw [hsum]
    exact h.fits.2

/-- No call takes a buffer over its capacity. -/
theorem withinCapacity_packOrdered {prepared : PreparedLlamaBatchMetadata config}
    (h : prepared.WithinCapacity) (haged : prepared.Aged) (call : Call) :
    (after (packOrdered call.1 call.2) prepared).WithinCapacity := by
  have htags := haged.validate_tags h.validationSequenceTags call.1
  rcases haged.packOrdered_cases call.1 call.2 with
    ⟨error, _, hrun⟩ | ⟨arrays, haccepted, _, _, hholds, hrun⟩
  · have harrays := (aged_validate haged call.1).2.2
    rw [after, hrun]
    constructor
    case validationSequenceTags => exact htags
    all_goals
      rw [harrays]
      first
        | exact h.sequenceTags
        | exact h.rowKindCodes
        | exact h.inputRowOffsets
        | exact h.inputTokenIds
        | exact h.positionIds
        | exact h.rowSequenceSlots
        | exact h.blockRowOffsets
        | exact h.physicalBlockIds
        | exact h.validTokens
        | exact h.logicalLengths
        | exact h.outputSlotsByRow
        | exact h.outputRowIndices
        | exact h.outputTokenIndices
        | exact h.prefillRowIndices
        | exact h.decodeRowIndices
  · obtain ⟨hrows, hlength, hfits⟩ := ordered_accepted haccepted call.2
    rw [after, hrun]
    exact withinCapacity_of_holds hholds hrows hlength hfits haccepted.outputCount_le htags

theorem withinCapacity_afterCalls {prepared : PreparedLlamaBatchMetadata config}
    (h : prepared.WithinCapacity) (haged : prepared.Aged) (calls : List Call) :
    (prepared.afterCalls calls).WithinCapacity := by
  induction calls generalizing prepared with
  | nil => exact h
  | cons call rest ih => exact ih (withinCapacity_packOrdered h haged call) (aged_packOrdered haged call).1

theorem withinCapacity_prepare {grants : String → Nat → Bool}
    {prepared : PreparedLlamaBatchMetadata config}
    (hprepare : prepare grants config = .ok prepared) : prepared.WithinCapacity := by
  obtain ⟨_, _, htags, harrays⟩ := prepare_eq_ok hprepare
  constructor
  case validationSequenceTags =>
    rw [htags]
    exact Nat.zero_le _
  all_goals
    rw [harrays]
    exact Nat.zero_le _

end Capacity

section RoundTrips

/-- An accepted batch round trips. -/
theorem Aged.roundTrip {prepared behind : PreparedLlamaBatchMetadata config} (h : prepared.Aged)
    {rows : List LlamaBatchRow} {decodeFirst : Bool} {packed : LlamaPackedBatchMetadata}
    (hpack : packOrdered rows decodeFirst prepared = .ok packed behind) :
    RoundTrip (ordered decodeFirst rows) packed := by
  rcases h.packOrdered_cases rows decodeFirst with
    ⟨error, _, hrun⟩ | ⟨arrays, haccepted, _, _, hholds, hrun⟩
  · rw [hrun] at hpack
    cases hpack
  · rw [hrun] at hpack
    cases hpack
    have hperm := ordered_perm decodeFirst rows
    have hslots : (requestedSlots (ordered decodeFirst rows)).Perm (requestedSlots rows) :=
      hperm.filterMap _
    have hdense := haccepted.dense rfl
    have hlength := hslots.length_eq
    rw [← hlength] at hholds
    apply roundTrip_of_holds hholds (ordered_accepted haccepted decodeFirst).1
    · exact hslots.trans (by rw [hlength]; exact hdense)
    · intro slot hmem
      have hlt := haccepted.slot_lt slot (hslots.mem_iff.mp hmem)
      exact Nat.lt_of_lt_of_le hlt (Nat.le_trans config.maxOutputSlots_le
        (Nat.le_trans config.maxRows_le_inputTokens config.maxInputTokens_le))
    · exact (((hperm.filter _).map _).sum_nat).symm
    · exact (((hperm.filter _).map _).sum_nat).symm

/-- The answers of two objects differ only by the verdicts of validation. -/
theorem Aged.answer_packOrdered_iff {first second : PreparedLlamaBatchMetadata config}
    (hfirst : first.Aged) (hsecond : second.Aged) (rows : List LlamaBatchRow)
    (decodeFirst : Bool) :
    answer (packOrdered rows decodeFirst) first = answer (packOrdered rows decodeFirst) second ↔
      answer (validate rows) first =
        answer (validate rows) second := by
  rcases hfirst.packOrdered_cases rows decodeFirst with
    ⟨error, hvalidate, hrun⟩ | ⟨arrays, _, hvalidate, hpack, _, hrun⟩ <;>
  rcases hsecond.packOrdered_cases rows decodeFirst with
    ⟨error', hvalidate', hrun'⟩ | ⟨arrays', _, hvalidate', hpack', _, hrun'⟩
  · rw [hvalidate, hvalidate', answer, answer, hrun, hrun']
    simp
  · rw [hvalidate, hvalidate', answer, answer, hrun, hrun']
    simp
  · rw [hvalidate, hvalidate', answer, answer, hrun, hrun']
    simp
  · rw [hpack] at hpack'
    cases hpack'
    rw [hvalidate, hvalidate', answer, answer, hrun, hrun']
    simp [view]

/-- Packing lays the rows out so that each can be read back, within the buffers reserved,
after any history. The history tells on the answer only where the number of the call has
outgrown its mark and a written block stands twice. -/
theorem pack_roundTrip {grants : String → Nat → Bool}
    {prepared : PreparedLlamaBatchMetadata config}
    (hprepare : prepare grants config = .ok prepared) (calls : List Call)
    (rows : List LlamaBatchRow) :
    (∀ packed behind, pack rows (prepared.afterCalls calls) = .ok packed behind →
      RoundTrip rows packed) ∧
    (∀ packed behind, packDecodeFirst rows (prepared.afterCalls calls) = .ok packed behind →
      RoundTrip (rows.filter (·.kind == .decode) ++ rows.filter (·.kind != .decode)) packed) ∧
    (prepared.afterCalls calls).WithinCapacity ∧
    ∀ decodeFirst,
      answer (packOrdered rows decodeFirst) (prepared.afterCalls calls) =
          answer (packOrdered rows decodeFirst) prepared ↔
        callNumber (calls.countP (isNumbered config)) < 2 ^ 63 ∨
          pairwise config rows ≠ .error blockAliasError := by
  have haged := (prepare_eq_ok hprepare).1
  have hlater := (aged_history hprepare calls).1
  have hfresh : answer (validate rows) prepared = pairwise config rows :=
    answer_afterCalls hprepare [] rows
  refine ⟨?_, ?_, ?_, ?_⟩
  · intro packed behind hpack
    have hround := hlater.roundTrip hpack
    rwa [ordered_false] at hround
  · intro packed behind hpack
    have hround := hlater.roundTrip hpack
    rwa [ordered_true] at hround
  · exact withinCapacity_afterCalls (withinCapacity_prepare hprepare) haged calls
  · intro decodeFirst
    rw [hlater.answer_packOrdered_iff haged, hfresh, answer_afterCalls hprepare,
      pairwiseWith_eq_iff, decide_eq_true_iff]

/-- A prompt and a later token, the token in front, by an object that has been used. -/
theorem pack_roundTrip_mixed :
    prepare (fun _ _ => true) mixedConfig = .ok freshMixed ∧
      ∃ packed behind,
        packDecodeFirst [prefillRow, decodeRow] (freshMixed.afterCalls earlierCalls) =
          .ok packed behind ∧
        RoundTrip [decodeRow, prefillRow] packed ∧
        answer (packDecodeFirst [prefillRow, decodeRow]) freshMixed = .ok packed := by
  have hprepare : prepare (fun _ _ => true) mixedConfig = .ok freshMixed := by rfl
  have hmarked : callNumber (earlierCalls.countP (isNumbered mixedConfig)) < 2 ^ 63 := by decide
  have hverdict : answer (validate [prefillRow, decodeRow]) (freshMixed.afterCalls earlierCalls) =
      .ok (batchCounts [prefillRow, decodeRow]) := by
    rw [answer_afterCalls hprepare, decide_eq_true hmarked]
    rfl
  obtain ⟨_, hround, _, hsame⟩ := pack_roundTrip hprepare earlierCalls [prefillRow, decodeRow]
  rcases (aged_history hprepare earlierCalls).1.packOrdered_cases [prefillRow, decodeRow] true
    with ⟨error, herror, _⟩ | ⟨arrays, _, _, _, _, hrun⟩
  · rw [hverdict] at herror
    cases herror
  · refine ⟨hprepare, _, _, hrun, hround _ _ hrun, ?_⟩
    have hfresh := ((hsame true).mpr (.inl hmarked)).symm
    rw [packDecodeFirst, hfresh, answer, hrun]

/-- After 2^63 - 1 calls of one row a batch is packed that a fresh object refuses. -/
theorem pack_depends :
    prepare (fun _ _ => true) twoRows = .ok freshTwoRows ∧
      answer (packOrdered [firstToken 1 0 0, firstToken 2 0 1] false)
          (freshTwoRows.afterCalls (List.replicate (2 ^ 63 - 1) ([firstToken 1 0 0], false))) ≠
        answer (packOrdered [firstToken 1 0 0, firstToken 2 0 1] false) freshTwoRows := by
  have hprepare : prepare (fun _ _ => true) twoRows = .ok freshTwoRows := by rfl
  have haged := (prepare_eq_ok hprepare).1
  have hlater := (aged_history hprepare
    (List.replicate (2 ^ 63 - 1) ([firstToken 1 0 0], false))).1
  have hfresh : answer (validate [firstToken 1 0 0, firstToken 2 0 1]) freshTwoRows =
      .error blockAliasError :=
    (answer_afterCalls hprepare [] _).trans pairwise_twoTokens
  refine ⟨hprepare, fun hsame => ?_⟩
  rw [hlater.answer_packOrdered_iff haged, hfresh, validate_late callNumber_late] at hsame
  cases hsame

end RoundTrips

end PreparedLlamaBatchMetadata

end Riley.Batch
