import Mathlib
import Riley.Batch.Pairwise

/-!
What validation by comparison finds out about a batch: that no block which is written
stands in it twice, that the output slots are the numbers below some bound, and what is
asked of every row alone.
-/

namespace Riley.Batch

open Outcome

variable {config : LlamaBatchMetadataConfig}

section Batches

/-- The blocks of a table, each with whether it stands at the first written one or behind. -/
def blockUses (firstWritten start : Nat) (ids : List Nat) : List (Nat × Bool) :=
  (ids.zipIdx start).map fun entry => (entry.1, decide (firstWritten ≤ entry.2))

def rowBlocks (row : LlamaBatchRow) : List (Nat × Bool) :=
  blockUses ((row.targetLogicalLength - row.inputTokenIds.length) / PagedKv.kvBlockSize) 0
    row.blockTable.physicalBlockIds

/-- Every place of a batch at which a block is named. -/
def batchBlocks (rows : List LlamaBatchRow) : List (Nat × Bool) := rows.flatMap rowBlocks

def requestedSlots (rows : List LlamaBatchRow) : List Nat := rows.filterMap (·.outputSlot)

/-- A block is named at two places, and written at one of them. -/
def Aliased (rows : List LlamaBatchRow) : Prop :=
  ∃ first second : Nat, first < second ∧ ∃ id write write',
    (batchBlocks rows)[first]? = some (id, write) ∧
      (batchBlocks rows)[second]? = some (id, write') ∧ (write = true ∨ write' = true)

/-- The slots are the first numbers, each of them once. -/
def Dense (slots : List Nat) : Prop := slots.Perm (List.range slots.length)

/-- No block that is written stands at two places. -/
def Clean (blocks : List (Nat × Bool)) : Prop :=
  blocks.Pairwise fun first second => first.1 = second.1 → first.2 = false ∧ second.2 = false

theorem aliased_iff (rows : List LlamaBatchRow) : Aliased rows ↔ ¬ Clean (batchBlocks rows) := by
  unfold Aliased Clean
  rw [List.pairwise_iff_getElem]
  constructor
  · rintro ⟨first, second, hlt, id, write, write', hfirst, hsecond, hwrite⟩ hclean
    obtain ⟨hfirstLt, hfirstEq⟩ := List.getElem?_eq_some_iff.mp hfirst
    obtain ⟨hsecondLt, hsecondEq⟩ := List.getElem?_eq_some_iff.mp hsecond
    have hread := hclean first second hfirstLt hsecondLt hlt
    rw [hfirstEq, hsecondEq] at hread
    obtain ⟨rfl, rfl⟩ := hread rfl
    simp at hwrite
  · intro hclean
    simp only [not_forall] at hclean
    obtain ⟨first, second, hfirst, hsecond, hlt, hid, hwrite⟩ := hclean
    refine ⟨first, second, hlt, (batchBlocks rows)[first].1, (batchBlocks rows)[first].2,
      (batchBlocks rows)[second].2, List.getElem?_eq_getElem hfirst, ?_, ?_⟩
    · rw [List.getElem?_eq_getElem hsecond, hid]
    · rw [not_and_or, Bool.not_eq_false, Bool.not_eq_false] at hwrite
      exact hwrite

theorem Clean.of_append {blocks more : List (Nat × Bool)} (h : Clean (blocks ++ more)) :
    Clean blocks :=
  (List.pairwise_append.mp h).1

theorem clean_append_singleton {blocks : List (Nat × Bool)} (h : Clean blocks) (id : Nat)
    (write : Bool) :
    Clean (blocks ++ [(id, write)]) ↔
      ¬ ∃ earlier ∈ blocks, earlier.1 = id ∧ (write = true ∨ earlier.2 = true) := by
  unfold Clean at *
  rw [List.pairwise_append]
  constructor
  · rintro ⟨_, _, hcross⟩ ⟨earlier, hmem, hid, hwrite⟩
    obtain ⟨hread, hread'⟩ := hcross earlier hmem _ List.mem_cons_self hid
    simp_all
  · intro hnone
    refine ⟨h, List.pairwise_singleton _ _, ?_⟩
    intro earlier hmem last hlast hid
    rw [List.mem_singleton.mp hlast] at hid ⊢
    have hneither : ¬ (write = true ∨ earlier.2 = true) := fun hwrite =>
      hnone ⟨earlier, hmem, hid, hwrite⟩
    rw [not_or, Bool.not_eq_true, Bool.not_eq_true] at hneither
    exact ⟨hneither.2, hneither.1⟩

theorem Dense.nodup {slots : List Nat} (h : Dense slots) : slots.Nodup :=
  h.nodup_iff.mpr List.nodup_range

theorem Dense.mem {slots : List Nat} (h : Dense slots) {slot : Nat} (hlt : slot < slots.length) :
    slot ∈ slots :=
  h.mem_iff.mpr (List.mem_range.mpr hlt)

theorem dense_of_mem {slots : List Nat} (hmem : ∀ slot < slots.length, slot ∈ slots) :
    Dense slots := by
  have hsub : (List.range slots.length).Subperm slots :=
    List.nodup_range.subperm fun slot hslot => hmem slot (List.mem_range.mp hslot)
  exact (hsub.perm_of_length_le (Nat.le_of_eq List.length_range.symm)).symm

end Batches

section Counts

def ValidatedBatch.add (first second : ValidatedBatch) : ValidatedBatch where
  totalInputTokens := first.totalInputTokens + second.totalInputTokens
  totalBlockEntries := first.totalBlockEntries + second.totalBlockEntries
  outputCount := first.outputCount + second.outputCount
  prefillRows := first.prefillRows + second.prefillRows
  decodeRows := first.decodeRows + second.decodeRows
  prefillTokens := first.prefillTokens + second.prefillTokens
  decodeTokens := first.decodeTokens + second.decodeTokens

/-- What a batch counts as. -/
def batchCounts (rows : List LlamaBatchRow) : ValidatedBatch where
  totalInputTokens := (rows.map (·.inputTokenIds.length)).sum
  totalBlockEntries := (rows.map (·.blockTable.physicalBlockIds.length)).sum
  outputCount := (requestedSlots rows).length
  prefillRows := rows.countP (·.kind = .prefill)
  decodeRows := rows.countP (·.kind = .decode)
  prefillTokens := ((rows.filter (·.kind = .prefill)).map (·.inputTokenIds.length)).sum
  decodeTokens := ((rows.filter (·.kind = .decode)).map (·.inputTokenIds.length)).sum

/-- What is asked of a row, whatever the rest of its batch is. -/
structure RowOk (row : LlamaBatchRow) : Prop where
  input_ne : row.inputTokenIds ≠ []
  decode_one : row.kind = .decode → row.inputTokenIds.length = 1 ∧ row.outputSlot ≠ none
  input_le : row.inputTokenIds.length ≤ row.targetLogicalLength
  logicalLength : row.blockTable.logicalLength = row.targetLogicalLength
  validTokens : row.blockTable.physicalBlockIds.length = row.blockTable.validTokens.length
  blocks : row.blockTable.physicalBlockIds.length =
    (row.targetLogicalLength + (PagedKv.kvBlockSize - 1)) / PagedKv.kvBlockSize

theorem batchCounts_cons (row : LlamaBatchRow) (rest : List LlamaBatchRow) :
    batchCounts (row :: rest) = (batchCounts [row]).add (batchCounts rest) := by
  cases hkind : row.kind <;> cases hslot : row.outputSlot <;>
    simp [batchCounts, ValidatedBatch.add, requestedSlots, hkind, hslot, Nat.add_comm]

theorem ValidatedBatch.add_assoc (first second third : ValidatedBatch) :
    (first.add second).add third = first.add (second.add third) := by
  simp [ValidatedBatch.add, Nat.add_assoc]

@[simp] theorem ValidatedBatch.zero_add (totals : ValidatedBatch) :
    ValidatedBatch.zero.add totals = totals := by
  simp [ValidatedBatch.add, ValidatedBatch.zero]

end Counts

section Verdicts

/-- Which errors blame the blocks, and which the slots. -/
def Blames (blocks slots : Prop) (error : LlamaBatchError) : Prop :=
  (error = blockAliasError → blocks) ∧ (error = slotTakenError ∨ error = slotGapError → slots)

theorem Blames.imp {blocks slots blocks' slots' : Prop} {error : LlamaBatchError}
    (h : Blames blocks slots error) (hblocks : blocks → blocks') (hslots : slots → slots') :
    Blames blocks' slots' error :=
  ⟨fun herror => hblocks (h.1 herror), fun herror => hslots (h.2 herror)⟩

/-- An error that blames neither. -/
def isOther (error : LlamaBatchError) : Bool :=
  error != blockAliasError && error != slotTakenError && error != slotGapError

theorem blames_other {blocks slots : Prop} {error : LlamaBatchError}
    (h : isOther error = true) : Blames blocks slots error := by
  simp only [isOther, Bool.and_eq_true, bne_iff_ne] at h
  obtain ⟨⟨halias, htaken⟩, hgap⟩ := h
  exact ⟨fun herror => absurd herror halias,
    fun herror => herror.elim (fun h => absurd h htaken) (fun h => absurd h hgap)⟩

variable {aliases routes : Bool}

theorem wp_tag {ok : Unit → Seen → Prop} {err : LlamaBatchError → Seen → Prop} (seen : Seen)
    (sequenceTag : Nat) (hok : ok () { seen with tags := seen.tags ++ [sequenceTag] })
    (herr : err duplicateTagError seen) :
    wp ((pairwiseMarking config aliases routes).tag sequenceTag) ok err seen := by
  simp only [pairwiseMarking, wp_bind, wp_get, wp_rejectIf, wp_set]
  exact ⟨fun _ => herr, fun _ => hok⟩

theorem wp_validateBlocks (seen : Seen) (hclean : aliases = true → Clean seen.blocks)
    (targetLength requiredBlocks firstWritten blockIndex : Nat) (entries : List (Nat × Nat))
    (validTokenSum : Nat) :
    wp (validateBlocks (pairwiseMarking config aliases routes) targetLength requiredBlocks
        firstWritten blockIndex entries validTokenSum)
      (fun _ seen' =>
        seen' = { seen with
          blocks := seen.blocks ++ blockUses firstWritten blockIndex (entries.map (·.1)) } ∧
        (aliases = true → Clean seen'.blocks))
      (fun error seen' => Blames (aliases = true ∧
        ¬ Clean (seen.blocks ++ blockUses firstWritten blockIndex (entries.map (·.1)))) False error ∧
          seen'.tags = seen.tags)
      seen := by
  induction entries generalizing seen blockIndex validTokenSum with
  | nil =>
      rw [validateBlocks, wp_pure]
      exact ⟨by simp [blockUses], hclean⟩
  | cons entry rest ih =>
      obtain ⟨physicalId, validTokens⟩ := entry
      have hstep : seen.blocks ++ blockUses firstWritten blockIndex
            (((physicalId, validTokens) :: rest).map (·.1)) =
          (seen.blocks ++ [(physicalId, decide (firstWritten ≤ blockIndex))]) ++
            blockUses firstWritten (blockIndex + 1) (rest.map (·.1)) := by
        simp [blockUses]
      rw [hstep, validateBlocks]
      split
      · simp only [pairwiseMarking, wp_bind, wp_get, wp_rejectIf, wp_set, wp_orReject]
        constructor
        · rintro ⟨haliases, hearlier⟩
          refine ⟨⟨fun _ => ⟨haliases, fun hall => ?_⟩, by decide⟩, trivial⟩
          exact (clean_append_singleton (hclean haliases) _ _).mp hall.of_append hearlier
        · intro hpass
          have hnext : aliases = true →
              Clean (seen.blocks ++ [(physicalId, decide (firstWritten ≤ blockIndex))]) := by
            intro haliases
            apply (clean_append_singleton (hclean haliases) _ _).mpr
            exact fun hearlier => hpass ⟨haliases, hearlier⟩
          refine ⟨fun _ => ⟨blames_other rfl, trivial⟩,
            fun _ => ⟨fun _ => ⟨blames_other rfl, trivial⟩, ?_⟩⟩
          intro sum _
          exact ih { seen with blocks := seen.blocks ++ _ } hnext (blockIndex + 1) sum
      · rw [wp_throw]
        exact ⟨blames_other rfl, rfl⟩

theorem wp_validateBlockTable {seen : Seen} (hclean : aliases = true → Clean seen.blocks)
    (row : LlamaBatchRow) :
    wp (validateBlockTable (pairwiseMarking config aliases routes) row row.targetLogicalLength)
      (fun _ seen' =>
        seen' = { seen with blocks := seen.blocks ++ rowBlocks row } ∧
        (aliases = true → Clean seen'.blocks) ∧
        row.blockTable.logicalLength = row.targetLogicalLength ∧
        row.blockTable.physicalBlockIds.length = row.blockTable.validTokens.length ∧
        row.blockTable.physicalBlockIds.length =
          (row.targetLogicalLength + (PagedKv.kvBlockSize - 1)) / PagedKv.kvBlockSize)
      (fun error seen' =>
        Blames (aliases = true ∧ ¬ Clean (seen.blocks ++ rowBlocks row)) False error ∧
          seen'.tags = seen.tags)
      seen := by
  unfold validateBlockTable
  dsimp only
  refine wp_check (fun _ => ⟨blames_other rfl, rfl⟩) fun _ => ?_
  refine wp_check (fun _ => ⟨blames_other rfl, rfl⟩) fun hlogical => ?_
  refine wp_check (fun _ => ⟨blames_other rfl, rfl⟩) fun hvalid => ?_
  refine wp_check (fun _ => ⟨blames_other rfl, rfl⟩) fun hblocks => ?_
  have hids : (row.blockTable.physicalBlockIds.zip row.blockTable.validTokens).map (·.1) =
      row.blockTable.physicalBlockIds :=
    List.map_fst_zip (Nat.le_of_eq (not_not.mp hvalid))
  have hwalk := @wp_validateBlocks config aliases routes seen hclean row.targetLogicalLength
    ((row.targetLogicalLength + (PagedKv.kvBlockSize - 1)) / PagedKv.kvBlockSize)
    ((row.targetLogicalLength - row.inputTokenIds.length) / PagedKv.kvBlockSize) 0
    (row.blockTable.physicalBlockIds.zip row.blockTable.validTokens) 0
  rw [hids] at hwalk
  refine wp_call hwalk ?_ fun _ _ herror => herror
  rintro _ _ ⟨rfl, hnext⟩
  rw [wp_rejectIf]
  exact ⟨fun _ => ⟨blames_other rfl, rfl⟩,
    fun _ => ⟨rfl, hnext, not_not.mp hlogical, not_not.mp hvalid, not_not.mp hblocks⟩⟩

theorem wp_validateSlot {seen : Seen} (hnodup : routes = true → seen.slots.Nodup)
    (row : LlamaBatchRow) (totals : ValidatedBatch) :
    wp (validateSlot (pairwiseMarking config aliases routes) row totals)
      (fun totals' seen' =>
        seen' = { seen with slots := seen.slots ++ requestedSlots [row] } ∧
        (routes = true → seen'.slots.Nodup) ∧
        (∀ slot ∈ requestedSlots [row], slot < config.maxOutputSlots) ∧
        totals' = { totals with
          outputCount := totals.outputCount + (requestedSlots [row]).length })
      (fun error seen' =>
        Blames False (routes = true ∧ ¬ (seen.slots ++ requestedSlots [row]).Nodup) error ∧
          seen'.tags = seen.tags)
      seen := by
  unfold validateSlot
  cases hslot : row.outputSlot with
  | none =>
      have hnone : requestedSlots [row] = [] := by simp [requestedSlots, hslot]
      simp [hnone]
      exact hnodup
  | some slot =>
      have hone : requestedSlots [row] = [slot] := by simp [requestedSlots, hslot]
      rw [hone]
      dsimp only
      rw [wp_bind, wp_orReject]
      refine ⟨fun _ => ⟨blames_other rfl, rfl⟩, fun requested _ => ?_⟩
      split
      · next hlt =>
          simp only [pairwiseMarking, wp_bind, wp_get, wp_rejectIf, wp_set, wp_orReject, wp_pure]
          constructor
          · rintro ⟨hroutes, hmem⟩
            refine ⟨⟨by decide, fun _ => ⟨hroutes, fun hall => ?_⟩⟩, trivial⟩
            exact (List.nodup_append.mp hall).2.2 slot hmem slot List.mem_cons_self rfl
          · intro hfree
            refine ⟨fun _ => ⟨blames_other rfl, trivial⟩, fun count hcount => ?_⟩
            obtain ⟨rfl, _⟩ := checkedAdd_eq_some.mp hcount
            refine ⟨trivial, fun hroutes => ?_, ?_, rfl⟩
            · apply List.nodup_append.mpr
              refine ⟨hnodup hroutes, List.nodup_singleton slot, ?_⟩
              rintro taken htaken _ hlast rfl
              rw [List.mem_singleton.mp hlast] at htaken
              exact hfree ⟨hroutes, htaken⟩
            · intro other hother
              rw [List.mem_singleton.mp hother]
              exact hlt
      · rw [wp_throw]
        exact ⟨blames_other rfl, rfl⟩

/-- The counts that have a buffer to fill fit it. -/
def Fits (config : LlamaBatchMetadataConfig) (totals : ValidatedBatch) : Prop :=
  totals.totalInputTokens ≤ config.maxInputTokens ∧
    totals.totalBlockEntries ≤ config.maxBlockEntries

/-- What is known behind rows that passed. -/
structure Passed (config : LlamaBatchMetadataConfig) (aliases routes : Bool) (before : Seen)
    (rows : List LlamaBatchRow) (after : Seen) : Prop where
  tags : after.tags.length = before.tags.length + rows.length
  blocks : after.blocks = before.blocks ++ batchBlocks rows
  slots : after.slots = before.slots ++ requestedSlots rows
  clean : aliases = true → Clean after.blocks
  nodup : routes = true → after.slots.Nodup
  slot_lt : ∀ slot ∈ requestedSlots rows, slot < config.maxOutputSlots
  rowOk : ∀ row ∈ rows, RowOk row

/-- What the counting of a row's kind adds, where nothing overflows. -/
theorem countKind_spec (row : LlamaBatchRow) (totals : ValidatedBatch) :
    (∃ field, countKind row totals = .error (.arithmeticOverflow field)) ∨
      countKind row totals = .ok { totals with
        prefillRows := totals.prefillRows + (batchCounts [row]).prefillRows
        decodeRows := totals.decodeRows + (batchCounts [row]).decodeRows
        prefillTokens := totals.prefillTokens + (batchCounts [row]).prefillTokens
        decodeTokens := totals.decodeTokens + (batchCounts [row]).decodeTokens } := by
  unfold countKind checkedAdd
  cases hkind : row.kind with
  | prefill =>
      simp only [bind, Except.bind]
      by_cases hrows : totals.prefillRows + 1 ≤ usizeMax
      · by_cases htokens : totals.prefillTokens + row.inputTokenIds.length ≤ usizeMax
        · right
          simp [batchCounts, hkind, hrows, htokens]
        · left
          exact ⟨"prefill token count", by simp [hrows, htokens]⟩
      · left
        exact ⟨"prefill row count", by simp [hrows]⟩
  | decode =>
      simp only [bind, Except.bind]
      by_cases hrows : totals.decodeRows + 1 ≤ usizeMax
      · by_cases htokens : totals.decodeTokens + row.inputTokenIds.length ≤ usizeMax
        · right
          simp [batchCounts, hkind, hrows, htokens]
        · left
          exact ⟨"decode token count", by simp [hrows, htokens]⟩
      · left
        exact ⟨"decode row count", by simp [hrows]⟩

section Steps

variable {σ α : Type} {ok : α → σ → Prop} {err : LlamaBatchError → σ → Prop} {s : σ}

theorem wp_capacity {resource : String} {requested capacity : Nat}
    {next : PLift (requested ≤ capacity) → EStateM LlamaBatchError σ α}
    (herr : err (.capacityExceeded resource requested capacity) s)
    (hok : ∀ h : requested ≤ capacity, wp (next ⟨h⟩) ok err s) :
    wp (fromExcept (ensureCapacity resource requested capacity) >>= next) ok err s := by
  unfold ensureCapacity require
  split
  · next h => exact hok h
  · exact herr

theorem wp_checkedAdd {next : Nat → EStateM LlamaBatchError σ α} {limit a b : Nat}
    {e : LlamaBatchError} (herr : err e s) (hok : wp (next (a + b)) ok err s) :
    wp (orReject (checkedAdd limit a b) e >>= next) ok err s := by
  unfold checkedAdd
  split
  · exact hok
  · exact herr

end Steps

theorem wp_validateRow {seen : Seen} (hclean : aliases = true → Clean seen.blocks)
    (hnodup : routes = true → seen.slots.Nodup) (row : LlamaBatchRow) (totals : ValidatedBatch) :
    wp (validateRow (pairwiseMarking config aliases routes) row totals)
      (fun totals' seen' => Passed config aliases routes seen [row] seen' ∧
        totals' = totals.add (batchCounts [row]) ∧ Fits config totals')
      (fun error seen' => Blames (aliases = true ∧ ¬ Clean (seen.blocks ++ rowBlocks row))
        (routes = true ∧ ¬ (seen.slots ++ requestedSlots [row]).Nodup) error ∧
          seen'.tags.length ≤ seen.tags.length + 1)
      seen := by
  unfold validateRow
  have htag : (seen.tags ++ [row.sequenceTag]).length = seen.tags.length + 1 := by simp
  have hlt : (seen.tags ++ [row.sequenceTag]).length ≤ seen.tags.length + 1 := by simp
  dsimp only
  refine wp_seq (wp_tag seen row.sequenceTag ?_ ⟨blames_other rfl, Nat.le_succ _⟩)
  refine wp_check (fun _ => ⟨blames_other rfl, hlt⟩) fun hinput => ?_
  refine wp_check (fun _ => ⟨blames_other rfl, hlt⟩) fun hone => ?_
  refine wp_check (fun _ => ⟨blames_other rfl, hlt⟩) fun hsome => ?_
  refine wp_check (fun _ => ⟨blames_other rfl, hlt⟩) fun htarget => ?_
  refine wp_checkedAdd ⟨blames_other rfl, hlt⟩ ?_
  refine wp_capacity ⟨blames_other rfl, hlt⟩ fun htokens => ?_
  rcases countKind_spec row { totals with
      totalInputTokens := totals.totalInputTokens + row.inputTokenIds.length } with
    ⟨field, hcount⟩ | hcount
  · rw [hcount]
    exact ⟨blames_other rfl, hlt⟩
  refine wp_ofOk hcount ?_
  have htable := @wp_validateBlockTable config aliases routes
    { seen with tags := seen.tags ++ [row.sequenceTag] } hclean row
  refine wp_call htable ?_ ?_
  rotate_left
  · rintro error seen' ⟨hblames, htags⟩
    exact ⟨hblames.imp id False.elim, by rw [htags]; exact hlt⟩
  rintro _ _ ⟨rfl, hnext, hlogical, hvalid, hblocks⟩
  refine wp_checkedAdd ⟨blames_other rfl, hlt⟩ ?_
  refine wp_capacity ⟨blames_other rfl, hlt⟩ fun hentries => ?_
  have hslot := @wp_validateSlot config aliases routes
    { seen with
      tags := seen.tags ++ [row.sequenceTag]
      blocks := seen.blocks ++ rowBlocks row } hnodup row
  refine wp_mono (hslot _) ?_ ?_
  · rintro totals' _ ⟨rfl, hslots, hslotLt, rfl⟩
    refine ⟨?_, ?_, ?_⟩
    · refine ⟨htag, ?_, rfl, hnext, hslots, hslotLt, ?_⟩
      · simp [batchBlocks]
      · intro other hother
        rw [List.mem_singleton.mp hother]
        refine ⟨hinput, ?_, Nat.not_lt.mp htarget, hlogical, hvalid, hblocks⟩
        intro hdecode
        exact ⟨not_not.mp fun hne => hone ⟨hdecode, hne⟩, fun hnone => hsome ⟨hdecode, hnone⟩⟩
    · simp [ValidatedBatch.add, batchCounts]
    · exact ⟨htokens, hentries⟩
  · rintro error seen' ⟨hblames, htags⟩
    exact ⟨hblames.imp False.elim id, by rw [htags]; exact hlt⟩

theorem batchBlocks_cons (row : LlamaBatchRow) (rest : List LlamaBatchRow) :
    batchBlocks (row :: rest) = rowBlocks row ++ batchBlocks rest := List.flatMap_cons

theorem requestedSlots_cons (row : LlamaBatchRow) (rest : List LlamaBatchRow) :
    requestedSlots (row :: rest) = requestedSlots [row] ++ requestedSlots rest := by
  rw [requestedSlots, requestedSlots, requestedSlots, ← List.filterMap_append]
  rfl

theorem wp_validateRows {seen : Seen} (hclean : aliases = true → Clean seen.blocks)
    (hnodup : routes = true → seen.slots.Nodup) (rows : List LlamaBatchRow)
    {totals : ValidatedBatch} (hfits : Fits config totals) :
    wp (validateRows (pairwiseMarking config aliases routes) rows totals)
      (fun totals' seen' => Passed config aliases routes seen rows seen' ∧
        totals' = totals.add (batchCounts rows) ∧ Fits config totals')
      (fun error seen' => Blames (aliases = true ∧ ¬ Clean (seen.blocks ++ batchBlocks rows))
        (routes = true ∧ ¬ (seen.slots ++ requestedSlots rows).Nodup) error ∧
          seen'.tags.length ≤ seen.tags.length + rows.length)
      seen := by
  induction rows generalizing seen totals with
  | nil =>
      rw [validateRows, wp_pure]
      exact ⟨⟨rfl, (List.append_nil _).symm, (List.append_nil _).symm, hclean, hnodup, nofun,
        nofun⟩, rfl, hfits⟩
  | cons row rest ih =>
      rw [validateRows, wp_bind, batchBlocks_cons, requestedSlots_cons, ← List.append_assoc,
        ← List.append_assoc, batchCounts_cons, ← ValidatedBatch.add_assoc]
      refine wp_mono (wp_validateRow hclean hnodup row totals) ?_ ?_
      · rintro _ seen' ⟨hrow, rfl, hfits'⟩
        have hblocks : seen'.blocks = seen.blocks ++ rowBlocks row := by
          rw [hrow.blocks, batchBlocks_cons, batchBlocks, List.flatMap_nil, List.append_nil]
        rw [← hblocks, ← hrow.slots]
        refine wp_mono (ih hrow.clean hrow.nodup hfits') ?_ ?_
        · rintro totals' seen'' ⟨hrest, htotals, hfits''⟩
          refine ⟨⟨?_, ?_, ?_, hrest.clean, hrest.nodup, ?_, ?_⟩, htotals, hfits''⟩
          · rw [hrest.tags, hrow.tags, List.length_cons, List.length_cons, List.length_nil]
            omega
          · rw [hrest.blocks, hblocks, batchBlocks_cons, List.append_assoc]
          · rw [hrest.slots, hrow.slots, @requestedSlots_cons row rest, List.append_assoc]
          · intro slot hslot
            rw [requestedSlots_cons] at hslot
            exact (List.mem_append.mp hslot).elim (hrow.slot_lt slot) (hrest.slot_lt slot)
          · intro other hother
            rcases List.mem_cons.mp hother with rfl | hmem
            · exact hrow.rowOk other List.mem_cons_self
            · exact hrest.rowOk other hmem
        · rintro error seen'' ⟨hblames, htags⟩
          refine ⟨hblames, ?_⟩
          rw [hrow.tags] at htags
          rw [List.length_cons]
          rw [List.length_cons, List.length_nil] at htags
          omega
      · rintro error seen' ⟨hblames, htags⟩
        refine ⟨hblames.imp ?_ ?_, ?_⟩
        · rintro ⟨haliases, hdirty⟩
          exact ⟨haliases, fun hall => hdirty hall.of_append⟩
        · rintro ⟨hroutes, htwice⟩
          exact ⟨hroutes, fun hall => htwice (List.nodup_append.mp hall).1⟩
        · rw [List.length_cons]
          omega

/-- What the pass over all rows, and the look at the slots, find out. -/
theorem wp_validateMarked (rows : List LlamaBatchRow) :
    wp (validateMarked (pairwiseMarking config aliases routes) rows)
      (fun totals seen' => Passed config aliases routes ⟨[], [], []⟩ rows seen' ∧
        (routes = true → Dense (requestedSlots rows)) ∧
        totals = batchCounts rows ∧ Fits config totals ∧
        totals.outputCount ≤ config.maxOutputSlots)
      (fun error seen' => Blames (aliases = true ∧ ¬ Clean (batchBlocks rows))
        (routes = true ∧ ¬ Dense (requestedSlots rows)) error ∧ seen'.tags.length ≤ rows.length)
      ⟨[], [], []⟩ := by
  have hrows := @wp_validateRows config aliases routes ⟨[], [], []⟩ (fun _ => List.Pairwise.nil)
    (fun _ => List.nodup_nil) rows .zero ⟨Nat.zero_le _, Nat.zero_le _⟩
  simp only [List.nil_append, List.length_nil, Nat.zero_add, ValidatedBatch.zero_add] at hrows
  unfold validateMarked
  refine wp_call hrows ?_ ?_
  · rintro _ seen' ⟨hpassed, rfl, hfits⟩
    have hslots : seen'.slots = requestedSlots rows := hpassed.slots
    have htags : seen'.tags.length = rows.length := by
      rw [hpassed.tags, List.length_nil, Nat.zero_add]
    refine wp_capacity ⟨blames_other rfl, Nat.le_of_eq htags⟩ fun hcount => ?_
    simp only [pairwiseMarking, wp_bind, wp_get, wp_rejectIf, wp_pure]
    constructor
    · rintro ⟨hroutes, slot, hlt, hgap⟩
      refine ⟨⟨fun herror => absurd herror (by decide),
        fun _ => ⟨hroutes, fun hdense => hgap ?_⟩⟩, Nat.le_of_eq htags⟩
      rw [hslots]
      exact hdense.mem hlt
    · intro hfull
      refine ⟨hpassed, fun hroutes => dense_of_mem ?_, trivial, hfits, hcount⟩
      intro slot hlt
      rw [← hslots]
      by_contra hgap
      exact hfull ⟨hroutes, slot, hlt, hgap⟩
  · rintro error seen' ⟨hblames, htags⟩
    refine ⟨hblames.imp id ?_, htags⟩
    rintro ⟨hroutes, htwice⟩
    exact ⟨hroutes, fun hdense => htwice hdense.nodup⟩

/-- A batch that validation by comparison accepts. -/
structure Accepted (config : LlamaBatchMetadataConfig) (aliases routes : Bool)
    (rows : List LlamaBatchRow) : Prop where
  ne : rows ≠ []
  length_le : rows.length ≤ config.maxRows
  rowOk : ∀ row ∈ rows, RowOk row
  unaliased : aliases = true → ¬ Aliased rows
  dense : routes = true → Dense (requestedSlots rows)
  slot_lt : ∀ slot ∈ requestedSlots rows, slot < config.maxOutputSlots
  fits : Fits config (batchCounts rows)
  outputCount_le : (batchCounts rows).outputCount ≤ config.maxOutputSlots

theorem pairwiseWith_ok {rows : List LlamaBatchRow} {totals : ValidatedBatch}
    (h : pairwiseWith config aliases routes rows = .ok totals) :
    Accepted config aliases routes rows ∧ totals = batchCounts rows := by
  unfold pairwiseWith at h
  split at h
  · cases h
  next hne =>
  obtain ⟨⟨hlength⟩, _, h⟩ := except_bind_eq_ok.mp h
  obtain ⟨seen', hrun⟩ := answer_eq_ok.mp h
  obtain ⟨hpassed, hdense, rfl, hfits, hcount⟩ :=
    (wp_elim (wp_validateMarked rows)).1 totals seen' hrun
  refine ⟨⟨hne, hlength, hpassed.rowOk, ?_, hdense, hpassed.slot_lt, hfits, hcount⟩, rfl⟩
  intro haliases haliased
  have hclean := hpassed.clean haliases
  rw [hpassed.blocks, List.nil_append] at hclean
  exact (aliased_iff rows).mp haliased hclean

theorem pairwiseWith_error {rows : List LlamaBatchRow} {error : LlamaBatchError}
    (h : pairwiseWith config aliases routes rows = .error error) :
    Blames (aliases = true ∧ Aliased rows) (routes = true ∧ ¬ Dense (requestedSlots rows)) error := by
  unfold pairwiseWith at h
  split at h
  · cases h
    exact blames_other rfl
  · unfold ensureCapacity require at h
    split at h
    · obtain ⟨seen', hrun⟩ := answer_eq_error.mp h
      obtain ⟨hblames, _⟩ := (wp_elim (wp_validateMarked rows)).2 error seen' hrun
      rw [aliased_iff]
      exact hblames
    · cases h
      exact blames_other rfl

/-- Leaving out tests changes a verdict only where such a test has failed. -/
theorem pairwiseWith_narrows {aliases' routes' : Bool} {excused : LlamaBatchError → Prop}
    (haliases : aliases' = aliases ∨ aliases' = false ∧ excused blockAliasError)
    (hroutes : routes' = routes ∨
      routes' = false ∧ excused slotTakenError ∧ excused slotGapError)
    (rows : List LlamaBatchRow) :
    pairwiseWith config aliases routes rows = pairwiseWith config aliases' routes' rows ∨
      ∃ error, pairwiseWith config aliases routes rows = .error error ∧ excused error := by
  have hmarking : Marking.Agrees Eq excused (pairwiseMarking config aliases routes)
      (pairwiseMarking config aliases' routes') := by
    constructor
    · intro sequenceTag
      apply agrees_guarded
      · rintro seen _ rfl hmem
        exact .inr hmem
      · rintro seen _ rfl hmem
        exact hmem
      · rintro seen _ rfl _
        rfl
    · intro physicalIndex write
      apply agrees_guarded
      · rintro seen _ rfl hearlier
        rcases haliases with rfl | ⟨_, hexcused⟩
        · exact .inr hearlier
        · exact .inl hexcused
      · rintro seen _ rfl hearlier
        rcases haliases with rfl | ⟨rfl, _⟩
        · exact hearlier
        · exact absurd hearlier.1 (by decide)
      · rintro seen _ rfl _
        rfl
    · intro slotIndex
      apply agrees_guarded
      · rintro seen _ rfl htaken
        rcases hroutes with rfl | ⟨_, hexcused, _⟩
        · exact .inr htaken
        · exact .inl hexcused
      · rintro seen _ rfl htaken
        rcases hroutes with rfl | ⟨rfl, _⟩
        · exact htaken
        · exact absurd htaken.1 (by decide)
      · rintro seen _ rfl _
        rfl
    · intro outputCount hcount
      apply agrees_test
      · rintro seen _ rfl hgap
        rcases hroutes with rfl | ⟨_, _, hexcused⟩
        · exact .inr hgap
        · exact .inl hexcused
      · rintro seen _ rfl hgap
        rcases hroutes with rfl | ⟨rfl, _⟩
        · exact hgap
        · exact absurd hgap.1 (by decide)
  have hverdict := (agrees_validateMarked hmarking rows).answer_eq (@rfl _ (⟨[], [], []⟩ : Seen))
  unfold pairwiseWith
  split
  · exact .inl rfl
  · unfold ensureCapacity require
    split
    · exact hverdict
    · exact .inl rfl

/-- Where no other check fails, the verdict tells whether blocks are aliased and whether
the slots are the first numbers; both errors tell the truth anywhere. -/
theorem pairwise_spec (rows : List LlamaBatchRow) :
    (∀ totals, pairwise config rows = .ok totals →
      ¬ Aliased rows ∧ Dense (requestedSlots rows)) ∧
    (pairwise config rows = .error blockAliasError → Aliased rows) ∧
    (pairwise config rows = .error slotTakenError ∨ pairwise config rows = .error slotGapError →
      ¬ Dense (requestedSlots rows)) ∧
    (∀ totals, pairwiseWith config false false rows = .ok totals →
      (¬ Aliased rows → Dense (requestedSlots rows) → pairwise config rows = .ok totals) ∧
      (Dense (requestedSlots rows) →
        (pairwise config rows = .error blockAliasError ↔ Aliased rows)) ∧
      (¬ Aliased rows →
        (pairwise config rows = .error slotTakenError ∨
            pairwise config rows = .error slotGapError ↔
          ¬ Dense (requestedSlots rows)))) := by
  have hok : ∀ totals, pairwise config rows = .ok totals →
      ¬ Aliased rows ∧ Dense (requestedSlots rows) := by
    intro totals h
    have haccepted := (pairwiseWith_ok h).1
    exact ⟨haccepted.unaliased rfl, haccepted.dense rfl⟩
  have halias : pairwise config rows = .error blockAliasError → Aliased rows :=
    fun h => ((pairwiseWith_error h).1 rfl).2
  have hslots : pairwise config rows = .error slotTakenError ∨
      pairwise config rows = .error slotGapError → ¬ Dense (requestedSlots rows) := by
    rintro (h | h)
    · exact ((pairwiseWith_error h).2 (.inl rfl)).2
    · exact ((pairwiseWith_error h).2 (.inr rfl)).2
  refine ⟨hok, halias, hslots, ?_⟩
  intro totals hothers
  have hnarrows := @pairwiseWith_narrows config true true false false
    (fun error => error = blockAliasError ∨ error = slotTakenError ∨ error = slotGapError)
    (.inr ⟨rfl, .inl rfl⟩) (.inr ⟨rfl, .inr (.inl rfl), .inr (.inr rfl)⟩) rows
  rw [hothers] at hnarrows
  have hcases : pairwise config rows = .ok totals ∨
      pairwise config rows = .error blockAliasError ∨
        (pairwise config rows = .error slotTakenError ∨
          pairwise config rows = .error slotGapError) := by
    rcases hnarrows with heq | ⟨error, herror, rfl | rfl | rfl⟩
    · exact .inl heq
    · exact .inr (.inl herror)
    · exact .inr (.inr (.inl herror))
    · exact .inr (.inr (.inr herror))
  refine ⟨?_, ?_, ?_⟩
  · intro hclean hdense
    rcases hcases with h | h | h
    · exact h
    · exact absurd (halias h) hclean
    · exact absurd hdense (hslots h)
  · intro hdense
    refine ⟨halias, fun haliased => ?_⟩
    rcases hcases with h | h | h
    · exact absurd haliased (hok totals h).1
    · exact h
    · exact absurd hdense (hslots h)
  · intro hclean
    refine ⟨hslots, fun hsparse => ?_⟩
    rcases hcases with h | h | h
    · exact absurd (hok totals h).2 hsparse
    · exact absurd (halias h) hclean
    · exact h

end Verdicts

end Riley.Batch
