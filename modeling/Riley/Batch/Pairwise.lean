import Mathlib
import Riley.Batch.Metadata

/-!
Validation without marks: every block and every output slot is compared with all that the
batch has named before. The marks of a prepared object stand for these comparisons as long
as the number of the call fits beside the write bit.
-/

namespace Riley.Batch

open Outcome

variable {config : LlamaBatchMetadataConfig}

section Reference

/-- What a batch has named so far; a block comes with whether it is written. -/
structure Seen where
  tags : List Nat
  blocks : List (Nat × Bool)
  slots : List Nat

/-- Comparing with everything seen, or leaving out the tests of blocks or slots. -/
def pairwiseMarking (config : LlamaBatchMetadataConfig) (aliases routes : Bool) :
    Marking config Seen where
  tag sequenceTag := do
    let seen ← get
    rejectIf (sequenceTag ∈ seen.tags) duplicateTagError
    set { seen with tags := seen.tags ++ [sequenceTag] }
  block physicalIndex write := do
    let seen ← get
    rejectIf (aliases = true ∧
      ∃ earlier ∈ seen.blocks, earlier.1 = physicalIndex ∧ (write = true ∨ earlier.2 = true))
      blockAliasError
    set { seen with blocks := seen.blocks ++ [(physicalIndex.val, write)] }
  slot slotIndex := do
    let seen ← get
    rejectIf (routes = true ∧ slotIndex.val ∈ seen.slots) slotTakenError
    set { seen with slots := seen.slots ++ [slotIndex.val] }
  dense outputCount _ := do
    let seen ← get
    rejectIf (routes = true ∧ ∃ slot < outputCount, slot ∉ seen.slots) slotGapError

/-- The verdict on a batch that is known by its rows alone. -/
def pairwiseWith (config : LlamaBatchMetadataConfig) (aliases routes : Bool)
    (rows : List LlamaBatchRow) : Except LlamaBatchError ValidatedBatch :=
  if rows = [] then .error (.invalidBatch "rows" "an iteration must contain at least one row")
  else do
    let _ ← ensureCapacity "rows" rows.length config.maxRows
    answer (validateMarked (pairwiseMarking config aliases routes) rows) ⟨[], [], []⟩

def pairwise (config : LlamaBatchMetadataConfig) (rows : List LlamaBatchRow) :
    Except LlamaBatchError ValidatedBatch :=
  pairwiseWith config true true rows

end Reference

section Simulation

variable {μ ν : Type} {related : μ → ν → Prop} {excused : LlamaBatchError → Prop}
  {left : Marking config μ} {right : Marking config ν}

/-- Two ways to remember that cannot be told apart. -/
structure Marking.Agrees (related : μ → ν → Prop) (excused : LlamaBatchError → Prop)
    (left : Marking config μ) (right : Marking config ν) : Prop where
  tag : ∀ sequenceTag,
    Outcome.Agrees related excused (left.tag sequenceTag) (right.tag sequenceTag)
  block : ∀ physicalIndex write,
    Outcome.Agrees related excused (left.block physicalIndex write)
      (right.block physicalIndex write)
  slot : ∀ slotIndex, Outcome.Agrees related excused (left.slot slotIndex) (right.slot slotIndex)
  dense : ∀ outputCount h,
    Outcome.Agrees related excused (left.dense outputCount h) (right.dense outputCount h)

theorem agrees_validateBlocks (h : Marking.Agrees related excused left right)
    (targetLength requiredBlocks firstWritten blockIndex : Nat) (entries : List (Nat × Nat))
    (validTokenSum : Nat) :
    Outcome.Agrees related excused
      (validateBlocks left targetLength requiredBlocks firstWritten blockIndex entries
        validTokenSum)
      (validateBlocks right targetLength requiredBlocks firstWritten blockIndex entries
        validTokenSum) := by
  induction entries generalizing blockIndex validTokenSum with
  | nil => exact agrees_pure validTokenSum
  | cons entry rest ih =>
      obtain ⟨physicalId, validTokens⟩ := entry
      rw [validateBlocks, validateBlocks]
      split
      · apply agrees_bind (h.block _ _)
        intro _
        apply agrees_bind (agrees_rejectIf _ _)
        intro _
        apply agrees_bind (agrees_orReject _ _)
        intro sum
        exact ih (blockIndex + 1) sum
      · exact agrees_throw _

theorem agrees_validateBlockTable (h : Marking.Agrees related excused left right) (row : LlamaBatchRow)
    (targetLength : Nat) :
    Outcome.Agrees related excused (validateBlockTable left row targetLength)
      (validateBlockTable right row targetLength) := by
  unfold validateBlockTable
  apply agrees_bind (agrees_rejectIf _ _)
  intro _
  apply agrees_bind (agrees_rejectIf _ _)
  intro _
  apply agrees_bind (agrees_rejectIf _ _)
  intro _
  apply agrees_bind (agrees_rejectIf _ _)
  intro _
  apply agrees_bind (agrees_validateBlocks h _ _ _ _ _ _)
  intro _
  exact agrees_rejectIf _ _

theorem agrees_validateSlot (h : Marking.Agrees related excused left right) (row : LlamaBatchRow)
    (totals : ValidatedBatch) :
    Outcome.Agrees related excused (validateSlot left row totals) (validateSlot right row totals) := by
  unfold validateSlot
  cases row.outputSlot with
  | none => exact agrees_pure totals
  | some slot =>
      apply agrees_bind (agrees_orReject _ _)
      intro requested
      split
      · apply agrees_bind (h.slot _)
        intro _
        apply agrees_bind (agrees_orReject _ _)
        intro outputCount
        exact agrees_pure _
      · exact agrees_throw _

theorem agrees_validateRow (h : Marking.Agrees related excused left right) (row : LlamaBatchRow)
    (totals : ValidatedBatch) :
    Outcome.Agrees related excused (validateRow left row totals) (validateRow right row totals) := by
  unfold validateRow
  apply agrees_bind (h.tag _)
  intro _
  apply agrees_bind (agrees_rejectIf _ _)
  intro _
  apply agrees_bind (agrees_rejectIf _ _)
  intro _
  apply agrees_bind (agrees_rejectIf _ _)
  intro _
  apply agrees_bind (agrees_rejectIf _ _)
  intro _
  apply agrees_bind (agrees_orReject _ _)
  intro _
  apply agrees_bind (agrees_fromExcept _)
  intro _
  apply agrees_bind (agrees_fromExcept _)
  intro _
  apply agrees_bind (agrees_validateBlockTable h _ _)
  intro _
  apply agrees_bind (agrees_orReject _ _)
  intro _
  apply agrees_bind (agrees_fromExcept _)
  intro _
  exact agrees_validateSlot h row _

theorem agrees_validateMarked (h : Marking.Agrees related excused left right) (rows : List LlamaBatchRow) :
    Outcome.Agrees related excused (validateMarked left rows) (validateMarked right rows) := by
  have hrows : ∀ rows totals, Outcome.Agrees related excused (validateRows left rows totals)
      (validateRows right rows totals) := by
    intro rows
    induction rows with
    | nil => exact agrees_pure
    | cons row rest ih =>
        intro totals
        exact agrees_bind (agrees_validateRow h row totals) ih
  unfold validateMarked
  apply agrees_bind (hrows rows _)
  intro totals
  apply agrees_bind (agrees_fromExcept _)
  intro hcount
  apply agrees_bind (h.dense _ _)
  intro _
  exact agrees_pure totals

end Simulation

section Marks

theorem toNat_mark (epoch : UInt64) (write : Bool) :
    (epoch <<< 1 ||| write.toUInt64).toNat = epoch.toNat * 2 % 2 ^ 64 + write.toNat := by
  have hwrite : write.toUInt64.toNat = write.toNat := by cases write <;> rfl
  have hlt : write.toNat < 2 ^ 1 := by cases write <;> decide
  have hone : (1 : UInt64).toNat % 64 = 1 := by decide
  have hshift : epoch.toNat * 2 ^ 1 % 2 ^ 64 = (epoch.toNat % 2 ^ 63) <<< 1 := by
    rw [Nat.shiftLeft_eq]
    omega
  have htwo : 2 ^ 1 = 2 := by simp
  rw [UInt64.toNat_or, UInt64.toNat_shiftLeft, hwrite, hone, Nat.shiftLeft_eq, hshift,
    ← Nat.shiftLeft_add_eq_or_of_lt hlt, ← hshift, htwo]

theorem toNat_shiftRight_one (mark : UInt64) : (mark >>> 1).toNat = mark.toNat / 2 := by
  have hone : (1 : UInt64).toNat % 64 = 1 := by decide
  rw [UInt64.toNat_shiftRight, hone, Nat.shiftRight_eq_div_pow]

/-- The number of the call, read off a mark: its top bit is lost. -/
theorem toNat_mark_shiftRight (epoch : UInt64) (write : Bool) :
    ((epoch <<< 1 ||| write.toUInt64) >>> 1).toNat = epoch.toNat % 2 ^ 63 := by
  have hlt : write.toNat < 2 := by cases write <;> decide
  rw [toNat_shiftRight_one, toNat_mark]
  omega

theorem mark_and_one (epoch : UInt64) (write : Bool) :
    (epoch <<< 1 ||| write.toUInt64) &&& 1 = 1 ↔ write = true := by
  have hone : (1 : UInt64).toNat = 1 := by decide
  have heven : epoch.toNat * 2 % 2 ^ 64 % 2 = 0 := by omega
  rw [← UInt64.toNat_inj, UInt64.toNat_and, hone, Nat.and_one_is_mod, toNat_mark]
  cases write with
  | true =>
      rw [Bool.toNat_true]
      exact iff_of_true (by omega) rfl
  | false =>
      rw [Bool.toNat_false]
      exact iff_of_false (by omega) (by decide)

/-- Whether block marks of a call with that number can be recognised. -/
def detects (epoch : UInt64) : Bool := decide (epoch.toNat < 2 ^ 63)

theorem mark_shiftRight_eq {epoch : UInt64} (h : detects epoch = true) (write : Bool) :
    (epoch <<< 1 ||| write.toUInt64) >>> 1 = epoch := by
  apply UInt64.toNat_inj.mp
  rw [toNat_mark_shiftRight, Nat.mod_eq_of_lt (of_decide_eq_true h)]

theorem shiftRight_ne {epoch : UInt64} (h : detects epoch = false) (mark : UInt64) :
    mark >>> 1 ≠ epoch := by
  intro heq
  have hepoch : ¬ epoch.toNat < 2 ^ 63 := of_decide_eq_false h
  have hmark := mark.toNat_lt
  rw [← heq, toNat_shiftRight_one] at hepoch
  omega

/-- The marks of a call tell what its batch has named so far. -/
structure Marked (epoch : UInt64) (prepared : PreparedLlamaBatchMetadata config) (seen : Seen) :
    Prop where
  tags : prepared.validationSequenceTags = seen.tags
  block : ∀ (index : Fin config.physicalBlockCount) (write : Bool),
    prepared.physicalBlockMarks.get index >>> 1 = epoch ∧
        (write = true ∨ prepared.physicalBlockMarks.get index &&& 1 = 1) ↔
      detects epoch = true ∧
        ∃ earlier ∈ seen.blocks, earlier.1 = index ∧ (write = true ∨ earlier.2 = true)
  slot : ∀ index : Fin config.maxOutputSlots,
    prepared.outputSlotMarks.get index = epoch ↔ index.val ∈ seen.slots

/-- Setting the mark of a block that passed its test. -/
theorem Marked.setBlock {epoch : UInt64} {prepared : PreparedLlamaBatchMetadata config}
    {seen : Seen} (h : Marked epoch prepared seen) (index : Fin config.physicalBlockCount)
    (hindex : (index : Nat) < config.physicalBlockCount) (write : Bool)
    (hfree : ¬ (prepared.physicalBlockMarks.get index >>> 1 = epoch ∧
      (write = true ∨ prepared.physicalBlockMarks.get index &&& 1 = 1))) :
    Marked epoch
      { prepared with
        physicalBlockMarks :=
          prepared.physicalBlockMarks.set index (epoch <<< 1 ||| write.toUInt64) hindex }
      { seen with blocks := seen.blocks ++ [(index.val, write)] } := by
  refine ⟨h.tags, ?_, h.slot⟩
  intro other write'
  rw [h.block index write] at hfree
  cases hdetects : detects epoch with
  | false =>
      -- No mark is recognised, whatever it is.
      constructor
      · intro hmark
        exact absurd hmark.1 (shiftRight_ne hdetects _)
      · intro hseen
        exact absurd hseen.1 (by decide)
  | true =>
      by_cases hsame : index = other
      · subst hsame
        have hmark : (prepared.physicalBlockMarks.set index
            (epoch <<< 1 ||| write.toUInt64)).get index = epoch <<< 1 ||| write.toUInt64 := by
          simp [Vector.get_eq_getElem]
        rw [hmark, mark_and_one]
        constructor
        · rintro ⟨_, hwrite⟩
          exact ⟨rfl, _, List.mem_append_right _ List.mem_cons_self, rfl, hwrite⟩
        · rintro ⟨_, earlier, hmem, hid, hwrite⟩
          refine ⟨mark_shiftRight_eq hdetects write, ?_⟩
          rcases List.mem_append.mp hmem with hbefore | hnow
          · -- The block has been read before, and is not written now.
            rcases hwrite with hwrite | hwritten
            · exact .inl hwrite
            · exact absurd ⟨hdetects, earlier, hbefore, hid, .inr hwritten⟩ hfree
          · rw [List.mem_singleton.mp hnow] at hwrite
            exact hwrite
      · have hval : (index : Nat) ≠ other := fun heq => hsame (Fin.ext heq)
        have hmark : (prepared.physicalBlockMarks.set index
            (epoch <<< 1 ||| write.toUInt64)).get other = prepared.physicalBlockMarks.get other := by
          simp [Vector.get_eq_getElem, hval]
        have hblock := h.block other write'
        rw [hdetects] at hblock
        rw [hmark, hblock]
        simp [hval]

theorem Marked.setSlot {epoch : UInt64} {prepared : PreparedLlamaBatchMetadata config}
    {seen : Seen} (h : Marked epoch prepared seen) (index : Fin config.maxOutputSlots)
    (hindex : (index : Nat) < config.maxOutputSlots) :
    Marked epoch
      { prepared with outputSlotMarks := prepared.outputSlotMarks.set index epoch hindex }
      { seen with slots := seen.slots ++ [index.val] } := by
  refine ⟨h.tags, h.block, ?_⟩
  intro other
  by_cases hsame : index = other
  · subst hsame
    simp [Vector.get_eq_getElem]
  · have hval : (index : Nat) ≠ other := fun heq => hsame (Fin.ext heq)
    have hmark : (prepared.outputSlotMarks.set index epoch).get other =
        prepared.outputSlotMarks.get other := by
      simp [Vector.get_eq_getElem, hval]
    have hother : (other : Nat) ≠ index := fun heq => hval heq.symm
    rw [hmark, h.slot other]
    simp [hother]

/-- A gap in the marks is a slot that no row has asked for. -/
theorem Marked.gap_iff {epoch : UInt64} {prepared : PreparedLlamaBatchMetadata config}
    {seen : Seen} (h : Marked epoch prepared seen) {count : Nat}
    (hcount : count ≤ config.maxOutputSlots) :
    (∃ mark ∈ prepared.outputSlotMarks.toList.take count, mark ≠ epoch) ↔
      ∃ slot < count, slot ∉ seen.slots := by
  constructor
  · rintro ⟨mark, hmem, hne⟩
    obtain ⟨slot, hslot, rfl⟩ := List.mem_iff_getElem.mp hmem
    have hlt : slot < count := by
      rw [List.length_take] at hslot
      omega
    refine ⟨slot, hlt, fun hseen => hne ?_⟩
    rw [List.getElem_take, Vector.getElem_toList]
    exact (h.slot ⟨slot, by omega⟩).mpr hseen
  · rintro ⟨slot, hlt, hseen⟩
    refine ⟨prepared.outputSlotMarks[slot], ?_, fun heq => hseen ?_⟩
    · rw [List.mem_take_iff_getElem]
      exact ⟨slot, by rw [Vector.length_toList]; omega, by rw [Vector.getElem_toList]⟩
    · exact (h.slot ⟨slot, by omega⟩).mp heq

/-- The marks of a call and the comparisons answer alike. -/
theorem agrees_epochMarking (epoch : UInt64) :
    Marking.Agrees (Marked epoch) (fun _ => False) (epochMarking config epoch)
      (pairwiseMarking config (detects epoch) true) where
  tag sequenceTag := by
    apply agrees_guarded
    · intro prepared seen h hmem
      exact .inr (h.tags ▸ hmem)
    · intro prepared seen h hmem
      exact h.tags ▸ hmem
    · intro prepared seen h _
      exact ⟨congrArg (· ++ [sequenceTag]) h.tags, h.block, h.slot⟩
  block physicalIndex write := by
    apply agrees_guarded
    · intro prepared seen h hmark
      exact .inr ((h.block physicalIndex write).mp hmark)
    · intro prepared seen h hseen
      exact (h.block physicalIndex write).mpr hseen
    · intro prepared seen h hfree
      exact h.setBlock physicalIndex physicalIndex.isLt write hfree
  slot slotIndex := by
    apply agrees_guarded
    · intro prepared seen h hmark
      exact .inr ⟨rfl, (h.slot slotIndex).mp hmark⟩
    · intro prepared seen h hseen
      exact (h.slot slotIndex).mpr hseen.2
    · intro prepared seen h _
      exact h.setSlot slotIndex slotIndex.isLt
  dense outputCount hcount := by
    apply agrees_test
    · intro prepared seen h hgap
      exact .inr ⟨rfl, (h.gap_iff hcount).mp hgap⟩
    · intro prepared seen h hgap
      exact (h.gap_iff hcount).mpr hgap.2

end Marks

end Riley.Batch
