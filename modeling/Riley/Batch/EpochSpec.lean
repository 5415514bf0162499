import Mathlib
import Riley.Batch.PairwiseSpec

/-!
Validation over a history of calls. The marks of earlier calls, finished or failed, never
pass for marks of the present one; but from the number 2^63 on its own marks do not either.
-/

namespace Riley.Batch

open Outcome

variable {config : LlamaBatchMetadataConfig}

namespace PreparedLlamaBatchMetadata

section Invariant

/-- No mark is of a later call. -/
structure Aged (prepared : PreparedLlamaBatchMetadata config) : Prop where
  block : ∀ index : Fin config.physicalBlockCount,
    (prepared.physicalBlockMarks.get index >>> 1).toNat ≤ prepared.validationEpoch.toNat
  slot : ∀ index : Fin config.maxOutputSlots,
    (prepared.outputSlotMarks.get index).toNat ≤ prepared.validationEpoch.toNat

theorem aged_of_cleared {prepared : PreparedLlamaBatchMetadata config}
    (hblock : prepared.physicalBlockMarks = Vector.replicate _ 0)
    (hslot : prepared.outputSlotMarks = Vector.replicate _ 0) : prepared.Aged where
  block index := by
    rw [hblock]
    simp [Vector.get_eq_getElem]
  slot index := by
    rw [hslot]
    simp [Vector.get_eq_getElem]

theorem prepare_eq_ok {grants : String → Nat → Bool} {prepared : PreparedLlamaBatchMetadata config}
    (h : prepare grants config = .ok prepared) :
    prepared.Aged ∧ prepared.validationEpoch = 0 ∧ prepared.validationSequenceTags = [] ∧
      prepared.toPackedArrays = .empty := by
  have hlist : ∀ {capacity resource values},
      reserveVec grants capacity resource = .ok values → values = [] := by
    intro capacity resource values hvalues
    unfold reserveVec at hvalues
    split at hvalues
    · exact (Except.ok.inj hvalues).symm
    · cases hvalues
  have hmarks : ∀ {capacity resource values},
      zeroedVec grants capacity resource = .ok values → values = Vector.replicate _ 0 := by
    intro capacity resource values hvalues
    unfold zeroedVec at hvalues
    split at hvalues
    · exact (Except.ok.inj hvalues).symm
    · cases hvalues
  unfold prepare at h
  obtain ⟨_, _, h⟩ := except_bind_eq_ok.mp h
  obtain ⟨_, h1, h⟩ := except_bind_eq_ok.mp h
  obtain ⟨_, h2, h⟩ := except_bind_eq_ok.mp h
  obtain ⟨_, h3, h⟩ := except_bind_eq_ok.mp h
  obtain ⟨_, h4, h⟩ := except_bind_eq_ok.mp h
  obtain ⟨_, h5, h⟩ := except_bind_eq_ok.mp h
  obtain ⟨_, h6, h⟩ := except_bind_eq_ok.mp h
  obtain ⟨_, h7, h⟩ := except_bind_eq_ok.mp h
  obtain ⟨_, h8, h⟩ := except_bind_eq_ok.mp h
  obtain ⟨_, h9, h⟩ := except_bind_eq_ok.mp h
  obtain ⟨_, h10, h⟩ := except_bind_eq_ok.mp h
  obtain ⟨_, h11, h⟩ := except_bind_eq_ok.mp h
  obtain ⟨_, h12, h⟩ := except_bind_eq_ok.mp h
  obtain ⟨_, h13, h⟩ := except_bind_eq_ok.mp h
  obtain ⟨_, h14, h⟩ := except_bind_eq_ok.mp h
  obtain ⟨_, h15, h⟩ := except_bind_eq_ok.mp h
  obtain ⟨_, h16, h⟩ := except_bind_eq_ok.mp h
  obtain ⟨_, hslots, h⟩ := except_bind_eq_ok.mp h
  obtain ⟨_, hblocks, h⟩ := except_bind_eq_ok.mp h
  cases h
  refine ⟨aged_of_cleared (hmarks hblocks) (hmarks hslots), rfl, hlist h16, ?_⟩
  rw [hlist h1, hlist h2, hlist h3, hlist h4, hlist h5, hlist h6, hlist h7, hlist h8, hlist h9,
    hlist h10, hlist h11, hlist h12, hlist h13, hlist h14, hlist h15]
  rfl

/-- The number that the next call gets. -/
def nextEpoch (epoch : Nat) : Nat := if epoch + 1 ≤ u64Max then epoch + 1 else 1

theorem toNat_advance (prepared : PreparedLlamaBatchMetadata config) :
    prepared.advanceValidationEpoch.validationEpoch.toNat =
      nextEpoch prepared.validationEpoch.toNat := by
  unfold advanceValidationEpoch nextEpoch
  split
  · next h =>
      have hone : (1 : UInt64).toNat = 1 := by decide
      rw [UInt64.toNat_add, hone, Nat.mod_eq_of_lt]
      exact Nat.lt_succ_of_le h
  · rfl

/-- Behind the step to the next number every mark is of an earlier call. -/
theorem Aged.advance {prepared : PreparedLlamaBatchMetadata config} (h : prepared.Aged) :
    (∀ index : Fin config.physicalBlockCount,
      (prepared.advanceValidationEpoch.physicalBlockMarks.get index >>> 1).toNat <
        prepared.advanceValidationEpoch.validationEpoch.toNat) ∧
    ∀ index : Fin config.maxOutputSlots,
      (prepared.advanceValidationEpoch.outputSlotMarks.get index).toNat <
        prepared.advanceValidationEpoch.validationEpoch.toNat := by
  rw [toNat_advance, nextEpoch]
  unfold advanceValidationEpoch
  split
  · exact ⟨fun index => Nat.lt_succ_of_le (h.block index),
      fun index => Nat.lt_succ_of_le (h.slot index)⟩
  · simp

/-- The state in which the rows of a call are checked. -/
def opened (prepared : PreparedLlamaBatchMetadata config) : PreparedLlamaBatchMetadata config :=
  { prepared.advanceValidationEpoch with validationSequenceTags := [] }

theorem Aged.opened {prepared : PreparedLlamaBatchMetadata config} (h : prepared.Aged) :
    prepared.opened.Aged ∧
      Marked prepared.opened.validationEpoch prepared.opened ⟨[], [], []⟩ := by
  obtain ⟨hblock, hslot⟩ := h.advance
  refine ⟨⟨fun index => Nat.le_of_lt (hblock index), fun index => Nat.le_of_lt (hslot index)⟩,
    rfl, ?_, ?_⟩
  · intro index write
    constructor
    · rintro ⟨hmark, _⟩
      exact absurd (congrArg UInt64.toNat hmark) (Nat.ne_of_lt (hblock index))
    · rintro ⟨_, earlier, hmem, _⟩
      exact absurd hmem List.not_mem_nil
  · intro index
    constructor
    · intro hmark
      exact absurd (congrArg UInt64.toNat hmark) (Nat.ne_of_lt (hslot index))
    · intro hmem
      exact absurd hmem List.not_mem_nil

/-- What a call may do to the marks. -/
theorem agrees_aged (epoch : UInt64) (arrays : PackedArrays) :
    Marking.Agrees (fun s t : PreparedLlamaBatchMetadata config =>
        s = t ∧ s.validationEpoch = epoch ∧ s.toPackedArrays = arrays ∧ s.Aged) (fun _ => False)
      (epochMarking config epoch) (epochMarking config epoch) where
  tag sequenceTag := by
    apply agrees_guarded
    · rintro prepared _ ⟨rfl, _⟩ hmem
      exact .inr hmem
    · rintro prepared _ ⟨rfl, _⟩ hmem
      exact hmem
    · rintro prepared _ ⟨rfl, hepoch, harrays, haged⟩ _
      exact ⟨rfl, hepoch, harrays, haged.block, haged.slot⟩
  block physicalIndex write := by
    apply agrees_guarded
    · rintro prepared _ ⟨rfl, _⟩ hmark
      exact .inr hmark
    · rintro prepared _ ⟨rfl, _⟩ hmark
      exact hmark
    · rintro prepared _ ⟨rfl, hepoch, harrays, haged⟩ _
      refine ⟨rfl, hepoch, harrays, fun index => ?_, haged.slot⟩
      by_cases hsame : physicalIndex = index
      · subst hsame
        simp only [Vector.get_eq_getElem, Vector.getElem_set_self]
        rw [toNat_mark_shiftRight, hepoch]
        exact Nat.mod_le _ _
      · have hval : (physicalIndex : Nat) ≠ index := fun heq => hsame (Fin.ext heq)
        have hold := haged.block index
        simp only [Vector.get_eq_getElem, Vector.getElem_set_ne _ _ hval] at hold ⊢
        exact hold
  slot slotIndex := by
    apply agrees_guarded
    · rintro prepared _ ⟨rfl, _⟩ hmark
      exact .inr hmark
    · rintro prepared _ ⟨rfl, _⟩ hmark
      exact hmark
    · rintro prepared _ ⟨rfl, hepoch, harrays, haged⟩ _
      refine ⟨rfl, hepoch, harrays, haged.block, fun index => ?_⟩
      by_cases hsame : slotIndex = index
      · subst hsame
        simp only [Vector.get_eq_getElem, Vector.getElem_set_self]
        exact Nat.le_of_eq (congrArg UInt64.toNat hepoch.symm)
      · have hval : (slotIndex : Nat) ≠ index := fun heq => hsame (Fin.ext heq)
        have hold := haged.slot index
        simp only [Vector.get_eq_getElem, Vector.getElem_set_ne _ _ hval] at hold ⊢
        exact hold
  dense outputCount hcount := by
    apply agrees_test
    · rintro prepared _ ⟨rfl, _⟩ hgap
      exact .inr hgap
    · rintro prepared _ ⟨rfl, _⟩ hgap
      exact hgap

end Invariant

section Calls

/-- Whether the rows of a call come to be checked, under a number of its own. -/
def Numbered (config : LlamaBatchMetadataConfig) (rows : List LlamaBatchRow) : Prop :=
  rows ≠ [] ∧ rows.length ≤ config.maxRows

instance (config : LlamaBatchMetadataConfig) (rows : List LlamaBatchRow) :
    Decidable (Numbered config rows) :=
  inferInstanceAs (Decidable (_ ∧ _))

theorem validate_of_numbered {rows : List LlamaBatchRow} (h : Numbered config rows)
    (prepared : PreparedLlamaBatchMetadata config) :
    validate rows prepared =
      validateMarked (epochMarking config prepared.opened.validationEpoch) rows
        prepared.opened := by
  have hcapacity : ensureCapacity "rows" rows.length config.maxRows = .ok ⟨h.2⟩ :=
    dif_pos h.2
  unfold validate
  rw [hcapacity, rejectIf, if_neg h.1]
  rfl

/-- A call without a number fails at once, and leaves the object as it is. -/
theorem validate_of_not_numbered {rows : List LlamaBatchRow} (h : ¬ Numbered config rows)
    (prepared : PreparedLlamaBatchMetadata config) :
    ∃ error, validate rows prepared = .error error prepared ∧
      ∀ aliases routes, pairwiseWith config aliases routes rows = .error error := by
  unfold validate pairwiseWith
  by_cases hne : rows = []
  · rw [rejectIf, if_pos hne]
    exact ⟨_, rfl, fun _ _ => if_pos hne⟩
  · have hlength : ¬ rows.length ≤ config.maxRows := fun hle => h ⟨hne, hle⟩
    have hcapacity : ensureCapacity "rows" rows.length config.maxRows =
        .error (.capacityExceeded "rows" rows.length config.maxRows) := dif_neg hlength
    rw [hcapacity, rejectIf, if_neg hne]
    refine ⟨_, rfl, fun _ _ => ?_⟩
    rw [if_neg hne]
    rfl

/-- The number of the next call decides how far its verdict is the one of comparison. -/
theorem Aged.validate_answer {prepared : PreparedLlamaBatchMetadata config} (h : prepared.Aged)
    (rows : List LlamaBatchRow) :
    answer (validate rows) prepared =
      pairwiseWith config (detects prepared.opened.validationEpoch) true rows := by
  by_cases hnumbered : Numbered config rows
  · have hcapacity : ensureCapacity "rows" rows.length config.maxRows = .ok ⟨hnumbered.2⟩ :=
      dif_pos hnumbered.2
    have hagrees := agrees_validateMarked
      (@agrees_epochMarking config prepared.opened.validationEpoch) rows
    have hsame := (hagrees.answer_eq h.opened.2).resolve_right fun ⟨_, _, hfalse⟩ => hfalse
    rw [answer, validate_of_numbered hnumbered, pairwiseWith, if_neg hnumbered.1, hcapacity]
    exact hsame
  · obtain ⟨error, hrun, hpairwise⟩ := validate_of_not_numbered hnumbered prepared
    rw [answer, hrun, hpairwise]

/-- A call leaves the packed arrays as they are, and at most one tag for each row. -/
theorem aged_validate {prepared : PreparedLlamaBatchMetadata config} (h : prepared.Aged)
    (rows : List LlamaBatchRow) :
    (after (validate rows) prepared).Aged ∧
      (after (validate rows) prepared).validationEpoch =
        (if Numbered config rows then prepared.opened.validationEpoch
        else prepared.validationEpoch) ∧
      (after (validate rows) prepared).toPackedArrays =
        prepared.toPackedArrays := by
  by_cases hnumbered : Numbered config rows
  · have hopened : prepared.opened.toPackedArrays = prepared.toPackedArrays := by
      unfold PreparedLlamaBatchMetadata.opened advanceValidationEpoch
      split <;> rfl
    have hkeeps := (agrees_validateMarked
      (agrees_aged prepared.opened.validationEpoch prepared.toPackedArrays) rows).keeps
        ⟨rfl, hopened, h.opened.1⟩
    rw [after, validate_of_numbered hnumbered, if_pos hnumbered]
    exact ⟨hkeeps.2.2, hkeeps.1, hkeeps.2.1⟩
  · obtain ⟨error, hrun, _⟩ := validate_of_not_numbered hnumbered prepared
    rw [after, hrun, if_neg hnumbered]
    exact ⟨h, rfl, rfl⟩

/-- The tags that a call leaves are of its own rows. -/
theorem Aged.validate_tags {prepared : PreparedLlamaBatchMetadata config} (h : prepared.Aged)
    (htags : prepared.validationSequenceTags.length ≤ config.maxRows)
    (rows : List LlamaBatchRow) :
    (after (validate rows) prepared).validationSequenceTags.length ≤
      config.maxRows := by
  by_cases hnumbered : Numbered config rows
  · have hrun := agrees_validateMarked
      (@agrees_epochMarking config prepared.opened.validationEpoch) rows _ _ h.opened.2
    have hspec := wp_elim (@wp_validateMarked config
      (detects prepared.opened.validationEpoch) true rows)
    rw [after, validate_of_numbered hnumbered]
    cases hvalidate : validateMarked (epochMarking config prepared.opened.validationEpoch) rows
      prepared.opened with
    | ok totals t =>
        rw [hvalidate] at hrun
        obtain ⟨seen, hseen, hmarked⟩ := hrun
        have hcount := (hspec.1 totals seen hseen).1.tags
        rw [List.length_nil, Nat.zero_add] at hcount
        rw [hmarked.tags, hcount]
        exact hnumbered.2
    | error error t =>
        rw [hvalidate] at hrun
        obtain ⟨seen, hseen, hmarked⟩ := hrun.resolve_left id
        rw [hmarked.tags]
        exact Nat.le_trans (hspec.2 error seen hseen).2 hnumbered.2
  · obtain ⟨error, hrun, _⟩ := validate_of_not_numbered hnumbered prepared
    rw [after, hrun]
    exact htags

/-- Packing writes the arrays alone. -/
theorem after_packOrdered (prepared : PreparedLlamaBatchMetadata config)
    (rows : List LlamaBatchRow) (decodeFirst : Bool) :
    ∃ arrays, after (packOrdered rows decodeFirst) prepared =
      { after (validate rows) prepared with
        toPackedArrays := arrays } := by
  have hwp : wp (packOrdered rows decodeFirst)
      (fun _ t => ∃ arrays, t =
        { after (validate rows) prepared with
          toPackedArrays := arrays })
      (fun _ t => ∃ arrays, t =
        { after (validate rows) prepared with
          toPackedArrays := arrays }) prepared := by
    unfold packOrdered
    rw [wp_bind, after, wp]
    cases hvalidate : PreparedLlamaBatchMetadata.validate rows prepared with
    | error e t => exact ⟨t.toPackedArrays, rfl⟩
    | ok validated t =>
        simp only [wp_bind, wp_modify, onPacked, wp_zoom, wp_get, wp_pure]
        exact wp_any (fun _ arrays => ⟨arrays, rfl⟩) (fun _ arrays => ⟨arrays, rfl⟩)
  exact after_of_wp hwp

/-- A call is its rows, and whether decode rows come first. -/
abbrev Call := List LlamaBatchRow × Bool

/-- The object after a history of calls, finished or failed. -/
def afterCalls (prepared : PreparedLlamaBatchMetadata config) (calls : List Call) :
    PreparedLlamaBatchMetadata config :=
  calls.foldl (fun prepared call => after (packOrdered call.1 call.2) prepared) prepared

def isNumbered (config : LlamaBatchMetadataConfig) (call : Call) : Bool :=
  decide (Numbered config call.1)

/-- The number of a call before which so many had a number. -/
def callNumber (earlier : Nat) : Nat := earlier % u64Max + 1

theorem nextEpoch_callNumber (earlier : Nat) :
    nextEpoch (callNumber earlier) = callNumber (earlier + 1) := by
  unfold nextEpoch callNumber u64Max
  split
  · omega
  · omega

theorem aged_packOrdered {prepared : PreparedLlamaBatchMetadata config} (h : prepared.Aged)
    (call : Call) :
    (after (packOrdered call.1 call.2) prepared).Aged ∧
      (after (packOrdered call.1 call.2) prepared).validationEpoch.toNat =
        if isNumbered config call then nextEpoch prepared.validationEpoch.toNat
        else prepared.validationEpoch.toNat := by
  obtain ⟨arrays, harrays⟩ := after_packOrdered prepared call.1 call.2
  obtain ⟨haged, hepoch, _⟩ := aged_validate h call.1
  rw [harrays]
  refine ⟨⟨haged.block, haged.slot⟩, ?_⟩
  show (after (validate call.1) prepared).validationEpoch.toNat = _
  rw [hepoch]
  by_cases hnumbered : Numbered config call.1
  · have hcall : isNumbered config call = true := decide_eq_true hnumbered
    rw [if_pos hnumbered, if_pos hcall, ← toNat_advance]
    rfl
  · have hcall : ¬ isNumbered config call = true := by simpa [isNumbered] using hnumbered
    rw [if_neg hnumbered, if_neg hcall]

/-- Whatever the history is, the next call gets its number. -/
theorem aged_afterCalls {prepared : PreparedLlamaBatchMetadata config} (h : prepared.Aged)
    {earlier : Nat} (hnext : nextEpoch prepared.validationEpoch.toNat = callNumber earlier)
    (calls : List Call) :
    (prepared.afterCalls calls).Aged ∧
      nextEpoch (prepared.afterCalls calls).validationEpoch.toNat =
        callNumber (earlier + calls.countP (isNumbered config)) := by
  induction calls generalizing prepared earlier with
  | nil => exact ⟨h, hnext⟩
  | cons call rest ih =>
      obtain ⟨haged, hepoch⟩ := aged_packOrdered h call
      by_cases hnumbered : isNumbered config call = true
      · rw [if_pos hnumbered, hnext] at hepoch
        have hrest := ih haged (by rw [hepoch]; exact nextEpoch_callNumber earlier)
        rw [List.countP_cons_of_pos hnumbered, Nat.add_comm _ 1, ← Nat.add_assoc]
        exact hrest
      · rw [if_neg hnumbered] at hepoch
        have hrest := ih haged (by rw [hepoch]; exact hnext)
        rw [List.countP_cons_of_neg hnumbered]
        exact hrest

theorem aged_history {grants : String → Nat → Bool}
    {prepared : PreparedLlamaBatchMetadata config}
    (hprepare : prepare grants config = .ok prepared) (calls : List Call) :
    (prepared.afterCalls calls).Aged ∧
      nextEpoch (prepared.afterCalls calls).validationEpoch.toNat =
        callNumber (calls.countP (isNumbered config)) := by
  obtain ⟨haged, hepoch, _⟩ := prepare_eq_ok hprepare
  have hfirst : nextEpoch prepared.validationEpoch.toNat = callNumber 0 := by
    rw [hepoch]
    rfl
  rw [← Nat.zero_add (calls.countP _)]
  exact aged_afterCalls haged hfirst calls

/-- The verdict of the next call, after any history. -/
theorem answer_afterCalls {grants : String → Nat → Bool}
    {prepared : PreparedLlamaBatchMetadata config}
    (hprepare : prepare grants config = .ok prepared) (calls : List Call)
    (rows : List LlamaBatchRow) :
    answer (validate rows) (prepared.afterCalls calls) =
      pairwiseWith config (decide (callNumber (calls.countP (isNumbered config)) < 2 ^ 63)) true
        rows := by
  obtain ⟨hlater, hnumber⟩ := aged_history hprepare calls
  have hopened : (prepared.afterCalls calls).opened.validationEpoch.toNat =
      callNumber (calls.countP (isNumbered config)) := by
    rw [← hnumber, ← toNat_advance]
    rfl
  rw [hlater.validate_answer, detects, hopened]

/-- A verdict that looks for aliases is given up only where it finds one. -/
theorem pairwiseWith_eq_iff (aliases : Bool) (rows : List LlamaBatchRow) :
    pairwiseWith config aliases true rows = pairwise config rows ↔
      aliases = true ∨ pairwise config rows ≠ .error blockAliasError := by
  cases aliases with
  | true => exact iff_of_true rfl (.inl rfl)
  | false =>
      have hnarrows := @pairwiseWith_narrows config true true false true (· = blockAliasError)
        (.inr ⟨rfl, rfl⟩) (.inl rfl) rows
      constructor
      · intro hsame
        refine .inr fun halias => ?_
        rw [halias] at hsame
        exact absurd ((pairwiseWith_error hsame).1 rfl).1 (by decide)
      · rintro (hfalse | hne)
        · cases hfalse
        · rcases hnarrows with heq | ⟨error, herror, rfl⟩
          · exact heq.symm
          · exact absurd herror hne

/-- After any history, validation gives the verdict of comparison unless the number of the
call has outgrown its mark and a written block stands twice; and the verdict of comparison
tells whether one does, and whether the slots are the first numbers. -/
theorem validate_eq_pairwise_iff {grants : String → Nat → Bool}
    {prepared : PreparedLlamaBatchMetadata config}
    (hprepare : prepare grants config = .ok prepared) (calls : List Call)
    (rows : List LlamaBatchRow) :
    (answer (validate rows) (prepared.afterCalls calls) =
        pairwise config rows ↔
      callNumber (calls.countP (isNumbered config)) < 2 ^ 63 ∨
        pairwise config rows ≠ .error blockAliasError) ∧
    (∀ totals, pairwise config rows = .ok totals →
      ¬ Aliased rows ∧ Dense (requestedSlots rows)) ∧
    (pairwise config rows = .error blockAliasError → Aliased rows) ∧
    (pairwise config rows = .error slotTakenError ∨ pairwise config rows = .error slotGapError →
      ¬ Dense (requestedSlots rows)) ∧
    (∀ totals, pairwiseWith config false false rows = .ok totals →
      (¬ Aliased rows → Dense (requestedSlots rows) → pairwise config rows = .ok totals) ∧
      (Dense (requestedSlots rows) →
        (pairwise config rows = .error blockAliasError ↔ Aliased rows)) ∧
      (¬ Aliased rows →
        (pairwise config rows = .error slotTakenError ∨
            pairwise config rows = .error slotGapError ↔
          ¬ Dense (requestedSlots rows)))) := by
  refine ⟨?_, pairwise_spec rows⟩
  rw [answer_afterCalls hprepare, pairwiseWith_eq_iff, decide_eq_true_iff]

end Calls

section Aliases

def twoRows : LlamaBatchMetadataConfig where
  maxRows := 2
  maxInputTokens := 2
  maxBlockEntries := 2
  maxOutputSlots := 2
  physicalBlockCount := 2
  maxRows_pos := by decide
  maxInputTokens_le := by decide
  physicalBlockCount_le := by decide
  maxRows_le_inputTokens := by decide
  maxRows_le_blockEntries := by decide
  maxOutputSlots_le := by decide
  maxBlockEntries_le := by decide

/-- A first token, written to the block of that number. -/
def firstToken (sequenceTag block slot : Nat) : LlamaBatchRow where
  sequenceTag := sequenceTag
  kind := .decode
  inputTokenIds := [5]
  targetLogicalLength := 1
  blockTable := ⟨1, [block], [1], 1⟩
  outputSlot := some slot

def freshTwoRows : PreparedLlamaBatchMetadata twoRows where
  toPackedArrays := .empty
  validationSequenceTags := []
  outputSlotMarks := Vector.replicate _ 0
  physicalBlockMarks := Vector.replicate _ 0
  validationEpoch := 0

def mixedConfig : LlamaBatchMetadataConfig where
  maxRows := 2
  maxInputTokens := 8
  maxBlockEntries := 8
  maxOutputSlots := 2
  physicalBlockCount := 16
  maxRows_pos := by decide
  maxInputTokens_le := by decide
  physicalBlockCount_le := by decide
  maxRows_le_inputTokens := by decide
  maxRows_le_blockEntries := by decide
  maxOutputSlots_le := by decide
  maxBlockEntries_le := by decide

def freshMixed : PreparedLlamaBatchMetadata mixedConfig where
  toPackedArrays := .empty
  validationSequenceTags := []
  outputSlotMarks := Vector.replicate _ 0
  physicalBlockMarks := Vector.replicate _ 0
  validationEpoch := 0

/-- A prompt of three tokens, in one block. -/
def prefillRow : LlamaBatchRow where
  sequenceTag := 41
  kind := .prefill
  inputTokenIds := [10, 11, 12]
  targetLogicalLength := 3
  blockTable := ⟨1, [2], [3], 3⟩
  outputSlot := some 1

/-- A token behind a full block. -/
def decodeRow : LlamaBatchRow where
  sequenceTag := 42
  kind := .decode
  inputTokenIds := [20]
  targetLogicalLength := 17
  blockTable := ⟨1, [4, 5], [16, 1], 17⟩
  outputSlot := some 0

/-- A batch that is refused, one that is packed, and one that gets no number. -/
def earlierCalls : List Call :=
  [([firstToken 1 4 0, firstToken 2 4 1], false), ([decodeRow, prefillRow], true), ([], false)]

/-- After earlier calls, a mixed batch passes and one with two writers of a block fails. -/
theorem validate_eq_pairwise_iff_mixed :
    prepare (fun _ _ => true) mixedConfig = .ok freshMixed ∧
      answer (validate [prefillRow, decodeRow]) (freshMixed.afterCalls earlierCalls) =
        .ok (batchCounts [prefillRow, decodeRow]) ∧
      answer (validate [prefillRow, firstToken 7 2 0]) (freshMixed.afterCalls earlierCalls) =
        .error blockAliasError ∧
      Aliased [prefillRow, firstToken 7 2 0] := by
  have hprepare : prepare (fun _ _ => true) mixedConfig = .ok freshMixed := by rfl
  have hmarked : callNumber (earlierCalls.countP (isNumbered mixedConfig)) < 2 ^ 63 := by decide
  have haliased : pairwise mixedConfig [prefillRow, firstToken 7 2 0] = .error blockAliasError := by
    rfl
  obtain ⟨hpass, _⟩ :=
    validate_eq_pairwise_iff hprepare earlierCalls [prefillRow, decodeRow]
  obtain ⟨hfail, _, hstands, _⟩ :=
    validate_eq_pairwise_iff hprepare earlierCalls [prefillRow, firstToken 7 2 0]
  refine ⟨hprepare, (hpass.mpr (.inl hmarked)).trans rfl, ?_, hstands haliased⟩
  exact (hfail.mpr (.inl hmarked)).trans haliased

theorem pairwise_twoTokens :
    pairwise twoRows [firstToken 1 0 0, firstToken 2 0 1] = .error blockAliasError := by
  rfl

theorem aliased_twoTokens : Aliased [firstToken 1 0 0, firstToken 2 0 1] :=
  ((pairwiseWith_error pairwise_twoTokens).1 rfl).2

/-- The call with the number 2^63 lets two sequences write one block. -/
theorem validate_late {count : Nat} (h : callNumber count = 2 ^ 63) :
    answer (validate [firstToken 1 0 0, firstToken 2 0 1])
        (freshTwoRows.afterCalls (List.replicate count ([firstToken 1 0 0], false))) =
      .ok (batchCounts [firstToken 1 0 0, firstToken 2 0 1]) := by
  have hprepare : prepare (fun _ _ => true) twoRows = .ok freshTwoRows := by rfl
  have hnumbered : isNumbered twoRows ([firstToken 1 0 0], false) = true := by decide
  rw [answer_afterCalls hprepare, List.countP_replicate, if_pos hnumbered, h]
  rfl

theorem callNumber_late : callNumber (2 ^ 63 - 1) = 2 ^ 63 := by
  rw [callNumber, Nat.mod_eq_of_lt (by rw [u64Max]; omega), Nat.sub_add_cancel (by omega)]

/-- After 2^63 - 1 calls of one row. -/
theorem alias_undetected :
    prepare (fun _ _ => true) twoRows = .ok freshTwoRows ∧
      Aliased [firstToken 1 0 0, firstToken 2 0 1] ∧
      pairwise twoRows [firstToken 1 0 0, firstToken 2 0 1] = .error blockAliasError ∧
      answer (validate [firstToken 1 0 0, firstToken 2 0 1])
          (freshTwoRows.afterCalls (List.replicate (2 ^ 63 - 1) ([firstToken 1 0 0], false))) =
        .ok (batchCounts [firstToken 1 0 0, firstToken 2 0 1]) :=
  ⟨rfl, aliased_twoTokens, pairwise_twoTokens, validate_late callNumber_late⟩

end Aliases

end PreparedLlamaBatchMetadata

end Riley.Batch
