import Riley.Scheduling.PlanSpec

/-!
The plan validator is exact. What it accepts is said in terms of items and tables alone
(`Consistent`), with the aliasing rule as one condition on every two items; the two passes over
the set of written blocks decide just that.
-/

namespace Riley.Scheduling

open PagedKv Outcome

/-- The blocks of an item from the block of its first written position on. -/
def writes (tables : List OwnedBlockTable) (item : WorkItem) : List Nat :=
  (IterationPlan.tableIds tables item).drop (item.start / kvBlockSize)

/-- No block that one item writes occurs in the table of another. -/
def Apart (tables : List OwnedBlockTable) (items : List WorkItem) : Prop :=
  ∀ (i j : Nat) (first second : WorkItem), items[i]? = some first → items[j]? = some second →
    i ≠ j → ∀ id ∈ writes tables first, id ∉ IterationPlan.tableIds tables second

/-- What the items and the tables of a plan have to agree on. -/
structure Consistent (prefillItems decodeItems : List WorkItem)
    (tables : List OwnedBlockTable) : Prop where
  decode_slot : ∀ item ∈ decodeItems, item.outputSlot ≠ none
  /-- The requested output slots are `0, 1, ...` in some order. -/
  slots : ∃ count,
    ((prefillItems ++ decodeItems).filterMap WorkItem.outputSlot).Perm (List.range count)
  ids : ((prefillItems ++ decodeItems).map WorkItem.requestId).Nodup
  /-- Each table belongs to one item, and each item to one table. -/
  indices : ((prefillItems ++ decodeItems).map WorkItem.blockTableIndex).Perm
    (List.range tables.length)
  table_for : ∀ item ∈ prefillItems ++ decodeItems, TableFor tables item
  apart : Apart tables (prefillItems ++ decodeItems)

/-- An item that its constructor made. -/
def WorkItem.Accepted (item : WorkItem) : Prop :=
  WorkItem.new item.requestId item.kind item.inputTokens item.targetLogicalLength
    item.blockTableIndex item.outputSlot = .ok item

/-- A table that its constructor made of U32 values. -/
structure OwnedBlockTable.Accepted (table : OwnedBlockTable) : Prop where
  ids_le : ∀ id ∈ table.physicalBlockIds, id ≤ u32Max
  length_le : table.logicalLength ≤ u32Max
  built : ∃ host later, OwnedBlockTable.new table.requestId table.schemaVersion
    table.physicalBlockIds table.validTokens table.logicalLength host = .ok table later

section Constructors

theorem WorkItem.Accepted.tokens {item : WorkItem} (h : item.Accepted) :
    item.inputTokens ≠ [] ∧ item.inputTokens.length ≤ item.targetLogicalLength := by
  unfold WorkItem.Accepted WorkItem.new at h
  split at h
  · cases h
  next hempty =>
    split at h
    · cases h
    next hlength => exact ⟨hempty, Nat.le_of_not_lt hlength⟩

theorem checkEntries_nodup {required length : Nat} {index sum total : Nat} {seen : List Nat}
    {entries : List (Nat × Nat)} (hseen : seen.Nodup)
    (h : OwnedBlockTable.checkEntries required length index seen sum entries = .ok total) :
    (seen.reverse ++ entries.map Prod.fst).Nodup := by
  induction entries generalizing index seen sum with
  | nil => simpa using hseen
  | cons entry rest ih =>
      unfold OwnedBlockTable.checkEntries at h
      split at h
      · cases h
      next hfresh =>
        split at h
        · cases h
        · split at h
          · cases h
          · have hrest := ih (List.nodup_cons.mpr ⟨hfresh, hseen⟩) h
            simpa using hrest

theorem OwnedBlockTable.Accepted.shape {table : OwnedBlockTable} (h : table.Accepted) :
    table.physicalBlockIds.length = blocksForLength table.logicalLength ∧
      table.physicalBlockIds.Nodup := by
  obtain ⟨host, later, hrun⟩ := h.built
  have hshape : wp (OwnedBlockTable.new table.requestId table.schemaVersion
      table.physicalBlockIds table.validTokens table.logicalLength)
      (fun _ _ => table.physicalBlockIds.length = blocksForLength table.logicalLength ∧
        table.physicalBlockIds.Nodup) (fun _ _ => True) host := by
    unfold OwnedBlockTable.new
    refine wp_check (fun _ => trivial) fun _ => wp_check (fun _ => trivial) fun htokens =>
      wp_check (fun _ => trivial) fun hcount => ?_
    refine wp_call wp_hostReserve (fun _ _ _ => ?_) (fun _ _ _ => trivial)
    refine wp_seq ((wp_fromExcept _).mpr ⟨fun _ _ => trivial, fun sum hsum => ?_⟩)
    refine wp_check (fun _ => trivial) fun _ => ?_
    have hnodup := checkEntries_nodup List.nodup_nil hsum
    rw [List.reverse_nil, List.nil_append,
      List.map_fst_zip (Nat.le_of_eq (not_not.mp htokens))] at hnodup
    exact ⟨not_not.mp hcount, hnodup⟩
  exact (wp_elim hshape).1 _ _ hrun

end Constructors

section Scan

variable {tables : List OwnedBlockTable} {kind : WorkKind} {done items : List WorkItem}
  {item : WorkItem} {scan : IterationPlan.Scan}

/-- What one more item of the pass has passed. -/
structure Scanned (tables : List OwnedBlockTable) (kind : WorkKind) (done : List WorkItem)
    (item : WorkItem) : Prop where
  slot : kind = .decode → item.outputSlot ≠ none
  id : item.requestId ∉ done.map WorkItem.requestId
  table_for : TableFor tables item
  index : item.blockTableIndex ∉ done.map WorkItem.blockTableIndex
  output : ∀ slot, item.outputSlot = some slot → slot ∉ done.filterMap WorkItem.outputSlot

theorem referenced_getD {index : Nat} (h : index < tables.length) :
    (IterationPlan.scanOf tables done).referencedBlockTables.getD index false =
      decide (index ∈ done.map WorkItem.blockTableIndex) := by
  simp only [IterationPlan.scanOf, List.getD_eq_getElem?_getD, List.getElem?_map,
    List.getElem?_range h, Option.map_some, Option.getD_some]

theorem scanItem_inv
    (h : IterationPlan.scanItem tables kind (IterationPlan.scanOf tables done) item = .ok scan) :
    scan = IterationPlan.scanOf tables (done ++ [item]) ∧ Scanned tables kind done item := by
  unfold IterationPlan.scanItem at h
  split at h
  · cases h
  split at h
  · cases h
  next hslot =>
    split at h
    · cases h
    next hid =>
      split at h
      · cases h
      next table htable =>
        obtain ⟨hlt, _⟩ := List.getElem?_eq_some_iff.mp htable
        rw [referenced_getD hlt] at h
        split at h
        · cases h
        next hreferenced =>
          split at h
          · cases h
          next howner =>
            split at h
            · cases h
            next hlength =>
              split at h
              · cases h
              next total htotal =>
                have hnew : item.requestId ∉ done.map WorkItem.requestId := by
                  simpa [IterationPlan.scanOf] using hid
                have hindex : item.blockTableIndex ∉ done.map WorkItem.blockTableIndex :=
                  fun hmem => hreferenced (decide_eq_true hmem)
                have hfor : TableFor tables item :=
                  ⟨table, htable, not_not.mp howner, not_not.mp hlength⟩
                have hsum := (checkedAdd_eq_some.mp htotal).1
                have hids : item.requestId :: (IterationPlan.scanOf tables done).requestIds =
                    (IterationPlan.scanOf tables (done ++ [item])).requestIds := by
                  simp [IterationPlan.scanOf]
                have hcount : total =
                    (IterationPlan.scanOf tables (done ++ [item])).totalTokens := by
                  rw [← hsum]
                  simp [IterationPlan.scanOf, inputCount]
                simp only [hids, referenced_set, hcount] at h
                have hslot' : kind = .decode → item.outputSlot ≠ none :=
                  fun hkind hnone => hslot ⟨hkind, hnone⟩
                split at h
                next hnone =>
                  cases h
                  refine ⟨?_, hslot', hnew, hfor, hindex, fun slot hsome => ?_⟩
                  · simp [IterationPlan.scanOf, hnone]
                  · rw [hnone] at hsome
                    cases hsome
                next slot hsome =>
                  split at h
                  · cases h
                  next hfresh =>
                    cases h
                    refine ⟨?_, hslot', hnew, hfor, hindex, fun other hother => ?_⟩
                    · simp [IterationPlan.scanOf, hsome]
                    · rw [hsome] at hother
                      cases hother
                      exact hfresh

/-- What a pass over more items has passed. -/
structure AllScanned (tables : List OwnedBlockTable) (kind : WorkKind)
    (done items : List WorkItem) : Prop where
  slots : kind = .decode → ∀ item ∈ items, item.outputSlot ≠ none
  ids : ((done ++ items).map WorkItem.requestId).Nodup
  table_for : ∀ item ∈ items, TableFor tables item
  indices : ((done ++ items).map WorkItem.blockTableIndex).Nodup
  outputs : ((done ++ items).filterMap WorkItem.outputSlot).Nodup

theorem Scanned.ids (h : Scanned tables kind done item)
    (hdone : (done.map WorkItem.requestId).Nodup) :
    ((done ++ [item]).map WorkItem.requestId).Nodup := by
  rw [List.map_append, List.map_singleton, ← List.concat_eq_append]
  exact hdone.concat h.id

theorem Scanned.indices (h : Scanned tables kind done item)
    (hdone : (done.map WorkItem.blockTableIndex).Nodup) :
    ((done ++ [item]).map WorkItem.blockTableIndex).Nodup := by
  rw [List.map_append, List.map_singleton, ← List.concat_eq_append]
  exact hdone.concat h.index

theorem Scanned.outputs (h : Scanned tables kind done item)
    (hdone : (done.filterMap WorkItem.outputSlot).Nodup) :
    ((done ++ [item]).filterMap WorkItem.outputSlot).Nodup := by
  rw [List.filterMap_append]
  cases hslot : item.outputSlot with
  | none => simpa [hslot] using hdone
  | some slot =>
      have hlast : [item].filterMap WorkItem.outputSlot = [slot] := by simp [hslot]
      rw [hlast, ← List.concat_eq_append]
      exact hdone.concat (h.output slot hslot)

theorem scanItems_inv (hids : (done.map WorkItem.requestId).Nodup)
    (hindices : (done.map WorkItem.blockTableIndex).Nodup)
    (houtputs : (done.filterMap WorkItem.outputSlot).Nodup)
    (h : IterationPlan.scanItems tables kind (IterationPlan.scanOf tables done) items = .ok scan) :
    scan = IterationPlan.scanOf tables (done ++ items) ∧ AllScanned tables kind done items := by
  induction items generalizing done with
  | nil =>
      cases h
      rw [List.append_nil]
      exact ⟨rfl, fun _ _ hitem => absurd hitem List.not_mem_nil, by simpa using hids,
        fun _ hitem => absurd hitem List.not_mem_nil, by simpa using hindices,
        by simpa using houtputs⟩
  | cons item rest ih =>
      obtain ⟨middle, hfirst, hrest⟩ := except_bind_eq_ok.mp h
      obtain ⟨rfl, hscanned⟩ := scanItem_inv hfirst
      obtain ⟨hscan, hmore⟩ := ih (hscanned.ids hids) (hscanned.indices hindices)
        (hscanned.outputs houtputs) hrest
      have hassoc : done ++ [item] ++ rest = done ++ item :: rest := by simp
      rw [hassoc] at hscan
      refine ⟨hscan, ?_, hassoc ▸ hmore.ids, ?_, hassoc ▸ hmore.indices, hassoc ▸ hmore.outputs⟩
      · intro hkind other hother
        rcases List.mem_cons.mp hother with rfl | hother
        · exact hscanned.slot hkind
        · exact hmore.slots hkind other hother
      · intro other hother
        rcases List.mem_cons.mp hother with rfl | hother
        · exact hscanned.table_for
        · exact hmore.table_for other hother

end Scan

section Aliases

variable {tables : List OwnedBlockTable} {items : List WorkItem}

theorem writes_eq (tables : List OwnedBlockTable) (item : WorkItem) :
    writes tables item = writtenIds tables item := by
  unfold writes writtenIds IterationPlan.firstWritten WorkItem.start
  rcases Nat.le_total ((item.targetLogicalLength - item.inputTokens.length) / kvBlockSize)
      (IterationPlan.tableIds tables item).length with hle | hge
  · rw [Nat.min_eq_left hle]
  · rw [Nat.min_eq_right hge, List.drop_eq_nil_of_le hge, List.drop_length]

theorem mem_tableIds {item : WorkItem} {id : Nat} :
    id ∈ IterationPlan.tableIds tables item ↔
      id ∈ readIds tables item ∨ id ∈ writtenIds tables item := by
  unfold readIds writtenIds
  rw [← List.mem_append, List.take_append_drop]

theorem collectWritten_inv {written ids all : List Nat} (hwritten : written.Nodup)
    (h : IterationPlan.collectWritten written ids = .ok all) :
    (written.reverse ++ ids).Nodup ∧ all = ids.reverse ++ written := by
  induction ids generalizing written with
  | nil =>
      cases h
      simpa using hwritten
  | cons id rest ih =>
      unfold IterationPlan.collectWritten at h
      split at h
      · cases h
      next hfresh =>
        obtain ⟨hnodup, hall⟩ := ih (List.nodup_cons.mpr ⟨hfresh, hwritten⟩) h
        refine ⟨by simpa using hnodup, ?_⟩
        rw [hall]
        simp

theorem collectAllWritten_inv {written all : List Nat} (hwritten : written.Nodup)
    (h : IterationPlan.collectAllWritten tables written items = .ok all) :
    (items.flatMap (writtenIds tables)).Nodup ∧
      ∀ id, id ∈ all ↔ id ∈ written ∨ id ∈ items.flatMap (writtenIds tables) := by
  have hnodup : (written.reverse ++ items.flatMap (writtenIds tables)).Nodup := by
    induction items generalizing written with
    | nil => simpa using hwritten
    | cons item rest ih =>
        obtain ⟨middle, hfirst, hrest⟩ := except_bind_eq_ok.mp h
        obtain ⟨hone, rfl⟩ := collectWritten_inv hwritten hfirst
        have hmiddle := List.nodup_reverse.mpr hone
        rw [List.reverse_append, List.reverse_reverse] at hmiddle
        have hmore := ih hmiddle hrest
        rw [List.reverse_append, List.reverse_reverse, List.append_assoc] at hmore
        rw [List.flatMap_cons]
        exact hmore
  refine ⟨(List.nodup_append.mp hnodup).2.1, ?_⟩
  obtain ⟨all', hall', hmem⟩ := collectAllWritten_ok written items hnodup
  cases h.symm.trans hall'
  exact hmem

/-- The two conditions that the passes over the set of written blocks check say that no two
items conflict. -/
theorem apart_iff (htables : ∀ item ∈ items, (IterationPlan.tableIds tables item).Nodup) :
    Apart tables items ↔ (items.flatMap (writtenIds tables)).Nodup ∧
      ∀ item ∈ items, ∀ id ∈ readIds tables item, id ∉ items.flatMap (writtenIds tables) := by
  constructor
  · intro hapart
    constructor
    · rw [List.nodup_flatMap]
      refine ⟨fun item hitem => (htables item hitem).sublist (List.drop_sublist _ _), ?_⟩
      rw [List.pairwise_iff_getElem]
      intro i j hi hj hlt id hfirst hsecond
      have hfirst' : id ∈ writes tables items[i] := by rw [writes_eq]; exact hfirst
      exact hapart i j _ _ (List.getElem?_eq_getElem hi) (List.getElem?_eq_getElem hj)
        (Nat.ne_of_lt hlt) id hfirst' (mem_tableIds.mpr (.inr hsecond))
    · intro item hitem id hread hwritten
      obtain ⟨writer, hwriter, hid⟩ := List.mem_flatMap.mp hwritten
      obtain ⟨j, hj, rfl⟩ := List.mem_iff_getElem.mp hitem
      obtain ⟨i, hi, rfl⟩ := List.mem_iff_getElem.mp hwriter
      by_cases hsame : i = j
      · subst hsame
        have hnodup := htables _ hitem
        rw [← List.take_append_drop (IterationPlan.firstWritten tables items[i])
          (IterationPlan.tableIds tables items[i]), List.nodup_append] at hnodup
        exact hnodup.2.2 id hread id hid rfl
      · rw [← writes_eq] at hid
        exact hapart i j _ _ (List.getElem?_eq_getElem hi) (List.getElem?_eq_getElem hj) hsame
          id hid (mem_tableIds.mpr (.inl hread))
  · rintro ⟨hnodup, hclear⟩ i j first second hfirst hsecond hne id hid hin
    obtain ⟨hi, rfl⟩ := List.getElem?_eq_some_iff.mp hfirst
    obtain ⟨hj, rfl⟩ := List.getElem?_eq_some_iff.mp hsecond
    rw [writes_eq] at hid
    rcases mem_tableIds.mp hin with hread | hwritten
    · exact hclear _ (List.getElem_mem hj) id hread
        (List.mem_flatMap.mpr ⟨_, List.getElem_mem hi, hid⟩)
    · have hpairs := (List.nodup_flatMap.mp hnodup).2
      rw [List.pairwise_iff_getElem] at hpairs
      rcases Nat.lt_or_gt_of_ne hne with hlt | hgt
      · exact hpairs i j hi hj hlt hid hwritten
      · exact hpairs j i hj hi hgt hwritten hid

end Aliases

section Exact

variable {prefillItems decodeItems : List WorkItem} {tables : List OwnedBlockTable}

/-- The arguments of a plan: some items, each made by its constructor and listed with its
kind, and tables made by theirs. -/
structure PlanInput (prefillItems decodeItems : List WorkItem)
    (tables : List OwnedBlockTable) : Prop where
  nonempty : prefillItems ++ decodeItems ≠ []
  prefill_kind : ∀ item ∈ prefillItems, item.kind = .prefill
  decode_kind : ∀ item ∈ decodeItems, item.kind = .decode
  items : ∀ item ∈ prefillItems ++ decodeItems, item.Accepted
  tables : ∀ table ∈ tables, table.Accepted

/-- The requested output slots, in the order of the items. -/
def requestedSlots (prefillItems decodeItems : List WorkItem) : List OutputSlot :=
  (prefillItems ++ decodeItems).filterMap WorkItem.outputSlot

theorem tableIds_of_get {item : WorkItem} {table : OwnedBlockTable}
    (h : tables[item.blockTableIndex]? = some table) :
    IterationPlan.tableIds tables item = table.physicalBlockIds := by
  unfold IterationPlan.tableIds
  rw [h]

theorem Consistent.table_count (hagree : Consistent prefillItems decodeItems tables) :
    tables.length = (prefillItems ++ decodeItems).length := by
  have hlength := hagree.indices.length_eq
  rw [List.length_map, List.length_range] at hlength
  exact hlength.symm

namespace PlanInput

variable (h : PlanInput prefillItems decodeItems tables)
include h

theorem tableIds_nodup (hfor : ∀ item ∈ prefillItems ++ decodeItems, TableFor tables item) :
    ∀ item ∈ prefillItems ++ decodeItems, (IterationPlan.tableIds tables item).Nodup := by
  intro item hitem
  obtain ⟨table, hget, _⟩ := hfor item hitem
  rw [tableIds_of_get hget]
  exact (h.tables table (List.mem_of_getElem? hget)).shape.2

/-- An item writes at least the block of its last position. -/
theorem writes_ne_nil (hagree : Consistent prefillItems decodeItems tables) {item : WorkItem}
    (hitem : item ∈ prefillItems ++ decodeItems) : 1 ≤ (writtenIds tables item).length := by
  obtain ⟨table, hget, _, hlength⟩ := hagree.table_for item hitem
  obtain ⟨hempty, hle⟩ := (h.items item hitem).tokens
  have hpos := List.length_pos_iff.mpr hempty
  have hblocks := (h.tables table (List.mem_of_getElem? hget)).shape.1
  rw [hlength] at hblocks
  rw [← writes_eq, writes, List.length_drop, tableIds_of_get hget, hblocks]
  unfold WorkItem.start blocksForLength kvBlockSize
  omega

/-- Each item writes a block of its own, and there are no more blocks than U32 values. -/
theorem item_count_le (hagree : Consistent prefillItems decodeItems tables) :
    (prefillItems ++ decodeItems).length ≤ u32Max + 1 := by
  have hnodup := ((apart_iff (h.tableIds_nodup hagree.table_for)).mp hagree.apart).1
  have hsub : (prefillItems ++ decodeItems).flatMap (writtenIds tables) ⊆
      List.range (u32Max + 1) := by
    intro id hid
    obtain ⟨item, hitem, hid⟩ := List.mem_flatMap.mp hid
    obtain ⟨table, hget, _⟩ := hagree.table_for item hitem
    have hmem := mem_tableIds.mpr (.inr hid)
    rw [tableIds_of_get hget] at hmem
    have hle := (h.tables table (List.mem_of_getElem? hget)).ids_le id hmem
    exact List.mem_range.mpr (Nat.lt_succ_of_le hle)
  have hfew := (hnodup.subperm hsub).length_le
  rw [List.length_range, List.length_flatMap] at hfew
  have hmany : ((prefillItems ++ decodeItems).map fun item =>
      (writtenIds tables item).length).length ≤
      ((prefillItems ++ decodeItems).map fun item => (writtenIds tables item).length).sum := by
    apply List.length_le_sum_of_one_le
    intro count hcount
    obtain ⟨item, hitem, rfl⟩ := List.mem_map.mp hcount
    exact h.writes_ne_nil hagree hitem
  rw [List.length_map] at hmany
  exact hmany.trans hfew

theorem fits (hagree : Consistent prefillItems decodeItems tables)
    (hslots : (requestedSlots prefillItems decodeItems).length ≤ u32Max) :
    PlanFits prefillItems decodeItems tables := by
  have hcount := h.item_count_le hagree
  have htables := hagree.table_count
  obtain ⟨hnodup, hclear⟩ :=
    (apart_iff (h.tableIds_nodup hagree.table_for)).mp hagree.apart
  have hroom : (u32Max + 1) * u32Max ≤ usizeMax := by decide
  refine ⟨h.nonempty, h.prefill_kind, h.decode_kind, hagree.decode_slot, hagree.ids,
    hagree.table_for, hagree.indices, ?_, hslots, ?_, ?_, hagree.slots, hnodup, hclear⟩
  · rw [htables]
    exact hcount.trans (by decide)
  · have hle : ∀ count ∈ (prefillItems ++ decodeItems).map (fun item =>
        item.inputTokens.length), count ≤ u32Max := by
      intro count hmem
      obtain ⟨item, hitem, rfl⟩ := List.mem_map.mp hmem
      obtain ⟨table, hget, _, hlength⟩ := hagree.table_for item hitem
      have htarget := (h.tables table (List.mem_of_getElem? hget)).length_le
      rw [hlength] at htarget
      exact (h.items item hitem).tokens.2.trans htarget
    have hsum := List.sum_le_card_nsmul _ _ hle
    rw [List.length_map, smul_eq_mul] at hsum
    exact hsum.trans ((Nat.mul_le_mul_right _ hcount).trans hroom)
  · have hle : ∀ count ∈ tables.map (fun table => table.physicalBlockIds.length),
        count ≤ u32Max := by
      intro count hmem
      obtain ⟨table, htable, rfl⟩ := List.mem_map.mp hmem
      have hlength := (h.tables table htable).length_le
      rw [(h.tables table htable).shape.1]
      unfold blocksForLength kvBlockSize u32Max at *
      omega
    have hsum := List.sum_le_card_nsmul _ _ hle
    rw [List.length_map, smul_eq_mul, htables] at hsum
    exact hsum.trans ((Nat.mul_le_mul_right _ hcount).trans hroom)

end PlanInput

theorem indices_perm {indices : List Nat} {count : Nat} (hnodup : indices.Nodup)
    (hlt : ∀ index ∈ indices, index < count)
    (hall : ((List.range count).map fun index => decide (index ∈ indices)).any (!·) = false) :
    indices.Perm (List.range count) := by
  refine (List.perm_ext_iff_of_nodup hnodup List.nodup_range).mpr fun index => ?_
  constructor
  · exact fun hmem => List.mem_range.mpr (hlt index hmem)
  · intro hmem
    have hflag := List.any_eq_false.mp hall _ (List.mem_map_of_mem hmem)
    simpa using hflag

theorem slots_perm {slots : List OutputSlot} (hnodup : slots.Nodup)
    (hdense : ∀ slot ∈ slots, slot < slots.length) : slots.Perm (List.range slots.length) := by
  have hsub : slots ⊆ List.range slots.length :=
    fun slot hslot => List.mem_range.mpr (hdense slot hslot)
  exact (hnodup.subperm hsub).perm_of_length_le (by rw [List.length_range])

/-- What the validator has checked of a plan that it built. -/
structure Checked (prefillItems decodeItems : List WorkItem) (tables : List OwnedBlockTable)
    (plan : IterationPlan) : Prop where
  prefill_items : plan.prefillItems = prefillItems
  decode_items : plan.decodeItems = decodeItems
  total_tokens : plan.totalTokens = inputCount (prefillItems ++ decodeItems)
  table_for : ∀ item ∈ prefillItems ++ decodeItems, TableFor tables item
  scanned : AllScanned tables .decode prefillItems decodeItems
  referenced : (IterationPlan.scanOf tables (prefillItems ++ decodeItems)).referencedBlockTables.any
    (!·) = false
  written : ∃ all,
    IterationPlan.collectAllWritten tables [] (prefillItems ++ decodeItems) = .ok all ∧
    (prefillItems ++ decodeItems).any (IterationPlan.readsWritten tables all) = false
  few : (requestedSlots prefillItems decodeItems).length ≤ u32Max
  dense : ∀ slot ∈ requestedSlots prefillItems decodeItems,
    slot < (requestedSlots prefillItems decodeItems).length

theorem wp_aliases {items : List WorkItem} {host : List Bool} :
    wp (IterationPlan.validatePhysicalBlockAliases items tables)
      (fun _ _ => ∃ all, IterationPlan.collectAllWritten tables [] items = .ok all ∧
        items.any (IterationPlan.readsWritten tables all) = false)
      (fun _ _ => True) host := by
  unfold IterationPlan.validatePhysicalBlockAliases
  refine wp_seq ((wp_orReject _ _).mpr ⟨fun _ => trivial, fun count _ => ?_⟩)
  refine wp_call wp_hostReserve (fun _ _ _ => ?_) (fun _ _ _ => trivial)
  refine wp_seq ((wp_fromExcept _).mpr ⟨fun _ _ => trivial, fun all hall => ?_⟩)
  rw [wp_rejectIf]
  exact ⟨fun _ => trivial, fun hreads => ⟨all, hall, Bool.eq_false_of_not_eq_true hreads⟩⟩

/-- A plan that is built was checked, whatever made its items and tables. -/
theorem wp_planChecked {iterationId : IterationId} {host : List Bool} :
    wp (IterationPlan.new iterationId prefillItems decodeItems tables)
      (fun plan _ => Checked prefillItems decodeItems tables plan) (fun _ _ => True) host := by
  have hstart : IterationPlan.scanOf tables [] =
      ⟨[], List.replicate tables.length false, 0, []⟩ := by
    simp [IterationPlan.scanOf, inputCount]
  unfold IterationPlan.new IterationPlan.fromVersion
  refine wp_check (fun _ => trivial) fun _ => wp_check (fun _ => trivial) fun _ => ?_
  refine wp_seq ((wp_orReject _ _).mpr ⟨fun _ => trivial, fun itemCount hadd => ?_⟩)
  refine wp_check (fun _ => trivial) fun hcount => ?_
  refine wp_call wp_hostReserve (fun _ _ _ => ?_) (fun _ _ _ => trivial)
  refine wp_call wp_hostReserve (fun _ _ _ => ?_) (fun _ _ _ => trivial)
  refine wp_call wp_hostReserve (fun _ _ _ => ?_) (fun _ _ _ => trivial)
  refine wp_call wp_hostReserve (fun _ later _ => ?_) (fun _ _ _ => trivial)
  refine wp_seq ((wp_fromExcept _).mpr ⟨fun _ _ => trivial, fun middle hprefill => ?_⟩)
  rw [← hstart] at hprefill
  obtain ⟨rfl, hfirst⟩ := @scanItems_inv tables .prefill [] prefillItems _ List.nodup_nil
    List.nodup_nil List.nodup_nil hprefill
  refine wp_seq ((wp_fromExcept _).mpr ⟨fun _ _ => trivial, fun scan hdecode => ?_⟩)
  obtain ⟨rfl, hsecond⟩ := scanItems_inv hfirst.ids hfirst.indices hfirst.outputs hdecode
  rw [List.nil_append]
  rw [List.nil_append] at hsecond
  refine wp_check (fun _ => trivial) fun hall => ?_
  refine wp_call wp_aliases (fun _ _ hwritten => ?_) (fun _ _ _ => trivial)
  refine wp_check (fun _ => trivial) fun hfew => wp_check (fun _ => trivial) fun hdense => ?_
  rw [wp_pure]
  refine ⟨rfl, rfl, rfl, fun item hitem => ?_, hsecond, Bool.eq_false_of_not_eq_true hall,
    hwritten, Nat.le_of_not_lt hfew, fun slot hslot => ?_⟩
  · rcases List.mem_append.mp hitem with hitem | hitem
    · exact hfirst.table_for item hitem
    · exact hsecond.table_for item hitem
  · apply Nat.lt_of_not_le
    exact fun hle => hdense (List.any_eq_true.mpr ⟨slot, hslot, decide_eq_true hle⟩)

theorem Checked.consistent {plan : IterationPlan} (h : PlanInput prefillItems decodeItems tables)
    (hplan : Checked prefillItems decodeItems tables plan) :
    Consistent prefillItems decodeItems tables := by
  refine ⟨hplan.scanned.slots rfl, ⟨_, slots_perm hplan.scanned.outputs hplan.dense⟩,
    hplan.scanned.ids, ?_, hplan.table_for, ?_⟩
  · refine indices_perm hplan.scanned.indices (fun index hindex => ?_) hplan.referenced
    obtain ⟨item, hitem, rfl⟩ := List.mem_map.mp hindex
    obtain ⟨table, hget, _⟩ := hplan.table_for item hitem
    exact (List.getElem?_eq_some_iff.mp hget).1
  · obtain ⟨all, hall, hreads⟩ := hplan.written
    obtain ⟨hnodup, hmem⟩ := collectAllWritten_inv List.nodup_nil hall
    refine (apart_iff (h.tableIds_nodup hplan.table_for)).mpr ⟨hnodup, ?_⟩
    intro item hitem id hread hwritten
    refine Bool.eq_false_iff.mp hreads (List.any_eq_true.mpr ⟨item, hitem, ?_⟩)
    exact List.any_eq_true.mpr ⟨id, hread, decide_eq_true ((hmem id).mpr (.inr hwritten))⟩

/-- What the validator accepts agrees. -/
theorem wp_planSound (h : PlanInput prefillItems decodeItems tables) {iterationId : IterationId}
    {host : List Bool} :
    wp (IterationPlan.new iterationId prefillItems decodeItems tables)
      (fun _ _ => Consistent prefillItems decodeItems tables ∧
        (requestedSlots prefillItems decodeItems).length ≤ u32Max)
      (fun _ _ => True) host :=
  wp_ok_mono wp_planChecked fun _ _ hplan => ⟨hplan.consistent h, hplan.few⟩

/-- While the allocator grants what is asked for, a plan is accepted if and only if its items
and tables agree and it asks for at most `u32::MAX` outputs; otherwise only the allocator
refuses such a plan, and what does not agree is never accepted. -/
theorem planNew_accepts_iff (h : PlanInput prefillItems decodeItems tables)
    (iterationId : IterationId) :
    ((∃ plan later, IterationPlan.new iterationId prefillItems decodeItems tables [] =
        .ok plan later) ↔
      Consistent prefillItems decodeItems tables ∧
        (requestedSlots prefillItems decodeItems).length ≤ u32Max) ∧
    ∀ host, wp (IterationPlan.new iterationId prefillItems decodeItems tables)
      (fun _ _ => Consistent prefillItems decodeItems tables ∧
        (requestedSlots prefillItems decodeItems).length ≤ u32Max)
      (fun error _ => Consistent prefillItems decodeItems tables →
        (requestedSlots prefillItems decodeItems).length ≤ u32Max →
        ∃ resource, error = .hostAllocation resource) host := by
  constructor
  · constructor
    · rintro ⟨plan, later, hrun⟩
      exact (wp_elim (wp_planSound h)).1 plan later hrun
    · rintro ⟨hagree, hslots⟩
      have hruns := @PlanFits.wp_planNew _ _ _ iterationId [] (h.fits hagree hslots)
      have hgranted : wp (IterationPlan.new iterationId prefillItems decodeItems tables)
          (fun _ _ => True) (fun _ _ => False) [] :=
        wp_mono hruns (fun _ _ _ => trivial) fun _ _ hfail => hfail.2 rfl
      obtain ⟨plan, later, hrun, _⟩ := wp_ok_iff.mp hgranted
      exact ⟨plan, later, hrun⟩
  · intro host
    by_cases hboth : Consistent prefillItems decodeItems tables ∧
        (requestedSlots prefillItems decodeItems).length ≤ u32Max
    · have hruns := @PlanFits.wp_planNew _ _ _ iterationId host (h.fits hboth.1 hboth.2)
      exact wp_mono hruns (fun _ _ _ => hboth) fun _ _ hfail _ _ => hfail.1
    · exact wp_mono (wp_planSound h) (fun _ _ hok => hok)
        fun _ _ _ hagree hslots => absurd ⟨hagree, hslots⟩ hboth

/-- Decode work for `count` requests of one token, each with a block and an output of its own. -/
def wideItems (count : Nat) : List WorkItem :=
  (List.range count).map fun index =>
    ⟨⟨index + 1, index.succ_ne_zero⟩, .decode, [0], 1, index, some index⟩

def wideTables (count : Nat) : List OwnedBlockTable :=
  (List.range count).map fun index =>
    ⟨⟨index + 1, index.succ_ne_zero⟩, blockTableV1Version, [index], [1], 1⟩

theorem wide_slots (count : Nat) : requestedSlots [] (wideItems count) = List.range count := by
  unfold requestedSlots wideItems
  rw [List.nil_append, List.filterMap_map]
  exact List.filterMap_some

theorem wideTables_get {count index : Nat} (h : index < count) :
    (wideTables count)[index]? =
      some ⟨⟨index + 1, index.succ_ne_zero⟩, blockTableV1Version, [index], [1], 1⟩ := by
  unfold wideTables
  rw [List.getElem?_map, List.getElem?_range h]
  rfl

theorem wideTable_new (index : Nat) :
    OwnedBlockTable.new ⟨index + 1, index.succ_ne_zero⟩ blockTableV1Version [index] [1] 1 [] =
      .ok ⟨⟨index + 1, index.succ_ne_zero⟩, blockTableV1Version, [index], [1], 1⟩ [] := by
  have hcheck : OwnedBlockTable.checkEntries (blocksForLength 1) 1 0 [] 0
      ([index].zip [1]) = .ok 1 := by
    simp [OwnedBlockTable.checkEntries, OwnedBlockTable.expectedTokens, blocksForLength,
      kvBlockSize, checkedAdd, usizeMax, u64Max]
  have hrun : wp (OwnedBlockTable.new ⟨index + 1, index.succ_ne_zero⟩ blockTableV1Version
      [index] [1] 1) (fun table later => table =
        ⟨⟨index + 1, index.succ_ne_zero⟩, blockTableV1Version, [index], [1], 1⟩ ∧ later = [])
      (fun _ _ => False) [] := by
    unfold OwnedBlockTable.new
    refine wp_passes (by decide) (wp_passes (by simp) (wp_passes ?_ ?_))
    · simp [blocksForLength, kvBlockSize]
    · have hlast : wp (fromExcept (OwnedBlockTable.checkEntries (blocksForLength 1) 1 0 [] 0
          ([index].zip [1])) >>= fun tokenSum => rejectIf (tokenSum ≠ 1)
            (SchedulerError.invalidPlan "block_tables"
              "valid-token sum must equal logical length") >>= fun _ =>
            pure (OwnedBlockTable.mk ⟨index + 1, index.succ_ne_zero⟩ blockTableV1Version [index]
              [1] 1))
          (fun table later => table =
            ⟨⟨index + 1, index.succ_ne_zero⟩, blockTableV1Version, [index], [1], 1⟩ ∧ later = [])
          (fun _ _ => False) ([] : List Bool) :=
        wp_ofOk hcheck (wp_passes (by decide) ⟨rfl, rfl⟩)
      exact hlast
  obtain ⟨table, later, hrun, rfl, rfl⟩ := wp_ok_iff.mp hrun
  exact hrun

theorem wide_input {count : Nat} (hpos : 0 < count) (hle : count ≤ u32Max + 1) :
    PlanInput [] (wideItems count) (wideTables count) where
  nonempty := by
    unfold wideItems
    rw [List.nil_append, Ne, List.map_eq_nil_iff, List.range_eq_nil]
    omega
  prefill_kind := fun item hitem => absurd hitem List.not_mem_nil
  decode_kind := by
    intro item hitem
    obtain ⟨index, _, rfl⟩ := List.mem_map.mp hitem
    rfl
  items := by
    intro item hitem
    obtain ⟨index, _, rfl⟩ := List.mem_map.mp hitem
    rfl
  tables := by
    intro table htable
    obtain ⟨index, hindex, rfl⟩ := List.mem_map.mp htable
    have hlt := List.mem_range.mp hindex
    refine ⟨fun id hid => ?_, (by decide : 1 ≤ u32Max), [], [], wideTable_new index⟩
    rw [List.mem_singleton.mp hid]
    omega

theorem wide_consistent (count : Nat) :
    Consistent [] (wideItems count) (wideTables count) := by
  have htables : (wideTables count).length = count := by simp [wideTables]
  have hget : ∀ (i : Nat) (item : WorkItem), (wideItems count)[i]? = some item →
      item = ⟨⟨i + 1, i.succ_ne_zero⟩, .decode, [0], 1, i, some i⟩ ∧ i < count := by
    intro i item hitem
    unfold wideItems at hitem
    rw [List.getElem?_map] at hitem
    obtain ⟨index, hindex, rfl⟩ := Option.map_eq_some_iff.mp hitem
    obtain ⟨hlt, hsame⟩ := List.getElem?_eq_some_iff.mp hindex
    rw [List.getElem_range] at hsame
    rw [List.length_range] at hlt
    subst hsame
    exact ⟨rfl, hlt⟩
  refine ⟨?_, ⟨count, ?_⟩, ?_, ?_, ?_, ?_⟩
  · intro item hitem
    obtain ⟨index, _, rfl⟩ := List.mem_map.mp hitem
    exact Option.some_ne_none index
  · have hslots := wide_slots count
    unfold requestedSlots at hslots
    rw [hslots]
  · rw [List.nil_append, wideItems, List.map_map]
    exact List.nodup_range.map fun first second hsame =>
      Nat.succ.inj (congrArg RequestId.value hsame)
  · rw [List.nil_append, wideItems, List.map_map, htables]
    exact List.Perm.of_eq (List.map_id _)
  · intro item hitem
    obtain ⟨index, hindex, rfl⟩ := List.mem_map.mp hitem
    exact ⟨_, wideTables_get (List.mem_range.mp hindex), rfl, rfl⟩
  · intro i j first second hfirst hsecond hne id hid hin
    obtain ⟨rfl, hi⟩ := hget i first hfirst
    obtain ⟨rfl, hj⟩ := hget j second hsecond
    rw [tableIds_of_get (wideTables_get hj)] at hin
    unfold writes at hid
    rw [tableIds_of_get (wideTables_get hi)] at hid
    have hwriter := List.mem_singleton.mp (List.mem_of_mem_drop hid)
    exact hne (hwriter.symm.trans (List.mem_singleton.mp hin))

theorem planNew_accepts_two :
    ∃ plan later, IterationPlan.new ⟨1, one_ne_zero⟩ [] (wideItems 2) (wideTables 2) [] =
      .ok plan later :=
  (planNew_accepts_iff (wide_input (by decide) (by decide)) ⟨1, one_ne_zero⟩).1.mpr
    ⟨wide_consistent 2, by rw [wide_slots, List.length_range]; decide⟩

theorem wide_refused {count : Nat} (hmany : u32Max < count) (hle : count ≤ u32Max + 1)
    (iterationId : IterationId) :
    ¬ ∃ plan later, IterationPlan.new iterationId [] (wideItems count) (wideTables count) [] =
      .ok plan later := by
  rintro ⟨plan, later, hrun⟩
  have hinput := wide_input (Nat.zero_lt_of_lt hmany) hle
  have hfew := ((wp_elim (wp_planSound hinput)).1 plan later hrun).2
  rw [wide_slots, List.length_range] at hfew
  exact absurd hmany (Nat.not_lt.mpr hfew)

/-- A plan whose output slots are all the U32 values agrees, and is refused: their number is
no U32 value. -/
theorem planNew_refuses_wide :
    PlanInput [] (wideItems (2 ^ 32)) (wideTables (2 ^ 32)) ∧
      Consistent [] (wideItems (2 ^ 32)) (wideTables (2 ^ 32)) ∧
      ¬ ∃ plan later, IterationPlan.new ⟨1, one_ne_zero⟩ [] (wideItems (2 ^ 32))
        (wideTables (2 ^ 32)) [] = .ok plan later := by
  have hmany : u32Max < 2 ^ 32 := by unfold u32Max; omega
  have hle : 2 ^ 32 ≤ u32Max + 1 := by unfold u32Max; omega
  exact ⟨wide_input (Nat.zero_lt_of_lt hmany) hle, wide_consistent _, wide_refused hmany hle _⟩

end Exact

end Riley.Scheduling
