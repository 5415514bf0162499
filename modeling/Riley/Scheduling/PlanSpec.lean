import Riley.PagedKv.SequenceSpec
import Riley.Scheduling.Plan

/-!
When the validators of plans and tables accept. `PlanShape` says what a plan
has to look like; the validator then only fails for want of host memory.
-/

namespace Riley.Scheduling

open PagedKv Outcome

section Host

/-- A failure of the host allocator, which had an answer left to give. -/
def HostOnly (host : List Bool) (error : SchedulerError) (_ : List Bool) : Prop :=
  (∃ resource, error = .hostAllocation resource) ∧ host ≠ []

variable {host host' : List Bool} {α : Type} {ok : α → List Bool → Prop}

theorem wp_reserveHost {resource : String} {next : Unit → HostM α}
    (hquiet : host = [] → host' = [])
    (hnext : ∀ later, (host = [] → later = []) → wp (next ()) ok (HostOnly host) later) :
    wp (tryReserveExact resource >>= next) ok (HostOnly host) host' := by
  refine wp_call wp_hostReserve (fun _ later h => hnext later fun hnil => h (hquiet hnil)) ?_
  rintro error later ⟨rfl, hne⟩
  exact ⟨⟨resource, rfl⟩, fun hnil => hne (hquiet hnil)⟩

end Host

section Tables

end Tables

section Scan

/-- The table of an item. -/
def TableFor (tables : List OwnedBlockTable) (item : WorkItem) : Prop :=
  ∃ table, tables[item.blockTableIndex]? = some table ∧
    table.requestId = item.requestId ∧ table.logicalLength = item.targetLogicalLength

/-- The first table position an item writes. -/
def WorkItem.start (item : WorkItem) : Nat :=
  item.targetLogicalLength - item.inputTokens.length

def inputCount (items : List WorkItem) : Nat :=
  (items.map fun item => item.inputTokens.length).sum

/-- What the pass over the items knows after `items`. -/
def IterationPlan.scanOf (tables : List OwnedBlockTable) (items : List WorkItem) :
    IterationPlan.Scan where
  requestIds := (items.map WorkItem.requestId).reverse
  referencedBlockTables := (List.range tables.length).map fun index =>
    decide (index ∈ items.map WorkItem.blockTableIndex)
  totalTokens := inputCount items
  outputSlots := items.filterMap WorkItem.outputSlot

variable {tables : List OwnedBlockTable} {kind : WorkKind} {items : List WorkItem}
  {item : WorkItem}

theorem referenced_set :
    (IterationPlan.scanOf tables items).referencedBlockTables.set item.blockTableIndex true =
      (IterationPlan.scanOf tables (items ++ [item])).referencedBlockTables := by
  refine List.ext_getElem (by simp [IterationPlan.scanOf]) fun index hindex hindex' => ?_
  simp only [IterationPlan.scanOf, List.getElem_set, List.getElem_map, List.getElem_range,
    List.map_append, List.map_cons, List.map_nil, List.mem_append, List.mem_singleton]
  by_cases hsame : item.blockTableIndex = index
  · simp [hsame]
  · simp [hsame, Ne.symm hsame]

theorem scanItem_ok (hkind : item.kind = kind)
    (hslot : kind = .decode → item.outputSlot ≠ none)
    (hid : item.requestId ∉ items.map WorkItem.requestId)
    (htable : TableFor tables item)
    (hindex : item.blockTableIndex ∉ items.map WorkItem.blockTableIndex)
    (htokens : inputCount (items ++ [item]) ≤ usizeMax)
    (hslots : ((items ++ [item]).filterMap WorkItem.outputSlot).Nodup) :
    IterationPlan.scanItem tables kind (IterationPlan.scanOf tables items) item =
      .ok (IterationPlan.scanOf tables (items ++ [item])) := by
  obtain ⟨table, hget, htableId, hlength⟩ := htable
  obtain ⟨hlt, _⟩ := List.getElem?_eq_some_iff.mp hget
  have hreferenced : (IterationPlan.scanOf tables items).referencedBlockTables.getD
      item.blockTableIndex false = false := by
    simp only [IterationPlan.scanOf, List.getD_eq_getElem?_getD, List.getElem?_map,
      List.getElem?_range hlt, Option.map_some, Option.getD_some]
    simpa using hindex
  have hcount : checkedAdd usizeMax (IterationPlan.scanOf tables items).totalTokens
      item.inputTokens.length =
      some (IterationPlan.scanOf tables (items ++ [item])).totalTokens := by
    refine checkedAdd_eq_some.mpr ⟨?_, ?_⟩
    · simp [IterationPlan.scanOf, inputCount]
    · simpa [IterationPlan.scanOf, inputCount] using htokens
  have hids : item.requestId :: (IterationPlan.scanOf tables items).requestIds =
      (IterationPlan.scanOf tables (items ++ [item])).requestIds := by
    simp [IterationPlan.scanOf]
  have hseen : item.requestId ∉ (IterationPlan.scanOf tables items).requestIds := by
    simpa [IterationPlan.scanOf] using hid
  unfold IterationPlan.scanItem
  rw [if_neg (by simp [hkind]), if_neg (fun h => hslot h.1 h.2), if_neg hseen, hget]
  simp only
  rw [hreferenced, if_neg Bool.false_ne_true, if_neg (by simp [htableId]),
    if_neg (by simp [hlength]), hcount, hids, referenced_set]
  cases hout : item.outputSlot with
  | none => simp [IterationPlan.scanOf, hout]
  | some slot =>
      rw [List.filterMap_append, List.nodup_append] at hslots
      have hnew : slot ∉ (IterationPlan.scanOf tables items).outputSlots := by
        intro hold
        exact hslots.2.2 slot hold slot (by simp [hout]) rfl
      simp only
      rw [if_neg hnew]
      simp [IterationPlan.scanOf, hout]

/-- What the pass over more items needs. -/
structure Scannable (tables : List OwnedBlockTable) (kind : WorkKind)
    (done items : List WorkItem) : Prop where
  kinds : ∀ item ∈ items, item.kind = kind
  slots : kind = .decode → ∀ item ∈ items, item.outputSlot ≠ none
  ids : ((done ++ items).map WorkItem.requestId).Nodup
  table_for : ∀ item ∈ items, TableFor tables item
  indices : ((done ++ items).map WorkItem.blockTableIndex).Nodup
  tokens : inputCount (done ++ items) ≤ usizeMax
  outputs : ((done ++ items).filterMap WorkItem.outputSlot).Nodup

theorem scanItems_ok {done : List WorkItem} (h : Scannable tables kind done items) :
    IterationPlan.scanItems tables kind (IterationPlan.scanOf tables done) items =
      .ok (IterationPlan.scanOf tables (done ++ items)) := by
  induction items generalizing done with
  | nil => simp [IterationPlan.scanItems]
  | cons item rest ih =>
      have hassoc : done ++ item :: rest = done ++ [item] ++ rest := by simp
      have hstep : IterationPlan.scanItem tables kind (IterationPlan.scanOf tables done) item =
          .ok (IterationPlan.scanOf tables (done ++ [item])) := by
        have hids := h.ids
        have hindices := h.indices
        have htokens := h.tokens
        have houtputs := h.outputs
        rw [List.map_append, List.nodup_append] at hids hindices
        rw [hassoc] at htokens houtputs
        refine scanItem_ok (h.kinds item List.mem_cons_self)
          (fun hdecode => h.slots hdecode item List.mem_cons_self) (fun hmem => ?_)
          (h.table_for item List.mem_cons_self) (fun hmem => ?_) ?_ ?_
        · exact hids.2.2 _ hmem _ (by simp) rfl
        · exact hindices.2.2 _ hmem _ (by simp) rfl
        · refine Nat.le_trans ?_ htokens
          simp [inputCount]
        · rw [List.filterMap_append] at houtputs
          exact (List.nodup_append.mp houtputs).1
      rw [IterationPlan.scanItems, hstep]
      change IterationPlan.scanItems tables kind _ rest = _
      rw [ih ⟨fun other hother => h.kinds other (List.mem_cons_of_mem _ hother),
        fun hdecode other hother => h.slots hdecode other (List.mem_cons_of_mem _ hother),
        hassoc ▸ h.ids, fun other hother => h.table_for other (List.mem_cons_of_mem _ hother),
        hassoc ▸ h.indices, hassoc ▸ h.tokens, hassoc ▸ h.outputs⟩, hassoc]

end Scan

section Aliases

variable {tables : List OwnedBlockTable} {items : List WorkItem}

/-- The blocks that an item writes. -/
def writtenIds (tables : List OwnedBlockTable) (item : WorkItem) : List Nat :=
  (IterationPlan.tableIds tables item).drop (IterationPlan.firstWritten tables item)

/-- The blocks that an item only reads. -/
def readIds (tables : List OwnedBlockTable) (item : WorkItem) : List Nat :=
  (IterationPlan.tableIds tables item).take (IterationPlan.firstWritten tables item)

theorem collectWritten_ok (written ids : List Nat) (hnodup : (written.reverse ++ ids).Nodup) :
    IterationPlan.collectWritten written ids = .ok (ids.reverse ++ written) := by
  induction ids generalizing written with
  | nil => rfl
  | cons id rest ih =>
      have hnew : id ∉ written := by
        intro hmem
        exact (List.nodup_append.mp hnodup).2.2 id (List.mem_reverse.mpr hmem) id
          List.mem_cons_self rfl
      rw [IterationPlan.collectWritten, if_neg hnew, ih (id :: written) (by simpa using hnodup)]
      simp

theorem collectAllWritten_ok (written : List Nat) (items : List WorkItem)
    (hnodup : (written.reverse ++ items.flatMap (writtenIds tables)).Nodup) :
    ∃ all, IterationPlan.collectAllWritten tables written items = .ok all ∧
      ∀ id, id ∈ all ↔ id ∈ written ∨ id ∈ items.flatMap (writtenIds tables) := by
  induction items generalizing written with
  | nil => exact ⟨written, rfl, by simp⟩
  | cons item rest ih =>
      rw [List.flatMap_cons, ← List.append_assoc] at hnodup
      have hfirst := collectWritten_ok written (writtenIds tables item)
        (List.nodup_append.mp hnodup).1
      obtain ⟨all, hall, hmem⟩ := ih ((writtenIds tables item).reverse ++ written)
        (by simpa using hnodup)
      refine ⟨all, ?_, fun id => ?_⟩
      · rw [IterationPlan.collectAllWritten]
        change (IterationPlan.collectWritten written (writtenIds tables item) >>= _) = _
        rw [hfirst]
        exact hall
      · rw [hmem, List.flatMap_cons, List.mem_append, List.mem_append, List.mem_reverse]
        tauto

theorem blockEntryCount_ok (tables : List OwnedBlockTable) (count : Nat)
    (h : count + (tables.map fun table => table.physicalBlockIds.length).sum ≤ usizeMax) :
    IterationPlan.blockEntryCount tables count =
      some (count + (tables.map fun table => table.physicalBlockIds.length).sum) := by
  induction tables generalizing count with
  | nil => rfl
  | cons table rest ih =>
      rw [List.map_cons, List.sum_cons] at h ⊢
      have hadd : checkedAdd usizeMax count table.physicalBlockIds.length =
          some (count + table.physicalBlockIds.length) :=
        checkedAdd_eq_some.mpr ⟨rfl, by omega⟩
      rw [IterationPlan.blockEntryCount, hadd]
      simp only
      rw [ih _ (by omega), Nat.add_assoc]

section Shape

/-- The parts of `PlanShape` that the validator needs, with its own bounds. -/
structure PlanFits (prefillItems decodeItems : List WorkItem)
    (tables : List OwnedBlockTable) : Prop where
  nonempty : prefillItems ++ decodeItems ≠ []
  prefill_kind : ∀ item ∈ prefillItems, item.kind = .prefill
  decode_kind : ∀ item ∈ decodeItems, item.kind = .decode
  decode_slot : ∀ item ∈ decodeItems, item.outputSlot ≠ none
  ids : ((prefillItems ++ decodeItems).map WorkItem.requestId).Nodup
  table_for : ∀ item ∈ prefillItems ++ decodeItems, TableFor tables item
  indices : ((prefillItems ++ decodeItems).map WorkItem.blockTableIndex).Perm
    (List.range tables.length)
  count : tables.length ≤ usizeMax
  slot_count : ((prefillItems ++ decodeItems).filterMap WorkItem.outputSlot).length ≤ u32Max
  tokens : inputCount (prefillItems ++ decodeItems) ≤ usizeMax
  entries : (tables.map fun table => table.physicalBlockIds.length).sum ≤ usizeMax
  slots : ∃ count,
    ((prefillItems ++ decodeItems).filterMap WorkItem.outputSlot).Perm (List.range count)
  written_nodup : ((prefillItems ++ decodeItems).flatMap (writtenIds tables)).Nodup
  read_clear : ∀ item ∈ prefillItems ++ decodeItems, ∀ id ∈ readIds tables item,
    id ∉ (prefillItems ++ decodeItems).flatMap (writtenIds tables)

variable {prefillItems decodeItems : List WorkItem}

theorem PlanFits.length_eq (h : PlanFits prefillItems decodeItems tables) :
    tables.length = prefillItems.length + decodeItems.length := by
  have hlength := h.indices.length_eq
  rw [List.length_map, List.length_append, List.length_range] at hlength
  exact hlength.symm

theorem PlanFits.scan_prefill (h : PlanFits prefillItems decodeItems tables) :
    Scannable tables .prefill [] prefillItems where
  kinds := h.prefill_kind
  slots := fun hkind => by cases hkind
  ids := by
    have hids := h.ids
    rw [List.map_append, List.nodup_append] at hids
    exact hids.1
  table_for := fun item hitem => h.table_for item (List.mem_append_left _ hitem)
  indices := by
    have hindices := h.indices.nodup_iff.mpr List.nodup_range
    rw [List.map_append, List.nodup_append] at hindices
    exact hindices.1
  tokens := by
    refine Nat.le_trans ?_ h.tokens
    simp [inputCount]
  outputs := by
    obtain ⟨count, hslots⟩ := h.slots
    have hnodup := hslots.nodup_iff.mpr List.nodup_range
    rw [List.filterMap_append, List.nodup_append] at hnodup
    exact hnodup.1

theorem PlanFits.scan_decode (h : PlanFits prefillItems decodeItems tables) :
    Scannable tables .decode prefillItems decodeItems where
  kinds := h.decode_kind
  slots := fun _ => h.decode_slot
  ids := h.ids
  table_for := fun item hitem => h.table_for item (List.mem_append_right _ hitem)
  indices := h.indices.nodup_iff.mpr List.nodup_range
  tokens := h.tokens
  outputs := by
    obtain ⟨count, hslots⟩ := h.slots
    exact hslots.nodup_iff.mpr List.nodup_range

theorem PlanFits.all_referenced (h : PlanFits prefillItems decodeItems tables) :
    (IterationPlan.scanOf tables (prefillItems ++ decodeItems)).referencedBlockTables.any
      (!·) = false := by
  refine List.any_eq_false.mpr fun flag hflag => ?_
  obtain ⟨index, hindex, rfl⟩ := List.mem_map.mp hflag
  have hmem := h.indices.mem_iff.mpr hindex
  rw [decide_eq_true hmem]
  decide

theorem PlanFits.slots_dense (h : PlanFits prefillItems decodeItems tables) :
    ∃ count, ((prefillItems ++ decodeItems).filterMap WorkItem.outputSlot).length = count ∧
      count ≤ u32Max ∧
      ∀ slot ∈ (prefillItems ++ decodeItems).filterMap WorkItem.outputSlot, slot < count := by
  obtain ⟨count, hslots⟩ := h.slots
  have hlength : ((prefillItems ++ decodeItems).filterMap WorkItem.outputSlot).length =
      count := by rw [hslots.length_eq, List.length_range]
  have hfew := h.slot_count
  rw [hlength] at hfew
  exact ⟨count, hlength, hfew, fun slot hslot => List.mem_range.mp (hslots.mem_iff.mp hslot)⟩

/-- The pass over the physical blocks accepts. -/
theorem wp_validateAliases {α : Type} {next : Unit → HostM α} {host host' : List Bool}
    {ok : α → List Bool → Prop} (h : PlanFits prefillItems decodeItems tables)
    (hquiet : host = [] → host' = [])
    (hnext : ∀ later, (host = [] → later = []) → wp (next ()) ok (HostOnly host) later) :
    wp (IterationPlan.validatePhysicalBlockAliases (prefillItems ++ decodeItems) tables >>=
      next) ok (HostOnly host) host' := by
  obtain ⟨all, hall, hmem⟩ := @collectAllWritten_ok tables []
    (prefillItems ++ decodeItems) (by simpa using h.written_nodup)
  refine wp_seq ?_
  unfold IterationPlan.validatePhysicalBlockAliases
  have hentries := h.entries
  refine wp_some (blockEntryCount_ok tables 0 (by omega)) ?_
  refine wp_reserveHost hquiet fun later hlater => wp_ofOk hall ?_
  rw [wp_rejectIf]
  refine ⟨fun hany => ?_, fun _ => hnext later hlater⟩
  obtain ⟨item, hitem, hreads⟩ := List.any_eq_true.mp hany
  obtain ⟨id, hid, hin⟩ := List.any_eq_true.mp hreads
  rcases (hmem id).mp (by simpa using hin) with hnil | hwritten
  · cases hnil
  · exact absurd hwritten (h.read_clear item hitem id hid)

/-- The validator accepts every plan that fits. -/
theorem PlanFits.wp_planNew {iterationId : IterationId} {host : List Bool}
    (h : PlanFits prefillItems decodeItems tables) :
    wp (IterationPlan.new iterationId prefillItems decodeItems tables)
      (fun plan later => plan.iterationId = iterationId ∧
        plan.prefillItems = prefillItems ∧ plan.decodeItems = decodeItems ∧
        plan.blockTables = tables ∧ (host = [] → later = []))
      (HostOnly host) host := by
  have hlength := h.length_eq
  have hcount := h.count
  have hprefill := scanItems_ok h.scan_prefill
  have hdecode := scanItems_ok h.scan_decode
  have hstart : IterationPlan.scanOf tables [] =
      ⟨[], List.replicate tables.length false, 0, []⟩ := by
    simp [IterationPlan.scanOf, inputCount]
  rw [hstart, List.nil_append] at hprefill
  obtain ⟨count, hslots, hle, hdense⟩ := h.slots_dense
  unfold IterationPlan.new IterationPlan.fromVersion
  refine wp_passes (by simp) (wp_passes ?_ ?_)
  · rintro ⟨hprefill, hdecode⟩
    exact h.nonempty (by simp [hprefill, hdecode])
  · have hadd : checkedAdd usizeMax prefillItems.length decodeItems.length =
        some tables.length :=
      checkedAdd_eq_some.mpr ⟨hlength.symm, by omega⟩
    refine wp_some hadd (wp_passes (by simp) ?_)
    refine wp_reserveHost id fun first hfirst => wp_reserveHost hfirst fun second hsecond =>
      wp_reserveHost hsecond fun third hthird => wp_reserveHost hthird fun later hlater => ?_
    refine wp_ofOk hprefill (wp_ofOk hdecode (wp_passes ?_ ?_))
    · simp [h.all_referenced]
    · refine wp_validateAliases h hlater fun last hlast => ?_
      refine wp_passes ?_ (wp_passes ?_ ⟨rfl, rfl, rfl, rfl, hlast⟩)
      · change ¬ u32Max < (List.filterMap _ _).length
        omega
      · intro hany
        obtain ⟨slot, hslot, hbad⟩ := List.any_eq_true.mp hany
        have hlt := hdense slot hslot
        have hge : (List.filterMap WorkItem.outputSlot (prefillItems ++ decodeItems)).length ≤
            slot := of_decide_eq_true hbad
        rw [hslots] at hge
        exact Nat.not_lt.mpr hge hlt

end Shape

end Aliases

end Riley.Scheduling
