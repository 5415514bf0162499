import Mathlib.Data.Multiset.Bind
import Riley.PagedKv.Sequence
import Riley.Library.Holdings

/-!
Ownership of physical blocks. `Owns pool exclusive shared` says that the slots
and the free list of a pool agree with the holds that its sequences and the
prefix cache keep: `exclusive` lists each privately held block with its owner,
`shared` lists one entry for every hold on a shared block. Each pool operation
moves exactly the holds it hands out or takes back.
-/

namespace Riley.PagedKv

open Outcome Holdings

def BlockSlot.holders (slot : BlockSlot) : Cell SequenceId :=
  match slot.owner with
  | none => .free
  | some owner =>
      if slot.sharedReferences = 0 then .exclusive owner else .shared slot.sharedReferences

namespace KvBlockPool

/-- What the pool records about one allocation; stale handles are free. -/
def cell (pool : KvBlockPool) (block : BlockId) : Cell SequenceId :=
  if block.poolCookie = pool.cookie ∧ block.physicalIndex < pool.slots.length ∧
      (pool.slot block.physicalIndex).generation = block.generation then
    (pool.slot block.physicalIndex).holders
  else
    .free

/-- The handle of the current allocation of a slot. -/
def handle (pool : KvBlockPool) (index : Nat) : BlockId :=
  ⟨pool.cookie, index, (pool.slot index).generation⟩

theorem slot_setSlot (pool : KvBlockPool) (index : Nat) (slot : BlockSlot) (other : Nat) :
    (pool.setSlot index slot).slot other =
      if other = index ∧ index < pool.slots.length then slot else pool.slot other := by
  simp only [setSlot, KvBlockPool.slot, List.getD_eq_getElem?_getD, List.getElem?_set]
  by_cases h : index = other
  · subst h
    by_cases hlt : index < pool.slots.length
    · simp [hlt]
    · simp [hlt]
  · simp [h, Ne.symm h]

theorem slot_setSlot_self {pool : KvBlockPool} {index : Nat} (slot : BlockSlot)
    (h : index < pool.slots.length) : (pool.setSlot index slot).slot index = slot := by
  simp [slot_setSlot, h]

theorem slot_setSlot_of_ne {pool : KvBlockPool} {index other : Nat} (slot : BlockSlot)
    (h : other ≠ index) : (pool.setSlot index slot).slot other = pool.slot other := by
  simp [slot_setSlot, h]

@[simp] theorem slots_length_setSlot (pool : KvBlockPool) (index : Nat)
    (slot : BlockSlot) : (pool.setSlot index slot).slots.length = pool.slots.length := by
  simp [setSlot]

theorem dropSidecar_slot (pool : KvBlockPool) (index other : Nat) :
    ((pool.dropSidecar index).slot other).generation = (pool.slot other).generation ∧
    ((pool.dropSidecar index).slot other).owner = (pool.slot other).owner ∧
    ((pool.dropSidecar index).slot other).sharedReferences =
      (pool.slot other).sharedReferences := by
  unfold dropSidecar
  split
  · exact ⟨rfl, rfl, rfl⟩
  · let edited := pool.setSlot index (pool.slot index).withoutSidecar
    change (edited.slot other).generation = _ ∧ (edited.slot other).owner = _ ∧
      (edited.slot other).sharedReferences = _
    rw [slot_setSlot]
    split
    · obtain ⟨rfl, _⟩ := ‹_ ∧ _›
      exact ⟨rfl, rfl, rfl⟩
    · exact ⟨rfl, rfl, rfl⟩

theorem dropSidecar_frame (pool : KvBlockPool) (index : Nat) :
    (pool.dropSidecar index).cookie = pool.cookie ∧
    (pool.dropSidecar index).layout = pool.layout ∧
    (pool.dropSidecar index).slots.length = pool.slots.length ∧
    (pool.dropSidecar index).freeList = pool.freeList ∧
    (pool.dropSidecar index).allocatedBlockCount = pool.allocatedBlockCount ∧
    (pool.dropSidecar index).nextSequenceId = pool.nextSequenceId := by
  unfold dropSidecar
  split <;> simp [setSlot]

end KvBlockPool

/-- The representation invariant of the pool alone. -/
structure PoolOk (pool : KvBlockPool) : Prop where
  slots_length : pool.slots.length = pool.layout.physicalBlockCount
  free_nodup : pool.freeList.Nodup
  free_iff : ∀ index, index ∈ pool.freeList ↔
    index < pool.slots.length ∧ (pool.slot index).owner = none
  free_references : ∀ index, (pool.slot index).owner = none →
    (pool.slot index).sharedReferences = 0
  owner_bound : ∀ index owner, (pool.slot index).owner = some owner →
    owner.poolCookie = pool.cookie ∧ owner.value < pool.nextSequenceId
  shared_iff : ∀ index owner, (pool.slot index).owner = some owner →
    (owner.value = sharedBlockOwner ↔ (pool.slot index).sharedReferences ≠ 0)
  count : pool.allocatedBlockCount + pool.freeList.length = pool.slots.length
  next_pos : 0 < pool.nextSequenceId

/-- What never goes back while a pool runs. -/
structure Advances (pool pool' : KvBlockPool) : Prop where
  cookie : pool'.cookie = pool.cookie
  layout : pool'.layout = pool.layout
  slots_length : pool'.slots.length = pool.slots.length
  next_le : pool.nextSequenceId ≤ pool'.nextSequenceId
  generation_le : ∀ index,
    (pool.slot index).generation ≤ (pool'.slot index).generation

theorem Advances.refl (pool : KvBlockPool) : Advances pool pool :=
  ⟨rfl, rfl, rfl, Nat.le_refl _, fun _ => Nat.le_refl _⟩

theorem Advances.trans {a b c : KvBlockPool} (hab : Advances a b) (hbc : Advances b c) :
    Advances a c where
  cookie := hbc.cookie.trans hab.cookie
  layout := hbc.layout.trans hab.layout
  slots_length := hbc.slots_length.trans hab.slots_length
  next_le := Nat.le_trans hab.next_le hbc.next_le
  generation_le index := Nat.le_trans (hab.generation_le index) (hbc.generation_le index)

structure Owns (pool : KvBlockPool) (exclusive : Multiset (BlockId × SequenceId))
    (shared : Multiset BlockId) : Prop where
  ok : PoolOk pool
  accounts : Accounts pool.cell exclusive shared

section Cells

variable {pool pool' : KvBlockPool} {index : Nat}

theorem cell_handle (h : index < pool.slots.length) :
    pool.cell (pool.handle index) = (pool.slot index).holders := by
  simp [KvBlockPool.cell, KvBlockPool.handle, h]

/-- A cell that is not free belongs to the current allocation of its slot. -/
theorem handle_of_cell {block : BlockId} (h : pool.cell block ≠ .free) :
    block.physicalIndex < pool.slots.length ∧
      block = pool.handle block.physicalIndex := by
  unfold KvBlockPool.cell at h
  split at h
  · obtain ⟨hcookie, hlt, hgen⟩ := ‹_ ∧ _ ∧ _›
    refine ⟨hlt, ?_⟩
    cases block
    simp only [KvBlockPool.handle] at *
    simp [hcookie, hgen]
  · exact absurd rfl h

/-- Rewriting the owner and the count of one slot changes one cell. -/
theorem cell_edit (c : Cell SequenceId) (hcookie : pool'.cookie = pool.cookie)
    (hlen : pool'.slots.length = pool.slots.length)
    (hgen : (pool'.slot index).generation = (pool.slot index).generation)
    (hother : ∀ other, other ≠ index →
      (pool'.slot other).generation = (pool.slot other).generation ∧
      (pool'.slot other).owner = (pool.slot other).owner ∧
      (pool'.slot other).sharedReferences = (pool.slot other).sharedReferences)
    (hc : pool'.cell (pool.handle index) = c) :
    pool'.cell = Function.update pool.cell (pool.handle index) c := by
  funext block
  by_cases hblock : block = pool.handle index
  · subst hblock
    simpa using hc
  · rw [Function.update_of_ne hblock]
    by_cases hindex : block.physicalIndex = index
    · have hstale : ¬ (block.poolCookie = pool.cookie ∧
          block.physicalIndex < pool.slots.length ∧
          (pool.slot block.physicalIndex).generation = block.generation) := by
        rintro ⟨hb, _, hg⟩
        apply hblock
        cases block
        subst hindex
        simp_all [KvBlockPool.handle]
      have hstale' : ¬ (block.poolCookie = pool'.cookie ∧
          block.physicalIndex < pool'.slots.length ∧
          (pool'.slot block.physicalIndex).generation = block.generation) := by
        rw [hcookie, hlen, hindex, hgen, ← hindex]
        exact hstale
      simp only [KvBlockPool.cell, if_neg hstale, if_neg hstale']
    · obtain ⟨hg, ho, hr⟩ := hother _ hindex
      simp only [KvBlockPool.cell, BlockSlot.holders, hcookie, hlen, hg, ho, hr]

theorem cell_setSlot {slot : BlockSlot} (hlt : index < pool.slots.length)
    (hgen : slot.generation = (pool.slot index).generation) :
    (pool.setSlot index slot).cell =
      Function.update pool.cell (pool.handle index) slot.holders := by
  have hself := KvBlockPool.slot_setSlot_self slot hlt
  refine cell_edit _ rfl (by simp) (by rw [hself, hgen]) ?_ ?_
  · intro other heq
    rw [KvBlockPool.slot_setSlot_of_ne _ heq]
    exact ⟨rfl, rfl, rfl⟩
  · have hc := @cell_handle (pool.setSlot index slot) index (by simpa)
    rw [KvBlockPool.handle, hself, hgen] at hc
    exact hc

end Cells

section PoolOperations

variable {pool : KvBlockPool} {exclusive : Multiset (BlockId × SequenceId)}
  {shared : Multiset BlockId} {block : BlockId} {owner : SequenceId}

theorem Owns.handle_of_exclusive (h : Owns pool exclusive shared)
    (hmem : (block, owner) ∈ exclusive) :
    block.physicalIndex < pool.slots.length ∧
      block = pool.handle block.physicalIndex ∧
      (pool.slot block.physicalIndex).owner = some owner ∧
      (pool.slot block.physicalIndex).sharedReferences = 0 := by
  have hcell := h.accounts.mem_exclusive.mp hmem
  obtain ⟨hlt, hblock⟩ := handle_of_cell (by rw [hcell]; simp)
  refine ⟨hlt, hblock, ?_⟩
  rw [hblock, cell_handle hlt] at hcell
  unfold BlockSlot.holders at hcell
  split at hcell
  · cases hcell
  · split at hcell
    · cases hcell
      exact ⟨‹_›, ‹_›⟩
    · cases hcell

theorem Owns.handle_of_shared (h : Owns pool exclusive shared) (hmem : block ∈ shared) :
    block.physicalIndex < pool.slots.length ∧
      block = pool.handle block.physicalIndex ∧
      (∃ owner, (pool.slot block.physicalIndex).owner = some owner) ∧
      (pool.slot block.physicalIndex).sharedReferences = shared.count block ∧
      0 < shared.count block := by
  obtain ⟨n, hcell⟩ := h.accounts.mem_shared.mp hmem
  obtain ⟨hlt, hblock⟩ := handle_of_cell (by rw [hcell]; simp)
  have hcount := h.accounts.shared_count block
  rw [hcell] at hcount
  refine ⟨hlt, hblock, ?_⟩
  rw [hblock, cell_handle hlt] at hcell
  unfold BlockSlot.holders at hcell
  split at hcell
  · cases hcell
  · split at hcell
    · cases hcell
    · cases hcell
      exact ⟨⟨_, ‹_›⟩, by rw [hcount]; rfl, Multiset.count_pos.mpr hmem⟩

theorem validateBlockIndex_ok (hcookie : block.poolCookie = pool.cookie)
    (hlt : block.physicalIndex < pool.slots.length) :
    pool.validateBlockIndex block = .ok () := by
  simp [KvBlockPool.validateBlockIndex, hcookie, hlt]

theorem Owns.validateBlock_ok (h : Owns pool exclusive shared)
    (hmem : (block, owner) ∈ exclusive) : pool.validateBlock block owner = .ok () := by
  obtain ⟨hlt, hblock, hslot, _⟩ := h.handle_of_exclusive hmem
  have hcookie : block.poolCookie = pool.cookie := congrArg BlockId.poolCookie hblock
  have hgen : (pool.slot block.physicalIndex).generation = block.generation :=
    (congrArg BlockId.generation hblock).symm
  have howner := (h.ok.owner_bound _ _ hslot).1
  simp [KvBlockPool.validateBlock, validateBlockIndex_ok hcookie hlt, howner, hgen, hslot,
    bind, Except.bind]

theorem Owns.sharedReferences_ok (h : Owns pool exclusive shared) (hmem : block ∈ shared) :
    pool.sharedReferences block = .ok (shared.count block) := by
  obtain ⟨hlt, hblock, ⟨o, hslot⟩, hrefs, hpos⟩ := h.handle_of_shared hmem
  have hcookie : block.poolCookie = pool.cookie := congrArg BlockId.poolCookie hblock
  have hgen : (pool.slot block.physicalIndex).generation = block.generation :=
    (congrArg BlockId.generation hblock).symm
  have hne : shared.count block ≠ 0 := by omega
  simp only [KvBlockPool.sharedReferences, validateBlockIndex_ok hcookie hlt, hgen, hslot,
    hrefs, bind, Except.bind]
  simp [hne]

/-- Two pools that differ in their sidecars only. -/
structure SameHolders (pool pool' : KvBlockPool) : Prop where
  cookie : pool'.cookie = pool.cookie
  layout : pool'.layout = pool.layout
  slots_length : pool'.slots.length = pool.slots.length
  freeList : pool'.freeList = pool.freeList
  allocated : pool'.allocatedBlockCount = pool.allocatedBlockCount
  next : pool'.nextSequenceId = pool.nextSequenceId
  slot : ∀ index, (pool'.slot index).generation = (pool.slot index).generation ∧
    (pool'.slot index).owner = (pool.slot index).owner ∧
    (pool'.slot index).sharedReferences = (pool.slot index).sharedReferences

theorem SameHolders.advances {pool' : KvBlockPool} (h : SameHolders pool pool') :
    Advances pool pool' :=
  ⟨h.cookie, h.layout, h.slots_length, h.next.ge, fun index => (h.slot index).1.ge⟩

/-- An edit that only touches sidecars keeps all books. -/
theorem Owns.sameHolders {pool' : KvBlockPool} (h : Owns pool exclusive shared)
    (hsame : SameHolders pool pool') : Owns pool' exclusive shared := by
  have hslot := hsame.slot
  constructor
  · constructor
    · rw [hsame.slots_length, hsame.layout, h.ok.slots_length]
    · rw [hsame.freeList]
      exact h.ok.free_nodup
    · intro other
      rw [hsame.freeList, hsame.slots_length, (hslot other).2.1]
      exact h.ok.free_iff other
    · intro other
      rw [(hslot other).2.1, (hslot other).2.2]
      exact h.ok.free_references other
    · intro other owner
      rw [(hslot other).2.1, hsame.cookie, hsame.next]
      exact h.ok.owner_bound other owner
    · intro other owner
      rw [(hslot other).2.1, (hslot other).2.2]
      exact h.ok.shared_iff other owner
    · rw [hsame.allocated, hsame.freeList, hsame.slots_length, h.ok.count]
    · rw [hsame.next]
      exact h.ok.next_pos
  · refine h.accounts.congr fun block => ?_
    obtain ⟨hg, ho, hr⟩ := hslot block.physicalIndex
    simp only [KvBlockPool.cell, BlockSlot.holders, hsame.cookie, hsame.slots_length, hg, ho, hr]

theorem sameHolders_dropSidecar (pool : KvBlockPool) (index : Nat) :
    SameHolders pool (pool.dropSidecar index) := by
  obtain ⟨hcookie, hlayout, hlen, hfree, hcount, hnext⟩ := pool.dropSidecar_frame index
  exact ⟨hcookie, hlayout, hlen, hfree, hcount, hnext, pool.dropSidecar_slot index⟩

theorem Owns.dropSidecar (h : Owns pool exclusive shared) (index : Nat) :
    Owns (pool.dropSidecar index) exclusive shared :=
  h.sameHolders (sameHolders_dropSidecar pool index)

theorem advances_dropSidecar (pool : KvBlockPool) (index : Nat) :
    Advances pool (pool.dropSidecar index) :=
  (sameHolders_dropSidecar pool index).advances

theorem advances_setSlot (pool : KvBlockPool) (index : Nat) (slot : BlockSlot)
    (hgen : (pool.slot index).generation ≤ slot.generation) :
    Advances pool (pool.setSlot index slot) := by
  refine ⟨rfl, rfl, by simp, Nat.le_refl _, fun other => ?_⟩
  rw [KvBlockPool.slot_setSlot]
  split
  · obtain ⟨rfl, _⟩ := ‹_ ∧ _›
    exact hgen
  · exact Nat.le_refl _

/-- Changing the holders of an allocated slot, owner and count, keeps the pool
well formed when the new owner is shared exactly with a positive count. -/
theorem PoolOk.setHolders (h : PoolOk pool) {index : Nat} (hlt : index < pool.slots.length)
    {o : SequenceId} (hold : (pool.slot index).owner = some o) {owner : SequenceId}
    {references : Nat} (hcookie : owner.poolCookie = pool.cookie)
    (hvalue : owner.value < pool.nextSequenceId)
    (hshared : owner.value = sharedBlockOwner ↔ references ≠ 0) :
    PoolOk (pool.setSlot index
      (((pool.slot index).withOwner (some owner)).withReferences references)) := by
  have hslot := fun other => pool.slot_setSlot index
    (((pool.slot index).withOwner (some owner)).withReferences references) other
  constructor
  · rw [KvBlockPool.slots_length_setSlot]
    exact h.slots_length
  · exact h.free_nodup
  · intro other
    change other ∈ pool.freeList ↔ _
    rw [h.free_iff, KvBlockPool.slots_length_setSlot, hslot]
    by_cases heq : other = index
    · subst heq
      simp [hlt, hold]
    · simp [heq]
  · intro other hnone
    rw [hslot] at hnone ⊢
    by_cases heq : other = index
    · subst heq
      simp [hlt] at hnone
    · simp only [heq, false_and, if_false] at hnone ⊢
      exact h.free_references other hnone
  · intro other owner' hsome
    rw [hslot] at hsome
    by_cases heq : other = index
    · subst heq
      rw [if_pos ⟨rfl, hlt⟩] at hsome
      cases hsome
      exact ⟨hcookie, hvalue⟩
    · simp only [heq, false_and, if_false] at hsome
      exact h.owner_bound other owner' hsome
  · intro other owner' hsome
    rw [hslot] at hsome ⊢
    by_cases heq : other = index
    · subst heq
      rw [if_pos ⟨rfl, hlt⟩] at hsome ⊢
      cases hsome
      exact hshared
    · simp only [heq, false_and, if_false] at hsome ⊢
      exact h.shared_iff other owner' hsome
  · simpa [KvBlockPool.setSlot] using h.count
  · exact h.next_pos

/-- One slot went back to the free list and nothing else changed hands. -/
structure Vacated (pool pool' : KvBlockPool) (index : Nat) : Prop where
  cookie : pool'.cookie = pool.cookie
  layout : pool'.layout = pool.layout
  slots_length : pool'.slots.length = pool.slots.length
  next : pool'.nextSequenceId = pool.nextSequenceId
  freeList : pool'.freeList = index :: pool.freeList
  allocated : pool'.allocatedBlockCount = pool.allocatedBlockCount - 1
  slot : (pool'.slot index).owner = none ∧ (pool'.slot index).sharedReferences = 0 ∧
    (pool'.slot index).generation = (pool.slot index).generation
  other : ∀ other, other ≠ index →
    (pool'.slot other).generation = (pool.slot other).generation ∧
    (pool'.slot other).owner = (pool.slot other).owner ∧
    (pool'.slot other).sharedReferences = (pool.slot other).sharedReferences

theorem Vacated.advances {pool' : KvBlockPool} {index : Nat}
    (h : Vacated pool pool' index) : Advances pool pool' := by
  refine ⟨h.cookie, h.layout, h.slots_length, h.next.ge, fun other => ?_⟩
  by_cases heq : other = index
  · subst heq
    exact h.slot.2.2.ge
  · exact (h.other other heq).1.ge

theorem Vacated.freeBlockCount {pool' : KvBlockPool} {index : Nat}
    (h : Vacated pool pool' index) :
    pool'.freeBlockCount = pool.freeBlockCount + 1 := by
  simp [KvBlockPool.freeBlockCount, h.freeList]

theorem PoolOk.vacate {pool' : KvBlockPool} {index : Nat} {o : SequenceId}
    (h : PoolOk pool) (hv : Vacated pool pool' index) (hlt : index < pool.slots.length)
    (hold : (pool.slot index).owner = some o) : PoolOk pool' := by
  have hfresh : index ∉ pool.freeList := by
    intro hmem
    have hnone := ((h.free_iff index).mp hmem).2
    rw [hold] at hnone
    cases hnone
  constructor
  · rw [hv.slots_length, hv.layout, h.slots_length]
  · rw [hv.freeList]
    exact List.nodup_cons.mpr ⟨hfresh, h.free_nodup⟩
  · intro other
    rw [hv.freeList, hv.slots_length, List.mem_cons]
    by_cases heq : other = index
    · subst heq
      simp [hlt, hv.slot.1]
    · rw [(hv.other other heq).2.1, ← h.free_iff]
      simp [heq]
  · intro other hnone
    by_cases heq : other = index
    · subst heq
      exact hv.slot.2.1
    · rw [(hv.other other heq).2.1] at hnone
      rw [(hv.other other heq).2.2]
      exact h.free_references other hnone
  · intro other owner' hsome
    by_cases heq : other = index
    · subst heq
      rw [hv.slot.1] at hsome
      cases hsome
    · rw [(hv.other other heq).2.1] at hsome
      rw [hv.cookie, hv.next]
      exact h.owner_bound other owner' hsome
  · intro other owner' hsome
    by_cases heq : other = index
    · subst heq
      rw [hv.slot.1] at hsome
      cases hsome
    · rw [(hv.other other heq).2.1] at hsome
      rw [(hv.other other heq).2.2]
      exact h.shared_iff other owner' hsome
  · have hcount := h.count
    have hbound : pool.freeList.length < pool.slots.length := by
      have hsub : (index :: pool.freeList).length ≤ (List.range pool.slots.length).length := by
        refine List.Subperm.length_le (List.Nodup.subperm
          (List.nodup_cons.mpr ⟨hfresh, h.free_nodup⟩) ?_)
        intro other hmem
        rcases List.mem_cons.mp hmem with rfl | hmem
        · exact List.mem_range.mpr hlt
        · exact List.mem_range.mpr ((h.free_iff other).mp hmem).1
      rw [List.length_cons, List.length_range] at hsub
      exact hsub
    rw [hv.allocated, hv.freeList, hv.slots_length, List.length_cons]
    omega
  · rw [hv.next]
    exact h.next_pos

theorem Vacated.cell {pool' : KvBlockPool} {index : Nat} (h : Vacated pool pool' index) :
    pool'.cell = Function.update pool.cell (pool.handle index) .free := by
  refine cell_edit _ h.cookie h.slots_length h.slot.2.2 h.other ?_
  unfold KvBlockPool.cell
  split
  · simp [BlockSlot.holders, KvBlockPool.handle, h.slot.1]
  · rfl

theorem slot_of_ge {index : Nat} (h : pool.slots.length ≤ index) :
    pool.slot index = BlockSlot.vacant := by
  unfold KvBlockPool.slot
  rw [List.getD_eq_getElem?_getD, List.getElem?_eq_none h]
  rfl

/-- A release takes the owner of one slot away. -/
theorem slot_releaseSlot (pool : KvBlockPool) (index other : Nat) :
    ((pool.releaseSlot index).slot other).generation = (pool.slot other).generation ∧
      ((pool.releaseSlot index).slot other).sharedReferences =
        (pool.slot other).sharedReferences ∧
      ((pool.releaseSlot index).slot other).owner =
        if other = index then none else (pool.slot other).owner := by
  obtain ⟨hgeneration, howner, hreferences⟩ := pool.dropSidecar_slot index other
  have hset : (pool.releaseSlot index).slot other = ((pool.dropSidecar index).setSlot index
      (((pool.dropSidecar index).slot index).withOwner none)).slot other := rfl
  rw [hset, KvBlockPool.slot_setSlot]
  split
  next hself =>
    obtain ⟨rfl, _⟩ := hself
    rw [if_pos rfl]
    exact ⟨hgeneration, hreferences, rfl⟩
  next hother =>
    refine ⟨hgeneration, hreferences, ?_⟩
    split
    next heq =>
      subst heq
      have hout : (pool.dropSidecar other).slots.length ≤ other :=
        Nat.not_lt.mp fun hlt => hother ⟨rfl, hlt⟩
      rw [slot_of_ge hout]
      rfl
    · exact howner

theorem vacated_releaseSlot {index : Nat} (hlt : index < pool.slots.length)
    (hrefs : (pool.slot index).sharedReferences = 0) :
    Vacated pool (pool.releaseSlot index) index := by
  obtain ⟨hcookie, hlayout, hlen, hfree, hcount, hnext⟩ := pool.dropSidecar_frame index
  have hslot := pool.dropSidecar_slot index
  have hlt' : index < (pool.dropSidecar index).slots.length := by rw [hlen]; exact hlt
  let vacant := ((pool.dropSidecar index).slot index).withOwner none
  have hself : (pool.releaseSlot index).slot index = vacant :=
    KvBlockPool.slot_setSlot_self vacant hlt'
  have hother : ∀ other, other ≠ index →
      (pool.releaseSlot index).slot other = (pool.dropSidecar index).slot other :=
    fun other heq => KvBlockPool.slot_setSlot_of_ne vacant heq
  constructor
  · exact hcookie
  · exact hlayout
  · exact (KvBlockPool.slots_length_setSlot _ index vacant).trans hlen
  · exact hnext
  · exact congrArg (index :: ·) hfree
  · exact congrArg (· - 1) hcount
  · rw [hself]
    exact ⟨rfl, (hslot index).2.2.trans hrefs, (hslot index).1⟩
  · intro other heq
    rw [hother other heq]
    exact hslot other

/-- The slot of a private block is freed. -/
theorem Owns.releaseSlot (h : Owns pool ((block, owner) ::ₘ exclusive) shared) :
    Owns (pool.releaseSlot block.physicalIndex) exclusive shared ∧
      Vacated pool (pool.releaseSlot block.physicalIndex) block.physicalIndex := by
  obtain ⟨hlt, hblock, hslot, hrefs⟩ := h.handle_of_exclusive (Multiset.mem_cons_self _ _)
  have hv := vacated_releaseSlot hlt hrefs
  refine ⟨⟨h.ok.vacate hv hlt hslot, ?_⟩, hv⟩
  rw [hv.cell, ← hblock]
  exact h.accounts.retire

/-- A private block goes back to the free list. -/
theorem Owns.releaseBlock (h : Owns pool ((block, owner) ::ₘ exclusive) shared) :
    wp (KvBlockPool.releaseBlock block owner)
      (fun _ pool' => Owns pool' exclusive shared ∧
        Vacated pool pool' block.physicalIndex)
      (fun _ _ => False) pool := by
  unfold KvBlockPool.releaseBlock
  apply wp_read
  apply wp_ofOk (h.validateBlock_ok (Multiset.mem_cons_self _ _))
  exact h.releaseSlot

/-- What the pool answers for a block is the count that its cell keeps. -/
theorem sharedReferences_eq_ok_iff {references : Nat} :
    pool.sharedReferences block = .ok references ↔ pool.cell block = .shared references := by
  unfold KvBlockPool.sharedReferences KvBlockPool.validateBlockIndex KvBlockPool.cell
    BlockSlot.holders
  by_cases hcookie : block.poolCookie = pool.cookie
  · by_cases hlt : block.physicalIndex < pool.slots.length
    · have hinside := Nat.not_le.mpr hlt
      by_cases hgen : (pool.slot block.physicalIndex).generation = block.generation
      · cases howner : (pool.slot block.physicalIndex).owner with
        | none => simp [hcookie, hlt, hinside, hgen, howner, bind, Except.bind]
        | some owner =>
            by_cases hrefs : (pool.slot block.physicalIndex).sharedReferences = 0
            · simp [hcookie, hlt, hinside, hgen, howner, hrefs, bind, Except.bind]
            · simp [hcookie, hlt, hinside, hgen, howner, hrefs, bind, Except.bind]
      · simp [hcookie, hlt, hinside, hgen, bind, Except.bind]
    · simp [hcookie, hlt, Nat.le_of_not_lt hlt, bind, Except.bind]
  · simp [hcookie, bind, Except.bind]

theorem slot_of_shared {references : Nat} (h : pool.cell block = .shared references) :
    block.physicalIndex < pool.slots.length ∧ block = pool.handle block.physicalIndex ∧
      (pool.slot block.physicalIndex).owner.isSome ∧
      (pool.slot block.physicalIndex).sharedReferences = references ∧ 0 < references := by
  obtain ⟨hlt, hblock⟩ := handle_of_cell (by rw [h]; simp)
  rw [hblock, cell_handle hlt] at h
  refine ⟨hlt, hblock, ?_⟩
  unfold BlockSlot.holders at h
  split at h
  · cases h
  · split at h
    · cases h
    next howner hrefs =>
      cases h
      exact ⟨by rw [howner]; rfl, rfl, Nat.pos_of_ne_zero hrefs⟩

/-- What dropping one of `references + 1` holds does to the pool. -/
structure DropsHold (pool : KvBlockPool) (block : BlockId) (references : Nat)
    (pool' : KvBlockPool) : Prop where
  last : references = 0 → Vacated pool pool' block.physicalIndex
  more : references ≠ 0 → pool' = pool.setSlot block.physicalIndex
    ((pool.slot block.physicalIndex).withReferences references)
  cell : pool'.cell =
    Function.update pool.cell block (if references = 0 then .free else .shared references)

theorem wp_releaseSharedBlock {references : Nat}
    (h : pool.cell block = .shared (references + 1)) :
    wp (KvBlockPool.releaseSharedBlock block) (fun _ pool' => DropsHold pool block references pool')
      (fun _ _ => False) pool := by
  obtain ⟨hlt, hblock, howner, hrefs, _⟩ := slot_of_shared h
  unfold KvBlockPool.releaseSharedBlock
  apply wp_read
  apply wp_ofOk (sharedReferences_eq_ok_iff.mpr h)
  let released := pool.setSlot block.physicalIndex
    ((pool.slot block.physicalIndex).withReferences (references + 1 - 1))
  have hself : released.slot block.physicalIndex = _ :=
    KvBlockPool.slot_setSlot_self _ hlt
  rw [wp_set]
  by_cases hlast : references = 0
  · rw [if_pos (by omega)]
    have hv0 := @vacated_releaseSlot released block.physicalIndex
      (by simpa [released] using hlt) (by rw [hself]; simpa using hlast)
    have hv : Vacated pool (released.releaseSlot block.physicalIndex)
        block.physicalIndex := by
      refine ⟨hv0.cookie, hv0.layout, hv0.slots_length.trans (by simp [released]), hv0.next,
        hv0.freeList, hv0.allocated, ?_, ?_⟩
      · refine ⟨hv0.slot.1, hv0.slot.2.1, hv0.slot.2.2.trans ?_⟩
        rw [hself]
        rfl
      · intro other heq
        have hsame : released.slot other = pool.slot other :=
          KvBlockPool.slot_setSlot_of_ne _ heq
        rw [← hsame]
        exact hv0.other other heq
    refine ⟨fun _ => hv, fun hmore => absurd hlast hmore, ?_⟩
    rw [hv.cell, ← hblock, if_pos hlast]
  · rw [if_neg (by omega)]
    refine ⟨fun hzero => absurd hzero hlast, fun _ => rfl, ?_⟩
    have hsome := Option.isSome_iff_exists.mp howner
    obtain ⟨owner, howner⟩ := hsome
    rw [cell_setSlot hlt (by simp), ← hblock, if_neg hlast]
    simp [BlockSlot.holders, BlockSlot.withReferences, howner, hlast]

/-- One hold on a shared block is dropped; the last one frees the block. -/
theorem Owns.releaseSharedBlock (h : Owns pool exclusive (block ::ₘ shared)) :
    wp (KvBlockPool.releaseSharedBlock block)
      (fun _ pool' => Owns pool' exclusive shared ∧ Advances pool pool' ∧
        pool'.nextSequenceId = pool.nextSequenceId ∧
        pool'.freeBlockCount =
          pool.freeBlockCount + if shared.count block = 0 then 1 else 0)
      (fun _ _ => False) pool := by
  have hmem : block ∈ block ::ₘ shared := Multiset.mem_cons_self _ _
  obtain ⟨hlt, hblock, ⟨o, hslot⟩, hrefs, _⟩ := h.handle_of_shared hmem
  have hcell := h.accounts.cell_of_shared
  rw [Multiset.count_cons_self] at hrefs
  refine wp_ok_mono (wp_releaseSharedBlock hcell) ?_
  rintro _ pool' hdrops
  by_cases hlast : shared.count block = 0
  · have hv := hdrops.last hlast
    rw [if_pos hlast]
    refine ⟨⟨h.ok.vacate hv hlt hslot, ?_⟩, hv.advances, hv.next, hv.freeBlockCount⟩
    rw [hv.cell, ← hblock]
    exact h.accounts.giveBackLast (by rw [hcell, hlast])
  · have hsame := hdrops.more hlast
    rw [if_neg hlast]
    have hshared := (h.ok.shared_iff _ _ hslot).mpr (by rw [hrefs]; omega)
    have hbound := h.ok.owner_bound _ _ hslot
    have hboth : o.value = sharedBlockOwner ↔ shared.count block ≠ 0 :=
      ⟨fun _ => hlast, fun _ => hshared⟩
    have hok := h.ok.setHolders hlt hslot hbound.1 hbound.2 hboth
    rw [← hslot] at hok
    refine ⟨⟨by rw [hsame]; exact hok, ?_⟩, ?_, ?_, ?_⟩
    · rw [hdrops.cell, if_neg hlast]
      exact h.accounts.giveBack hcell (by omega)
    · rw [hsame]
      exact advances_setSlot pool _ _ (Nat.le_refl _)
    · rw [hsame]
      rfl
    · rw [hsame]
      simp [KvBlockPool.freeBlockCount, KvBlockPool.setSlot]

/-- A free block is handed out under a fresh generation. -/
theorem Owns.allocateBlock (h : Owns pool exclusive shared)
    (hcookie : owner.poolCookie = pool.cookie) (hvalue : owner.value ≠ sharedBlockOwner)
    (hnext : owner.value < pool.nextSequenceId) :
    wp (KvBlockPool.allocateBlock owner)
      (fun block pool' => Owns pool' ((block, owner) ::ₘ exclusive) shared ∧
        Advances pool pool' ∧ pool'.nextSequenceId = pool.nextSequenceId ∧
        pool.freeBlockCount = pool'.freeBlockCount + 1 ∧
        (pool.slot block.physicalIndex).generation < block.generation)
      (fun error pool' => pool' = pool ∧
        (error = .outOfBlocks 1 0 ∧ pool.freeBlockCount = 0 ∨
          ∃ index, error = .generationExhausted index)) pool := by
  simp only [KvBlockPool.allocateBlock, wp_bind, wp_get]
  cases hfree : pool.freeList with
  | nil => simp [KvBlockPool.freeBlockCount, hfree]
  | cons index rest =>
      simp only [wp_bind, wp_orReject, wp_set, wp_pure]
      refine ⟨fun _ => ⟨trivial, Or.inr ⟨index, rfl⟩⟩, fun generation hgen => ?_⟩
      obtain ⟨rfl, _⟩ := checkedAdd_eq_some.mp hgen
      obtain ⟨hlt, hnone⟩ := (h.ok.free_iff index).mp (by rw [hfree]; exact List.mem_cons_self)
      have hrefs := h.ok.free_references index hnone
      have hnodup := h.ok.free_nodup
      rw [hfree, List.nodup_cons] at hnodup
      let taken : BlockSlot := { pool.slot index with
        generation := (pool.slot index).generation + 1, owner := some owner }
      let pool' : KvBlockPool := { pool.setSlot index taken with
        freeList := rest, allocatedBlockCount := pool.allocatedBlockCount + 1 }
      have hself : pool'.slot index = taken := KvBlockPool.slot_setSlot_self taken hlt
      have hother : ∀ other, other ≠ index → pool'.slot other = pool.slot other :=
        fun other heq => KvBlockPool.slot_setSlot_of_ne taken heq
      have hlen : pool'.slots.length = pool.slots.length :=
        KvBlockPool.slots_length_setSlot pool index taken
      have hok : PoolOk pool' := by
        constructor
        · rw [hlen]
          exact h.ok.slots_length
        · exact hnodup.2
        · intro other
          change other ∈ rest ↔ _
          rw [hlen]
          by_cases heq : other = index
          · subst heq
            simp [hself, taken, hnodup.1]
          · rw [hother other heq, ← h.ok.free_iff, hfree]
            simp [heq]
        · intro other hn
          by_cases heq : other = index
          · subst heq
            rw [hself] at hn
            cases hn
          · rw [hother other heq] at hn ⊢
            exact h.ok.free_references other hn
        · intro other o hs
          by_cases heq : other = index
          · subst heq
            rw [hself] at hs
            cases hs
            exact ⟨hcookie, hnext⟩
          · rw [hother other heq] at hs
            exact h.ok.owner_bound other o hs
        · intro other o hs
          by_cases heq : other = index
          · subst heq
            rw [hself] at hs ⊢
            cases hs
            exact ⟨fun hz => absurd hz hvalue, fun hz => absurd hrefs hz⟩
          · rw [hother other heq] at hs ⊢
            exact h.ok.shared_iff other o hs
        · have hcount := h.ok.count
          rw [hfree, List.length_cons] at hcount
          rw [hlen]
          change pool.allocatedBlockCount + 1 + rest.length = _
          omega
        · exact h.ok.next_pos
      let fresh : BlockId := ⟨pool.cookie, index, (pool.slot index).generation + 1⟩
      have hcells : pool'.cell = Function.update pool.cell fresh (.exclusive owner) := by
        funext b
        by_cases hb : b = fresh
        · subst hb
          have hc := @cell_handle pool' index (by rw [hlen]; exact hlt)
          rw [KvBlockPool.handle, hself] at hc
          refine hc.trans ?_
          simp [BlockSlot.holders, taken, hrefs]
        · rw [Function.update_of_ne hb]
          by_cases hindex : b.physicalIndex = index
          · have hstale : pool'.cell b = .free := by
              unfold KvBlockPool.cell
              rw [if_neg]
              rintro ⟨hbc, _, hbg⟩
              rw [hindex, hself] at hbg
              apply hb
              cases b
              simp_all [fresh, pool', KvBlockPool.setSlot, taken]
            have hwas : pool.cell b = .free := by
              unfold KvBlockPool.cell BlockSlot.holders
              rw [hindex, hnone]
              simp
            rw [hstale, hwas]
          · simp only [KvBlockPool.cell, hlen, hother _ hindex]
            rfl
      have hfreshFree : pool.cell fresh = .free := by
        unfold KvBlockPool.cell
        rw [if_neg]
        rintro ⟨_, _, hg⟩
        simp only [fresh] at hg
        omega
      refine ⟨⟨hok, ?_⟩, ⟨rfl, rfl, hlen, Nat.le_refl _, fun other => ?_⟩, rfl, ?_, ?_⟩
      · change Accounts pool'.cell _ _
        rw [hcells]
        exact h.accounts.claim owner hfreshFree
      · by_cases heq : other = index
        · subst heq
          change _ ≤ (pool'.slot other).generation
          rw [hself]
          simp [taken]
        · change _ ≤ (pool'.slot other).generation
          rw [hother other heq]
      · simp [KvBlockPool.freeBlockCount, hfree]
      · simp

/-- The owner of a private block shares it with one more holder. -/
theorem Owns.publish (h : Owns pool ((block, owner) ::ₘ exclusive) shared) :
    Owns (pool.setSlot block.physicalIndex
        (((pool.slot block.physicalIndex).withOwner
          (some ⟨owner.poolCookie, sharedBlockOwner⟩)).withReferences 2))
      exclusive (block ::ₘ block ::ₘ shared) := by
  obtain ⟨hlt, hblock, hslot, hrefs⟩ :=
    h.handle_of_exclusive (Multiset.mem_cons_self _ _)
  have hbound := h.ok.owner_bound _ _ hslot
  refine ⟨h.ok.setHolders hlt hslot hbound.1 h.ok.next_pos (by simp), ?_⟩
  rw [cell_setSlot hlt (by simp), ← hblock]
  exact h.accounts.publish

/-- One more holder takes a shared block. -/
theorem Owns.borrow (h : Owns pool exclusive shared) (hmem : block ∈ shared) :
    Owns (pool.setSlot block.physicalIndex
        ((pool.slot block.physicalIndex).withReferences (shared.count block + 1)))
      exclusive (block ::ₘ shared) := by
  obtain ⟨hlt, hblock, ⟨o, hslot⟩, hrefs, hpos⟩ := h.handle_of_shared hmem
  have hshared := (h.ok.shared_iff _ _ hslot).mpr (by rw [hrefs]; omega)
  have hbound := h.ok.owner_bound _ _ hslot
  have hboth : o.value = sharedBlockOwner ↔ shared.count block + 1 ≠ 0 :=
    ⟨fun _ => by omega, fun _ => hshared⟩
  have hok := h.ok.setHolders hlt hslot hbound.1 hbound.2 hboth
  rw [← hslot] at hok
  change PoolOk (pool.setSlot block.physicalIndex
    ((pool.slot block.physicalIndex).withReferences (shared.count block + 1))) at hok
  obtain ⟨n, hcell⟩ := h.accounts.mem_shared.mp hmem
  have hn := h.accounts.shared_count block
  rw [hcell] at hn
  refine ⟨hok, ?_⟩
  rw [cell_setSlot hlt (by simp), ← hblock]
  have hholders : ((pool.slot block.physicalIndex).withReferences
      (shared.count block + 1)).holders = .shared (shared.count block + 1) := by
    simp [BlockSlot.holders, BlockSlot.withReferences, hslot]
  rw [hholders]
  exact h.accounts.borrow (by rw [hcell, hn]; rfl)

end PoolOperations

theorem slot_new (cookie : Nat) (layout : KvLayout) (index : Nat) :
    (KvBlockPool.new cookie layout).slot index = BlockSlot.vacant := by
  simp only [KvBlockPool.slot, KvBlockPool.new, List.getD_eq_getElem?_getD,
    List.getElem?_replicate]
  split <;> rfl

/-- A new pool owns nothing. -/
theorem owns_new (cookie : Nat) (layout : KvLayout) :
    Owns (KvBlockPool.new cookie layout) 0 0 := by
  have hslot := slot_new cookie layout
  constructor
  · constructor
    · simp [KvBlockPool.new]
    · exact List.nodup_range
    · intro index
      rw [hslot]
      simp [KvBlockPool.new, BlockSlot.vacant]
    · intro index _
      rw [hslot]
      rfl
    · intro index owner hsome
      rw [hslot] at hsome
      cases hsome
    · intro index owner hsome
      rw [hslot] at hsome
      cases hsome
    · simp [KvBlockPool.new]
    · simp [KvBlockPool.new]
  · refine Accounts.empty fun block => ?_
    unfold KvBlockPool.cell
    rw [hslot]
    split <;> rfl

section Count

variable {pool : KvBlockPool} {exclusive : Multiset (BlockId × SequenceId)}
  {shared held : Multiset BlockId}

end Count

end Riley.PagedKv
