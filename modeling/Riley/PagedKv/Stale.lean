import Riley.PagedKv.Edits

/-!
Stale handles. Generations never fall, and a slot that is free stays free until its generation
rises, so a handle that once lost its slot is refused for good.
-/

namespace Riley.PagedKv

open Outcome Relation Holdings

/-- Some validation of the pool accepts the handle. -/
def Validates (pool : KvBlockPool) (block : BlockId) : Prop :=
  (∃ owner, pool.validateBlock block owner = .ok ()) ∨
    ∃ references, pool.sharedReferences block = .ok references

/-- What every later pool keeps of an earlier one. -/
structure Later (pool pool' : KvBlockPool) : Prop where
  cookie : pool'.cookie = pool.cookie
  slots_length : pool'.slots.length = pool.slots.length
  generation : ∀ index, (pool.slot index).generation ≤ (pool'.slot index).generation
  free : ∀ index, (pool'.slot index).generation = (pool.slot index).generation →
    (pool.slot index).owner = none → (pool'.slot index).owner = none

instance reflLater : Std.Refl Later := ⟨fun _ => ⟨rfl, rfl, fun _ => Nat.le_refl _, fun _ _ h => h⟩⟩

instance isTransLater : IsTrans KvBlockPool Later where
  trans first middle last h h' := {
    cookie := h'.cookie.trans h.cookie
    slots_length := h'.slots_length.trans h.slots_length
    generation := fun index => (h.generation index).trans (h'.generation index)
    free := fun index hsame hfree => by
      have hle := h.generation index
      have hle' := h'.generation index
      exact h'.free index (by omega) (h.free index (by omega) hfree) }

/-- The free list names slots of the pool, and generations are machine integers. -/
structure InRange (pool : KvBlockPool) : Prop where
  free : ∀ index ∈ pool.freeList, index < pool.slots.length
  generation : ∀ index, (pool.slot index).generation ≤ u64Max

section Edit

variable {attaching : Bool} {pool pool' : KvBlockPool} {block : BlockId} {owner : SequenceId}

theorem later_setSlot {index : Nat} {slot : BlockSlot}
    (hgeneration : (pool.slot index).generation ≤ slot.generation)
    (hfree : slot.generation = (pool.slot index).generation →
      (pool.slot index).owner = none → slot.owner = none) :
    Later pool (pool.setSlot index slot) := by
  refine ⟨rfl, pool.slots_length_setSlot index slot, fun other => ?_, fun other => ?_⟩
  · rw [KvBlockPool.slot_setSlot]
    split
    next heq => exact heq.1 ▸ hgeneration
    · exact Nat.le_refl _
  · rw [KvBlockPool.slot_setSlot]
    split
    next heq => exact heq.1 ▸ hfree
    · exact fun _ hnone => hnone

theorem later_dropSidecar (pool : KvBlockPool) (index : Nat) :
    Later pool (pool.dropSidecar index) := by
  obtain ⟨hcookie, -, hlength, -⟩ := pool.dropSidecar_frame index
  refine ⟨hcookie, hlength, fun other => ?_, fun other _ hnone => ?_⟩
  · rw [(pool.dropSidecar_slot index other).1]
  · rw [(pool.dropSidecar_slot index other).2.1]
    exact hnone

theorem PoolEdit.later (h : PoolEdit attaching pool pool') : Later pool pool' := by
  cases h with
  | @allocate _ owner block hrun =>
      obtain ⟨rest, -, -, hgeneration, -, rfl⟩ := allocateBlock_eq_ok hrun
      have hset := @later_setSlot pool block.physicalIndex
        { pool.slot block.physicalIndex with
          generation := block.generation
          owner := some owner }
        (by rw [hgeneration]; exact Nat.le_succ _) fun hsame _ => by
          rw [hgeneration] at hsame
          exact absurd hsame (Nat.succ_ne_self _)
      exact ⟨hset.cookie, hset.slots_length, hset.generation, hset.free⟩
  | hold owner references hlt hlive =>
      refine later_setSlot (Nat.le_refl _) fun _ hnone => ?_
      rw [hnone] at hlive
      cases hlive
  | clear index => exact later_dropSidecar pool index
  | @release index hlt hlive =>
      have hdrop := later_dropSidecar pool index
      have hset : Later (pool.dropSidecar index) _ :=
        @later_setSlot _ index (((pool.dropSidecar index).slot index).withOwner none)
          (Nat.le_refl _) fun _ _ => rfl
      have hboth := trans_of Later hdrop hset
      exact ⟨hboth.cookie, hboth.slots_length, hboth.generation, hboth.free⟩
  | @attach _ block owner metadata _ hrun =>
      obtain ⟨-, rfl⟩ := attachSidecar_eq_ok hrun
      have hset := @later_setSlot pool block.physicalIndex
        { pool.slot block.physicalIndex with sidecar := some metadata } (Nat.le_refl _)
        fun _ hnone => hnone
      exact ⟨hset.cookie, hset.slots_length, hset.generation, hset.free⟩
  | identify next => exact ⟨rfl, rfl, fun _ => Nat.le_refl _, fun _ _ hnone => hnone⟩

theorem Edits.later (h : Edits attaching pool pool') : Later pool pool' := by
  induction h with
  | refl => exact refl_of Later pool
  | tail _ hedit ih => exact trans_of Later ih hedit.later

theorem InRange.setSlot (h : InRange pool) {index : Nat} {slot : BlockSlot}
    (hgeneration : slot.generation ≤ u64Max) :
    ∀ other, ((pool.setSlot index slot).slot other).generation ≤ u64Max := by
  intro other
  rw [KvBlockPool.slot_setSlot]
  split
  · exact hgeneration
  · exact h.generation other

theorem InRange.dropSidecar (h : InRange pool) (index : Nat) :
    InRange (pool.dropSidecar index) := by
  obtain ⟨-, -, hlength, hfree, -⟩ := pool.dropSidecar_frame index
  refine ⟨fun other hmem => ?_, fun other => ?_⟩
  · rw [hlength]
    exact h.free other (hfree ▸ hmem)
  · rw [(pool.dropSidecar_slot index other).1]
    exact h.generation other

theorem PoolEdit.inRange (h : PoolEdit attaching pool pool') (hrange : InRange pool) :
    InRange pool' := by
  cases h with
  | @allocate _ owner block hrun =>
      obtain ⟨rest, hlist, -, -, hle, rfl⟩ := allocateBlock_eq_ok hrun
      refine ⟨fun index hmem => ?_, hrange.setSlot hle⟩
      rw [KvBlockPool.slots_length_setSlot]
      exact hrange.free index (hlist ▸ List.mem_cons_of_mem _ hmem)
  | hold owner references hlt hlive =>
      refine ⟨fun index hmem => ?_, hrange.setSlot (hrange.generation _)⟩
      rw [KvBlockPool.slots_length_setSlot]
      exact hrange.free index hmem
  | clear index => exact hrange.dropSidecar index
  | @release index hlt hlive =>
      have hdrop := hrange.dropSidecar index
      refine ⟨fun other hmem => ?_, hdrop.setSlot (hdrop.generation index)⟩
      rw [(@PoolEdit.release false _ _ hlt hlive).later.slots_length]
      rcases List.mem_cons.mp hmem with rfl | hmem
      · exact hlt
      · exact (pool.dropSidecar_frame index).2.2.1 ▸ hdrop.free other hmem
  | attach _ hrun =>
      obtain ⟨-, rfl⟩ := attachSidecar_eq_ok hrun
      refine ⟨fun index hmem => ?_, hrange.setSlot (hrange.generation _)⟩
      rw [attached, KvBlockPool.slots_length_setSlot]
      exact hrange.free index hmem
  | identify next => exact ⟨hrange.free, hrange.generation⟩

theorem Edits.inRange (h : Edits attaching pool pool') (hrange : InRange pool) : InRange pool' := by
  induction h with
  | refl => exact hrange
  | tail _ hedit ih => exact hedit.inRange ih

theorem inRange_new (cookie : Nat) (layout : KvLayout) :
    InRange (KvBlockPool.new cookie layout) := by
  refine ⟨fun index hmem => ?_, fun index => ?_⟩
  · simpa [KvBlockPool.new] using hmem
  · rw [slot_new]
    exact Nat.zero_le _

/-- A handle that validates names the current allocation of its slot. -/
theorem Validates.live (h : Validates pool block) :
    block.poolCookie = pool.cookie ∧ block.physicalIndex < pool.slots.length ∧
      (pool.slot block.physicalIndex).generation = block.generation ∧
      (pool.slot block.physicalIndex).owner.isSome := by
  rcases h with ⟨owner, hvalid⟩ | ⟨references, hshared⟩
  · obtain ⟨hcookie, hlt, hgeneration, howner⟩ := validateBlock_eq_ok hvalid
    exact ⟨hcookie, hlt, hgeneration, by rw [howner]; rfl⟩
  · obtain ⟨hlt, hblock, hlive, -⟩ := slot_of_shared (sharedReferences_eq_ok_iff.mp hshared)
    refine ⟨?_, hlt, ?_, hlive⟩
    · rw [hblock]
      rfl
    · conv_rhs => rw [hblock]
      rfl

/-- A handle is free once its generation passed or its slot has no owner. -/
theorem cell_eq_free : pool.cell block = .free ↔
    ¬ (block.poolCookie = pool.cookie ∧ block.physicalIndex < pool.slots.length ∧
      (pool.slot block.physicalIndex).generation = block.generation ∧
      (pool.slot block.physicalIndex).owner.isSome) := by
  unfold KvBlockPool.cell BlockSlot.holders
  cases howner : (pool.slot block.physicalIndex).owner with
  | none => simp
  | some owner =>
      simp only [Option.isSome_some, and_true]
      split
      next hcurrent =>
        simp only [hcurrent, and_self, not_true, iff_false]
        split <;> simp
      next hstale => simpa using hstale

end Edit

/-- No later validation accepts a handle whose slot was freed, in any run of public calls and
however often the slot is handed out again. -/
theorem stale_handles {cookie : Nat} {layout : KvLayout} {system₁ system₂ system₃ : KvSystem}
    (hreachable : KvSystem.Reachable false cookie layout system₁)
    (hrun : ReflTransGen (KvSystem.Step false) system₁ system₂)
    (hrun' : ReflTransGen (KvSystem.Step false) system₂ system₃) :
    (∀ block, Validates system₁.pool block → system₂.pool.cell block = .free →
      ¬ Validates system₃.pool block) ∧
    (∀ block other, Validates system₁.pool block → system₂.pool.cell block = .free →
      Validates system₃.pool other → other.physicalIndex = block.physicalIndex →
      block.generation < other.generation) ∧
    (∀ index, u64Max ≤ (system₁.pool.slot index).generation →
      (system₁.pool.slot index).owner = none → (system₃.pool.slot index).owner = none) ∧
    ∀ owner block pool,
      KvBlockPool.allocateBlock owner system₃.pool = .ok block pool →
      (system₃.pool.slot block.physicalIndex).generation < block.generation ∧
        block.generation ≤ u64Max ∧
        (pool.slot block.physicalIndex).generation = block.generation := by
  have hlater := (edits_of_run hrun).later
  have hlater' := (edits_of_run hrun').later
  have hall := (edits_of_run hreachable).trans ((edits_of_run hrun).trans (edits_of_run hrun'))
  have hrange : InRange system₃.pool := Edits.inRange hall (inRange_new cookie layout)
  have hstale : ∀ block, Validates system₁.pool block → system₂.pool.cell block = .free →
      block.generation < (system₃.pool.slot block.physicalIndex).generation ∨
        (system₃.pool.slot block.physicalIndex).generation = block.generation ∧
        (system₃.pool.slot block.physicalIndex).owner = none := by
    intro block hvalid hfree
    obtain ⟨hcookie, hlt, hgeneration, -⟩ := hvalid.live
    have hle := hlater.generation block.physicalIndex
    have hle' := hlater'.generation block.physicalIndex
    by_cases hsame : (system₃.pool.slot block.physicalIndex).generation = block.generation
    · right
      refine ⟨hsame, hlater'.free _ (by omega) ?_⟩
      by_contra howned
      refine cell_eq_free.mp hfree ⟨?_, ?_, by omega, Option.isSome_iff_ne_none.mpr howned⟩
      · rw [hlater.cookie]
        exact hcookie
      · rw [hlater.slots_length]
        exact hlt
    · left
      omega
  refine ⟨fun block hvalid hfree hlast => ?_, fun block other hvalid hfree hother hindex => ?_,
    fun index hexhausted hnone => ?_, fun owner block pool hrun => ?_⟩
  · obtain ⟨-, -, hgeneration, hlive⟩ := hlast.live
    rcases hstale block hvalid hfree with hnewer | ⟨-, hnone⟩
    · omega
    · rw [hnone] at hlive
      cases hlive
  · obtain ⟨-, -, hgeneration, hlive⟩ := hother.live
    rw [hindex] at hgeneration hlive
    rcases hstale block hvalid hfree with hnewer | ⟨-, hnone⟩
    · omega
    · rw [hnone] at hlive
      cases hlive
  · have hle := hlater.generation index
    have hle' := hlater'.generation index
    have hbound := hrange.generation index
    exact hlater'.free index (by omega) (hlater.free index (by omega) hnone)
  · obtain ⟨rest, hlist, -, hgeneration, hle, rfl⟩ := allocateBlock_eq_ok hrun
    have hlt := hrange.free block.physicalIndex (hlist ▸ List.mem_cons_self)
    refine ⟨by omega, hle, ?_⟩
    exact congrArg BlockSlot.generation (KvBlockPool.slot_setSlot_self _ hlt)

/-- A pool of one block with one sequence, by the generation that the block has reached and
whether the sequence has reserved it. -/
def oneBlock (generation : Nat) (reserved : Bool) : KvState where
  seq := {
    SequenceState.new 7 ⟨7, 1⟩ 16 with
    blockIds := if reserved then [⟨7, 0, generation⟩] else []
    validTokens := if reserved then [16] else []
    nextReservationNonce := generation + 1
    pending := if reserved then some ⟨generation, 0, 16⟩ else none }
  pool := {
    KvBlockPool.new 7 ⟨1, 1, 1, 1, Nat.one_pos, one_le_u32Max⟩ with
    slots := [⟨generation, if reserved then some ⟨7, 1⟩ else none, 0, none⟩]
    freeList := if reserved then [] else [0]
    allocatedBlockCount := if reserved then 1 else 0
    nextSequenceId := 2 }

def oneBlockSystem (generation : Nat) (reserved : Bool) : KvSystem where
  pool := (oneBlock generation reserved).pool
  sequences := [some (oneBlock generation reserved).seq]
  tokens := []
  redeemed := []
  owed := 0

/-- One block, reserved, given back by `reset` and reserved again: the second handle validates
and the first does not. -/
theorem stale_handles_reset :
    ReflTransGen (KvSystem.Step false)
        (KvSystem.start 7 ⟨1, 1, 1, 1, Nat.one_pos, one_le_u32Max⟩) (oneBlockSystem 2 true) ∧
      Validates (oneBlockSystem 2 true).pool ⟨7, 0, 2⟩ ∧
      ¬ Validates (oneBlockSystem 2 true).pool ⟨7, 0, 1⟩ := by
  have hcreate : KvSystem.Step false (KvSystem.start 7 ⟨1, 1, 1, 1, Nat.one_pos, one_le_u32Max⟩)
      (oneBlockSystem 0 false) :=
    @KvSystem.Step.create false (KvSystem.start 7 ⟨1, 1, 1, 1, Nat.one_pos, one_le_u32Max⟩) 16 []
      (oneBlock 0 false).seq ((oneBlock 0 false).pool, []) rfl nofun
  have hreserve : KvSystem.Step false (oneBlockSystem 0 false) (oneBlockSystem 1 true) :=
    @KvSystem.Step.call false (oneBlockSystem 0 false) 0 (oneBlock 0 false).seq (.reserveTo 16) rfl
  have hreset : KvSystem.Step false (oneBlockSystem 1 true) (oneBlockSystem 1 false) :=
    @KvSystem.Step.call false (oneBlockSystem 1 true) 0 (oneBlock 1 true).seq .reset rfl
  have hagain : KvSystem.Step false (oneBlockSystem 1 false) (oneBlockSystem 2 true) :=
    @KvSystem.Step.call false (oneBlockSystem 1 false) 0 (oneBlock 1 false).seq (.reserveTo 16) rfl
  have hfirst := ReflTransGen.tail (.single hcreate) hreserve
  obtain ⟨hstale, -⟩ := stale_handles hfirst (.single hreset) (.single hagain)
  refine ⟨(hfirst.tail hreset).tail hagain, .inl ⟨⟨7, 1⟩, rfl⟩, ?_⟩
  exact hstale ⟨7, 0, 1⟩ (.inl ⟨⟨7, 1⟩, rfl⟩) rfl

end Riley.PagedKv
