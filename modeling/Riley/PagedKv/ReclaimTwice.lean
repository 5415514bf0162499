import Riley.PagedKv.Ownership

/-!
Reclaiming a consumed sequence a second time. A private slot remembers its owner, so its second
release finds nothing; a shared block only counts its holders, and the second pass drops holds
that the first one no longer had. The pools here are arbitrary.
-/

namespace Riley.PagedKv

open Outcome Holdings

/-- How many holds a handle has, zero when it names no live shared block. -/
def KvBlockPool.references (pool : KvBlockPool) (block : BlockId) : Nat :=
  match pool.sharedReferences block with
  | .ok references => references
  | .error _ => 0

namespace SequenceReclaimToken

/-- The shared blocks of the consumed sequence, one entry for each hold. -/
def sharedBlocks (token : SequenceReclaimToken) : List BlockId :=
  token.blockIds.take token.sharedBlockCount

end SequenceReclaimToken

/-- Every slot has the owner and the count of holders that it had. -/
def SameClaims (pool pool' : KvBlockPool) : Prop :=
  ∀ index, (pool'.slot index).owner = (pool.slot index).owner ∧
    (pool'.slot index).sharedReferences = (pool.slot index).sharedReferences

/-- A second `reclaim_sequence` with one token releases nothing. -/
def ReclaimRepeats (token : SequenceReclaimToken) (pool : KvBlockPool) : Prop :=
  let first := after (KvBlockPool.reclaimSequence token) pool
  wp (KvBlockPool.reclaimSequence token)
    (fun released last => released = 0 ∧ SameClaims first last)
    (fun _ last => SameClaims first last) first

section Releases

variable {pool pool' : KvBlockPool} {block : BlockId} {owner : SequenceId}

theorem references_eq_cell : pool.references block = (pool.cell block).sharedHolders := by
  unfold KvBlockPool.references
  split
  next references hok =>
    rw [sharedReferences_eq_ok_iff.mp hok]
    rfl
  next error herror =>
    cases hcell : pool.cell block with
    | free => rfl
    | exclusive owner => rfl
    | shared references =>
        rw [sharedReferences_eq_ok_iff.mpr hcell] at herror
        cases herror

theorem references_eq : pool.references block =
    if block.poolCookie = pool.cookie ∧ block.physicalIndex < pool.slots.length ∧
        (pool.slot block.physicalIndex).generation = block.generation ∧
        (pool.slot block.physicalIndex).owner.isSome then
      (pool.slot block.physicalIndex).sharedReferences
    else 0 := by
  rw [references_eq_cell]
  unfold KvBlockPool.cell BlockSlot.holders
  cases howner : (pool.slot block.physicalIndex).owner with
  | none => simp [Cell.sharedHolders]
  | some owner =>
      simp only [Option.isSome_some, and_true]
      split
      · split <;> simp_all [Cell.sharedHolders]
      · rfl

theorem references_of_ok {references : Nat} (h : pool.sharedReferences block = .ok references) :
    pool.references block = references := by
  unfold KvBlockPool.references
  rw [h]

theorem references_pos_of_ok {references : Nat}
    (h : pool.sharedReferences block = .ok references) : 0 < references :=
  (slot_of_shared (sharedReferences_eq_ok_iff.mp h)).2.2.2.2

theorem references_of_error {error : PagedKvError}
    (h : pool.sharedReferences block = .error error) : pool.references block = 0 := by
  unfold KvBlockPool.references
  rw [h]

/-- Slots lose owners and holders, and nothing is handed out. -/
structure Lessens (pool pool' : KvBlockPool) : Prop where
  cookie : pool'.cookie = pool.cookie
  slots_length : pool'.slots.length = pool.slots.length
  generation : ∀ index, (pool'.slot index).generation = (pool.slot index).generation
  owner : ∀ index, (pool'.slot index).owner = (pool.slot index).owner ∨
    (pool'.slot index).owner = none
  references : ∀ block, pool'.references block ≤ pool.references block

theorem Lessens.refl (pool : KvBlockPool) : Lessens pool pool :=
  ⟨rfl, rfl, fun _ => rfl, fun _ => .inl rfl, fun _ => Nat.le_refl _⟩

theorem Lessens.trans {pool'' : KvBlockPool} (h : Lessens pool pool')
    (h' : Lessens pool' pool'') : Lessens pool pool'' where
  cookie := h'.cookie.trans h.cookie
  slots_length := h'.slots_length.trans h.slots_length
  generation index := (h'.generation index).trans (h.generation index)
  owner index := by
    rcases h'.owner index with hsame | hnone
    · rw [hsame]
      exact h.owner index
    · exact .inr hnone
  references block := (h'.references block).trans (h.references block)

/-- The holds are read off the owners and the counts. -/
theorem SameClaims.references (h : SameClaims pool pool') (hless : Lessens pool pool')
    (block : BlockId) : pool'.references block = pool.references block := by
  rw [references_eq, references_eq, hless.cookie, hless.slots_length, hless.generation,
    (h block.physicalIndex).1, (h block.physicalIndex).2]

theorem Lessens.unowned (h : Lessens pool pool') {index : Nat}
    (hnot : (pool.slot index).owner ≠ some owner) : (pool'.slot index).owner ≠ some owner := by
  rcases h.owner index with hsame | hnone
  · rwa [hsame]
  · rw [hnone]
    simp

theorem references_of_unowned (h : (pool.slot block.physicalIndex).owner = none) :
    pool.references block = 0 := by
  rw [references_eq, h]
  simp

theorem lessens_releaseSlot (pool : KvBlockPool) (index : Nat) :
    Lessens pool (pool.releaseSlot index) := by
  obtain ⟨hcookie, -, hlength, -⟩ := pool.dropSidecar_frame index
  have hslots : (pool.releaseSlot index).slots.length = pool.slots.length :=
    (KvBlockPool.slots_length_setSlot _ _ _).trans hlength
  have howner : ∀ other, ((pool.releaseSlot index).slot other).owner =
      (pool.slot other).owner ∨ ((pool.releaseSlot index).slot other).owner = none := by
    intro other
    rw [(slot_releaseSlot pool index other).2.2]
    split
    · exact .inr rfl
    · exact .inl rfl
  refine ⟨hcookie, hslots, fun other => (slot_releaseSlot pool index other).1, howner, ?_⟩
  intro block
  rcases howner block.physicalIndex with hsame | hnone
  · rw [references_eq, references_eq, hsame, hslots, (slot_releaseSlot pool index _).1,
      (slot_releaseSlot pool index _).2.1, show (pool.releaseSlot index).cookie = pool.cookie
        from hcookie]
  · rw [references_of_unowned hnone]
    exact Nat.zero_le _

/-- The scan frees the slots of one owner and keeps the holds on the others. -/
theorem wp_scanOwner (owner : SequenceId) (pool : KvBlockPool) :
    wp (forEach (List.range pool.slots.length).reverse fun index => modify fun pool =>
        if (pool.slot index).owner = some owner then pool.releaseSlot index else pool)
      (fun _ pool' => Lessens pool pool' ∧
        (∀ index, (pool'.slot index).owner ≠ some owner) ∧
        ∀ block, pool'.references block =
          if (pool.slot block.physicalIndex).owner = some owner then 0
          else pool.references block)
      (fun (_ : PagedKvError) _ => False) pool := by
  apply wp_forEach (fun rest pool' => Lessens pool pool' ∧
    (∀ index, index ∉ rest → (pool'.slot index).owner ≠ some owner) ∧
    ∀ block, (pool.slot block.physicalIndex).owner ≠ some owner →
      pool'.references block = pool.references block)
  · rintro index rest pool' ⟨hless, hvisited, hkept⟩
    rw [wp_modify]
    split
    next howned =>
      refine ⟨hless.trans (lessens_releaseSlot pool' index), ?_, ?_⟩
      · intro other hother
        rw [(slot_releaseSlot pool' index other).2.2]
        split
        · simp
        next hne => exact hvisited other (List.not_mem_cons_of_ne_of_not_mem hne hother)
      · intro block hblock
        have hne : block.physicalIndex ≠ index := by
          intro heq
          rw [← heq] at howned
          exact hless.unowned hblock howned
        obtain ⟨hgeneration, hreferences, howner⟩ :=
          slot_releaseSlot pool' index block.physicalIndex
        rw [if_neg hne] at howner
        have hframe := lessens_releaseSlot pool' index
        rw [references_eq, hframe.cookie, hframe.slots_length, hgeneration, hreferences, howner,
          ← references_eq]
        exact hkept block hblock
    next hfree =>
      refine ⟨hless, fun other hother => ?_, hkept⟩
      by_cases heq : other = index
      · subst heq
        exact hfree
      · exact hvisited other (List.not_mem_cons_of_ne_of_not_mem heq hother)
  · rintro pool' ⟨hless, hvisited, hkept⟩
    refine ⟨hless, fun index => hvisited index List.not_mem_nil, fun block => ?_⟩
    split
    next howned =>
      rcases hless.owner block.physicalIndex with hsame | hnone
      · exact absurd (hsame.trans howned) (hvisited _ List.not_mem_nil)
      · exact references_of_unowned hnone
    next hfree => exact hkept block hfree
  · refine ⟨Lessens.refl pool, fun index hout => ?_, fun _ _ => rfl⟩
    rw [List.mem_reverse, List.mem_range, Nat.not_lt] at hout
    rw [slot_of_ge hout]
    simp [BlockSlot.vacant]

theorem DropsHold.lessens {references : Nat} (h : DropsHold pool block references pool')
    (hupdate : pool'.references = Function.update pool.references block references)
    (hle : references ≤ pool.references block) : Lessens pool pool' := by
  have hreferences (other : BlockId) : pool'.references other ≤ pool.references other := by
    rw [hupdate]
    by_cases heq : other = block
    · subst heq
      rwa [Function.update_self]
    · rw [Function.update_of_ne heq]
  by_cases hlast : references = 0
  · have hv := h.last hlast
    refine ⟨hv.cookie, hv.slots_length, fun index => ?_, fun index => ?_, hreferences⟩
    · by_cases heq : index = block.physicalIndex
      · subst heq
        exact hv.slot.2.2
      · exact (hv.other index heq).1
    · by_cases heq : index = block.physicalIndex
      · subst heq
        exact .inr hv.slot.1
      · exact .inl (hv.other index heq).2.1
  · have hmore := h.more hlast
    refine ⟨by rw [hmore]; rfl, by rw [hmore]; simp, fun index => ?_, fun index => ?_, hreferences⟩
    · rw [hmore, KvBlockPool.slot_setSlot]
      split
      next heq =>
        rw [heq.1]
        rfl
      · rfl
    · rw [hmore, KvBlockPool.slot_setSlot]
      split
      next heq =>
        rw [heq.1]
        exact .inl rfl
      · exact .inl rfl

/-- Dropping a hold takes one from the count of its block and nothing from the others. -/
theorem wp_dropHold (block : BlockId) (pool : KvBlockPool) :
    wp (KvBlockPool.releaseSharedBlock block)
      (fun _ pool' => Lessens pool pool' ∧ 0 < pool.references block ∧
        pool'.references =
          Function.update pool.references block (pool.references block - 1))
      (fun _ pool' => pool' = pool ∧ pool.references block = 0) pool := by
  cases hreferences : pool.sharedReferences block with
  | error error =>
      unfold KvBlockPool.releaseSharedBlock
      apply wp_read
      rw [hreferences]
      exact ⟨rfl, references_of_error hreferences⟩
  | ok references =>
      have hpos := references_pos_of_ok hreferences
      obtain ⟨references, rfl⟩ := Nat.exists_eq_succ_of_ne_zero (Nat.ne_of_gt hpos)
      refine wp_mono (wp_releaseSharedBlock (sharedReferences_eq_ok_iff.mp hreferences)) ?_
        fun _ _ hfalse => hfalse.elim
      rintro _ pool' hdrops
      rw [references_of_ok hreferences]
      have hupdate : pool'.references = Function.update pool.references block references := by
        funext other
        rw [references_eq_cell, hdrops.cell]
        by_cases heq : other = block
        · subst heq
          rw [Function.update_self, Function.update_self]
          split
          next hzero => exact hzero.symm
          · rfl
        · rw [Function.update_of_ne heq, Function.update_of_ne heq, references_eq_cell]
      refine ⟨hdrops.lessens hupdate ?_, hpos, hupdate⟩
      rw [references_of_ok hreferences]
      exact Nat.le_succ _

/-- Dropping a list of holds takes from each block as many as it is listed, or stops at a
block that is spent. -/
theorem wp_dropHolds (blocks : List BlockId) (pool : KvBlockPool) :
    wp (forEach blocks KvBlockPool.releaseSharedBlock)
      (fun _ pool' => Lessens pool pool' ∧
        ∀ block, pool'.references block + blocks.count block = pool.references block)
      (fun _ pool' => Lessens pool pool' ∧ (∃ block ∈ blocks, pool'.references block = 0) ∧
        ∃ block ∈ blocks, pool.references block < blocks.count block) pool := by
  induction blocks generalizing pool with
  | nil => exact ⟨Lessens.refl pool, fun _ => rfl⟩
  | cons block rest ih =>
      rw [forEach]
      refine wp_call (wp_dropHold block pool) ?_ ?_
      · rintro _ middle ⟨hless, hpos, hreferences⟩
        refine wp_mono (ih middle) ?_ ?_
        · rintro _ pool' ⟨hless', hcounts⟩
          refine ⟨hless.trans hless', fun other => ?_⟩
          have hother := hcounts other
          rw [hreferences] at hother
          by_cases heq : other = block
          · subst heq
            rw [Function.update_self] at hother
            rw [List.count_cons_self]
            omega
          · rw [Function.update_of_ne heq] at hother
            rw [List.count_cons_of_ne (Ne.symm heq)]
            exact hother
        · rintro _ pool' ⟨hless', ⟨spent, hspent, hzero⟩, ⟨short, hshort, hcount⟩⟩
          refine ⟨hless.trans hless', ⟨spent, List.mem_cons_of_mem _ hspent, hzero⟩,
            short, List.mem_cons_of_mem _ hshort, ?_⟩
          rw [hreferences] at hcount
          by_cases heq : short = block
          · subst heq
            rw [Function.update_self] at hcount
            rw [List.count_cons_self]
            omega
          · rw [Function.update_of_ne heq] at hcount
            rw [List.count_cons_of_ne (Ne.symm heq)]
            exact hcount
      · rintro _ pool' ⟨rfl, hzero⟩
        refine ⟨Lessens.refl _, ⟨block, List.mem_cons_self, hzero⟩, block,
          List.mem_cons_self, ?_⟩
        rw [hzero, List.count_cons_self]
        exact Nat.succ_pos _

/-- The check of all shared blocks changes nothing. -/
theorem wp_checkHolds (blocks : List BlockId) (pool : KvBlockPool) :
    wp (forEach blocks fun block => do
        let _ ← fromExcept (pool.sharedReferences block))
      (fun _ pool' => pool' = pool ∧ ∀ block ∈ blocks, 0 < pool.references block)
      (fun _ pool' => pool' = pool ∧ ∃ block ∈ blocks, pool.references block = 0) pool := by
  induction blocks with
  | nil => exact ⟨rfl, fun _ hblock => absurd hblock List.not_mem_nil⟩
  | cons block rest ih =>
      rw [forEach]
      cases hreferences : pool.sharedReferences block with
      | error error => exact ⟨rfl, block, List.mem_cons_self, references_of_error hreferences⟩
      | ok references =>
          refine wp_mono ih ?_ ?_
          · rintro _ pool' ⟨rfl, hall⟩
            refine ⟨rfl, List.forall_mem_cons.mpr ⟨?_, hall⟩⟩
            rw [references_of_ok hreferences]
            exact references_pos_of_ok hreferences
          · rintro _ pool' ⟨rfl, spent, hspent, hzero⟩
            exact ⟨rfl, spent, List.mem_cons_of_mem _ hspent, hzero⟩

variable {token : SequenceReclaimToken}

/-- A block of the token that the first pass does not leave alive. -/
def Spent (token : SequenceReclaimToken) (pool : KvBlockPool) (block : BlockId) : Prop :=
  (pool.slot block.physicalIndex).owner = some token.owner ∨
    pool.references block ≤ token.sharedBlocks.count block

/-- What reclaiming does to an arbitrary pool. -/
theorem wp_reclaim (token : SequenceReclaimToken) (pool : KvBlockPool) :
    wp (KvBlockPool.reclaimSequence token)
      (fun released pool' => Lessens pool pool' ∧
        (∀ index, (pool'.slot index).owner ≠ some token.owner) ∧
        ((∀ index, (pool.slot index).owner ≠ some token.owner) → released = 0) ∧
        ∀ block, pool'.references block + token.sharedBlocks.count block =
          if (pool.slot block.physicalIndex).owner = some token.owner then 0
          else pool.references block)
      (fun _ pool' => Lessens pool pool' ∧
        (token.owner.poolCookie ≠ pool.cookie ∨
          (∃ block ∈ token.sharedBlocks, pool'.references block = 0) ∧
          ∃ block ∈ token.sharedBlocks, Spent token pool block)) pool := by
  unfold KvBlockPool.reclaimSequence
  apply wp_read
  apply wp_check fun hforeign => ⟨Lessens.refl pool, .inl hforeign⟩
  intro _
  refine wp_call (wp_checkHolds token.sharedBlocks pool) ?_ ?_
  · rintro _ _ ⟨rfl, hlive⟩
    refine wp_call (wp_scanOwner token.owner _) ?_ fun _ _ hfalse => hfalse.elim
    rintro _ scanned ⟨hscan, hunowned, hscanned⟩
    refine wp_call (wp_dropHolds token.sharedBlocks scanned) ?_ ?_
    · rintro _ pool' ⟨hdrop, hcounts⟩
      refine ⟨hscan.trans hdrop, fun index => hdrop.unowned (hunowned index), ?_, ?_⟩
      · intro hnone
        rw [List.filter_eq_nil_iff.mpr fun index _ => by simpa using hnone index]
        rfl
      · intro block
        rw [hcounts, hscanned]
    · rintro _ pool' ⟨hdrop, hzero, short, hshort, hcount⟩
      refine ⟨hscan.trans hdrop, .inr ⟨hzero, short, hshort, ?_⟩⟩
      rw [hscanned] at hcount
      split at hcount
      next howned => exact .inl howned
      · exact .inr hcount.le
  · rintro _ _ ⟨rfl, spent, hspent, hzero⟩
    exact ⟨Lessens.refl _, .inr ⟨⟨spent, hspent, hzero⟩, spent, hspent, .inr (by omega)⟩⟩

/-- A token of another pool, or one with a spent block, is refused. -/
theorem wp_reclaim_refused (h : token.owner.poolCookie ≠ pool.cookie ∨
    ∃ block ∈ token.sharedBlocks, pool.references block = 0) :
    wp (KvBlockPool.reclaimSequence token) (fun _ _ => False) (fun _ pool' => pool' = pool)
      pool := by
  unfold KvBlockPool.reclaimSequence
  apply wp_read
  refine wp_check (fun _ => rfl) fun hown => ?_
  obtain ⟨block, hblock, hzero⟩ := h.resolve_left hown
  refine wp_call (wp_checkHolds token.sharedBlocks pool) ?_ fun _ _ hrefused => hrefused.1
  rintro _ _ ⟨rfl, hlive⟩
  exact absurd (hlive block hblock) (by omega)

/-- A token without shared blocks whose owner holds no slot frees nothing. -/
theorem wp_reclaim_private (hshared : token.sharedBlocks = [])
    (hunowned : ∀ index, (pool.slot index).owner ≠ some token.owner) :
    wp (KvBlockPool.reclaimSequence token) (fun released pool' => released = 0 ∧ pool' = pool)
      (fun _ pool' => pool' = pool) pool := by
  unfold KvBlockPool.reclaimSequence
  apply wp_read
  refine wp_check (fun _ => rfl) fun hown => ?_
  change wp (do
    forEach token.sharedBlocks fun block => do
      let _ ← fromExcept (pool.sharedReferences block)
    _) _ _ _
  rw [hshared]
  apply wp_seq
  apply wp_seq
  apply wp_forEach (fun _ pool' => pool' = pool)
  · rintro index rest _ rfl
    rw [wp_modify, if_neg (hunowned index)]
  · rintro _ rfl
    change wp (do
      forEach token.sharedBlocks KvBlockPool.releaseSharedBlock
      _) _ _ _
    rw [hshared]
    refine ⟨?_, rfl⟩
    rw [List.filter_eq_nil_iff.mpr fun index _ => by simpa using hunowned index]
    rfl
  · rfl

/-- The first pass leaves blocks that are held more often than the token holds them. -/
theorem after_reclaim_live (hown : token.owner.poolCookie = pool.cookie)
    (hlive : ∀ block ∈ token.sharedBlocks, ¬ Spent token pool block) :
    Lessens pool (after (KvBlockPool.reclaimSequence token) pool) ∧
      (∀ index, ((after (KvBlockPool.reclaimSequence token) pool).slot index).owner ≠
        some token.owner) ∧
      ∀ block ∈ token.sharedBlocks,
        0 < (after (KvBlockPool.reclaimSequence token) pool).references block := by
  refine @after_of_wp _ _ _ _ (fun first => Lessens pool first ∧
    (∀ index, (first.slot index).owner ≠ some token.owner) ∧
    ∀ block ∈ token.sharedBlocks, 0 < first.references block) _
    (wp_mono (wp_reclaim token pool) ?_ ?_)
  · rintro _ first ⟨hless, hunowned, -, hcounts⟩
    refine ⟨hless, hunowned, fun block hblock => ?_⟩
    obtain ⟨howner, hlarge⟩ := not_or.mp (hlive block hblock)
    have hcount := hcounts block
    rw [if_neg howner] at hcount
    omega
  · rintro _ first ⟨-, hforeign | ⟨-, block, hblock, hspent⟩⟩
    · exact absurd hown hforeign
    · exact absurd hspent (hlive block hblock)

/-- The first pass leaves a token that the second refuses, or no shared block to drop. -/
theorem after_reclaim_spent (h : token.owner.poolCookie ≠ pool.cookie ∨
    token.sharedBlocks = [] ∨ ∃ block ∈ token.sharedBlocks, Spent token pool block) :
    (token.owner.poolCookie ≠ (after (KvBlockPool.reclaimSequence token) pool).cookie ∨
        ∃ block ∈ token.sharedBlocks,
          (after (KvBlockPool.reclaimSequence token) pool).references block = 0) ∨
      token.sharedBlocks = [] ∧
        ∀ index, ((after (KvBlockPool.reclaimSequence token) pool).slot index).owner ≠
          some token.owner := by
  refine @after_of_wp _ _ _ _ (fun first => (token.owner.poolCookie ≠ first.cookie ∨
    ∃ block ∈ token.sharedBlocks, first.references block = 0) ∨ token.sharedBlocks = [] ∧
      ∀ index, (first.slot index).owner ≠ some token.owner) _
    (wp_mono (wp_reclaim token pool) ?_ ?_)
  · rintro _ first ⟨hless, hunowned, -, hcounts⟩
    rcases h with hforeign | hnone | ⟨block, hblock, hspent⟩
    · rw [hless.cookie]
      exact .inl (.inl hforeign)
    · exact .inr ⟨hnone, hunowned⟩
    · refine .inl (.inr ⟨block, hblock, ?_⟩)
      have hcount := hcounts block
      split at hcount
      · omega
      next howner =>
        have hle := hspent.resolve_left howner
        omega
  · rintro _ first ⟨hless, hforeign | ⟨hzero, -⟩⟩
    · rw [hless.cookie]
      exact .inl (.inl hforeign)
    · exact .inl (.inr hzero)

/-- Reclaiming twice is reclaiming once exactly when the token is foreign, has no shared
block, or has one that the first pass does not leave alive. -/
theorem reclaim_repeats_iff (token : SequenceReclaimToken) (pool : KvBlockPool) :
    ReclaimRepeats token pool ↔
      token.owner.poolCookie ≠ pool.cookie ∨ token.sharedBlocks = [] ∨
        ∃ block ∈ token.sharedBlocks,
          (pool.slot block.physicalIndex).owner = some token.owner ∨
            pool.references block ≤ token.sharedBlocks.count block := by
  unfold ReclaimRepeats
  constructor
  · intro hrepeats
    by_contra hnone
    push Not at hnone
    obtain ⟨hown, hsome, hlive⟩ := hnone
    obtain ⟨hless, hunowned, hpos⟩ := after_reclaim_live hown fun block hblock hspent =>
      hspent.elim (hlive block hblock).1 (Nat.not_le.mpr (hlive block hblock).2)
    generalize after (KvBlockPool.reclaimSequence token) pool = first at *
    obtain ⟨block, hblock⟩ := List.exists_mem_of_ne_nil _ hsome
    refine @after_of_wp _ _ _ first (fun _ => False) _
      (wp_mono (wp_and hrepeats (wp_reclaim token first)) ?_ ?_)
    · rintro _ last ⟨⟨-, hsame⟩, hless', -, -, hcounts⟩
      have hcount := hcounts block
      rw [if_neg (hunowned _), hsame.references hless'] at hcount
      have hlisted := List.count_pos_iff.mpr hblock
      omega
    · rintro _ last ⟨hsame, hless', hforeign | ⟨⟨spent, hspent, hzero⟩, -⟩⟩
      · exact hforeign (hown.trans hless.cookie.symm)
      · rw [hsame.references hless'] at hzero
        exact absurd (hpos spent hspent) (by omega)
  · intro hcondition
    have hfirst := after_reclaim_spent hcondition
    generalize after (KvBlockPool.reclaimSequence token) pool = first at *
    have hself : SameClaims first first := fun _ => ⟨rfl, rfl⟩
    rcases hfirst with hrefused | ⟨hnone, hunowned⟩
    · refine wp_mono (wp_reclaim_refused hrefused) (fun _ _ hfalse => hfalse.elim) ?_
      rintro _ _ rfl
      exact hself
    · refine wp_mono (wp_reclaim_private hnone hunowned) ?_ ?_
      · rintro _ _ ⟨hzero, rfl⟩
        exact ⟨hzero, hself⟩
      · rintro _ _ rfl
        exact hself

end Releases

/-- One sequence fills a block and shares it with the caller of `share_next_block`. -/
def fillAndShare : KvM BlockId := do
  let reservation ← SequenceState.reserveTo 16
  let _ ← SequenceState.commit reservation
  SequenceState.shareNextBlock

/-- The state after `fillAndShare` on a pool of two blocks: the sequence and the caller hold
the first one. -/
def filledAndShared : KvState where
  seq := {
    SequenceState.new 7 ⟨7, 1⟩ 32 with
    blockIds := [⟨7, 0, 1⟩]
    validTokens := [16]
    sharedBlockCount := 1
    logicalLength := 16
    nextReservationNonce := 2 }
  pool := {
    KvBlockPool.new 7 ⟨1, 2, 1, 1, Nat.two_pos, two_le_u32Max⟩ with
    slots := [⟨1, some ⟨7, 0⟩, 2, none⟩, BlockSlot.vacant]
    freeList := [1]
    allocatedBlockCount := 1
    nextSequenceId := 2 }

/-- The second pass drops the hold of the caller, and the block is free under it. -/
theorem reclaim_drops_foreign_hold :
    fillAndShare ⟨SequenceState.new 7 ⟨7, 1⟩ 32,
        { KvBlockPool.new 7 ⟨1, 2, 1, 1, Nat.two_pos, two_le_u32Max⟩ with nextSequenceId := 2 }⟩ =
      .ok ⟨7, 0, 1⟩ filledAndShared ∧
    ¬ ReclaimRepeats filledAndShared.seq.abandonForReclaim filledAndShared.pool := by
  refine ⟨rfl, fun hrepeats => ?_⟩
  obtain ⟨-, hsame⟩ := hrepeats
  exact absurd (hsame 0).2 (by decide)

end Riley.PagedKv
