import Riley.PagedKv.SequenceSpec

/-!
Reclaiming a consumed sequence. The scan frees every slot of its owner, which
are the private blocks of its last table and no others.
-/

namespace Riley.PagedKv

open Outcome

namespace SequenceReclaimToken

def exclusiveHolds (token : SequenceReclaimToken) : Multiset (BlockId × SequenceId) :=
  ((token.blockIds.drop token.sharedBlockCount).map fun block => (block, token.owner) :
    List (BlockId × SequenceId))

def sharedHolds (token : SequenceReclaimToken) : Multiset BlockId :=
  (token.blockIds.take token.sharedBlockCount : List BlockId)

end SequenceReclaimToken

variable {pool : KvBlockPool} {exclusive : Multiset (BlockId × SequenceId)}
  {shared : Multiset BlockId} {owner : SequenceId}

/-- The holds left when the owner keeps only the slots still to be visited. -/
def holdsBefore (owner : SequenceId) (rest : List Nat)
    (exclusive : Multiset (BlockId × SequenceId)) : Multiset (BlockId × SequenceId) :=
  exclusive.filter fun hold => hold.2 = owner → hold.1.physicalIndex ∈ rest

theorem mem_holdsBefore {rest : List Nat} {hold : BlockId × SequenceId} :
    hold ∈ holdsBefore owner rest exclusive ↔
      hold ∈ exclusive ∧ (hold.2 = owner → hold.1.physicalIndex ∈ rest) :=
  Multiset.mem_filter

theorem holdsBefore_nodup {rest : List Nat} (h : exclusive.Nodup) :
    (holdsBefore owner rest exclusive).Nodup :=
  h.filter _

/-- A slot of the owner is one private hold. -/
theorem Owns.mem_of_slot (h : Owns pool exclusive shared)
    (hpos : owner.value ≠ sharedBlockOwner) {index : Nat}
    (hslot : (pool.slot index).owner = some owner) :
    (pool.handle index, owner) ∈ exclusive := by
  have hrefs : (pool.slot index).sharedReferences = 0 :=
    not_not.mp ((h.ok.shared_iff index owner hslot).not.mp hpos)
  have hlt : index < pool.slots.length := by
    apply Nat.lt_of_not_le
    intro hge
    unfold KvBlockPool.slot at hslot
    rw [List.getD_eq_getElem?_getD, List.getElem?_eq_none hge] at hslot
    cases hslot
  apply h.accounts.mem_exclusive.mpr
  rw [cell_handle hlt]
  unfold BlockSlot.holders
  rw [hslot]
  exact if_pos hrefs

/-- Visiting one slot takes at most one hold off the books. -/
theorem Owns.visitSlot {index : Nat} {rest : List Nat} {held : Multiset (BlockId × SequenceId)}
    (h : Owns pool (holdsBefore owner (index :: rest) held) shared)
    (hpos : owner.value ≠ sharedBlockOwner) (hfresh : index ∉ rest) (hnodup : held.Nodup) :
    Owns (if (pool.slot index).owner = some owner then pool.releaseSlot index else pool)
      (holdsBefore owner rest held) shared ∧
    Advances pool
      (if (pool.slot index).owner = some owner then pool.releaseSlot index else pool) := by
  split_ifs with hslot
  · have hmem := h.mem_of_slot hpos hslot
    have hsplit : holdsBefore owner (index :: rest) held =
        (pool.handle index, owner) ::ₘ holdsBefore owner rest held := by
      have hout : (pool.handle index, owner) ∉ holdsBefore owner rest held :=
        fun hin => hfresh ((mem_holdsBefore.mp hin).2 rfl)
      have hcons := Multiset.nodup_cons.mpr ⟨hout, holdsBefore_nodup hnodup⟩
      apply (Multiset.Nodup.ext (holdsBefore_nodup hnodup) hcons).mpr
      rintro ⟨block, other⟩
      rw [Multiset.mem_cons, mem_holdsBefore]
      constructor
      · rintro ⟨hheld, hvisit⟩
        rcases Classical.em ((block, other) = (pool.handle index, owner)) with heq | hne
        · exact Or.inl heq
        · right
          apply mem_holdsBefore.mpr
          refine ⟨hheld, fun hsame => ?_⟩
          rcases List.mem_cons.mp (hvisit hsame) with hindex | hrest
          · exfalso
            apply hne
            have hblock := (h.handle_of_exclusive (mem_holdsBefore.mpr ⟨hheld, hvisit⟩)).2.1
            rw [hblock]
            exact Prod.ext (congrArg pool.handle hindex) hsame
          · exact hrest
      · rintro (heq | hin)
        · rw [heq]
          exact mem_holdsBefore.mp hmem
        · obtain ⟨hheld, hvisit⟩ := mem_holdsBefore.mp hin
          exact ⟨hheld, fun hsame => List.mem_cons_of_mem _ (hvisit hsame)⟩
    rw [hsplit] at h
    exact ⟨h.releaseSlot.1, h.releaseSlot.2.advances⟩
  · have hsame : holdsBefore owner (index :: rest) held = holdsBefore owner rest held := by
      apply Multiset.filter_congr
      rintro ⟨block, other⟩ hheld
      constructor
      · intro hvisit heq
        rcases List.mem_cons.mp (hvisit heq) with hindex | hrest
        · exfalso
          apply hslot
          have howner := (h.handle_of_exclusive (mem_holdsBefore.mpr ⟨hheld, hvisit⟩)).2.2.1
          rw [← hindex, howner]
          exact congrArg some heq
        · exact hrest
      · exact fun hvisit heq => List.mem_cons_of_mem _ (hvisit heq)
    rw [hsame] at h
    exact ⟨h, Advances.refl pool⟩

/-- The scan over all slots leaves the holds of the other owners. -/
theorem wp_scanSlots {ok : Unit → KvBlockPool → Prop} {err : PagedKvError → KvBlockPool → Prop}
    (h : Owns pool exclusive shared) (hpos : owner.value ≠ sharedBlockOwner)
    (hok : ∀ pool', Owns pool' (exclusive.filter fun hold => hold.2 ≠ owner) shared →
      Advances pool pool' → ok () pool') :
    wp (forEach (List.range pool.slots.length).reverse fun index => modify fun pool =>
        if (pool.slot index).owner = some owner then pool.releaseSlot index else pool)
      ok err pool := by
  apply wp_forEach (fun rest pool' => rest.Nodup ∧ Advances pool pool' ∧
    Owns pool' (holdsBefore owner rest exclusive) shared)
  · rintro index rest pool' ⟨hrest, hadv, howns⟩
    rw [wp_modify]
    obtain ⟨hfresh, hnodup⟩ := List.nodup_cons.mp hrest
    obtain ⟨howns', hadv'⟩ := howns.visitSlot hpos hfresh h.accounts.exclusive_nodup
    exact ⟨hnodup, hadv.trans hadv', howns'⟩
  · rintro pool' ⟨_, hadv, howns⟩
    apply hok pool' _ hadv
    have hnone : holdsBefore owner [] exclusive =
        exclusive.filter fun hold => hold.2 ≠ owner := by
      apply Multiset.filter_congr
      intro hold _
      simp only [List.not_mem_nil, imp_false, ne_eq]
    rwa [hnone] at howns
  · refine ⟨List.nodup_reverse.mpr List.nodup_range, Advances.refl pool, ?_⟩
    have hall : holdsBefore owner (List.range pool.slots.length).reverse exclusive =
        exclusive := by
      apply Multiset.filter_eq_self.mpr
      rintro ⟨block, other⟩ hheld _
      exact List.mem_reverse.mpr (List.mem_range.mpr (h.handle_of_exclusive hheld).1)
    rwa [hall]

/-- Reclaiming gives back every hold of the consumed sequence. -/
theorem wp_reclaimSequence {token : SequenceReclaimToken}
    (h : Owns pool (token.exclusiveHolds + exclusive) (token.sharedHolds + shared))
    (hcookie : token.owner.poolCookie = pool.cookie)
    (hpos : token.owner.value ≠ sharedBlockOwner)
    (hothers : ∀ hold ∈ exclusive, hold.2 ≠ token.owner) :
    wp (KvBlockPool.reclaimSequence token)
      (fun _ pool' => Owns pool' exclusive shared ∧ Advances pool pool')
      (fun _ _ => False) pool := by
  unfold KvBlockPool.reclaimSequence
  apply wp_read
  apply wp_passes (not_not.mpr hcookie)
  apply wp_seq
  apply wp_forEach (fun rest pool' => pool' = pool ∧
    ∀ block ∈ rest, block ∈ token.blockIds.take token.sharedBlockCount)
  · rintro block rest pool' ⟨rfl, hrest⟩
    have hmem : block ∈ token.sharedHolds + shared :=
      Multiset.mem_add.mpr (Or.inl (Multiset.mem_coe.mpr (hrest block List.mem_cons_self)))
    apply wp_ofOk (h.sharedReferences_ok hmem)
    exact ⟨rfl, fun other hother => hrest other (List.mem_cons_of_mem _ hother)⟩
  · rintro pool' ⟨rfl, _⟩
    apply wp_seq
    apply wp_scanSlots h hpos
    intro scanned howns hadv
    have hkept : (token.exclusiveHolds + exclusive).filter (fun hold => hold.2 ≠ token.owner) =
        exclusive := by
      rw [Multiset.filter_add, Multiset.filter_eq_self.mpr hothers]
      have hnone : token.exclusiveHolds.filter (fun hold => hold.2 ≠ token.owner) = 0 := by
        apply Multiset.filter_eq_nil.mpr
        intro hold hhold
        obtain ⟨block, _, rfl⟩ := List.mem_map.mp (Multiset.mem_coe.mp hhold)
        exact fun hne => hne rfl
      rw [hnone, zero_add]
    rw [hkept] at howns
    apply wp_seq
    apply wp_forEach (fun rest pool'' => Advances pool' pool'' ∧
      Owns pool'' exclusive ((rest : Multiset BlockId) + shared))
    · rintro block rest pool'' ⟨hadv', howns'⟩
      rw [← Multiset.cons_coe, Multiset.cons_add] at howns'
      apply wp_ok_mono (wp_mono howns'.releaseSharedBlock (fun _ _ hok => hok)
        fun _ _ hfalse => hfalse)
      rintro _ released ⟨howns'', hadv'', _⟩
      exact ⟨hadv'.trans hadv'', howns''⟩
    · rintro pool'' ⟨hadv', howns'⟩
      rw [wp_pure]
      rw [Multiset.coe_nil, zero_add] at howns'
      exact ⟨howns', hadv'⟩
    · exact ⟨hadv, howns⟩
  · exact ⟨rfl, fun _ hblock => hblock⟩

end Riley.PagedKv
