import Mathlib.Data.List.Sort
import Riley.Tokenizer.Bpe

/-!
The merge engine merges neighbours in the order of their ranks: the heap always
has an entry for every pair of neighbours with a rank, so the first entry that is
not out of date is the first of the pairs of the least rank.
-/

namespace Riley.Tokenizer

open Utf8 (Text)

section Order

theorem Candidate.le_iff {first second : Candidate} : first.le second = true ↔
    first.rank < second.rank ∨ first.rank = second.rank ∧
      (first.position < second.position ∨ first.position = second.position ∧
        (first.left < second.left ∨ first.left = second.left ∧ first.right ≤ second.right)) := by
  simp [Candidate.le]

theorem Candidate.le_refl (candidate : Candidate) : candidate.le candidate = true := by
  rw [Candidate.le_iff]
  omega

theorem Candidate.le_total (first second : Candidate) (h : first.le second = false) :
    second.le first = true := by
  rw [← Bool.not_eq_true, Candidate.le_iff] at h
  rw [Candidate.le_iff]
  omega

theorem Candidate.le_trans (first second third : Candidate) (h : first.le second = true)
    (h' : second.le third = true) : first.le third = true := by
  rw [Candidate.le_iff] at *
  omega

end Order

/-- The text of a node. -/
def textAt (nodes : List BpeNode) (index : Nat) : Text :=
  (nodes[index]?.map BpeNode.text).getD []

/-- The nodes of the list, in order, are those at `live`. -/
structure Linked (nodes : List BpeNode) (live : List Nat) : Prop where
  sorted : live.Pairwise (· < ·)
  node : ∀ before index after, live = before ++ index :: after →
    nodes[index]? = some ⟨textAt nodes index, before.getLast?, after.head?, true⟩
  dead : ∀ index node, nodes[index]? = some node → node.alive = true → index ∈ live

/-- The rank of two symbols. -/
def symbolRank (ranks : MergeRanks) (left right : Text) : Option Nat := ranks.lookup (left, right)

variable {nodes : List BpeNode} {ranks : MergeRanks} {live : List Nat}

theorem Linked.exists_node (h : Linked nodes live) {index : Nat} (hindex : index ∈ live) :
    ∃ node, nodes[index]? = some node ∧ node.alive = true ∧ node.text = textAt nodes index := by
  obtain ⟨before, after, hsplit⟩ := List.append_of_mem hindex
  exact ⟨_, h.node before index after hsplit, rfl, rfl⟩

theorem Linked.pairRank_eq (h : Linked nodes live) {left right : Nat} (hleft : left ∈ live)
    (hright : right ∈ live) :
    pairRank nodes ranks left right =
      symbolRank ranks (textAt nodes left) (textAt nodes right) := by
  obtain ⟨first, hfirst, _, htext⟩ := h.exists_node hleft
  obtain ⟨second, hsecond, _, htext'⟩ := h.exists_node hright
  unfold pairRank
  rw [hfirst, hsecond, ← htext, ← htext']
  rfl

/-- An entry that is not out of date is a pair of neighbours. -/
theorem Linked.split_of_current (h : Linked nodes live) {rank left right : Nat}
    (hcurrent : candidateIsCurrent nodes ranks rank left right = true) :
    ∃ before after, live = before ++ left :: right :: after ∧
      pairRank nodes ranks left right = some rank := by
  unfold candidateIsCurrent at hcurrent
  rw [Bool.and_eq_true, Bool.and_eq_true, decide_eq_true_eq] at hcurrent
  obtain ⟨⟨hleft, _⟩, hrank⟩ := hcurrent
  obtain ⟨node, hnode, halive⟩ := (Option.any_eq_true _ _).mp hleft
  rw [Bool.and_eq_true, decide_eq_true_eq] at halive
  obtain ⟨before, after, hsplit⟩ := List.append_of_mem (h.dead left node hnode halive.1)
  have hnext := h.node before left after hsplit
  rw [hnode] at hnext
  rw [Option.some.inj hnext] at halive
  obtain ⟨rest, hafter⟩ := List.head?_eq_some_iff.mp halive.2
  exact ⟨before, rest, by rw [hsplit, hafter], hrank⟩

theorem Linked.isCurrent (h : Linked nodes live) {before after : List Nat} {left right rank : Nat}
    (hsplit : live = before ++ left :: right :: after)
    (hrank : pairRank nodes ranks left right = some rank) :
    candidateIsCurrent nodes ranks rank left right = true := by
  have hright : live = (before ++ [left]) ++ right :: after := by
    rw [hsplit, List.append_assoc]
    rfl
  unfold candidateIsCurrent
  rw [h.node _ _ _ hsplit, h.node _ _ _ hright, hrank]
  simp

section Merge

theorem getElem?_mergedNodes {left right : Nat} {first second : BpeNode}
    (hleft : nodes[left]? = some first) (hright : nodes[right]? = some second)
    (hne : left ≠ right) (hnext : second.next ≠ some left) (hnext' : second.next ≠ some right)
    (index : Nat) :
    (mergedNodes nodes left right)[index]? =
      if index = right then some ⟨[], none, none, false⟩
      else if index = left then
        some { first with text := first.text ++ second.text, next := second.next }
      else if second.next = some index then
        nodes[index]?.map fun node => { node with previous := some left }
      else nodes[index]? := by
  unfold mergedNodes
  simp only [hright, Option.bind_some, Option.map_some, Option.getD_some]
  cases hsecond : second.next with
  | none =>
      simp only [List.getElem?_modify]
      by_cases hr : right = index
      · subst hr
        simp [hne, hright]
      · by_cases hl : left = index
        · subst hl
          simp [hne, hne.symm, hleft]
        · simp [hr, hl, Ne.symm hr, Ne.symm hl]
  | some next =>
      rw [hsecond] at hnext hnext'
      have hnl : next ≠ left := fun heq => hnext (congrArg some heq)
      have hnr : next ≠ right := fun heq => hnext' (congrArg some heq)
      simp only [List.getElem?_modify]
      by_cases hr : right = index
      · subst hr
        simp [hne, hnr, hright]
      · by_cases hl : left = index
        · subst hl
          simp [hne, hne.symm, hnl, hleft]
        · by_cases hn : next = index
          · simp [hr, hl, hn, Ne.symm hr, Ne.symm hl]
          · simp [hr, hl, hn, Ne.symm hr, Ne.symm hl]

variable {before after : List Nat} {left right : Nat}

/-- The nodes of two neighbours, and how the list goes around them. -/
theorem Linked.neighbours (h : Linked nodes (before ++ left :: right :: after)) :
    nodes[left]? = some ⟨textAt nodes left, before.getLast?, some right, true⟩ ∧
      nodes[right]? = some ⟨textAt nodes right, some left, after.head?, true⟩ ∧
      left < right ∧ (∀ index ∈ before, index < left) ∧ ∀ index ∈ after, right < index := by
  have hright : before ++ left :: right :: after = (before ++ [left]) ++ right :: after := by
    rw [List.append_assoc]
    rfl
  have hsecond := h.node (before ++ [left]) right after hright
  rw [List.getLast?_concat] at hsecond
  have hsorted := List.pairwise_append.mp h.sorted
  have htail := List.pairwise_cons.mp hsorted.2.1
  refine ⟨h.node before left _ rfl, hsecond, htail.1 right List.mem_cons_self, ?_, ?_⟩
  · intro index hindex
    exact hsorted.2.2 index hindex left List.mem_cons_self
  · intro index hindex
    exact (List.pairwise_cons.mp htail.2).1 index hindex

/-- Where the merged nodes are as they were, and where they are not. -/
theorem Linked.getElem?_merged (h : Linked nodes (before ++ left :: right :: after))
    (index : Nat) :
    (mergedNodes nodes left right)[index]? =
      if index = right then some ⟨[], none, none, false⟩
      else if index = left then
        some ⟨textAt nodes left ++ textAt nodes right, before.getLast?, after.head?, true⟩
      else if after.head? = some index then
        nodes[index]?.map fun node => { node with previous := some left }
      else nodes[index]? := by
  obtain ⟨hleft, hright, hlt, _, hafter⟩ := h.neighbours
  have hhead : ∀ index, after.head? = some index → right < index :=
    fun index hindex => hafter index (List.mem_of_mem_head? hindex)
  apply getElem?_mergedNodes hleft hright (Nat.ne_of_lt hlt)
  · intro heq
    exact Nat.lt_asymm hlt (hhead left heq)
  · intro heq
    exact Nat.lt_irrefl _ (hhead right heq)

theorem Linked.textAt_merged (h : Linked nodes (before ++ left :: right :: after)) {index : Nat}
    (hright : index ≠ right) :
    textAt (mergedNodes nodes left right) index =
      if index = left then textAt nodes left ++ textAt nodes right else textAt nodes index := by
  unfold textAt
  rw [h.getElem?_merged, if_neg hright]
  split
  · rfl
  · split
    · rw [Option.map_map]
      rfl
    · rfl

/-- Merging takes the right neighbour out of the list. -/
theorem Linked.merge (h : Linked nodes (before ++ left :: right :: after)) :
    Linked (mergedNodes nodes left right) (before ++ left :: after) := by
  obtain ⟨hleft, hright, hlt, hbefore, hafter⟩ := h.neighbours
  apply Linked.mk
  · apply List.Pairwise.sublist _ h.sorted
    exact (List.Sublist.refl before).append ((List.sublist_cons_self right after).cons_cons left)
  · intro before' index after' hsplit
    have hsame : index = left → before' = before → after' = after →
        (mergedNodes nodes left right)[index]? = some
          ⟨textAt (mergedNodes nodes left right) index, before'.getLast?, after'.head?, true⟩ := by
      rintro rfl rfl rfl
      rw [h.getElem?_merged, h.textAt_merged (Nat.ne_of_lt hlt), if_neg (Nat.ne_of_lt hlt),
        if_pos rfl, if_pos rfl]
    rcases List.append_eq_append_iff.mp hsplit with ⟨middle, rfl, hrest⟩ | ⟨middle, rfl, hrest⟩
    · cases middle with
      | nil =>
          cases hrest
          exact hsame rfl (List.append_nil _) rfl
      | cons first middle =>
          -- Behind the merged node.
          cases hrest
          have hold := h.node (before ++ left :: right :: middle) index after' (by simp)
          have hgt := hafter index (List.mem_append_right _ List.mem_cons_self)
          have hright' : index ≠ right := Nat.ne_of_gt hgt
          have hleft' : index ≠ left := Nat.ne_of_gt (Nat.lt_trans hlt hgt)
          rw [h.getElem?_merged, h.textAt_merged hright', if_neg hright', if_neg hleft',
            if_neg hleft', hold]
          cases middle with
          | nil => simp
          | cons second middle =>
              have hne : second ≠ index := by
                apply Nat.ne_of_lt
                have hsorted := (List.pairwise_append.mp h.sorted).2.1
                have hlater := (List.pairwise_cons.mp (List.pairwise_cons.mp hsorted).2).2
                exact (List.pairwise_cons.mp hlater).1 index
                  (List.mem_append_right _ List.mem_cons_self)
              simp [hne]
    · cases middle with
      | nil =>
          cases hrest
          exact hsame rfl (List.append_nil _).symm rfl
      | cons first middle =>
          -- Before the merged node.
          cases hrest
          have hold := h.node before' index (middle ++ left :: right :: after) (by simp)
          have hltl := hbefore index (List.mem_append_right _ List.mem_cons_self)
          have hleft' : index ≠ left := Nat.ne_of_lt hltl
          have hright' : index ≠ right := Nat.ne_of_lt (Nat.lt_trans hltl hlt)
          have hhead : after.head? ≠ some index := by
            intro heq
            have hgt := hafter index (List.mem_of_mem_head? heq)
            omega
          rw [h.getElem?_merged, h.textAt_merged hright', if_neg hright', if_neg hleft',
            if_neg hleft', if_neg hhead, hold]
          cases middle <;> simp
  · intro index node hnode halive
    rw [h.getElem?_merged] at hnode
    split at hnode
    · cases hnode
      cases halive
    · next hne =>
        split at hnode
        · next heq =>
            rw [heq]
            exact List.mem_append_right _ List.mem_cons_self
        · have hmem : index ∈ before ++ left :: right :: after := by
            split at hnode
            · obtain ⟨old, hold, rfl⟩ := Option.map_eq_some_iff.mp hnode
              exact h.dead index old hold halive
            · exact h.dead index node hnode halive
          simp only [List.mem_append, List.mem_cons] at hmem ⊢
          tauto

end Merge

/-- The symbols of a list of nodes. -/
def texts (nodes : List BpeNode) (live : List Nat) : List Text := live.map (textAt nodes)

theorem Linked.texts_merged {before after : List Nat} {left right : Nat}
    (h : Linked nodes (before ++ left :: right :: after)) :
    texts (mergedNodes nodes left right) (before ++ left :: after) =
      texts nodes before ++ (textAt nodes left ++ textAt nodes right) :: texts nodes after := by
  obtain ⟨_, _, hlt, hbefore, hafter⟩ := h.neighbours
  have hkept : ∀ index, index ≠ left → index ≠ right →
      textAt (mergedNodes nodes left right) index = textAt nodes index := by
    intro index hleft hright
    rw [h.textAt_merged hright, if_neg hleft]
  unfold texts
  rw [List.map_append, List.map_cons, h.textAt_merged (Nat.ne_of_lt hlt), if_pos rfl]
  congr 1
  · apply List.map_congr_left
    intro index hindex
    have hltl := hbefore index hindex
    exact hkept index (by omega) (by omega)
  · congr 1
    apply List.map_congr_left
    intro index hindex
    have hgt := hafter index hindex
    exact hkept index (by omega) (by omega)

/-- Neighbouring symbols are those of neighbouring nodes. -/
theorem texts_split {before after : List Text} {first second : Text}
    (h : texts nodes live = before ++ first :: second :: after) :
    ∃ before' left right after', live = before' ++ left :: right :: after' ∧
      before'.length = before.length ∧ first = textAt nodes left ∧ second = textAt nodes right := by
  obtain ⟨before', rest, rfl, rfl, hrest⟩ := List.map_eq_append_iff.mp h
  obtain ⟨left, rest', rfl, rfl, hrest'⟩ := List.map_eq_cons_iff.mp hrest
  obtain ⟨right, after', rfl, rfl, _⟩ := List.map_eq_cons_iff.mp hrest'
  exact ⟨before', left, right, after', rfl, (List.length_map _).symm, rfl, rfl⟩

/-- The heap has an entry for every pair of neighbours with a rank. -/
structure Foresees (nodes : List BpeNode) (ranks : MergeRanks) (live : List Nat)
    (heap : List Candidate) : Prop where
  complete : ∀ before left right after rank, live = before ++ left :: right :: after →
    pairRank nodes ranks left right = some rank → ⟨rank, left, left, right⟩ ∈ heap
  shaped : ∀ candidate ∈ heap, candidate.position = candidate.left

section Heap

variable {heap rest : List Candidate}

theorem mem_pushCandidate {left right : Nat} {candidate : Candidate} :
    candidate ∈ pushCandidate nodes ranks left right heap ↔
      candidate ∈ heap ∨ ∃ rank, pairRank nodes ranks left right = some rank ∧
        candidate = ⟨rank, left, left, right⟩ := by
  unfold pushCandidate
  cases hrank : pairRank nodes ranks left right with
  | none => simp
  | some rank =>
      simp only [List.mem_cons, Option.some.injEq, exists_eq_left']
      exact Or.comm

theorem length_pushCandidate_le (nodes : List BpeNode) (ranks : MergeRanks) (left right : Nat)
    (heap : List Candidate) :
    (pushCandidate nodes ranks left right heap).length ≤ heap.length + 1 := by
  unfold pushCandidate
  split
  · exact Nat.le_refl _
  · exact Nat.le_succ _

theorem mem_pushNeighbours {left : Nat} {candidate : Candidate} :
    candidate ∈ pushNeighbours nodes ranks left heap ↔
      candidate ∈ heap ∨
        (∃ previous rank, nodes[left]?.bind BpeNode.previous = some previous ∧
          pairRank nodes ranks previous left = some rank ∧
            candidate = ⟨rank, previous, previous, left⟩) ∨
        ∃ next rank, nodes[left]?.bind BpeNode.next = some next ∧
          pairRank nodes ranks left next = some rank ∧ candidate = ⟨rank, left, left, next⟩ := by
  unfold pushNeighbours
  cases nodes[left]?.bind BpeNode.previous <;> cases nodes[left]?.bind BpeNode.next <;>
    simp [mem_pushCandidate, or_assoc]

theorem length_pushNeighbours_le (nodes : List BpeNode) (ranks : MergeRanks) (left : Nat)
    (heap : List Candidate) :
    (pushNeighbours nodes ranks left heap).length ≤ heap.length + 2 := by
  have hfirst : ∀ previous : Option Nat,
      (previous.elim heap fun previous => pushCandidate nodes ranks previous left heap).length ≤
        heap.length + 1 := by
    intro previous
    cases previous with
    | none => exact Nat.le_succ _
    | some previous => exact length_pushCandidate_le nodes ranks previous left heap
  have hprevious := hfirst (nodes[left]?.bind BpeNode.previous)
  unfold pushNeighbours
  cases nodes[left]?.bind BpeNode.next with
  | none => exact Nat.le_succ_of_le hprevious
  | some next => exact Nat.le_trans (length_pushCandidate_le _ _ _ _ _) (Nat.succ_le_succ hprevious)

variable {candidate : Candidate}

/-- An entry that is out of date is none of those needed. -/
theorem Foresees.skip (h : Linked nodes live) (hforesees : Foresees nodes ranks live heap)
    (hperm : heap.Perm (candidate :: rest))
    (hstale : ¬ candidateIsCurrent nodes ranks candidate.rank candidate.left candidate.right) :
    Foresees nodes ranks live rest := by
  apply Foresees.mk
  · intro before left right after rank hsplit hrank
    have hmem := hperm.mem_iff.mp (hforesees.complete before left right after rank hsplit hrank)
    rcases List.mem_cons.mp hmem with rfl | hmem
    · exact absurd (h.isCurrent hsplit hrank) hstale
    · exact hmem
  · intro other hmem
    exact hforesees.shaped other (hperm.mem_iff.mpr (List.mem_cons_of_mem _ hmem))

variable {before after : List Nat} {left right : Nat}

/-- Only pairs with the merged node are new. -/
theorem Foresees.merge (h : Linked nodes (before ++ left :: right :: after))
    (hforesees : Foresees nodes ranks (before ++ left :: right :: after) heap)
    (hperm : heap.Perm (candidate :: rest)) (hleft : candidate.left = left) :
    Foresees (mergedNodes nodes left right) ranks (before ++ left :: after)
      (pushNeighbours (mergedNodes nodes left right) ranks left rest) := by
  have hmerged := h.merge
  have hself := hmerged.node before left after rfl
  obtain ⟨_, _, hlt, hbefore, hafter⟩ := h.neighbours
  apply Foresees.mk
  · intro before' left' right' after' rank hsplit hrank
    rw [mem_pushNeighbours]
    -- Neighbours away from the merged node were neighbours before.
    have hold : left' ≠ left → left' ≠ right → right' ≠ left → right' ≠ right →
        (∃ before'' after'', before ++ left :: right :: after =
          before'' ++ left' :: right' :: after'') → ⟨rank, left', left', right'⟩ ∈ rest := by
      rintro hll hlr hrl hrr ⟨before'', after'', hsplit'⟩
      have hmem : left' ∈ before ++ left :: after ∧ right' ∈ before ++ left :: after := by
        rw [hsplit]
        simp
      have hmem' : left' ∈ before ++ left :: right :: after ∧
          right' ∈ before ++ left :: right :: after := by
        rw [hsplit']
        simp
      rw [hmerged.pairRank_eq hmem.1 hmem.2, h.textAt_merged hlr, h.textAt_merged hrr,
        if_neg hll, if_neg hrl, ← h.pairRank_eq hmem'.1 hmem'.2] at hrank
      have hentry := hforesees.complete before'' left' right' after'' rank hsplit' hrank
      rcases List.mem_cons.mp (hperm.mem_iff.mp hentry) with rfl | hentry
      · exact absurd hleft hll
      · exact hentry
    have hnext : left' = left → after = right' :: after' →
        ∃ next rank', (mergedNodes nodes left right)[left]?.bind BpeNode.next = some next ∧
          pairRank (mergedNodes nodes left right) ranks left next = some rank' ∧
            (⟨rank, left', left', right'⟩ : Candidate) = ⟨rank', left, left, next⟩ := by
      rintro rfl rfl
      exact ⟨right', rank, by rw [hself]; rfl, hrank, rfl⟩
    rcases List.append_eq_append_iff.mp hsplit with ⟨middle, rfl, hrest⟩ | ⟨middle, rfl, hrest⟩
    · cases middle with
      | nil =>
          obtain ⟨hl, ha⟩ := List.cons.inj hrest
          exact .inr (.inr (hnext hl.symm ha))
      | cons first middle =>
          obtain ⟨rfl, rfl⟩ := List.cons.inj hrest
          have hl := hafter left' (by simp)
          have hr := hafter right' (by simp)
          left
          apply hold
          · omega
          · omega
          · omega
          · omega
          · exact ⟨before ++ left :: right :: middle, after', by simp⟩
    · cases middle with
      | nil =>
          obtain ⟨hl, ha⟩ := List.cons.inj hrest
          exact .inr (.inr (hnext hl ha.symm))
      | cons first middle =>
          obtain ⟨rfl, htail⟩ := List.cons.inj hrest
          cases middle with
          | nil =>
              obtain ⟨rfl, rfl⟩ := List.cons.inj htail
              right
              left
              refine ⟨left', rank, ?_, hrank, rfl⟩
              rw [hself, Option.bind_some, List.getLast?_concat]
          | cons second middle =>
              obtain ⟨rfl, rfl⟩ := List.cons.inj htail
              have hl := hbefore left' (by simp)
              have hr := hbefore right' (by simp)
              left
              apply hold
              · omega
              · omega
              · omega
              · omega
              · exact ⟨before', middle ++ left :: right :: after, by simp⟩
  · intro other hmem
    rcases mem_pushNeighbours.mp hmem with hmem | ⟨previous, rank, _, _, rfl⟩ | ⟨next, rank, _, _, rfl⟩
    · exact hforesees.shaped other (hperm.mem_iff.mpr (List.mem_cons_of_mem _ hmem))
    · rfl
    · rfl

/-- The pair of an entry popped is the first of the least rank. -/
theorem Foresees.first (h : Linked nodes (before ++ left :: right :: after))
    (hforesees : Foresees nodes ranks (before ++ left :: right :: after) heap)
    (hmem : candidate ∈ heap) (hleast : ∀ other ∈ heap, candidate.le other = true)
    (hleft : candidate.left = left)
    {before' after' : List Text} {first second : Text} {found : Nat}
    (hsplit : texts nodes (before ++ left :: right :: after) =
      before' ++ first :: second :: after')
    (hfound : symbolRank ranks first second = some found) :
    candidate.rank < found ∨ candidate.rank = found ∧ before.length ≤ before'.length := by
  obtain ⟨before'', left', right', after'', hlive, hlength, rfl, rfl⟩ := texts_split hsplit
  have hin : left' ∈ before ++ left :: right :: after ∧
      right' ∈ before ++ left :: right :: after := by
    rw [hlive]
    simp
  have hentry := hforesees.complete before'' left' right' after'' found hlive
    (by rw [h.pairRank_eq hin.1 hin.2]; exact hfound)
  have hle := hleast _ hentry
  rw [Candidate.le_iff, hforesees.shaped candidate hmem, hleft] at hle
  rw [← hlength]
  have hposition : left ≤ left' → before.length ≤ before''.length := by
    intro hge
    rcases List.append_eq_append_iff.mp hlive with ⟨middle, rfl, _⟩ | ⟨middle, heq, hrest⟩
    · rw [List.length_append]
      exact Nat.le_add_right _ _
    · cases middle with
      | nil =>
          exact Nat.le_of_eq (by rw [heq, List.append_nil])
      | cons index middle =>
          obtain ⟨rfl, _⟩ := List.cons.inj hrest
          have hlt := h.neighbours.2.2.2.1 left' (by rw [heq]; simp)
          omega
  simp only at hle
  omega

/-- The loop leaves what is left of the symbols when no neighbours have a rank. -/
theorem mergeLoop_spec (fuel : Nat) (hforesees : Foresees nodes ranks live heap)
    (h : Linked nodes live) (hfuel : heap.length + 2 * live.length ≤ fuel) :
    ∃ live', Linked (mergeLoop ranks fuel nodes heap) live' ∧
      live'.head? = live.head? ∧ live'.length ≤ live.length ∧
      texts (mergeLoop ranks fuel nodes heap) live' =
        Merging.merged (symbolRank ranks) (· ++ ·) (texts nodes live) := by
  induction fuel generalizing nodes live heap with
  | zero =>
      obtain rfl : live = [] := List.eq_nil_of_length_eq_zero (by omega)
      exact ⟨[], h, rfl, Nat.le_refl _, rfl⟩
  | succ fuel ih =>
      unfold mergeLoop
      cases hpop : Merging.popLeast Candidate.le heap with
      | none =>
          refine ⟨live, h, rfl, Nat.le_refl _, (Merging.merged_of_none ?_).symm⟩
          intro before first second after hsplit
          obtain ⟨before', left, right, after', hlive, _, rfl, rfl⟩ := texts_split hsplit
          have hin : left ∈ live ∧ right ∈ live := by
            rw [hlive]
            simp
          rw [← h.pairRank_eq hin.1 hin.2]
          cases hrank : pairRank nodes ranks left right with
          | none => rfl
          | some rank =>
              have hentry := hforesees.complete before' left right after' rank hlive hrank
              rw [Merging.popLeast_none hpop] at hentry
              exact absurd hentry List.not_mem_nil
      | some found =>
          obtain ⟨⟨rank, position, left, right⟩, rest⟩ := found
          have hperm := Merging.popLeast_perm hpop
          have hleast := Merging.popLeast_le Candidate.le_refl Candidate.le_total
            Candidate.le_trans hpop
          have hlength := hperm.length_eq
          rw [List.length_cons] at hlength
          simp only
          split
          · next hcurrent =>
              obtain ⟨before, after, rfl, hrank⟩ := h.split_of_current hcurrent
              have hnew := length_pushNeighbours_le (mergedNodes nodes left right) ranks left rest
              have hshorter : (before ++ left :: right :: after).length =
                  (before ++ left :: after).length + 1 := by
                rw [List.length_append, List.length_append]
                rfl
              obtain ⟨live', hlinked, hhead, hle, htexts⟩ :=
                ih (hforesees.merge h hperm rfl) h.merge (by omega)
              refine ⟨live', hlinked, ?_, by omega, ?_⟩
              · rw [hhead]
                cases before <;> rfl
              · rw [htexts, h.texts_merged]
                symm
                have hin : left ∈ before ++ left :: right :: after ∧
                    right ∈ before ++ left :: right :: after := by simp
                rw [h.pairRank_eq hin.1 hin.2] at hrank
                have hsymbols : texts nodes (before ++ left :: right :: after) =
                    texts nodes before ++
                      textAt nodes left :: textAt nodes right :: texts nodes after := by
                  unfold texts
                  rw [List.map_append]
                  rfl
                rw [hsymbols]
                apply Merging.merged_join hrank
                intro before' first second after' found hsplit hfound
                have hfirst := hforesees.first h (hperm.mem_iff.mpr List.mem_cons_self) hleast
                  rfl (hsymbols.trans hsplit) hfound
                rw [texts, List.length_map]
                exact hfirst
          · next hstale => exact ih (hforesees.skip h hperm hstale) h (by omega)

theorem length_mergeLoop (fuel : Nat) :
    (mergeLoop ranks fuel nodes heap).length = nodes.length := by
  induction fuel generalizing nodes heap with
  | zero => rfl
  | succ fuel ih =>
      unfold mergeLoop
      split
      · rfl
      · split
        · rw [ih]
          unfold mergedNodes
          simp only
          split
          · rw [List.length_modify, List.length_modify, List.length_modify]
          · rw [List.length_modify, List.length_modify]
        · exact ih

end Heap

section Start

theorem textAt_linkNodes (index : Nat) : textAt (linkNodes nodes) index = textAt nodes index := by
  unfold textAt linkNodes
  rw [List.getElem?_mapIdx, Option.map_map]
  rfl

theorem texts_linkNodes :
    texts (linkNodes nodes) (List.range nodes.length) = nodes.map BpeNode.text := by
  apply List.ext_getElem?
  intro index
  unfold texts
  rw [List.getElem?_map, List.getElem?_map]
  rcases Nat.lt_or_ge index nodes.length with hlt | hge
  · rw [List.getElem?_range hlt, Option.map_some, textAt_linkNodes, textAt,
      List.getElem?_eq_getElem hlt]
    rfl
  · rw [List.getElem?_eq_none hge, List.getElem?_eq_none (by rw [List.length_range]; exact hge)]
    rfl

theorem linked_linkNodes (halive : ∀ node ∈ nodes, node.alive = true) :
    Linked (linkNodes nodes) (List.range nodes.length) := by
  apply Linked.mk
  · exact List.pairwise_lt_range
  · intro before index after hsplit
    have hindex : index = before.length := by
      have hget : (List.range nodes.length)[before.length]? = some index := by
        rw [hsplit, List.getElem?_append_right (Nat.le_refl _), Nat.sub_self]
        rfl
      obtain ⟨_, heq⟩ := List.getElem?_eq_some_iff.mp hget
      rw [List.getElem_range] at heq
      exact heq.symm
    have hlt : index < nodes.length := by
      have hmem : index ∈ List.range nodes.length := by
        rw [hsplit]
        exact List.mem_append_right _ List.mem_cons_self
      exact List.mem_range.mp hmem
    have hbefore : before = List.range index := by
      have htake := congrArg (List.take before.length) hsplit
      rw [List.take_left, List.take_range, ← hindex, Nat.min_eq_left (Nat.le_of_lt hlt)] at htake
      exact htake.symm
    have hafter : after.head? = if index + 1 < nodes.length then some (index + 1) else none := by
      have hdrop := congrArg (fun items => items[index + 1]?) hsplit
      simp only [hindex] at hdrop ⊢
      have hone : before.length.succ - before.length = 0 + 1 := by omega
      rw [List.getElem?_append_right (Nat.le_succ _), hone, List.getElem?_cons_succ,
        ← List.head?_eq_getElem?] at hdrop
      rw [← hdrop]
      split
      · next hmore => rw [List.getElem?_range hmore]
      · next hmore => rw [List.getElem?_eq_none (by rw [List.length_range]; omega)]
    rw [textAt_linkNodes, hbefore, hafter, List.getLast?_range]
    unfold linkNodes textAt
    rw [List.getElem?_mapIdx, List.getElem?_eq_getElem hlt, Option.map_some, Option.map_some,
      Option.getD_some, halive _ (List.getElem_mem hlt)]
  · intro index node hnode _
    apply List.mem_range.mpr
    have hlt := (List.getElem?_eq_some_iff.mp hnode).choose
    unfold linkNodes at hlt
    rw [List.length_mapIdx] at hlt
    exact hlt

theorem mem_foldl_pushCandidate {candidate : Candidate} (lefts : List Nat)
    (heap : List Candidate) :
    candidate ∈ lefts.foldl (fun heap left => pushCandidate nodes ranks left (left + 1) heap) heap ↔
      candidate ∈ heap ∨ ∃ left ∈ lefts, ∃ rank, pairRank nodes ranks left (left + 1) = some rank ∧
        candidate = ⟨rank, left, left, left + 1⟩ := by
  induction lefts generalizing heap with
  | nil => simp
  | cons first lefts ih =>
      rw [List.foldl_cons, ih, mem_pushCandidate, or_assoc]
      apply or_congr_right
      simp

theorem length_foldl_pushCandidate_le (nodes : List BpeNode) (ranks : MergeRanks) (lefts : List Nat) (heap : List Candidate) :
    (lefts.foldl (fun heap left => pushCandidate nodes ranks left (left + 1) heap) heap).length ≤
      heap.length + lefts.length := by
  induction lefts generalizing heap with
  | nil => exact Nat.le_refl _
  | cons first lefts ih =>
      have hpush := length_pushCandidate_le nodes ranks first (first + 1) heap
      have hrest := ih (pushCandidate nodes ranks first (first + 1) heap)
      rw [List.foldl_cons, List.length_cons]
      omega

theorem foresees_start (nodes : List BpeNode) (ranks : MergeRanks) (count : Nat) :
    Foresees nodes ranks (List.range count)
      ((List.range (count - 1)).foldl
        (fun heap left => pushCandidate nodes ranks left (left + 1) heap) []) := by
  apply Foresees.mk
  · intro before left right after rank hsplit hrank
    have hget : ∀ offset index, (left :: right :: after)[offset]? = some index →
        index = before.length + offset ∧ index < count := by
      intro offset index hindex
      have hrange : (List.range count)[before.length + offset]? = some index := by
        rw [hsplit, List.getElem?_append_right (Nat.le_add_right _ _), Nat.add_sub_cancel_left]
        exact hindex
      obtain ⟨hlt, heq⟩ := List.getElem?_eq_some_iff.mp hrange
      rw [List.getElem_range] at heq
      rw [List.length_range] at hlt
      exact ⟨heq.symm, by omega⟩
    obtain ⟨hl, _⟩ := hget 0 left rfl
    obtain ⟨hr, hlt⟩ := hget 1 right rfl
    obtain rfl : right = left + 1 := by omega
    apply (mem_foldl_pushCandidate _ _).mpr
    exact .inr ⟨left, List.mem_range.mpr (by omega), rank, hrank, rfl⟩
  · intro candidate hmem
    rcases (mem_foldl_pushCandidate _ _).mp hmem with hmem | ⟨left, _, rank, _, rfl⟩
    · exact absurd hmem List.not_mem_nil
    · rfl

/-- Following the list gives the symbols. -/
theorem Linked.aliveTexts (h : Linked nodes live) (before rest : List Nat) (fuel : Nat)
    (hsplit : live = before ++ rest) (hfuel : rest.length ≤ fuel) :
    aliveTexts nodes fuel rest.head? = texts nodes rest := by
  induction rest generalizing before fuel with
  | nil => cases fuel <;> rfl
  | cons index rest ih =>
      rw [List.length_cons] at hfuel
      obtain ⟨fuel, rfl⟩ := Nat.exists_eq_add_of_le' (Nat.le_trans (Nat.le_add_left 1 _) hfuel)
      rw [List.head?_cons, Tokenizer.aliveTexts, h.node before index rest hsplit]
      simp only [if_true]
      rw [ih (before ++ [index]) fuel (by rw [hsplit, List.append_assoc]; rfl) (by omega)]
      rfl

/-- Merging leaves what is left of the symbols when no neighbours have a rank. -/
theorem mergeBpeNodes_spec (ranks : MergeRanks) (halive : ∀ node ∈ nodes, node.alive = true) :
    ∃ live, Linked (mergeBpeNodes nodes ranks) live ∧
      live.head? = (List.range nodes.length).head? ∧ live.length ≤ nodes.length ∧
      texts (mergeBpeNodes nodes ranks) live =
        Merging.merged (symbolRank ranks) (· ++ ·) (nodes.map BpeNode.text) := by
  have hlength : (linkNodes nodes).length = nodes.length := List.length_mapIdx
  have hfuel := length_foldl_pushCandidate_le (linkNodes nodes) ranks
    (List.range ((linkNodes nodes).length - 1)) []
  have hforesees := foresees_start (linkNodes nodes) ranks nodes.length
  unfold mergeBpeNodes
  simp only
  rw [hlength] at hfuel ⊢
  rw [List.length_range, List.length_nil] at hfuel
  obtain ⟨live, hlinked, hhead, hle, hmerged⟩ := mergeLoop_spec (3 * nodes.length) hforesees
    (linked_linkNodes halive) (by rw [List.length_range]; omega)
  rw [List.length_range] at hle
  rw [texts_linkNodes] at hmerged
  exact ⟨live, hlinked, hhead, hle, hmerged⟩

theorem length_mergeBpeNodes (ranks : MergeRanks) :
    (mergeBpeNodes nodes ranks).length = nodes.length := by
  unfold mergeBpeNodes
  simp only
  rw [length_mergeLoop]
  exact List.length_mapIdx

/-- The nodes that are alive are those of the list, in its order. -/
theorem Linked.filter_alive (h : Linked nodes live) :
    (nodes.filter BpeNode.alive).map BpeNode.text = texts nodes live := by
  have hlive : live = (List.range nodes.length).filter fun index =>
      (nodes[index]?.map BpeNode.alive).getD false := by
    apply List.Pairwise.eq_of_mem_iff h.sorted (List.pairwise_lt_range.filter _)
    intro index
    rw [List.mem_filter, List.mem_range]
    constructor
    · intro hindex
      obtain ⟨node, hnode, halive, _⟩ := h.exists_node hindex
      rw [hnode]
      exact ⟨(List.getElem?_eq_some_iff.mp hnode).choose, halive⟩
    · intro hindex
      obtain ⟨node, hnode, halive⟩ : ∃ node, nodes[index]? = some node ∧ node.alive = true := by
        rw [List.getElem?_eq_getElem hindex.1] at hindex ⊢
        exact ⟨_, rfl, hindex.2⟩
      exact h.dead index node hnode halive
  have hfilter : ∀ nodes : List BpeNode, (nodes.filter BpeNode.alive).map BpeNode.text =
      ((List.range nodes.length).filter fun index =>
        (nodes[index]?.map BpeNode.alive).getD false).map (textAt nodes) := by
    intro nodes
    induction nodes with
    | nil => rfl
    | cons node rest ih =>
        rw [List.length_cons, List.range_succ_eq_map, List.filter_cons, List.filter_cons,
          List.filter_map, List.getElem?_cons_zero]
        have htail : ((List.range rest.length).filter ((fun index =>
            (((node :: rest)[index]?).map BpeNode.alive).getD false) ∘ Nat.succ)).map
              (textAt (node :: rest) ∘ Nat.succ) = (rest.filter BpeNode.alive).map BpeNode.text :=
          ih.symm
        cases halive : node.alive with
        | true => simp [halive, htail, textAt]
        | false => simp [halive, htail]
  rw [hfilter, texts, ← hlive]

/-- The symbols of a mapped piece: what is left of its characters when no
neighbours have a rank. -/
theorem bpeSymbols_eq (ranks : MergeRanks) (mapped : Text) :
    bpeSymbols ranks mapped =
      Merging.merged (symbolRank ranks) (· ++ ·) (mapped.map fun character => [character]) := by
  unfold bpeSymbols
  simp only
  generalize hnodes : mapped.map (fun character => BpeNode.new [character]) = nodes
  have htext : nodes.map BpeNode.text = mapped.map fun character => [character] := by
    rw [← hnodes, List.map_map]
    rfl
  split
  · next hnil =>
      rw [hnil] at htext
      rw [← htext]
      rfl
  · next hne =>
      have halive : ∀ node ∈ nodes, node.alive = true := by
        intro node hmem
        rw [← hnodes] at hmem
        obtain ⟨character, _, rfl⟩ := List.mem_map.mp hmem
        rfl
      obtain ⟨live, hlinked, hhead, hle, hmerged⟩ := mergeBpeNodes_spec ranks halive
      rw [length_mergeBpeNodes, ← htext, ← hmerged]
      have hzero : live.head? = some 0 := by
        rw [hhead, List.head?_range, if_neg (fun heq => hne (List.length_eq_zero_iff.mp heq))]
      rw [← hzero]
      exact hlinked.aliveTexts [] live _ rfl hle

end Start

end Riley.Tokenizer
