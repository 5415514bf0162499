import Riley.Tokenizer.BpeSpec

/-!
The loop of the merge engine without a bound on its rounds: it ends when the heap
is empty, and it always ends.
-/

namespace Riley.Tokenizer

open Utf8 (Text)

/-- The pairs that the loop begins with. -/
def firstCandidates (nodes : List BpeNode) (ranks : MergeRanks) : List Candidate :=
  (List.range (nodes.length - 1)).foldl
    (fun heap left => pushCandidate nodes ranks left (left + 1) heap) []

/-- The rounds of the loop, from nodes and a heap to the nodes it leaves. -/
inductive MergeRun (ranks : MergeRanks) : List BpeNode → List Candidate → List BpeNode → Prop
  | emptied {nodes : List BpeNode} {heap : List Candidate}
      (hpop : Merging.popLeast Candidate.le heap = none) : MergeRun ranks nodes heap nodes
  | stale {nodes final : List BpeNode} {heap rest : List Candidate} {candidate : Candidate}
      (hpop : Merging.popLeast Candidate.le heap = some (candidate, rest))
      (hstale : candidateIsCurrent nodes ranks candidate.rank candidate.left candidate.right =
        false)
      (hrun : MergeRun ranks nodes rest final) : MergeRun ranks nodes heap final
  | merge {nodes final : List BpeNode} {heap rest : List Candidate} {candidate : Candidate}
      (hpop : Merging.popLeast Candidate.le heap = some (candidate, rest))
      (hcurrent : candidateIsCurrent nodes ranks candidate.rank candidate.left candidate.right =
        true)
      (hrun : MergeRun ranks (mergedNodes nodes candidate.left candidate.right)
        (pushNeighbours (mergedNodes nodes candidate.left candidate.right) ranks candidate.left
          rest) final) : MergeRun ranks nodes heap final

variable {ranks : MergeRanks} {nodes final final' : List BpeNode} {heap : List Candidate}

theorem MergeRun.unique (h : MergeRun ranks nodes heap final)
    (h' : MergeRun ranks nodes heap final') : final = final' := by
  induction h with
  | emptied hpop =>
      cases h' with
      | emptied _ => rfl
      | stale hpop' _ _ => rw [hpop] at hpop'; cases hpop'
      | merge hpop' _ _ => rw [hpop] at hpop'; cases hpop'
  | stale hpop hstale _ ih =>
      cases h' with
      | emptied hpop' => rw [hpop] at hpop'; cases hpop'
      | stale hpop' _ hrun' =>
          rw [hpop] at hpop'
          cases hpop'
          exact ih hrun'
      | merge hpop' hcurrent' _ =>
          rw [hpop] at hpop'
          cases hpop'
          rw [hstale] at hcurrent'
          cases hcurrent'
  | merge hpop hcurrent _ ih =>
      cases h' with
      | emptied hpop' => rw [hpop] at hpop'; cases hpop'
      | stale hpop' hstale' _ =>
          rw [hpop] at hpop'
          cases hpop'
          rw [hcurrent] at hstale'
          cases hstale'
      | merge hpop' _ hrun' =>
          rw [hpop] at hpop'
          cases hpop'
          exact ih hrun'

/-- Each round takes an entry from the heap, and one that adds two entries takes a
node out of the list: with that many rounds the heap is empty in the end. -/
theorem mergeLoop_run {live : List Nat} (fuel : Nat) (h : Linked nodes live)
    (hfuel : heap.length + 2 * live.length ≤ fuel) :
    MergeRun ranks nodes heap (mergeLoop ranks fuel nodes heap) := by
  induction fuel generalizing nodes live heap with
  | zero =>
      obtain rfl : heap = [] := List.eq_nil_of_length_eq_zero (by omega)
      exact .emptied rfl
  | succ fuel ih =>
      unfold mergeLoop
      cases hpop : Merging.popLeast Candidate.le heap with
      | none => exact .emptied hpop
      | some found =>
          obtain ⟨⟨rank, position, left, right⟩, rest⟩ := found
          have hlength := (Merging.popLeast_perm hpop).length_eq
          rw [List.length_cons] at hlength
          simp only
          split
          · next hcurrent =>
              obtain ⟨before, after, rfl, _⟩ := h.split_of_current hcurrent
              have hnew := length_pushNeighbours_le (mergedNodes nodes left right) ranks left rest
              have hshorter : (before ++ left :: right :: after).length =
                  (before ++ left :: after).length + 1 := by
                rw [List.length_append, List.length_append]
                rfl
              have hless : (pushNeighbours (mergedNodes nodes left right) ranks left rest).length +
                  2 * (before ++ left :: after).length ≤ fuel := by omega
              exact .merge hpop hcurrent (ih h.merge hless)
          · next hstale =>
              exact .stale hpop (Bool.eq_false_iff.mpr hstale) (ih h (by omega))

theorem mergeBpeNodes_run (ranks : MergeRanks) (halive : ∀ node ∈ nodes, node.alive = true) :
    MergeRun ranks (linkNodes nodes) (firstCandidates (linkNodes nodes) ranks)
      (mergeBpeNodes nodes ranks) := by
  have hlength : (linkNodes nodes).length = nodes.length := List.length_mapIdx
  have hfuel := length_foldl_pushCandidate_le (linkNodes nodes) ranks
    (List.range ((linkNodes nodes).length - 1)) []
  rw [List.length_range, List.length_nil] at hfuel
  apply mergeLoop_run _ (linked_linkNodes halive)
  rw [List.length_range]
  unfold firstCandidates
  omega

/-- The loop ends, at nodes whose symbols are those left by merging the first
neighbours of the least rank for as long as neighbours have a rank. -/
theorem mergeBpeNodes_naive (ranks : MergeRanks) (symbols : List Text) :
    let nodes := linkNodes (symbols.map BpeNode.new)
    ∃ final,
      (∀ nodes', MergeRun ranks nodes (firstCandidates nodes ranks) nodes' ↔ nodes' = final) ∧
      mergeBpeNodes (symbols.map BpeNode.new) ranks = final ∧
      aliveTexts final final.length (some 0) = (final.filter BpeNode.alive).map BpeNode.text ∧
      ∀ left, Merging.Merges (symbolRank ranks) (· ++ ·) symbols left ↔
        left = (final.filter BpeNode.alive).map BpeNode.text := by
  have halive : ∀ node ∈ symbols.map BpeNode.new, node.alive = true := by
    intro node hnode
    obtain ⟨symbol, _, rfl⟩ := List.mem_map.mp hnode
    rfl
  have htext : (symbols.map BpeNode.new).map BpeNode.text = symbols := by
    rw [List.map_map]
    exact List.map_id symbols
  have hrun := mergeBpeNodes_run ranks halive
  obtain ⟨live, hlinked, hhead, hle, hmerged⟩ := mergeBpeNodes_spec ranks halive
  have hleft := hlinked.filter_alive
  rw [htext] at hmerged
  refine ⟨_, ?_, rfl, ?_, ?_⟩
  · intro nodes'
    constructor
    · exact fun hrun' => hrun'.unique hrun
    · rintro rfl
      exact hrun
  · rw [hleft]
    cases symbols with
    | nil =>
        have hnil : live = [] := List.eq_nil_of_length_eq_zero (Nat.le_zero.mp hle)
        rw [length_mergeBpeNodes, hnil]
        rfl
    | cons symbol symbols =>
        have hzero : live.head? = some 0 := by
          rw [hhead, List.head?_range, if_neg (by exact Nat.succ_ne_zero _)]
        rw [← hzero]
        apply hlinked.aliveTexts [] live _ rfl
        rw [length_mergeBpeNodes]
        exact hle
  · intro left
    rw [hleft, hmerged]
    exact Merging.merges_iff

end Riley.Tokenizer
