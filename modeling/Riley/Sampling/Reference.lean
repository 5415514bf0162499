import Mathlib.Data.List.Nodup
import Riley.Library.Ranking
import Riley.Sampling.WorkspaceSpec

/-!
The distribution of a row, told without buffers: the penalized and scaled logits of
the allowed tokens, their ranking, the prefix of it that is kept, and the weights of
what is kept. The sampler computes it from any workspace.
-/

namespace Riley.Sampling

open Outcome Ranking SamplingWorkspace

section Buffers

variable {K : Type}

/-- Only the logits differ. -/
structure SameBuffers (before after : SamplingWorkspace K) : Prop where
  processedLogits : after.processedLogits.length = before.processedLogits.length
  probabilities : after.probabilities = before.probabilities
  logProbabilities : after.logProbabilities = before.logProbabilities
  candidateIds : after.candidateIds = before.candidateIds

theorem withdraw_spec (tokenIds : List Nat) (workspace : SamplingWorkspace K) :
    SameBuffers workspace (workspace.withdraw tokenIds) ∧
      ∀ tokenId, (workspace.withdraw tokenIds).logit tokenId =
        if tokenId ∈ tokenIds then ⊥ else workspace.logit tokenId := by
  unfold withdraw
  induction tokenIds generalizing workspace with
  | nil => exact ⟨⟨rfl, rfl, rfl, rfl⟩, fun tokenId => (if_neg List.not_mem_nil).symm⟩
  | cons first rest ih =>
      obtain ⟨hsame, hlogit⟩ := ih (workspace.setLogit first ⊥)
      rw [List.foldl_cons]
      refine ⟨⟨?_, hsame.probabilities, hsame.logProbabilities, hsame.candidateIds⟩, ?_⟩
      · rw [hsame.processedLogits]
        exact List.length_set
      · intro tokenId
        have hset : (workspace.setLogit first ⊥).logit tokenId =
            if tokenId = first then ⊥ else workspace.logit tokenId := by
          split
          · next heq =>
              subst heq
              unfold SamplingWorkspace.logit SamplingWorkspace.setLogit
              rw [List.getD_eq_getElem?_getD, List.getElem?_set_self']
              cases workspace.processedLogits[tokenId]? <;> rfl
          · next hne => exact logit_setLogit_of_ne hne _
        rw [hlogit, hset]
        by_cases heq : tokenId = first
        · subst heq
          rw [if_pos rfl, if_pos List.mem_cons_self, ite_self]
        · simp only [List.mem_cons, heq, false_or, if_false]

/-- Writing the entries of a list of places one after another. -/
theorem getElem?_foldl_set {α : Type} (entry : Nat → α) (places : List Nat) (buffer : List α)
    (index : Nat) :
    (places.foldl (fun buffer place => buffer.set place (entry place)) buffer)[index]? =
      if index ∈ places then buffer[index]?.map fun _ => entry index else buffer[index]? := by
  induction places generalizing buffer with
  | nil => exact (if_neg List.not_mem_nil).symm
  | cons first rest ih =>
      rw [List.foldl_cons, ih]
      by_cases heq : index = first
      · subst heq
        rw [List.getElem?_set_self', if_pos List.mem_cons_self]
        cases buffer[index]? <;> simp
      · rw [List.getElem?_set_ne (Ne.symm heq)]
        simp only [List.mem_cons, heq, false_or]

/-- A buffer of one value, with the entries of a list of places. -/
theorem foldl_set_replicate {α : Type} (entry : Nat → α) (places : List Nat) (size : Nat)
    (value : α) :
    places.foldl (fun buffer place => buffer.set place (entry place))
        (List.replicate size value) =
      (List.range size).map fun index => if index ∈ places then entry index else value := by
  apply List.ext_getElem?
  intro index
  rw [getElem?_foldl_set, List.getElem?_map, List.getElem?_replicate]
  by_cases hlt : index < size
  · rw [List.getElem?_range hlt, if_pos hlt]
    simp only [Option.map_some]
    split <;> rfl
  · rw [List.getElem?_eq_none (by rw [List.length_range]; omega), if_neg hlt]
    split <;> rfl

theorem foldl_setProbability (exp : K → K) (entry : Nat → K) (tokenIds : List Nat)
    (workspace : SamplingWorkspace K) :
    tokenIds.foldl
        (fun now tokenId =>
          { now with
            logProbabilities := now.logProbabilities.set tokenId (entry tokenId : K)
            probabilities := now.probabilities.set tokenId (exp (entry tokenId)) })
        workspace =
      { workspace with
        logProbabilities := tokenIds.foldl
          (fun buffer tokenId => buffer.set tokenId (entry tokenId : K))
          workspace.logProbabilities
        probabilities := tokenIds.foldl
          (fun buffer tokenId => buffer.set tokenId (exp (entry tokenId)))
          workspace.probabilities } := by
  induction tokenIds generalizing workspace with
  | nil => rfl
  | cons first rest ih =>
      rw [List.foldl_cons, ih]
      rfl

variable [Field K]

theorem scale_spec (factor : K) {tokenIds : List Nat} (hnodup : tokenIds.Nodup)
    (workspace : SamplingWorkspace K) :
    SameBuffers workspace (workspace.scale factor tokenIds) ∧
      ∀ tokenId, (workspace.scale factor tokenIds).logit tokenId =
        if tokenId ∈ tokenIds then (workspace.logit tokenId).map (· * factor)
        else workspace.logit tokenId := by
  unfold scale
  induction tokenIds generalizing workspace with
  | nil => exact ⟨⟨rfl, rfl, rfl, rfl⟩, fun tokenId => (if_neg List.not_mem_nil).symm⟩
  | cons first rest ih =>
      obtain ⟨hfirst, hnodup⟩ := List.nodup_cons.mp hnodup
      obtain ⟨hsame, hlogit⟩ := ih hnodup (workspace.mapLogit (· * factor) first)
      rw [List.foldl_cons]
      refine ⟨⟨?_, hsame.probabilities, hsame.logProbabilities, hsame.candidateIds⟩, ?_⟩
      · rw [hsame.processedLogits]
        exact List.length_set
      · intro tokenId
        rw [hlogit, logit_mapLogit]
        by_cases heq : tokenId = first
        · subst heq
          rw [if_neg hfirst, if_pos rfl, if_pos List.mem_cons_self]
        · simp only [List.mem_cons, heq, false_or, if_false]

theorem sum_eq_foldl (values : List K) : values.foldl (· + ·) 0 = values.sum := by
  rw [List.sum_eq_foldl]

end Buffers

variable {K : Type} [Field K] [LinearOrder K]

section Reference

variable (exp ln : K → K) (logits : List UInt16) (constraints : TokenConstraints)
  (history : List Nat) (params : SamplingParams K)

def scaledLogit (tokenId : Nat) : K :=
  penalizedLogit logits params.repetitionPenalty.checked history tokenId *
    (1 / params.temperature.checked)

/-- The scaled logits of the tokens of a list; the others are masked. -/
def maskedLogit (kept : List Nat) (tokenId : Nat) : WithBot K :=
  if tokenId ∈ kept then ↑(scaledLogit logits history params tokenId) else ⊥

/-- The allowed tokens, greater logits first. -/
def ranking : List Nat :=
  let allowed := allowedFrom constraints 0 logits.length
  let logit := maskedLogit logits history params allowed
  allowed.mergeSort fun left right =>
    logit right < logit left || logit right = logit left && left ≤ right

/-- The tokens of the ranking that top-k leaves. -/
def topRanked : List Nat :=
  (ranking logits constraints history params).take
    (params.topK.getD (ranking logits constraints history params).length)

def weightsOf (maximum : K) (tokenIds : List Nat) : List K :=
  tokenIds.map fun tokenId => exp (scaledLogit logits history params tokenId - maximum)

/-- The tokens that top-p leaves of those. -/
def supportOf : List Nat :=
  let top := topRanked logits constraints history params
  let weights :=
    weightsOf exp logits history params (scaledLogit logits history params (top.headD 0)) top
  params.topP.elim top fun topP =>
    if 1 ≤ topP.checked then top
    else top.take (retainedCount (topP.checked * weights.sum) 0 weights)

def maximumOf (support : List Nat) : K :=
  (support.foldl (fun maximum tokenId =>
    max maximum (maskedLogit logits history params support tokenId)) ⊥).unbotD 0

/-- The normalized logarithm of the weight of a token. -/
def logProbabilityOf (support : List Nat) (tokenId : Nat) : K :=
  let maximum := maximumOf logits history params support
  scaledLogit logits history params tokenId - maximum -
    ln (weightsOf exp logits history params maximum support).sum

def referenceDistribution : ProcessedDistribution K :=
  let support := supportOf exp logits constraints history params
  let logProbability := logProbabilityOf exp ln logits history params support
  { processedLogits := (List.range logits.length).map (maskedLogit logits history params support)
    probabilities := (List.range logits.length).map fun tokenId =>
      if tokenId ∈ support then exp (logProbability tokenId) else 0
    logProbabilities := (List.range logits.length).map fun tokenId =>
      if tokenId ∈ support then ↑(logProbability tokenId) else ⊥
    greedy := false
    supportSize := support.length
    greedyToken := none }

end Reference

section Stages

variable {exp ln : K → K} {logits : List UInt16} {constraints : TokenConstraints}
  {history : List Nat} {params : SamplingParams K} {kept : List Nat} {count : Nat}
  {workspace : SamplingWorkspace K}

/-- A workspace that holds the scaled logits of the tokens kept, the best first. -/
structure Stage (logits : List UInt16) (history : List Nat) (params : SamplingParams K)
    (kept : List Nat) (workspace : SamplingWorkspace K) : Prop where
  nodup : kept.Nodup
  candidates : workspace.candidateIds.take kept.length = kept
  size : workspace.processedLogits.length = logits.length
  logit : ∀ tokenId, workspace.logit tokenId = maskedLogit logits history params kept tokenId
  probabilities : workspace.probabilities = List.replicate logits.length 0
  logProbabilities : workspace.logProbabilities = List.replicate logits.length ⊥

theorem Stage.value (h : Stage logits history params kept workspace) {tokenId : Nat}
    (hkept : tokenId ∈ kept) :
    workspace.value tokenId = scaledLogit logits history params tokenId := by
  unfold SamplingWorkspace.value
  rw [h.logit, maskedLogit, if_pos hkept]
  rfl

theorem Stage.weights (h : Stage logits history params kept workspace) (maximum : K) :
    workspace.weights exp maximum kept = weightsOf exp logits history params maximum kept := by
  unfold SamplingWorkspace.weights weightsOf
  apply List.map_congr_left
  intro tokenId hkept
  rw [h.value hkept]

/-- Masking the tokens behind a place of the ranking. -/
theorem Stage.withdraw (h : Stage logits history params kept workspace) (place : Nat) :
    Stage logits history params (kept.take place) (workspace.withdraw (kept.drop place)) := by
  obtain ⟨hsame, hlogit⟩ := withdraw_spec (kept.drop place) workspace
  apply Stage.mk
  · exact h.nodup.sublist (List.take_sublist place kept)
  · have hcandidates := congrArg (List.take place) h.candidates
    rw [List.take_take] at hcandidates
    rw [hsame.candidateIds, List.length_take]
    exact hcandidates
  · rw [hsame.processedLogits, h.size]
  · intro tokenId
    have hsplit : tokenId ∈ kept ↔ tokenId ∈ kept.take place ∨ tokenId ∈ kept.drop place := by
      rw [← List.mem_append, List.take_append_drop]
    have hnodup := h.nodup
    rw [← List.take_append_drop place kept] at hnodup
    have hapart := (List.nodup_append.mp hnodup).2.2
    rw [hlogit, h.logit]
    unfold maskedLogit
    by_cases hdrop : tokenId ∈ kept.drop place
    · rw [if_pos hdrop, if_neg (fun htake => hapart _ htake _ hdrop rfl)]
    · rw [if_neg hdrop]
      simp only [hsplit, hdrop, or_false]
  · rw [hsame.probabilities, h.probabilities]
  · rw [hsame.logProbabilities, h.logProbabilities]

theorem retainedCount_le (threshold cumulative : K) (weights : List K) :
    retainedCount threshold cumulative weights ≤ weights.length := by
  induction weights generalizing cumulative with
  | nil => exact Nat.le_refl _
  | cons weight rest ih =>
      unfold retainedCount
      split
      · exact Nat.succ_le_succ (Nat.zero_le _)
      · rw [Nat.add_comm]
        exact Nat.succ_le_succ (ih _)

/-- What top-p leaves of the candidates. -/
theorem Stage.applyTopP (exp : K → K) (h : Stage logits history params kept workspace) (topP : K) :
    let weights :=
      weightsOf exp logits history params (scaledLogit logits history params (kept.headD 0)) kept
    let left := if 1 ≤ topP then kept
      else kept.take (retainedCount (topP * weights.sum) 0 weights)
    (workspace.applyTopP exp topP kept.length).1 = left.length ∧
      Stage logits history params left (workspace.applyTopP exp topP kept.length).2 := by
  intro weights left
  unfold SamplingWorkspace.applyTopP
  by_cases hall : 1 ≤ topP
  · have hleft : left = kept := if_pos hall
    rw [if_pos hall, hleft]
    exact ⟨rfl, h⟩
  · have hleft : left = kept.take (retainedCount (topP * weights.sum) 0 weights) := if_neg hall
    have hweights : workspace.weights exp (workspace.value (kept.headD 0)) kept = weights := by
      cases kept with
      | nil => rfl
      | cons first rest =>
          rw [List.headD_cons, h.value List.mem_cons_self]
          exact h.weights _
    have hle : retainedCount (topP * weights.sum) 0 weights ≤ kept.length := by
      apply (retainedCount_le _ _ _).trans
      exact Nat.le_of_eq (List.length_map _)
    rw [if_neg hall]
    simp only
    rw [h.candidates, hweights, sum_eq_foldl, hleft, List.length_take, Nat.min_eq_left hle]
    exact ⟨rfl, h.withdraw _⟩

/-- The distribution of the candidates that are left. -/
theorem Stage.normalize (h : Stage logits history params kept workspace) :
    (workspace.normalize exp ln kept.length).distribution false kept.length none =
      { processedLogits := (List.range logits.length).map (maskedLogit logits history params kept)
        probabilities := (List.range logits.length).map fun tokenId =>
          if tokenId ∈ kept then
            exp (logProbabilityOf exp ln logits history params kept tokenId)
          else 0
        logProbabilities := (List.range logits.length).map fun tokenId =>
          if tokenId ∈ kept then
            ↑(logProbabilityOf exp ln logits history params kept tokenId)
          else ⊥
        greedy := false
        supportSize := kept.length
        greedyToken := none } := by
  have hlogits : workspace.processedLogits =
      (List.range logits.length).map (maskedLogit logits history params kept) := by
    apply List.ext_getElem
    · rw [h.size, List.length_map, List.length_range]
    · intro index hlt hlt'
      have hlogit := h.logit index
      unfold SamplingWorkspace.logit at hlogit
      rw [List.getD_eq_getElem?_getD, List.getElem?_eq_getElem hlt, Option.getD_some] at hlogit
      rw [hlogit, List.getElem_map, List.getElem_range]
  have hmaximum : (fun maximum tokenId => max maximum (workspace.logit tokenId)) =
      fun maximum tokenId => max maximum (maskedLogit logits history params kept tokenId) := by
    funext maximum tokenId
    rw [h.logit]
  have hentry : ∀ tokenId ∈ kept,
      workspace.value tokenId - maximumOf logits history params kept -
        ln (weightsOf exp logits history params (maximumOf logits history params kept) kept).sum =
      logProbabilityOf exp ln logits history params kept tokenId := by
    intro tokenId hkept
    rw [h.value hkept]
    rfl
  have hfold := foldl_setProbability exp
    (fun tokenId => workspace.value tokenId - maximumOf logits history params kept -
      ln (weightsOf exp logits history params (maximumOf logits history params kept) kept).sum)
    kept workspace
  unfold SamplingWorkspace.normalize
  simp only
  rw [h.candidates, hmaximum, h.weights, sum_eq_foldl]
  change (kept.foldl _ workspace).distribution false kept.length none = _
  rw [maximumOf] at hentry hfold
  rw [hfold]
  unfold distribution
  rw [hlogits, h.probabilities, h.logProbabilities, foldl_set_replicate, foldl_set_replicate]
  congr 1
  · apply List.map_congr_left
    intro tokenId _
    split
    · next hkept => rw [hentry tokenId hkept]
    · rfl
  · apply List.map_congr_left
    intro tokenId _
    split
    · next hkept => rw [hentry tokenId hkept]
    · rfl

/-- The ranking holds the allowed tokens. -/
theorem ranking_perm (logits : List UInt16) (constraints : TokenConstraints)
    (history : List Nat) (params : SamplingParams K) :
    (ranking logits constraints history params).Perm (allowedFrom constraints 0 logits.length) :=
  List.mergeSort_perm _ _

theorem allowedFrom_nodup (constraints : TokenConstraints) (size : Nat) :
    (allowedFrom constraints 0 size).Nodup := by
  unfold allowedFrom
  exact List.Nodup.filter _ List.nodup_range'

theorem take_append_length {α : Type} (front back : List α) :
    (front ++ back).take front.length = front := by
  rw [List.take_left]

/-- The candidates scaled and sorted. -/
theorem stage_sorted
    (h : Prepared constraints logits params.repetitionPenalty.checked history count workspace) :
    Stage logits history params (ranking logits constraints history params)
      ((workspace.scale (1 / params.temperature.checked)
        (workspace.candidateIds.take count)).sortCandidates count) := by
  obtain ⟨hsame, hlogit⟩ := scale_spec (1 / params.temperature.checked)
    (allowedFrom_nodup constraints logits.length) workspace
  have hperm := ranking_perm logits constraints history params
  have hscaled : ∀ tokenId, (workspace.scale (1 / params.temperature.checked)
      (allowedFrom constraints 0 logits.length)).logit tokenId =
        maskedLogit logits history params (allowedFrom constraints 0 logits.length) tokenId := by
    intro tokenId
    rw [hlogit, h.logit]
    unfold maskedLogit
    split <;> rfl
  have hsorted : ((workspace.scale (1 / params.temperature.checked)
      (allowedFrom constraints 0 logits.length)).candidateIds.take count).mergeSort
        (workspace.scale (1 / params.temperature.checked)
          (allowedFrom constraints 0 logits.length)).ranksBefore =
      ranking logits constraints history params := by
    have horder : (workspace.scale (1 / params.temperature.checked)
        (allowedFrom constraints 0 logits.length)).ranksBefore = fun left right =>
          decide (maskedLogit logits history params (allowedFrom constraints 0 logits.length)
              right < maskedLogit logits history params
                (allowedFrom constraints 0 logits.length) left) ||
            decide (maskedLogit logits history params (allowedFrom constraints 0 logits.length)
              right = maskedLogit logits history params
                (allowedFrom constraints 0 logits.length) left) && decide (left ≤ right) := by
      funext left right
      unfold SamplingWorkspace.ranksBefore
      rw [hscaled, hscaled]
    rw [hsame.candidateIds, h.candidates, horder]
    rfl
  rw [h.candidates]
  unfold SamplingWorkspace.sortCandidates
  rw [hsorted]
  apply Stage.mk
  · exact hperm.nodup_iff.mpr (allowedFrom_nodup constraints logits.length)
  · exact take_append_length _ _
  · exact hsame.processedLogits.trans h.sized.processedLogits
  · intro tokenId
    have hmem : tokenId ∈ ranking logits constraints history params ↔
        tokenId ∈ allowedFrom constraints 0 logits.length := hperm.mem_iff
    change (workspace.scale (1 / params.temperature.checked)
      (allowedFrom constraints 0 logits.length)).logit tokenId = _
    rw [hscaled]
    unfold maskedLogit
    simp only [hmem]
  · exact hsame.probabilities.trans h.probabilities
  · exact hsame.logProbabilities.trans h.logProbabilities

/-- The sampler computes the reference distribution, whatever the buffers held. -/
theorem prepareSampling_eq
    (h : Prepared constraints logits params.repetitionPenalty.checked history count workspace) :
    (prepareSampling exp ln params count workspace).1 =
      referenceDistribution exp ln logits constraints history params := by
  have hstage := stage_sorted h
  have hcount : (ranking logits constraints history params).length = count := by
    rw [h.counted, (ranking_perm logits constraints history params).length_eq]
  have htop : topRanked logits constraints history params =
      (ranking logits constraints history params).take (min (params.topK.getD count) count) := by
    unfold topRanked
    rw [hcount]
    rcases Nat.le_total (params.topK.getD count) count with hle | hle
    · rw [Nat.min_eq_left hle]
    · rw [Nat.min_eq_right hle, List.take_of_length_le (hcount.symm ▸ hle),
        List.take_of_length_le (Nat.le_of_eq hcount)]
  have hlength : (topRanked logits constraints history params).length =
      min (params.topK.getD count) count := by
    rw [htop, List.length_take, hcount, Nat.min_assoc, Nat.min_self]
  have hcut := hstage.withdraw (min (params.topK.getD count) count)
  rw [← htop] at hcut
  have hcandidates := hstage.candidates
  rw [hcount] at hcandidates
  unfold prepareSampling referenceDistribution
  simp only
  rw [hcandidates, ← hlength]
  rw [← hlength] at hcut
  cases htopP : params.topP with
  | none =>
      have hsupport : supportOf exp logits constraints history params =
          topRanked logits constraints history params := by
        unfold supportOf
        rw [htopP]
        rfl
      rw [hsupport]
      exact hcut.normalize
  | some topP =>
      obtain ⟨hsize, hleft⟩ := hcut.applyTopP exp topP.checked
      have hsupport : supportOf exp logits constraints history params =
          if 1 ≤ topP.checked then topRanked logits constraints history params
          else (topRanked logits constraints history params).take
            (retainedCount (topP.checked * (weightsOf exp logits history params
              (scaledLogit logits history params
                ((topRanked logits constraints history params).headD 0))
              (topRanked logits constraints history params)).sum) 0
              (weightsOf exp logits history params
                (scaledLogit logits history params
                  ((topRanked logits constraints history params).headD 0))
                (topRanked logits constraints history params))) := by
        unfold supportOf
        rw [htopP]
        rfl
      rw [hsupport]
      change (SamplingWorkspace.normalize exp ln (SamplingWorkspace.applyTopP exp topP.checked _
        _).1 (SamplingWorkspace.applyTopP exp topP.checked _ _).2).distribution false
          (SamplingWorkspace.applyTopP exp topP.checked _ _).1 none = _
      rw [hsize]
      exact hleft.normalize

end Stages

end Riley.Sampling
