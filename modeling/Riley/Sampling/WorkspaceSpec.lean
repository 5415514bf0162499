import Riley.Sampling.Workspace

/-!
What the buffers hold when the candidates of a row are collected and penalized:
nothing of an earlier row that a later stage reads.
-/

namespace Riley.Sampling

open Outcome

variable {K : Type}

/-- Every buffer has an entry for each token. -/
structure SamplingWorkspace.Sized (size : Nat) (workspace : SamplingWorkspace K) : Prop where
  processedLogits : workspace.processedLogits.length = size
  probabilities : workspace.probabilities.length = size
  logProbabilities : workspace.logProbabilities.length = size
  candidateIds : workspace.candidateIds.length = size
  historySeen : workspace.historySeen.length = size

namespace SamplingWorkspace

variable {size tokenId count : Nat} {workspace : SamplingWorkspace K}

section Logit

theorem Sized.setLogit (h : workspace.Sized size) (logit : WithBot K) :
    (workspace.setLogit tokenId logit).Sized size where
  processedLogits := List.length_set.trans h.processedLogits
  probabilities := h.probabilities
  logProbabilities := h.logProbabilities
  candidateIds := h.candidateIds
  historySeen := h.historySeen

theorem Sized.foldl {change : SamplingWorkspace K → Nat → SamplingWorkspace K}
    (hchange : ∀ now tokenId, Sized size now → (change now tokenId).Sized size)
    (h : workspace.Sized size) (tokenIds : List Nat) :
    (tokenIds.foldl change workspace).Sized size := by
  induction tokenIds generalizing workspace with
  | nil => exact h
  | cons tokenId rest ih => exact ih (hchange workspace tokenId h)

theorem Sized.withdraw (h : workspace.Sized size) (tokenIds : List Nat) :
    (workspace.withdraw tokenIds).Sized size :=
  h.foldl (fun _ _ hnow => hnow.setLogit ⊥) tokenIds

theorem logit_setLogit_self (hlt : tokenId < workspace.processedLogits.length)
    (logit : WithBot K) : (workspace.setLogit tokenId logit).logit tokenId = logit := by
  unfold SamplingWorkspace.logit SamplingWorkspace.setLogit
  rw [List.getD_eq_getElem?_getD, List.getElem?_set_self hlt]
  rfl

theorem logit_setLogit_of_ne {other : Nat} (hne : other ≠ tokenId) (logit : WithBot K) :
    (workspace.setLogit tokenId logit).logit other = workspace.logit other := by
  unfold SamplingWorkspace.logit SamplingWorkspace.setLogit
  rw [List.getD_eq_getElem?_getD, List.getElem?_set_ne hne.symm, List.getD_eq_getElem?_getD]

/-- Changing a finite logit, also past the end of the buffer. -/
theorem logit_mapLogit (workspace : SamplingWorkspace K) (change : K → K) (tokenId other : Nat) :
    (workspace.mapLogit change tokenId).logit other =
      if other = tokenId then (workspace.logit tokenId).map change else workspace.logit other := by
  unfold mapLogit
  split
  · next heq =>
      subst heq
      rcases Nat.lt_or_ge other workspace.processedLogits.length with hlt | hge
      · exact logit_setLogit_self hlt _
      · unfold SamplingWorkspace.logit SamplingWorkspace.setLogit
        rw [List.getD_eq_getElem?_getD, List.getD_eq_getElem?_getD, List.getElem?_eq_none hge,
          List.getElem?_eq_none (by rw [List.length_set]; exact hge)]
        rfl
  · next hne => exact logit_setLogit_of_ne hne _

end Logit

section Order

variable [LinearOrder K]

theorem Sized.sortCandidates (h : workspace.Sized size) (count : Nat) :
    (workspace.sortCandidates count).Sized size where
  processedLogits := h.processedLogits
  probabilities := h.probabilities
  logProbabilities := h.logProbabilities
  candidateIds := by
    have hlength := congrArg List.length (List.take_append_drop count workspace.candidateIds)
    rw [List.length_append] at hlength
    unfold SamplingWorkspace.sortCandidates
    rw [List.length_append, List.length_mergeSort, hlength, h.candidateIds]
  historySeen := h.historySeen

end Order

variable [Field K]

section Start

theorem sized_new (h : new size = .ok workspace) : workspace.Sized size := by
  unfold new at h
  obtain ⟨_, _, h⟩ := except_bind_eq_ok.mp h
  obtain ⟨_, _, h⟩ := except_bind_eq_ok.mp h
  cases h
  exact ⟨List.length_replicate, List.length_replicate, List.length_replicate,
    List.length_replicate, List.length_replicate⟩

theorem Sized.cleared (h : workspace.Sized size) : workspace.cleared.Sized size where
  processedLogits := by
    rw [← h.processedLogits]
    exact List.length_map _
  probabilities := by
    rw [← h.probabilities]
    exact List.length_map _
  logProbabilities := by
    rw [← h.logProbabilities]
    exact List.length_map _
  candidateIds := h.candidateIds
  historySeen := by
    rw [← h.historySeen]
    exact List.length_map _

theorem logit_cleared (workspace : SamplingWorkspace K) (tokenId : Nat) :
    workspace.cleared.logit tokenId = ⊥ := by
  unfold SamplingWorkspace.logit SamplingWorkspace.cleared
  rw [List.getD_eq_getElem?_getD, List.getElem?_map]
  cases workspace.processedLogits[tokenId]? <;> rfl

end Start

section Collect

/-- Token ids are written one after another. -/
theorem take_set_succ {ids : List Nat} (hlt : count < ids.length) (tokenId : Nat) :
    (ids.set count tokenId).take (count + 1) = ids.take count ++ [tokenId] := by
  rw [List.take_add_one, List.getElem?_set_self hlt, List.take_set_of_le (Nat.le_refl count)]
  rfl

theorem getD_cons_of_lt (bits : UInt16) (rest : List UInt16) {other : Nat}
    (hlt : tokenId < other) :
    (bits :: rest).getD (other - tokenId) 0 = rest.getD (other - (tokenId + 1)) 0 := by
  obtain ⟨more, rfl⟩ := Nat.exists_eq_add_of_lt hlt
  have hleft : tokenId + more + 1 - tokenId = more + 1 := by omega
  have hright : tokenId + more + 1 - (tokenId + 1) = more := by omega
  rw [hleft, hright]
  rfl

/-- The tokens of a part of a row that are allowed. -/
def allowedFrom (constraints : TokenConstraints) (tokenId length : Nat) : List Nat :=
  (List.range' tokenId length).filter constraints.allows

/-- What collecting the rest of a row leaves. -/
structure Collected (constraints : TokenConstraints) (size tokenId : Nat) (rest : List UInt16)
    (count : Nat) (workspace : SamplingWorkspace K) (out : Nat × SamplingWorkspace K) : Prop where
  sized : out.2.Sized size
  counted : out.1 = count + (allowedFrom constraints tokenId rest.length).length
  candidates : out.2.candidateIds.take out.1 =
    workspace.candidateIds.take count ++ allowedFrom constraints tokenId rest.length
  logit : ∀ other, out.2.logit other =
    if tokenId ≤ other ∧ other < tokenId + rest.length ∧ constraints.allows other = true then
      ↑(decodeFiniteBf16 K (rest.getD (other - tokenId) 0))
    else workspace.logit other
  probabilities : out.2.probabilities = workspace.probabilities
  logProbabilities : out.2.logProbabilities = workspace.logProbabilities
  historySeen : out.2.historySeen = workspace.historySeen

theorem collect_spec (constraints : TokenConstraints) (rest : List UInt16)
    (h : workspace.Sized size) (hcount : count ≤ tokenId) (hlength : tokenId + rest.length ≤ size) :
    Collected constraints size tokenId rest count workspace
      (collect constraints tokenId rest count workspace) := by
  induction rest generalizing tokenId count workspace with
  | nil =>
      refine ⟨h, rfl, (List.append_nil _).symm, ?_, rfl, rfl, rfl⟩
      intro other
      rw [if_neg]
      · rfl
      · rintro ⟨hle, hlt, _⟩
        exact absurd hlt (Nat.not_lt.mpr hle)
  | cons bits rest ih =>
      rw [List.length_cons] at hlength
      have hrange : allowedFrom constraints tokenId (bits :: rest).length =
          (if constraints.allows tokenId then [tokenId] else []) ++
            allowedFrom constraints (tokenId + 1) rest.length := by
        unfold allowedFrom
        rw [List.length_cons, List.range'_succ, List.filter_cons]
        split <;> rfl
      unfold collect
      split
      · next hallow =>
          have hnext : SamplingWorkspace.Sized size
              { workspace.setLogit tokenId (decodeFiniteBf16 K bits) with
                candidateIds := workspace.candidateIds.set count tokenId } :=
            ⟨(h.setLogit _).processedLogits, h.probabilities, h.logProbabilities,
              List.length_set.trans h.candidateIds, h.historySeen⟩
          have hmore : count + 1 ≤ tokenId + 1 := Nat.add_le_add_right hcount 1
          have hdone := ih hnext hmore (by omega)
          rw [if_pos hallow] at hrange
          refine ⟨hdone.sized, ?_, ?_, ?_, hdone.probabilities, hdone.logProbabilities,
            hdone.historySeen⟩
          · rw [hdone.counted, hrange, List.length_append, List.length_singleton]
            omega
          · rw [hdone.candidates, hrange,
              take_set_succ (by rw [h.candidateIds]; omega), List.append_assoc]
          · intro other
            rw [hdone.logit other]
            rcases Nat.lt_trichotomy other tokenId with hlt | rfl | hgt
            · rw [if_neg (by omega), if_neg (by omega)]
              exact logit_setLogit_of_ne (Nat.ne_of_lt hlt) _
            · rw [if_neg (by omega), if_pos ⟨Nat.le_refl _, by rw [List.length_cons]; omega, hallow⟩,
                Nat.sub_self]
              exact logit_setLogit_self (by rw [h.processedLogits]; omega) _
            · rw [getD_cons_of_lt bits rest hgt, List.length_cons]
              apply if_congr (and_congr (by omega) (and_congr_left' (by omega))) rfl
              exact logit_setLogit_of_ne (Nat.ne_of_gt hgt) _
      · next hskip =>
          have hmore : count ≤ tokenId + 1 := Nat.le_succ_of_le hcount
          have hdone := ih h hmore (by omega)
          rw [if_neg hskip, List.nil_append] at hrange
          refine ⟨hdone.sized, ?_, ?_, ?_, hdone.probabilities, hdone.logProbabilities,
            hdone.historySeen⟩
          · rw [hdone.counted, hrange]
          · rw [hdone.candidates, hrange]
          · intro other
            rw [hdone.logit other]
            rcases Nat.lt_trichotomy other tokenId with hlt | rfl | hgt
            · rw [if_neg (by omega), if_neg (by omega)]
            · rw [if_neg (by omega), if_neg (fun hall => hskip hall.2.2)]
            · rw [getD_cons_of_lt bits rest hgt, List.length_cons]
              exact if_congr (and_congr (by omega) (and_congr_left' (by omega))) rfl rfl

end Collect

section Penalize

variable [LinearOrder K]

/-- What penalizing the tokens of a history leaves: each one is penalized once. -/
structure Penalized (size : Nat) (penalty : K) (history : List Nat)
    (workspace out : SamplingWorkspace K) : Prop where
  sized : out.Sized size
  logit : ∀ tokenId, out.logit tokenId =
    if tokenId ∈ history ∧ workspace.historySeen.getD tokenId false = false then
      (workspace.logit tokenId).map (penalized penalty)
    else workspace.logit tokenId
  candidateIds : out.candidateIds = workspace.candidateIds
  probabilities : out.probabilities = workspace.probabilities
  logProbabilities : out.logProbabilities = workspace.logProbabilities

theorem penalizeHistory_spec (penalty : K) (history : List Nat) (h : workspace.Sized size)
    (hrange : ∀ tokenId ∈ history, tokenId < size) :
    Penalized size penalty history workspace (penalizeHistory penalty history workspace) := by
  induction history generalizing workspace with
  | nil => exact ⟨h, fun tokenId => (if_neg (fun hmem => nomatch hmem.1)).symm, rfl, rfl, rfl⟩
  | cons first rest ih =>
      have hrest := fun tokenId hmem => hrange tokenId (List.mem_cons_of_mem first hmem)
      unfold penalizeHistory
      split
      · next hseen =>
          have hdone := ih h hrest
          refine ⟨hdone.sized, ?_, hdone.candidateIds, hdone.probabilities,
            hdone.logProbabilities⟩
          intro tokenId
          rw [hdone.logit]
          apply if_congr _ rfl rfl
          rw [List.mem_cons]
          constructor
          · exact fun hmem => ⟨.inr hmem.1, hmem.2⟩
          · rintro ⟨rfl | hmem, hunseen⟩
            · rw [hseen] at hunseen
              cases hunseen
            · exact ⟨hmem, hunseen⟩
      · next hunseen =>
          have hlt := hrange first List.mem_cons_self
          have hnext : SamplingWorkspace.Sized size
              { workspace.mapLogit (penalized penalty) first with
                historySeen := workspace.historySeen.set first true } :=
            ⟨(h.setLogit _).processedLogits, h.probabilities, h.logProbabilities, h.candidateIds,
              List.length_set.trans h.historySeen⟩
          have hdone := ih hnext hrest
          refine ⟨hdone.sized, ?_, hdone.candidateIds, hdone.probabilities,
            hdone.logProbabilities⟩
          intro tokenId
          have hlogit := workspace.logit_mapLogit (penalized penalty) first tokenId
          rw [hdone.logit]
          change (if tokenId ∈ rest ∧ (workspace.historySeen.set first true).getD tokenId false =
              false then ((workspace.mapLogit (penalized penalty) first).logit tokenId).map
                (penalized penalty)
            else (workspace.mapLogit (penalized penalty) first).logit tokenId) = _
          rw [hlogit, List.getD_eq_getElem?_getD]
          by_cases hfirst : tokenId = first
          · subst hfirst
            rw [List.getElem?_set_self (by rw [h.historySeen]; exact hlt),
              if_neg (fun hmem => nomatch hmem.2), if_pos rfl,
              if_pos ⟨List.mem_cons_self, Bool.eq_false_iff.mpr hunseen⟩]
          · rw [List.getElem?_set_ne (Ne.symm hfirst), if_neg hfirst, ← List.getD_eq_getElem?_getD]
            apply if_congr _ rfl rfl
            rw [List.mem_cons]
            constructor
            · exact fun hmem => ⟨.inr hmem.1, hmem.2⟩
            · rintro ⟨heq | hmem, hnot⟩
              · exact absurd heq hfirst
              · exact ⟨hmem, hnot⟩

end Penalize

section Buffers

theorem Sized.scale (h : workspace.Sized size) (factor : K) (tokenIds : List Nat) :
    (workspace.scale factor tokenIds).Sized size :=
  h.foldl (fun _ _ hnow => hnow.setLogit _) tokenIds

variable [LinearOrder K] {supportSize : Nat}

theorem Sized.applyTopP (h : workspace.Sized size) (exp : K → K) (topP : K) :
    (workspace.applyTopP exp topP supportSize).2.Sized size := by
  unfold SamplingWorkspace.applyTopP
  split
  · exact h
  · exact h.withdraw _

theorem Sized.normalize (h : workspace.Sized size) (exp ln : K → K) :
    (workspace.normalize exp ln supportSize).Sized size := by
  apply h.foldl
  intro now tokenId hnow
  exact ⟨hnow.processedLogits, List.length_set.trans hnow.probabilities,
    List.length_set.trans hnow.logProbabilities, hnow.candidateIds, hnow.historySeen⟩

theorem Sized.prepareGreedy (h : workspace.Sized size) :
    (workspace.prepareGreedy count).2.Sized size := by
  have hwithdrawn := h.withdraw ((workspace.candidateIds.take count).filter
    (· ≠ (workspace.candidateIds.take count).tail.foldl workspace.better
      ((workspace.candidateIds.take count).headD 0)))
  exact ⟨hwithdrawn.processedLogits, List.length_set.trans hwithdrawn.probabilities,
    List.length_set.trans hwithdrawn.logProbabilities, hwithdrawn.candidateIds,
    hwithdrawn.historySeen⟩

theorem Sized.prepareSampling (h : workspace.Sized size) {exp ln : K → K}
    {params : SamplingParams K} :
    (workspace.prepareSampling exp ln params count).2.Sized size := by
  have hsorted := (h.scale (1 / params.temperature.checked)
    (workspace.candidateIds.take count)).sortCandidates count
  unfold SamplingWorkspace.prepareSampling
  apply Sized.normalize
  cases params.topP with
  | none => exact hsorted.withdraw _
  | some topP => exact (hsorted.withdraw _).applyTopP exp topP.checked

end Buffers

end SamplingWorkspace

open SamplingWorkspace

section Prepare

variable [Field K] [LinearOrder K]

/-- The logit of an allowed token, penalized when the history has the token. -/
def penalizedLogit (logits : List UInt16) (penalty : K) (history : List Nat) (tokenId : Nat) : K :=
  let logit := decodeFiniteBf16 K (logits.getD tokenId 0)
  if tokenId ∈ history then penalized penalty logit else logit

/-- A workspace that holds the penalized candidates of a row. -/
structure Prepared (constraints : TokenConstraints) (logits : List UInt16) (penalty : K)
    (history : List Nat) (count : Nat) (workspace : SamplingWorkspace K) : Prop where
  sized : workspace.Sized logits.length
  counted : count = (allowedFrom constraints 0 logits.length).length
  candidates : workspace.candidateIds.take count = allowedFrom constraints 0 logits.length
  logit : ∀ tokenId, workspace.logit tokenId =
    if tokenId ∈ allowedFrom constraints 0 logits.length then
      ↑(penalizedLogit logits penalty history tokenId)
    else ⊥
  probabilities : workspace.probabilities = List.replicate logits.length 0
  logProbabilities : workspace.logProbabilities = List.replicate logits.length ⊥

theorem mem_allowedFrom {constraints : TokenConstraints} {length tokenId : Nat} :
    tokenId ∈ allowedFrom constraints 0 length ↔
      tokenId < length ∧ constraints.allows tokenId = true := by
  unfold allowedFrom
  rw [List.mem_filter, List.mem_range'_1, Nat.zero_add]
  simp

variable {logits : List UInt16} {history : List Nat} {workspace : SamplingWorkspace K}

/-- Whatever the workspace was used for before. -/
theorem prepared_of_sized (constraints : TokenConstraints) (h : workspace.Sized logits.length)
    (penalty : K) (hrange : ∀ tokenId ∈ history, tokenId < logits.length) :
    Prepared constraints logits penalty history
      (collect constraints 0 logits 0 workspace.cleared).1
      (penalizeHistory penalty history (collect constraints 0 logits 0 workspace.cleared).2) := by
  have hcollected := collect_spec constraints logits h.cleared (Nat.le_refl 0)
    (by rw [Nat.zero_add])
  have hpenalized := penalizeHistory_spec penalty history hcollected.sized hrange
  have hunseen : ∀ tokenId, (collect constraints 0 logits 0
      workspace.cleared).2.historySeen.getD tokenId false = false := by
    intro tokenId
    rw [hcollected.historySeen, cleared, List.getD_eq_getElem?_getD, List.getElem?_map]
    cases workspace.historySeen[tokenId]? <;> rfl
  apply Prepared.mk
  · exact hpenalized.sized
  · rw [hcollected.counted, Nat.zero_add]
  · rw [hpenalized.candidateIds, hcollected.candidates]
    rfl
  · intro tokenId
    have hmem : 0 ≤ tokenId ∧ tokenId < 0 + logits.length ∧ constraints.allows tokenId = true ↔
        tokenId ∈ allowedFrom constraints 0 logits.length := by
      rw [mem_allowedFrom, Nat.zero_add]
      simp
    rw [hpenalized.logit, hcollected.logit, logit_cleared]
    simp only [hunseen, hmem, and_true, Nat.sub_zero]
    unfold penalizedLogit
    by_cases hallowed : tokenId ∈ allowedFrom constraints 0 logits.length
    · rw [if_pos hallowed, if_pos hallowed]
      simp only
      split <;> rfl
    · rw [if_neg hallowed, if_neg hallowed]
      split <;> rfl
  · rw [hpenalized.probabilities, hcollected.probabilities, cleared, ← h.probabilities]
    exact List.map_const'
  · rw [hpenalized.logProbabilities, hcollected.logProbabilities, cleared, ← h.logProbabilities]
    exact List.map_const'

end Prepare

section Process

theorem errorIf_eq_ok {condition : Prop} [Decidable condition] {error : SamplingError K} :
    errorIf condition error = .ok () ↔ ¬ condition := by
  unfold errorIf
  split <;> simp_all

theorem length_rowBits (endian : Endian) (row : List UInt8) :
    (rowBits endian row).length = row.length / 2 := by
  induction row using rowBits.induct with
  | case1 first second rest ih =>
      rw [rowBits, List.length_cons, ih, List.length_cons, List.length_cons]
      omega
  | case2 row hshort =>
      cases row with
      | nil => rfl
      | cons first rest =>
          cases rest with
          | nil =>
              rw [rowBits]
              · simp
              · exact hshort
          | cons second rest => exact absurd rfl (hshort first second rest)

theorem finite_of_ok {logits : List UInt16} (h : checkFinite (K := K) logits = .ok ()) :
    ∀ bits ∈ logits, isFiniteBf16 bits = true := by
  unfold checkFinite at h
  split at h
  · next hnone =>
      intro bits hmem
      have hfinite := List.findIdx?_eq_none_iff.mp hnone bits hmem
      simpa using hfinite
  · cases h

variable [Field K] [LinearOrder K] {endian : Endian} {vocabularySize : Nat} {row : List UInt8}
  {constraints : TokenConstraints} {history : List Nat} {params : SamplingParams K}

/-- Inputs whose shapes fit the vocabulary. -/
theorem shapes_of_ok (endian : Endian)
    (h : checkShapes vocabularySize row constraints history params = .ok ()) :
    params.validate vocabularySize = .ok () ∧
      (rowBits endian row).length = vocabularySize ∧ row.length = 2 * vocabularySize ∧
      (∀ mask, constraints = .allowedMask mask → mask.length = vocabularySize) ∧
      ∀ tokenId ∈ history, tokenId < vocabularySize := by
  unfold checkShapes at h
  obtain ⟨⟨⟩, hvalid, h⟩ := except_bind_eq_ok.mp h
  obtain ⟨expectedBytes, hbytes, h⟩ := except_bind_eq_ok.mp h
  obtain ⟨⟨⟩, hlength, h⟩ := except_bind_eq_ok.mp h
  obtain ⟨⟨⟩, hmask, hhistory⟩ := except_bind_eq_ok.mp h
  have hrow : row.length = 2 * vocabularySize := by
    unfold rowBytes at hbytes
    split at hbytes
    · cases hbytes
    · next expected hproduct =>
        cases hbytes
        obtain ⟨hproduct, _⟩ := checkedMul_eq_some.mp hproduct
        have heq := not_not.mp (errorIf_eq_ok.mp hlength)
        omega
  refine ⟨hvalid, ?_, hrow, ?_, ?_⟩
  · rw [length_rowBits, hrow]
    omega
  · rintro mask rfl
    exact not_not.mp (errorIf_eq_ok.mp hmask)
  · unfold checkHistory at hhistory
    split at hhistory
    · next hnone =>
        intro tokenId hmem
        have hout := List.find?_eq_none.mp hnone tokenId hmem
        simpa using hout
    · cases hhistory

variable {exp ln : K → K} {workspace : SamplingWorkspace K}
  {ok : ProcessedDistribution K → SamplingWorkspace K → Prop}
  {err : SamplingError K → SamplingWorkspace K → Prop}

theorem wp_processBf16Native (h : workspace.Sized vocabularySize)
    (herror : ∀ error, validateInputs endian vocabularySize row constraints history params =
      .error error → err error workspace)
    (hmasked : ∀ now, now.Sized vocabularySize →
      validateInputs endian vocabularySize row constraints history params = .ok () →
        allowedFrom constraints 0 vocabularySize = [] → err .allMasked now)
    (hdone : ∀ count prepared,
      validateInputs endian vocabularySize row constraints history params = .ok () →
        allowedFrom constraints 0 vocabularySize ≠ [] →
          Prepared constraints (rowBits endian row) params.repetitionPenalty.checked history count
            prepared →
            let out := if params.temperature = .finite 0 then prepareGreedy count prepared
              else prepareSampling exp ln params count prepared
            ok out.1 out.2) :
    wp (processBf16Native endian exp ln row constraints history params) ok err workspace := by
  have hsize : workspace.vocabularySize = vocabularySize := h.processedLogits
  unfold processBf16Native
  apply wp_read
  rw [hsize]
  apply wp_seq
  rw [wp_fromExcept]
  refine ⟨herror, ?_⟩
  intro _ hvalid
  obtain ⟨⟨⟩, hshapes, _⟩ := except_bind_eq_ok.mp hvalid
  obtain ⟨_, hlength, _, _, hrange⟩ := shapes_of_ok endian hshapes
  rw [← hlength] at h hrange
  have hcollected := collect_spec (K := K) constraints (rowBits endian row) h.cleared
    (Nat.le_refl 0) (by rw [Nat.zero_add])
  have hprepared := prepared_of_sized constraints h
    params.repetitionPenalty.checked hrange
  apply wp_write
  apply wp_seq
  change wp (rejectIf ((collect constraints 0 (rowBits endian row) 0 workspace.cleared).1 = 0)
    .allMasked >>= _) ok err _
  apply wp_check
  · intro hzero
    apply hmasked _ (hlength ▸ hcollected.sized) hvalid
    have hcount := hprepared.counted
    rw [hzero, hlength] at hcount
    exact List.eq_nil_of_length_eq_zero hcount.symm
  · intro hsome
    have hne : allowedFrom constraints 0 vocabularySize ≠ [] := by
      intro hnil
      have hcount := hprepared.counted
      rw [hlength, hnil] at hcount
      exact hsome hcount
    have hfinish := hdone _ _ hvalid hne hprepared
    apply wp_write
    by_cases hgreedy : params.temperature = .finite 0
    · rw [if_pos hgreedy] at hfinish ⊢
      exact hfinish
    · rw [if_neg hgreedy] at hfinish ⊢
      exact hfinish

/-- Whatever comes of a row, its buffers can be used for the next one. -/
theorem wp_process_sized (h : workspace.Sized vocabularySize) :
    wp (processBf16Native endian exp ln row constraints history params)
      (fun _ now => now.Sized vocabularySize) (fun _ now => now.Sized vocabularySize)
      workspace := by
  apply wp_processBf16Native h
  · exact fun _ _ => h
  · exact fun _ hnow _ _ => hnow
  · intro count prepared hvalid _ hprepared
    obtain ⟨⟨⟩, hshapes, _⟩ := except_bind_eq_ok.mp hvalid
    obtain ⟨_, hlength, _⟩ := shapes_of_ok endian hshapes
    have hsized : prepared.Sized vocabularySize := hlength ▸ hprepared.sized
    dsimp only
    split
    · exact hsized.prepareGreedy
    · exact hsized.prepareSampling

theorem SamplingWorkspace.Sized.of_process {distribution : ProcessedDistribution K} {now : SamplingWorkspace K}
    (h : workspace.Sized vocabularySize)
    (hcall : processBf16Native endian exp ln row constraints history params workspace =
      .ok distribution now) : now.Sized vocabularySize := by
  have hsized : wp (processBf16Native endian exp ln row constraints history params)
      (fun _ after => after.Sized vocabularySize) (fun _ after => after.Sized vocabularySize)
      workspace := wp_process_sized h
  rw [wp, hcall] at hsized
  exact hsized

end Process

end Riley.Sampling
