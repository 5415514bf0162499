import Mathlib.Algebra.BigOperators.Group.Finset.Basic
import Mathlib.Algebra.Order.BigOperators.Group.List
import Mathlib.Analysis.SpecialFunctions.Log.Basic
import Riley.Sampling.Reference

/-!
The tokens that a row can be sampled to, in exact arithmetic: the shortest part of
the ranking that reaches the share of top-p, each with its part of the weight, and
the draw of the token whose interval holds the middle of the random word.
-/

namespace Riley.Sampling

open Outcome Ranking SamplingWorkspace

section Cumulative

variable {K : Type} [Field K] [LinearOrder K]

/-- The weights counted reach the threshold, and fewer do not. -/
theorem retainedCount_spec (threshold cumulative : K) (weights : List K) :
    (weights ≠ [] → threshold ≤ cumulative + weights.sum →
      threshold ≤ cumulative + (weights.take (retainedCount threshold cumulative weights)).sum) ∧
    ∀ count, 0 < count → count < retainedCount threshold cumulative weights →
      cumulative + (weights.take count).sum < threshold := by
  induction weights generalizing cumulative with
  | nil => exact ⟨fun hne => absurd rfl hne, fun count _ hlt => absurd hlt (Nat.not_lt_zero _)⟩
  | cons weight rest ih =>
      obtain ⟨hreach, hfewer⟩ := ih (cumulative + weight)
      unfold retainedCount
      split
      · next hle =>
          constructor
          · intro _ _
            rwa [List.take_succ_cons, List.take_zero, List.sum_singleton]
          · intro count hpos hlt
            omega
      · next hgt =>
          constructor
          · intro _ htotal
            rw [List.sum_cons, ← add_assoc] at htotal
            rw [Nat.add_comm, List.take_succ_cons, List.sum_cons, ← add_assoc]
            apply hreach _ htotal
            rintro rfl
            rw [List.sum_nil, add_zero] at htotal
            exact hgt htotal
          · intro count hpos hlt
            obtain ⟨fewer, rfl⟩ := Nat.exists_eq_succ_of_ne_zero (Nat.ne_of_gt hpos)
            rw [List.take_succ_cons, List.sum_cons, ← add_assoc]
            rcases Nat.eq_zero_or_pos fewer with rfl | hmore
            · rw [List.take_zero, List.sum_nil, add_zero]
              exact lt_of_not_ge hgt
            · exact hfewer fewer hmore (by omega)

/-- A number below the sum of the probabilities is in the interval of one token. -/
theorem drawFrom_spec (uniform cumulative : K) (tokenId lastSupported : Nat)
    (probabilities : List K) (hnonneg : ∀ probability ∈ probabilities, 0 ≤ probability)
    (hge : cumulative ≤ uniform) (hlt : uniform < cumulative + probabilities.sum) :
    ∃ place < probabilities.length,
      drawFrom uniform tokenId cumulative lastSupported probabilities =
        u32OrMax (tokenId + place) ∧
      0 < probabilities.getD place 0 ∧
      cumulative + (probabilities.take place).sum ≤ uniform ∧
      uniform < cumulative + (probabilities.take (place + 1)).sum := by
  induction probabilities generalizing cumulative tokenId lastSupported with
  | nil =>
      rw [List.sum_nil, add_zero] at hlt
      exact absurd hlt (not_lt_of_ge hge)
  | cons probability rest ih =>
      have hrest := fun other hmem => hnonneg other (List.mem_cons_of_mem probability hmem)
      rw [List.sum_cons, ← add_assoc] at hlt
      -- The token of the rest is one place further in the whole list.
      have hlater : ∀ last, cumulative + probability ≤ uniform →
          ∃ place < (probability :: rest).length,
            drawFrom uniform (tokenId + 1) (cumulative + probability) last rest =
              u32OrMax (tokenId + place) ∧
            0 < (probability :: rest).getD place 0 ∧
            cumulative + ((probability :: rest).take place).sum ≤ uniform ∧
            uniform < cumulative + ((probability :: rest).take (place + 1)).sum := by
        intro last hpast
        obtain ⟨place, hplace, hdraw, hpos, hlow, hhigh⟩ :=
          ih (cumulative + probability) (tokenId + 1) last hrest hpast hlt
        refine ⟨place + 1, Nat.succ_lt_succ hplace, ?_, hpos, ?_, ?_⟩
        · rw [hdraw, Nat.add_assoc, Nat.add_comm 1 place]
        · rwa [List.take_succ_cons, List.sum_cons, ← add_assoc]
        · rwa [List.take_succ_cons, List.sum_cons, ← add_assoc]
      unfold drawFrom
      split
      · next hpos =>
          split
          · next hhere =>
              refine ⟨0, Nat.succ_pos _, rfl, hpos, ?_, ?_⟩
              · rwa [List.take_zero, List.sum_nil, add_zero]
              · rwa [List.take_succ_cons, List.take_zero, List.sum_singleton]
          · next hpast => exact hlater _ (le_of_not_gt hpast)
      · next hzero =>
          have heq : probability = 0 :=
            le_antisymm (le_of_not_gt hzero) (hnonneg probability List.mem_cons_self)
          have hstart : cumulative = cumulative + probability := by rw [heq, add_zero]
          rw [hstart] at hge
          have hfound := hlater lastSupported hge
          rwa [← hstart] at hfound

end Cumulative

/-- A shortest part of a ranking that reaches a share of its weight. -/
structure Shortest {ι : Type} (weight : ι → ℝ) (share : ℝ) (ranked taken : List ι) : Prop where
  begins : taken <+: ranked
  reaches : share * (ranked.map weight).sum ≤ (taken.map weight).sum
  shortest : ∀ fewer, fewer <+: ranked → fewer.length < taken.length →
    (fewer.map weight).sum < share * (ranked.map weight).sum

section Weights

variable {ι : Type} {weight : ι → ℝ} {ranked taken : List ι}

theorem sum_map_pos (hpos : ∀ item, 0 < weight item) (hne : ranked ≠ []) :
    0 < (ranked.map weight).sum := by
  cases ranked with
  | nil => exact absurd rfl hne
  | cons first rest =>
      have hrest : 0 ≤ (rest.map weight).sum := by
        apply List.sum_nonneg
        intro value hvalue
        obtain ⟨item, _, rfl⟩ := List.mem_map.mp hvalue
        exact le_of_lt (hpos item)
      rw [List.map_cons, List.sum_cons]
      exact add_pos_of_pos_of_nonneg (hpos first) hrest

/-- The whole ranking is needed to reach all of its weight. -/
theorem shortest_all (hpos : ∀ item, 0 < weight item) (ranked : List ι) :
    Shortest weight 1 ranked ranked where
  begins := List.prefix_refl ranked
  reaches := le_of_eq (one_mul _)
  shortest := by
    rintro fewer ⟨rest, rfl⟩ hlt
    have hne : rest ≠ [] := by
      rintro rfl
      rw [List.append_nil] at hlt
      exact Nat.lt_irrefl _ hlt
    rw [one_mul, List.map_append, List.sum_append]
    exact lt_add_of_pos_right _ (sum_map_pos hpos hne)

/-- Weights may be scaled by a positive factor before they are counted. -/
theorem shortest_retained {share factor : ℝ} (hpos : ∀ item, 0 < weight item)
    (hshare : 0 < share) (hshare' : share ≤ 1) (hfactor : 0 < factor) (ranked : List ι)
    (hne : ranked ≠ []) :
    let scaled := ranked.map fun item => weight item * factor
    Shortest weight share ranked (ranked.take (retainedCount (share * scaled.sum) 0 scaled)) := by
  intro scaled
  have hsum : ∀ items : List ι, (items.map fun item => weight item * factor).sum =
      (items.map weight).sum * factor := by
    intro items
    rw [← List.sum_map_mul_right]
  have htotal := sum_map_pos hpos hne
  have hscaled : scaled.sum = (ranked.map weight).sum * factor := hsum ranked
  obtain ⟨hreach, hfewer⟩ := retainedCount_spec (share * scaled.sum) 0 scaled
  have htake : ∀ count, (scaled.take count).sum = ((ranked.take count).map weight).sum * factor := by
    intro count
    rw [← hsum, List.map_take]
  have hall : share * scaled.sum ≤ 0 + scaled.sum := by
    rw [zero_add, hscaled]
    exact mul_le_of_le_one_left (le_of_lt (mul_pos htotal hfactor)) hshare'
  have hreached := hreach (fun hnil => hne (List.map_eq_nil_iff.mp hnil)) hall
  generalize retainedCount (share * scaled.sum) 0 scaled = count at hreached hfewer ⊢
  apply Shortest.mk
  · exact List.take_prefix _ ranked
  · rw [zero_add, htake, hscaled, ← mul_assoc] at hreached
    exact le_of_mul_le_mul_right hreached hfactor
  · intro fewer hbegins hlt
    have hfew : fewer = ranked.take fewer.length := List.prefix_iff_eq_take.mp hbegins
    rcases Nat.eq_zero_or_pos fewer.length with hzero | hsome
    · rw [List.eq_nil_of_length_eq_zero hzero]
      exact mul_pos hshare htotal
    · have hcount : fewer.length < count :=
        Nat.lt_of_lt_of_le hlt (List.length_take_le _ ranked)
      have hless := hfewer fewer.length hsome hcount
      rw [zero_add, htake, ← hfew, hscaled, ← mul_assoc] at hless
      exact lt_of_mul_lt_mul_right hless (le_of_lt hfactor)

/-- Two candidates are both kept when the first has less than its share. -/
theorem Shortest.eq_pair {share : ℝ} {first second : ι}
    (h : Shortest weight share [first, second] taken) (hpos : 0 ≤ weight first)
    (hless : weight first < share * (weight first + weight second)) : taken = [first, second] := by
  have hreaches := h.reaches
  obtain ⟨rest, hrest⟩ := h.begins
  simp only [List.map_cons, List.map_nil, List.sum_cons, List.sum_nil, add_zero] at hreaches
  rcases taken with _ | ⟨one, _ | ⟨two, more⟩⟩
  · exact absurd (hpos.trans_lt hless) (not_lt_of_ge hreaches)
  · obtain rfl : one = first := (List.cons.inj hrest).1
    rw [List.map_singleton, List.sum_singleton] at hreaches
    exact absurd hless (not_lt_of_ge hreaches)
  · obtain ⟨rfl, rfl, hnil⟩ : one = first ∧ two = second ∧ more ++ rest = [] := by
      simpa using hrest
    rw [(List.append_eq_nil_iff.mp hnil).1]

/-- A table of the parts of some places sums to the parts. -/
theorem sum_table {places : List Nat} (hnodup : places.Nodup) {size : Nat}
    (hlt : ∀ place ∈ places, place < size) (part : Nat → ℝ) :
    ((List.range size).map fun index => if index ∈ places then part index else 0).sum =
      (places.map part).sum := by
  rw [← List.sum_toFinset part hnodup, ← List.sum_toFinset _ List.nodup_range,
    Finset.sum_ite, Finset.sum_const_zero, add_zero]
  apply Finset.sum_congr _ (fun _ _ => by rfl)
  ext index
  simp only [Finset.mem_filter, List.mem_toFinset, List.mem_range]
  constructor
  · exact fun hmem => hmem.2
  · exact fun hmem => ⟨hlt index hmem, hmem⟩

theorem getD_table {places : List Nat} {size : Nat} (hlt : ∀ place ∈ places, place < size)
    (part : Nat → ℝ) (index : Nat) :
    ((List.range size).map fun index => if index ∈ places then part index else 0).getD index 0 =
      if index ∈ places then part index else 0 := by
  rw [List.getD_eq_getElem?_getD, List.getElem?_map]
  rcases Nat.lt_or_ge index size with hin | hout
  · rw [List.getElem?_range hin]
    rfl
  · rw [List.getElem?_eq_none (by rw [List.length_range]; exact hout),
      if_neg (fun hmem => Nat.not_lt.mpr hout (hlt index hmem))]
    rfl

/-- The middle of the interval of a word is between zero and one. -/
theorem midpoint_bounds {word : Nat} (h : word ≤ u32Max) :
    0 ≤ midpoint ℝ word ∧ midpoint ℝ word < 1 := by
  have hcast : (word : ℝ) ≤ 4294967295 := by
    have hle := Nat.cast_le (α := ℝ).mpr h
    exact hle.trans (by unfold u32Max; norm_num)
  have hnonneg : (0 : ℝ) ≤ word := Nat.cast_nonneg word
  unfold midpoint
  constructor
  · positivity
  · linarith

end Weights

section Support

variable {logits : List UInt16} {constraints : TokenConstraints} {history : List Nat}
  {params : SamplingParams ℝ} {vocabularySize : Nat}

/-- The weight of a token: the exponential of its penalized logit over the temperature. -/
noncomputable def tokenWeight (logits : List UInt16) (history : List Nat)
    (params : SamplingParams ℝ) (tokenId : Nat) : ℝ :=
  Real.exp (penalizedLogit logits params.repetitionPenalty.checked history tokenId /
    params.temperature.checked)

/-- The share of the weight that top-p asks for. -/
noncomputable def topShare (params : SamplingParams ℝ) : ℝ := params.topP.elim 1 Ieee.checked

theorem tokenWeight_pos (tokenId : Nat) : 0 < tokenWeight logits history params tokenId :=
  Real.exp_pos _

theorem exp_scaledLogit (tokenId : Nat) :
    Real.exp (scaledLogit logits history params tokenId) =
      tokenWeight logits history params tokenId := by
  unfold scaledLogit tokenWeight
  rw [mul_one_div]

/-- What valid parameters satisfy. -/
theorem bounds_of_valid (h : params.validate vocabularySize = .ok ()) :
    vocabularySize ≤ u32Max + 1 ∧ (∀ topK, params.topK = some topK → 0 < topK) ∧
      0 < topShare params ∧ topShare params ≤ 1 := by
  unfold SamplingParams.validate at h
  obtain ⟨⟨⟩, _, h⟩ := except_bind_eq_ok.mp h
  obtain ⟨⟨⟩, hsize, h⟩ := except_bind_eq_ok.mp h
  obtain ⟨⟨⟩, _, h⟩ := except_bind_eq_ok.mp h
  obtain ⟨⟨⟩, htopK, h⟩ := except_bind_eq_ok.mp h
  obtain ⟨⟨⟩, htopP, _⟩ := except_bind_eq_ok.mp h
  have hle := errorIf_eq_ok.mp hsize
  refine ⟨by omega, ?_, ?_⟩
  · intro topK hsome
    rw [hsome] at htopK
    have hbounds := errorIf_eq_ok.mp htopK
    omega
  · unfold topShare
    cases hsome : params.topP with
    | none => exact ⟨one_pos, le_refl 1⟩
    | some topP =>
        rw [hsome] at htopP
        have hbounds := errorIf_eq_ok.mp htopP
        cases topP with
        | nan => exact absurd rfl hbounds
        | infinite negative => exact absurd rfl hbounds
        | finite value =>
            rw [Bool.not_eq_false] at hbounds
            obtain ⟨hpos, hone⟩ := (Bool.and_eq_true _ _).mp hbounds
            exact ⟨of_decide_eq_true hpos, of_decide_eq_true hone⟩

theorem ranking_pairwise (hpos : 0 < params.temperature.checked) :
    (ranking logits constraints history params).Pairwise
      (Ranks (penalizedLogit logits params.repetitionPenalty.checked history)) := by
  have hfactor : 0 < 1 / params.temperature.checked := one_div_pos.mpr hpos
  have hsorted : (ranking logits constraints history params).Pairwise
      (Ranks (maskedLogit logits history params (allowedFrom constraints 0 logits.length))) :=
    pairwise_mergeSort_ranks _ _
  have hmem : ∀ tokenId, tokenId ∈ ranking logits constraints history params →
      maskedLogit logits history params (allowedFrom constraints 0 logits.length) tokenId =
        ↑(scaledLogit logits history params tokenId) := by
    intro tokenId hranked
    exact if_pos ((ranking_perm logits constraints history params).mem_iff.mp hranked)
  apply hsorted.imp_of_mem
  intro first second hfirst hsecond hranks
  unfold Ranks at hranks ⊢
  rw [hmem first hfirst, hmem second hsecond, WithBot.coe_lt_coe, WithBot.coe_inj] at hranks
  unfold scaledLogit at hranks
  rwa [mul_lt_mul_iff_of_pos_right hfactor, mul_left_inj' (ne_of_gt hfactor)] at hranks

theorem topRanked_prefix :
    topRanked logits constraints history params <+: ranking logits constraints history params :=
  List.take_prefix _ _

theorem topRanked_ne_nil (history : List Nat) (h : params.validate vocabularySize = .ok ())
    (hsome : allowedFrom constraints 0 logits.length ≠ []) :
    topRanked logits constraints history params ≠ [] := by
  obtain ⟨_, htopK, _⟩ := bounds_of_valid h
  have hlength := (ranking_perm logits constraints history params).length_eq
  have hpos := List.length_pos_of_ne_nil hsome
  unfold topRanked
  rw [← List.length_pos_iff_ne_nil, List.length_take, hlength]
  cases hk : params.topK with
  | none =>
      rw [Option.getD_none, Nat.min_self]
      exact hpos
  | some topK =>
      rw [Option.getD_some]
      exact Nat.lt_min.mpr ⟨htopK topK hk, hpos⟩

/-- What is kept is the shortest part of the ranking that reaches its share. -/
theorem supportOf_shortest (history : List Nat) (h : params.validate vocabularySize = .ok ())
    (hsome : allowedFrom constraints 0 logits.length ≠ []) :
    Shortest (tokenWeight logits history params) (topShare params)
      (topRanked logits constraints history params)
      (supportOf Real.exp logits constraints history params) := by
  obtain ⟨_, _, hshare, hshare'⟩ := bounds_of_valid h
  have hne := topRanked_ne_nil history h hsome
  unfold supportOf
  simp only
  unfold topShare at hshare hshare' ⊢
  cases htopP : params.topP with
  | none => exact shortest_all tokenWeight_pos _
  | some topP =>
      rw [htopP] at hshare hshare'
      change 0 < topP.checked at hshare
      change topP.checked ≤ 1 at hshare'
      change Shortest _ topP.checked _ (if 1 ≤ topP.checked then _ else _)
      split
      · next hall =>
          rw [le_antisymm hshare' hall]
          exact shortest_all tokenWeight_pos _
      · have hweights : ∀ maximum, weightsOf Real.exp logits history params maximum
            (topRanked logits constraints history params) =
            (topRanked logits constraints history params).map fun tokenId =>
              tokenWeight logits history params tokenId * Real.exp (-maximum) := by
          intro maximum
          unfold weightsOf
          apply List.map_congr_left
          intro tokenId _
          rw [sub_eq_add_neg, Real.exp_add, exp_scaledLogit]
        rw [hweights]
        exact shortest_retained tokenWeight_pos hshare hshare' (Real.exp_pos _) _ hne

/-- The weight of what is kept. -/
theorem supportOf_sum_pos (history : List Nat) (h : params.validate vocabularySize = .ok ())
    (hsome : allowedFrom constraints 0 logits.length ≠ []) :
    0 < ((supportOf Real.exp logits constraints history params).map
      (tokenWeight logits history params)).sum := by
  obtain ⟨_, _, hshare, _⟩ := bounds_of_valid h
  have htop : 0 < ((topRanked logits constraints history params).map
      (tokenWeight logits history params)).sum :=
    sum_map_pos tokenWeight_pos (topRanked_ne_nil history h hsome)
  exact lt_of_lt_of_le (mul_pos hshare htop) (supportOf_shortest history h hsome).reaches

theorem exp_logProbability {support : List Nat}
    (hsum : 0 < (support.map (tokenWeight logits history params)).sum) (tokenId : Nat) :
    Real.exp (logProbabilityOf Real.exp Real.log logits history params support tokenId) =
      tokenWeight logits history params tokenId /
        (support.map (tokenWeight logits history params)).sum := by
  have hfactor := Real.exp_pos (-maximumOf logits history params support)
  have hweights : (weightsOf Real.exp logits history params
      (maximumOf logits history params support) support).sum =
        (support.map (tokenWeight logits history params)).sum *
          Real.exp (-maximumOf logits history params support) := by
    rw [← List.sum_map_mul_right]
    unfold weightsOf
    congr 1
    apply List.map_congr_left
    intro other _
    rw [sub_eq_add_neg, Real.exp_add, exp_scaledLogit]
  unfold logProbabilityOf
  simp only
  rw [hweights, Real.exp_sub, Real.exp_log (mul_pos hsum hfactor), sub_eq_add_neg, Real.exp_add,
    exp_scaledLogit, mul_div_mul_right _ _ (ne_of_gt hfactor)]

end Support

section Claim

variable {endian : Endian} {vocabularySize : Nat} {row : List UInt8}
  {constraints : TokenConstraints} {history : List Nat} {params : SamplingParams ℝ}
  {workspace : SamplingWorkspace ℝ}

/-- A history counts through the set of its tokens. -/
theorem referenceDistribution_congr {history' : List Nat} (logits : List UInt16)
    (h : ∀ tokenId, tokenId ∈ history' ↔ tokenId ∈ history) :
    referenceDistribution Real.exp Real.log logits constraints history' params =
      referenceDistribution Real.exp Real.log logits constraints history params := by
  have hscaled : ∀ tokenId, scaledLogit logits history' params tokenId =
      scaledLogit logits history params tokenId := by
    intro tokenId
    unfold scaledLogit penalizedLogit
    simp only [h]
  have hmasked : maskedLogit logits history' params = maskedLogit logits history params := by
    funext kept tokenId
    unfold maskedLogit
    rw [hscaled]
  have hweights : ∀ maximum tokenIds, weightsOf Real.exp logits history' params maximum tokenIds =
      weightsOf Real.exp logits history params maximum tokenIds := by
    intro maximum tokenIds
    unfold weightsOf
    simp only [hscaled]
  have htop : topRanked logits constraints history' params =
      topRanked logits constraints history params := by
    unfold topRanked ranking
    rw [hmasked]
  have hsupport : supportOf Real.exp logits constraints history' params =
      supportOf Real.exp logits constraints history params := by
    unfold supportOf
    simp only [htop, hweights, hscaled]
  have hlog : ∀ support tokenId,
      logProbabilityOf Real.exp Real.log logits history' params support tokenId =
        logProbabilityOf Real.exp Real.log logits history params support tokenId := by
    intro support tokenId
    unfold logProbabilityOf maximumOf
    simp only [hmasked, hweights, hscaled]
  unfold referenceDistribution
  simp only [hsupport, hmasked, hlog]

theorem validateInputs_eq_ok (endian : Endian)
    (hparams : params.validate vocabularySize = .ok ())
    (hrow : row.length = 2 * vocabularySize)
    (hfinite : ∀ bits ∈ rowBits endian row, isFiniteBf16 bits = true)
    (hmask : ∀ mask, constraints = .allowedMask mask → mask.length = vocabularySize)
    (hhistory : ∀ tokenId ∈ history, tokenId < vocabularySize) :
    validateInputs endian vocabularySize row constraints history params = .ok () := by
  obtain ⟨hsize, _⟩ := bounds_of_valid hparams
  have hbytes : rowBytes (K := ℝ) vocabularySize = .ok (vocabularySize * 2) := by
    have hproduct : checkedMul usizeMax vocabularySize 2 = some (vocabularySize * 2) := by
      apply checkedMul_eq_some.mpr
      refine ⟨rfl, ?_⟩
      unfold u32Max at hsize
      unfold usizeMax u64Max
      omega
    unfold rowBytes
    rw [hproduct]
  have hmasked : checkMask (K := ℝ) vocabularySize constraints = .ok () := by
    cases constraints with
    | allowAll => rfl
    | allowedMask mask => exact errorIf_eq_ok.mpr (not_not.mpr (hmask mask rfl))
  have hknown : checkHistory (K := ℝ) vocabularySize history = .ok () := by
    have hnone : history.find? (vocabularySize ≤ ·) = none := by
      apply List.find?_eq_none.mpr
      intro tokenId hmem
      have hlt := hhistory tokenId hmem
      simpa using hlt
    unfold checkHistory
    rw [hnone]
  have hnumbers : checkFinite (K := ℝ) (rowBits endian row) = .ok () := by
    have hnone : (rowBits endian row).findIdx? (isFiniteBf16 · = false) = none := by
      apply List.findIdx?_eq_none_iff.mpr
      intro bits hmem
      rw [hfinite bits hmem]
      rfl
    unfold checkFinite
    rw [hnone]
  have hlength : errorIf (row.length ≠ vocabularySize * 2)
      (.logitsLength (vocabularySize * 2) row.length : SamplingError ℝ) = .ok () :=
    errorIf_eq_ok.mpr (not_not.mpr (by omega))
  unfold validateInputs checkShapes
  rw [hparams, hbytes]
  change (errorIf _ _ >>= fun _ => _) >>= _ = _
  rw [hlength, hmasked]
  change checkHistory _ _ >>= _ = _
  rw [hknown]
  exact hnumbers

/-- Processing a valid row gives the reference distribution, from any workspace. -/
theorem process_reference (h : workspace.Sized vocabularySize)
    (hvalid : validateInputs endian vocabularySize row constraints history params = .ok ())
    (hpositive : 0 < params.temperature.checked)
    (hsome : allowedFrom constraints 0 vocabularySize ≠ []) :
    ∃ now, processBf16Native endian Real.exp Real.log row constraints history params workspace =
      .ok (referenceDistribution Real.exp Real.log (rowBits endian row) constraints history params)
        now := by
  have htemperature : params.temperature ≠ .finite 0 := by
    intro hzero
    rw [hzero] at hpositive
    exact lt_irrefl 0 hpositive
  have hrun : wp (processBf16Native endian Real.exp Real.log row constraints history params)
      (fun distribution _ => distribution =
        referenceDistribution Real.exp Real.log (rowBits endian row) constraints history params)
      (fun _ _ => False) workspace := by
    apply wp_processBf16Native h
    · intro error herror
      rw [hvalid] at herror
      cases herror
    · exact fun _ _ _ hnil => hsome hnil
    · intro count prepared _ _ hprepared
      rw [if_neg htemperature]
      exact prepareSampling_eq hprepared
  obtain ⟨distribution, now, hcall, rfl⟩ := wp_ok_iff.mp hrun
  exact ⟨now, hcall⟩

/-- Sampling at a positive temperature: the support is the shortest part of the first
top-k allowed tokens that reaches the share of top-p, each token has its part of the
weight, and a random word draws the token whose interval holds its middle. -/
theorem sampling_support (h : workspace.Sized vocabularySize)
    (hparams : params.validate vocabularySize = .ok ())
    (hpositive : 0 < params.temperature.checked) (hrow : row.length = 2 * vocabularySize)
    (hfinite : ∀ bits ∈ rowBits endian row, isFiniteBf16 bits = true)
    (hmask : ∀ mask, constraints = .allowedMask mask → mask.length = vocabularySize)
    (hsome : ∃ tokenId < vocabularySize, constraints.allows tokenId = true)
    (hhistory : ∀ tokenId ∈ history, tokenId < vocabularySize) :
    let logit := penalizedLogit (rowBits endian row) params.repetitionPenalty.checked history
    let weight := tokenWeight (rowBits endian row) history params
    ∃ (distribution : ProcessedDistribution ℝ) (now : SamplingWorkspace ℝ)
      (ranked support : List Nat),
      processBf16Native endian Real.exp Real.log row constraints history params workspace =
        .ok distribution now ∧
      (∀ tokenId, tokenId ∈ ranked ↔
        tokenId < vocabularySize ∧ constraints.allows tokenId = true) ∧
      ranked.Nodup ∧ ranked.Pairwise (Ranks logit) ∧
      Shortest weight (topShare params) (ranked.take (params.topK.getD ranked.length)) support ∧
      distribution.probabilities.length = vocabularySize ∧
      (∀ tokenId, 0 < distribution.probabilities.getD tokenId 0 ↔ tokenId ∈ support) ∧
      (∀ tokenId ∈ support, distribution.probabilities.getD tokenId 0 =
        weight tokenId / (support.map weight).sum) ∧
      distribution.probabilities.sum = 1 ∧
      (∀ history' workspace', SamplingWorkspace.Sized vocabularySize workspace' →
        (∀ tokenId, tokenId ∈ history' ↔ tokenId ∈ history) →
        ∃ now', processBf16Native endian Real.exp Real.log row constraints history' params
          workspace' = .ok distribution now') ∧
      ∀ (ε ρ : Type) (nextU32 : EStateM ε ρ Nat) (rng rng' : ρ) (word : Nat),
        nextU32 rng = .ok word rng' → word ≤ u32Max →
        ∃ result, distribution.sample nextU32 rng = .ok result rng' ∧
          result.tokenId ∈ support ∧
          result.probability = distribution.probabilities.getD result.tokenId 0 ∧
          (distribution.probabilities.take result.tokenId).sum ≤ midpoint ℝ word ∧
          midpoint ℝ word < (distribution.probabilities.take (result.tokenId + 1)).sum := by
  intro logit weight
  obtain ⟨hsize, _⟩ := bounds_of_valid hparams
  have hlength : (rowBits endian row).length = vocabularySize := by
    rw [length_rowBits, hrow]
    omega
  have hvalid := validateInputs_eq_ok endian hparams hrow hfinite hmask hhistory
  have hallowed : allowedFrom constraints 0 vocabularySize ≠ [] := by
    obtain ⟨tokenId, hlt, hallow⟩ := hsome
    exact List.ne_nil_of_mem (mem_allowedFrom.mpr ⟨hlt, hallow⟩)
  obtain ⟨now, hcall⟩ := process_reference h hvalid hpositive hallowed
  have hperm := ranking_perm (rowBits endian row) constraints history params
  rw [← hlength] at hallowed
  have hshortest := supportOf_shortest history hparams hallowed
  have hsum := supportOf_sum_pos history hparams hallowed
  have hbegins := hshortest.begins.trans topRanked_prefix
  have hranked : ∀ tokenId, tokenId ∈ ranking (rowBits endian row) constraints history params ↔
      tokenId < vocabularySize ∧ constraints.allows tokenId = true := by
    intro tokenId
    rw [hperm.mem_iff, mem_allowedFrom, hlength]
  have hnodup := hperm.nodup_iff.mpr (allowedFrom_nodup constraints (rowBits endian row).length)
  generalize hsupport : supportOf Real.exp (rowBits endian row) constraints history params =
    support at hshortest hsum hbegins
  have hlt : ∀ tokenId ∈ support, tokenId < vocabularySize := fun tokenId hmem =>
    ((hranked tokenId).mp (hbegins.subset hmem)).1
  have hprobabilities : (referenceDistribution Real.exp Real.log (rowBits endian row) constraints
      history params).probabilities = (List.range vocabularySize).map fun tokenId =>
        if tokenId ∈ support then weight tokenId / (support.map weight).sum else 0 := by
    unfold referenceDistribution
    simp only [hsupport, hlength, exp_logProbability hsum]
    rfl
  generalize hdistribution : referenceDistribution Real.exp Real.log (rowBits endian row)
    constraints history params = distribution at hcall hprobabilities
  have hgetD : ∀ tokenId, distribution.probabilities.getD tokenId 0 =
      if tokenId ∈ support then weight tokenId / (support.map weight).sum else 0 := by
    intro tokenId
    rw [hprobabilities]
    exact getD_table hlt _ tokenId
  have hone : distribution.probabilities.sum = 1 := by
    rw [hprobabilities, sum_table (hnodup.sublist hbegins.sublist) hlt]
    simp only [div_eq_mul_inv, List.sum_map_mul_right]
    exact mul_inv_cancel₀ (ne_of_gt hsum)
  refine ⟨distribution, now, _, support, hcall, hranked, hnodup, ranking_pairwise hpositive,
    hshortest, ?_, ?_, ?_, hone, ?_, ?_⟩
  · rw [hprobabilities, List.length_map, List.length_range]
  · intro tokenId
    rw [hgetD]
    split
    · next hmem =>
        exact iff_of_true (div_pos (tokenWeight_pos tokenId) hsum) hmem
    · next hout => exact iff_of_false (lt_irrefl 0) hout
  · intro tokenId hmem
    rw [hgetD, if_pos hmem]
  · intro history' workspace' hsized hsame
    have hhistory' : ∀ tokenId ∈ history', tokenId < vocabularySize :=
      fun tokenId hmem => hhistory tokenId ((hsame tokenId).mp hmem)
    have hvalid' := validateInputs_eq_ok endian hparams hrow hfinite hmask hhistory'
    obtain ⟨now', hcall'⟩ := process_reference hsized hvalid' hpositive (hlength ▸ hallowed)
    rw [referenceDistribution_congr _ hsame, hdistribution] at hcall'
    exact ⟨now', hcall'⟩
  · intro ε ρ nextU32 rng rng' word hword hle
    have hnonneg : ∀ probability ∈ distribution.probabilities, 0 ≤ probability := by
      intro probability hmem
      rw [hprobabilities] at hmem
      obtain ⟨tokenId, _, rfl⟩ := List.mem_map.mp hmem
      split
      · exact le_of_lt (div_pos (tokenWeight_pos tokenId) hsum)
      · exact le_refl 0
    obtain ⟨hstart, hend⟩ := midpoint_bounds hle
    obtain ⟨place, hplace, hdraw, hpart, hlow, hhigh⟩ := drawFrom_spec (midpoint ℝ word) 0 0 0
      distribution.probabilities hnonneg hstart (by rw [zero_add, hone]; exact hend)
    rw [Nat.zero_add] at hdraw
    rw [zero_add] at hlow hhigh
    rw [hgetD] at hpart
    have hmem : place ∈ support := by
      by_contra hout
      rw [if_neg hout] at hpart
      exact lt_irrefl 0 hpart
    have hid : u32OrMax place = place := by
      have hbound := hlt place hmem
      unfold u32OrMax
      omega
    refine ⟨distribution.result place, ?_, hmem, rfl, hlow, hhigh⟩
    have hgreedy : distribution.greedyToken = none := by
      rw [← hdistribution]
      rfl
    unfold ProcessedDistribution.sample
    rw [hgreedy]
    simp only [bind, EStateM.bind, hword, hdraw, hid]
    rfl

theorem decodeFiniteBf16_eq (bits : UInt16) (value : Int)
    (h : signedMagnitude bits = value * 2 ^ 133) : decodeFiniteBf16 ℝ bits = value := by
  unfold decodeFiniteBf16
  rw [h, Int.cast_mul, Int.cast_pow, Int.cast_two]
  exact mul_div_cancel_right₀ _ (by positivity)

theorem exp_two_le : Real.exp 2 ≤ 2 * Real.exp (3 / 2) := by
  have hhalf : (1 : ℝ) / 2 ≤ Real.exp (-(1 / 2)) := by
    have hbound := Real.add_one_le_exp (-(1 / 2) : ℝ)
    linarith
  calc Real.exp 2 = 2 * (Real.exp 2 * (1 / 2)) := by ring
    _ ≤ 2 * (Real.exp 2 * Real.exp (-(1 / 2))) := by gcongr
    _ = 2 * Real.exp (3 / 2) := by
        rw [← Real.exp_add]
        norm_num

/-- The first three of four tokens, where the third has a logit between the others. -/
theorem ranked_of_masked {logit : Nat → ℝ} {ranked : List Nat}
    (hranked : ∀ tokenId, tokenId ∈ ranked ↔
      tokenId < 4 ∧ (TokenConstraints.allowedMask [true, true, true, false]).allows tokenId = true)
    (hnodup : ranked.Nodup) (hpairwise : ranked.Pairwise (Ranks logit))
    (hlow : logit 0 < logit 2) (hhigh : logit 2 < logit 1) : ranked = [1, 2, 0] := by
  apply eq_of_pairwise_ranks hpairwise
  · simp [Ranks, hlow, hhigh, hlow.trans hhigh]
  · apply (List.perm_ext_iff_of_nodup hnodup (by decide)).mpr
    intro tokenId
    rw [hranked]
    constructor
    · rintro ⟨hlt, hallow⟩
      interval_cases tokenId <;> simp_all [TokenConstraints.allows]
    · intro hmem
      simp only [List.mem_cons, List.not_mem_nil, or_false] at hmem
      rcases hmem with rfl | rfl | rfl <;> decide

/-- The sampler runs again for a row whose mask, penalty, top-k and top-p all take part,
and the word draws the less likely of the two tokens that are left. -/
theorem sampling_support_topK :
    let row : List UInt8 := [0x80, 0x3f, 0x00, 0x40, 0x40, 0x40, 0x80, 0x40]
    let params : SamplingParams ℝ := ⟨.finite 1, some 2, some (.finite (3 / 4)), .finite 2⟩
    ∃ workspace earlier used distribution now result,
      SamplingWorkspace.new 4 = .ok workspace ∧
      processBf16Native .little Real.exp Real.log row .allowAll [0] params workspace =
        .ok earlier used ∧
      processBf16Native .little Real.exp Real.log row (.allowedMask [true, true, true, false])
        [2, 2] params used = .ok distribution now ∧
      distribution.sample (pure 3000000000 : EStateM Unit Unit Nat) () = .ok result () ∧
      result.tokenId = 2 ∧ 0 < result.probability := by
  intro row params
  have hnew : SamplingWorkspace.new (K := ℝ) 4 = .ok
      { processedLogits := List.replicate 4 ⊥
        probabilities := List.replicate 4 0
        logProbabilities := List.replicate 4 ⊥
        candidateIds := List.replicate 4 0
        historySeen := List.replicate 4 false } := by
    rfl
  have hparams : params.validate 4 = .ok () := by
    have hshare : (3 : ℝ) / 4 ≤ 1 := by norm_num
    simp [params, SamplingParams.validate, checkTopK, checkTopP, errorIf, Ieee.finiteAnd, u32Max,
      bind, Except.bind, hshare]
  have hpositive : 0 < params.temperature.checked := one_pos
  have hbits : rowBits .little row = [0x3f80, 0x4000, 0x4040, 0x4080] := rfl
  have hfinite : ∀ bits ∈ rowBits .little row, isFiniteBf16 bits = true := by
    simp [hbits, isFiniteBf16, exponentField]
  have hall : ∀ mask, TokenConstraints.allowAll = .allowedMask mask → mask.length = 4 := nofun
  have hmask : ∀ mask, TokenConstraints.allowedMask [true, true, true, false] =
      .allowedMask mask → mask.length = 4 := by
    rintro mask ⟨⟩
    rfl
  have hhistory : ∀ tokenId ∈ [0], tokenId < 4 := by decide
  have hhistory' : ∀ tokenId ∈ [2, 2], tokenId < 4 := by decide
  obtain ⟨earlier, used, _, _, hearlier, _⟩ := sampling_support (sized_new hnew) hparams
    hpositive rfl hfinite hall ⟨0, by decide, rfl⟩ hhistory
  obtain ⟨distribution, now, ranked, support, hcall, hranked, hnodup, hpairwise, hshortest,
      hlength, hsupport, hshare, _, _, hdraw⟩ :=
    sampling_support ((sized_new hnew).of_process hearlier) hparams hpositive rfl hfinite hmask
      ⟨0, by decide, rfl⟩ hhistory'
  obtain ⟨result, hsample, hmem, hresult, _, hhigh⟩ := hdraw Unit Unit
    (pure 3000000000) () () 3000000000 rfl (by decide)
  refine ⟨_, earlier, used, distribution, now, result, hnew, hearlier, hcall, hsample, ?_, ?_⟩
  · rw [hbits] at hpairwise hshortest hshare
    generalize hlogit : penalizedLogit [0x3f80, 0x4000, 0x4040, 0x4080]
      params.repetitionPenalty.checked [2, 2] = logit at hpairwise
    generalize hweight : tokenWeight [0x3f80, 0x4000, 0x4040, 0x4080] [2, 2] params = weight
      at hshortest hshare
    obtain ⟨h0, h1, h2⟩ : logit 0 = 1 ∧ logit 1 = 2 ∧ logit 2 = 3 / 2 := by
      have hfirst := decodeFiniteBf16_eq 0x3f80 1 (by decide)
      have hsecond := decodeFiniteBf16_eq 0x4000 2 (by decide)
      have hthird := decodeFiniteBf16_eq 0x4040 3 (by decide)
      simp [← hlogit, params, penalizedLogit, penalized, Ieee.checked, hfirst, hsecond, hthird]
    have heq : ranked = [1, 2, 0] := by
      apply ranked_of_masked hranked hnodup hpairwise
      · rw [h0, h2]
        norm_num
      · rw [h1, h2]
        norm_num
    have hweights : ∀ tokenId, weight tokenId = Real.exp (logit tokenId) := by
      intro tokenId
      rw [← hweight, ← hlogit]
      exact congrArg Real.exp (div_one _)
    have hpos : ∀ tokenId, 0 < weight tokenId :=
      fun tokenId => hweights tokenId ▸ Real.exp_pos _
    have hdouble : weight 1 ≤ 2 * weight 2 := by
      rw [hweights, hweights, h1, h2]
      exact exp_two_le
    have htaken : support = [1, 2] := by
      rw [heq] at hshortest
      apply hshortest.eq_pair
      · exact le_of_lt (hpos 1)
      · change weight 1 < 3 / 4 * (weight 1 + weight 2)
        linarith [hpos 2]
    rw [htaken] at hmem hsupport hshare
    rcases List.mem_pair.mp hmem with hdrawn | hdrawn
    · -- The share of the second token ends at two thirds, before the middle of the word.
      have hzero : distribution.probabilities.getD 0 0 ≤ 0 :=
        le_of_not_gt fun hkept => absurd ((hsupport 0).mp hkept) (by decide)
      have hpart : distribution.probabilities.getD 1 0 ≤ 2 / 3 := by
        rw [hshare 1 List.mem_cons_self, List.map_cons, List.map_singleton, List.sum_pair,
          div_le_iff₀ (add_pos (hpos 1) (hpos 2))]
        linarith
      have htwo : (distribution.probabilities.take 2).sum =
          distribution.probabilities.getD 0 0 + distribution.probabilities.getD 1 0 := by
        obtain ⟨_, _, _, _, hfour⟩ := List.length_eq_four.mp hlength
        simp [hfour]
      have hmiddle : (2 : ℝ) / 3 ≤ midpoint ℝ 3000000000 := by
        unfold midpoint
        norm_num
      rw [hdrawn, htwo] at hhigh
      linarith
    · exact hdrawn
  · rw [hresult]
    exact (hsupport _).mpr hmem

end Claim

end Riley.Sampling
