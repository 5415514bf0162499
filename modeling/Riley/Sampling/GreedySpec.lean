import Mathlib.Algebra.Order.Field.Rat
import Mathlib.Data.List.GetD
import Riley.Library.Ranking
import Riley.Sampling.OrderKey
import Riley.Sampling.WorkspaceSpec

/-!
Greedy selection on the bits returns what the sampler returns at temperature zero
without a penalty: the first allowed token of the greatest logit, or the same error.
-/

namespace Riley.Sampling

open Outcome Ranking SamplingWorkspace

section Row

variable {endian : Endian} {row : List UInt8}

theorem bitsAt_eq {tokenId : Nat} (hlt : 2 * tokenId + 1 < row.length) :
    bitsAt endian row tokenId = (rowBits endian row).getD tokenId 0 := by
  induction row using rowBits.induct generalizing tokenId with
  | case1 first second rest ih =>
      cases tokenId with
      | zero => rfl
      | succ tokenId =>
          rw [List.length_cons, List.length_cons] at hlt
          exact ih (by omega)
  | case2 row hshort =>
      cases row with
      | nil => exact absurd hlt (Nat.not_lt_zero _)
      | cons first rest =>
          cases rest with
          | nil =>
              rw [List.length_singleton] at hlt
              omega
          | cons second rest => exact absurd rfl (hshort first second rest)

theorem findIdx?_eq_find? (logits : List UInt16) (condition : UInt16 → Bool) :
    logits.findIdx? condition =
      (List.range logits.length).find? fun index => condition (logits.getD index 0) := by
  induction logits with
  | nil => rfl
  | cons first rest ih =>
      rw [List.length_cons, List.range_succ_eq_map, List.findIdx?_cons, List.find?_cons,
        List.find?_map]
      cases hfirst : condition first with
      | true => simp [hfirst]
      | false =>
          rw [if_neg Bool.false_ne_true, ih]
          simp only [List.getD_cons_zero, hfirst]
          rfl

end Row

section Keys

/-- The key of a token in a row, or zero when it is masked. -/
def keyAt (logits : List UInt16) (constraints : TokenConstraints) (tokenId : Nat) : UInt16 :=
  if constraints.allows tokenId then orderKey (logits.getD tokenId 0) else 0

variable {logits : List UInt16} {constraints : TokenConstraints}

theorem maximumKey_eq
    (hmask : ∀ mask, constraints = .allowedMask mask → mask.length = logits.length) :
    maximumKey logits constraints =
      ((List.range logits.length).map (keyAt logits constraints)).foldl max 0 := by
  cases constraints with
  | allowAll =>
      have hkeys : logits.map orderKey =
          (List.range logits.length).map (keyAt logits .allowAll) := by
        apply List.ext_getElem
        · rw [List.length_map, List.length_map, List.length_range]
        · intro index hlt hlt'
          rw [List.length_map] at hlt
          rw [List.getElem_map, List.getElem_map, List.getElem_range, keyAt,
            List.getD_eq_getElem _ _ hlt]
          rfl
      unfold maximumKey
      rw [← hkeys, List.foldl_map]
  | allowedMask mask =>
      have hlength := hmask mask rfl
      have hkeys : (logits.zip mask).map (fun entry => if entry.2 then orderKey entry.1 else 0) =
          (List.range logits.length).map (keyAt logits (.allowedMask mask)) := by
        apply List.ext_getElem
        · rw [List.length_map, List.length_map, List.length_range, List.length_zip, hlength,
            Nat.min_self]
        · intro index hlt hlt'
          rw [List.length_map, List.length_range] at hlt'
          rw [List.getElem_map, List.getElem_map, List.getElem_range, List.getElem_zip, keyAt,
            TokenConstraints.allows, List.getD_eq_getElem _ _ hlt',
            List.getD_eq_getElem _ _ (hlength.symm ▸ hlt')]
      unfold maximumKey
      rw [← hkeys, List.foldl_map]

theorem foldl_max_spec (keys : List UInt16) (start : UInt16) :
    (∀ key ∈ start :: keys, key.toNat ≤ (keys.foldl max start).toNat) ∧
      keys.foldl max start ∈ start :: keys := by
  induction keys generalizing start with
  | nil =>
      refine ⟨?_, List.mem_singleton_self start⟩
      intro key hkey
      rw [List.mem_singleton.mp hkey]
      exact Nat.le_refl _
  | cons first keys ih =>
      obtain ⟨hgreatest, hmem⟩ := ih (max start first)
      have hmax : max start first = if start ≤ first then first else start := rfl
      have hboth : start.toNat ≤ (max start first).toNat ∧ first.toNat ≤ (max start first).toNat ∧
          max start first ∈ [start, first] := by
        rw [hmax]
        split
        · next hle => exact ⟨UInt16.le_iff_toNat_le.mp hle, Nat.le_refl _, by simp⟩
        · next hgt =>
            have hlt : ¬ start.toNat ≤ first.toNat :=
              fun hle => hgt (UInt16.le_iff_toNat_le.mpr hle)
            exact ⟨Nat.le_refl _, by omega, by simp⟩
      have hstart := hgreatest _ List.mem_cons_self
      rw [List.foldl_cons]
      constructor
      · intro key hkey
        rcases List.mem_cons.mp hkey with rfl | hkey
        · exact hboth.1.trans hstart
        · rcases List.mem_cons.mp hkey with rfl | hkey
          · exact hboth.2.1.trans hstart
          · exact hgreatest key (List.mem_cons_of_mem _ hkey)
      · rcases List.mem_cons.mp hmem with heq | hmem
        · rw [heq]
          have hone := hboth.2.2
          simp only [List.mem_cons, List.not_mem_nil, or_false] at hone ⊢
          tauto
        · exact List.mem_cons_of_mem _ (List.mem_cons_of_mem _ hmem)

/-- The maximum is the greatest key of the allowed tokens, and not that of a mask. -/
theorem maximumKey_spec (hfinite : ∀ bits ∈ logits, isFiniteBf16 bits = true)
    (hmask : ∀ mask, constraints = .allowedMask mask → mask.length = logits.length) :
    (∀ tokenId ∈ allowedFrom constraints 0 logits.length,
      (orderKey (logits.getD tokenId 0)).toNat ≤ (maximumKey logits constraints).toNat) ∧
      (maximumKey logits constraints = 0 ↔ allowedFrom constraints 0 logits.length = []) ∧
      (allowedFrom constraints 0 logits.length ≠ [] →
        ∃ tokenId ∈ allowedFrom constraints 0 logits.length,
          orderKey (logits.getD tokenId 0) = maximumKey logits constraints) := by
  obtain ⟨hgreatest, hmem⟩ :=
    foldl_max_spec ((List.range logits.length).map (keyAt logits constraints)) 0
  rw [← maximumKey_eq hmask] at hgreatest hmem
  have hkey : ∀ tokenId ∈ allowedFrom constraints 0 logits.length,
      (orderKey (logits.getD tokenId 0)).toNat ≤ (maximumKey logits constraints).toNat := by
    intro tokenId hallowed
    obtain ⟨hlt, hallow⟩ := mem_allowedFrom.mp hallowed
    apply hgreatest
    apply List.mem_cons_of_mem
    rw [List.mem_map]
    exact ⟨tokenId, List.mem_range.mpr hlt, if_pos hallow⟩
  have hpos : allowedFrom constraints 0 logits.length ≠ [] →
      0 < (maximumKey logits constraints).toNat := by
    intro hne
    obtain ⟨tokenId, hallowed⟩ := List.exists_mem_of_ne_nil _ hne
    have hlt := (mem_allowedFrom.mp hallowed).1
    have hbits : isFiniteBf16 (logits.getD tokenId 0) = true := by
      rw [List.getD_eq_getElem _ _ hlt]
      exact hfinite _ (List.getElem_mem hlt)
    have hone := UInt16.lt_iff_toNat_lt.mp (orderKey_pos hbits)
    exact Nat.lt_of_lt_of_le hone (hkey tokenId hallowed)
  have hfrom : maximumKey logits constraints ≠ 0 →
      ∃ tokenId ∈ allowedFrom constraints 0 logits.length,
        orderKey (logits.getD tokenId 0) = maximumKey logits constraints := by
    intro hne
    rcases List.mem_cons.mp hmem with heq | hmem
    · exact absurd heq hne
    · obtain ⟨tokenId, hrange, heq⟩ := List.mem_map.mp hmem
      unfold keyAt at heq
      split at heq
      · next hallow =>
          exact ⟨tokenId, mem_allowedFrom.mpr ⟨List.mem_range.mp hrange, hallow⟩, heq⟩
      · exact absurd heq.symm hne
  refine ⟨hkey, ?_, ?_⟩
  · constructor
    · intro hzero
      by_contra hne
      have hlt := hpos hne
      rw [hzero] at hlt
      exact Nat.lt_irrefl _ hlt
    · intro hnil
      by_contra hne
      obtain ⟨tokenId, hallowed, _⟩ := hfrom hne
      rw [hnil] at hallowed
      exact absurd hallowed List.not_mem_nil
  · intro hne
    apply hfrom
    intro hzero
    have hlt := hpos hne
    rw [hzero] at hlt
    exact Nat.lt_irrefl _ hlt

end Keys

section Prepare

variable {K : Type} [LinearOrder K]

theorem leads_better (workspace : SamplingWorkspace K) (winner tokenId : Nat) :
    Leads workspace.logit [winner, tokenId] (workspace.better winner tokenId) := by
  unfold better
  split
  · next hbetter =>
      rw [Bool.or_eq_true, Bool.and_eq_true, decide_eq_true_eq, decide_eq_true_eq,
        decide_eq_true_eq] at hbetter
      refine ⟨by simp, ?_⟩
      intro item hitem
      rcases List.mem_cons.mp hitem with rfl | hitem
      · exact hbetter.imp_right fun heq => ⟨heq.1.symm, Nat.le_of_lt heq.2⟩
      · rw [List.mem_singleton.mp hitem]
        exact ranks_refl _ _
  · next hkeep =>
      rw [Bool.or_eq_true, Bool.and_eq_true, decide_eq_true_eq, decide_eq_true_eq,
        decide_eq_true_eq, not_or, not_and, not_lt] at hkeep
      refine ⟨by simp, ?_⟩
      intro item hitem
      rcases List.mem_cons.mp hitem with rfl | hitem
      · exact ranks_refl _ _
      · rw [List.mem_singleton.mp hitem]
        rcases lt_or_eq_of_le hkeep.1 with hlt | heq
        · exact .inl hlt
        · exact .inr ⟨heq, Nat.le_of_not_lt (hkeep.2 heq)⟩

variable [Field K] {logits : List UInt16} {constraints : TokenConstraints} {history : List Nat}
  {penalty : K} {count : Nat} {workspace : SamplingWorkspace K}

/-- The winner is the first of the allowed tokens of the greatest logit. -/
theorem prepareGreedy_leads (h : Prepared constraints logits penalty history count workspace)
    (hne : allowedFrom constraints 0 logits.length ≠ []) :
    ∃ winner, Leads workspace.logit (allowedFrom constraints 0 logits.length) winner ∧
      (prepareGreedy count workspace).1.greedyToken = some (u32OrMax winner) ∧
      (prepareGreedy count workspace).1.probabilities.getD winner 0 = 1 ∧
      (prepareGreedy count workspace).1.logProbabilities.getD winner ⊥ = ((0 : K) : WithBot K) := by
  obtain ⟨first, rest, hcandidates⟩ := List.exists_cons_of_ne_nil hne
  have hleads := leads_foldl (leads_better workspace) first rest
  rw [← hcandidates] at hleads
  have hlt := (mem_allowedFrom.mp hleads.1).1
  have hwithdraw : ∀ tokenIds (now : SamplingWorkspace K),
      (now.withdraw tokenIds).probabilities = now.probabilities ∧
        (now.withdraw tokenIds).logProbabilities = now.logProbabilities := by
    intro tokenIds
    induction tokenIds with
    | nil => exact fun now => ⟨rfl, rfl⟩
    | cons tokenId tokenIds ih => exact fun now => ih _
  refine ⟨_, hleads, ?_, ?_, ?_⟩
  · unfold prepareGreedy
    simp only
    rw [h.candidates, hcandidates]
    rfl
  · unfold prepareGreedy distribution
    simp only
    rw [h.candidates, hcandidates, (hwithdraw _ _).1, List.headD_cons, List.tail_cons,
      List.getD_eq_getElem?_getD, List.getElem?_set_self (by rw [h.sized.probabilities]; exact hlt)]
    rfl
  · unfold prepareGreedy distribution
    simp only
    rw [h.candidates, hcandidates, (hwithdraw _ _).2, List.headD_cons, List.tail_cons,
      List.getD_eq_getElem?_getD,
      List.getElem?_set_self (by rw [h.sized.logProbabilities]; exact hlt)]
    rfl

end Prepare

section Fast

variable {K : Type} [Field K] [LinearOrder K] {endian : Endian} {vocabularySize : Nat}
  {row : List UInt8} {constraints : TokenConstraints} {history : List Nat}
  {params : SamplingParams K}

/-- Requests that greedy selection answers. -/
def IsGreedy (params : SamplingParams K) : Prop :=
  params.temperature = .finite 0 ∧ params.repetitionPenalty = .finite 1

theorem bitsAt_row (hlength : row.length = 2 * vocabularySize) :
    ∀ tokenId ∈ List.range vocabularySize,
      bitsAt endian row tokenId = (rowBits endian row).getD tokenId 0 := by
  intro tokenId hmem
  have hlt := List.mem_range.mp hmem
  exact bitsAt_eq (by omega)

theorem find?_range_congr {condition condition' : Nat → Bool} (size : Nat)
    (h : ∀ index ∈ List.range size, condition index = condition' index) :
    (List.range size).find? condition = (List.range size).find? condition' := by
  rw [← List.head?_filter, ← List.head?_filter, List.filter_congr h]

theorem greedy_error (hgreedy : IsGreedy params) {error : SamplingError K}
    (h : validateInputs endian vocabularySize row constraints history params = .error error) :
    greedyBf16Native endian vocabularySize row constraints history params = .error error := by
  unfold greedyBf16Native
  rw [if_neg (by rw [hgreedy.1, hgreedy.2]; simp)]
  unfold validateInputs at h
  cases hshapes : checkShapes vocabularySize row constraints history params with
  | error shape =>
      rw [hshapes] at h
      cases h
      rfl
  | ok _ =>
      obtain ⟨_, hlength, hrow, _⟩ := shapes_of_ok endian hshapes
      rw [hshapes] at h
      change checkFinite (rowBits endian row) = .error error at h
      unfold checkFinite at h
      split at h
      · cases h
      · next tokenId hfound =>
          have hnonfinite : (fun bits : UInt16 => decide (isFiniteBf16 bits = false)) =
              isNonFinite := by
            funext bits
            rw [isNonFinite_eq]
            cases isFiniteBf16 bits <;> rfl
          rw [hnonfinite] at hfound
          have hany : (rowBits endian row).any isNonFinite = true := by
            obtain ⟨hlt, hbits, _⟩ := List.findIdx?_eq_some_iff_getElem.mp hfound
            exact List.any_eq_true.mpr ⟨_, List.getElem_mem hlt, hbits⟩
          have hfirst : (List.range vocabularySize).find? (fun tokenId =>
              isNonFinite (bitsAt endian row tokenId)) = some tokenId := by
            rw [findIdx?_eq_find?, hlength] at hfound
            rw [← hfound]
            apply find?_range_congr
            intro index hindex
            rw [bitsAt_row hrow index hindex]
          have hmem := List.mem_of_find?_eq_some hfirst
          change (if (rowBits endian row).any isNonFinite then _ else _) = _
          rw [if_pos hany, hfirst, Option.getD_some, bitsAt_row hrow tokenId hmem,
            Except.error.inj h]

/-- What is left of the fast path when the inputs are valid. -/
theorem greedy_valid (hgreedy : IsGreedy params)
    (h : validateInputs endian vocabularySize row constraints history params = .ok ()) :
    (allowedFrom constraints 0 vocabularySize = [] →
      greedyBf16Native endian vocabularySize row constraints history params = .error .allMasked) ∧
    ∀ winner, Leads (fun tokenId => (orderKey ((rowBits endian row).getD tokenId 0)).toNat)
        (allowedFrom constraints 0 vocabularySize) winner →
      greedyBf16Native endian vocabularySize row constraints history params =
        .ok (some ⟨u32OrMax winner, 1, ((0 : K) : WithBot K)⟩) := by
  obtain ⟨⟨⟩, hshapes, hfinite⟩ := except_bind_eq_ok.mp h
  obtain ⟨_, hlength, hrow, hmask, _⟩ := shapes_of_ok endian hshapes
  have hfinite := finite_of_ok hfinite
  have hnone : (rowBits endian row).any isNonFinite = false := by
    apply List.any_eq_false.mpr
    intro bits hmem
    rw [isNonFinite_eq, hfinite bits hmem]
    exact Bool.false_ne_true
  rw [← hlength] at hmask
  obtain ⟨hgreatest, hzero, hsome⟩ := maximumKey_spec hfinite hmask
  rw [hlength] at hgreatest hzero hsome
  unfold greedyBf16Native
  rw [if_neg (by rw [hgreedy.1, hgreedy.2]; simp), hshapes]
  constructor
  · intro hnil
    change (if (rowBits endian row).any isNonFinite then _ else _) = _
    rw [hnone, if_neg Bool.false_ne_true, if_pos (hzero.mpr hnil)]
  · intro winner hleads
    have hne : allowedFrom constraints 0 vocabularySize ≠ [] := List.ne_nil_of_mem hleads.1
    have hfind : (List.range vocabularySize).find? (fun tokenId => constraints.allows tokenId &&
        decide (orderKey (bitsAt endian row tokenId) =
          maximumKey (rowBits endian row) constraints)) =
        (allowedFrom constraints 0 vocabularySize).find? (fun tokenId =>
          (orderKey ((rowBits endian row).getD tokenId 0)).toNat =
            (maximumKey (rowBits endian row) constraints).toNat) := by
      unfold allowedFrom
      rw [← List.range_eq_range', List.find?_filter]
      apply find?_range_congr
      intro index hindex
      rw [bitsAt_row hrow index hindex]
      simp only [UInt16.toNat_inj, Bool.decide_and, Bool.decide_eq_true]
    change (if (rowBits endian row).any isNonFinite then _ else _) = _
    rw [hnone, if_neg Bool.false_ne_true, if_neg (fun heq => hne (hzero.mp heq)), hfind]
    cases hfirst : (allowedFrom constraints 0 vocabularySize).find? (fun tokenId =>
        (orderKey ((rowBits endian row).getD tokenId 0)).toNat =
          (maximumKey (rowBits endian row) constraints).toNat) with
    | none =>
        obtain ⟨tokenId, hallowed, heq⟩ := hsome hne
        have hnot := List.find?_eq_none.mp hfirst tokenId hallowed
        rw [heq] at hnot
        simp at hnot
    | some found =>
        have hsorted : (allowedFrom constraints 0 vocabularySize).Pairwise (· < ·) :=
          by
          apply List.Pairwise.filter
          rw [← List.range_eq_range']
          exact List.pairwise_lt_range
        have hfound := leads_of_find hsorted hgreatest hfirst
        rw [hfound.unique hleads]

/-- A greedy request is always answered. -/
theorem greedy_answers (hgreedy : IsGreedy params) :
    greedyBf16Native endian vocabularySize row constraints history params ≠ .ok none := by
  unfold greedyBf16Native
  rw [if_neg (by rw [hgreedy.1, hgreedy.2]; simp)]
  cases checkShapes vocabularySize row constraints history params with
  | error error => exact nofun
  | ok _ =>
      change (if (rowBits endian row).any isNonFinite then _ else _) ≠ _
      split
      · exact nofun
      · split
        · exact nofun
        · split <;> exact nofun

/-- Inputs that fit the vocabulary pass every check. -/
theorem validateInputs_ok (hparams : params.validate vocabularySize = .ok ())
    (hrow : row.length = 2 * vocabularySize)
    (hmask : ∀ mask, constraints = .allowedMask mask → mask.length = vocabularySize)
    (hhistory : ∀ tokenId ∈ history, tokenId < vocabularySize)
    (hfinite : ∀ bits ∈ rowBits endian row, isFiniteBf16 bits = true) :
    validateInputs endian vocabularySize row constraints history params = .ok () := by
  have hsize : vocabularySize ≤ u32Max + 1 := by
    have hchecks := hparams
    unfold SamplingParams.validate at hchecks
    obtain ⟨_, _, hchecks⟩ := except_bind_eq_ok.mp hchecks
    obtain ⟨_, hsize, _⟩ := except_bind_eq_ok.mp hchecks
    have hle := errorIf_eq_ok.mp hsize
    omega
  have hbytes : rowBytes vocabularySize =
      (.ok (2 * vocabularySize) : Except (SamplingError K) Nat) := by
    unfold rowBytes
    have hproduct : checkedMul usizeMax vocabularySize 2 = some (2 * vocabularySize) := by
      apply checkedMul_eq_some.mpr
      unfold u32Max at hsize
      unfold usizeMax u64Max
      omega
    rw [hproduct]
  have hlength : errorIf (row.length ≠ 2 * vocabularySize)
      (.logitsLength (2 * vocabularySize) row.length : SamplingError K) = .ok () :=
    errorIf_eq_ok.mpr (not_not.mpr hrow)
  have hconstraints : checkMask vocabularySize constraints =
      (.ok () : Except (SamplingError K) Unit) := by
    cases constraints with
    | allowAll => rfl
    | allowedMask mask => exact errorIf_eq_ok.mpr (not_not.mpr (hmask mask rfl))
  have hhistory : checkHistory vocabularySize history =
      (.ok () : Except (SamplingError K) Unit) := by
    unfold checkHistory
    have hnone : history.find? (vocabularySize ≤ ·) = none := by
      apply List.find?_eq_none.mpr
      intro tokenId hmem
      have hlt := hhistory tokenId hmem
      simp only [decide_eq_true_eq]
      omega
    rw [hnone]
  have hlogits : checkFinite (rowBits endian row) =
      (.ok () : Except (SamplingError K) Unit) := by
    unfold checkFinite
    have hnone : (rowBits endian row).findIdx? (isFiniteBf16 · = false) = none := by
      apply List.findIdx?_eq_none_iff.mpr
      intro bits hmem
      simp [hfinite bits hmem]
    rw [hnone]
  unfold validateInputs checkShapes
  rw [hparams, hbytes]
  show ((do
    errorIf (row.length ≠ 2 * vocabularySize) (.logitsLength (2 * vocabularySize) row.length)
    checkMask vocabularySize constraints
    checkHistory vocabularySize history) >>= fun _ => checkFinite (rowBits endian row)) = _
  rw [hlength, hconstraints, hhistory, hlogits]
  rfl

end Fast

section Claim

variable {K : Type} [Field K] [LinearOrder K] {vocabularySize : Nat} {params : SamplingParams K}

theorem penalizedLogit_one (logits : List UInt16) (history : List Nat) (tokenId : Nat) :
    penalizedLogit logits (1 : K) history tokenId = decodeFiniteBf16 K (logits.getD tokenId 0) := by
  unfold penalizedLogit penalized
  simp

theorem u32OrMax_of_valid (h : params.validate vocabularySize = .ok ()) {tokenId : Nat}
    (hlt : tokenId < vocabularySize) : u32OrMax tokenId = tokenId := by
  unfold SamplingParams.validate at h
  obtain ⟨_, _, h⟩ := except_bind_eq_ok.mp h
  obtain ⟨⟨⟩, hsize, _⟩ := except_bind_eq_ok.mp h
  have hle := errorIf_eq_ok.mp hsize
  unfold u32OrMax
  omega

/-- Greedy selection returns the first of the allowed tokens of the greatest logit. -/
theorem greedy_picks [IsStrictOrderedRing K] {endian : Endian} {row : List UInt8}
    {constraints : TokenConstraints} {history : List Nat} (hgreedy : IsGreedy params)
    (h : validateInputs endian vocabularySize row constraints history params = .ok ())
    {winner : Nat}
    (hleads : Leads (fun tokenId => decodeFiniteBf16 K ((rowBits endian row).getD tokenId 0))
      (allowedFrom constraints 0 vocabularySize) winner) :
    greedyBf16Native endian vocabularySize row constraints history params =
      .ok (some ⟨winner, 1, ((0 : K) : WithBot K)⟩) := by
  have hkeys : Leads (fun tokenId => (orderKey ((rowBits endian row).getD tokenId 0)).toNat)
      (allowedFrom constraints 0 vocabularySize) winner := by
    apply hleads.of_order
    intro first _ second _
    rw [decode_lt]
    exact UInt16.lt_iff_toNat_lt
  obtain ⟨⟨⟩, hshapes, _⟩ := except_bind_eq_ok.mp h
  have hparams := (shapes_of_ok endian hshapes).1
  have hid := u32OrMax_of_valid hparams (mem_allowedFrom.mp hkeys.1).1
  rw [(greedy_valid hgreedy h).2 winner hkeys, hid]

variable [IsStrictOrderedRing K] {workspace : SamplingWorkspace K} (endian : Endian)
  (exp ln : K → K) (row : List UInt8) (constraints : TokenConstraints) (history : List Nat)

/-- The two ways through the sampler, run side by side. -/
theorem wp_process_greedy (hgreedy : IsGreedy params) (h : workspace.Sized vocabularySize) :
    wp (processBf16Native endian exp ln row constraints history params)
      (fun distribution _ => ∃ result,
        greedyBf16Native endian vocabularySize row constraints history params =
          .ok (some result) ∧
        ∀ (ε ρ : Type) (nextU32 : EStateM ε ρ Nat) (rng : ρ),
          distribution.sample nextU32 rng = .ok result rng)
      (fun error _ => greedyBf16Native endian vocabularySize row constraints history params =
        .error error) workspace := by
  apply wp_processBf16Native h
  · exact fun error herror => greedy_error hgreedy herror
  · exact fun _ _ hvalid hnil => (greedy_valid hgreedy hvalid).1 hnil
  · intro count prepared hvalid hne hprepared
    obtain ⟨⟨⟩, hshapes, _⟩ := except_bind_eq_ok.mp hvalid
    obtain ⟨hparams, hlength, _⟩ := shapes_of_ok endian hshapes
    obtain ⟨winner, hleads, htoken, hprobability, hlog⟩ :=
      prepareGreedy_leads hprepared (hlength ▸ hne)
    have hlogit : ∀ tokenId ∈ allowedFrom constraints 0 (rowBits endian row).length,
        prepared.logit tokenId =
          ↑(decodeFiniteBf16 K ((rowBits endian row).getD tokenId 0)) := by
      intro tokenId hallowed
      rw [hprepared.logit, if_pos hallowed, hgreedy.2]
      exact congrArg _ (penalizedLogit_one _ _ _)
    have hkeys : Leads (fun tokenId => (orderKey ((rowBits endian row).getD tokenId 0)).toNat)
        (allowedFrom constraints 0 vocabularySize) winner := by
      rw [← hlength]
      apply hleads.of_order
      intro first hfirst second hsecond
      rw [hlogit first hfirst, hlogit second hsecond, WithBot.coe_lt_coe, decode_lt]
      exact UInt16.lt_iff_toNat_lt
    have hid := u32OrMax_of_valid hparams (mem_allowedFrom.mp hkeys.1).1
    simp only [hgreedy.1, if_true]
    refine ⟨_, (greedy_valid hgreedy hvalid).2 winner hkeys, ?_⟩
    intro ε ρ nextU32 rng
    unfold ProcessedDistribution.sample
    rw [htoken, hid]
    unfold ProcessedDistribution.result
    simp only [hprobability, hlog]
    rfl

/-- At temperature zero without a penalty, greedy selection returns what processing
and sampling return, and no random word is drawn; otherwise it declines. -/
theorem greedyBf16Native_eq (h : workspace.Sized vocabularySize) :
    (IsGreedy params →
      (∀ result,
        greedyBf16Native endian vocabularySize row constraints history params =
            .ok (some result) ↔
          ∃ distribution now,
            processBf16Native endian exp ln row constraints history params workspace =
              .ok distribution now ∧
            ∀ (ε ρ : Type) (nextU32 : EStateM ε ρ Nat) (rng : ρ),
              distribution.sample nextU32 rng = .ok result rng) ∧
      (∀ error,
        greedyBf16Native endian vocabularySize row constraints history params = .error error ↔
          ∃ now, processBf16Native endian exp ln row constraints history params workspace =
            .error error now) ∧
      greedyBf16Native endian vocabularySize row constraints history params ≠ .ok none) ∧
    (¬ IsGreedy params →
      greedyBf16Native endian vocabularySize row constraints history params = .ok none) := by
  constructor
  · intro hgreedy
    have hboth := wp_elim
      (wp_process_greedy endian exp ln row constraints history hgreedy h)
    cases hrun : processBf16Native endian exp ln row constraints history params workspace with
    | ok distribution now =>
        obtain ⟨result, hfast, hsample⟩ := hboth.1 distribution now hrun
        rw [hfast]
        refine ⟨?_, ?_, nofun⟩
        · intro result'
          constructor
          · intro heq
            cases heq
            exact ⟨distribution, now, rfl, hsample⟩
          · rintro ⟨distribution', now', heq, hsample'⟩
            cases heq
            have hsame := hsample' Unit Unit (pure 0) ()
            rw [hsample Unit Unit (pure 0) ()] at hsame
            cases hsame
            rfl
        · exact fun error => ⟨nofun, nofun⟩
    | error error now =>
        rw [hboth.2 error now hrun]
        refine ⟨?_, ?_, nofun⟩
        · exact fun result => ⟨nofun, nofun⟩
        · intro error'
          constructor
          · intro heq
            cases heq
            exact ⟨now, rfl⟩
          · rintro ⟨now', heq⟩
            cases heq
            rfl
  · intro hnot
    unfold greedyBf16Native
    rw [if_pos]
    by_contra hand
    rw [not_or, not_not, not_not] at hand
    exact hnot hand

/-- Two rows that tie, with the first of the greatest logits masked. -/
theorem greedyBf16Native_eq_tie :
    let row : List UInt8 := [0x80, 0x3f, 0x00, 0x40, 0x00, 0x40, 0x00, 0x40]
    let params : SamplingParams ℚ := ⟨.finite 0, none, none, .finite 1⟩
    ∃ workspace, SamplingWorkspace.new 4 = .ok workspace ∧
      greedyBf16Native .little 4 row (.allowedMask [true, false, true, true]) [] params =
        .ok (some ⟨2, 1, ((0 : ℚ) : WithBot ℚ)⟩) ∧
      ∃ distribution now,
        processBf16Native .little id id row (.allowedMask [true, false, true, true]) [] params
          workspace = .ok distribution now ∧
        ∀ (ε ρ : Type) (nextU32 : EStateM ε ρ Nat) (rng : ρ),
          distribution.sample nextU32 rng = .ok ⟨2, 1, ((0 : ℚ) : WithBot ℚ)⟩ rng := by
  intro row params
  have hnew : SamplingWorkspace.new (K := ℚ) 4 = .ok
      { processedLogits := List.replicate 4 ⊥
        probabilities := List.replicate 4 0
        logProbabilities := List.replicate 4 ⊥
        candidateIds := List.replicate 4 0
        historySeen := List.replicate 4 false } := by
    rfl
  have hfast : greedyBf16Native .little 4 row (.allowedMask [true, false, true, true]) [] params =
      .ok (some ⟨2, 1, ((0 : ℚ) : WithBot ℚ)⟩) := by
    decide +kernel
  have hgreedy : IsGreedy params := ⟨rfl, rfl⟩
  have hsame := (greedyBf16Native_eq .little id id row (.allowedMask [true, false, true, true]) []
    (sized_new hnew)).1 hgreedy
  exact ⟨_, hnew, hfast, (hsame.1 _).mp hfast⟩

end Claim

end Riley.Sampling
