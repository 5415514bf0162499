import Mathlib
import Riley.Scheduling.Select

/-!
What selection picks: running requests with a bounded share of the budget each, all decode work
that the budget has room for, and less of it only by what an aged prompt takes.
-/

namespace Riley.Scheduling

open Outcome

def decodeCount (candidates : List Candidate) : Nat :=
  candidates.countP fun candidate => decide (candidate.kind = .decode)

section Lists

@[simp] theorem totalTokens_nil : totalTokens [] = 0 := rfl

@[simp] theorem totalTokens_cons (candidate : Candidate) (rest : List Candidate) :
    totalTokens (candidate :: rest) = candidate.tokenCount + totalTokens rest := rfl

@[simp] theorem totalTokens_append (first second : List Candidate) :
    totalTokens (first ++ second) = totalTokens first + totalTokens second := by
  unfold totalTokens
  rw [List.map_append, List.sum_append]

@[simp] theorem totalTokens_reverse (candidates : List Candidate) :
    totalTokens candidates.reverse = totalTokens candidates := by
  unfold totalTokens
  rw [List.map_reverse, List.sum_reverse]

@[simp] theorem decodeCount_append (first second : List Candidate) :
    decodeCount (first ++ second) = decodeCount first + decodeCount second :=
  List.countP_append

theorem decodeCount_prefill {candidates : List Candidate}
    (h : ∀ candidate ∈ candidates, candidate.kind = .prefill) : decodeCount candidates = 0 :=
  List.countP_eq_zero.mpr fun candidate hcandidate => by
    rw [h candidate hcandidate]
    decide

theorem decodeCount_decode {candidates : List Candidate}
    (h : ∀ candidate ∈ candidates, candidate.kind = .decode) :
    decodeCount candidates = candidates.length :=
  List.countP_eq_length.mpr fun candidate hcandidate => decide_eq_true (h candidate hcandidate)

end Lists

section Ready

variable {s : Scheduler} {item : ReadyRequest}

/-- A ready request is the work of a running one. -/
theorem mem_prefillReady (h : item ∈ s.prefillReady) :
    0 < item.remainingTokens ∧ ∃ record ∈ s.requests,
      record.requestId = item.requestId ∧ record.state ≠ .waiting := by
  obtain ⟨record, hrecord, hready⟩ := List.mem_filterMap.mp ((List.mem_insertionSort _).mp h)
  unfold readyPrefill at hready
  split at hready
  all_goals try split_ifs at hready with hdone
  all_goals cases hready
  all_goals
    refine ⟨Nat.pos_of_ne_zero hdone, record, hrecord, rfl, ?_⟩
    simp [*]

theorem mem_decodeReady (h : item ∈ s.decodeReady) :
    ∃ record ∈ s.requests, record.requestId = item.requestId ∧ record.state ≠ .waiting := by
  obtain ⟨record, hrecord, hready⟩ := List.mem_filterMap.mp ((List.mem_insertionSort _).mp h)
  unfold readyDecode at hready
  split at hready
  · cases hready
    refine ⟨record, hrecord, rfl, ?_⟩
    simp [*]
  · cases hready

end Ready

section Take

theorem length_takeDecode (budget : Nat) (items : List ReadyRequest) :
    (takeDecode budget items).length = min items.length budget := by
  fun_induction takeDecode budget items with
  | case1 budget item rest ih =>
      rw [List.length_cons, List.length_cons, ih]
      omega
  | case2 budget items hstop =>
      cases budget with
      | zero => simp
      | succ budget =>
          cases items with
          | nil => simp
          | cons item rest => exact absurd rfl (hstop budget item rest rfl)

theorem mem_takeDecode {budget : Nat} {items : List ReadyRequest} {candidate : Candidate}
    (h : candidate ∈ takeDecode budget items) :
    ∃ item ∈ items, candidate = ⟨item.requestId, .decode, 1⟩ := by
  fun_induction takeDecode budget items with
  | case1 budget item rest ih =>
      rcases List.mem_cons.mp h with rfl | h
      · exact ⟨item, List.mem_cons_self, rfl⟩
      · obtain ⟨other, hother, hsame⟩ := ih h
        exact ⟨other, List.mem_cons_of_mem _ hother, hsame⟩
  | case2 => cases h

theorem total_takeDecode (budget : Nat) (items : List ReadyRequest) :
    totalTokens (takeDecode budget items) = (takeDecode budget items).length := by
  fun_induction takeDecode budget items with
  | case1 budget item rest ih =>
      rw [totalTokens_cons, ih, List.length_cons, Nat.add_comm]
  | case2 => rfl

variable {s : Scheduler} {aged : Option RequestId} {hold : Bool} {budget : Nat}
  {items : List ReadyRequest}

theorem total_takePrefill : totalTokens (s.takePrefill aged hold budget items) ≤ budget := by
  fun_induction Scheduler.takePrefill s aged hold budget items with
  | case1 => exact Nat.zero_le _
  | case2 => exact Nat.zero_le _
  | case3 _ _ _ _ _ ih => exact ih
  | case4 _ _ _ _ _ _ ih => exact ih
  | case5 _ _ _ _ _ _ _ _ ih => exact ih
  | case6 budget item rest _ _ _ desired _ tokenCount ih =>
      have hle : tokenCount ≤ budget := Nat.min_le_right _ _
      change tokenCount + totalTokens _ ≤ budget
      omega

/-- A chunk of one of the ready prompts. -/
structure Chunk (s : Scheduler) (items : List ReadyRequest) (candidate : Candidate) : Prop where
  kind : candidate.kind = .prefill
  pos : 0 < candidate.tokenCount
  le : candidate.tokenCount ≤ s.config.maxPrefillChunkTokens
  ready : ∃ item ∈ items, item.requestId = candidate.requestId

theorem Chunk.later {item : ReadyRequest} {candidate : Candidate}
    (h : Chunk s items candidate) : Chunk s (item :: items) candidate := by
  obtain ⟨other, hother, hid⟩ := h.ready
  exact ⟨h.kind, h.pos, h.le, other, List.mem_cons_of_mem _ hother, hid⟩

theorem mem_takePrefill (hchunk : 0 < s.config.maxPrefillChunkTokens)
    (hready : ∀ item ∈ items, 0 < item.remainingTokens) {candidate : Candidate}
    (h : candidate ∈ s.takePrefill aged hold budget items) : Chunk s items candidate := by
  fun_induction Scheduler.takePrefill s aged hold budget items with
  | case1 => cases h
  | case2 => cases h
  | case3 _ _ _ _ _ ih => exact (ih (List.forall_mem_of_forall_mem_cons hready) h).later
  | case4 _ _ _ _ _ _ ih => exact (ih (List.forall_mem_of_forall_mem_cons hready) h).later
  | case5 _ _ _ _ _ _ _ _ ih => exact (ih (List.forall_mem_of_forall_mem_cons hready) h).later
  | case6 budget item rest hbudget _ _ desired _ tokenCount ih =>
      rcases List.mem_cons.mp h with rfl | h
      · have hremaining := hready item List.mem_cons_self
        refine ⟨rfl, ?_, ?_, item, List.mem_cons_self, rfl⟩
        · exact Nat.lt_min.mpr ⟨Nat.lt_min.mpr ⟨hremaining, hchunk⟩, Nat.pos_of_ne_zero hbudget⟩
        · exact (Nat.min_le_left _ _).trans (Nat.min_le_right _ _)
      · exact (ih (List.forall_mem_of_forall_mem_cons hready) h).later

end Take

section Trim

variable {s : Scheduler} {items : List ReadyRequest}

theorem trim_zero (candidates : List Candidate) : trim 0 candidates = (candidates, []) := by
  cases candidates <;> rfl

/-- Only what comes first is trimmed, as long as it has the tokens. -/
theorem trim_append (remaining : Nat) (first second : List Candidate)
    (h : remaining ≤ totalTokens first) :
    (trim remaining (first ++ second)).1 = (trim remaining first).1 ++ second := by
  induction first generalizing remaining with
  | nil =>
      rw [Nat.le_zero.mp h, trim_zero, trim_zero]
  | cons candidate rest ih =>
      rw [totalTokens_cons] at h
      rw [List.cons_append, trim, trim]
      split
      · rfl
      · dsimp only
        split
        · exact ih _ (by omega)
        · rfl

theorem total_trim (remaining : Nat) (candidates : List Candidate) :
    totalTokens (trim remaining candidates).1 ≤ totalTokens candidates := by
  fun_induction trim remaining candidates with
  | case1 => exact Nat.le_refl _
  | case2 => exact Nat.le_refl _
  | case3 remaining item rest _ trimmed _ left deferred htrim ih =>
      rw [htrim] at ih
      exact ih.trans (Nat.le_add_left _ _)
  | case4 remaining item rest _ trimmed _ =>
      exact Nat.add_le_add_right (Nat.sub_le _ _) _

/-- A trimmed chunk is one. -/
theorem mem_trim {remaining : Nat} {candidates : List Candidate}
    (h : ∀ candidate ∈ candidates, Chunk s items candidate) :
    ∀ candidate ∈ (trim remaining candidates).1, Chunk s items candidate := by
  fun_induction trim remaining candidates with
  | case1 => exact h
  | case2 => exact h
  | case3 remaining item rest _ trimmed _ left deferred htrim ih =>
      rw [htrim] at ih
      exact ih (List.forall_mem_of_forall_mem_cons h)
  | case4 remaining item rest _ trimmed hleft =>
      intro candidate hcandidate
      rcases List.mem_cons.mp hcandidate with rfl | hcandidate
      · have hchunk := h item List.mem_cons_self
        exact ⟨hchunk.kind, Nat.pos_of_ne_zero hleft, (Nat.sub_le _ _).trans hchunk.le,
          hchunk.ready⟩
      · exact h candidate (List.mem_cons_of_mem _ hcandidate)

theorem plateauOverflow_le {policy : PrefillPlateauPolicy} {decodeRows prefillStart overflow : Nat}
    {selected : List Candidate}
    (h : Scheduler.plateauOverflow policy decodeRows prefillStart selected = some overflow) :
    overflow ≤ totalTokens (selected.drop prefillStart) := by
  unfold Scheduler.plateauOverflow at h
  split at h
  · cases h
  · dsimp only at h
    split at h
    · cases h
    · split_ifs at h with hkept
      cases h
      exact Nat.not_lt.mp fun hlt => hkept (.inr hlt)

/-- Deferring past a plateau takes chunks away and cuts one of them, and no decode work. -/
theorem wp_deferPastPlateau {decodeRows : Nat} {decoding prefilling : List Candidate}
    {host : List Bool} (h : ∀ candidate ∈ prefilling, Chunk s items candidate) :
    wp (s.deferPastPlateau items decodeRows decoding.length (decoding ++ prefilling))
      (fun result _ => ∃ left, result.1 = decoding ++ left ∧
        (∀ candidate ∈ left, Chunk s items candidate) ∧
        totalTokens left ≤ totalTokens prefilling)
      (fun _ _ => True) host := by
  have hkept : ∃ left, decoding ++ prefilling = decoding ++ left ∧
      (∀ candidate ∈ left, Chunk s items candidate) ∧
      totalTokens left ≤ totalTokens prefilling := ⟨prefilling, rfl, h, Nat.le_refl _⟩
  unfold Scheduler.deferPastPlateau
  split
  · exact hkept
  next overflow hoverflow =>
    obtain ⟨policy, -, hover⟩ := Option.bind_eq_some_iff.mp hoverflow
    have hle := plateauOverflow_le hover
    rw [List.drop_left] at hle
    refine wp_ite (fun _ => ?_) fun _ => hkept
    refine wp_seq (wp_any (fun _ later => ?_) fun _ _ => trivial)
    refine ⟨(trim overflow prefilling.reverse).1.reverse, ?_, fun candidate hcandidate => ?_, ?_⟩
    · change (trim overflow (decoding ++ prefilling).reverse).1.reverse = _
      rw [List.reverse_append, trim_append _ _ _ (by rwa [totalTokens_reverse]),
        List.reverse_append, List.reverse_reverse]
    · refine mem_trim (fun other hother => ?_) candidate (List.mem_reverse.mp hcandidate)
      exact h other (List.mem_reverse.mp hother)
    · rw [totalTokens_reverse, ← totalTokens_reverse prefilling]
      exact total_trim _ _

end Trim

section Select

variable {s : Scheduler} {nowNs : Nat}

theorem agedChunk_bounds {budget : Nat} {item : ReadyRequest}
    (hchunk : 0 < s.config.maxPrefillChunkTokens) (hbudget : 0 < budget)
    (hremaining : 0 < item.remainingTokens) :
    0 < s.agedChunk budget item ∧
      s.agedChunk budget item ≤ s.config.maxPrefillChunkTokens ∧
      s.agedChunk budget item ≤ budget := by
  have hbounds : ∀ usable, 0 < usable → usable ≤ budget →
      0 < min (min item.remainingTokens s.config.maxPrefillChunkTokens) usable ∧
        min (min item.remainingTokens s.config.maxPrefillChunkTokens) usable ≤
          s.config.maxPrefillChunkTokens ∧
        min (min item.remainingTokens s.config.maxPrefillChunkTokens) usable ≤ budget := by
    intro usable hpos hle
    omega
  unfold Scheduler.agedChunk
  dsimp only
  split
  · exact hbounds budget hbudget (Nat.le_refl _)
  · exact hbounds _ (by omega) (by omega)

/-- The aged prompt gets a chunk within the budget. -/
theorem wp_agedCandidate {budget : Nat} {aged : Option RequestId} {host : List Bool}
    (hchunk : 0 < s.config.maxPrefillChunkTokens) (hbudget : 0 < budget) :
    wp (s.agedCandidate budget s.prefillReady aged)
      (fun first _ => (aged = none → first = []) ∧ ∀ requestId, aged = some requestId →
        ∃ candidate, first = [candidate] ∧ candidate.requestId = requestId ∧
          Chunk s s.prefillReady candidate ∧ candidate.tokenCount ≤ budget)
      (fun _ _ => True) host := by
  cases aged with
  | none => exact ⟨fun _ => rfl, nofun⟩
  | some requestId =>
      refine wp_seq ((wp_orReject _ _).mpr ⟨fun _ => trivial, fun item hitem => ?_⟩)
      have hid : item.requestId = requestId := by simpa using List.find?_some hitem
      have hready := List.mem_of_find?_eq_some hitem
      have hremaining := (mem_prefillReady hready).1
      obtain ⟨hpos, hchunkLe, hle⟩ := agedChunk_bounds hchunk hbudget hremaining
      refine ⟨nofun, fun _ hsame => ⟨_, rfl, ?_, ⟨rfl, hpos, hchunkLe, item, hready, hid⟩, hle⟩⟩
      exact Option.some.inj hsame

/-- What one iteration may pick for a request. -/
structure Picks (s : Scheduler) (candidate : Candidate) : Prop where
  running : ∃ record ∈ s.requests, record.requestId = candidate.requestId ∧
    record.state ≠ .waiting
  prefill : candidate.kind = .prefill → 0 < candidate.tokenCount ∧
    candidate.tokenCount ≤ s.config.maxPrefillChunkTokens
  decode : candidate.kind = .decode → candidate.tokenCount = 1

theorem Chunk.picks {candidate : Candidate} (h : Chunk s s.prefillReady candidate) :
    Picks s candidate := by
  obtain ⟨item, hitem, hid⟩ := h.ready
  obtain ⟨-, record, hrecord, hsame, hstate⟩ := mem_prefillReady hitem
  refine ⟨⟨record, hrecord, hsame.trans hid, hstate⟩, fun _ => ⟨h.pos, h.le⟩, fun hkind => ?_⟩
  rw [h.kind] at hkind
  cases hkind

theorem picks_takeDecode {budget : Nat} {candidate : Candidate}
    (h : candidate ∈ takeDecode budget s.decodeReady) : Picks s candidate := by
  obtain ⟨item, hitem, rfl⟩ := mem_takeDecode h
  exact ⟨mem_decodeReady hitem, nofun, fun _ => rfl⟩

/-- The budget that the policies leave to the iteration. -/
def Scheduler.iterationBudget (s : Scheduler) : Nat := s.openBudget s.prefillReady s.decodeReady

/-- The prompt that overrides decode work in this iteration, when one does. -/
def Scheduler.overrides (s : Scheduler) (nowNs : Nat) : Option RequestId :=
  s.agedRequest nowNs s.prefillReady s.decodeReady

/-- A selection within its budget. Without the aging override it has all decode work that fits;
with it, all that fits beside the aged prompt. -/
structure Selection (s : Scheduler) (aged : Option RequestId) (candidates : List Candidate) :
    Prop where
  picks : ∀ candidate ∈ candidates, Picks s candidate
  tokens : totalTokens candidates ≤ s.iterationBudget
  all_decode : aged = none →
    decodeCount candidates = min s.decodeReady.length s.iterationBudget
  aged_decode : ∀ requestId, aged = some requestId → ∃ candidate ∈ candidates,
    candidate.kind = .prefill ∧ candidate.requestId = requestId ∧
    decodeCount candidates =
      min s.decodeReady.length (s.iterationBudget - candidate.tokenCount)

theorem decodeCount_takeDecode (budget : Nat) (items : List ReadyRequest) :
    decodeCount (takeDecode budget items) = min items.length budget := by
  rw [← length_takeDecode]
  refine decodeCount_decode fun candidate hcandidate => ?_
  obtain ⟨item, -, rfl⟩ := mem_takeDecode hcandidate
  rfl

/-- All decode work that fits, and then chunks of prompts. -/
theorem selection_plain {prefilling : List Candidate}
    (hprefill : ∀ candidate ∈ prefilling, Chunk s s.prefillReady candidate)
    (htokens : totalTokens prefilling ≤
      s.iterationBudget - (takeDecode s.iterationBudget s.decodeReady).length) :
    Selection s none (takeDecode s.iterationBudget s.decodeReady ++ prefilling) where
  picks := fun candidate hcandidate => by
    rcases List.mem_append.mp hcandidate with hcandidate | hcandidate
    · exact picks_takeDecode hcandidate
    · exact (hprefill candidate hcandidate).picks
  tokens := by
    rw [totalTokens_append, total_takeDecode]
    have hlength := length_takeDecode s.iterationBudget s.decodeReady
    omega
  all_decode := fun _ => by
    rw [decodeCount_append, decodeCount_takeDecode,
      decodeCount_prefill fun candidate hcandidate => (hprefill candidate hcandidate).kind]
    rfl
  aged_decode := nofun

/-- The aged prompt, the decode work that fits beside it, and then chunks of other prompts. -/
theorem selection_aged {aged : Candidate} {prefilling : List Candidate}
    (haged : Chunk s s.prefillReady aged) (hle : aged.tokenCount ≤ s.iterationBudget)
    (hprefill : ∀ candidate ∈ prefilling, Chunk s s.prefillReady candidate)
    (htokens : totalTokens prefilling ≤ s.iterationBudget - aged.tokenCount -
      (takeDecode (s.iterationBudget - aged.tokenCount) s.decodeReady).length) :
    Selection s (some aged.requestId) ([aged] ++
      takeDecode (s.iterationBudget - aged.tokenCount) s.decodeReady ++ prefilling) where
  picks := fun candidate hcandidate => by
    rcases List.mem_append.mp hcandidate with hcandidate | hcandidate
    · rcases List.mem_append.mp hcandidate with hcandidate | hcandidate
      · cases List.mem_singleton.mp hcandidate
        exact haged.picks
      · exact picks_takeDecode hcandidate
    · exact (hprefill candidate hcandidate).picks
  tokens := by
    rw [totalTokens_append, totalTokens_append, totalTokens_cons, totalTokens_nil,
      total_takeDecode]
    have hlength := length_takeDecode (s.iterationBudget - aged.tokenCount) s.decodeReady
    omega
  all_decode := nofun
  aged_decode := fun requestId hsame => by
    refine ⟨aged, List.mem_append_left _ (List.mem_append_left _ List.mem_cons_self),
      haged.kind, Option.some.inj hsame, ?_⟩
    have hfirst : decodeCount [aged] = 0 :=
      decodeCount_prefill (by simpa using haged.kind)
    rw [decodeCount_append, decodeCount_append, hfirst, decodeCount_takeDecode,
      decodeCount_prefill fun candidate hcandidate => (hprefill candidate hcandidate).kind]
    omega

theorem wp_selectCandidates {host : List Bool} (hchunk : 0 < s.config.maxPrefillChunkTokens)
    (hbudget : 0 < s.iterationBudget) :
    wp (s.selectCandidates nowNs)
      (fun result _ => Selection s (s.overrides nowNs) result.1 ∧
        result.2.1 = (s.overrides nowNs).isSome)
      (fun _ _ => True) host := by
  unfold Scheduler.selectCandidates
  refine wp_seq (wp_any (fun _ _ => ?_) fun _ _ => trivial)
  refine wp_seq (wp_any (fun _ _ => ?_) fun _ _ => trivial)
  refine wp_seq (wp_any (fun _ _ => ?_) fun _ _ => trivial)
  refine wp_call (wp_agedCandidate hchunk hbudget) (fun first later hfirst => ?_)
    fun _ _ _ => trivial
  dsimp only
  have hprefill : ∀ hold budget, ∀ candidate ∈ s.takePrefill
      (s.agedRequest nowNs s.prefillReady s.decodeReady) hold budget s.prefillReady,
      Chunk s s.prefillReady candidate := fun _ _ candidate hcandidate =>
    mem_takePrefill hchunk (fun item hitem => (mem_prefillReady hitem).1) hcandidate
  cases haged : s.agedRequest nowNs s.prefillReady s.decodeReady with
  | some requestId =>
      obtain ⟨aged, rfl, rfl, hagedChunk, hle⟩ := hfirst.2 requestId haged
      rw [haged] at hprefill
      rw [show s.overrides nowNs = some aged.requestId from haged]
      exact ⟨selection_aged hagedChunk hle (hprefill _ _) total_takePrefill, rfl⟩
  | none =>
      obtain rfl := hfirst.1 haged
      rw [haged] at hprefill
      refine wp_call (wp_deferPastPlateau (hprefill _ _)) (fun result _ hresult => ?_)
        fun _ _ _ => trivial
      obtain ⟨left, hleft, hchunks, htotal⟩ := hresult
      change Selection s (s.overrides nowNs) result.1 ∧ _
      rw [show s.overrides nowNs = none from haged, hleft]
      exact ⟨selection_plain hchunks (htotal.trans total_takePrefill), rfl⟩

end Select

end Riley.Scheduling
