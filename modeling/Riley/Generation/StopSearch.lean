import Riley.Generation.StopState

/-!
The two searches of the stop state over its pending bytes: the match that is
complete first, and the longest suffix that may still become a match.
-/

namespace Riley.Generation

open Search

section FirstMatch

theorem windows_getElem? {size : Nat} {bytes : Bytes} {start : Nat}
    {window : Bytes} :
    (windows size bytes)[start]? = some window ↔
      start + size ≤ bytes.length ∧ window = (bytes.drop start).take size := by
  unfold windows
  rw [List.getElem?_map, Option.map_eq_some_iff]
  constructor
  · rintro ⟨index, hindex, rfl⟩
    obtain ⟨hlt, rfl⟩ := List.getElem?_eq_some_iff.mp hindex
    rw [List.length_range] at hlt
    rw [List.getElem_range]
    exact ⟨by omega, rfl⟩
  · rintro ⟨hlength, rfl⟩
    exact ⟨start, List.getElem?_range (by omega), rfl⟩

theorem windows_eq_pattern {pattern bytes : Bytes} (hpattern : pattern ≠ []) {start : Nat} :
    (windows pattern.length bytes)[start]? = some pattern ↔ pattern <+: bytes.drop start := by
  have hpos := List.length_pos_iff.mpr hpattern
  rw [windows_getElem?]
  constructor
  · rintro ⟨_, heq⟩
    rw [heq]
    exact List.take_prefix _ _
  · intro hbegins
    have hlength := hbegins.length_le
    rw [List.length_drop] at hlength
    exact ⟨by omega, List.prefix_iff_eq_take.mp hbegins⟩

theorem firstOccurrence_some {eligible pattern : Bytes} (hpattern : pattern ≠ []) {start : Nat}
    (h : firstOccurrence eligible pattern = some start) :
    pattern <+: eligible.drop start ∧
      ∀ earlier, pattern <+: eligible.drop earlier → start ≤ earlier := by
  obtain ⟨hlt, hhit, hfirst⟩ := List.findIdx?_eq_some_iff_getElem.mp h
  constructor
  · apply (windows_eq_pattern hpattern).mp
    rw [List.getElem?_eq_getElem hlt, of_decide_eq_true hhit]
  · intro earlier hearlier
    apply Nat.le_of_not_lt
    intro hbefore
    have hget := (windows_eq_pattern hpattern).mpr hearlier
    rw [List.getElem?_eq_getElem (Nat.lt_trans hbefore hlt)] at hget
    exact hfirst earlier hbefore (decide_eq_true (Option.some.inj hget))

theorem firstOccurrence_none {eligible pattern : Bytes} (hpattern : pattern ≠ [])
    (h : firstOccurrence eligible pattern = none) (start : Nat) :
    ¬ pattern <+: eligible.drop start := by
  intro hbegins
  have hmem := List.mem_of_getElem? ((windows_eq_pattern hpattern).mpr hbegins)
  have hnone := List.findIdx?_eq_none_iff.mp h pattern hmem
  simp at hnone

variable {pending : Bytes} {stopSearchStart : Nat}

/-- An occurrence of one pattern in the whole, told by the searched part. -/
theorem occurs_index {seen rest : List Bytes} {pattern : Bytes} {m : Match}
    (hindex : m.index = seen.length) :
    Occurs (seen ++ pattern :: rest) stopSearchStart pending m ↔
      ∃ relative, m = ⟨stopSearchStart + relative, stopSearchStart + relative + pattern.length,
        seen.length⟩ ∧ pattern <+: (pending.drop stopSearchStart).drop relative := by
  have hget : (seen ++ pattern :: rest)[m.index]? = some pattern := by
    rw [hindex, List.getElem?_append_right (Nat.le_refl _), Nat.sub_self]
    rfl
  constructor
  · rintro ⟨hgate, found, hfound, hbegins, hstop⟩
    obtain rfl : found = pattern := Option.some.inj (hfound.symm.trans hget)
    refine ⟨m.start - stopSearchStart, ?_, ?_⟩
    · rw [Nat.add_sub_cancel' hgate, ← hstop, ← hindex]
    · rw [List.drop_drop, Nat.add_sub_cancel' hgate]
      exact hbegins
  · rintro ⟨relative, rfl, hbegins⟩
    rw [List.drop_drop] at hbegins
    exact ⟨Nat.le_add_right _ _, pattern, hget, hbegins, rfl⟩

/-- After the patterns seen so far the loop holds the first match of those. -/
theorem firstStopIn_firstOf (seen : List Bytes) {rest : List Bytes} {first : Option Match}
    (hpatterns : ∀ pattern ∈ rest, pattern ≠ [])
    (h : FirstOf (fun m => Occurs (seen ++ rest) stopSearchStart pending m ∧
      m.index < seen.length) first) :
    FirstOf (Occurs (seen ++ rest) stopSearchStart pending)
      (firstStopIn (pending.drop stopSearchStart) stopSearchStart seen.length rest first) := by
  induction rest generalizing seen first with
  | nil =>
      apply h.congr
      intro m
      constructor
      · exact fun hm => hm.1
      · intro hm
        refine ⟨hm, ?_⟩
        obtain ⟨_, _, hpattern, _⟩ := id hm
        have hlt := (List.getElem?_eq_some_iff.mp hpattern).1
        rwa [List.append_nil] at hlt
  | cons pattern rest ih =>
      have hpattern := hpatterns pattern List.mem_cons_self
      have hstep : ∀ {next}, FirstOf (fun m =>
            Occurs (seen ++ pattern :: rest) stopSearchStart pending m ∧
              m.index < seen.length + 1) next →
          FirstOf (Occurs (seen ++ pattern :: rest) stopSearchStart pending)
            (firstStopIn (pending.drop stopSearchStart) stopSearchStart (seen.length + 1)
              rest next) := by
        intro next hnext
        have hlength : (seen ++ [pattern]).length = seen.length + 1 := by
          rw [List.length_append, List.length_singleton]
        rw [List.append_cons, ← hlength] at hnext ⊢
        exact ih (seen ++ [pattern]) (fun p hp => hpatterns p (List.mem_cons_of_mem _ hp)) hnext
      rw [firstStopIn]
      apply hstep
      cases hsearch : firstOccurrence (pending.drop stopSearchStart) pattern with
      | none =>
          apply h.congr
          intro m
          refine ⟨fun ⟨hm, hlt⟩ => ⟨hm, Nat.lt_succ_of_lt hlt⟩, fun ⟨hm, hlt⟩ => ⟨hm, ?_⟩⟩
          apply Nat.lt_of_le_of_ne (Nat.le_of_lt_succ hlt)
          intro hindex
          obtain ⟨relative, _, hbegins⟩ := (occurs_index hindex).mp hm
          exact firstOccurrence_none hpattern hsearch relative hbegins
      | some relative =>
          obtain ⟨hbegins, hfirst⟩ := firstOccurrence_some hpattern hsearch
          apply h.replace.widen
          · rintro m (⟨hm, hlt⟩ | rfl)
            · exact ⟨hm, Nat.lt_succ_of_lt hlt⟩
            · exact ⟨(occurs_index rfl).mpr ⟨relative, rfl, hbegins⟩, Nat.lt_succ_self _⟩
          · rintro m ⟨hm, hlt⟩
            rcases Nat.lt_or_eq_of_le (Nat.le_of_lt_succ hlt) with hold | hindex
            · exact ⟨m, Or.inl ⟨hm, hold⟩, m.before_irrefl⟩
            · -- A later occurrence of the same pattern ends later.
              obtain ⟨later, rfl, hlater⟩ := (occurs_index hindex).mp hm
              refine ⟨_, Or.inr rfl, ?_⟩
              have hle := hfirst later hlater
              unfold Match.before
              simp only
              omega

theorem firstStopMatch_firstOf {state : StopState}
    (hpatterns : ∀ pattern ∈ state.stopStrings, pattern ≠ []) :
    FirstOf (Occurs state.stopStrings state.stopSearchStart state.pending)
      state.firstStopMatch := by
  unfold StopState.firstStopMatch
  split
  case isTrue _ =>
      apply firstStopIn_firstOf [] hpatterns
      apply FirstOf.mk
      · rintro m ⟨⟩
      · rintro m ⟨_, hlt⟩
        cases hlt
  case isFalse hbeyond =>
      apply FirstOf.mk
      · rintro m ⟨⟩
      · intro m hm
        have hgate := hm.1
        have hbounds := hm.bounds hpatterns
        omega

end FirstMatch

section LongestSuffix

variable {pending : Bytes} {eligibleLen : Nat}

/-- A suffix of that length may still become a match of one of the patterns. -/
def Undecided (patterns : List Bytes) (pending : Bytes) (byteLen : Nat) : Prop :=
  ∃ pattern ∈ patterns, byteLen < pattern.length ∧
    pending.drop (pending.length - byteLen) = pattern.take byteLen

/-- The longest undecided suffix, if any, of the patterns seen so far. -/
structure LongestOf (patterns : List Bytes) (pending : Bytes) (eligibleLen longest : Nat) :
    Prop where
  bounded : longest ≤ eligibleLen
  undecided : longest = 0 ∨ Undecided patterns pending longest
  longest : ∀ byteLen, byteLen ≤ eligibleLen → Undecided patterns pending byteLen →
    byteLen ≤ longest

theorem undecided_snoc {seen : List Bytes} {pattern : Bytes} {byteLen : Nat} :
    Undecided (seen ++ [pattern]) pending byteLen ↔
      Undecided seen pending byteLen ∨ byteLen < pattern.length ∧
        pending.drop (pending.length - byteLen) = pattern.take byteLen := by
  unfold Undecided
  simp only [List.mem_append, List.mem_singleton, or_and_right, exists_or, exists_eq_left]

theorem longestIn_longestOf (seen : List Bytes) {rest : List Bytes} {longest : Nat}
    (h : LongestOf seen pending eligibleLen longest) :
    LongestOf (seen ++ rest) pending eligibleLen
      (longestIn pending eligibleLen rest longest) := by
  induction rest generalizing seen longest with
  | nil =>
      rw [List.append_nil]
      exact h
  | cons pattern rest ih =>
      rw [List.append_cons, longestIn]
      apply ih
      generalize hmaximum : min eligibleLen (pattern.length - 1) = maximum
      cases hsearch : (List.range' (longest + 1) (maximum - longest)).reverse.find?
          (fun byteLen => pending.drop (pending.length - byteLen) = pattern.take byteLen) with
      | none =>
          apply LongestOf.mk h.bounded
          · exact h.undecided.imp_right fun hundecided => undecided_snoc.mpr (Or.inl hundecided)
          · intro byteLen hlength hundecided
            rcases undecided_snoc.mp hundecided with hold | ⟨hshort, heq⟩
            · exact h.longest byteLen hlength hold
            · apply Nat.le_of_not_lt
              intro hlt
              have hmiss := List.find?_eq_none.mp hsearch byteLen
                (mem_longer.mpr ⟨hlt, by omega⟩)
              exact hmiss (decide_eq_true heq)
      | some hit =>
          have hrange := mem_longer.mp (List.mem_of_find?_eq_some hsearch)
          have hhit := List.find?_some hsearch
          have heq := of_decide_eq_true hhit
          apply LongestOf.mk
          · exact Nat.le_trans hrange.2 (by omega)
          · exact Or.inr (undecided_snoc.mpr (Or.inr ⟨by rw [Option.getD_some]; omega, heq⟩))
          · intro byteLen hlength hundecided
            rw [Option.getD_some]
            rcases undecided_snoc.mp hundecided with hold | ⟨hshort, hmore⟩
            · have hle := h.longest byteLen hlength hold
              omega
            · rcases Nat.lt_or_ge longest byteLen with hlt | hge
              · apply find?_greatest (longer_pairwise _ _) hsearch
                · exact mem_longer.mpr ⟨hlt, by omega⟩
                · exact decide_eq_true hmore
              · omega

theorem longestStopPrefixSuffix_longestOf (state : StopState) :
    LongestOf state.stopStrings state.pending (state.pending.length - state.stopSearchStart)
      state.longestStopPrefixSuffix := by
  apply longestIn_longestOf []
  apply LongestOf.mk (Nat.zero_le _) (Or.inl rfl)
  rintro byteLen _ ⟨pattern, hpattern, _⟩
  cases hpattern

/-- A place where a match could begin is an undecided suffix. -/
theorem Undecided.of_partial {patterns : List Bytes} {start : Nat}
    (hstart : start ≤ pending.length) (h : Partial patterns pending start) :
    Undecided patterns pending (pending.length - start) := by
  obtain ⟨pattern, hpattern, hbegins, hne⟩ := h
  refine ⟨pattern, hpattern, ?_, ?_⟩
  · have hlength := hbegins.length_le
    rw [List.length_drop] at hlength
    apply Nat.lt_of_le_of_ne hlength
    intro heq
    apply hne (hbegins.eq_of_length _)
    rw [List.length_drop, heq]
  · rw [Nat.sub_sub_self hstart, List.prefix_iff_eq_take.mp hbegins, List.length_drop]

theorem Undecided.opens {patterns : List Bytes} {byteLen : Nat}
    (hlength : byteLen ≤ pending.length) (h : Undecided patterns pending byteLen) :
    Partial patterns pending (pending.length - byteLen) := by
  obtain ⟨pattern, hpattern, hshort, heq⟩ := h
  refine ⟨pattern, hpattern, ?_, ?_⟩
  · rw [heq]
    exact List.take_prefix _ _
  · intro hwhole
    have hlen := congrArg List.length hwhole
    rw [List.length_drop] at hlen
    omega

end LongestSuffix

end Riley.Generation
