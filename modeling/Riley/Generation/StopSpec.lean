import Riley.Generation.StopSearch

/-!
What pushing bytes does to the stop state, told against the search of the
whole text. `gate` is the offset from which stop strings count and `whole` the
concatenation of everything pushed.
-/

namespace Riley.Generation

open Outcome Search
open Utf8 (Text encode leading validUpTo)

/-- The visible text and the withheld bytes are the whole up to the first stop
string. -/
structure Shows (gate : Nat) (whole : Bytes) (state : StopState) : Prop where
  split : encode state.text ++ state.pending = upToMatch state.stopStrings gate whole
  matched : state.matchedStopStringIndex =
    (firstMatch state.stopStrings gate whole).map (·.index)

/-- A state that may still find a stop string: none begins, or could begin, in
the visible text. -/
structure Searching (gate : Nat) (whole : Bytes) (state : StopState) : Prop where
  texts : ∀ pattern ∈ state.stopStrings, ∃ stop, stop ≠ [] ∧ pattern = encode stop
  split : encode state.text ++ state.pending = whole
  start : state.stopSearchStart = gate - (encode state.text).length
  unmatched : state.matchedStopStringIndex = none
  behind : ∀ m, Occurs state.stopStrings gate whole m → (encode state.text).length ≤ m.start
  safe : ∀ place, gate ≤ place → place < (encode state.text).length →
    ¬ Partial state.stopStrings whole place

/-- A state between two tokens of a request that goes on. -/
structure Following (gate : Nat) (whole : Bytes) (state : StopState) : Prop
    extends Searching gate whole state where
  absent : ∀ m, ¬ Occurs state.stopStrings gate whole m

/-- The withheld bytes may become a stop string, or begin with the first byte
that is not part of valid text. -/
def Withheld (whole : Bytes) (state : StopState) : Prop :=
  Partial state.stopStrings whole (encode state.text).length ∨
    (encode state.text).length = validUpTo whole

/-- An emission is described by the text that becomes visible. -/
def StopState.emitted (state : StopState) (lead : Text) (rest : Bytes) : StopState :=
  { state with
    text := state.text ++ lead
    lastDelta := state.lastDelta ++ lead
    pending := rest
    stopSearchStart := state.stopSearchStart - (encode lead).length }

section Emission

variable {ok : Unit → StopState → Prop} {err : GenerationError → StopState → Prop}
  {state : StopState}

theorem emitEnd_eq (bytes : Bytes) : emitEnd bytes = validUpTo bytes := by
  unfold emitEnd Utf8.fromUtf8
  split_ifs with hall
  · exact hall.symm
  · rfl

theorem wp_emitPrefix {lead : Text} {rest : Bytes} (hpending : state.pending = encode lead ++ rest)
    (h : ok () (state.emitted lead rest)) :
    wp (emitPrefix (encode lead).length) ok err state := by
  unfold emitPrefix
  rw [wp_runIf]
  constructor
  · intro _
    apply wp_read
    rw [hpending, List.take_left, Utf8.fromUtf8_encode]
    apply wp_ofOk rfl
    rw [wp_modify]
    rw [hpending, List.drop_left]
    exact h
  · intro hzero
    have hlead : lead = [] :=
      Utf8.encode_eq_nil.mp (List.eq_nil_of_length_eq_zero (not_not.mp hzero))
    subst hlead
    have hsame : state.emitted [] rest = state := by
      unfold StopState.emitted
      rw [Utf8.encode_nil, List.nil_append] at hpending
      simp only [List.append_nil, ← hpending, Utf8.encode_nil, List.length_nil, Nat.sub_zero]
    rwa [hsame] at h

/-- Emitting the valid text of the first `limit` withheld bytes. -/
theorem wp_emitUpTo (limit : Nat)
    (h : ∀ lead rest, state.pending = encode lead ++ rest →
      (encode lead).length = validUpTo (state.pending.take limit) →
      ok () (state.emitted lead rest)) :
    wp (emitPrefix (emitEnd (state.pending.take limit))) ok err state := by
  obtain ⟨tail, htail, _⟩ := Utf8.leading_spec (state.pending.take limit)
  have hsplit : state.pending =
      encode (leading (state.pending.take limit)) ++ (tail ++ state.pending.drop limit) := by
    rw [← List.append_assoc, ← htail, List.take_append_drop]
  rw [emitEnd_eq]
  exact wp_emitPrefix hsplit (h _ _ hsplit rfl)

theorem wp_emitValidPrefix
    (h : ∀ lead rest, state.pending = encode lead ++ rest →
      (encode lead).length = validUpTo state.pending → ok () (state.emitted lead rest)) :
    wp emitValidPrefix ok err state := by
  unfold emitValidPrefix
  apply wp_read
  have hall := List.take_length (l := state.pending)
  rw [← hall]
  apply wp_emitUpTo
  rw [hall]
  exact h

end Emission

section Searching

variable {gate : Nat} {whole : Bytes} {state : StopState}

theorem Searching.nonempty (h : Searching gate whole state) :
    ∀ pattern ∈ state.stopStrings, pattern ≠ [] := by
  intro pattern hpattern
  obtain ⟨stop, hstop, rfl⟩ := h.texts pattern hpattern
  exact fun hnil => hstop (Utf8.encode_eq_nil.mp hnil)

/-- The incremental search finds what the search of the whole finds. -/
theorem Searching.firstMatch_eq (h : Searching gate whole state) :
    firstMatch state.stopStrings gate whole =
      state.firstStopMatch.map (Match.shift (encode state.text).length) := by
  have hlocal := firstStopMatch_firstOf h.nonempty
  rw [h.start] at hlocal
  have hshift := hlocal.shift (by rw [h.split]; exact h.behind)
  rw [h.split] at hshift
  exact (firstMatch_firstOf h.nonempty gate whole).unique hshift

/-- The state after more bytes came in. -/
def StopState.extended (state : StopState) (bytes : Bytes) : StopState :=
  { state with lastDelta := [], pending := state.pending ++ bytes }

theorem Following.extended (h : Following gate whole state) (bytes : Bytes) :
    Searching gate (whole ++ bytes) (state.extended bytes) where
  texts := h.texts
  split := by
    rw [← h.split, List.append_assoc]
    rfl
  start := h.start
  unmatched := h.unmatched
  behind := by
    intro m hm
    apply Nat.le_of_not_lt
    intro hlt
    exact not_occurs_append h.absent (h.safe m.start hm.1 hlt) hm
  safe := fun place hgate hlt => not_partial_append hgate h.absent (h.safe place hgate hlt)

theorem Shows.of_none
    (hnone : firstMatch state.stopStrings gate whole = none) {now : StopState}
    (hstrings : now.stopStrings = state.stopStrings)
    (hsplit : encode now.text ++ now.pending = whole)
    (hmatched : now.matchedStopStringIndex = none) : Shows gate whole now where
  split := by
    unfold upToMatch
    rw [hstrings, hnone]
    exact hsplit
  matched := by
    rw [hstrings, hnone, hmatched]
    rfl

theorem Following.shows (h : Following gate whole state) : Shows gate whole state := by
  apply Shows.of_none _ rfl h.split h.unmatched
  exact ((firstMatch_firstOf h.nonempty gate whole).none_iff).mpr h.absent

end Searching

/-- What processing new bytes has done. -/
structure Processed (gate : Nat) (whole : Bytes) (flushAtEnd : Bool) (state : StopState)
    (matched : Bool) (now : StopState) : Prop where
  stopStrings : now.stopStrings = state.stopStrings
  maximum : now.maximumOutputBytes = state.maximumOutputBytes
  delta : now.text = state.text ++ now.lastDelta
  shows : Shows gate whole now
  found : matched = (firstMatch state.stopStrings gate whole).isSome
  following : matched = false → flushAtEnd = false → Following gate whole now ∧ Withheld whole now

section Processing

variable {gate : Nat} {whole : Bytes} {state : StopState} {flushAtEnd : Bool}
  {err : GenerationError → StopState → Prop}

theorem emitted_split {lead : Text} {rest : Bytes} (hpending : state.pending = encode lead ++ rest) :
    encode (state.emitted lead rest).text ++ (state.emitted lead rest).pending =
      encode state.text ++ state.pending := by
  rw [hpending, ← List.append_assoc, ← Utf8.encode_append]
  rfl

theorem length_emitted (lead : Text) (rest : Bytes) :
    (encode (state.emitted lead rest).text).length =
      (encode state.text).length + (encode lead).length := by
  rw [← List.length_append, ← Utf8.encode_append]
  rfl

/-- Only bytes before every undecided suffix become visible. -/
theorem Searching.emitted {lead : Text} {rest : Bytes} (h : Searching gate whole state)
    (hnone : firstMatch state.stopStrings gate whole = none)
    (hpending : state.pending = encode lead ++ rest)
    (hlead : (encode lead).length ≤ state.pending.length - state.longestStopPrefixSuffix) :
    Following gate whole (state.emitted lead rest) where
  texts := h.texts
  split := (emitted_split hpending).trans h.split
  start := by
    rw [length_emitted, Nat.sub_add_eq, ← h.start]
    rfl
  unmatched := h.unmatched
  absent := ((firstMatch_firstOf h.nonempty gate whole).none_iff).mp hnone
  behind := fun m hm =>
    absurd hm (((firstMatch_firstOf h.nonempty gate whole).none_iff).mp hnone m)
  safe := by
    intro place hgate hlt hopens
    rcases Nat.lt_or_ge place (encode state.text).length with hold | hnew
    · exact h.safe place hgate hold hopens
    · obtain ⟨offset, rfl⟩ := Nat.exists_eq_add_of_le hnew
      rw [length_emitted] at hlt
      rw [← h.split] at hopens
      have hundecided := Undecided.of_partial (by omega) (partial_shift.mp hopens)
      have hstart := h.start
      have hlongest := (longestStopPrefixSuffix_longestOf state).longest _ (by omega) hundecided
      omega

theorem Searching.withheld {lead : Text} {rest : Bytes} (h : Searching gate whole state)
    (hlead : (encode lead).length =
      validUpTo (state.pending.take (state.pending.length - state.longestStopPrefixSuffix))) :
    Withheld whole (state.emitted lead rest) := by
  have hlongest := longestStopPrefixSuffix_longestOf state
  have hbounded := hlongest.bounded
  generalize state.longestStopPrefixSuffix = overlap at hlead hlongest hbounded
  generalize hlimit : state.pending.length - overlap = limit at hlead
  have htake : (state.pending.take limit).length = limit := by
    rw [List.length_take]
    omega
  have hle := Utf8.validUpTo_le (state.pending.take limit)
  unfold Withheld
  rw [length_emitted, ← h.split, Utf8.validUpTo_append]
  rcases Nat.eq_zero_or_pos overlap with rfl | hoverlap
  · -- Nothing is held back for a stop string.
    right
    rw [hlead, ← hlimit, Nat.sub_zero, List.take_length]
  · obtain hundecided := hlongest.undecided.resolve_left (Nat.ne_of_gt hoverlap)
    rcases Nat.lt_or_eq_of_le hle with hlt | heq
    · right
      -- The suffix held back begins with the first byte of a character.
      obtain ⟨pattern, hpattern, hshort, hsuffix⟩ := id hundecided
      obtain ⟨stop, _, rfl⟩ := h.texts pattern hpattern
      rw [hlimit] at hsuffix
      cases hcode : encode stop with
      | nil =>
          rw [hcode] at hshort
          exact absurd hshort (Nat.not_lt_zero _)
      | cons byte tail =>
          obtain ⟨overlap, rfl⟩ := Nat.exists_eq_add_of_le' hoverlap
          rw [hcode, List.take_succ_cons] at hsuffix
          have hcut : validUpTo (state.pending.take limit ++ byte :: tail.take overlap) =
              validUpTo (state.pending.take limit) :=
            Utf8.validUpTo_cut (Utf8.encode_first hcode) (by rwa [htake] at hlt ⊢)
          rw [← hsuffix, List.take_append_drop] at hcut
          rw [hlead, hcut]
    · left
      rw [hlead, heq, htake, partial_shift, ← hlimit]
      exact hundecided.opens (by omega)

theorem wp_excludeStop {found : Match} (h : Searching gate whole state)
    (hdelta : state.lastDelta = []) (hfound : state.firstStopMatch = some found) :
    wp (excludeStop found) (Processed gate whole flushAtEnd state) err state := by
  have hfirst := h.firstMatch_eq
  rw [hfound, Option.map_some] at hfirst
  unfold excludeStop
  apply wp_write
  apply wp_seq
  apply wp_emitValidPrefix
  intro lead rest hpending _
  apply wp_write
  rw [wp_pure]
  apply Processed.mk
  · rfl
  · rfl
  · exact congrArg (state.text ++ ·) (congrArg (· ++ lead) hdelta).symm
  · apply Shows.mk
    · unfold upToMatch
      have hsplit : encode state.text ++ state.pending.take found.start =
          whole.take (found.shift (encode state.text).length).start := by
        rw [← h.split]
        exact (List.take_length_add_append found.start).symm
      simp only [StopState.emitted, hfirst]
      exact (emitted_split hpending).trans hsplit
    · simp only [StopState.emitted, hfirst]
      rfl
  · rw [hfirst]
    rfl
  · exact fun hfalse => Bool.noConfusion hfalse

theorem wp_finishPending {ok : Unit → StopState → Prop}
    (h : ∀ lead rest, state.pending = encode lead ++ rest → ok () (state.emitted lead rest)) :
    wp finishPending ok err state := by
  unfold finishPending
  apply wp_emitValidPrefix
  exact fun lead rest hpending _ => h lead rest hpending

/-- Emitting withheld text at the end does not change what is shown. -/
theorem Following.finished {lead : Text} {rest : Bytes} (h : Following gate whole state)
    (hpending : state.pending = encode lead ++ rest) :
    Shows gate whole (state.emitted lead rest) := by
  apply Shows.of_none _ rfl ((emitted_split hpending).trans h.split) h.unmatched
  exact ((firstMatch_firstOf h.nonempty gate whole).none_iff).mpr h.absent

theorem wp_processPending_open (h : Searching gate whole state) (hdelta : state.lastDelta = []) :
    wp (processPending true flushAtEnd) (Processed gate whole flushAtEnd state) err state := by
  have hfirst := h.firstMatch_eq
  unfold processPending
  apply wp_read
  rw [if_pos rfl]
  cases hfound : state.firstStopMatch with
  | some found => exact wp_excludeStop h hdelta hfound
  | none =>
      rw [hfound, Option.map_none] at hfirst
      have hshown : ∀ {lead rest}, state.pending = encode lead ++ rest →
          (flushAtEnd = false → Following gate whole (state.emitted lead rest) ∧
            Withheld whole (state.emitted lead rest)) →
          Processed gate whole flushAtEnd state false (state.emitted lead rest) := by
        intro lead rest hpending hfollowing
        apply Processed.mk
        · rfl
        · rfl
        · exact congrArg (state.text ++ ·) (congrArg (· ++ lead) hdelta).symm
        · exact Shows.of_none hfirst rfl ((emitted_split hpending).trans h.split) h.unmatched
        · rw [hfirst]
          rfl
        · exact fun _ => hfollowing
      cases flushAtEnd with
      | true =>
          apply wp_seq
          apply wp_finishPending
          intro lead rest hpending
          exact hshown hpending fun hfalse => Bool.noConfusion hfalse
      | false =>
          apply wp_seq
          rw [if_pos rfl]
          apply wp_emitUpTo
          intro lead rest hpending hlead
          apply hshown hpending
          intro _
          refine ⟨h.emitted hfirst hpending ?_, h.withheld hlead⟩
          rw [hlead]
          apply Nat.le_trans (Utf8.validUpTo_le _)
          rw [List.length_take]
          exact Nat.min_le_left _ _

/-- While the gate is closed every valid byte becomes visible. -/
theorem wp_processPending_closed {ok : Bool → StopState → Prop}
    (h : ∀ lead rest, state.pending = encode lead ++ rest →
      (encode lead).length = validUpTo state.pending → ok false (state.emitted lead rest)) :
    wp (processPending false flushAtEnd) ok err state := by
  unfold processPending
  apply wp_read
  rw [if_neg Bool.false_ne_true]
  cases flushAtEnd with
  | true =>
      apply wp_seq
      apply wp_emitValidPrefix
      exact h
  | false =>
      apply wp_seq
      rw [if_neg Bool.false_ne_true, Nat.sub_zero]
      apply wp_emitUpTo
      rw [List.take_length]
      exact h

end Processing

section Push

variable {gate : Nat} {whole bytes : Bytes} {state : StopState} {flushAtEnd : Bool}
  {err : GenerationError → StopState → Prop}

/-- The checks of a push pass while the output stays within its bound. -/
theorem wp_push_checked {stopEnabled : Bool} {ok : Bool → StopState → Prop}
    (hfits : (encode state.text).length + state.pending.length + bytes.length ≤
      state.maximumOutputBytes)
    (hmaximum : state.maximumOutputBytes ≤ usizeMax)
    (h : wp (processPending stopEnabled flushAtEnd)
      (fun matched now => ok matched (if stopEnabled then now else
        { now with stopSearchStart := now.pending.length }))
      (fun _ _ => False) (state.extended bytes)) :
    wp (push bytes stopEnabled flushAtEnd) ok err state := by
  unfold push
  apply wp_write
  apply wp_read
  have hretained : (checkedAdd usizeMax (encode state.text).length state.pending.length).bind
      (checkedAdd usizeMax · bytes.length) =
        some ((encode state.text).length + state.pending.length + bytes.length) := by
    rw [checkedAdd_eq_some.mpr ⟨rfl, by omega⟩, Option.bind_some]
    exact checkedAdd_eq_some.mpr ⟨rfl, by omega⟩
  apply wp_some hretained
  apply wp_passes (Nat.not_lt.mpr hfits)
  apply wp_write
  apply wp_seq
  rw [wp_attempt]
  apply wp_mono h
  · intro matched now hok
    apply wp_seq
    rw [wp_runIf]
    cases stopEnabled with
    | true => exact ⟨fun hfalse => Bool.noConfusion hfalse, fun _ => hok⟩
    | false => exact ⟨fun _ => hok, fun hne => absurd rfl hne⟩
  · exact fun _ _ hfalse => hfalse.elim

theorem wp_push_open (h : Following gate whole state)
    (hfits : (encode state.text).length + state.pending.length + bytes.length ≤
      state.maximumOutputBytes)
    (hmaximum : state.maximumOutputBytes ≤ usizeMax) :
    wp (push bytes true flushAtEnd) (Processed gate (whole ++ bytes) flushAtEnd state)
      err state := by
  apply wp_push_checked hfits hmaximum
  apply wp_ok_mono (wp_processPending_open (h.extended bytes) rfl)
  intro matched now hprocessed
  exact ⟨hprocessed.stopStrings, hprocessed.maximum, hprocessed.delta, hprocessed.shows,
    hprocessed.found, hprocessed.following⟩

/-- Nothing counts behind the end of the text. -/
theorem not_occurs_end {patterns : List Bytes} (hpatterns : ∀ pattern ∈ patterns, pattern ≠ [])
    (text : Bytes) (m : Match) : ¬ Occurs patterns text.length text m := by
  intro hm
  have hgate := hm.1
  have hbounds := hm.bounds hpatterns
  omega

theorem wp_push_closed (h : Following whole.length whole state)
    (hfits : (encode state.text).length + state.pending.length + bytes.length ≤
      state.maximumOutputBytes)
    (hmaximum : state.maximumOutputBytes ≤ usizeMax) :
    wp (push bytes false flushAtEnd)
      (Processed (whole ++ bytes).length (whole ++ bytes) flushAtEnd state) err state := by
  apply wp_push_checked hfits hmaximum
  apply wp_processPending_closed
  intro lead rest hpending hlead
  have habsent := not_occurs_end h.nonempty (whole ++ bytes)
  have hnone := ((firstMatch_firstOf h.nonempty _ (whole ++ bytes)).none_iff).mpr habsent
  have hsplit := (emitted_split hpending).trans (h.extended bytes).split
  have hlength := congrArg List.length hsplit
  rw [List.length_append] at hlength
  have hfollowing : Following (whole ++ bytes).length (whole ++ bytes)
      { (state.extended bytes).emitted lead rest with
        stopSearchStart := ((state.extended bytes).emitted lead rest).pending.length } := by
    apply Following.mk
    · apply Searching.mk
      · exact h.texts
      · exact hsplit
      · exact (Nat.sub_eq_of_eq_add' hlength.symm).symm
      · exact h.unmatched
      · exact fun m hm => absurd hm (habsent m)
      · intro place hgate hlt
        exfalso
        have hwhole : (encode ((state.extended bytes).emitted lead rest).text).length ≤
            (whole ++ bytes).length := by
          omega
        exact Nat.not_lt.mpr hgate (Nat.lt_of_lt_of_le hlt hwhole)
    · exact habsent
  apply Processed.mk
  · rfl
  · rfl
  · rfl
  · exact hfollowing.shows
  · rw [hnone]
    rfl
  · intro _ _
    refine ⟨hfollowing, Or.inr ?_⟩
    rw [← (h.extended bytes).split, Utf8.validUpTo_append, ← hlead]
    exact length_emitted lead rest

end Push

end Riley.Generation
