import Mathlib.Data.List.TakeWhile
import Riley.Tokenizer.MistralSpec

/-!
Decoding one token at a time, with one bit carried from token to token, against decoding
a whole sequence. The two differ only where a run of fallback tokens is no text.
-/

namespace Riley.Tokenizer

open Outcome
open Utf8 (Text)

/-- What a request keeps between the tokens that it decodes. -/
structure TokenDecodeState where
  emittedBytes : Bool := false

/-- A buffer whose first bytes, that many, are moved one place to the front. -/
def copyToFront (destination : Bytes) (count : Nat) : Bytes :=
  (destination.take count).drop 1 ++ destination.drop (count - 1)

/-- The method that all tokenizers share, over the decoding of a single token. -/
def decodeTokenBytesWithState (stripsLeadingDecoderSpace : Bool)
    (decodeTokenBytesInto : Bytes → Except ModelError (Nat × Bytes)) (destination : Bytes)
    (state : TokenDecodeState) : Except ModelError (Nat × Bytes × TokenDecodeState) := do
  let (count, destination) ← decodeTokenBytesInto destination
  if count = 0 then .ok (count, destination, state)
  else if !state.emittedBytes && stripsLeadingDecoderSpace && destination.head? = some 0x20 then
    .ok (count - 1, copyToFront destination count, { emittedBytes := true })
  else .ok (count, destination, { emittedBytes := true })

section Utf8

theorem exists_character_of_leadWidth_one {byte : UInt8} (h : leadWidth byte = some 1) :
    ∃ character, String.utf8EncodeChar character = [byte] := by
  have hlow : byte ≤ 0x7F := by
    unfold leadWidth at h
    by_contra hhigh
    rw [if_neg hhigh] at h
    split at h
    · cases h
    split at h
    · cases h
    split at h <;> cases h
  refine ⟨Char.ofNat byte.toNat, ?_⟩
  have htable : ∀ value : Fin 128,
      String.utf8EncodeChar (Char.ofNat value) = [UInt8.ofNat value] := by
    decide
  have hvalue := htable ⟨byte.toNat, Nat.lt_succ_of_le (UInt8.le_iff_toNat_le.mp hlow)⟩
  rwa [UInt8.ofNat_toNat] at hvalue

/-- The loop takes nothing for valid that is no text. -/
theorem exists_text_of_validUtf8BytesFrom {pending bytes : Bytes} {width : Nat}
    (hwidth : pending ≠ [] → width ≠ 1) (h : validUtf8BytesFrom pending width bytes = true) :
    ∃ text, pending ++ bytes = Utf8.encode text := by
  induction bytes generalizing pending width with
  | nil =>
      rw [validUtf8BytesFrom, List.isEmpty_iff] at h
      exact ⟨[], by rw [h]; rfl⟩
  | cons byte rest ih =>
      rw [validUtf8BytesFrom] at h
      split at h
      · cases h
      next seen hseen =>
      split at h
      · next hone =>
          -- A character of a single byte, with nothing pending.
          have hpending : pending = [] := by
            by_contra hne
            rw [if_neg hne] at hseen
            exact hwidth hne ((Option.some.inj hseen).trans hone)
          obtain ⟨text, htext⟩ := ih (fun hne => absurd rfl hne) h
          rw [if_pos hpending, hone] at hseen
          obtain ⟨character, hcharacter⟩ := exists_character_of_leadWidth_one hseen
          refine ⟨character :: text, ?_⟩
          rw [hpending, Utf8.encode_cons, hcharacter, ← htext]
          rfl
      split at h
      · split at h
        · next window hwindow =>
            obtain ⟨text, htext⟩ := ih (fun hne => absurd rfl hne) h
            refine ⟨window ++ text, ?_⟩
            rw [Utf8.encode_append, ← htext, Utf8.encode_of_fromUtf8 hwindow, List.append_assoc]
            rfl
        · cases h
      · next hone _ =>
          obtain ⟨text, htext⟩ := ih (fun _ => hone) h
          refine ⟨text, ?_⟩
          rw [← htext, List.append_assoc]
          rfl

theorem validUtf8Bytes_iff (bytes : Bytes) :
    validUtf8Bytes bytes = true ↔ ∃ text, bytes = Utf8.encode text := by
  constructor
  · intro h
    exact exists_text_of_validUtf8BytesFrom (fun hne => absurd rfl hne) h
  · rintro ⟨text, rfl⟩
    exact validUtf8Bytes_encode text

end Utf8

namespace MistralTokenizer

variable (tokenizer : MistralTokenizer)

section Stream

def stripsLeadingDecoderSpace : Bool := true

def addressableTokenCount : Nat := tokenizer.vocabById.length

def maximumDecodedTokenBytes : Nat := tokenizer.maximumDecodedBytes

def decodeTokenBytesInto (id : Nat) (options : DecodeOptions) (destination : Bytes) :
    Except ModelError (Nat × Bytes) := do
  let bytes ← tokenizer.tokenBytes id options
  ensureDecodeDestination bytes.length destination.length
  .ok (bytes.length, overwrite destination bytes)

/-- What a request streams for its tokens, decoded one by one into the same buffer. -/
def streamFrom (options : DecodeOptions) :
    Bytes → TokenDecodeState → List Nat → Except ModelError Bytes
  | _, _, [] => .ok []
  | buffer, state, id :: rest => do
      let (count, buffer, state) ← decodeTokenBytesWithState stripsLeadingDecoderSpace
        (tokenizer.decodeTokenBytesInto id options) buffer state
      let more ← streamFrom options buffer state rest
      .ok (buffer.take count ++ more)

def stream (ids : List Nat) (options : DecodeOptions) (buffer : Bytes) : Except ModelError Bytes :=
  tokenizer.streamFrom options buffer {} ids

end Stream

section Purpose

def isFallback (id : Nat) : Bool := (tokenizer.fallbackByte id).isSome

/-- Every longest run of fallback tokens spells a text. -/
def RunsSpell (ids : List Nat) : Prop :=
  ∀ before run after, ids = before ++ run ++ after → run ≠ [] →
    (∀ id ∈ run, tokenizer.isFallback id = true) →
    (∀ id, before.getLast? = some id → tokenizer.isFallback id = false) →
    (∀ id, after.head? = some id → tokenizer.isFallback id = false) →
    ∃ text, run.filterMap tokenizer.fallbackByte = Utf8.encode text

/-- The bytes of a token, none of one that is skipped. -/
def shownBytes (options : DecodeOptions) (id : Nat) : Bytes :=
  if options.skipSpecialTokens && tokenizer.isSpecialId id then []
  else (tokenizer.decoded[id]?).getD []

/-- Bytes without the space that they begin with. -/
def stripSpace : Bytes → Bytes
  | [] => []
  | byte :: rest => if byte = 0x20 then rest else byte :: rest

end Purpose

section Emission

theorem emit_flatten_eq (emitted : List Bytes) :
    (emit emitted).flatten = stripSpace emitted.flatten := by
  induction emitted with
  | nil => rfl
  | cons bytes rest ih =>
      cases bytes with
      | nil => exact ih
      | cons byte bytes =>
          rw [emit, List.flatten_cons, List.flatten_cons, List.cons_append, stripSpace]
          split <;> rfl

theorem length_emit (emitted : List Bytes) : (emit emitted).length = emitted.length := by
  induction emitted with
  | nil => rfl
  | cons bytes rest ih =>
      cases bytes with
      | nil => rw [emit, List.length_cons, ih, List.length_cons]
      | cons byte bytes => rw [emit, List.length_cons, List.length_cons]

theorem length_le_of_mem_emit {emitted : List Bytes} {limit : Nat}
    (h : ∀ bytes ∈ emitted, bytes.length ≤ limit) : ∀ bytes ∈ emit emitted, bytes.length ≤ limit := by
  induction emitted with
  | nil => exact h
  | cons bytes rest ih =>
      have hrest : ∀ bytes ∈ rest, bytes.length ≤ limit :=
        fun other hmem => h other (List.mem_cons_of_mem _ hmem)
      have hfirst := h bytes List.mem_cons_self
      intro other hmem
      cases bytes with
      | nil =>
          rcases List.mem_cons.mp hmem with rfl | hmem
          · exact Nat.zero_le _
          · exact ih hrest other hmem
      | cons byte bytes =>
          rcases List.mem_cons.mp hmem with rfl | hmem
          · rw [List.length_cons] at hfirst
            split
            · omega
            · exact hfirst
          · exact hrest other hmem

end Emission

section Runs

variable {tokenizer}

theorem RunsSpell.tail {id : Nat} {rest : List Nat} (h : tokenizer.RunsSpell (id :: rest))
    (hid : tokenizer.isFallback id = false) : tokenizer.RunsSpell rest := by
  intro before run after hsplit hne hrun hbefore hafter
  apply h (id :: before) run after (by rw [hsplit]; rfl) hne hrun _ hafter
  intro last hlast
  cases before with
  | nil =>
      cases hlast
      exact hid
  | cons first before =>
      rw [List.getLast?_cons_cons] at hlast
      exact hbefore last hlast

theorem RunsSpell.behind {run behind : List Nat} (h : tokenizer.RunsSpell (run ++ behind))
    (hbehind : ∀ id, behind.head? = some id → tokenizer.isFallback id = false) :
    tokenizer.RunsSpell behind := by
  intro before next after hsplit hne hnext hbefore hafter
  cases before with
  | nil =>
      -- A run cannot begin where another one ends.
      obtain ⟨id, next, rfl⟩ := List.exists_cons_of_ne_nil hne
      have hfirst := hbehind id (by rw [hsplit]; rfl)
      rw [hnext id List.mem_cons_self] at hfirst
      cases hfirst
  | cons first before =>
      apply h (run ++ first :: before) next after (by rw [hsplit]; simp) hne hnext _ hafter
      intro last hlast
      apply hbefore last
      rwa [List.getLast?_append_of_ne_nil _ (List.cons_ne_nil _ _)] at hlast

end Runs

section Batch

variable {tokenizer} {index : Text → Option Nat}

theorem Loaded.length_decoded (h : tokenizer.Loaded index) :
    tokenizer.addressableTokenCount = tokenizer.decoded.length := by
  rw [addressableTokenCount]
  apply Nat.le_antisymm
  · by_contra hlt
    have hnone := h.decoded tokenizer.decoded.length
    rw [List.getElem?_eq_none (Nat.le_refl _),
      List.getElem?_eq_getElem (Nat.not_le.mp hlt)] at hnone
    cases hnone
  · by_contra hlt
    have hnone := h.decoded tokenizer.vocabById.length
    rw [List.getElem?_eq_none (Nat.le_refl tokenizer.vocabById.length),
      List.getElem?_eq_getElem (Nat.not_le.mp hlt)] at hnone
    cases hnone

theorem Loaded.decoded_fallback (h : tokenizer.Loaded index) {id : Nat} {byte : UInt8}
    (hlt : id < tokenizer.decoded.length) (hbyte : tokenizer.fallbackByte id = some byte) :
    (tokenizer.decoded[id]?).getD [] = [byte] := by
  have hdecoded := h.decoded id
  rw [hbyte, List.getElem?_eq_getElem hlt] at hdecoded
  obtain ⟨token, _, htoken⟩ := Option.map_eq_some_iff.mp hdecoded.symm
  rw [List.getElem?_eq_getElem hlt, Option.getD_some, ← htoken]
  rfl

/-- The bytes of a run, one by one, are what its tokens stand for. -/
theorem Loaded.run_bytes (h : tokenizer.Loaded index) {run : List Nat}
    (hvalid : ∀ id ∈ run, id < tokenizer.decoded.length)
    (hrun : ∀ id ∈ run, tokenizer.isFallback id = true) :
    (run.filterMap tokenizer.fallbackByte).map (fun byte => [byte]) =
      run.map fun id => (tokenizer.decoded[id]?).getD [] := by
  induction run with
  | nil => rfl
  | cons id rest ih =>
      obtain ⟨byte, hbyte⟩ := Option.isSome_iff_exists.mp (hrun id List.mem_cons_self)
      have hrest := ih (fun other hmem => hvalid other (List.mem_cons_of_mem _ hmem))
        fun other hmem => hrun other (List.mem_cons_of_mem _ hmem)
      rw [List.filterMap_cons_some hbyte, List.map_cons, List.map_cons, hrest,
        h.decoded_fallback (hvalid id List.mem_cons_self) hbyte]

/-- A run and what follows it. -/
theorem run_split (id : Nat) (rest : List Nat) (hid : tokenizer.isFallback id = true) :
    ((id :: rest).takeWhile tokenizer.isFallback) ++ rest.dropWhile tokenizer.isFallback =
      id :: rest := by
  have hsplit := @List.takeWhile_append_dropWhile _ tokenizer.isFallback (id :: rest)
  rwa [List.dropWhile_cons_of_pos hid] at hsplit

theorem isFallback_head_dropWhile (rest : List Nat) (id : Nat)
    (h : (rest.dropWhile tokenizer.isFallback).head? = some id) :
    tokenizer.isFallback id = false := by
  have hhead := List.head?_dropWhile_not tokenizer.isFallback rest
  rw [h] at hhead
  exact hhead

theorem chunks_plain (fuel : Nat) {id : Nat} (rest : List Nat)
    (hid : tokenizer.isFallback id = false) :
    tokenizer.chunks (fuel + 1) (id :: rest) =
      (tokenizer.decoded[id]?).getD [] :: tokenizer.chunks fuel rest := by
  cases hbyte : tokenizer.fallbackByte id with
  | none => simp only [chunks, hbyte]
  | some byte =>
      rw [isFallback, hbyte] at hid
      cases hid

theorem chunks_fallback (fuel : Nat) {id : Nat} (rest : List Nat)
    (hid : tokenizer.isFallback id = true) {bytes : Bytes}
    (hbytes : ((id :: rest).takeWhile tokenizer.isFallback).filterMap tokenizer.fallbackByte =
      bytes) :
    tokenizer.chunks (fuel + 1) (id :: rest) =
      bytes.map (fun byte => if validUtf8Bytes bytes then [byte] else replacementBytes) ++
        tokenizer.chunks fuel (rest.dropWhile tokenizer.isFallback) := by
  obtain ⟨byte, hbyte⟩ := Option.isSome_iff_exists.mp hid
  subst hbytes
  simp only [chunks, hbyte]
  rfl

/-- Where the runs are text, the loop emits what the tokens stand for. -/
theorem Loaded.chunks_eq (h : tokenizer.Loaded index) (fuel : Nat) {ids : List Nat}
    (hvalid : ∀ id ∈ ids, id < tokenizer.decoded.length) (hruns : tokenizer.RunsSpell ids)
    (hfuel : ids.length ≤ fuel) :
    tokenizer.chunks fuel ids = ids.map fun id => (tokenizer.decoded[id]?).getD [] := by
  induction fuel generalizing ids with
  | zero => rw [List.eq_nil_of_length_eq_zero (Nat.le_zero.mp hfuel)]; rfl
  | succ fuel ih =>
      cases ids with
      | nil => rfl
      | cons id rest =>
          have hrest : ∀ id ∈ rest, id < tokenizer.decoded.length :=
            fun other hmem => hvalid other (List.mem_cons_of_mem _ hmem)
          rw [List.length_cons] at hfuel
          cases hid : tokenizer.isFallback id with
          | false =>
              rw [chunks_plain fuel rest hid, List.map_cons, ih hrest (hruns.tail hid) (by omega)]
          | true =>
              have hsplit := run_split id rest hid
              have hbehind := @isFallback_head_dropWhile tokenizer rest
              have hne : (id :: rest).takeWhile tokenizer.isFallback ≠ [] := by
                rw [List.takeWhile_cons_of_pos hid]
                exact List.cons_ne_nil _ _
              have hrun : ∀ other ∈ (id :: rest).takeWhile tokenizer.isFallback,
                  tokenizer.isFallback other = true := fun _ hmem => List.mem_takeWhile_imp hmem
              obtain ⟨text, htext⟩ := hruns [] _ _ (by rw [List.nil_append, hsplit]) hne hrun
                (fun _ hlast => nomatch hlast) hbehind
              have hmore := @ih (rest.dropWhile tokenizer.isFallback)
                (fun other hmem => hrest other ((List.dropWhile_suffix _).subset hmem))
                (RunsSpell.behind (by rw [hsplit]; exact hruns) hbehind)
                (Nat.le_trans (List.dropWhile_suffix _).length_le (by omega))
              have hbytes := h.run_bytes (fun other hmem =>
                hvalid other ((List.takeWhile_prefix _).subset hmem)) hrun
              rw [chunks_fallback fuel rest hid htext, validUtf8Bytes_encode, hmore]
              rw [htext] at hbytes
              simp only [if_true, hbytes, ← List.map_append, hsplit]

end Batch

section Contributions

variable {tokenizer}

theorem length_filterMap_run {run : List Nat}
    (hrun : ∀ id ∈ run, tokenizer.isFallback id = true) :
    (run.filterMap tokenizer.fallbackByte).length = run.length := by
  induction run with
  | nil => rfl
  | cons id rest ih =>
      obtain ⟨byte, hbyte⟩ := Option.isSome_iff_exists.mp (hrun id List.mem_cons_self)
      rw [List.filterMap_cons_some hbyte, List.length_cons, List.length_cons,
        ih fun other hmem => hrun other (List.mem_cons_of_mem _ hmem)]

/-- Every visible token emits once, and within the limit. -/
theorem chunks_bounded (fuel : Nat) {ids : List Nat} {limit : Nat} (hfuel : ids.length ≤ fuel)
    (hthree : 3 ≤ limit) (hlimit : ∀ id : Nat, ((tokenizer.decoded[id]?).getD []).length ≤ limit) :
    (tokenizer.chunks fuel ids).length = ids.length ∧
      ∀ bytes ∈ tokenizer.chunks fuel ids, bytes.length ≤ limit := by
  induction fuel generalizing ids with
  | zero =>
      rw [List.eq_nil_of_length_eq_zero (Nat.le_zero.mp hfuel)]
      exact ⟨rfl, fun _ hmem => nomatch hmem⟩
  | succ fuel ih =>
      cases ids with
      | nil => exact ⟨rfl, fun _ hmem => nomatch hmem⟩
      | cons id rest =>
          rw [List.length_cons] at hfuel
          cases hid : tokenizer.isFallback id with
          | false =>
              obtain ⟨hlength, hbound⟩ := @ih rest (by omega)
              rw [chunks_plain fuel rest hid, List.length_cons, List.length_cons, hlength]
              refine ⟨rfl, ?_⟩
              intro bytes hmem
              rcases List.mem_cons.mp hmem with rfl | hmem
              · exact hlimit id
              · exact hbound bytes hmem
          | true =>
              have hrun : ∀ other ∈ (id :: rest).takeWhile tokenizer.isFallback,
                  tokenizer.isFallback other = true := fun _ hmem => List.mem_takeWhile_imp hmem
              have hsplit := congrArg List.length (run_split id rest hid)
              obtain ⟨hlength, hbound⟩ := @ih (rest.dropWhile tokenizer.isFallback)
                (Nat.le_trans (List.dropWhile_suffix _).length_le (by omega))
              rw [List.length_append] at hsplit
              rw [chunks_fallback fuel rest hid rfl]
              refine ⟨?_, ?_⟩
              · rw [List.length_append, List.length_map, length_filterMap_run hrun, hlength, hsplit]
              · intro bytes hmem
                rcases List.mem_append.mp hmem with hmem | hmem
                · obtain ⟨byte, _, rfl⟩ := List.mem_map.mp hmem
                  have hreplacement : replacementBytes.length = 3 := by decide
                  split
                  · exact Nat.le_trans (Nat.le_add_left 1 2) hthree
                  · exact hreplacement.le.trans hthree
                · exact hbound bytes hmem

theorem le_foldl_max (lengths : List Nat) (start : Nat) :
    start ≤ lengths.foldl max start ∧ ∀ length ∈ lengths, length ≤ lengths.foldl max start := by
  induction lengths generalizing start with
  | nil => exact ⟨Nat.le_refl _, fun _ hmem => nomatch hmem⟩
  | cons first rest ih =>
      obtain ⟨hstart, hrest⟩ := ih (max start first)
      refine ⟨Nat.le_trans (Nat.le_max_left _ _) hstart, ?_⟩
      intro length hmem
      rcases List.mem_cons.mp hmem with rfl | hmem
      · exact Nat.le_trans (Nat.le_max_right _ _) hstart
      · exact hrest length hmem

theorem load_maximum {raw : RawMistralTokenizer} {limits : LoadLimits}
    (h : load raw limits = .ok tokenizer) :
    3 ≤ tokenizer.maximumDecodedTokenBytes ∧
      ∀ id : Nat, ((tokenizer.decoded[id]?).getD []).length ≤ tokenizer.maximumDecodedTokenBytes := by
  have hmaximum : tokenizer.maximumDecodedBytes =
      max ((tokenizer.decoded.map List.length).foldl max 0) 3 := by
    unfold load at h
    obtain ⟨_, _, h⟩ := except_bind_eq_ok.mp h
    obtain ⟨_, _, h⟩ := except_bind_eq_ok.mp h
    obtain ⟨_, _, h⟩ := except_bind_eq_ok.mp h
    obtain ⟨_, _, h⟩ := except_bind_eq_ok.mp h
    obtain ⟨_, _, h⟩ := except_bind_eq_ok.mp h
    obtain ⟨_, _, h⟩ := except_bind_eq_ok.mp h
    obtain ⟨_, _, h⟩ := except_bind_eq_ok.mp h
    obtain ⟨_, _, h⟩ := except_bind_eq_ok.mp h
    cases h
    rfl
  rw [maximumDecodedTokenBytes, hmaximum]
  refine ⟨Nat.le_max_right _ _, ?_⟩
  intro id
  cases hdecoded : tokenizer.decoded[id]? with
  | none => exact Nat.zero_le _
  | some bytes =>
      apply Nat.le_trans _ (Nat.le_max_left _ _)
      apply (le_foldl_max _ 0).2
      exact List.mem_map_of_mem (List.mem_of_getElem? hdecoded)

end Contributions

section TokenByToken

variable {tokenizer}

theorem decodeTokenBytesWithState_eq {decodeInto : Bytes → Except ModelError (Nat × Bytes)}
    {destination bytes : Bytes} (state : TokenDecodeState)
    (hinto : decodeInto destination = .ok (bytes.length, overwrite destination bytes))
    (hfits : bytes.length ≤ destination.length) :
    ∃ buffer, buffer.length = destination.length ∧
      decodeTokenBytesWithState true decodeInto destination state =
        .ok ((if state.emittedBytes then bytes else stripSpace bytes).length, buffer,
          ⟨state.emittedBytes || !bytes.isEmpty⟩) ∧
      buffer.take (if state.emittedBytes then bytes else stripSpace bytes).length =
        (if state.emittedBytes then bytes else stripSpace bytes) := by
  have hlength : (overwrite destination bytes).length = destination.length := by
    rw [overwrite, List.length_append, List.length_drop]
    omega
  have htake : (overwrite destination bytes).take bytes.length = bytes := by
    rw [overwrite, List.take_left]
  unfold decodeTokenBytesWithState
  rw [hinto]
  simp only [bind, Except.bind, Bool.and_true]
  cases bytes with
  | nil =>
      refine ⟨overwrite destination [], hlength, ?_, ?_⟩
      · cases state with
        | mk emitted => cases emitted <;> rfl
      · cases state.emittedBytes <;> rfl
  | cons byte rest =>
      rw [if_neg (by rw [List.length_cons]; omega)]
      cases hemitted : state.emittedBytes with
      | true => exact ⟨overwrite destination (byte :: rest), hlength, rfl, htake⟩
      | false =>
          rw [overwrite] at hlength htake ⊢
          simp only [Bool.not_false, Bool.true_and, List.cons_append, List.head?_cons,
            Bool.false_eq_true, if_false, stripSpace, Option.some.injEq, decide_eq_true_eq]
          by_cases hspace : byte = 0x20
          · -- The space is overwritten by the bytes behind it.
            simp only [if_pos hspace]
            have hfront : copyToFront (byte :: (rest ++ destination.drop (byte :: rest).length))
                (byte :: rest).length =
                  rest ++ (byte :: (rest ++ destination.drop (byte :: rest).length)).drop
                    rest.length := by
              rw [copyToFront, List.length_cons, List.take_succ_cons, List.take_left, List.drop_one,
                List.tail_cons, Nat.add_sub_cancel]
            refine ⟨_, ?_, rfl, ?_⟩
            · rw [hfront, List.length_append, List.length_drop]
              rw [List.cons_append] at hlength
              rw [hlength]
              rw [List.length_cons] at hfits
              omega
            · rw [hfront, List.take_left]
          · simp only [if_neg hspace]
            exact ⟨_, hlength, rfl, htake⟩

theorem tokenBytes_eq {id : Nat} (options : DecodeOptions) (hlt : id < tokenizer.decoded.length) :
    tokenizer.tokenBytes id options = .ok (tokenizer.shownBytes options id) := by
  rw [tokenBytes, shownBytes, List.getElem?_eq_getElem hlt, Option.getD_some]

theorem stripSpace_append {bytes : Bytes} (hne : bytes ≠ []) (rest : Bytes) :
    stripSpace (bytes ++ rest) = stripSpace bytes ++ rest := by
  obtain ⟨byte, bytes, rfl⟩ := List.exists_cons_of_ne_nil hne
  rw [List.cons_append, stripSpace, stripSpace]
  split <;> rfl

/-- What the tokens stand for, without a space that it begins with. -/
theorem streamFrom_eq (options : DecodeOptions) {ids : List Nat} (state : TokenDecodeState)
    {buffer : Bytes} (hvalid : ∀ id ∈ ids, id < tokenizer.decoded.length)
    (hfits : ∀ id ∈ ids, (tokenizer.shownBytes options id).length ≤ buffer.length) :
    tokenizer.streamFrom options buffer state ids =
      .ok (if state.emittedBytes then ids.flatMap (tokenizer.shownBytes options)
        else stripSpace (ids.flatMap (tokenizer.shownBytes options))) := by
  induction ids generalizing state buffer with
  | nil => cases state with | mk emitted => cases emitted <;> rfl
  | cons id rest ih =>
      have hid := hfits id List.mem_cons_self
      have hinto : tokenizer.decodeTokenBytesInto id options buffer =
          .ok ((tokenizer.shownBytes options id).length,
            overwrite buffer (tokenizer.shownBytes options id)) := by
        simp only [decodeTokenBytesInto, tokenBytes_eq options (hvalid id List.mem_cons_self),
          ensureDecodeDestination, if_neg (Nat.not_lt.mpr hid), bind, Except.bind]
      obtain ⟨buffer', hlength, hdecode, htake⟩ := decodeTokenBytesWithState_eq state hinto hid
      have hrest := ih ⟨state.emittedBytes || !(tokenizer.shownBytes options id).isEmpty⟩
        (fun other hmem => hvalid other (List.mem_cons_of_mem _ hmem))
        (fun other hmem => hlength ▸ hfits other (List.mem_cons_of_mem _ hmem))
      rw [streamFrom, stripsLeadingDecoderSpace, hdecode]
      simp only [bind, Except.bind, hrest, htake, List.flatMap_cons]
      cases state.emittedBytes with
      | true => rfl
      | false =>
          cases hshown : tokenizer.shownBytes options id with
          | nil => rfl
          | cons byte bytes =>
              rw [stripSpace_append (List.cons_ne_nil _ _)]
              rfl

theorem flatMap_visible (options : DecodeOptions) (ids : List Nat) :
    (tokenizer.visible ids options).flatMap (fun id => (tokenizer.decoded[id]?).getD []) =
      ids.flatMap (tokenizer.shownBytes options) := by
  induction ids with
  | nil => rfl
  | cons id rest ih =>
      rw [visible] at ih ⊢
      rw [List.flatMap_cons, shownBytes]
      cases hskip : options.skipSpecialTokens && tokenizer.isSpecialId id with
      | true => rw [List.filter_cons_of_neg (by rw [hskip]; decide), ih]; rfl
      | false =>
          rw [List.filter_cons_of_pos (by rw [hskip]; rfl), List.flatMap_cons, ih]
          rfl

theorem checkIds_eq_ok (options : DecodeOptions) {ids : List Nat} :
    tokenizer.checkIds options ids = .ok () ↔ ∀ id ∈ ids, id < tokenizer.decoded.length := by
  induction ids with
  | nil => exact ⟨fun _ _ hmem => (nomatch hmem), fun _ => rfl⟩
  | cons id rest ih =>
      rw [List.forall_mem_cons, checkIds, except_bind_eq_ok]
      constructor
      · rintro ⟨bytes, hbytes, hrest⟩
        refine ⟨?_, ih.mp hrest⟩
        by_contra hge
        rw [tokenBytes, List.getElem?_eq_none (Nat.not_lt.mp hge)] at hbytes
        cases hbytes
      · rintro ⟨hlt, hrest⟩
        exact ⟨_, tokenBytes_eq options hlt, ih.mpr hrest⟩

end TokenByToken

section Batch

variable {tokenizer}

theorem countBytes_eq_ok {start count : Nat} {emitted : List Bytes}
    (h : countBytes start emitted = .ok count) : count = start + emitted.flatten.length := by
  induction emitted generalizing start with
  | nil =>
      cases h
      rfl
  | cons bytes rest ih =>
      rw [countBytes] at h
      split at h
      · cases h
      · next sum hsum =>
          obtain ⟨rfl, _⟩ := checkedAdd_eq_some.mp hsum
          rw [ih h, List.flatten_cons, List.length_append, Nat.add_assoc]

theorem visitDecoded_eq (options : DecodeOptions) {ids : List Nat}
    (hvalid : ∀ id ∈ ids, id < tokenizer.decoded.length) :
    tokenizer.visitDecoded ids options =
      .ok (emit (tokenizer.chunks (tokenizer.visible ids options).length
        (tokenizer.visible ids options))) := by
  simp only [visitDecoded, (checkIds_eq_ok options).mpr hvalid, bind, Except.bind]

theorem decodedBytesLen_eq_ok {ids : List Nat} {options : DecodeOptions} {count : Nat}
    (h : tokenizer.decodedBytesLen ids options = .ok count) :
    ∃ emitted, tokenizer.visitDecoded ids options = .ok emitted ∧
      count = emitted.flatten.length := by
  obtain ⟨emitted, hvisit, hcount⟩ := except_bind_eq_ok.mp h
  have hlength := countBytes_eq_ok hcount
  rw [Nat.zero_add] at hlength
  exact ⟨emitted, hvisit, hlength⟩

/-- The length is that of what is written. -/
theorem decodeBytes_of_decodedBytesLen {ids : List Nat} {options : DecodeOptions} {count : Nat}
    (h : tokenizer.decodedBytesLen ids options = .ok count) (destination : Bytes)
    (hfits : count ≤ destination.length) :
    ∃ written, written.length = count ∧
      tokenizer.decodeBytes ids options destination =
        .ok (count, overwrite destination written) := by
  obtain ⟨emitted, hvisit, hcount⟩ := decodedBytesLen_eq_ok h
  refine ⟨emitted.flatten, hcount.symm, ?_⟩
  simp only [decodeBytes, h, ensureDecodeDestination, if_neg (Nat.not_lt.mpr hfits), hvisit, bind,
    Except.bind, ← hcount]

theorem decodedBytesLen_of_decodeBytes {ids : List Nat} {options : DecodeOptions}
    {destination final : Bytes} {count : Nat}
    (h : tokenizer.decodeBytes ids options destination = .ok (count, final)) :
    tokenizer.decodedBytesLen ids options = .ok count := by
  obtain ⟨required, hrequired, h⟩ := except_bind_eq_ok.mp h
  obtain ⟨_, _, h⟩ := except_bind_eq_ok.mp h
  obtain ⟨emitted, hemitted, h⟩ := except_bind_eq_ok.mp h
  obtain ⟨emitted', hvisit, hcount⟩ := decodedBytesLen_eq_ok hrequired
  cases hemitted.symm.trans hvisit
  cases h
  rw [hrequired, hcount]

end Batch

/-- Where every run of fallback tokens is text, the tokens streamed one by one are what
the whole sequence decodes to. -/
theorem stream_eq_decodeBytes {raw : RawMistralTokenizer} {limits : LoadLimits}
    {tokenizer : MistralTokenizer} (hload : load raw limits = .ok tokenizer) :
    (∀ (ids : List Nat) (options : DecodeOptions) (buffer : Bytes),
      (∀ id ∈ ids, id < tokenizer.addressableTokenCount) →
      tokenizer.RunsSpell (tokenizer.visible ids options) →
      tokenizer.maximumDecodedTokenBytes ≤ buffer.length →
      ∃ streamed, tokenizer.stream ids options buffer = .ok streamed ∧
        ∀ destination : Bytes, streamed.length ≤ destination.length →
          destination.length ≤ usizeMax →
          tokenizer.decodeBytes ids options destination =
            .ok (streamed.length, overwrite destination streamed)) ∧
    (∀ (ids : List Nat) (options : DecodeOptions) (count : Nat),
      tokenizer.decodedBytesLen ids options = .ok count →
      ∀ destination : Bytes, count ≤ destination.length →
        ∃ written, written.length = count ∧
          tokenizer.decodeBytes ids options destination =
            .ok (count, overwrite destination written)) ∧
    (∀ (ids : List Nat) (options : DecodeOptions) (destination final : Bytes) (count : Nat),
      tokenizer.decodeBytes ids options destination = .ok (count, final) →
      tokenizer.decodedBytesLen ids options = .ok count) ∧
    (∀ bytes, validUtf8Bytes bytes = true ↔ ∃ text, bytes = Utf8.encode text) ∧
    (∀ (ids : List Nat) (options : DecodeOptions) (emitted : List Bytes),
      tokenizer.visitDecoded ids options = .ok emitted →
      emitted.length = (tokenizer.visible ids options).length ∧
        ∀ bytes ∈ emitted, bytes.length ≤ tokenizer.maximumDecodedTokenBytes) := by
  obtain ⟨index, h⟩ := load_loaded hload
  obtain ⟨hthree, hmaximum⟩ := load_maximum hload
  refine ⟨?_, fun ids options count hlen => decodeBytes_of_decodedBytesLen hlen,
    fun ids options destination final count => decodedBytesLen_of_decodeBytes,
    validUtf8Bytes_iff, ?_⟩
  · intro ids options buffer hids hruns hbuffer
    have hvalid : ∀ id ∈ ids, id < tokenizer.decoded.length :=
      fun id hmem => h.length_decoded ▸ hids id hmem
    have hfits : ∀ id ∈ ids, (tokenizer.shownBytes options id).length ≤ buffer.length := by
      intro id _
      rw [shownBytes]
      split
      · exact Nat.zero_le _
      · exact Nat.le_trans (hmaximum id) hbuffer
    refine ⟨stripSpace (ids.flatMap (tokenizer.shownBytes options)),
      streamFrom_eq options {} hvalid hfits, ?_⟩
    intro destination hroom husize
    have hvisible : ∀ id ∈ tokenizer.visible ids options, id < tokenizer.decoded.length :=
      fun id hmem => hvalid id (List.mem_of_mem_filter hmem)
    have hchunks := h.chunks_eq _ hvisible hruns (Nat.le_refl _)
    have hemitted : (emit (tokenizer.chunks (tokenizer.visible ids options).length
        (tokenizer.visible ids options))).flatten =
          stripSpace (ids.flatMap (tokenizer.shownBytes options)) := by
      rw [emit_flatten_eq, hchunks, ← flatMap_visible options ids, List.flatMap_def]
    have hlen : tokenizer.decodedBytesLen ids options =
        .ok (stripSpace (ids.flatMap (tokenizer.shownBytes options))).length := by
      have husize' := Nat.le_trans hroom husize
      simp only [decodedBytesLen, visitDecoded_eq options hvalid, bind, Except.bind]
      rw [countBytes_flatten 0 _ (by rwa [hemitted, Nat.zero_add]), hemitted, Nat.zero_add]
    simp only [decodeBytes, hlen, ensureDecodeDestination, visitDecoded_eq options hvalid,
      hemitted, bind, Except.bind]
    rw [if_neg (Nat.not_lt.mpr hroom)]
  · intro ids options emitted hvisit
    obtain ⟨_, _, hemitted⟩ := except_bind_eq_ok.mp hvisit
    cases hemitted
    obtain ⟨hlength, hbound⟩ := @chunks_bounded tokenizer _ _ _ (Nat.le_refl _) hthree hmaximum
    exact ⟨(length_emit _).trans hlength, length_le_of_mem_emit hbound⟩

section Artifact

variable {tokenizer}

theorem RunsSpell.cons {id : Nat} {rest : List Nat} (h : tokenizer.RunsSpell rest)
    (hid : tokenizer.isFallback id = false) : tokenizer.RunsSpell (id :: rest) := by
  intro before run after hsplit hne hrun hbefore hafter
  cases before with
  | nil =>
      obtain ⟨first, run, rfl⟩ := List.exists_cons_of_ne_nil hne
      obtain ⟨rfl, _⟩ := List.cons.inj hsplit
      rw [hrun id List.mem_cons_self] at hid
      cases hid
  | cons first before =>
      apply h before run after (List.cons.inj hsplit).2 hne hrun _ hafter
      intro last hlast
      apply hbefore last
      cases before with
      | nil => cases hlast
      | cons second before => rwa [List.getLast?_cons_cons]

/-- A single run that is a text. -/
theorem runsSpell_run {run : List Nat} {text : Text}
    (hrun : ∀ id ∈ run, tokenizer.isFallback id = true)
    (htext : run.filterMap tokenizer.fallbackByte = Utf8.encode text) :
    tokenizer.RunsSpell run := by
  intro before inner after hsplit _ _ hbefore hafter
  subst hsplit
  obtain rfl : before = [] := by
    by_contra hne
    have hlast := hbefore _ (List.getLast?_eq_getLast_of_ne_nil hne)
    rw [hrun _ (List.mem_append_left _ (List.mem_append_left _ (List.getLast_mem hne)))] at hlast
    cases hlast
  obtain rfl : after = [] := by
    by_contra hne
    have hhead := hafter _ (List.head?_eq_some_head hne)
    rw [hrun _ (List.mem_append_right _ (List.head_mem hne))] at hhead
    cases hhead
  rw [List.nil_append, List.append_nil] at htext
  exact ⟨text, htext⟩

theorem placeFallbackBytes_sample :
    placeFallbackBytes (everyByte.map fun byte => byte.toNat + 3) 260 =
      List.replicate 3 none ++ everyByte.map some ++ [none] := by
  decide +kernel

theorem decodedTokens_eq_map (vocabById : List Text) (fallbackBytes : List (Option UInt8)) :
    decodedTokens vocabById fallbackBytes = vocabById.zipIdx.map fun entry =>
      (fallbackBytes[entry.2]?).join.elim (Utf8.encode (restoreSpaces entry.1)) fun byte => [byte] := by
  rw [decodedTokens, List.mapIdx_eq_zipIdx_map]
  apply List.map_congr_left
  intro entry _
  simp only
  cases (fallbackBytes[entry.2]?).join with
  | none => rfl
  | some byte => rfl

/-- A space and a character of two bytes: the space is stripped. -/
theorem stream_named :
    ∃ tokenizer streamed, load ⟨sampleVocab, [], namedSpecials⟩ ⟨1024, 1024, 1024⟩ = .ok tokenizer ∧
      tokenizer.stream [1, 259, 198, 172] { skipSpecialTokens := true } (List.replicate 6 0) =
        .ok streamed ∧
      streamed = [0xC3, 0xA9] ∧
      tokenizer.decodeBytes [1, 259, 198, 172] { skipSpecialTokens := true } [0, 0, 7] =
        .ok (2, [0xC3, 0xA9, 7]) := by
  have hruns : (sampleTokenizer (sampleAdded namedSpecials)).RunsSpell [259, 198, 172] := by
    rw [sampleTokenizer, placeFallbackBytes_sample]
    apply RunsSpell.cons
    · apply @runsSpell_run _ [198, 172] ['é']
      · decide +kernel
      · decide +kernel
    · decide +kernel
  have hvisible : (sampleTokenizer (sampleAdded namedSpecials)).visible [1, 259, 198, 172]
      { skipSpecialTokens := true } = [259, 198, 172] := by
    decide +kernel
  -- the table of decoded tokens is written out before it is read
  have hstream : (sampleTokenizer (sampleAdded namedSpecials)).stream [1, 259, 198, 172]
      { skipSpecialTokens := true } (List.replicate 6 0) = .ok [0xC3, 0xA9] := by
    rw [sampleTokenizer, placeFallbackBytes_sample, decodedTokens_eq_map]
    decide +kernel
  have hids : ∀ id ∈ [1, 259, 198, 172],
      id < (sampleTokenizer (sampleAdded namedSpecials)).addressableTokenCount := by
    rw [sampleTokenizer, placeFallbackBytes_sample, decodedTokens_eq_map]
    decide +kernel
  have hbuffer : (sampleTokenizer (sampleAdded namedSpecials)).maximumDecodedTokenBytes ≤
      (List.replicate 6 (0 : UInt8)).length := by
    rw [sampleTokenizer, placeFallbackBytes_sample, decodedTokens_eq_map]
    decide +kernel
  obtain ⟨streamed, hstreamed, hdecode⟩ := (stream_eq_decodeBytes load_named).1
    [1, 259, 198, 172] { skipSpecialTokens := true } (List.replicate 6 0) hids
    (hvisible ▸ hruns) hbuffer
  obtain rfl : streamed = [0xC3, 0xA9] := Except.ok.inj (hstreamed.symm.trans hstream)
  exact ⟨_, _, load_named, hstreamed, rfl, hdecode [0, 0, 7] (by decide) (by decide)⟩

end Artifact

end MistralTokenizer

end Riley.Tokenizer
