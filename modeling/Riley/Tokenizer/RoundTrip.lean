import Riley.Tokenizer.BpeSpec
import Riley.Tokenizer.Codec
import Riley.Tokenizer.LoadSpec
import Riley.Tokenizer.PiecesSpec

/-!
Encoding and decoding again. The added tokens cut a text, what stands between
them is cut into pieces and merged, and every id that comes out of this reads back
as the bytes it was made from, but for two kinds of added tokens whose content is
written in the byte alphabet and is not ASCII.
-/

namespace Riley.Tokenizer

open Outcome
open Cutting (Segment)
open Utf8 (Text)

namespace SmolLm2Tokenizer

variable (unicode : Unicode) (tokenizer : SmolLm2Tokenizer)

section Purpose

/-- Every byte is a token on its own. -/
def AllBytes : Prop := ∀ byte, (tokenizer.vocab.get [byteEncoder byte]).isSome

def addedContents : List Text := tokenizer.addedIds.filterMap tokenizer.tokenForId

/-- The added tokens of a text, and what stands between them. -/
def segments (input : Text) : List (Segment Char) := Cutting.cut tokenizer.addedContents input

/-- The symbols of a piece: the neighbours of the least rank are merged first. A
profile that ignores merges takes a piece that is a token whole. -/
def symbols (piece : Text) : List Text :=
  let mapped := spell (Utf8.encode piece)
  if tokenizer.profile = .llama3 ∧ (tokenizer.vocab.get mapped).isSome then [mapped]
  else Merging.merged (symbolRank tokenizer.mergeRanks) (· ++ ·)
    (mapped.map fun character => [character])

/-- The bytes of a part, normalized between added tokens where the profile does. -/
def wantedPart : Segment Char → Bytes
  | .between text => Utf8.encode (tokenizer.normalized unicode text)
  | .word content => Utf8.encode content

/-- The bytes that a text should read back as. -/
def wanted (input : Text) : Bytes :=
  match tokenizer.profile with
  | .qwen2 => (tokenizer.segments input).flatMap (tokenizer.wantedPart unicode)
  | .smolLm2 | .llama3 => Utf8.encode input

/-- What an added token reads back as: its content, or the bytes that its content
spells where the profile reads every token of the byte alphabet so. -/
def readAdded (content : Text) : Bytes :=
  if tokenizer.profile.addedTokensAreRaw ∨ ¬ Spelled content then Utf8.encode content
  else unspell content

def readPart : Segment Char → Bytes
  | .between text => Utf8.encode (tokenizer.normalized unicode text)
  | .word content => tokenizer.readAdded content

/-- The bytes that a text reads back as. -/
def reading (input : Text) : Bytes :=
  (tokenizer.segments input).flatMap (tokenizer.readPart unicode)

/-- Between added tokens, no piece is merged to a symbol that is an added token
and reads as other bytes than it spells. -/
def PlainIsRead (input : Text) : Prop :=
  tokenizer.profile.addedTokensAreRaw → ∀ text, .between text ∈ tokenizer.segments input →
    ∀ piece ∈ tokenizer.pieces unicode (tokenizer.normalized unicode text),
      ∀ symbol ∈ tokenizer.symbols piece, symbol ∈ tokenizer.addedContents → ¬ Misread symbol

end Purpose

variable {unicode tokenizer}

section Decoding

/-- A token that is written as those bytes. -/
structure Writes (decoded : DecodedToken) (bytes : Bytes) : Prop where
  byteLen : decoded.byteLen = bytes.length
  writeInto : ∀ destination,
    decoded.writeInto destination = .ok (bytes.length, overwrite destination bytes)

theorem writes_raw (bytes : Bytes) : Writes (.raw bytes) bytes := ⟨rfl, fun _ => rfl⟩

theorem writes_byteLevel {token : Text} (h : Spelled token) :
    Writes (.byteLevel token) (unspell token) := by
  have hread : readByteLevel token = .ok (unspell token) := by
    induction token with
    | nil => rfl
    | cons character rest ih =>
        obtain ⟨⟨byte, hbyte⟩, hrest⟩ := h.cons_inv
        rw [readByteLevel, hbyte, unspell_cons hbyte, ih hrest]
        rfl
  apply Writes.mk
  · exact (length_unspell h).symm
  · intro destination
    rw [DecodedToken.writeInto, hread, length_unspell h]
    rfl

theorem writes_classify (token : Text) : Writes (.classify token)
    (if Spelled token then unspell token else Utf8.encode token) := by
  unfold DecodedToken.classify
  split
  · next h => exact writes_byteLevel h
  · exact writes_raw _

variable (tokenizer) in
/-- Ids that are decoded, with nothing skipped, to those bytes. -/
inductive Reads : List Nat → Bytes → Prop
  | nil : Reads [] []
  | cons {id : Nat} {ids : List Nat} {decoded : DecodedToken} {first rest : Bytes}
      (hdecoded : tokenizer.decodedToken id {} = .ok (some decoded))
      (hfirst : Writes decoded first) (hrest : Reads ids rest) : Reads (id :: ids) (first ++ rest)

theorem Reads.append {ids ids' : List Nat} {bytes bytes' : Bytes}
    (h : tokenizer.Reads ids bytes) (h' : tokenizer.Reads ids' bytes') :
    tokenizer.Reads (ids ++ ids') (bytes ++ bytes') := by
  induction h with
  | nil => exact h'
  | cons hdecoded hfirst _ ih =>
      rw [List.append_assoc]
      exact .cons hdecoded hfirst ih

theorem Reads.decodedBytesLen {ids : List Nat} {bytes : Bytes} (h : tokenizer.Reads ids bytes)
    (byteLen : Nat) (hfits : byteLen + bytes.length ≤ usizeMax) :
    tokenizer.decodedBytesLenFrom {} byteLen ids = .ok (byteLen + bytes.length) := by
  induction h generalizing byteLen with
  | nil => rfl
  | @cons id ids decoded first rest hdecoded hfirst _ ih =>
      rw [List.length_append] at hfits ⊢
      have hadd : checkedAdd usizeMax byteLen decoded.byteLen = some (byteLen + first.length) := by
        rw [hfirst.byteLen]
        exact checkedAdd_eq_some.mpr ⟨rfl, by omega⟩
      simp only [decodedBytesLenFrom, hdecoded, bind, Except.bind, Option.elim_some, hadd]
      rw [ih (byteLen + first.length) (by omega), Nat.add_assoc]

theorem Reads.decodeBytesFrom {ids : List Nat} {bytes : Bytes} (h : tokenizer.Reads ids bytes)
    (written destination : Bytes) (hroom : bytes.length ≤ destination.length) :
    tokenizer.decodeBytesFrom {} written.length (written ++ destination) ids =
      .ok (written.length + bytes.length, written ++ overwrite destination bytes) := by
  induction h generalizing written destination with
  | nil => rfl
  | @cons id ids decoded first rest hdecoded hfirst _ ih =>
      rw [List.length_append] at hroom
      have hensure : ensureDecodeDestination decoded.byteLen destination.length = .ok () := by
        unfold ensureDecodeDestination
        rw [hfirst.byteLen, if_neg (by omega)]
      have hinto : tokenizer.decodeTokenBytesInto id {} destination =
          .ok (first.length, overwrite destination first) := by
        simp only [decodeTokenBytesInto, hdecoded, bind, Except.bind, hensure, hfirst.writeInto]
      have hover : written ++ overwrite destination first =
          (written ++ first) ++ destination.drop first.length := by
        rw [overwrite, List.append_assoc]
      have hmore := ih (written ++ first) (destination.drop first.length)
        (by rw [List.length_drop]; omega)
      simp only [SmolLm2Tokenizer.decodeBytesFrom, List.drop_left, List.take_left, hinto, bind,
        Except.bind]
      rw [hover, ← List.length_append, hmore]
      simp only [overwrite, List.length_append, List.append_assoc, List.drop_drop, Nat.add_assoc]

/-- Decoding writes the bytes of the ids, and nothing behind them. -/
theorem Reads.decodeBytes {ids : List Nat} {bytes : Bytes} (h : tokenizer.Reads ids bytes)
    {destination : Bytes} (hroom : bytes.length ≤ destination.length)
    (hslice : destination.length ≤ usizeMax) :
    tokenizer.decodeBytes ids {} destination =
      .ok (bytes.length, overwrite destination bytes) := by
  have hrequired : tokenizer.decodedBytesLen ids {} = .ok bytes.length := by
    have hlen := h.decodedBytesLen 0 (by omega)
    rw [Nat.zero_add] at hlen
    exact hlen
  have hwrite := h.decodeBytesFrom [] destination hroom
  rw [List.length_nil, Nat.zero_add] at hwrite
  simp only [SmolLm2Tokenizer.decodeBytes, hrequired, bind, Except.bind, ensureDecodeDestination,
    if_neg (Nat.not_lt.mpr hroom)]
  exact hwrite

end Decoding

section Encoding

variable {index : Text → Option Nat}

theorem Loaded.mem_addedContents (h : tokenizer.Loaded index) (content : Text) :
    content ∈ tokenizer.addedContents ↔ (index content).isSome := by
  unfold addedContents
  rw [List.mem_filterMap]
  constructor
  · rintro ⟨id, hid, htoken⟩
    obtain ⟨other, hother⟩ := h.ids id hid
    have hsame := (h.content other id hother).2
    rw [tokenForId, hsame] at htoken
    rw [← Option.some.inj htoken, hother]
    rfl
  · intro hindex
    obtain ⟨id, hid⟩ := Option.isSome_iff_exists.mp hindex
    exact ⟨id, h.content content id hid⟩

theorem decodedToken_eq {id : Nat} {token : Text} (h : tokenizer.vocabById[id]? = some token) :
    tokenizer.decodedToken id {} =
      .ok (some (if tokenizer.profile.addedTokensAreRaw ∧ id ∈ tokenizer.addedIds then
        .raw (Utf8.encode token) else .classify token)) := by
  unfold decodedToken tokenForId
  rw [h]
  simp only [Bool.false_eq_true, and_false, if_false]
  split <;> rfl

/-- An added token found in a text. -/
theorem Loaded.reads_added (h : tokenizer.Loaded index) {content : Text} {id : Nat}
    (hid : index content = some id) {ids : List Nat} {rest : Bytes}
    (hrest : tokenizer.Reads ids rest) :
    tokenizer.Reads (id :: ids) (tokenizer.readAdded content ++ rest) := by
  obtain ⟨hadded, htoken⟩ := h.content content id hid
  apply Reads.cons (decodedToken_eq htoken) _ hrest
  unfold readAdded
  by_cases hraw : tokenizer.profile.addedTokensAreRaw = true
  · rw [if_pos ⟨hraw, hadded⟩, if_pos (.inl hraw)]
    exact writes_raw _
  · rw [if_neg (fun hboth => hraw hboth.1)]
    have hclassify := writes_classify content
    by_cases hspelled : Spelled content
    · rw [if_pos hspelled] at hclassify
      rw [if_neg (by simp [hraw, hspelled])]
      exact hclassify
    · rw [if_neg hspelled] at hclassify
      rw [if_pos (.inr hspelled)]
      exact hclassify

/-- A symbol that is no added token to be misread reads as the bytes it spells. -/
theorem Loaded.reads_symbol (h : tokenizer.Loaded index) {symbol : Text} {id : Nat}
    (hid : tokenizer.vocab.get symbol = some id) (hspelled : Spelled symbol)
    (hread : tokenizer.profile.addedTokensAreRaw → symbol ∈ tokenizer.addedContents →
      ¬ Misread symbol) {ids : List Nat} {rest : Bytes} (hrest : tokenizer.Reads ids rest) :
    tokenizer.Reads (id :: ids) (unspell symbol ++ rest) := by
  have htoken := h.vocab symbol id hid
  apply Reads.cons (decodedToken_eq htoken) _ hrest
  split
  · next hraw =>
      have hmem : symbol ∈ tokenizer.addedContents :=
        List.mem_filterMap.mpr ⟨id, hraw.2, htoken⟩
      rw [(unspell_eq_encode hspelled).mpr (hread hraw.1 hmem)]
      exact writes_raw _
  · have hclassify := writes_classify symbol
    rw [if_pos hspelled] at hclassify
    exact hclassify

theorem Loaded.reads_symbols (h : tokenizer.Loaded index) {symbols : List Text} {ids : List Nat}
    (hids : tokenizer.idsOf symbols = .ok ids) (hspelled : Spelled symbols.flatten)
    (hread : tokenizer.profile.addedTokensAreRaw → ∀ symbol ∈ symbols,
      symbol ∈ tokenizer.addedContents → ¬ Misread symbol) :
    tokenizer.Reads ids (unspell symbols.flatten) := by
  induction symbols generalizing ids with
  | nil =>
      cases hids
      exact .nil
  | cons symbol rest ih =>
      unfold idsOf at hids
      split at hids
      · cases hids
      next id hid =>
      obtain ⟨ids', hids', heq⟩ := except_bind_eq_ok.mp hids
      cases heq
      rw [List.flatten_cons] at hspelled ⊢
      rw [unspell_append]
      apply h.reads_symbol hid (hspelled.mono (List.subset_append_left _ _))
      · exact fun hraw hmem => hread hraw symbol List.mem_cons_self hmem
      · apply ih hids' (hspelled.mono (List.subset_append_right _ _))
        intro hraw other hmem
        exact hread hraw other (List.mem_cons_of_mem _ hmem)

variable (tokenizer) in
/-- The ids of a piece are those of its symbols. -/
theorem encodePieces_cons (piece : Text) (rest : List Text) :
    tokenizer.encodePieces (piece :: rest) = (do
      let ids ← tokenizer.idsOf (tokenizer.symbols piece)
      let more ← tokenizer.encodePieces rest
      .ok (ids ++ more)) := by
  simp only [encodePieces, symbols, bpe, bpeSymbols_eq]
  by_cases hprofile : tokenizer.profile = .llama3
  · rw [if_pos hprofile]
    cases hwhole : tokenizer.vocab.get (spell (Utf8.encode piece)) with
    | none => simp [hprofile]
    | some id => simp [hprofile, idsOf, hwhole, bind, Except.bind]
  · simp [hprofile]

theorem flatten_symbols (piece : Text) :
    (tokenizer.symbols piece).flatten = spell (Utf8.encode piece) := by
  unfold symbols
  simp only
  split
  · exact List.append_nil _
  · rw [Merging.flatten_merged]
    generalize spell (Utf8.encode piece) = mapped
    induction mapped with
    | nil => rfl
    | cons character rest ih => rw [List.map_cons, List.flatten_cons, ih]; rfl

theorem Loaded.reads_pieces (h : tokenizer.Loaded index) {pieces : List Text} {ids : List Nat}
    (hids : tokenizer.encodePieces pieces = .ok ids)
    (hread : tokenizer.profile.addedTokensAreRaw → ∀ piece ∈ pieces,
      ∀ symbol ∈ tokenizer.symbols piece, symbol ∈ tokenizer.addedContents → ¬ Misread symbol) :
    tokenizer.Reads ids (Utf8.encode pieces.flatten) := by
  induction pieces generalizing ids with
  | nil =>
      cases hids
      exact .nil
  | cons piece rest ih =>
      rw [encodePieces_cons] at hids
      obtain ⟨first, hfirst, hids⟩ := except_bind_eq_ok.mp hids
      obtain ⟨more, hmore, heq⟩ := except_bind_eq_ok.mp hids
      cases heq
      have hpiece := h.reads_symbols hfirst (by rw [flatten_symbols]; exact spelled_spell _)
        fun hraw => hread hraw piece List.mem_cons_self
      rw [flatten_symbols, unspell_spell] at hpiece
      rw [List.flatten_cons, Utf8.encode_append]
      apply hpiece.append
      apply ih hmore
      intro hraw other hmem
      exact hread hraw other (List.mem_cons_of_mem _ hmem)

theorem flatten_pieces (input : Text) : (tokenizer.pieces unicode input).flatten = input := by
  unfold pieces
  cases tokenizer.profile with
  | smolLm2 =>
      simp only
      have hpieces : ∀ texts : List Text, (texts.flatMap unicode.gpt2Pieces).flatten =
          texts.flatten := by
        intro texts
        induction texts with
        | nil => rfl
        | cons text rest ih =>
            rw [List.flatMap_cons, List.flatten_append, unicode.flatten_gpt2Pieces, ih,
              List.flatten_cons]
      rw [hpieces, unicode.flatten_splitIndividualDecimalDigits]
  | qwen2 => exact unicode.flatten_qwen2Pieces input
  | llama3 => exact unicode.flatten_llama3Pieces input

/-- What stands between added tokens reads back as it is normalized. -/
theorem Loaded.reads_plain (h : tokenizer.Loaded index) {text : Text} {ids : List Nat}
    (hids : tokenizer.encodePlain unicode text = .ok ids)
    (hread : tokenizer.profile.addedTokensAreRaw →
      ∀ piece ∈ tokenizer.pieces unicode (tokenizer.normalized unicode text),
        ∀ symbol ∈ tokenizer.symbols piece, symbol ∈ tokenizer.addedContents →
          ¬ Misread symbol) :
    tokenizer.Reads ids (Utf8.encode (tokenizer.normalized unicode text)) := by
  have hpieces := h.reads_pieces hids hread
  rw [flatten_pieces] at hpieces
  exact hpieces

/-- Where the source cuts a text is where its added tokens cut it. -/
theorem Loaded.encodeFrom_cons (h : tokenizer.Loaded index) (fuel : Nat) {input : Text}
    (hne : input ≠ []) :
    tokenizer.encodeFrom unicode (fuel + 1) input =
      (Cutting.firstWord tokenizer.addedContents input).elim
        (tokenizer.encodePlain unicode input) (fun (before, word, after) => do
          let plain ← tokenizer.encodePlain unicode before
          let more ← tokenizer.encodeFrom unicode fuel after
          .ok (plain ++ (index word).toList ++ more)) := by
  cases input with
  | nil => exact absurd rfl hne
  | cons character rest =>
      simp only [encodeFrom, h.trie.nextMatch h.empty h.mem_addedContents]
      cases hfirst : Cutting.firstWord tokenizer.addedContents (character :: rest) with
      | none => rfl
      | some found =>
          obtain ⟨before, word, after⟩ := found
          obtain ⟨hsplit, hmem⟩ := Cutting.firstWord_split hfirst
          obtain ⟨id, hid⟩ := Option.isSome_iff_exists.mp ((h.mem_addedContents word).mp hmem)
          simp only [Option.bind_some, hid, Option.map_some, Option.elim_some]
          rw [hsplit, List.take_left, List.drop_left, Utf8.dropBytes_append]
          simp

theorem Loaded.nil_not_mem (h : tokenizer.Loaded index) : [] ∉ tokenizer.addedContents := by
  intro hmem
  have hsome := (h.mem_addedContents []).mp hmem
  rw [h.empty] at hsome
  cases hsome

theorem Loaded.reads_from (h : tokenizer.Loaded index) (fuel : Nat) {input : Text}
    {ids : List Nat} (hids : tokenizer.encodeFrom unicode fuel input = .ok ids)
    (hread : tokenizer.profile.addedTokensAreRaw → ∀ text,
      .between text ∈ Cutting.cutWith tokenizer.addedContents fuel input →
        ∀ piece ∈ tokenizer.pieces unicode (tokenizer.normalized unicode text),
          ∀ symbol ∈ tokenizer.symbols piece, symbol ∈ tokenizer.addedContents →
            ¬ Misread symbol) :
    tokenizer.Reads ids ((Cutting.cutWith tokenizer.addedContents fuel input).flatMap
      (tokenizer.readPart unicode)) := by
  induction fuel generalizing input ids with
  | zero =>
      cases hids
      exact .nil
  | succ fuel ih =>
      by_cases hne : input = []
      · subst hne
        cases hids
        exact .nil
      rw [h.encodeFrom_cons fuel hne] at hids
      cases hfirst : Cutting.firstWord tokenizer.addedContents input with
      | none =>
          rw [hfirst] at hids
          rw [Cutting.cutWith_none hne hfirst] at hread ⊢
          have hplain := h.reads_plain hids fun hraw => hread hraw input List.mem_cons_self
          rw [List.flatMap_cons, List.flatMap_nil, List.append_nil]
          exact hplain
      | some found =>
          obtain ⟨before, word, after⟩ := found
          rw [hfirst] at hids
          rw [Cutting.cutWith_some hfirst] at hread ⊢
          obtain ⟨plain, hplain, hids⟩ := except_bind_eq_ok.mp hids
          obtain ⟨more, hmore, heq⟩ := except_bind_eq_ok.mp hids
          cases heq
          have hmem := (Cutting.firstWord_split hfirst).2
          obtain ⟨id, hid⟩ := Option.isSome_iff_exists.mp ((h.mem_addedContents word).mp hmem)
          rw [hid, List.flatMap_cons, List.flatMap_cons, List.append_assoc]
          apply (h.reads_plain hplain fun hraw => hread hraw before List.mem_cons_self).append
          apply h.reads_added hid
          apply ih hmore
          intro hraw text hmem
          exact hread hraw text (List.mem_cons_of_mem _ (List.mem_cons_of_mem _ hmem))

/-- The ids of a text read back as its reading. -/
theorem Loaded.reads_encode (h : tokenizer.Loaded index) {input : Text} {options : EncodeOptions}
    {ids : List Nat} (hopening : tokenizer.opening options = [])
    (hids : tokenizer.encode unicode input options = .ok ids)
    (hread : tokenizer.PlainIsRead unicode input) :
    tokenizer.Reads ids (tokenizer.reading unicode input) := by
  obtain ⟨ids', hfrom, heq⟩ := except_bind_eq_ok.mp hids
  rw [hopening] at heq
  cases heq
  exact h.reads_from _ hfrom hread

end Encoding

section Totality

variable {index : Text → Option Nat}

theorem Loaded.idsOf_ok (symbols : List Text)
    (hsymbols : ∀ symbol ∈ symbols, (tokenizer.vocab.get symbol).isSome) :
    ∃ ids, tokenizer.idsOf symbols = .ok ids := by
  induction symbols with
  | nil => exact ⟨[], rfl⟩
  | cons symbol rest ih =>
      obtain ⟨ids, hids⟩ := ih fun other hmem => hsymbols other (List.mem_cons_of_mem _ hmem)
      obtain ⟨id, hid⟩ := Option.isSome_iff_exists.mp (hsymbols symbol List.mem_cons_self)
      exact ⟨id :: ids, by simp [idsOf, hid, hids, bind, Except.bind]⟩

/-- Merging tokens makes tokens. -/
theorem Loaded.symbols_known (h : tokenizer.Loaded index) (hbytes : tokenizer.AllBytes)
    (piece : Text) : ∀ symbol ∈ tokenizer.symbols piece, (tokenizer.vocab.get symbol).isSome := by
  unfold symbols
  simp only
  split
  · next hwhole =>
      intro symbol hmem
      rw [List.mem_singleton.mp hmem]
      exact hwhole.2
  · apply Merging.merged_keeps fun left => ∀ symbol ∈ left,
      (tokenizer.vocab.get symbol).isSome
    · intro symbol hmem
      obtain ⟨character, hcharacter, rfl⟩ := List.mem_map.mp hmem
      obtain ⟨byte, _, rfl⟩ := List.mem_map.mp hcharacter
      exact hbytes byte
    · intro before first second after least hrank hkept symbol hmem
      rcases List.mem_append.mp hmem with hmem | hmem
      · exact hkept symbol (List.mem_append_left _ hmem)
      rcases List.mem_cons.mp hmem with rfl | hmem
      · exact h.merges first second least hrank
      · apply hkept symbol
        exact List.mem_append_right _ (List.mem_cons_of_mem _ (List.mem_cons_of_mem _ hmem))

theorem Loaded.encodePieces_ok (h : tokenizer.Loaded index) (hbytes : tokenizer.AllBytes)
    (pieces : List Text) : ∃ ids, tokenizer.encodePieces pieces = .ok ids := by
  induction pieces with
  | nil => exact ⟨[], rfl⟩
  | cons piece rest ih =>
      obtain ⟨more, hmore⟩ := ih
      obtain ⟨ids, hids⟩ := idsOf_ok _ (h.symbols_known hbytes piece)
      refine ⟨ids ++ more, ?_⟩
      rw [encodePieces_cons, hids, hmore]
      rfl

theorem Loaded.encodeFrom_ok (unicode : Unicode) (h : tokenizer.Loaded index) (hbytes : tokenizer.AllBytes)
    (fuel : Nat) (input : Text) : ∃ ids, tokenizer.encodeFrom unicode fuel input = .ok ids := by
  induction fuel generalizing input with
  | zero => exact ⟨[], rfl⟩
  | succ fuel ih =>
      by_cases hne : input = []
      · subst hne
        exact ⟨[], rfl⟩
      rw [h.encodeFrom_cons fuel hne]
      cases Cutting.firstWord tokenizer.addedContents input with
      | none => exact h.encodePieces_ok hbytes _
      | some found =>
          obtain ⟨before, word, after⟩ := found
          obtain ⟨plain, hplain⟩ := h.encodePieces_ok hbytes
            (tokenizer.pieces unicode (tokenizer.normalized unicode before))
          obtain ⟨more, hmore⟩ := ih after
          refine ⟨plain ++ (index word).toList ++ more, ?_⟩
          simp only [Option.elim_some, encodePlain, hplain, hmore, bind, Except.bind]

/-- Every text is encoded where every byte is a token. -/
theorem Loaded.encode_ok (h : tokenizer.Loaded index) (hbytes : tokenizer.AllBytes) (input : Text)
    (options : EncodeOptions) : ∃ ids, tokenizer.encode unicode input options = .ok ids := by
  obtain ⟨ids, hids⟩ := h.encodeFrom_ok unicode hbytes input.length input
  exact ⟨tokenizer.opening options ++ ids, by simp [encode, hids, bind, Except.bind]⟩

end Totality

section Reading

variable {index : Text → Option Nat}

theorem length_flatMap_le {α β : Type} {items : List α} {first second : α → List β}
    (h : ∀ item ∈ items, (first item).length ≤ (second item).length) :
    (items.flatMap first).length ≤ (items.flatMap second).length := by
  induction items with
  | nil => exact Nat.le_refl _
  | cons item rest ih =>
      have hitem := h item List.mem_cons_self
      have hrest := ih fun other hmem => h other (List.mem_cons_of_mem _ hmem)
      rw [List.flatMap_cons, List.flatMap_cons, List.length_append, List.length_append]
      omega

/-- Parts that are the same or shorter make up the same only if all are the same. -/
theorem flatMap_eq_iff {α β : Type} {items : List α} {first second : α → List β}
    (h : ∀ item ∈ items,
      first item = second item ∨ (first item).length < (second item).length) :
    items.flatMap first = items.flatMap second ↔ ∀ item ∈ items, first item = second item := by
  have hle : ∀ item ∈ items, (first item).length ≤ (second item).length := by
    intro item hmem
    rcases h item hmem with heq | hlt
    · exact Nat.le_of_eq (congrArg List.length heq)
    · exact Nat.le_of_lt hlt
  constructor
  · intro heq
    induction items with
    | nil => exact fun _ hmem => absurd hmem List.not_mem_nil
    | cons item rest ih =>
        have hrest := length_flatMap_le fun other hmem => hle other (List.mem_cons_of_mem _ hmem)
        have hitem := hle item List.mem_cons_self
        have hlength := congrArg List.length heq
        rw [List.flatMap_cons, List.flatMap_cons, List.length_append, List.length_append]
          at hlength
        rw [List.flatMap_cons, List.flatMap_cons] at heq
        obtain ⟨hsame, hmore⟩ := List.append_inj heq (by omega)
        intro other hmem
        rcases List.mem_cons.mp hmem with rfl | hmem
        · exact hsame
        · apply ih _ _ hmore other hmem
          · exact fun item hmem => h item (List.mem_cons_of_mem _ hmem)
          · exact fun item hmem => hle item (List.mem_cons_of_mem _ hmem)
  · intro hall
    exact List.flatMap_congr hall

/-- The bytes wanted, part by part. -/
theorem Loaded.wanted_eq (h : tokenizer.Loaded index) (input : Text) :
    tokenizer.wanted unicode input =
      (tokenizer.segments input).flatMap (tokenizer.wantedPart unicode) := by
  have hsame : tokenizer.profile ≠ .qwen2 →
      (tokenizer.segments input).flatMap (tokenizer.wantedPart unicode) =
        Utf8.encode input := by
    intro hprofile
    have hparts : ∀ parts : List (Segment Char),
        parts.flatMap (tokenizer.wantedPart unicode) = Utf8.encode (parts.flatMap Segment.items) := by
      intro parts
      induction parts with
      | nil => rfl
      | cons part rest ih =>
          rw [List.flatMap_cons, List.flatMap_cons, Utf8.encode_append, ih]
          cases part with
          | between text => rw [wantedPart, normalized, if_neg hprofile]; rfl
          | word content => rfl
    rw [hparts, segments, Cutting.flatMap_cut h.nil_not_mem]
  unfold wanted
  cases hprofile : tokenizer.profile with
  | qwen2 => rfl
  | smolLm2 => exact (hsame (by rw [hprofile]; exact TokenizerProfile.noConfusion)).symm
  | llama3 => exact (hsame (by rw [hprofile]; exact TokenizerProfile.noConfusion)).symm

/-- An added token reads back as its content, or as fewer bytes. -/
theorem readAdded_eq_or_lt (content : Text) :
    (tokenizer.readAdded content = Utf8.encode content ↔
      (tokenizer.profile = .smolLm2 → ¬ Misread content)) ∧
    (tokenizer.readAdded content = Utf8.encode content ∨
      (tokenizer.readAdded content).length < (Utf8.encode content).length) := by
  have hraw : tokenizer.profile.addedTokensAreRaw = true ↔ tokenizer.profile ≠ .smolLm2 := by
    cases tokenizer.profile <;> decide
  unfold readAdded
  split
  · next hcontent =>
      refine ⟨⟨fun _ hprofile hmisread => ?_, fun _ => rfl⟩, .inl rfl⟩
      rcases hcontent with hcontent | hcontent
      · exact hraw.mp hcontent hprofile
      · exact hcontent hmisread.1
  · next hcontent =>
      rw [not_or, not_not, hraw, not_not] at hcontent
      obtain ⟨hprofile, hspelled⟩ := hcontent
      constructor
      · rw [unspell_eq_encode hspelled]
        exact ⟨fun hnot _ => hnot, fun hnot => hnot hprofile⟩
      · by_cases hmisread : Misread content
        · right
          rw [length_unspell hspelled]
          exact length_lt_encode hmisread.2
        · exact .inl ((unspell_eq_encode hspelled).mpr hmisread)

/-- A text reads back as its own bytes but for added tokens that are misread. -/
theorem Loaded.reading_eq_wanted (h : tokenizer.Loaded index) (input : Text) :
    tokenizer.reading unicode input = tokenizer.wanted unicode input ↔
      (tokenizer.profile = .smolLm2 → ∀ content,
        .word content ∈ tokenizer.segments input → ¬ Misread content) := by
  rw [h.wanted_eq, reading, flatMap_eq_iff]
  · constructor
    · intro hall hprofile content hmem
      exact (readAdded_eq_or_lt content).1.mp (hall _ hmem) hprofile
    · intro hnone part hmem
      cases part with
      | between text => rfl
      | word content =>
          exact (readAdded_eq_or_lt content).1.mpr fun hprofile => hnone hprofile content hmem
  · intro part _
    cases part with
    | between text => exact .inl rfl
    | word content => exact (readAdded_eq_or_lt content).2

end Reading

/-- Encoding and decoding again, with no token put before the text and none
skipped: every text reads back as its bytes, but that the `SmolLM2` profile reads
the characters of an added token as bytes where all of them stand for one. -/
theorem decode_encode (unicode : Unicode) {limits : LoadLimits} {profile : TokenizerProfile}
    {tokenizer : SmolLm2Tokenizer} (hbuilt : Built limits profile tokenizer) (input : Text)
    (options : EncodeOptions) (hopening : tokenizer.opening options = [])
    (hread : tokenizer.PlainIsRead unicode input) (destination : Bytes)
    (hroom : (tokenizer.reading unicode input).length ≤ destination.length)
    (hslice : destination.length ≤ usizeMax) :
    (tokenizer.AllBytes → ∃ ids, tokenizer.encode unicode input options = .ok ids) ∧
      (∀ ids, tokenizer.encode unicode input options = .ok ids →
        tokenizer.decodeBytes ids {} destination =
          .ok ((tokenizer.reading unicode input).length,
            overwrite destination (tokenizer.reading unicode input))) ∧
      (tokenizer.reading unicode input = tokenizer.wanted unicode input ↔
        (profile = .smolLm2 → ∀ content,
          .word content ∈ tokenizer.segments input → ¬ Misread content)) := by
  obtain ⟨rfl, index, hloaded⟩ := hbuilt.exists_loaded
  refine ⟨fun hbytes => hloaded.encode_ok hbytes input options, ?_,
    hloaded.reading_eq_wanted input⟩
  intro ids hids
  exact (hloaded.reads_encode hopening hids hread).decodeBytes hroom hslice

section Artifact

/-- The tokens of single bytes. -/
def byteTokens : List Text := everyByte.map fun byte => [charOfByte byte]

theorem mem_byteTokens {token : Text} : token ∈ byteTokens ↔ ∃ byte, token = [byteEncoder byte] := by
  constructor
  · intro hmem
    obtain ⟨byte, _, rfl⟩ := List.mem_map.mp hmem
    exact ⟨byte, by rw [byteEncoder_eq]⟩
  · rintro ⟨byte, rfl⟩
    exact List.mem_map.mpr ⟨byte, mem_everyByte byte, by rw [byteEncoder_eq]⟩

/-- Every byte is a token, and there are no more. -/
def byteVocab : Vocab where
  entries := byteTokens.zipIdx
  nodup := by
    rw [List.zipIdx_map_fst]
    apply List.Nodup.map _ nodup_everyByte
    intro first second h
    apply byteEncoder_injective
    rw [byteEncoder_eq, byteEncoder_eq]
    exact (List.cons.inj h).1

theorem byteVocab_get (byte : UInt8) : (byteVocab.get [byteEncoder byte]).isSome := by
  have hmem : [byteEncoder byte] ∈ byteVocab.entries.map Prod.fst := by
    rw [byteVocab, List.zipIdx_map_fst]
    exact mem_byteTokens.mpr ⟨byte, rfl⟩
  obtain ⟨entry, hentry, heq⟩ := List.mem_map.mp hmem
  unfold Vocab.get
  rw [List.lookup_isSome_iff]
  exact ⟨entry, hentry, beq_iff_eq.mpr heq.symm⟩

theorem validateVocab_byteVocab : validateVocab byteVocab = .ok byteTokens := by
  apply validateVocab_zipIdx
  · exact List.cons_ne_nil _ _
  · intro token hmem
    obtain ⟨byte, rfl⟩ := mem_byteTokens.mp hmem
    exact List.cons_ne_nil _ _

def byteArtifact (addedTokens : List RawAddedToken) : RawTokenizer where
  vocab := byteVocab
  merges := []
  addedTokens
  bosTemplate := none

def roomyLimits : LoadLimits := ⟨1024, 1024, 1024⟩

/-- The tokenizer of single bytes and added tokens. -/
def byteTokenizer (profile : TokenizerProfile) (validated : ValidatedAddedTokens)
    (byId : List Text) : SmolLm2Tokenizer where
  vocab := byteVocab
  vocabById := byId
  mergeRanks := []
  specialIds := validated.specialIds
  addedIds := validated.addedIds
  addedTrie := validated.trie
  maximumDecodedTokenBytes := maximumBytes profile validated.addedIds byId
  profile
  bosTokenId := none

/-- The id of a byte reads back as the byte, unless it is an added token read raw. -/
theorem reads_byte {profile : TokenizerProfile} {validated : ValidatedAddedTokens} (byte : UInt8)
    (hplain : ¬ (profile.addedTokensAreRaw = true ∧ byte.toNat ∈ validated.addedIds))
    {ids : List Nat} {rest : Bytes}
    (hrest : (byteTokenizer profile validated byteTokens).Reads ids rest) :
    (byteTokenizer profile validated byteTokens).Reads (byte.toNat :: ids) (byte :: rest) := by
  have htoken : byteTokens[byte.toNat]? = some (spell [byte]) := by
    rw [byteTokens, everyByte, List.getElem?_map, List.getElem?_map,
      List.getElem?_range byte.toNat_lt, Option.map_some, Option.map_some, UInt8.ofNat_toNat,
      ← byteEncoder_eq]
    rfl
  have hdecoded : (byteTokenizer profile validated byteTokens).decodedToken byte.toNat {} =
      .ok (some (.classify (spell [byte]))) := by
    rw [decodedToken_eq htoken]
    exact congrArg (fun decoded => Except.ok (some decoded)) (if_neg hplain)
  have hwrites := writes_classify (spell [byte])
  rw [if_pos (spelled_spell [byte]), unspell_spell] at hwrites
  exact .cons hdecoded hwrites hrest

theorem load_byteArtifact {addedTokens : List RawAddedToken} {profile : TokenizerProfile}
    {validated : ValidatedAddedTokens} {byId : List Text} (hcount : addedTokens.length ≤ 1024)
    (h : validateAddedTokens addedTokens byteVocab byteTokens profile = .ok (validated, byId)) :
    load (byteArtifact addedTokens) roomyLimits profile =
      .ok (byteTokenizer profile validated byId) := by
  have hlength : byteVocab.entries.length = 256 := by
    rw [byteVocab, List.length_zipIdx, byteTokens, everyByte, List.length_map, List.length_map,
      List.length_range]
  have hspelled : validateByteAlphabet validated.specialIds byteVocab.entries = .ok () := by
    apply validateByteAlphabet_ok
    intro entry hmem
    have htoken : entry.1 ∈ byteVocab.entries.map Prod.fst := List.mem_map_of_mem hmem
    rw [byteVocab, List.zipIdx_map_fst] at htoken
    obtain ⟨byte, heq⟩ := mem_byteTokens.mp htoken
    rw [heq]
    exact spelled_spell [byte]
  have hlimit : ∀ resource actual, actual ≤ 1024 → ∀ limit, limit = 1024 →
      enforceCountLimit resource limit actual = .ok () := by
    rintro resource actual hle limit rfl
    rw [enforceCountLimit, if_neg (Nat.not_lt.mpr hle)]
  have hvocab : (byteArtifact addedTokens).vocab = byteVocab := rfl
  have hmerges : (byteArtifact addedTokens).merges = [] := rfl
  have hadded : (byteArtifact addedTokens).addedTokens = addedTokens := rfl
  have hbos : (byteArtifact addedTokens).bosTemplate = none := rfl
  unfold load
  rw [hvocab, hmerges, hadded, hbos, hlength, List.length_nil, ite_self, validateVocab_byteVocab,
    hlimit _ 256 (by decide) roomyLimits.vocabularyEntries rfl,
    hlimit _ _ (Nat.zero_le _) roomyLimits.merges rfl,
    hlimit _ _ hcount roomyLimits.addedTokens rfl]
  simp only [bind, Except.bind, h, hspelled]
  rfl

def specialToken (id : Nat) (content : Text) : RawAddedToken :=
  ⟨id, content, false, false, false, false, true⟩

/-- The character classes of ASCII and of two letters. -/
def sampleUnicode : Unicode where
  isNumeric := Char.isDigit
  isAlphabetic character := character.isAlpha || character = 'é' || character = '里'
  isWhitespace := Char.isWhitespace
  nfc := id

/-- The tokenizer of single bytes with the byte 0xE9, which is written `é`, as a
special token. -/
def eacuteTokenizer (profile : TokenizerProfile) : SmolLm2Tokenizer :=
  byteTokenizer profile
    ⟨[0xE9], [0xE9], [['é']],
      ⟨[⟨[(0xC3, 1)], none⟩, ⟨[(0xA9, 2)], none⟩, ⟨[], some 0xE9⟩]⟩, []⟩ byteTokens

theorem load_eacute {profile : TokenizerProfile} :
    load (byteArtifact [specialToken 0xE9 ['é']]) roomyLimits profile =
      .ok (eacuteTokenizer profile) := by
  apply load_byteArtifact (by decide)
  cases profile <;> decide +kernel

/-- The text `é` reads back as the byte 0xE9 and not as its own two bytes; and where
added tokens are read raw, the first byte of `里` reads back as the two of `é`. -/
theorem eacute_misread :
    (∃ ids, Built roomyLimits .smolLm2 (eacuteTokenizer .smolLm2) ∧
      (eacuteTokenizer .smolLm2).AllBytes ∧
      (eacuteTokenizer .smolLm2).encode sampleUnicode ['é'] { addSpecialTokens := false } =
        .ok ids ∧
      (eacuteTokenizer .smolLm2).decodeBytes ids {} [0, 0] = .ok (1, [0xE9, 0]) ∧
      Utf8.encode ['é'] = [0xC3, 0xA9]) ∧
    ∃ ids, Built roomyLimits .llama3 (eacuteTokenizer .llama3) ∧
      (eacuteTokenizer .llama3).AllBytes ∧
      (eacuteTokenizer .llama3).encode sampleUnicode ['里'] { addSpecialTokens := false } =
        .ok ids ∧
      (eacuteTokenizer .llama3).decodeBytes ids {} [0, 0, 0, 0] =
        .ok (4, [0xC3, 0xA9, 0x87, 0x8C]) ∧
      Utf8.encode ['里'] = [0xE9, 0x87, 0x8C] := by
  constructor
  · refine ⟨[0xE9], .loaded load_eacute, byteVocab_get, ?_, ?_, ?_⟩
    · decide +kernel
    · have hreads : (eacuteTokenizer .smolLm2).Reads [0xE9] [0xE9] :=
        reads_byte 0xE9 (by decide) .nil
      exact hreads.decodeBytes (by decide) (by decide)
    · decide
  · refine ⟨[0xE9, 0x87, 0x8C], .loaded load_eacute, byteVocab_get, ?_, ?_, ?_⟩
    · decide +kernel
    · have hreads : (eacuteTokenizer .llama3).Reads [0xE9, 0x87, 0x8C]
          ([0xC3, 0xA9] ++ [0x87, 0x8C]) := by
        have hdecoded : (eacuteTokenizer .llama3).decodedToken 0xE9 {} =
            .ok (some (.raw [0xC3, 0xA9])) := by
          decide +kernel
        apply Reads.cons hdecoded (writes_raw _)
        apply reads_byte 0x87 (by decide)
        exact reads_byte 0x8C (by decide) .nil
      exact hreads.decodeBytes (by decide) (by decide)
    · decide

/-- A text with a special token behind the vocabulary, for the profile that ignores
merges. -/
theorem decode_encode_special :
    ∃ tokenizer ids, Built roomyLimits .llama3 tokenizer ∧
      tokenizer.encode sampleUnicode ['h', 'é', '<', '>'] {} = .ok ids ∧
      tokenizer.decodeBytes ids {} [0, 0, 0, 0, 0, 0] =
        .ok (5, [0x68, 0xC3, 0xA9, 0x3C, 0x3E, 0]) := by
  have hadded : validateAddedTokens [specialToken 256 ['<', '>']] byteVocab byteTokens .llama3 =
      .ok (⟨[256], [256], [['<', '>']],
        ⟨[⟨[(0x3C, 1)], none⟩, ⟨[(0x3E, 2)], none⟩, ⟨[], some 256⟩]⟩, [(256, ['<', '>'])]⟩,
          byteTokens ++ [['<', '>']]) := by
    decide +kernel
  have hbuilt := Built.loaded (load_byteArtifact (by decide) hadded)
  generalize htokenizer : byteTokenizer .llama3 _ _ = tokenizer at hbuilt
  have hread : tokenizer.PlainIsRead sampleUnicode ['h', 'é', '<', '>'] := by
    have hsymbols : ∀ part ∈ tokenizer.segments ['h', 'é', '<', '>'],
        ∀ piece ∈ tokenizer.pieces sampleUnicode (tokenizer.normalized sampleUnicode part.items),
          ∀ symbol ∈ tokenizer.symbols piece, symbol ∉ tokenizer.addedContents := by
      rw [← htokenizer]
      decide +kernel
    intro _ text htext piece hpiece symbol hsymbol hadded
    exact absurd hadded (hsymbols _ htext piece hpiece symbol hsymbol)
  have hreading : tokenizer.reading sampleUnicode ['h', 'é', '<', '>'] =
      [0x68, 0xC3, 0xA9, 0x3C, 0x3E] := by
    rw [← htokenizer]
    decide +kernel
  obtain ⟨hencode, hdecode, _⟩ := decode_encode sampleUnicode hbuilt ['h', 'é', '<', '>'] {}
    (by rw [← htokenizer]; rfl) hread [0, 0, 0, 0, 0, 0] (by rw [hreading]; decide) (by decide)
  obtain ⟨ids, hids⟩ := hencode (by rw [← htokenizer]; exact byteVocab_get)
  have hbytes := hdecode ids hids
  rw [hreading] at hbytes
  exact ⟨tokenizer, ids, hbuilt, hids, hbytes⟩

end Artifact

end SmolLm2Tokenizer

end Riley.Tokenizer
