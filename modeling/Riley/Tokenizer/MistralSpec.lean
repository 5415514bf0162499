import Riley.Tokenizer.Fallback
import Riley.Tokenizer.RoundTrip

/-!
Encoding with the Mistral profile and decoding again. Merging keeps what the symbols of
a part cover, so that the decoder, which joins fallback tokens to characters, gives the
part back; added tokens are skipped.
-/

namespace Riley.Tokenizer

open Outcome
open Cutting (Segment)
open SmolLm2Tokenizer (specialToken)
open Utf8 (Text)

namespace MistralTokenizer

section Loading

/-- A tokenizer as it is loaded: `index` gives the content of every added token its
id, and all added tokens are special. -/
structure Loaded (tokenizer : MistralTokenizer) (index : Text → Option Nat) : Prop where
  trie : tokenizer.addedTrie.Holds index
  empty : index [] = none
  content : ∀ content id, index content = some id →
    id ∈ tokenizer.specialIds ∧ tokenizer.vocabById[id]? = some content
  ids : ∀ id ∈ tokenizer.specialIds, ∃ content, index content = some id
  vocab : ∀ token id, tokenizer.vocab.get token = some id →
    tokenizer.vocabById[id]? = some token
  merges : ∀ left right rank, tokenizer.mergeRanks.lookup (left, right) = some rank →
    (tokenizer.vocab.get (left ++ right)).isSome
  fallback : ∀ byte : UInt8, ∃ id, tokenizer.fallbackIds[byte.toNat]? = some id ∧
    tokenizer.vocab.get (fallbackToken byte) = some id ∧ id ∉ tokenizer.specialIds
  bytes : ∀ token id, tokenizer.vocab.get token = some id →
    ∀ byte, tokenizer.fallbackByte id = some byte ↔ token = fallbackToken byte
  decoded : ∀ id, tokenizer.decoded[id]? = (tokenizer.vocabById[id]?).map fun token =>
    (tokenizer.fallbackByte id).elim (Utf8.encode (restoreSpaces token)) fun byte => [byte]
  bos : tokenizer.bos ∈ tokenizer.specialIds

theorem readFallbackIds_spec {vocab : Vocab} {specialIds ids : List Nat} {bytes : List UInt8}
    (h : readFallbackIds vocab specialIds bytes = .ok ids) (index : Nat) (byte : UInt8)
    (hbyte : bytes[index]? = some byte) :
    ∃ id, ids[index]? = some id ∧ vocab.get (fallbackToken byte) = some id ∧
      id ∉ specialIds := by
  induction bytes generalizing ids index with
  | nil => cases hbyte
  | cons first rest ih =>
      rw [readFallbackIds] at h
      split at h
      · cases h
      next id hfirst =>
      obtain ⟨more, hmore, heq⟩ := except_bind_eq_ok.mp h
      cases heq
      cases index with
      | zero =>
          cases hbyte
          obtain ⟨hget, hplain⟩ := Option.filter_eq_some_iff.mp hfirst
          exact ⟨id, rfl, hget, by simpa using hplain⟩
      | succ index => exact ih hmore index hbyte

/-- Pairs of a byte and its place, each place taken by one byte, written in turn. -/
theorem foldl_set_spec (pairs : List (UInt8 × Nat)) (start : List (Option UInt8))
    (hpairs : ∀ first second id, (first, id) ∈ pairs → (second, id) ∈ pairs → first = second)
    {id : Nat} (hid : id < start.length) (byte : UInt8) :
    ((pairs.foldl (fun bytes (byte, id) => bytes.set id (some byte)) start)[id]?).join =
        some byte ↔
      (byte, id) ∈ pairs ∨ (∀ other, (other, id) ∉ pairs) ∧ (start[id]?).join = some byte := by
  induction pairs generalizing start with
  | nil => simp
  | cons pair pairs ih =>
      obtain ⟨first, place⟩ := pair
      rw [List.foldl_cons, ih _ (fun _ _ _ hfirst hsecond => hpairs _ _ _
        (List.mem_cons_of_mem _ hfirst) (List.mem_cons_of_mem _ hsecond))
        (by rw [List.length_set]; exact hid)]
      by_cases hplace : place = id
      · subst hplace
        rw [List.getElem?_set_self hid]
        simp only [List.mem_cons, Prod.mk.injEq, and_true, Option.join_some, Option.some.injEq]
        constructor
        · rintro (hmem | ⟨_, rfl⟩)
          · exact .inl (.inr hmem)
          · exact .inl (.inl rfl)
        · rintro ((rfl | hmem) | ⟨hnone, _⟩)
          · by_cases hlater : ∃ other, (other, place) ∈ pairs
            · obtain ⟨other, hother⟩ := hlater
              have hsame := hpairs other byte place (List.mem_cons_of_mem _ hother)
                List.mem_cons_self
              exact .inl (hsame ▸ hother)
            · exact .inr ⟨fun other hother => hlater ⟨other, hother⟩, rfl⟩
          · exact .inl hmem
          · exact absurd (.inl rfl) (hnone first)
      · rw [List.getElem?_set_ne hplace]
        have hne : ∀ other, (other, id) ≠ (first, place) :=
          fun other heq => hplace (congrArg Prod.snd heq).symm
        simp only [List.mem_cons, hne, false_or]

theorem everyByte_getElem? (byte : UInt8) : everyByte[byte.toNat]? = some byte := by
  rw [everyByte, List.getElem?_map, List.getElem?_range byte.toNat_lt, Option.map_some,
    UInt8.ofNat_toNat]

theorem mem_zip_everyByte {ids : List Nat} {byte : UInt8} {id : Nat} :
    (byte, id) ∈ everyByte.zip ids ↔ ids[byte.toNat]? = some id := by
  rw [List.mem_iff_getElem?]
  constructor
  · rintro ⟨index, hindex⟩
    obtain ⟨hbyte, hid⟩ := List.getElem?_zip_eq_some.mp hindex
    obtain ⟨hlt, heq⟩ := List.getElem?_eq_some_iff.mp hbyte
    have hindex : byte.toNat = index := by
      simp only [everyByte, List.length_map, List.length_range] at hlt
      simp only [everyByte, List.getElem_map, List.getElem_range] at heq
      rw [← heq]
      exact UInt8.toNat_ofNat_of_lt' hlt
    rw [hindex]
    exact hid
  · intro hid
    exact ⟨byte.toNat, List.getElem?_zip_eq_some.mpr ⟨everyByte_getElem? byte, hid⟩⟩

theorem load_loaded {raw : RawMistralTokenizer} {limits : LoadLimits}
    {tokenizer : MistralTokenizer} (h : load raw limits = .ok tokenizer) :
    ∃ index, tokenizer.Loaded index := by
  unfold load at h
  obtain ⟨_, _, h⟩ := except_bind_eq_ok.mp h
  obtain ⟨_, _, h⟩ := except_bind_eq_ok.mp h
  obtain ⟨_, _, h⟩ := except_bind_eq_ok.mp h
  obtain ⟨base, hbase, h⟩ := except_bind_eq_ok.mp h
  obtain ⟨⟨validated, byId⟩, hadded, h⟩ := except_bind_eq_ok.mp h
  obtain ⟨_, hspecials, h⟩ := except_bind_eq_ok.mp h
  obtain ⟨fallbackIds, hfallback, h⟩ := except_bind_eq_ok.mp h
  obtain ⟨mergeRanks, hmerges, h⟩ := except_bind_eq_ok.mp h
  cases h
  obtain ⟨⟨index, hplaced⟩, hsame⟩ := validateAddedTokens_spec hadded
  have hsame := hsame rfl
  have hvocab : ∀ token id, raw.vocab.get token = some id → byId[id]? = some token :=
    fun token id hget => hplaced.base id token (validateVocab_spec hbase token id hget).2
  have hids : ∀ byte : UInt8, ∃ id, fallbackIds[byte.toNat]? = some id ∧
      raw.vocab.get (fallbackToken byte) = some id ∧ id ∉ validated.specialIds :=
    fun byte => readFallbackIds_spec hfallback byte.toNat byte (everyByte_getElem? byte)
  have hunique : ∀ first second id, (first, id) ∈ everyByte.zip fallbackIds →
      (second, id) ∈ everyByte.zip fallbackIds → first = second := by
    intro first second id hfirst hsecond
    obtain ⟨id', hid', hget, _⟩ := hids first
    obtain ⟨id'', hid'', hget', _⟩ := hids second
    rw [mem_zip_everyByte.mp hfirst] at hid'
    rw [mem_zip_everyByte.mp hsecond] at hid''
    cases hid'
    cases hid''
    have htoken := hvocab _ _ hget
    rw [hvocab _ _ hget'] at htoken
    exact fallbackToken_injective (Option.some.inj htoken).symm
  refine ⟨index, hplaced.trie, hplaced.empty, ?_, ?_, hvocab, ?_, hids, ?_, ?_, ?_⟩
  · intro content id hindex
    simp only [hsame]
    exact hplaced.content content id hindex
  · simp only [hsame]
    exact hplaced.ids
  · exact addMerges_spec hmerges fun _ _ _ h => nomatch h
  · intro token id hget byte
    have hlt : id < byId.length := (List.getElem?_eq_some_iff.mp (hvocab token id hget)).choose
    have hplace := foldl_set_spec (everyByte.zip fallbackIds) (List.replicate byId.length none)
      hunique (by rw [List.length_replicate]; exact hlt) byte
    have hnone : ((List.replicate byId.length (none : Option UInt8))[id]?).join = none := by
      rw [List.getElem?_replicate, if_pos hlt]
      rfl
    rw [hnone, mem_zip_everyByte] at hplace
    rw [fallbackByte, placeFallbackBytes, hplace]
    obtain ⟨id', hid', hget', _⟩ := hids byte
    constructor
    · rintro (hid | ⟨_, hfalse⟩)
      · rw [hid] at hid'
        cases hid'
        have htoken := hvocab _ _ hget'
        rw [hvocab token id hget] at htoken
        exact Option.some.inj htoken
      · cases hfalse
    · rintro rfl
      rw [hget] at hget'
      cases hget'
      exact .inl hid'
  · intro id
    simp only [decodedTokens, List.getElem?_mapIdx, fallbackByte]
    congr 1
    funext token
    cases ((placeFallbackBytes fallbackIds byId.length)[id]?).join <;> rfl
  · unfold checkSpecials at hspecials
    split at hspecials
    · cases hspecials
    · next hnot =>
        by_contra hmem
        exact hnot (.inr (.inl hmem))

end Loading

variable (tokenizer : MistralTokenizer)

section Purpose

def addedContents : List Text :=
  tokenizer.specialIds.filterMap fun id => tokenizer.vocabById[id]?

/-- What a merge makes of two symbols. -/
def Merges (left right : Text) : Prop := (tokenizer.mergeRanks.lookup (left, right)).isSome

/-- No merge takes or makes a fallback token. -/
def MergesPlain : Prop := ∀ left right, tokenizer.Merges left right →
  Plain left ∧ Plain right ∧ Plain (left ++ right)

/-- No added token is the character for spaces, or is merged from symbols with it. -/
def SpacesApart : Prop := ∀ content ∈ tokenizer.addedContents, metaspace ∈ content →
  content ≠ [metaspace] ∧ ∀ left right, tokenizer.Merges left right → left ++ right ≠ content

/-- A part of a text, where added tokens are left out. -/
def partText : Segment Char → Text
  | .between text => text
  | .word _ => []

/-- The text without the added tokens that are matched in it. -/
def withoutAdded (input : Text) : Text :=
  (Cutting.cut tokenizer.addedContents input).flatMap partText

end Purpose

/-- A text without one leading space. -/
def dropSpace : Text → Text
  | [] => []
  | character :: rest => if character = ' ' then rest else character :: rest

def idOf (symbol : Text) : Nat := (tokenizer.vocab.get symbol).getD 0

variable {tokenizer} {index : Text → Option Nat}

section Encoding

theorem Loaded.mem_addedContents (h : tokenizer.Loaded index) (content : Text) :
    content ∈ tokenizer.addedContents ↔ (index content).isSome := by
  unfold addedContents
  rw [List.mem_filterMap]
  constructor
  · rintro ⟨id, hid, htoken⟩
    obtain ⟨other, hother⟩ := h.ids id hid
    have hsame := (h.content other id hother).2
    rw [hsame] at htoken
    rw [← Option.some.inj htoken, hother]
    rfl
  · intro hindex
    obtain ⟨id, hid⟩ := Option.isSome_iff_exists.mp hindex
    exact ⟨id, h.content content id hid⟩

theorem Loaded.nil_not_mem (h : tokenizer.Loaded index) : [] ∉ tokenizer.addedContents := by
  intro hmem
  have hsome := (h.mem_addedContents []).mp hmem
  rw [h.empty] at hsome
  cases hsome

/-- A symbol is a token, and where it holds a space it is that or merged. -/
structure Known (tokenizer : MistralTokenizer) (symbol : Text) : Prop where
  token : (tokenizer.vocab.get symbol).isSome
  spaces : metaspace ∈ symbol → symbol = [metaspace] ∨
    ∃ left right, tokenizer.Merges left right ∧ symbol = left ++ right

theorem toNat_upperHex {digit : Nat} (h : digit < 16) : (upperHex digit).toNat < 0x80 := by
  unfold upperHex
  split
  · rw [toNat_ofNat (by omega)]
    omega
  · rw [toNat_ofNat (by omega)]
    omega

theorem metaspace_not_mem_fallbackToken (byte : UInt8) : metaspace ∉ fallbackToken byte := by
  have hlt := byte.toNat_lt
  have hhex : ∀ {digit : Nat}, digit < 16 → metaspace ≠ upperHex digit := by
    intro digit hdigit heq
    have hascii := toNat_upperHex hdigit
    rw [← heq] at hascii
    exact absurd hascii (by decide)
  simp only [fallbackToken, List.mem_cons, List.not_mem_nil, or_false, not_or]
  exact ⟨by decide, by decide, by decide, hhex (by omega), hhex (by omega), by decide⟩

theorem Loaded.fallbackText_eq (h : tokenizer.Loaded index) (byte : UInt8) :
    tokenizer.fallbackText byte = fallbackToken byte := by
  obtain ⟨id, hid, hget, _⟩ := h.fallback byte
  unfold fallbackText
  rw [hid, Option.bind_some, h.vocab _ _ hget]
  rfl

theorem Loaded.characterTexts_spec (h : tokenizer.Loaded index)
    (hmetaspace : (tokenizer.vocab.get [metaspace]).isSome) (character : Char) :
    Covers (tokenizer.characterTexts character) [character] ∧
      ∀ symbol ∈ tokenizer.characterTexts character, Known tokenizer symbol := by
  unfold characterTexts
  split
  · next hget =>
      constructor
      · exact .token (plain_singleton character) .nil
      · intro symbol hmem
        obtain rfl := List.mem_singleton.mp hmem
        refine ⟨hget, fun hspace => .inl ?_⟩
        rw [List.mem_singleton.mp hspace]
  · next hget =>
      have hcharacter : character ≠ metaspace := by
        rintro rfl
        exact hget hmetaspace
      have htexts : (String.utf8EncodeChar character).map tokenizer.fallbackText =
          (String.utf8EncodeChar character).map fallbackToken :=
        List.map_congr_left fun byte _ => h.fallbackText_eq byte
      rw [htexts]
      constructor
      · have hcovers := Covers.fallback hcharacter .nil
        rwa [List.append_nil] at hcovers
      · intro symbol hmem
        obtain ⟨byte, _, rfl⟩ := List.mem_map.mp hmem
        obtain ⟨id, _, hid, _⟩ := h.fallback byte
        refine ⟨by rw [hid]; rfl, fun hspace => ?_⟩
        exact absurd hspace (metaspace_not_mem_fallbackToken byte)

/-- Whether a space is put before a part. -/
def opens (input : Text) (cursor : Nat) : Bool :=
  decide (cursor = 0) && decide ((replaceSpaces input).head? ≠ some metaspace)

theorem Loaded.startTexts_spec (h : tokenizer.Loaded index)
    (hmetaspace : (tokenizer.vocab.get [metaspace]).isSome) (input : Text) (cursor : Nat) :
    Covers (tokenizer.startTexts input cursor)
        ((if opens input cursor then [metaspace] else []) ++ replaceSpaces input) ∧
      ∀ symbol ∈ tokenizer.startTexts input cursor, Known tokenizer symbol := by
  have htexts : ∀ mapped : Text, Covers (mapped.flatMap tokenizer.characterTexts) mapped ∧
      ∀ symbol ∈ mapped.flatMap tokenizer.characterTexts, Known tokenizer symbol := by
    intro mapped
    induction mapped with
    | nil => exact ⟨.nil, fun _ hmem => absurd hmem List.not_mem_nil⟩
    | cons character mapped ih =>
        obtain ⟨hcovers, hknown⟩ := h.characterTexts_spec hmetaspace character
        rw [List.flatMap_cons]
        constructor
        · exact hcovers.append ih.1
        · intro symbol hmem
          rcases List.mem_append.mp hmem with hmem | hmem
          · exact hknown symbol hmem
          · exact ih.2 symbol hmem
  obtain ⟨hcovers, hknown⟩ := htexts (replaceSpaces input)
  unfold startTexts opens
  simp only [Bool.and_eq_true, decide_eq_true_eq]
  split
  · constructor
    · exact (Covers.token (plain_singleton metaspace) .nil).append hcovers
    · intro symbol hmem
      rcases List.mem_cons.mp hmem with rfl | hmem
      · exact ⟨hmetaspace, fun _ => .inl rfl⟩
      · exact hknown symbol hmem
  · exact ⟨hcovers, hknown⟩

variable (tokenizer) in
/-- The symbols of a part. -/
def symbols (input : Text) (cursor : Nat) : List Text :=
  Merging.merged (symbolRank tokenizer.mergeRanks) (· ++ ·) (tokenizer.startTexts input cursor)

theorem Loaded.symbols_spec (h : tokenizer.Loaded index)
    (hmetaspace : (tokenizer.vocab.get [metaspace]).isSome) (hmerges : tokenizer.MergesPlain)
    (input : Text) (cursor : Nat) :
    Covers (tokenizer.symbols input cursor)
        ((if opens input cursor then [metaspace] else []) ++ replaceSpaces input) ∧
      ∀ symbol ∈ tokenizer.symbols input cursor, Known tokenizer symbol := by
  apply Merging.merged_keeps fun left =>
    Covers left ((if opens input cursor then [metaspace] else []) ++ replaceSpaces input) ∧
      ∀ symbol ∈ left, Known tokenizer symbol
  · exact h.startTexts_spec hmetaspace input cursor
  · rintro before first second after least hrank ⟨hcovers, hknown⟩
    have hmerge : tokenizer.Merges first second := by
      unfold Merges
      rw [symbolRank] at hrank
      rw [hrank]
      rfl
    obtain ⟨hfirst, hsecond, hjoined⟩ := hmerges first second hmerge
    constructor
    · exact hcovers.join hfirst hsecond hjoined
    · intro symbol hmem
      rcases List.mem_append.mp hmem with hmem | hmem
      · exact hknown symbol (List.mem_append_left _ hmem)
      rcases List.mem_cons.mp hmem with rfl | hmem
      · exact ⟨h.merges first second least hrank, fun _ => .inr ⟨first, second, hmerge, rfl⟩⟩
      · apply hknown symbol
        exact List.mem_append_right _ (List.mem_cons_of_mem _ (List.mem_cons_of_mem _ hmem))

theorem idsOf_known {symbols : List Text} (h : ∀ symbol ∈ symbols, Known tokenizer symbol) :
    tokenizer.idsOf symbols = .ok (symbols.map tokenizer.idOf) := by
  induction symbols with
  | nil => rfl
  | cons symbol rest ih =>
      obtain ⟨id, hid⟩ := Option.isSome_iff_exists.mp (h symbol List.mem_cons_self).token
      rw [idsOf, hid]
      simp only [ih fun other hmem => h other (List.mem_cons_of_mem _ hmem), bind, Except.bind]
      rw [List.map_cons, idOf, hid]
      rfl

theorem encodePlain_eq (input : Text) (cursor : Nat) (hne : input ≠ []) :
    tokenizer.encodePlain input cursor = tokenizer.idsOf (tokenizer.symbols input cursor) := by
  have halive : ∀ node ∈ (tokenizer.startTexts input cursor).map BpeNode.new,
      node.alive = true := by
    intro node hmem
    obtain ⟨text, _, rfl⟩ := List.mem_map.mp hmem
    rfl
  obtain ⟨live, hlinked, _, _, hmerged⟩ := mergeBpeNodes_spec tokenizer.mergeRanks halive
  have htexts : ((tokenizer.startTexts input cursor).map BpeNode.new).map BpeNode.text =
      tokenizer.startTexts input cursor := by
    rw [List.map_map]
    exact List.map_id _
  unfold encodePlain symbols
  rw [if_neg hne]
  simp only
  rw [hlinked.filter_alive, hmerged, htexts]

theorem infix_of_replaceSpaces {symbol opening input : Text} (hspace : metaspace ∉ symbol)
    (hne : symbol ≠ []) (hopening : opening = [] ∨ opening = [metaspace])
    (h : symbol <:+: opening ++ replaceSpaces input) : symbol <:+: input := by
  have hmapped : symbol <:+: replaceSpaces input := by
    cases hopening with
    | inl heq =>
        rw [heq] at h
        exact h
    | inr heq =>
        obtain ⟨before, after, hsplit⟩ := h
        rw [heq] at hsplit
        cases before with
        | nil =>
            obtain ⟨character, rest, rfl⟩ := List.exists_cons_of_ne_nil hne
            exact absurd (List.cons.inj hsplit).1 fun heq => hspace (heq ▸ List.mem_cons_self)
        | cons first before => exact ⟨before, after, (List.cons.inj hsplit).2⟩
  obtain ⟨before, after, hsplit⟩ := hmapped
  obtain ⟨front, back, rfl, hfront, _⟩ := List.map_eq_append_iff.mp hsplit.symm
  obtain ⟨head, middle, rfl, _, hmiddle⟩ := List.map_eq_append_iff.mp hfront
  have hsame : middle = symbol := by
    rw [← hmiddle]
    symm
    apply (List.map_congr_left _).trans (List.map_id middle)
    intro character hmem
    apply if_neg
    rintro rfl
    apply hspace
    rw [← hmiddle]
    exact List.mem_map.mpr ⟨' ', hmem, rfl⟩
  rw [← hsame]
  exact List.infix_append head middle back

/-- No symbol of a part is an added token. -/
theorem Loaded.not_special (h : tokenizer.Loaded index)
    (hmetaspace : (tokenizer.vocab.get [metaspace]).isSome) (hmerges : tokenizer.MergesPlain)
    (hspaces : tokenizer.SpacesApart) {input : Text} (cursor : Nat)
    (hclear : ∀ word ∈ tokenizer.addedContents, ¬ word <:+: input) :
    ∀ symbol ∈ tokenizer.symbols input cursor, tokenizer.idOf symbol ∉ tokenizer.specialIds := by
  obtain ⟨hcovers, hknown⟩ := h.symbols_spec hmetaspace hmerges input cursor
  intro symbol hmem hspecial
  obtain ⟨id, hid⟩ := Option.isSome_iff_exists.mp (hknown symbol hmem).token
  rw [idOf, hid, Option.getD_some] at hspecial
  have hadded : symbol ∈ tokenizer.addedContents :=
    List.mem_filterMap.mpr ⟨id, hspecial, h.vocab symbol id hid⟩
  have hplain : Plain symbol := by
    rintro byte rfl
    obtain ⟨id', _, hid', hnot⟩ := h.fallback byte
    rw [hid] at hid'
    cases hid'
    exact hnot hspecial
  by_cases hspace : metaspace ∈ symbol
  · obtain ⟨hne, hnone⟩ := hspaces symbol hadded hspace
    rcases (hknown symbol hmem).spaces hspace with heq | ⟨left, right, hmerge, heq⟩
    · exact hne heq
    · exact hnone left right hmerge heq.symm
  · apply hclear symbol hadded
    apply infix_of_replaceSpaces hspace _ _ (hcovers.stands hmem hplain)
    · rintro rfl
      exact h.nil_not_mem hadded
    · cases opens input cursor with
      | true => exact .inr rfl
      | false => exact .inl rfl

/-- Symbols whose ids read back as a text: none is an added token. -/
structure Encodes (tokenizer : MistralTokenizer) (symbols : List Text) (text : Text) : Prop where
  covers : Covers symbols text
  known : ∀ symbol ∈ symbols, Known tokenizer symbol
  apart : ∀ symbol ∈ symbols, tokenizer.idOf symbol ∉ tokenizer.specialIds

theorem Encodes.nil : Encodes tokenizer [] [] where
  covers := .nil
  known := fun _ hmem => absurd hmem List.not_mem_nil
  apart := fun _ hmem => absurd hmem List.not_mem_nil

theorem Encodes.append {symbols symbols' : List Text} {text text' : Text}
    (h : Encodes tokenizer symbols text) (h' : Encodes tokenizer symbols' text') :
    Encodes tokenizer (symbols ++ symbols') (text ++ text') where
  covers := h.covers.append h'.covers
  known := fun symbol hmem =>
    (List.mem_append.mp hmem).elim (h.known symbol) (h'.known symbol)
  apart := fun symbol hmem =>
    (List.mem_append.mp hmem).elim (h.apart symbol) (h'.apart symbol)

/-- A mapped text that is the plain one, but for the space that opens an input which
begins with another character. -/
def Opened (cursor : Nat) (text plain : Text) : Prop :=
  restoreSpaces text = plain ∨ cursor = 0 ∧ restoreSpaces text = ' ' :: plain ∧
    ∃ character rest, plain = character :: rest ∧ character ≠ ' '

theorem restoreSpaces_append (first second : Text) :
    restoreSpaces (first ++ second) = restoreSpaces first ++ restoreSpaces second :=
  List.map_append

theorem restoreSpaces_replaceSpaces {input : Text} (hinput : metaspace ∉ input) :
    restoreSpaces (replaceSpaces input) = input := by
  unfold restoreSpaces replaceSpaces
  rw [List.map_map]
  apply (List.map_congr_left _).trans (List.map_id input)
  intro character hmem
  simp only [Function.comp_apply]
  split
  · next heq =>
      rw [if_pos rfl]
      exact heq.symm
  · rw [if_neg]
    · rfl
    · rintro rfl
      exact hinput hmem

theorem opened_of_opens {input : Text} {cursor : Nat} (hinput : metaspace ∉ input)
    (hne : input ≠ []) :
    Opened cursor ((if opens input cursor then [metaspace] else []) ++ replaceSpaces input)
      input := by
  cases hopens : opens input cursor with
  | false => exact .inl (restoreSpaces_replaceSpaces hinput)
  | true =>
      right
      unfold opens at hopens
      rw [Bool.and_eq_true, decide_eq_true_eq, decide_eq_true_eq] at hopens
      refine ⟨hopens.1, ?_, ?_⟩
      · rw [if_pos rfl, restoreSpaces_append, restoreSpaces_replaceSpaces hinput]
        rfl
      · obtain ⟨character, rest, rfl⟩ := List.exists_cons_of_ne_nil hne
        refine ⟨character, rest, rfl, ?_⟩
        rintro rfl
        exact hopens.2 rfl

theorem Opened.append {cursor cursor' : Nat} {text text' plain plain' : Text}
    (h : Opened cursor text plain) (h' : Opened cursor' text' plain') (hcursor : cursor' ≠ 0) :
    Opened cursor (text ++ text') (plain ++ plain') := by
  have hrest : restoreSpaces text' = plain' := by
    rcases h' with heq | ⟨hzero, _⟩
    · exact heq
    · exact absurd hzero hcursor
  unfold Opened
  rw [restoreSpaces_append, hrest]
  rcases h with heq | ⟨hzero, heq, character, rest, hplain, hne⟩
  · exact .inl (by rw [heq])
  · exact .inr ⟨hzero, by rw [heq]; rfl, character, rest ++ plain', by rw [hplain]; rfl, hne⟩

theorem Opened.dropSpace_eq {cursor : Nat} {text plain : Text} (h : Opened cursor text plain) :
    dropSpace (restoreSpaces text) = dropSpace plain := by
  rcases h with heq | ⟨_, heq, character, rest, rfl, hne⟩
  · rw [heq]
  · rw [heq, dropSpace, dropSpace, if_pos rfl, if_neg hne]

/-- The ids of a text: those that are not special are of symbols that read back. -/
structure Ids (tokenizer : MistralTokenizer) (ids : List Nat) (symbols : List Text) : Prop where
  visible : ids.filter (fun id => !tokenizer.isSpecialId id) = symbols.map tokenizer.idOf
  decoded : ∀ id ∈ ids, (tokenizer.vocabById[id]?).isSome

theorem Ids.append {ids ids' : List Nat} {symbols symbols' : List Text}
    (h : Ids tokenizer ids symbols) (h' : Ids tokenizer ids' symbols') :
    Ids tokenizer (ids ++ ids') (symbols ++ symbols') where
  visible := by rw [List.filter_append, h.visible, h'.visible, List.map_append]
  decoded := fun id hmem => (List.mem_append.mp hmem).elim (h.decoded id) (h'.decoded id)

theorem Loaded.ids_special (h : tokenizer.Loaded index) {id : Nat}
    (hid : id ∈ tokenizer.specialIds) : Ids tokenizer [id] [] where
  visible := by
    rw [List.filter_cons_of_neg]
    · rfl
    · simp [isSpecialId, hid]
  decoded := by
    intro other hmem
    obtain rfl := List.mem_singleton.mp hmem
    obtain ⟨content, hcontent⟩ := h.ids other hid
    rw [(h.content content other hcontent).2]
    rfl

theorem Loaded.ids_symbols (h : tokenizer.Loaded index) {symbols : List Text} {text : Text}
    (hencodes : Encodes tokenizer symbols text) :
    Ids tokenizer (symbols.map tokenizer.idOf) symbols where
  visible := by
    rw [List.filter_eq_self]
    intro id hmem
    obtain ⟨symbol, hsymbol, rfl⟩ := List.mem_map.mp hmem
    simpa [isSpecialId] using hencodes.apart symbol hsymbol
  decoded := by
    intro id hmem
    obtain ⟨symbol, hsymbol, rfl⟩ := List.mem_map.mp hmem
    obtain ⟨id, hid⟩ := Option.isSome_iff_exists.mp (hencodes.known symbol hsymbol).token
    rw [idOf, hid, Option.getD_some, h.vocab symbol id hid]
    rfl

/-- What encoding asks of the artifact. -/
structure Usable (tokenizer : MistralTokenizer) : Prop where
  metaspace : (tokenizer.vocab.get [metaspace]).isSome
  merges : tokenizer.MergesPlain
  spaces : tokenizer.SpacesApart

theorem Loaded.encodePlain_spec (h : tokenizer.Loaded index) (husable : Usable tokenizer)
    {input : Text} (cursor : Nat) (hinput : metaspace ∉ input)
    (hclear : ∀ word ∈ tokenizer.addedContents, ¬ word <:+: input) :
    ∃ ids symbols text, tokenizer.encodePlain input cursor = .ok ids ∧
      Ids tokenizer ids symbols ∧ Encodes tokenizer symbols text ∧ Opened cursor text input := by
  by_cases hne : input = []
  · subst hne
    exact ⟨[], [], [], rfl, h.ids_symbols .nil, .nil, .inl rfl⟩
  · obtain ⟨hcovers, hknown⟩ := h.symbols_spec husable.metaspace husable.merges input cursor
    have hapart := h.not_special husable.metaspace husable.merges husable.spaces cursor
      hclear
    refine ⟨_, _, _, ?_, h.ids_symbols ⟨hcovers, hknown, hapart⟩, ⟨hcovers, hknown, hapart⟩,
      opened_of_opens hinput hne⟩
    rw [encodePlain_eq input cursor hne, idsOf_known hknown]

/-- Where the source cuts a text is where its added tokens cut it. -/
theorem Loaded.encodeFrom_cons (h : tokenizer.Loaded index) (fuel cursor : Nat) {input : Text}
    (hne : input ≠ []) :
    tokenizer.encodeFrom (fuel + 1) cursor input =
      (Cutting.firstWord tokenizer.addedContents input).elim
        (tokenizer.encodePlain input cursor) (fun (before, word, after) => do
          let plain ← tokenizer.encodePlain before cursor
          let more ← tokenizer.encodeFrom fuel
            (cursor + (Utf8.encode before).length + (Utf8.encode word).length) after
          .ok (plain ++ (index word).toList ++ more)) := by
  cases input with
  | nil => exact absurd rfl hne
  | cons character rest =>
      simp only [encodeFrom, h.trie.nextMatch h.empty h.mem_addedContents]
      cases hfirst : Cutting.firstWord tokenizer.addedContents (character :: rest) with
      | none => rfl
      | some found =>
          obtain ⟨before, word, after⟩ := found
          obtain ⟨hsplit, hmem⟩ := Cutting.firstWord_split hfirst
          obtain ⟨id, hid⟩ := Option.isSome_iff_exists.mp ((h.mem_addedContents word).mp hmem)
          simp only [Option.bind_some, hid, Option.map_some, Option.elim_some]
          rw [hsplit, List.take_left, List.drop_left, Utf8.dropBytes_append]
          simp

theorem Loaded.encodeFrom_spec (h : tokenizer.Loaded index) (husable : Usable tokenizer)
    (fuel cursor : Nat) {input : Text} (hinput : metaspace ∉ input) :
    ∃ ids symbols text, tokenizer.encodeFrom fuel cursor input = .ok ids ∧
      Ids tokenizer ids symbols ∧ Encodes tokenizer symbols text ∧
      Opened cursor text ((Cutting.cutWith tokenizer.addedContents fuel input).flatMap partText) := by
  induction fuel generalizing cursor input with
  | zero => exact ⟨[], [], [], rfl, h.ids_symbols .nil, .nil, .inl rfl⟩
  | succ fuel ih =>
      by_cases hne : input = []
      · subst hne
        exact ⟨[], [], [], rfl, h.ids_symbols .nil, .nil, .inl rfl⟩
      rw [h.encodeFrom_cons fuel cursor hne]
      cases hfirst : Cutting.firstWord tokenizer.addedContents input with
      | none =>
          rw [Cutting.cutWith_none hne hfirst, List.flatMap_cons, List.flatMap_nil, List.append_nil]
          apply h.encodePlain_spec husable cursor hinput
          exact fun word hmem => Cutting.not_infix_between h.nil_not_mem (.inl ⟨hfirst, rfl⟩) hmem
      | some found =>
          obtain ⟨before, word, after⟩ := found
          obtain ⟨hsplit, hmem⟩ := Cutting.firstWord_split hfirst
          obtain ⟨id, hid⟩ := Option.isSome_iff_exists.mp ((h.mem_addedContents word).mp hmem)
          have hword : word ≠ [] := by
            rintro rfl
            exact h.nil_not_mem hmem
          have hlength : (Utf8.encode word).length ≠ 0 := fun hzero =>
            hword (Utf8.encode_eq_nil.mp (List.eq_nil_of_length_eq_zero hzero))
          rw [hsplit, List.mem_append, List.mem_append, not_or, not_or] at hinput
          obtain ⟨plain, symbols, text, hplain, hids, hencodes, hopened⟩ :=
            h.encodePlain_spec husable cursor hinput.1 fun other hother =>
              Cutting.not_infix_between h.nil_not_mem (.inr ⟨word, after, hfirst⟩) hother
          obtain ⟨more, symbols', text', hmore, hids', hencodes', hopened'⟩ :=
            ih (cursor + (Utf8.encode before).length + (Utf8.encode word).length) hinput.2.2
          have hspecial := h.ids_special (h.content word id hid).1
          refine ⟨plain ++ [id] ++ more, symbols ++ [] ++ symbols', text ++ text', ?_,
            (hids.append hspecial).append hids', ?_, ?_⟩
          · simp only [Option.elim_some, hplain, hmore, hid, bind, Except.bind, Option.toList_some]
          · rw [List.append_nil]
            exact hencodes.append hencodes'
          · rw [Cutting.cutWith_some hfirst, List.flatMap_cons, List.flatMap_cons]
            exact hopened.append hopened' (by omega)

end Encoding

section Decoding

theorem Loaded.fallbackByte_idOf (h : tokenizer.Loaded index) {symbol : Text}
    (hknown : Known tokenizer symbol) (byte : UInt8) :
    tokenizer.fallbackByte (tokenizer.idOf symbol) = some byte ↔ symbol = fallbackToken byte := by
  obtain ⟨id, hid⟩ := Option.isSome_iff_exists.mp hknown.token
  rw [idOf, hid, Option.getD_some]
  exact h.bytes symbol id hid byte

theorem Loaded.decoded_idOf (h : tokenizer.Loaded index) {symbol : Text}
    (hknown : Known tokenizer symbol)
    (hnone : tokenizer.fallbackByte (tokenizer.idOf symbol) = none) :
    tokenizer.decoded[tokenizer.idOf symbol]? = some (Utf8.encode (restoreSpaces symbol)) := by
  obtain ⟨id, hid⟩ := Option.isSome_iff_exists.mp hknown.token
  rw [h.decoded, hnone, idOf, hid, Option.getD_some, h.vocab symbol id hid]
  rfl

theorem restoreSpaces_of_not_mem {text : Text} (h : metaspace ∉ text) :
    restoreSpaces text = text := by
  apply (List.map_congr_left _).trans (List.map_id text)
  intro character hmem
  apply if_neg
  rintro rfl
  exact h hmem

/-- What the decoder emits for the symbols of a text. -/
theorem Loaded.chunks_flatten (h : tokenizer.Loaded index) (fuel : Nat) {symbols : List Text}
    {text : Text} (hcovers : Covers symbols text)
    (hknown : ∀ symbol ∈ symbols, Known tokenizer symbol) (hfuel : symbols.length ≤ fuel) :
    (tokenizer.chunks fuel (symbols.map tokenizer.idOf)).flatten =
      Utf8.encode (restoreSpaces text) := by
  induction fuel generalizing symbols text with
  | zero =>
      obtain rfl := List.eq_nil_of_length_eq_zero (Nat.le_zero.mp hfuel)
      generalize hitems : ([] : List Text) = items at hcovers
      cases hcovers with
      | nil => rfl
      | token _ _ => cases hitems
      | @fallback character _ _ _ _ =>
          obtain ⟨byte, rest, hbytes⟩ := exists_fallback_cons character
          rw [hbytes] at hitems
          cases hitems
  | succ fuel ih =>
      cases symbols with
      | nil =>
          have hnil := @ih [] text hcovers hknown (Nat.zero_le _)
          cases fuel <;> exact hnil
      | cons symbol symbols =>
          have hsymbol := hknown symbol List.mem_cons_self
          have hrest : ∀ symbol ∈ symbols, Known tokenizer symbol :=
            fun other hmem => hknown other (List.mem_cons_of_mem _ hmem)
          rw [List.length_cons] at hfuel
          rw [List.map_cons, chunks]
          cases hbyte : tokenizer.fallbackByte (tokenizer.idOf symbol) with
          | none =>
              have hplain : Plain symbol := by
                intro byte heq
                rw [(h.fallbackByte_idOf hsymbol byte).mpr heq] at hbyte
                cases hbyte
              obtain ⟨rest, rfl, hmore⟩ := hcovers.cons_inv hplain
              simp only [h.decoded_idOf hsymbol hbyte, Option.getD_some, List.flatten_cons]
              rw [ih hmore hrest (by omega), restoreSpaces_append, Utf8.encode_append]
          | some byte =>
              have hfallback : ∀ other ∈ symbol :: symbols,
                  ((fun id => (tokenizer.fallbackByte id).isSome) ∘ tokenizer.idOf) other = true ↔
                    ∃ byte, other = fallbackToken byte := by
                intro other hmem
                rw [Function.comp_apply, Option.isSome_iff_exists]
                exact exists_congr (h.fallbackByte_idOf (hknown other hmem))
              obtain ⟨head, tail, rfl, hhead, htake, hdrop⟩ := hcovers.run hfallback
              have hread : ∀ bytes : Bytes, (bytes.map fallbackToken).map tokenizer.idOf =
                  bytes.map (tokenizer.idOf ∘ fallbackToken) := fun bytes => List.map_map
              have hbytes : (((symbol :: symbols).map tokenizer.idOf).takeWhile
                  fun id => (tokenizer.fallbackByte id).isSome).filterMap
                    tokenizer.fallbackByte = Utf8.encode head := by
                have hsome : tokenizer.fallbackByte ∘ tokenizer.idOf ∘ fallbackToken = some := by
                  funext byte
                  obtain ⟨id, _, hid, _⟩ := h.fallback byte
                  simp only [Function.comp_apply, idOf, hid, Option.getD_some]
                  exact (h.bytes _ id hid byte).mpr rfl
                rw [List.takeWhile_map, htake, hread, List.filterMap_map, hsome,
                  List.filterMap_some]
              have hbehind : (symbols.map tokenizer.idOf).dropWhile
                  (fun id => (tokenizer.fallbackByte id).isSome) =
                    ((symbol :: symbols).dropWhile
                      ((fun id => (tokenizer.fallbackByte id).isSome) ∘ tokenizer.idOf)).map
                        tokenizer.idOf := by
                rw [List.dropWhile_map, List.dropWhile_cons_of_pos]
                rw [Function.comp_apply, hbyte]
                rfl
              rw [List.map_cons] at hbytes
              simp only [hbytes, hbehind, validUtf8Bytes_encode, if_true, List.flatten_append]
              rw [ih hdrop, restoreSpaces_append, Utf8.encode_append,
                restoreSpaces_of_not_mem hhead]
              · congr 1
                induction Utf8.encode head with
                | nil => rfl
                | cons byte bytes ih => rw [List.map_cons, List.flatten_cons, ih]; rfl
              · exact fun other hmem => hknown other (List.dropWhile_suffix _ |>.subset hmem)
              · rw [List.dropWhile_cons_of_pos (by rw [Function.comp_apply, hbyte]; rfl)]
                apply Nat.le_trans (List.dropWhile_suffix _).length_le
                omega

/-- Emitting takes a space off the front. -/
theorem emit_flatten (emitted : List Bytes) (text : Text)
    (h : emitted.flatten = Utf8.encode text) : (emit emitted).flatten = Utf8.encode (dropSpace text) := by
  induction emitted with
  | nil =>
      rw [Utf8.encode_eq_nil.mp h.symm]
      rfl
  | cons bytes rest ih =>
      cases bytes with
      | nil => exact ih h
      | cons byte bytes =>
          rw [emit, List.flatten_cons]
          rw [List.flatten_cons, List.cons_append] at h
          cases text with
          | nil => cases h
          | cons character text =>
              rw [dropSpace]
              obtain ⟨lead, more, hencode, hlead⟩ := leadWidth_utf8EncodeChar character
              rw [Utf8.encode_cons, hencode, List.cons_append] at h
              obtain ⟨rfl, hmore⟩ := List.cons.inj h
              split
              · next hbyte =>
                  subst hbyte
                  have hnil : more = [] := by
                    have hone : leadWidth 0x20 = some 1 := rfl
                    rw [hone] at hlead
                    apply List.eq_nil_of_length_eq_zero
                    have := Option.some.inj hlead
                    omega
                  have hspace : character = ' ' := by
                    have hsame : Utf8.encode [character] = Utf8.encode [' '] := by
                      rw [Utf8.encode_cons, hencode, hnil]
                      rfl
                    exact (List.cons.inj (Utf8.encode_injective hsame)).1
                  rw [if_pos hspace, hmore, hnil]
                  rfl
              · next hbyte =>
                  rw [if_neg, List.cons_append, hmore, Utf8.encode_cons, hencode]
                  · rfl
                  · rintro rfl
                    cases hencode
                    exact hbyte rfl

theorem length_encode_flatMap_partText (parts : List (Segment Char)) :
    (Utf8.encode (parts.flatMap partText)).length ≤
      (Utf8.encode (parts.flatMap Segment.items)).length := by
  induction parts with
  | nil => exact Nat.le_refl _
  | cons part parts ih =>
      rw [List.flatMap_cons, List.flatMap_cons, Utf8.encode_append, Utf8.encode_append,
        List.length_append, List.length_append]
      cases part with
      | between text => exact Nat.add_le_add_left ih _
      | word content => exact Nat.add_le_add (Nat.zero_le _) ih

theorem length_encode_dropSpace (text : Text) :
    (Utf8.encode (dropSpace text)).length ≤ (Utf8.encode text).length := by
  cases text with
  | nil => exact Nat.le_refl _
  | cons character text =>
      rw [dropSpace]
      split
      · rw [Utf8.encode_cons, List.length_append]
        exact Nat.le_add_left _ _
      · exact Nat.le_refl _

theorem countBytes_flatten (count : Nat) (emitted : List Bytes)
    (hfits : count + emitted.flatten.length ≤ usizeMax) :
    countBytes count emitted = .ok (count + emitted.flatten.length) := by
  induction emitted generalizing count with
  | nil => rfl
  | cons bytes rest ih =>
      rw [List.flatten_cons, List.length_append] at hfits ⊢
      have hadd : checkedAdd usizeMax count bytes.length = some (count + bytes.length) :=
        checkedAdd_eq_some.mpr ⟨rfl, by omega⟩
      simp only [countBytes, hadd]
      rw [ih (count + bytes.length) (by omega), Nat.add_assoc]

theorem Loaded.checkIds_ok (h : tokenizer.Loaded index) (options : DecodeOptions) {ids : List Nat}
    (hids : ∀ id ∈ ids, (tokenizer.vocabById[id]?).isSome) :
    tokenizer.checkIds options ids = .ok () := by
  induction ids with
  | nil => rfl
  | cons id rest ih =>
      obtain ⟨token, htoken⟩ := Option.isSome_iff_exists.mp (hids id List.mem_cons_self)
      simp only [checkIds, tokenBytes, h.decoded, htoken, Option.map_some, bind, Except.bind]
      exact ih fun other hmem => hids other (List.mem_cons_of_mem _ hmem)

/-- The ids of symbols that read back as a text, with special tokens skipped. -/
theorem Loaded.decode_ids (h : tokenizer.Loaded index) {ids : List Nat} {symbols : List Text}
    {text : Text} (hids : Ids tokenizer ids symbols) (hencodes : Encodes tokenizer symbols text)
    (hfits : (Utf8.encode (dropSpace (restoreSpaces text))).length ≤ usizeMax) :
    tokenizer.decode ids { skipSpecialTokens := true } = .ok (dropSpace (restoreSpaces text)) := by
  have hvisible : tokenizer.visible ids { skipSpecialTokens := true } =
      symbols.map tokenizer.idOf := by
    rw [← hids.visible]
    rfl
  have hchunks := h.chunks_flatten symbols.length hencodes.covers hencodes.known (Nat.le_refl _)
  have hemit := emit_flatten _ _ hchunks
  have hvisit : tokenizer.visitDecoded ids { skipSpecialTokens := true } =
      .ok (emit (tokenizer.chunks symbols.length (symbols.map tokenizer.idOf))) := by
    simp only [visitDecoded, h.checkIds_ok _ hids.decoded, hvisible, List.length_map, bind,
      Except.bind]
  have hlength : tokenizer.decodedBytesLen ids { skipSpecialTokens := true } =
      .ok (Utf8.encode (dropSpace (restoreSpaces text))).length := by
    unfold decodedBytesLen
    rw [hvisit]
    simp only [bind, Except.bind]
    rw [countBytes_flatten 0 _ (by rw [hemit, Nat.zero_add]; exact hfits), hemit, Nat.zero_add]
  have hensure : ensureDecodeDestination (Utf8.encode (dropSpace (restoreSpaces text))).length
      (List.replicate (Utf8.encode (dropSpace (restoreSpaces text))).length (0 : UInt8)).length =
        .ok () := by
    rw [ensureDecodeDestination, List.length_replicate, if_neg (Nat.lt_irrefl _)]
  have hwrite : overwrite
      (List.replicate (Utf8.encode (dropSpace (restoreSpaces text))).length 0)
        (Utf8.encode (dropSpace (restoreSpaces text))) =
          Utf8.encode (dropSpace (restoreSpaces text)) := by
    rw [overwrite, List.drop_replicate, Nat.sub_self, List.replicate_zero, List.append_nil]
  unfold decode decodeBytes
  simp only [hlength, bind, Except.bind, hensure, hvisit, hemit, hwrite, Utf8.fromUtf8_encode]

end Decoding

/-- Encoding with the Mistral profile loses the added tokens that are matched, which are
skipped when decoding, and one leading space. The character for spaces may be neither
an added token nor part of one that is merged. -/
theorem decode_encode_mistral {raw : RawMistralTokenizer} {limits : LoadLimits}
    {tokenizer : MistralTokenizer} (hload : load raw limits = .ok tokenizer)
    (hmetaspace : (tokenizer.vocab.get [metaspace]).isSome) (hmerges : tokenizer.MergesPlain)
    (hspaces : tokenizer.SpacesApart) (input : Text) (hinput : metaspace ∉ input)
    (hfits : (Utf8.encode input).length ≤ usizeMax) (options : EncodeOptions) :
    ∃ ids, tokenizer.encode input options = .ok ids ∧
      tokenizer.decode ids { skipSpecialTokens := true } =
        .ok (dropSpace (tokenizer.withoutAdded input)) := by
  obtain ⟨index, h⟩ := load_loaded hload
  obtain ⟨ids, symbols, text, hencode, hids, hencodes, hopened⟩ :=
    h.encodeFrom_spec ⟨hmetaspace, hmerges, hspaces⟩ input.length 0 hinput
  have hread : dropSpace (restoreSpaces text) = dropSpace (tokenizer.withoutAdded input) :=
    hopened.dropSpace_eq
  have hopening : Ids tokenizer
      ((if options.addSpecialTokens then [tokenizer.bos] else []) ++ ids) symbols := by
    cases options.addSpecialTokens with
    | true => exact (h.ids_special h.bos).append hids
    | false => exact hids
  refine ⟨(if options.addSpecialTokens then [tokenizer.bos] else []) ++ ids, ?_, ?_⟩
  · simp only [encode, hencode, bind, Except.bind]
  rw [← hread]
  apply h.decode_ids hopening hencodes
  rw [hread]
  apply Nat.le_trans (length_encode_dropSpace _)
  apply Nat.le_trans (length_encode_flatMap_partText _)
  rw [Cutting.flatMap_cut h.nil_not_mem]
  exact hfits

section Artifact

/-- The three named tokens, the fallback tokens and the character for spaces. -/
def sampleTokens : List Text :=
  [['<', 'u', 'n', 'k', '>'], ['<', 's', '>'], ['<', '/', 's', '>']] ++
    (everyByte.map fallbackToken ++ [[metaspace]])

theorem sampleTokens_nodup : sampleTokens.Nodup := by
  have hfallback : (everyByte.map fallbackToken).Nodup :=
    nodup_everyByte.map fun _ _ => fallbackToken_injective
  have hlength : ∀ token ∈ everyByte.map fallbackToken, token.length = 6 := by
    intro token hmem
    obtain ⟨byte, _, rfl⟩ := List.mem_map.mp hmem
    rfl
  rw [sampleTokens, List.nodup_append, List.nodup_append]
  refine ⟨by decide, ⟨hfallback, List.pairwise_singleton _ _, ?_⟩, ?_⟩
  · intro token hmem other hother heq
    have hsix := hlength token hmem
    rw [heq, List.mem_singleton.mp hother] at hsix
    cases hsix
  · intro token hmem other hother heq
    have hshort : ∀ token ∈ [['<', 'u', 'n', 'k', '>'], ['<', 's', '>'], ['<', '/', 's', '>']],
        token.length ≠ 6 ∧ token ≠ [metaspace] := by
      decide
    obtain ⟨hsix, hne⟩ := hshort token hmem
    rcases List.mem_append.mp hother with hother | hother
    · exact hsix (heq ▸ hlength other hother)
    · exact hne (heq.trans (List.mem_singleton.mp hother))

def sampleVocab : Vocab :=
  ⟨sampleTokens.zipIdx, by rw [List.zipIdx_map_fst]; exact sampleTokens_nodup⟩

theorem lookup_zipIdx {tokens : List Text} (hnodup : tokens.Nodup) {id : Nat} {token : Text}
    (start : Nat) (h : tokens[id]? = some token) :
    (tokens.zipIdx start).lookup token = some (start + id) := by
  induction tokens generalizing id start with
  | nil => cases h
  | cons first rest ih =>
      obtain ⟨hnot, hrest⟩ := List.nodup_cons.mp hnodup
      rw [List.zipIdx_cons, List.lookup_cons]
      cases id with
      | zero =>
          cases h
          rw [beq_self_eq_true]
          rfl
      | succ id =>
          have hne : token ≠ first := by
            rintro rfl
            exact hnot (List.mem_of_getElem? h)
          rw [beq_false_of_ne hne]
          simp only
          rw [ih hrest (start + 1) h]
          congr 1
          omega

theorem sampleVocab_get {id : Nat} {token : Text} (h : sampleTokens[id]? = some token) :
    sampleVocab.get token = some id := by
  have hlookup := lookup_zipIdx sampleTokens_nodup 0 h
  rw [Nat.zero_add] at hlookup
  exact hlookup

theorem readFallbackIds_sample (specialIds : List Nat) (bytes : List UInt8)
    (h : ∀ byte ∈ bytes, byte.toNat + 3 ∉ specialIds) :
    readFallbackIds sampleVocab specialIds bytes = .ok (bytes.map fun byte => byte.toNat + 3) := by
  induction bytes with
  | nil => rfl
  | cons byte rest ih =>
      have hget : sampleVocab.get (fallbackToken byte) = some (byte.toNat + 3) := by
        apply sampleVocab_get
        rw [sampleTokens, List.getElem?_append_right (Nat.le_add_left 3 _)]
        show (everyByte.map fallbackToken ++ [[metaspace]])[byte.toNat]? = some (fallbackToken byte)
        have hbyte := everyByte_getElem? byte
        rw [List.getElem?_append_left, List.getElem?_map, hbyte]
        · rfl
        · rw [List.length_map]
          exact (List.getElem?_eq_some_iff.mp hbyte).choose
      have hplain : specialIds.contains (byte.toNat + 3) = false := by
        simpa using h byte List.mem_cons_self
      rw [readFallbackIds, hget, Option.filter_some, hplain]
      simp only [ih fun other hmem => h other (List.mem_cons_of_mem _ hmem), Bool.not_false,
        if_true, bind, Except.bind, List.map_cons]

/-- The tokenizer of the sample tokens and added tokens. -/
def sampleTokenizer (validated : ValidatedAddedTokens) : MistralTokenizer where
  vocab := sampleVocab
  vocabById := sampleTokens
  mergeRanks := []
  specialIds := validated.specialIds
  addedTrie := validated.trie
  fallbackIds := everyByte.map fun byte => byte.toNat + 3
  decoded := decodedTokens sampleTokens
    (placeFallbackBytes (everyByte.map fun byte => byte.toNat + 3) 260)
  fallbackBytes := placeFallbackBytes (everyByte.map fun byte => byte.toNat + 3) 260
  maximumDecodedBytes := max (((decodedTokens sampleTokens
    (placeFallbackBytes (everyByte.map fun byte => byte.toNat + 3) 260)).map List.length).foldl
      max 0) 3
  bos := 1

theorem load_sample {addedTokens : List RawAddedToken} {validated : ValidatedAddedTokens}
    (hcount : addedTokens.length ≤ 1024)
    (hadded : validateAddedTokens addedTokens sampleVocab sampleTokens .smolLm2 =
      .ok (validated, sampleTokens))
    (hspecials : checkSpecials sampleVocab validated.specialIds = .ok ())
    (hplain : ∀ byte : UInt8, byte.toNat + 3 ∉ validated.specialIds) :
    load ⟨sampleVocab, [], addedTokens⟩ ⟨1024, 1024, 1024⟩ = .ok (sampleTokenizer validated) := by
  have hlength : sampleTokens.length = 260 := by
    rw [sampleTokens, List.length_append, List.length_append, List.length_map, everyByte,
      List.length_map, List.length_range]
    rfl
  have hentries : sampleVocab.entries.length = 260 := by
    rw [sampleVocab, List.length_zipIdx, hlength]
  have hvocab : validateVocab sampleVocab = .ok sampleTokens := by
    apply validateVocab_zipIdx
    · exact List.cons_ne_nil _ _
    · intro token hmem
      rw [sampleTokens, List.mem_append, List.mem_append] at hmem
      rcases hmem with hmem | hmem | hmem
      · rintro rfl
        revert hmem
        decide
      · obtain ⟨byte, _, rfl⟩ := List.mem_map.mp hmem
        exact List.cons_ne_nil _ _
      · rw [List.mem_singleton.mp hmem]
        exact List.cons_ne_nil _ _
  have hfallback := readFallbackIds_sample validated.specialIds everyByte fun byte _ => hplain byte
  have hlimit : ∀ resource actual, actual ≤ 1024 →
      enforceCountLimit resource 1024 actual = .ok () := by
    intro resource actual hle
    rw [enforceCountLimit, if_neg (Nat.not_lt.mpr hle)]
  have hmerges : validateMerges [] sampleVocab = .ok [] := rfl
  unfold load
  refine except_bind_eq_ok.mpr ⟨(), hlimit _ _ (by rw [hentries]; decide), ?_⟩
  refine except_bind_eq_ok.mpr ⟨(), hlimit _ _ (Nat.zero_le _), ?_⟩
  refine except_bind_eq_ok.mpr ⟨(), hlimit _ _ hcount, ?_⟩
  refine except_bind_eq_ok.mpr ⟨_, hvocab, ?_⟩
  refine except_bind_eq_ok.mpr ⟨_, hadded, ?_⟩
  refine except_bind_eq_ok.mpr ⟨(), hspecials, ?_⟩
  refine except_bind_eq_ok.mpr ⟨_, hfallback, ?_⟩
  refine except_bind_eq_ok.mpr ⟨_, hmerges, ?_⟩
  simp only [hlength, sampleTokenizer]

def namedSpecials : List RawAddedToken :=
  [specialToken 0 ['<', 'u', 'n', 'k', '>'], specialToken 1 ['<', 's', '>'],
    specialToken 2 ['<', '/', 's', '>']]

/-- The added tokens as they are validated. -/
def sampleAdded (addedTokens : List RawAddedToken) : ValidatedAddedTokens :=
  (addTokens sampleVocab sampleTokens .smolLm2 ⟨[], [], [], ⟨[]⟩, []⟩ addedTokens).toOption.getD
    ⟨[], [], [], ⟨[]⟩, []⟩

theorem not_merges (validated : ValidatedAddedTokens) (left right : Text) :
    ¬ (sampleTokenizer validated).Merges left right := nofun

theorem sampleTokenizer_metaspace (validated : ValidatedAddedTokens) :
    ((sampleTokenizer validated).vocab.get [metaspace]).isSome = true := by
  have hget : sampleVocab.get [metaspace] = some 259 := by
    apply sampleVocab_get
    decide +kernel
  rw [sampleTokenizer, hget]
  rfl

theorem load_named :
    load ⟨sampleVocab, [], namedSpecials⟩ ⟨1024, 1024, 1024⟩ =
      .ok (sampleTokenizer (sampleAdded namedSpecials)) := by
  have hspecials : (sampleAdded namedSpecials).specialIds = [2, 1, 0] := by
    decide +kernel
  apply load_sample (by decide)
  · decide +kernel
  · decide +kernel
  · intro byte
    rw [hspecials]
    simp

/-- A text with a special token and a character of two bytes. -/
theorem decode_encode_named :
    ∃ tokenizer ids, load ⟨sampleVocab, [], namedSpecials⟩ ⟨1024, 1024, 1024⟩ = .ok tokenizer ∧
      tokenizer.encode ['h', ' ', '<', 's', '>', 'é'] {} = .ok ids ∧
      tokenizer.decode ids { skipSpecialTokens := true } = .ok ['h', ' ', 'é'] := by
  have hspaces : (sampleTokenizer (sampleAdded namedSpecials)).SpacesApart := by
    intro content hmem hspace
    have hnone : ∀ content ∈ (sampleTokenizer (sampleAdded namedSpecials)).addedContents,
        metaspace ∉ content := by
      decide +kernel
    exact absurd hspace (hnone content hmem)
  have hrest : dropSpace ((sampleTokenizer (sampleAdded namedSpecials)).withoutAdded
      ['h', ' ', '<', 's', '>', 'é']) = ['h', ' ', 'é'] := by
    decide +kernel
  obtain ⟨ids, hencode, hdecode⟩ := decode_encode_mistral load_named (sampleTokenizer_metaspace _)
    (fun left right h => absurd h (not_merges _ left right)) hspaces
    ['h', ' ', '<', 's', '>', 'é'] (by decide) (by decide) {}
  rw [hrest] at hdecode
  exact ⟨_, ids, load_named, hencode, hdecode⟩

/-- Where the character for spaces is a special token, the spaces are lost. -/
theorem metaspace_special_loses :
    ∃ tokenizer ids,
      load ⟨sampleVocab, [], namedSpecials ++ [specialToken 259 [metaspace]]⟩ ⟨1024, 1024, 1024⟩ =
        .ok tokenizer ∧
      (tokenizer.vocab.get [metaspace]).isSome = true ∧ tokenizer.MergesPlain ∧
      tokenizer.encode ['a', ' ', 'b'] {} = .ok ids ∧
      tokenizer.withoutAdded ['a', ' ', 'b'] = ['a', ' ', 'b'] ∧
      tokenizer.decode ids { skipSpecialTokens := true } = .ok ['a', 'b'] := by
  have hspecials : (sampleAdded (namedSpecials ++ [specialToken 259 [metaspace]])).specialIds =
      [259, 2, 1, 0] := by
    decide +kernel
  have hload := @load_sample (namedSpecials ++ [specialToken 259 [metaspace]]) (sampleAdded (namedSpecials ++ [specialToken 259 [metaspace]]))
    (by decide) (by decide +kernel) (by decide +kernel) (by
      intro byte
      have hlt := byte.toNat_lt
      rw [hspecials]
      simp
      omega)
  refine ⟨_, [1, 259, 100, 259, 101], hload, sampleTokenizer_metaspace _,
    fun left right h => absurd h (not_merges _ left right), ?_, ?_, ?_⟩
  · decide +kernel
  · decide +kernel
  · decide +kernel

end Artifact
end MistralTokenizer

end Riley.Tokenizer
