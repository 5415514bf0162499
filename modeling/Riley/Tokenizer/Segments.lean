import Riley.Tokenizer.RoundTrip

/-!
The added tokens of a text. The search goes from character to character and the trie from byte
to byte; what they find are the added tokens as they are read from the left in the text, and in
its bytes.
-/

namespace Riley.Tokenizer

open Outcome
open Utf8 (Text)
open Cutting (Segment Leftmost)

/-- Words that are read from the left in a text are read so in its bytes: none stands across two
characters. -/
theorem leftmost_encode {words : List Text} (hwords : [] ∉ words) {text : Text}
    {parts : List (Segment Char)} (h : Leftmost words text parts) :
    Leftmost (words.map Utf8.encode) (Utf8.encode text) (parts.map (Segment.map Utf8.encode)) := by
  have hoccurs : ∀ {text : Text} {start : Nat}, ∀ bytes ∈ words.map Utf8.encode,
      bytes <+: (Utf8.encode text).drop start → ∃ first second word, text = first ++ second ∧
        (Utf8.encode first).length = start ∧ word ∈ words ∧ word <+: second ∧ word ≠ [] := by
    intro text start bytes hmem hbegins
    obtain ⟨word, hword, rfl⟩ := List.mem_map.mp hmem
    have hne : word ≠ [] := fun hnil => hwords (hnil ▸ hword)
    obtain ⟨first, second, hsplit, hlength, hprefix⟩ := Utf8.encode_occurs hne hbegins
    exact ⟨first, second, word, hsplit, hlength, hword, hprefix, hne⟩
  induction h with
  | nil => exact .nil
  | @last items hne hnone =>
      refine .last (fun hnil => hne (Utf8.encode_eq_nil.mp hnil)) ?_
      intro start _ bytes hmem hbegins
      obtain ⟨first, second, word, rfl, _, hword, hprefix, hword_ne⟩ := hoccurs bytes hmem hbegins
      refine hnone first.length ?_ word hword (by rwa [List.drop_left])
      have hpos := List.length_pos_iff.mpr hword_ne
      have hle := hprefix.length_le
      rw [List.length_append]
      omega
  | @word before word after parts hmem hfirst hlongest _ ih =>
      rw [Utf8.encode_append, Utf8.encode_append]
      refine .word (List.mem_map_of_mem hmem) ?_ ?_ ih
      · intro start hstart bytes hbytes hbegins
        rw [← Utf8.encode_append, ← Utf8.encode_append] at hbegins
        obtain ⟨first, second, other, hsplit, rfl, hother, hprefix, _⟩ :=
          hoccurs bytes hbytes hbegins
        refine hfirst first.length ?_ other hother (by rwa [hsplit, List.drop_left])
        by_contra hlong
        have hlead : before <+: first := List.prefix_of_prefix_length_le
          (List.prefix_append before (word ++ after)) (hsplit ▸ List.prefix_append first second)
          (Nat.not_lt.mp hlong)
        have hle := (Utf8.encode_prefix_encode.mpr hlead).length_le
        omega
      · intro bytes hbytes hbegins
        obtain ⟨other, hother, rfl⟩ := List.mem_map.mp hbytes
        rw [← Utf8.encode_append] at hbegins
        have hprefix := Utf8.encode_prefix_encode.mp hbegins
        have hinner := List.prefix_of_prefix_length_le hprefix (List.prefix_append word after)
          (hlongest other hother hprefix)
        exact (Utf8.encode_prefix_encode.mpr hinner).length_le

section Listed

/-- The added tokens of an artifact that are taken so far. -/
structure Listed (base : List Text) (tokens : List RawAddedToken)
    (added : ValidatedAddedTokens) : Prop where
  ids : ∀ id, id ∈ added.addedIds ↔ ∃ token ∈ tokens, token.id = id
  place : ∀ token ∈ tokens,
    base[token.id]? = some token.content ∨ (token.id, token.content) ∈ added.extensions
  keys : ∀ entry ∈ added.extensions, entry.1 ∈ added.addedIds

variable {vocab : Vocab} {base byId : List Text} {profile : TokenizerProfile}
  {added added' : ValidatedAddedTokens} {tokens rest : List RawAddedToken}

theorem Listed.addToken (h : Listed base tokens added) {token : RawAddedToken}
    (hadd : addToken vocab base profile added token = .ok added') :
    Listed base (tokens ++ [token]) added' := by
  simp only [Tokenizer.addToken] at hadd
  split at hadd
  · cases hadd
  split at hadd
  · cases hadd
  split at hadd
  · cases hadd
  next hnew =>
  obtain ⟨extensions, hplace, hadd⟩ := except_bind_eq_ok.mp hadd
  split at hadd
  · cases hadd
  cases hadd
  have hkeys : ∀ entry ∈ added.extensions, entry.1 ≠ token.id := by
    rintro entry hmem heq
    exact hnew (.inl (heq ▸ h.keys entry hmem))
  apply Listed.mk
  · intro id
    simp only [List.mem_cons, h.ids, List.mem_append, List.not_mem_nil, or_false]
    constructor
    · rintro (rfl | ⟨other, hother, rfl⟩)
      · exact ⟨token, .inr rfl, rfl⟩
      · exact ⟨other, .inl hother, rfl⟩
    · rintro ⟨other, hother | rfl, rfl⟩
      · exact .inr ⟨other, hother, rfl⟩
      · exact .inl rfl
  · intro other hother
    rcases List.mem_append.mp hother with hold | hlast
    · refine (h.place other hold).imp_right fun hmem => ?_
      rcases placeAddedToken_spec hplace with ⟨_, rfl⟩ | rfl
      · exact hmem
      · exact (mem_insertByKey hkeys).mpr (.inr hmem)
    · obtain rfl := List.mem_singleton.mp hlast
      rcases placeAddedToken_spec hplace with ⟨hbase, _⟩ | rfl
      · exact .inl hbase
      · exact .inr ((mem_insertByKey hkeys).mpr (.inl rfl))
  · intro entry hmem
    rcases placeAddedToken_spec hplace with ⟨_, rfl⟩ | rfl
    · exact List.mem_cons_of_mem _ (h.keys entry hmem)
    · rcases (mem_insertByKey hkeys).mp hmem with rfl | hmem
      · exact List.mem_cons_self
      · exact List.mem_cons_of_mem _ (h.keys entry hmem)

theorem Listed.addTokens (h : Listed base tokens added)
    (hadd : addTokens vocab base profile added rest = .ok added') :
    Listed base (tokens ++ rest) added' := by
  induction rest generalizing tokens added with
  | nil =>
      cases hadd
      rwa [List.append_nil]
  | cons token rest ih =>
      obtain ⟨next, hnext, hrest⟩ := except_bind_eq_ok.mp hadd
      have hlisted := ih (h.addToken hnext) hrest
      rwa [List.append_assoc] at hlisted

/-- Every added token of an artifact is at its id, and no other token is added. -/
theorem validateAddedTokens_listed {validated : ValidatedAddedTokens}
    (h : validateAddedTokens tokens vocab base profile = .ok (validated, byId)) :
    (∀ id, id ∈ validated.addedIds ↔ ∃ token ∈ tokens, token.id = id) ∧
      ∀ token ∈ tokens, byId[token.id]? = some token.content := by
  unfold validateAddedTokens at h
  obtain ⟨_, _, h⟩ := except_bind_eq_ok.mp h
  obtain ⟨_, _, h⟩ := except_bind_eq_ok.mp h
  obtain ⟨added, hadd, h⟩ := except_bind_eq_ok.mp h
  obtain ⟨extended, hextend, h⟩ := except_bind_eq_ok.mp h
  cases h
  have hnone : Listed base [] ⟨[], [], [], ⟨[]⟩, []⟩ :=
    ⟨by simp, by simp, by simp⟩
  have hlisted := hnone.addTokens hadd
  rw [List.nil_append] at hlisted
  obtain ⟨⟨more, rfl⟩, hexts⟩ := extendVocabulary_spec hextend
  refine ⟨hlisted.ids, fun token hmem => ?_⟩
  rcases hlisted.place token hmem with hbase | hext
  · rw [List.getElem?_append_left (List.getElem?_eq_some_iff.mp hbase).choose, hbase]
  · exact hexts _ hext

end Listed

/-- The contents of the added tokens of an artifact. -/
def RawTokenizer.contents (raw : RawTokenizer) : List Text := raw.addedTokens.map (·.content)

/-- The id of the added token with that content. -/
def RawTokenizer.idOf (raw : RawTokenizer) (content : Text) : Option Nat :=
  (raw.addedTokens.find? fun token => token.content = content).map (·.id)

namespace SmolLm2Tokenizer

/-- What the loader makes of one artifact, also with a token to begin with set afterwards. -/
def BuiltFrom (raw : RawTokenizer) (limits : LoadLimits) (profile : TokenizerProfile)
    (tokenizer : SmolLm2Tokenizer) : Prop :=
  ∃ loaded, load raw limits profile = .ok loaded ∧
    (tokenizer = loaded ∨ ∃ content, loaded.setBosTokenContent content = .ok tokenizer)

section Parts

variable (unicode : Unicode) (tokenizer : SmolLm2Tokenizer) (raw : RawTokenizer)

/-- The ids of a part of a text. -/
def partIds : Segment Char → Except ModelError (List Nat)
  | .between text => tokenizer.encodePlain unicode text
  | .word content => .ok (raw.idOf content).toList

/-- The ids of the parts of a text, each on its own. -/
def encodeParts : List (Segment Char) → Except ModelError (List Nat)
  | [] => .ok []
  | part :: rest => do
      let ids ← tokenizer.partIds unicode raw part
      let more ← encodeParts rest
      .ok (ids ++ more)

end Parts

variable {raw : RawTokenizer} {limits : LoadLimits} {profile : TokenizerProfile}
  {tokenizer : SmolLm2Tokenizer} {index : Text → Option Nat}

theorem load_listed (h : load raw limits profile = .ok tokenizer) :
    (∀ id, id ∈ tokenizer.addedIds ↔ ∃ token ∈ raw.addedTokens, token.id = id) ∧
      ∀ token ∈ raw.addedTokens, tokenizer.vocabById[token.id]? = some token.content := by
  unfold load at h
  obtain ⟨_, _, h⟩ := except_bind_eq_ok.mp h
  obtain ⟨_, _, h⟩ := except_bind_eq_ok.mp h
  obtain ⟨_, _, h⟩ := except_bind_eq_ok.mp h
  obtain ⟨base, _, h⟩ := except_bind_eq_ok.mp h
  obtain ⟨⟨validated, byId⟩, hadded, h⟩ := except_bind_eq_ok.mp h
  obtain ⟨_, _, h⟩ := except_bind_eq_ok.mp h
  obtain ⟨mergeRanks, _, h⟩ := except_bind_eq_ok.mp h
  obtain ⟨bosTokenId, _, h⟩ := except_bind_eq_ok.mp h
  cases h
  exact validateAddedTokens_listed hadded

/-- An artifact and the dictionary of its contents: every added token is in it with its id. -/
structure Indexed (raw : RawTokenizer) (index : Text → Option Nat) : Prop where
  index_token : ∀ token ∈ raw.addedTokens, index token.content = some token.id
  token_of_index : ∀ content id, index content = some id →
    ∃ token ∈ raw.addedTokens, token.content = content ∧ token.id = id

theorem BuiltFrom.exists_loaded (h : BuiltFrom raw limits profile tokenizer) :
    ∃ index, tokenizer.Loaded index ∧ Indexed raw index := by
  obtain ⟨loaded, hload, hbos⟩ := h
  have hbuilt : Built limits profile tokenizer := by
    rcases hbos with rfl | ⟨content, hset⟩
    · exact .loaded hload
    · exact .withBos (.loaded hload) hset
  have hsame : tokenizer.addedIds = loaded.addedIds ∧ tokenizer.vocabById = loaded.vocabById := by
    rcases hbos with rfl | ⟨content, hset⟩
    · exact ⟨rfl, rfl⟩
    · unfold setBosTokenContent at hset
      split at hset
      · cases hset
      · split at hset
        · cases hset
        · cases hset
          exact ⟨rfl, rfl⟩
  obtain ⟨_, index, hloaded⟩ := hbuilt.exists_loaded
  obtain ⟨hids, hplace⟩ := load_listed hload
  rw [← hsame.1] at hids
  rw [← hsame.2] at hplace
  refine ⟨index, hloaded, fun token hmem => ?_, fun content id hindex => ?_⟩
  · obtain ⟨content, hcontent⟩ := hloaded.ids token.id ((hids _).mpr ⟨token, hmem, rfl⟩)
    have hat := (hloaded.content content _ hcontent).2
    rw [hplace token hmem] at hat
    rw [Option.some.inj hat, hcontent]
  · obtain ⟨hmem, hat⟩ := hloaded.content content id hindex
    obtain ⟨token, htoken, rfl⟩ := (hids id).mp hmem
    rw [hplace token htoken] at hat
    exact ⟨token, htoken, Option.some.inj hat, rfl⟩

theorem Indexed.idOf_eq (h : Indexed raw index) (content : Text) : raw.idOf content = index content := by
  unfold RawTokenizer.idOf
  cases hfind : raw.addedTokens.find? fun token => token.content = content with
  | none =>
      cases hindex : index content with
      | none => rfl
      | some id =>
          obtain ⟨token, hmem, rfl, _⟩ := h.token_of_index content id hindex
          have hother := List.find?_eq_none.mp hfind token hmem
          simp at hother
  | some token =>
      have hcontent : token.content = content := by
        simpa using List.find?_some hfind
      rw [← hcontent, h.index_token token (List.mem_of_find?_eq_some hfind)]
      rfl

theorem Indexed.mem_contents (h : Indexed raw index) (content : Text) :
    content ∈ raw.contents ↔ (index content).isSome := by
  rw [RawTokenizer.contents, List.mem_map]
  constructor
  · rintro ⟨token, hmem, rfl⟩
    rw [h.index_token token hmem]
    rfl
  · intro hsome
    obtain ⟨id, hid⟩ := Option.isSome_iff_exists.mp hsome
    obtain ⟨token, hmem, hcontent, _⟩ := h.token_of_index content id hid
    exact ⟨token, hmem, hcontent⟩

/-- The source encodes the parts that the added tokens cut a text into. -/
theorem Loaded.encodeFrom_eq (unicode : Unicode) (h : tokenizer.Loaded index)
    (hindexed : Indexed raw index) (fuel : Nat) (input : Text) :
    tokenizer.encodeFrom unicode fuel input =
      tokenizer.encodeParts unicode raw (Cutting.cutWith tokenizer.addedContents fuel input) := by
  induction fuel generalizing input with
  | zero => rfl
  | succ fuel ih =>
      by_cases hne : input = []
      · subst hne
        rfl
      rw [h.encodeFrom_cons fuel hne]
      cases hfirst : Cutting.firstWord tokenizer.addedContents input with
      | none =>
          rw [Cutting.cutWith_none hne hfirst, Option.elim_none, encodeParts, partIds]
          cases tokenizer.encodePlain unicode input with
          | error error => rfl
          | ok ids => simp [encodeParts, bind, Except.bind]
      | some found =>
          obtain ⟨before, word, after⟩ := found
          rw [Cutting.cutWith_some hfirst, Option.elim_some]
          simp only [encodeParts, partIds, hindexed.idOf_eq, ih, bind, Except.bind]
          cases tokenizer.encodePlain unicode before with
          | error error => rfl
          | ok plain =>
              cases tokenizer.encodeParts unicode raw
                  (Cutting.cutWith tokenizer.addedContents fuel after) with
              | error error => rfl
              | ok more => simp

/-- A text is encoded part by part: its added tokens from the left, the longest of those that
begin together, and what stands between them. -/
theorem encode_leftmost (unicode : Unicode) (h : BuiltFrom raw limits profile tokenizer)
    (input : Text) (options : EncodeOptions) :
    (∀ token ∈ raw.addedTokens, raw.idOf token.content = some token.id) ∧
      ∃ parts, Leftmost raw.contents input parts ∧
        (∀ others, Leftmost raw.contents input others → others = parts) ∧
        Leftmost (raw.contents.map Utf8.encode) (Utf8.encode input)
          (parts.map (Segment.map Utf8.encode)) ∧
        parts.flatMap Segment.items = input ∧
        (∀ text, .between text ∈ parts → ∀ content ∈ raw.contents,
          ¬ content <:+: text ∧ ¬ Utf8.encode content <:+: Utf8.encode text) ∧
        tokenizer.encode unicode input options = (do
          let ids ← tokenizer.encodeParts unicode raw parts
          .ok (tokenizer.opening options ++ ids)) := by
  obtain ⟨index, hloaded, hindexed⟩ := h.exists_loaded
  have hsame : ∀ word, word ∈ tokenizer.addedContents ↔ word ∈ raw.contents := fun word =>
    (hloaded.mem_addedContents word).trans (hindexed.mem_contents word).symm
  have hwords : [] ∉ raw.contents := fun hmem => hloaded.nil_not_mem ((hsame []).mpr hmem)
  have hleftmost : Leftmost raw.contents input (tokenizer.segments input) :=
    (Cutting.leftmost_cut hloaded.nil_not_mem input).congr hsame
  have hbytes := leftmost_encode hwords hleftmost
  have hbyteWords : [] ∉ raw.contents.map Utf8.encode := by
    intro hmem
    obtain ⟨word, hword, hnil⟩ := List.mem_map.mp hmem
    exact hwords (Utf8.encode_eq_nil.mp hnil ▸ hword)
  refine ⟨fun token hmem => ?_, tokenizer.segments input, hleftmost,
    fun others hothers => hothers.unique hwords hleftmost, hbytes, hleftmost.flatMap_items,
    fun text htext content hcontent => ⟨hleftmost.not_infix hwords htext hcontent, ?_⟩, ?_⟩
  · rw [hindexed.idOf_eq, hindexed.index_token token hmem]
  · exact hbytes.not_infix hbyteWords (List.mem_map_of_mem htext) (List.mem_map_of_mem hcontent)
  · rw [SmolLm2Tokenizer.encode, hloaded.encodeFrom_eq unicode hindexed]
    rfl

/-- Added tokens of which one begins another and one overlaps both. -/
def overlapping : List RawAddedToken :=
  [specialToken 256 ['<', 'a'], specialToken 257 ['<', 'a', '>'],
    specialToken 258 ['a', '>', 'é']]

theorem encode_leftmost_overlapping :
    ∃ tokenizer parts,
      load (byteArtifact overlapping) roomyLimits .llama3 = .ok tokenizer ∧
        Leftmost (byteArtifact overlapping).contents ['x', '<', 'a', '>', 'é', '<', 'a'] parts ∧
        parts.flatMap Segment.items = ['x', '<', 'a', '>', 'é', '<', 'a'] ∧
        tokenizer.encode sampleUnicode ['x', '<', 'a', '>', 'é', '<', 'a'] {} = (do
          let ids ← tokenizer.encodeParts sampleUnicode (byteArtifact overlapping) parts
          .ok (tokenizer.opening {} ++ ids)) := by
  have hadded : ∃ validated byId,
      validateAddedTokens overlapping byteVocab byteTokens .llama3 = .ok (validated, byId) := by
    have hok : (validateAddedTokens overlapping byteVocab byteTokens .llama3).isOk = true := by
      decide +kernel
    cases hvalidate : validateAddedTokens overlapping byteVocab byteTokens .llama3 with
    | error error =>
        rw [hvalidate] at hok
        cases hok
    | ok added => exact ⟨added.1, added.2, rfl⟩
  obtain ⟨validated, byId, hadded⟩ := hadded
  have hload := load_byteArtifact (by decide) hadded
  obtain ⟨_, parts, hparts, _, _, hwhole, _, hencode⟩ := encode_leftmost sampleUnicode
    ⟨_, hload, .inl rfl⟩ ['x', '<', 'a', '>', 'é', '<', 'a'] {}
  exact ⟨_, parts, hload, hparts, hwhole, hencode⟩

end SmolLm2Tokenizer

end Riley.Tokenizer
