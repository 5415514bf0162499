import Riley.Library.Outcome
import Riley.Tokenizer.AddedTrieSpec
import Riley.Tokenizer.Load

/-!
What a loaded tokenizer is like: every token stands at its id, the trie holds
exactly the contents of the added tokens, and merging makes tokens of tokens.
-/

namespace Riley.Tokenizer

open Outcome
open Utf8 (Text)

section Vocabulary

theorem placeTokens_spec {byId byId' : List (Option Text)} {entries : List (Text × Nat)}
    (h : placeTokens byId entries = .ok byId') :
    (∀ (token : Text) (id : Nat), (token, id) ∈ entries → token ≠ [] ∧ byId'[id]? = some (some token)) ∧
      ∀ (id : Nat) (token : Text), byId[id]? = some (some token) →
        byId'[id]? = some (some token) := by
  induction entries generalizing byId with
  | nil =>
      cases h
      exact ⟨fun _ _ hmem => absurd hmem List.not_mem_nil, fun _ _ => id⟩
  | cons entry rest ih =>
      obtain ⟨first, index⟩ := entry
      rw [placeTokens] at h
      split at h
      · cases h
      next hne =>
      split at h
      · cases h
      · cases h
      next hfree =>
      obtain ⟨hrest, hkept⟩ := ih h
      have hset : (byId.set index (some first))[index]? = some (some first) := by
        rw [List.getElem?_set_self (List.getElem?_eq_some_iff.mp hfree).choose]
      constructor
      · intro token id hmem
        rcases List.mem_cons.mp hmem with heq | hmem
        · cases heq
          exact ⟨hne, hkept index first hset⟩
        · exact hrest token id hmem
      · intro id token hid
        apply hkept
        rw [List.getElem?_set_ne]
        · exact hid
        · rintro rfl
          rw [hfree] at hid
          cases hid

theorem collectTokens_spec {id : Nat} {byId : List (Option Text)} {tokens : List Text}
    (h : collectTokens id byId = .ok tokens) : byId = tokens.map some := by
  induction byId generalizing id tokens with
  | nil =>
      cases h
      rfl
  | cons first rest ih =>
      cases first with
      | none => cases h
      | some token =>
          obtain ⟨tokens', hrest, heq⟩ := except_bind_eq_ok.mp h
          cases heq
          rw [List.map_cons, ih hrest]

/-- Every token stands at its id. -/
theorem validateVocab_spec {vocab : Vocab} {byId : List Text}
    (h : validateVocab vocab = .ok byId) (token : Text) (id : Nat)
    (hget : vocab.get token = some id) : token ≠ [] ∧ byId[id]? = some token := by
  unfold validateVocab at h
  split at h
  · cases h
  · obtain ⟨placed, hplace, hcollect⟩ := except_bind_eq_ok.mp h
    obtain ⟨before, after, hsplit, _⟩ := List.lookup_eq_some_iff.mp hget
    have hmem : (token, id) ∈ vocab.entries := by
      rw [hsplit]
      exact List.mem_append_right before List.mem_cons_self
    obtain ⟨hne, hat⟩ := (placeTokens_spec hplace).1 token id hmem
    refine ⟨hne, ?_⟩
    rw [collectTokens_spec hcollect, List.getElem?_map] at hat
    obtain ⟨found, hfound, heq⟩ := Option.map_eq_some_iff.mp hat
    cases heq
    exact hfound

/-- A vocabulary in the order of its ids is taken as it is. -/
theorem placeTokens_zipIdx (before tokens : List Text) (h : ∀ token ∈ tokens, token ≠ []) :
    placeTokens (before.map some ++ List.replicate tokens.length none)
      (tokens.zipIdx before.length) = .ok ((before ++ tokens).map some) := by
  induction tokens generalizing before with
  | nil => simp [placeTokens]
  | cons token rest ih =>
      have hrest := ih (before ++ [token]) fun other hmem => h other (List.mem_cons_of_mem _ hmem)
      rw [List.length_append, List.append_assoc, List.map_append, List.append_assoc] at hrest
      have hlength : (before.map some).length = before.length := List.length_map _
      rw [List.zipIdx_cons, placeTokens, if_neg (h token List.mem_cons_self), List.length_cons,
        List.replicate_succ]
      have hget : (before.map some ++ none :: List.replicate rest.length none)[before.length]? =
          some (none : Option Text) := by
        rw [List.getElem?_append_right (Nat.le_of_eq hlength), hlength, Nat.sub_self]
        rfl
      have hset : (before.map some ++ none :: List.replicate rest.length none).set before.length
          (some token) = before.map some ++ some token :: List.replicate rest.length none := by
        rw [List.set_append_right _ _ (Nat.le_of_eq hlength), hlength, Nat.sub_self]
        rfl
      rw [hget]
      simp only [hset]
      exact hrest

theorem collectTokens_map (id : Nat) (tokens : List Text) :
    collectTokens id (tokens.map some) = .ok tokens := by
  induction tokens generalizing id with
  | nil => rfl
  | cons token rest ih =>
      rw [List.map_cons, collectTokens, ih]
      rfl

theorem validateVocab_zipIdx {tokens : List Text} (hne : tokens ≠ []) (h : ∀ token ∈ tokens, token ≠ [])
    (hnodup : (tokens.zipIdx.map Prod.fst).Nodup) :
    validateVocab ⟨tokens.zipIdx, hnodup⟩ = .ok tokens := by
  have hplace := placeTokens_zipIdx [] tokens h
  have hcollect := collectTokens_map 0 tokens
  have hentries : tokens.zipIdx ≠ [] := by
    rw [ne_eq, List.zipIdx_eq_nil_iff]
    exact hne
  unfold validateVocab
  rw [if_neg hentries, List.length_zipIdx]
  rw [List.map_nil, List.nil_append, List.nil_append, List.length_nil] at hplace
  rw [hplace]
  simp only [bind, Except.bind, hcollect]

theorem validateByteAlphabet_ok (specialIds : List Nat) (entries : List (Text × Nat))
    (h : ∀ entry ∈ entries, Spelled entry.1) :
    validateByteAlphabet specialIds entries = .ok () := by
  induction entries with
  | nil => rfl
  | cons entry rest ih =>
      obtain ⟨token, id⟩ := entry
      have hspelled := h (token, id) List.mem_cons_self
      rw [validateByteAlphabet, if_neg fun hnot => hnot.2 hspelled]
      exact ih fun other hmem => h other (List.mem_cons_of_mem _ hmem)

end Vocabulary

section Added

theorem mem_insertByKey {index : Nat} {content : Text} {extensions : List (Nat × Text)}
    (hfresh : ∀ entry ∈ extensions, entry.1 ≠ index) {entry : Nat × Text} :
    entry ∈ insertByKey index content extensions ↔
      entry = (index, content) ∨ entry ∈ extensions := by
  induction extensions with
  | nil => simp [insertByKey]
  | cons first rest ih =>
      have hrest := ih fun entry hmem => hfresh entry (List.mem_cons_of_mem _ hmem)
      have hne := hfresh first List.mem_cons_self
      unfold insertByKey
      split
      · simp
      · rw [if_neg hne.symm, List.mem_cons, hrest, List.mem_cons]
        tauto

theorem checkAddedBytes_spec {totalBytes total : Nat} {added : List RawAddedToken}
    (h : checkAddedBytes totalBytes added = .ok total) : ∀ token ∈ added, token.content ≠ [] := by
  induction added generalizing totalBytes with
  | nil => exact fun _ hmem => absurd hmem List.not_mem_nil
  | cons first rest ih =>
      simp only [checkAddedBytes] at h
      split at h
      · cases h
      next hlength =>
      split at h
      · cases h
      next next hnext =>
      intro token hmem
      rcases List.mem_cons.mp hmem with rfl | hmem
      · exact fun hnil => hlength (.inl hnil)
      · exact ih h token hmem

/-- The added tokens so far: `index` gives every content its id. -/
structure AddedOk (byId : List Text) (added : ValidatedAddedTokens) (index : Text → Option Nat) :
    Prop where
  trie : added.trie.Holds index
  empty : index [] = none
  ids : ∀ id ∈ added.addedIds, ∃ content, index content = some id
  place : ∀ content id, index content = some id → id ∈ added.addedIds ∧
    (byId[id]? = some content ∨ (id, content) ∈ added.extensions)
  keys : ∀ entry ∈ added.extensions, entry.1 ∈ added.addedIds

theorem addedOk_none (byId : List Text) :
    AddedOk byId ⟨[], [], [], ⟨[]⟩, []⟩ fun _ => none where
  trie := .inl ⟨rfl, rfl⟩
  empty := rfl
  ids := fun _ hmem => absurd hmem List.not_mem_nil
  place := fun _ _ h => nomatch h
  keys := fun _ hmem => absurd hmem List.not_mem_nil

theorem placeAddedToken_spec {vocab : Vocab} {byId : List Text} {profile : TokenizerProfile}
    {token : RawAddedToken} {extensions extensions' : List (Nat × Text)}
    (h : placeAddedToken vocab byId profile token extensions = .ok extensions') :
    byId[token.id]? = some token.content ∧ extensions' = extensions ∨
      extensions' = insertByKey token.id token.content extensions := by
  simp only [placeAddedToken] at h
  split at h
  · next known hknown =>
      split at h
      · cases h
      · next hsame =>
          cases h
          left
          refine ⟨?_, rfl⟩
          rw [hknown]
          by_contra hne
          exact hsame (.inl fun heq => hne (congrArg some heq))
  · split at h
    · cases h
    · split at h
      · cases h
      · cases h
        exact .inr rfl

theorem AddedOk.addToken {vocab : Vocab} {byId : List Text} {profile : TokenizerProfile}
    {added added' : ValidatedAddedTokens} {index : Text → Option Nat} {token : RawAddedToken}
    (h : AddedOk byId added index) (hne : token.content ≠ [])
    (hadd : addToken vocab byId profile added token = .ok added') :
    ∃ index', AddedOk byId added' index' := by
  simp only [Tokenizer.addToken] at hadd
  split at hadd
  · cases hadd
  split at hadd
  · cases hadd
  split at hadd
  · cases hadd
  next hnew =>
  obtain ⟨extensions, hplace, hadd⟩ := except_bind_eq_ok.mp hadd
  split at hadd
  · cases hadd
  next trie htrie =>
  cases hadd
  have hfresh : token.id ∉ added.addedIds := fun hmem => hnew (.inl hmem)
  have hkeys : ∀ entry ∈ added.extensions, entry.1 ≠ token.id := by
    rintro entry hmem heq
    exact hfresh (heq ▸ h.keys entry hmem)
  obtain ⟨hnone, hholds⟩ := h.trie.insert htrie
  have hold : ∀ entry ∈ added.extensions, entry ∈ extensions := by
    intro entry hmem
    rcases placeAddedToken_spec hplace with ⟨_, rfl⟩ | rfl
    · exact hmem
    · exact (mem_insertByKey hkeys).mpr (.inr hmem)
  refine ⟨Function.update index token.content (some token.id), ?_⟩
  apply AddedOk.mk
  · exact hholds
  · rw [Function.update_of_ne hne.symm]
    exact h.empty
  · intro id hmem
    rcases List.mem_cons.mp hmem with rfl | hmem
    · exact ⟨token.content, Function.update_self ..⟩
    · obtain ⟨content, hcontent⟩ := h.ids id hmem
      refine ⟨content, ?_⟩
      rw [Function.update_of_ne]
      · exact hcontent
      · rintro rfl
        rw [hnone] at hcontent
        cases hcontent
  · intro content id hcontent
    by_cases heq : content = token.content
    · subst heq
      rw [Function.update_self] at hcontent
      cases hcontent
      refine ⟨List.mem_cons_self, ?_⟩
      rcases placeAddedToken_spec hplace with ⟨hbase, _⟩ | rfl
      · exact .inl hbase
      · exact .inr ((mem_insertByKey hkeys).mpr (.inl rfl))
    · rw [Function.update_of_ne heq] at hcontent
      obtain ⟨hmem, hat⟩ := h.place content id hcontent
      exact ⟨List.mem_cons_of_mem _ hmem, hat.imp_right (hold _)⟩
  · intro entry hmem
    rcases placeAddedToken_spec hplace with ⟨_, rfl⟩ | rfl
    · exact List.mem_cons_of_mem _ (h.keys entry hmem)
    · rcases (mem_insertByKey hkeys).mp hmem with rfl | hmem
      · exact List.mem_cons_self
      · exact List.mem_cons_of_mem _ (h.keys entry hmem)

theorem AddedOk.addTokens {vocab : Vocab} {byId : List Text} {profile : TokenizerProfile}
    {added added' : ValidatedAddedTokens} {index : Text → Option Nat}
    {tokens : List RawAddedToken} (h : AddedOk byId added index)
    (hne : ∀ token ∈ tokens, token.content ≠ [])
    (hadd : addTokens vocab byId profile added tokens = .ok added') :
    ∃ index', AddedOk byId added' index' := by
  induction tokens generalizing added index with
  | nil =>
      cases hadd
      exact ⟨index, h⟩
  | cons token rest ih =>
      obtain ⟨next, hnext, hrest⟩ := except_bind_eq_ok.mp hadd
      obtain ⟨index', h'⟩ := h.addToken (hne token List.mem_cons_self) hnext
      exact ih h' (fun token hmem => hne token (List.mem_cons_of_mem _ hmem)) hrest

theorem extendVocabulary_spec {byId byId' : List Text} {extensions : List (Nat × Text)}
    (h : extendVocabulary byId extensions = .ok byId') :
    byId <+: byId' ∧ ∀ entry ∈ extensions, byId'[entry.1]? = some entry.2 := by
  induction extensions generalizing byId with
  | nil =>
      cases h
      exact ⟨List.prefix_rfl, fun _ hmem => absurd hmem List.not_mem_nil⟩
  | cons entry rest ih =>
      obtain ⟨index, content⟩ := entry
      simp only [extendVocabulary] at h
      split at h
      · cases h
      next hindex =>
      obtain ⟨⟨more, rfl⟩, hrest⟩ := ih h
      obtain rfl : index = byId.length := not_not.mp hindex
      constructor
      · rw [List.append_assoc]
        exact List.prefix_append _ _
      · intro entry hmem
        rcases List.mem_cons.mp hmem with rfl | hmem
        · rw [List.append_assoc, List.getElem?_append_right (Nat.le_refl _), Nat.sub_self]
          rfl
        · exact hrest entry hmem

theorem addTokens_special {vocab : Vocab} {byId : List Text} {added added' : ValidatedAddedTokens}
    {tokens : List RawAddedToken} (hadd : addTokens vocab byId .smolLm2 added tokens = .ok added')
    (h : added.specialIds = added.addedIds) : added'.specialIds = added'.addedIds := by
  induction tokens generalizing added with
  | nil =>
      cases hadd
      exact h
  | cons token rest ih =>
      obtain ⟨next, hnext, hrest⟩ := except_bind_eq_ok.mp hadd
      apply ih hrest
      simp only [addToken] at hnext
      split at hnext
      · cases hnext
      split at hnext
      · cases hnext
      next hspecial =>
      split at hnext
      · cases hnext
      obtain ⟨extensions, _, hnext⟩ := except_bind_eq_ok.mp hnext
      split at hnext
      · cases hnext
      cases hnext
      have hspecial : token.special = true := by simpa using hspecial
      simp only [hspecial, if_true, h]

/-- The added tokens and all tokens by their ids: `index` gives the content of every
added token its id. -/
structure AddedPlaced (base byId : List Text) (validated : ValidatedAddedTokens)
    (index : Text → Option Nat) : Prop where
  trie : validated.trie.Holds index
  empty : index [] = none
  content : ∀ content id, index content = some id →
    id ∈ validated.addedIds ∧ byId[id]? = some content
  ids : ∀ id ∈ validated.addedIds, ∃ content, index content = some id
  base : ∀ (id : Nat) (token : Text), base[id]? = some token → byId[id]? = some token

theorem validateAddedTokens_spec {added : List RawAddedToken} {vocab : Vocab}
    {base byId : List Text} {profile : TokenizerProfile} {validated : ValidatedAddedTokens}
    (h : validateAddedTokens added vocab base profile = .ok (validated, byId)) :
    (∃ index, AddedPlaced base byId validated index) ∧
      (profile = .smolLm2 → validated.specialIds = validated.addedIds) := by
  unfold validateAddedTokens at h
  obtain ⟨total, htotal, h⟩ := except_bind_eq_ok.mp h
  obtain ⟨_, _, h⟩ := except_bind_eq_ok.mp h
  obtain ⟨added, hadd, h⟩ := except_bind_eq_ok.mp h
  obtain ⟨extended, hextend, h⟩ := except_bind_eq_ok.mp h
  cases h
  constructor
  · obtain ⟨index, hok⟩ := (addedOk_none base).addTokens (checkAddedBytes_spec htotal) hadd
    obtain ⟨⟨more, rfl⟩, hexts⟩ := extendVocabulary_spec hextend
    have hkept : ∀ (id : Nat) (token : Text), base[id]? = some token →
        (base ++ more)[id]? = some token := by
      intro id token hid
      rw [List.getElem?_append_left (List.getElem?_eq_some_iff.mp hid).choose, hid]
    refine ⟨index, hok.trie, hok.empty, fun content id hindex => ?_, hok.ids, hkept⟩
    obtain ⟨hmem, hat⟩ := hok.place content id hindex
    refine ⟨hmem, ?_⟩
    rcases hat with hat | hat
    · exact hkept id content hat
    · exact hexts _ hat
  · rintro rfl
    exact addTokens_special hadd rfl

end Added

theorem addMerges_spec {vocab : Vocab} {rank : Nat} {ranks ranks' : MergeRanks}
    {merges : List RawMerge} (h : addMerges vocab rank ranks merges = .ok ranks')
    (hranks : ∀ left right found, ranks.lookup (left, right) = some found →
      (vocab.get (left ++ right)).isSome) :
    ∀ left right found, ranks'.lookup (left, right) = some found →
      (vocab.get (left ++ right)).isSome := by
  induction merges generalizing rank ranks with
  | nil =>
      cases h
      exact hranks
  | cons merge rest ih =>
      obtain ⟨⟨first, second⟩, _, h⟩ := except_bind_eq_ok.mp h
      simp only at h
      split at h
      · cases h
      split at h
      · cases h
      next hknown =>
      split at h
      · cases h
      apply ih h
      intro left right found hlookup
      by_cases heq : (left, right) = (first, second)
      · cases heq
        rw [Option.isSome_iff_ne_none]
        exact fun hnone => hknown (.inr (.inr hnone))
      · rw [List.lookup_cons, beq_false_of_ne heq] at hlookup
        exact hranks left right found hlookup

namespace SmolLm2Tokenizer

/-- A tokenizer as it is loaded: `index` gives the content of every added token
its id. -/
structure Loaded (tokenizer : SmolLm2Tokenizer) (index : Text → Option Nat) : Prop where
  trie : tokenizer.addedTrie.Holds index
  empty : index [] = none
  content : ∀ content id, index content = some id →
    id ∈ tokenizer.addedIds ∧ tokenizer.vocabById[id]? = some content
  ids : ∀ id ∈ tokenizer.addedIds, ∃ content, index content = some id
  vocab : ∀ token id, tokenizer.vocab.get token = some id →
    tokenizer.vocabById[id]? = some token
  merges : ∀ left right rank, tokenizer.mergeRanks.lookup (left, right) = some rank →
    (tokenizer.vocab.get (left ++ right)).isSome
  maximum : tokenizer.maximumDecodedTokenBytes =
    maximumBytes tokenizer.profile tokenizer.addedIds tokenizer.vocabById

theorem load_loaded {raw : RawTokenizer} {limits : LoadLimits} {profile : TokenizerProfile}
    {tokenizer : SmolLm2Tokenizer} (h : load raw limits profile = .ok tokenizer) :
    tokenizer.profile = profile ∧ ∃ index, tokenizer.Loaded index := by
  unfold load at h
  obtain ⟨_, _, h⟩ := except_bind_eq_ok.mp h
  obtain ⟨_, _, h⟩ := except_bind_eq_ok.mp h
  obtain ⟨_, _, h⟩ := except_bind_eq_ok.mp h
  obtain ⟨base, hbase, h⟩ := except_bind_eq_ok.mp h
  obtain ⟨⟨validated, byId⟩, hadded, h⟩ := except_bind_eq_ok.mp h
  obtain ⟨_, _, h⟩ := except_bind_eq_ok.mp h
  obtain ⟨mergeRanks, hmerges, h⟩ := except_bind_eq_ok.mp h
  obtain ⟨bosTokenId, _, h⟩ := except_bind_eq_ok.mp h
  cases h
  obtain ⟨⟨index, hplaced⟩, _⟩ := validateAddedTokens_spec hadded
  refine ⟨rfl, index, hplaced.trie, hplaced.empty, hplaced.content, hplaced.ids, ?_, ?_, rfl⟩
  · intro token id hget
    exact hplaced.base id token (validateVocab_spec hbase token id hget).2
  · exact addMerges_spec hmerges fun _ _ _ h => nomatch h

theorem Built.exists_loaded {limits : LoadLimits} {profile : TokenizerProfile}
    {tokenizer : SmolLm2Tokenizer} (h : Built limits profile tokenizer) :
    tokenizer.profile = profile ∧ ∃ index, tokenizer.Loaded index := by
  induction h with
  | loaded h => exact load_loaded h
  | withBos _ h ih =>
      obtain ⟨hprofile, index, hloaded⟩ := ih
      unfold setBosTokenContent at h
      split at h
      · cases h
      · split at h
        · cases h
        · cases h
          exact ⟨hprofile, index, hloaded.trie, hloaded.empty, hloaded.content, hloaded.ids,
            hloaded.vocab, hloaded.merges, hloaded.maximum⟩

end SmolLm2Tokenizer

end Riley.Tokenizer
