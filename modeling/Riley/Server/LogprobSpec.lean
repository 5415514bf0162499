import Riley.Library.Outcome
import Riley.Server.Completions

/-!
Log probabilities reach a client on two paths: in the chunks of a stream, one
token at a time, and in the body of a response, all tokens at once. Which of the
legacy arrays agree depends on the tokens.
-/

namespace Riley.Server

open Utf8 (Text)
open Outcome (except_bind_eq_ok)

variable {F : Type}

/-- A committed token with its log probabilities. -/
structure Committed (F : Type) where
  text : Text
  tokenId : Nat
  generatedIndex : Nat
  promptTokenIds : Option (List Nat)
  logprob : TokenLogprob F

namespace Committed

def event (token : Committed F) : GenerationEvent F :=
  .committedToken token.text token.tokenId token.generatedIndex token.promptTokenIds
    (some token.logprob)

/-- The text that a sequence of tokens returns. -/
def returnedText (tokens : List (Committed F)) : Text := tokens.flatMap text

/-- The bytes of a sequence of tokens. -/
def bytes (tokens : List (Committed F)) : List UInt8 :=
  tokens.flatMap (·.logprob.chosen.bytes)

end Committed

/-- The whole characters among the first bytes of a text. -/
def charactersBefore (text : Text) (position : Nat) : Nat :=
  (Utf8.leading ((Utf8.encode text).take position)).length

/-- What is read of a frame: its legacy arrays. -/
def SseFrame.legacy? : SseFrame F → Option (LegacyLogprobs F)
  | .chunk value =>
      match value.choices.head?.bind CompletionChunkChoice.logprobs with
      | some (.legacy arrays) => some arrays
      | _ => none
  | _ => none

/-- The legacy arrays of a response. -/
def CompletionResponse.legacy? (response : CompletionResponse F) : Option (LegacyLogprobs F) :=
  match response.choices.head?.bind CompletionChoice.logprobs with
  | some (.legacy arrays) => some arrays
  | _ => none

/-- The arrays of several chunks, one behind another. -/
def LegacyLogprobs.concat (chunks : List (LegacyLogprobs F)) : LegacyLogprobs F where
  tokens := chunks.flatMap tokens
  tokenLogprobs := chunks.flatMap tokenLogprobs
  topLogprobs := chunks.flatMap topLogprobs
  textOffset := chunks.flatMap textOffset

/-- The arrays that a client of a stream puts together. -/
def streamedLogprobs (frames : List (SseFrame F)) : LegacyLogprobs F :=
  .concat (frames.filterMap SseFrame.legacy?)

namespace CompletionTokenCollector

/-- A collector behind a sequence of events. -/
def observeAll (collector : CompletionTokenCollector F) :
    List (GenerationEvent F) → Except TokenObservationError (CompletionTokenCollector F)
  | [] => .ok collector
  | event :: rest => do
      let collector ← collector.observe event
      collector.observeAll rest

end CompletionTokenCollector

/-- The two paths deliver the same arrays, the offsets count characters of the
returned text, and no alternative is lost. -/
structure DeliveryAgrees (tokens : List (Committed F)) (streamed attached : LegacyLogprobs F) :
    Prop where
  same : streamed = attached
  offsets : ∀ index offset, attached.textOffset[index]? = some offset →
    offset = charactersBefore (Committed.returnedText tokens)
      (Committed.bytes (tokens.take index)).length
  alternatives : ∀ (index : Nat) (token : Committed F) (entry : List (Text × F)),
    tokens[index]? = some token → attached.topLogprobs[index]? = some entry →
      ∀ alternative ∈ token.logprob.top,
        Entries.get (tokenText alternative.bytes) entry = some alternative.logprob

section Collecting

variable {collector next : CompletionTokenCollector F} {token : Committed F}

theorem CompletionTokenCollector.observePrompt_spec {prompt : Option (List Nat)}
    (h : collector.observePrompt prompt = .ok next) :
    next.logprobShape = collector.logprobShape ∧ next.logprobs = collector.logprobs := by
  cases prompt with
  | none =>
      cases h
      exact ⟨rfl, rfl⟩
  | some prompt =>
      simp only [CompletionTokenCollector.observePrompt] at h
      split at h
      · cases h
      · cases h
        exact ⟨rfl, rfl⟩

theorem CompletionTokenCollector.observe_spec (h : collector.observe token.event = .ok next) :
    next.logprobShape = collector.logprobShape ∧
      next.logprobs = collector.logprobs ++ [token.logprob] := by
  simp only [Committed.event, CompletionTokenCollector.observe] at h
  split at h
  · cases h
  · obtain ⟨middle, hprompt, h⟩ := except_bind_eq_ok.mp h
    obtain ⟨hshape, hlogprobs⟩ := observePrompt_spec hprompt
    cases h
    refine ⟨hshape, ?_⟩
    rw [← hlogprobs]
    rfl

theorem CompletionTokenCollector.observeAll_spec {tokens : List (Committed F)}
    (h : collector.observeAll (tokens.map Committed.event) = .ok next) :
    next.logprobShape = collector.logprobShape ∧
      next.logprobs = collector.logprobs ++ tokens.map Committed.logprob := by
  induction tokens generalizing collector with
  | nil =>
      cases h
      exact ⟨rfl, (List.append_nil _).symm⟩
  | cons token rest ih =>
      obtain ⟨middle, hobserve, hrest⟩ := except_bind_eq_ok.mp h
      obtain ⟨hshape, hlogprobs⟩ := observe_spec hobserve
      obtain ⟨hshape', hlogprobs'⟩ := ih hrest
      refine ⟨hshape'.trans hshape, ?_⟩
      rw [hlogprobs', hlogprobs, List.append_assoc]
      rfl

theorem legacy?_committedChunk {encoder : SseStreamEncoder F}
    (hshape : encoder.tokens.logprobShape = some .legacy) (text : Text) (tokenId : Nat)
    (promptTokenIds : Option (List Nat)) (logprob : TokenLogprob F) :
    SseFrame.legacy?
        (.chunk (encoder.committedChunk text tokenId promptTokenIds (some logprob))) =
      some (legacyLogprobs [logprob]) := by
  simp [SseFrame.legacy?, SseStreamEncoder.committedChunk, CompletionChunk.delta,
    CompletionChunk.new, hshape, logprobsValue]

/-- An open stream encodes the tokens that the collector accepts, each with its arrays. -/
theorem SseStreamEncoder.encodeAll_spec (encoder : SseStreamEncoder F)
    {tokens : List (Committed F)} (hopen : encoder.phase = .open)
    (hshape : encoder.tokens.logprobShape = some .legacy)
    (h : encoder.tokens.observeAll (tokens.map Committed.event) = .ok next) :
    ∃ frames, encoder.encodeAll (tokens.map Committed.event) =
        .ok ({ encoder with tokens := next }, frames) ∧
      frames.filterMap SseFrame.legacy? =
        tokens.map fun token => legacyLogprobs [token.logprob] := by
  induction tokens generalizing encoder with
  | nil =>
      cases h
      exact ⟨[], rfl, rfl⟩
  | cons token rest ih =>
      obtain ⟨middle, hobserve, hrest⟩ := except_bind_eq_ok.mp h
      have hmiddle := (CompletionTokenCollector.observe_spec hobserve).1.trans hshape
      obtain ⟨frames, hencode, hframes⟩ :=
        ih { encoder with tokens := middle } hopen hmiddle hrest
      have hphase : encoder.requirePhase "generation event" .open = .ok () := if_pos hopen
      refine ⟨.chunk (SseStreamEncoder.committedChunk { encoder with tokens := middle }
        token.text token.tokenId token.promptTokenIds (some token.logprob)) :: frames, ?_, ?_⟩
      · simp only [List.map_cons, SseStreamEncoder.encodeAll, SseStreamEncoder.encodeEvent,
          hphase, hobserve]
        simp only [Committed.event]
        exact except_bind_eq_ok.mpr ⟨_, rfl, except_bind_eq_ok.mpr ⟨_, hencode, rfl⟩⟩
      · rw [List.filterMap_cons, legacy?_committedChunk hmiddle, hframes]
        rfl

theorem CompletionTokenCollector.legacy?_attach (hshape : collector.logprobShape = some .legacy)
    {metadata : RequestMetadata} {text : Text} {reason : FinishReason} {usage : TokenUsage}
    {response : CompletionResponse F}
    (h : CompletionResponse.new metadata text reason usage = .ok response) :
    (collector.attach response).legacy? = some (legacyLogprobs collector.logprobs) := by
  obtain ⟨finishReason, -, h⟩ := except_bind_eq_ok.mp h
  cases h
  simp only [CompletionTokenCollector.attach, hshape, CompletionResponse.legacy?, logprobsValue]
  by_cases hexpose : (collector.enabled && collector.exposeTokenIds) = true
  · simp [hexpose]
  · simp [hexpose]

end Collecting

section Arrays

/-- Chunk by chunk every offset is zero; the other arrays are those of all tokens. -/
theorem concat_singles (tokens : List (TokenLogprob F)) :
    LegacyLogprobs.concat (tokens.map fun token => legacyLogprobs [token]) =
      { legacyLogprobs tokens with textOffset := List.replicate tokens.length 0 } := by
  have hoffsets : (tokens.flatMap fun _ => [0]) = List.replicate tokens.length 0 := by
    rw [← List.map_eq_flatMap, List.map_const']
  simp only [LegacyLogprobs.concat, legacyLogprobs, List.flatMap_map, List.map_cons, List.map_nil,
    textOffsets, hoffsets, ← List.map_eq_flatMap]

theorem textOffsets_cons_eq_replicate (offset : Nat) (token : TokenLogprob F)
    (rest : List (TokenLogprob F)) :
    textOffsets offset (token :: rest) = List.replicate (token :: rest).length 0 ↔
      offset = 0 ∧ ∀ other ∈ (token :: rest).dropLast, other.chosen.bytes = [] := by
  induction rest generalizing offset token with
  | nil => simp [textOffsets]
  | cons next rest ih =>
      have hcons := ih (offset + (tokenText token.chosen.bytes).length) next
      rw [textOffsets, List.length_cons, List.replicate_succ, List.cons.injEq, hcons,
        Nat.add_eq_zero_iff, List.length_eq_zero_iff, tokenText, Utf8.fromUtf8Lossy_eq_nil,
        List.dropLast_cons_cons, List.forall_mem_cons]
      tauto

/-- The offsets of a response are zero only while its tokens have no bytes. -/
theorem textOffsets_eq_replicate (tokens : List (TokenLogprob F)) :
    textOffsets 0 tokens = List.replicate tokens.length 0 ↔
      ∀ token ∈ tokens.dropLast, token.chosen.bytes = [] := by
  cases tokens with
  | nil => simp [textOffsets]
  | cons token rest =>
      rw [textOffsets_cons_eq_replicate]
      exact and_iff_right rfl

/-- An entry keeps all alternatives if and only if no text stands for two values. -/
theorem topEntry_keeps_iff (token : TokenLogprob F) :
    (∀ alternative ∈ token.top,
        Entries.get (tokenText alternative.bytes) (topEntry token) = some alternative.logprob) ↔
      ∀ first ∈ token.top, ∀ second ∈ token.top,
        tokenText first.bytes = tokenText second.bytes → first.logprob = second.logprob := by
  have hcollect := Entries.get_collect_iff
    (token.top.map fun entry => (tokenText entry.bytes, entry.logprob))
  simp only [List.forall_mem_map] at hcollect
  exact hcollect

/-- Nothing precedes a token that only empty tokens precede. -/
theorem bytes_take_of_empty {tokens : List (Committed F)} {index : Nat}
    (h : ∀ token ∈ tokens.dropLast, token.logprob.chosen.bytes = [])
    (hindex : index < tokens.length) : Committed.bytes (tokens.take index) = [] := by
  apply List.flatMap_eq_nil_iff.mpr
  intro token hmem
  apply h token
  rw [List.dropLast_eq_take]
  exact (List.take_sublist_take_left (by omega)).subset hmem

end Arrays

section Delivery

/-- The collector of a request for the legacy arrays. -/
def legacyCollector (includeTokenIds exposeTokenIds : Bool)
    (maximumOutputTokens maximumPromptTokens : Nat) : CompletionTokenCollector F :=
  CompletionTokenCollector.withResponseOptions
    (.new includeTokenIds maximumOutputTokens maximumPromptTokens) exposeTokenIds (some .legacy)

/-- The encoder of the same request. -/
def legacyEncoder (metadata : RequestMetadata) (includeTokenIds exposeTokenIds includeUsage : Bool)
    (maximumOutputTokens maximumPromptTokens : Nat) : SseStreamEncoder F :=
  SseStreamEncoder.withResponseOptions
    (.newWithOptions metadata includeTokenIds includeUsage maximumOutputTokens
      maximumPromptTokens) exposeTokenIds (some .legacy)

/-- What the two paths deliver agrees exactly when only the last token has bytes and no
text stands for two alternatives of a token that differ. -/
theorem delivery_agrees_iff {metadata : RequestMetadata}
    {includeTokenIds exposeTokenIds includeUsage : Bool}
    {maximumOutputTokens maximumPromptTokens : Nat} {tokens : List (Committed F)}
    {collector : CompletionTokenCollector F} {reason : FinishReason} {usage : TokenUsage}
    {response : CompletionResponse F}
    (haccept : (legacyCollector includeTokenIds exposeTokenIds maximumOutputTokens
      maximumPromptTokens).observeAll (tokens.map Committed.event) = .ok collector)
    (hresponse : CompletionResponse.new metadata (Committed.returnedText tokens) reason usage =
      .ok response) :
    ∃ encoder frames attached,
      (legacyEncoder metadata includeTokenIds exposeTokenIds includeUsage maximumOutputTokens
        maximumPromptTokens).encodeAll (tokens.map Committed.event) = .ok (encoder, frames) ∧
      (collector.attach response).legacy? = some attached ∧
      (DeliveryAgrees tokens (streamedLogprobs frames) attached ↔
        (∀ token ∈ tokens.dropLast, token.logprob.chosen.bytes = []) ∧
          ∀ token ∈ tokens, ∀ first ∈ token.logprob.top, ∀ second ∈ token.logprob.top,
            tokenText first.bytes = tokenText second.bytes → first.logprob = second.logprob) := by
  obtain ⟨hshape, hlogprobs⟩ := CompletionTokenCollector.observeAll_spec haccept
  obtain ⟨frames, hencode, hframes⟩ := SseStreamEncoder.encodeAll_spec
    (legacyEncoder metadata includeTokenIds exposeTokenIds includeUsage maximumOutputTokens
      maximumPromptTokens) rfl rfl haccept
  have hattach := CompletionTokenCollector.legacy?_attach hshape hresponse
  have hcollected : collector.logprobs = tokens.map Committed.logprob := hlogprobs
  rw [hcollected] at hattach
  refine ⟨_, frames, _, hencode, hattach, ?_⟩
  have hstreamed : streamedLogprobs frames =
      { legacyLogprobs (tokens.map Committed.logprob) with
        textOffset := List.replicate tokens.length 0 } := by
    have hsingles := concat_singles (tokens.map Committed.logprob)
    rw [List.map_map, List.length_map] at hsingles
    rw [streamedLogprobs, hframes]
    exact hsingles
  have hoffsets : streamedLogprobs frames = legacyLogprobs (tokens.map Committed.logprob) ↔
      ∀ token ∈ tokens.dropLast, token.logprob.chosen.bytes = [] := by
    have hzero := textOffsets_eq_replicate (tokens.map Committed.logprob)
    rw [List.length_map, ← List.map_dropLast, List.forall_mem_map] at hzero
    rw [hstreamed, ← hzero, legacyLogprobs, LegacyLogprobs.mk.injEq]
    exact ⟨fun h => h.2.2.2.symm, fun h => ⟨rfl, rfl, rfl, h.symm⟩⟩
  constructor
  · intro h
    refine ⟨hoffsets.mp h.same, ?_⟩
    intro token hmem
    obtain ⟨index, hlt, rfl⟩ := List.getElem_of_mem hmem
    apply (topEntry_keeps_iff tokens[index].logprob).mp
    apply h.alternatives index tokens[index] (topEntry tokens[index].logprob)
      (List.getElem?_eq_getElem hlt)
    simp [legacyLogprobs, List.getElem?_eq_getElem hlt]
  · rintro ⟨hempty, hdistinct⟩
    apply DeliveryAgrees.mk (hoffsets.mpr hempty)
    · intro index offset hoffset
      rw [← hoffsets.mpr hempty, hstreamed, List.getElem?_replicate] at hoffset
      split at hoffset
      · next hlt =>
          cases hoffset
          rw [bytes_take_of_empty hempty hlt]
          rfl
      · cases hoffset
    · intro index token entry htoken hentry
      have hmem := List.mem_of_getElem? htoken
      have heq : topEntry token.logprob = entry := by
        simpa [legacyLogprobs, htoken] using hentry
      rw [← heq]
      exact (topEntry_keeps_iff token.logprob).mpr (hdistinct token hmem)

/-- The tokens `a` and `b`, in a request whose prompt is one token. -/
def letters : List (Committed Int) :=
  [⟨['a'], 1, 0, some [7], ⟨⟨Utf8.encode ['a'], -1⟩, []⟩⟩,
   ⟨['b'], 2, 1, none, ⟨⟨Utf8.encode ['b'], -2⟩, []⟩⟩]

def lettersCollector : CompletionTokenCollector Int :=
  ⟨true, false, some .legacy, letters.map Committed.logprob, 4, 4, some [7], [1, 2]⟩

def lettersMetadata : RequestMetadata := ⟨['i'], ['m'], 0⟩

def lettersResponse : CompletionResponse Int :=
  ⟨['i'], completionObject, 0, ['m'], [⟨['a', 'b'], 0, none, .length, none, none⟩],
    ⟨1, 2, 3, none⟩⟩

theorem letters_iff :
    ∃ encoder frames attached,
      (legacyEncoder lettersMetadata true false false 4 4).encodeAll
        (letters.map Committed.event) = .ok (encoder, frames) ∧
      (lettersCollector.attach lettersResponse).legacy? = some attached ∧
      (DeliveryAgrees letters (streamedLogprobs frames) attached ↔
        (∀ token ∈ letters.dropLast, token.logprob.chosen.bytes = []) ∧
          ∀ token ∈ letters, ∀ first ∈ token.logprob.top, ∀ second ∈ token.logprob.top,
            tokenText first.bytes = tokenText second.bytes → first.logprob = second.logprob) := by
  have haccept : (legacyCollector true false 4 4).observeAll (letters.map Committed.event) =
      .ok lettersCollector := rfl
  have hresponse : CompletionResponse.new lettersMetadata (Committed.returnedText letters)
      .length ⟨1, 2, 0⟩ = .ok lettersResponse := rfl
  exact delivery_agrees_iff haccept hresponse

/-- The stream says that `b` is at offset 0, the response that it is at offset 1. -/
theorem letters_disagree :
    ∃ collector encoder frames response attached,
      (legacyCollector true false 4 4).observeAll (letters.map Committed.event) = .ok collector ∧
      (legacyEncoder lettersMetadata true false false 4 4).encodeAll
        (letters.map Committed.event) = .ok (encoder, frames) ∧
      CompletionResponse.new lettersMetadata (Committed.returnedText letters) .length ⟨1, 2, 0⟩ =
        .ok response ∧
      (collector.attach response).legacy? = some attached ∧
      (streamedLogprobs frames).textOffset = [0, 0] ∧ attached.textOffset = [0, 1] ∧
      ¬ DeliveryAgrees letters (streamedLogprobs frames) attached := by
  have hstream : ∃ encoder frames, (legacyEncoder lettersMetadata true false false 4 4).encodeAll
      (letters.map Committed.event) = .ok (encoder, frames) ∧
      (streamedLogprobs frames).textOffset = [0, 0] := ⟨_, _, rfl, rfl⟩
  obtain ⟨encoder, frames, hencode, hzero⟩ := hstream
  have hone : (legacyLogprobs (letters.map Committed.logprob)).textOffset = [0, 1] := by
    have hlength : (tokenText (Utf8.encode ['a'])).length = 1 := by
      rw [tokenText, Utf8.fromUtf8Lossy_encode]
      rfl
    simp only [letters, legacyLogprobs, textOffsets, List.map_cons, List.map_nil, hlength]
  refine ⟨lettersCollector, encoder, frames, lettersResponse, _, rfl, hencode, rfl, rfl, hzero,
    hone, ?_⟩
  intro h
  have hsame := congrArg LegacyLogprobs.textOffset h.same
  rw [hzero] at hsame
  cases hsame.trans hone

end Delivery

end Riley.Server
