import Riley.Server.ToolStreamSpec

/-!
A stream of chat frames against a chat response. Both are read the way a client
reads them: the content, the tool calls and the finish reason.
-/

namespace Riley.Server

open Utf8 (Text)
open Substrings

/-- The choice of a chunk or a response that has one choice. -/
def onlyChoice (entries : List (Text × Json)) : Option (List (Text × Json)) :=
  match Entries.get "choices".toList entries with
  | some (.array [.object choice]) => some choice
  | _ => none

def fieldText (key : Text) (entries : List (Text × Json)) : Text :=
  ((Entries.get key entries).bind Json.asStr).getD []

/-- A tool call as a client reads it: its id, its name and its arguments. -/
def readToolCall : Json → Option (Text × Text × Text)
  | .object entries =>
      match Entries.get "function".toList entries with
      | some (.object function) =>
          some (fieldText "id".toList entries, fieldText "name".toList function,
            fieldText "arguments".toList function)
      | _ => none
  | _ => none

def readToolCalls (entries : List (Text × Json)) : List (Option (Text × Text × Text)) :=
  match Entries.get "tool_calls".toList entries with
  | some (.array calls) => calls.map readToolCall
  | _ => []

/-- What a client takes from an answer. -/
structure Answer where
  content : Text
  toolCalls : List (Option (Text × Text × Text))
  finishReason : Option Json

/-- What a message or a delta of a choice adds to an answer. -/
def readPart (key : Text) (choice : List (Text × Json)) : Answer :=
  match Entries.get key choice with
  | some (.object part) =>
      ⟨fieldText "content".toList part, readToolCalls part,
        Entries.get "finish_reason".toList choice⟩
  | _ => ⟨[], [], Entries.get "finish_reason".toList choice⟩

def readResponse (response : List (Text × Json)) : Answer :=
  ((onlyChoice response).map (readPart "message".toList)).getD ⟨[], [], none⟩

def readChunk (chunk : List (Text × Json)) : Answer :=
  ((onlyChoice chunk).map (readPart "delta".toList)).getD ⟨[], [], none⟩

/-- The chunks of a stream, put together; the last one has the finish reason. -/
def readStream (chunks : List (List (Text × Json))) : Answer where
  content := chunks.flatMap fun chunk => (readChunk chunk).content
  toolCalls := chunks.flatMap fun chunk => (readChunk chunk).toolCalls
  finishReason := chunks.getLast?.bind fun chunk => (readChunk chunk).finishReason

/-- Two answers agree, up to blanks before a tool call in the streamed one. -/
structure SameAnswer (streamed answered : Answer) : Prop where
  toolCalls : streamed.toolCalls = answered.toolCalls
  finishReason : streamed.finishReason = answered.finishReason
  content : if answered.toolCalls = [] then streamed.content = answered.content
    else trimEnd streamed.content = answered.content

/-- A body with one choice, whose text and finish reason are these. -/
structure HoldsChoice (body : List (Text × Json)) (idBase text : Text) (reason : Json) : Prop where
  id : fieldText "id".toList body = idBase
  choice : ∃ choice, Entries.get "choices".toList body = some (.array [.object choice]) ∧
    (choice.map Prod.fst).Nodup ∧ Entries.get "text".toList choice = some (.string text) ∧
    Entries.get "finish_reason".toList choice = some reason

/-- A chunk of a completion with one choice, which its own frame reads back as. -/
structure CompletionFrame (json : JsonLibrary) (chunk : List (Text × Json)) (idBase text : Text)
    (reason : Json) : Prop extends HoldsChoice chunk idBase text reason where
  object : Entries.get "object".toList chunk = some (.string textCompletion)
  reads : json.fromStr (Json.object chunk).compact = some (.object chunk)

/-- The frame of a chunk. -/
def chunkFrame (chunk : List (Text × Json)) : Text :=
  ChatChunkShaper.dataFrame (Json.object chunk).compact

/-- The tool calls of an answer whose calls are these. -/
def shownCalls (idBase : Text) (calls : List ToolCall) : List (Option (Text × Text × Text)) :=
  calls.mapIdx fun index call =>
    some ("call_".toList ++ idBase ++ "_".toList ++ indexText index, call.name, call.arguments)

/-- What a shaper makes of a text: its filter, the content and, at the end, the calls. -/
def turnText (json : JsonLibrary) (tools : Option ToolStreamFilter) (text : Text)
    (finishing : Bool) : Option ToolStreamFilter × Text × Option (List ToolCall) :=
  match tools with
  | none => (none, text, none)
  | some filter =>
      let turned := ChatChunkShaper.filterText json filter text finishing
      (some turned.1, turned.2)

/-- The answer that a text and calls make. -/
def answerWith (idBase content : Text) (reason : Json) : Option (List ToolCall) → Answer
  | none => ⟨content, [], some reason⟩
  | some calls => ⟨content, shownCalls idBase calls, some (.string "tool_calls".toList)⟩

section Calls

theorem readToolCall_value (idBase : Text) (streaming : Bool) (index : Nat) (call : ToolCall) :
    readToolCall (toolCallValue idBase streaming index call) =
      some ("call_".toList ++ idBase ++ "_".toList ++ indexText index, call.name,
        call.arguments) := by
  cases streaming <;> rfl

theorem map_readToolCall (idBase : Text) (streaming : Bool) (calls : List ToolCall) :
    (calls.mapIdx (toolCallValue idBase streaming)).map readToolCall = shownCalls idBase calls := by
  apply List.ext_getElem?
  intro index
  rw [List.getElem?_map, shownCalls, List.getElem?_mapIdx, List.getElem?_mapIdx, Option.map_map]
  simp only [Function.comp_def, readToolCall_value]

end Calls

section Shaping

variable {json : JsonLibrary}

/-- The part of a delta or a message, by its entries. -/
theorem readPart_of {key : Text} {choice part : List (Text × Json)}
    (h : Entries.get key choice = some (.object part)) :
    readPart key choice = ⟨fieldText "content".toList part, readToolCalls part,
      Entries.get "finish_reason".toList choice⟩ := by
  rw [readPart, h]

/-- The content of a delta is read back, also where an empty one is left out. -/
theorem readDelta {base : List (Text × Json)} (hbase : Entries.get "content".toList base = none)
    (content : Text) (leaves : Bool) (hleaves : leaves = true → content = []) :
    fieldText "content".toList
        (if leaves then base else Entries.insert "content".toList (.string content) base) =
      content ∧
    readToolCalls
        (if leaves then base else Entries.insert "content".toList (.string content) base) =
      readToolCalls base := by
  cases leaves with
  | true =>
      rw [if_pos rfl, hleaves rfl, fieldText, hbase]
      exact ⟨rfl, rfl⟩
  | false =>
      simp only [Bool.false_eq_true, if_false]
      constructor
      · rw [fieldText, Entries.get_insert_self]
        rfl
      · rw [readToolCalls, Entries.get_insert_of_ne (by decide)]
        rfl

/-- One choice of a chunk turns into a delta with what the filter lets through. -/
theorem shapeChoice_spec (json : JsonLibrary) (shaper : ChatChunkShaper) (idBase : Text)
    {text : Text} {reason : Json} {choice : List (Text × Json)} (hkeys : (choice.map Prod.fst).Nodup)
    (htext : Entries.get "text".toList choice = some (.string text))
    (hreason : Entries.get "finish_reason".toList choice = some reason) :
    (shaper.shapeChoice json idBase choice).1 =
        ⟨true, (turnText json shaper.tools text !reason.isNull).1⟩ ∧
      readPart "delta".toList (shaper.shapeChoice json idBase choice).2 =
        answerWith idBase (turnText json shaper.tools text !reason.isNull).2.1 reason
          (turnText json shaper.tools text !reason.isNull).2.2 := by
  have hkept : Entries.get "finish_reason".toList (Entries.swapRemove "text".toList choice) =
      some reason := by
    rw [Entries.get_swapRemove hkeys (by decide), hreason]
  generalize hrole : (if shaper.roleSent then [] else
    [("role".toList, Json.string "assistant".toList)]) = role
  have hcontent : Entries.get "content".toList role = none := by
    rw [← hrole]
    split <;> rfl
  have hcalls : Entries.get "tool_calls".toList role = none := by
    rw [← hrole]
    split <;> rfl
  have hnocalls : readToolCalls role = [] := by
    rw [readToolCalls, hcalls]
  simp only [ChatChunkShaper.shapeChoice, htext, hkept, hrole, Option.getD_some, Option.any_some]
  cases htools : shaper.tools with
  | none =>
      refine ⟨rfl, ?_⟩
      have hread := readDelta hcontent text
        (!reason.isNull && (Json.string text).asStr.any List.isEmpty) (by simp [Json.asStr])
      rw [readPart_of (Entries.get_insert_self _ _ _), hread.1, hread.2, hnocalls,
        Entries.get_insert_of_ne (by decide), hkept]
      rfl
  | some filter =>
      simp only [turnText]
      have hread : (Json.string text).asStr.getD [] = text := rfl
      rw [hread]
      obtain ⟨next, shown, calls⟩ := ChatChunkShaper.filterText json filter text !reason.isNull
      refine ⟨rfl, ?_⟩
      cases calls with
      | none =>
          have hread := readDelta hcontent shown
            (!reason.isNull && (Json.string shown).asStr.any List.isEmpty) (by simp [Json.asStr])
          rw [readPart_of (Entries.get_insert_self _ _ _), hread.1, hread.2, hnocalls,
            Entries.get_insert_of_ne (by decide), hkept]
          rfl
      | some calls =>
          have hbase : Entries.get "content".toList (Entries.insert "tool_calls".toList
              (toolCallValues calls idBase true) role) = none := by
            rw [Entries.get_insert_of_ne (by decide), hcontent]
          have hread := readDelta hbase shown
            (!reason.isNull && (Json.string shown).asStr.any List.isEmpty) (by simp [Json.asStr])
          rw [readPart_of (Entries.get_insert_self _ _ _), hread.1, hread.2,
            Entries.get_insert_of_ne (by decide), Entries.get_insert_self, readToolCalls,
            Entries.get_insert_self]
          simp only [toolCallValues, map_readToolCall]
          rfl

theorem shapeFrame_spec (shaper : ChatChunkShaper) {chunk : List (Text × Json)}
    {idBase text : Text} {reason : Json} (h : CompletionFrame json chunk idBase text reason) :
    ∃ shaped, shaper.shapeFrame json (chunkFrame chunk) =
        (⟨true, (turnText json shaper.tools text !reason.isNull).1⟩, chunkFrame shaped) ∧
      readChunk shaped = answerWith idBase (turnText json shaper.tools text !reason.isNull).2.1
        reason (turnText json shaper.tools text !reason.isNull).2.2 := by
  obtain ⟨choice, hchoices, hkeys, htext, hreason⟩ := h.choice
  obtain ⟨hshaper, hread⟩ := shapeChoice_spec json shaper idBase hkeys htext hreason
  have hpayload : (stripPrefix "data: ".toList (chunkFrame chunk)).bind
      (stripSuffix "\n\n".toList) = some (Json.object chunk).compact := by
    unfold chunkFrame ChatChunkShaper.dataFrame
    rw [List.append_assoc, stripPrefix_append, Option.bind_some, stripSuffix_append]
  have hid : ((Entries.get "id".toList (Entries.insert "object".toList (.string chatChunkObject)
      chunk)).bind Json.asStr).getD [] = idBase := by
    rw [Entries.get_insert_of_ne (by decide)]
    exact h.id
  have hinserted : Entries.get "choices".toList (Entries.insert "object".toList
      (.string chatChunkObject) chunk) = some (.array [.object choice]) := by
    rw [Entries.get_insert_of_ne (by decide), hchoices]
  refine ⟨Entries.insert "choices".toList
    (.array [.object (shaper.shapeChoice json idBase choice).2])
    (Entries.insert "object".toList (.string chatChunkObject) chunk), ?_, ?_⟩
  · simp only [ChatChunkShaper.shapeFrame, hpayload, Option.bind_some, h.reads, h.object,
      Json.asStr, if_true, ChatChunkShaper.shapeChunk, hid, hinserted,
      ChatChunkShaper.shapeChoices]
    rw [← hshaper]
    rfl
  · rw [readChunk, onlyChoice, Entries.get_insert_self]
    exact hread

theorem readStream_cons (chunk : List (Text × Json)) {rest : List (List (Text × Json))}
    (hrest : rest ≠ []) :
    readStream (chunk :: rest) =
      ⟨(readChunk chunk).content ++ (readStream rest).content,
        (readChunk chunk).toolCalls ++ (readStream rest).toolCalls,
        (readStream rest).finishReason⟩ := by
  obtain ⟨next, more, rfl⟩ := List.exists_cons_of_ne_nil hrest
  rw [readStream, readStream, List.getLast?_cons_cons]
  rfl

theorem readStream_single (chunk : List (Text × Json)) : readStream [chunk] = readChunk chunk := by
  simp [readStream]

end Shaping

section Streaming

variable {json : JsonLibrary} {idBase : Text} {reason : Json} {finish : List (Text × Json)}

/-- The chunks of a stream that does not look for tool calls hold its text. -/
theorem shapeFrames_plain
    (hfinish : CompletionFrame json finish idBase [] reason) {pieces : List Text}
    {chunks : List (List (Text × Json))}
    (hchunks : List.Forall₂ (fun piece chunk => CompletionFrame json chunk idBase piece .null)
      pieces chunks) (sent : Bool) :
    ∃ shaped, shaped ≠ [] ∧
      (ChatChunkShaper.shapeFrames json ⟨sent, none⟩
        ((chunks ++ [finish]).map chunkFrame)).2 = shaped.map chunkFrame ∧
      readStream shaped = ⟨pieces.flatten, [], some reason⟩ := by
  induction hchunks generalizing sent with
  | nil =>
      obtain ⟨shaped, hshaped, hread⟩ := shapeFrame_spec ⟨sent, none⟩ hfinish
      refine ⟨[shaped], List.cons_ne_nil _ _, ?_, ?_⟩
      · simp only [List.nil_append, List.map_cons, List.map_nil, ChatChunkShaper.shapeFrames,
          hshaped]
      · rw [readStream_single, hread]
        rfl
  | @cons piece chunk pieces chunks hchunk _ ih =>
      obtain ⟨first, hfirst, hread⟩ := shapeFrame_spec ⟨sent, none⟩ hchunk
      obtain ⟨shaped, hne, hshaped, hrest⟩ := ih true
      refine ⟨first :: shaped, List.cons_ne_nil _ _, ?_, ?_⟩
      · simp only [List.cons_append, List.map_cons, ChatChunkShaper.shapeFrames, hfirst]
        exact congrArg _ hshaped
      · rw [readStream_cons first hne, hread, hrest]
        rfl

theorem filterText_calls {filter : ToolStreamFilter} {text : Text} {calls : List ToolCall}
    (h : ((filter.push text).1.finish json).2 = .ok calls) :
    (ChatChunkShaper.filterText json filter text true).2 =
      ((filter.push text).2, some calls) := by
  simp only [ChatChunkShaper.filterText, if_true]
  revert h
  obtain ⟨finished, result⟩ := (filter.push text).1.finish json
  intro h
  obtain rfl : result = .ok calls := h
  rfl

theorem filterText_held {filter : ToolStreamFilter} {text held : Text}
    (h : ((filter.push text).1.finish json).2 = .error held) :
    (ChatChunkShaper.filterText json filter text true).2 = (held, none) := by
  simp only [ChatChunkShaper.filterText, if_true]
  revert h
  obtain ⟨finished, result⟩ := (filter.push text).1.finish json
  intro h
  obtain rfl : result = .error held := h
  rfl

/-- The chunks of a stream that looks for tool calls, told by what the parser makes of
the whole text. -/
theorem shapeFrames_filtered (hjson : json.ObjectsOpen) (hreason : reason.isNull = false)
    (hfinish : CompletionFrame json finish idBase [] reason) {pieces : List Text}
    {chunks : List (List (Text × Json))}
    (hchunks : List.Forall₂ (fun piece chunk => CompletionFrame json chunk idBase piece .null)
      pieces chunks) {seen shown : Text} {filter : ToolStreamFilter}
    (hfilter : Streamed seen filter shown) (sent : Bool) :
    ∃ shaped content, shaped ≠ [] ∧
      (ChatChunkShaper.shapeFrames json ⟨sent, some filter⟩
        ((chunks ++ [finish]).map chunkFrame)).2 = shaped.map chunkFrame ∧
      ((∃ calls, parseToolCalls json filter.style (seen ++ pieces.flatten) =
          some (trimEnd (shown ++ content), calls) ∧
        readStream shaped = answerWith idBase content reason (some calls)) ∨
      (parseToolCalls json filter.style (seen ++ pieces.flatten) = none ∧
        shown ++ content = seen ++ pieces.flatten ∧
        readStream shaped = answerWith idBase content reason none)) := by
  induction hchunks generalizing seen shown filter sent with
  | nil =>
      obtain ⟨shaped, hshaped, hread⟩ := shapeFrame_spec ⟨sent, some filter⟩ hfinish
      have hlast := hfilter.push []
      have hstyle := push_style filter []
      rw [List.append_nil, hfilter.push_nil, List.append_nil] at hlast
      have hwhole : seen ++ ([] : List Text).flatten = seen := by
        rw [List.flatten_nil, List.append_nil]
      have hframes : (ChatChunkShaper.shapeFrames json ⟨sent, some filter⟩
          (([] ++ [finish]).map chunkFrame)).2 = [shaped].map chunkFrame := by
        simp only [List.nil_append, List.map_cons, List.map_nil, ChatChunkShaper.shapeFrames,
          hshaped]
      rw [hwhole]
      rw [turnText, hreason] at hread
      rcases hlast.finish hjson with ⟨calls, hparse, hok⟩ | ⟨held, hparse, hheld, hall⟩
      · refine ⟨[shaped], [], List.cons_ne_nil _ _, hframes, .inl ⟨calls, ?_, ?_⟩⟩
        · rw [List.append_nil, ← hstyle, hparse]
        · rw [readStream_single, hread, Bool.not_false, filterText_calls hok, hfilter.push_nil]
      · refine ⟨[shaped], held, List.cons_ne_nil _ _, hframes, .inr ⟨?_, hall, ?_⟩⟩
        · rw [← hstyle, hparse]
        · rw [readStream_single, hread, Bool.not_false, filterText_held hheld]
  | @cons piece chunk pieces chunks hchunk _ ih =>
      obtain ⟨first, hfirst, hread⟩ := shapeFrame_spec ⟨sent, some filter⟩ hchunk
      have hturn : turnText json (some filter) piece (!Json.isNull .null) =
          (some (filter.push piece).1, (filter.push piece).2, none) := rfl
      rw [hturn] at hfirst hread
      obtain ⟨shaped, content, hne, hshaped, hrest⟩ := ih (hfilter.push piece) true
      rw [push_style, List.append_assoc, ← List.flatten_cons, List.append_assoc] at hrest
      refine ⟨first :: shaped, (filter.push piece).2 ++ content, List.cons_ne_nil _ _, ?_, ?_⟩
      · simp only [List.cons_append, List.map_cons, ChatChunkShaper.shapeFrames, hfirst]
        exact congrArg _ hshaped
      · rw [readStream_cons first hne, hread]
        rcases hrest with ⟨calls, hparse, hstream⟩ | ⟨hparse, hwhole, hstream⟩
        · left
          refine ⟨calls, hparse, ?_⟩
          rw [hstream]
          rfl
        · right
          refine ⟨hparse, hwhole, ?_⟩
          rw [hstream]
          rfl

end Streaming

section Answering

variable {json : JsonLibrary} {idBase text : Text} {reason : Json}

/-- A response holds the text, or its tool calls behind the content. -/
theorem readResponse_spec {response : List (Text × Json)}
    (h : HoldsChoice response idBase text reason) (style : Option ToolStyle) :
    readResponse (chatResponse json response style) =
      ((style.bind (parseToolCalls json · text)).map fun parsed =>
        answerWith idBase parsed.1 reason (some parsed.2)).getD
          (answerWith idBase text reason none) := by
  obtain ⟨choice, hchoices, hkeys, htext, hreason⟩ := h.choice
  have hkept : Entries.get "finish_reason".toList (Entries.swapRemove "text".toList choice) =
      some reason := by
    rw [Entries.get_swapRemove hkeys (by decide), hreason]
  have hid : ((Entries.get "id".toList (Entries.insert "object".toList (.string chatObject)
      response)).bind Json.asStr).getD [] = idBase := by
    rw [Entries.get_insert_of_ne (by decide)]
    exact h.id
  have hinserted : Entries.get "choices".toList (Entries.insert "object".toList
      (.string chatObject) response) = some (.array [.object choice]) := by
    rw [Entries.get_insert_of_ne (by decide), hchoices]
  have hplain : readPart "message".toList (Entries.insert "message".toList
      (.object [("role".toList, .string "assistant".toList), ("content".toList, .string text)])
      (Entries.swapRemove "text".toList choice)) = answerWith idBase text reason none := by
    rw [readPart_of (Entries.get_insert_self _ _ _), Entries.get_insert_of_ne (by decide), hkept]
    rfl
  have hcalls : ∀ content calls, readPart "message".toList (Entries.insert "message".toList
      (.object [("role".toList, .string "assistant".toList),
        ("content".toList, if content = [] then .null else .string content),
        ("tool_calls".toList, toolCallValues calls idBase false)])
      (Entries.insert "finish_reason".toList (.string "tool_calls".toList)
        (Entries.swapRemove "text".toList choice))) =
        answerWith idBase content reason (some calls) := by
    intro content calls
    rw [readPart_of (Entries.get_insert_self _ _ _), Entries.get_insert_of_ne (by decide),
      Entries.get_insert_self]
    have hcontent : fieldText "content".toList [("role".toList, Json.string "assistant".toList),
        ("content".toList, if content = [] then .null else .string content),
        ("tool_calls".toList, toolCallValues calls idBase false)] = content := by
      cases content <;> rfl
    have hshown := map_readToolCall idBase false calls
    rw [hcontent, answerWith, ← hshown]
    rfl
  simp only [chatResponse, hinserted, hid, List.map_cons, List.map_nil, chatChoice, htext,
    Option.getD_some, readResponse, onlyChoice, Entries.get_insert_self]
  cases style with
  | none => exact hplain
  | some style =>
      rw [Option.bind_some]
      cases hparse : parseToolCalls json style text with
      | none =>
          simp only [Json.asStr, Option.bind_eq_bind, Option.bind_some, hparse]
          exact hplain
      | some parsed =>
          simp only [Json.asStr, Option.bind_eq_bind, Option.bind_some, hparse]
          exact hcalls parsed.1 parsed.2

end Answering

/-- Streaming chat says what a chat response says, however its text is split. -/
theorem stream_eq_response {json : JsonLibrary} (hjson : json.ObjectsOpen)
    (style : Option ToolStyle) {idBase : Text} {reason : Json} (hreason : reason.isNull = false)
    {pieces : List Text} {chunks : List (List (Text × Json))} {finish response : List (Text × Json)}
    (hchunks : List.Forall₂ (fun piece chunk => CompletionFrame json chunk idBase piece .null)
      pieces chunks)
    (hfinish : CompletionFrame json finish idBase [] reason)
    (hresponse : HoldsChoice response idBase pieces.flatten reason) :
    ∃ shaped, ((ChatChunkShaper.new style).shapeFrames json
        ((chunks ++ [finish]).map chunkFrame)).2 = shaped.map chunkFrame ∧
      SameAnswer (readStream shaped) (readResponse (chatResponse json response style)) := by
  rw [readResponse_spec hresponse]
  cases style with
  | none =>
      obtain ⟨shaped, -, hshaped, hread⟩ := shapeFrames_plain hfinish hchunks false
      refine ⟨shaped, hshaped, ?_⟩
      rw [hread]
      exact SameAnswer.mk rfl rfl rfl
  | some style =>
      obtain ⟨shaped, content, -, hshaped, hread⟩ :=
        shapeFrames_filtered hjson hreason hfinish hchunks (streamed_new style) false
      refine ⟨shaped, hshaped, ?_⟩
      rw [List.nil_append, List.nil_append] at hread
      rcases hread with ⟨calls, hparse, hread⟩ | ⟨hparse, hcontent, hread⟩
      · have hstyle : parseToolCalls json style pieces.flatten =
            some (trimEnd content, calls) := hparse
        have hne : shownCalls idBase calls ≠ [] := by
          intro hnil
          apply parse_calls_ne_nil hstyle
          exact List.mapIdx_eq_nil_iff.mp hnil
        rw [hread, Option.bind_some, hstyle]
        refine SameAnswer.mk rfl rfl ?_
        exact (if_neg hne).mpr rfl
      · have hstyle : parseToolCalls json style pieces.flatten = none := hparse
        rw [hread, Option.bind_some, hstyle]
        exact SameAnswer.mk rfl rfl hcontent

/-- The JSON library on the texts of some values. -/
def libraryOf (known : List Json) : JsonLibrary where
  fromStr := fun text => known.find? fun value => value.compact = text

theorem libraryOf_objectsOpen (known : List Json) : (libraryOf known).ObjectsOpen := by
  intro text entries h
  have hcompact : (Json.object entries).compact = text := by
    simpa [libraryOf] using List.find?_some h
  rw [← hcompact]
  cases entries with
  | nil => rfl
  | cons entry rest => rfl

/-- A chunk of the completions endpoint. -/
def sampleChunk (text : Text) (reason : Json) : List (Text × Json) :=
  [("id".toList, .string "i".toList), ("object".toList, .string textCompletion),
    ("choices".toList, .array [.object
      [("text".toList, .string text), ("index".toList, .number "0".toList),
        ("logprobs".toList, .null), ("finish_reason".toList, reason)]])]

def samplePieces : List Text :=
  ["hi <tool".toList,
    "_call>\x7b\"name\":\"f\",\"arguments\":\x7b\x7d\x7d</tool_call>".toList]

def sampleLibrary : JsonLibrary :=
  libraryOf [.object (sampleChunk "hi <tool".toList .null),
    .object (sampleChunk
      "_call>\x7b\"name\":\"f\",\"arguments\":\x7b\x7d\x7d</tool_call>".toList .null),
    .object (sampleChunk [] (.string "stop".toList)),
    .object [("name".toList, .string "f".toList), ("arguments".toList, .object [])]]

theorem sampleChunk_holds (text : Text) (reason : Json) :
    HoldsChoice (sampleChunk text reason) "i".toList text reason := by
  have hkeys : (["text", "index", "logprobs", "finish_reason"].map String.toList).Nodup := by
    decide
  exact HoldsChoice.mk rfl ⟨_, rfl, hkeys, rfl, rfl⟩

/-- A call whose opening tag is cut in two. -/
theorem sample_stream_eq_response :
    ∃ shaped, ((ChatChunkShaper.new (some .hermes)).shapeFrames sampleLibrary
        ((samplePieces.map (sampleChunk · .null) ++ [sampleChunk [] (.string "stop".toList)]).map
          chunkFrame)).2 = shaped.map chunkFrame ∧
      SameAnswer (readStream shaped) (readResponse (chatResponse sampleLibrary
        (sampleChunk samplePieces.flatten (.string "stop".toList)) (some .hermes))) := by
  have hframe : ∀ text reason, sampleLibrary.fromStr (Json.object (sampleChunk text reason)).compact =
      some (.object (sampleChunk text reason)) →
      CompletionFrame sampleLibrary (sampleChunk text reason) "i".toList text reason :=
    fun text reason hreads => ⟨sampleChunk_holds text reason, rfl, hreads⟩
  exact stream_eq_response (libraryOf_objectsOpen _) (some .hermes) rfl
    (.cons (hframe _ _ rfl) (.cons (hframe _ _ rfl) .nil)) (hframe _ _ rfl)
    (sampleChunk_holds _ _)

end Riley.Server
