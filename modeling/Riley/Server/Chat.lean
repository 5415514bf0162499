import Riley.Server.Json

/-!
The chat endpoint on top of completions: how tool calls are read out of generated
text, and how a response body and the frames of a stream are made over into chat
objects.
-/

namespace Riley.Server

open Utf8 (Text)
open Substrings (find splitOnce split stripPrefix stripSuffix openSuffix)

def chatObject : Text := "chat.completion".toList
def chatChunkObject : Text := "chat.completion.chunk".toList
def textCompletion : Text := "text_completion".toList
def hermesOpen : Text := "<tool_call>".toList
def hermesClose : Text := "</tool_call>".toList
def pythonTag : Text := "<|python_tag|>".toList
def callSeparator : Text := "; ".toList

/-- How a model family writes tool calls. -/
inductive ToolStyle
  /-- `<tool_call>{"name": ..., "arguments": ...}</tool_call>`. -/
  | hermes
  /-- A bare `{"name": ..., "parameters": ...}` object. -/
  | llamaJson
  deriving DecidableEq, Repr

/-- A call as its name and its arguments as JSON text. -/
structure ToolCall where
  name : Text
  arguments : Text
  deriving DecidableEq, Repr

section Parsing

def toolCallFromJson (value : Json) : Option ToolCall := do
  let name ← (← value.get "name".toList).asStr
  let arguments := ((value.get "arguments".toList).orElse fun _ =>
    value.get "parameters".toList).getD (.object [])
  match arguments with
  | .string text => some ⟨name, text⟩
  | other => some ⟨name, other.compact⟩

variable (json : JsonLibrary)

def readCall (body : Text) : Option ToolCall := do
  toolCallFromJson (← json.fromStr (trim body))

/-- The calls between the tags of a text, after those that came before. -/
def hermesCalls : Nat → Text → List ToolCall → Option (List ToolCall)
  | 0, _, calls => some calls
  | fuel + 1, rest, calls =>
      match splitOnce hermesOpen rest with
      | none => some calls
      | some (_, body) =>
          match splitOnce hermesClose body with
          | none =>
              -- A call that was cut off does not count beside complete ones.
              if calls = [] then do
                let call ← readCall json body
                some [call]
              else some calls
          | some (body, after) => do
              let call ← readCall json body
              hermesCalls fuel after (calls ++ [call])

/-- The content before the tool calls of a text, and the calls. -/
def parseToolCalls (style : ToolStyle) (text : Text) : Option (Text × List ToolCall) :=
  match style with
  | .hermes => do
      let first ← find hermesOpen text
      let rest := text.drop first
      let calls ← hermesCalls json (rest.length + 1) rest []
      some (trimEnd (text.take first), calls)
  | .llamaJson => do
      let body := trim text
      let body := (stripPrefix pythonTag body).getD body
      let calls ← (split callSeparator body).mapM (readCall json)
      some ([], calls)

end Parsing

section Reshaping

variable (json : JsonLibrary)

def indexText (index : Nat) : Text := Nat.toDigits 10 index

def toolCallValue (idBase : Text) (streaming : Bool) (index : Nat) (call : ToolCall) : Json :=
  let entries : List (Text × Json) :=
    [("id".toList, .string ("call_".toList ++ idBase ++ "_".toList ++ indexText index)),
      ("type".toList, .string "function".toList),
      ("function".toList, .object
        [("name".toList, .string call.name), ("arguments".toList, .string call.arguments)])]
  .object (if streaming then Entries.insert "index".toList (.number (indexText index)) entries
    else entries)

def toolCallValues (calls : List ToolCall) (idBase : Text) (streaming : Bool) : Json :=
  .array (calls.mapIdx (toolCallValue idBase streaming))

/-- One choice of a response, with its message in place of its text. -/
def chatChoice (toolStyle : Option ToolStyle) (idBase : Text) : Json → Json
  | .object choice =>
      let text := (Entries.get "text".toList choice).getD (.string [])
      let choice := Entries.swapRemove "text".toList choice
      let parsed := do
        let style ← toolStyle
        parseToolCalls json style (← text.asStr)
      match parsed with
      | some (content, calls) =>
          let choice := Entries.insert "finish_reason".toList (.string "tool_calls".toList) choice
          let message := .object
            [("role".toList, .string "assistant".toList),
              ("content".toList, if content = [] then .null else .string content),
              ("tool_calls".toList, toolCallValues calls idBase false)]
          .object (Entries.insert "message".toList message choice)
      | none =>
          let message := .object
            [("role".toList, .string "assistant".toList), ("content".toList, text)]
          .object (Entries.insert "message".toList message choice)
  | other => other

/-- A completion response made over into a chat completion. -/
def chatResponse (response : List (Text × Json)) (toolStyle : Option ToolStyle) :
    List (Text × Json) :=
  let response := Entries.insert "object".toList (.string chatObject) response
  let idBase := ((Entries.get "id".toList response).bind Json.asStr).getD []
  match Entries.get "choices".toList response with
  | some (.array choices) =>
      Entries.insert "choices".toList (.array (choices.map (chatChoice json toolStyle idBase)))
        response
  | some _ => response
  | none => Entries.insert "choices".toList .null response

end Reshaping

/-- Holds a tool call back while the text before it streams as content. -/
structure ToolStreamFilter where
  style : ToolStyle
  held : Text
  inCall : Bool
  contentSeen : Bool
  deriving DecidableEq, Repr

namespace ToolStreamFilter

def new (style : ToolStyle) : ToolStreamFilter := ⟨style, [], false, false⟩

/-- Shows that much of what is held. -/
def showFirst (filter : ToolStreamFilter) (count : Nat) (inCall : Bool) :
    ToolStreamFilter × Text :=
  let shown := filter.held.take count
  ({ filter with
      held := filter.held.drop count
      inCall := inCall
      contentSeen := filter.contentSeen || !shown.isEmpty }, shown)

/-- Takes new text and returns what is safe to show as content. -/
def push (filter : ToolStreamFilter) (text : Text) : ToolStreamFilter × Text :=
  let filter := { filter with held := filter.held ++ text }
  if filter.inCall then (filter, [])
  else
    match filter.style with
    | .hermes =>
        match find hermesOpen filter.held with
        | some start => filter.showFirst start true
        | none =>
            filter.showFirst (filter.held.length - openSuffix hermesOpen filter.held) false
    | .llamaJson =>
        let start := trimStart filter.held
        if filter.contentSeen then ({ filter with held := [] }, filter.held)
        else if start = [] ∨ start <+: pythonTag ∨ pythonTag <+: start ∨ start.head? = some '{' then
          ({ filter with inCall := !start.isEmpty && !decide (start <+: pythonTag) }, [])
        else ({ filter with held := [], contentSeen := true }, filter.held)

/-- The held text at the end of the stream: its calls, or the text itself. -/
def finish (json : JsonLibrary) (filter : ToolStreamFilter) :
    ToolStreamFilter × Except Text (List ToolCall) :=
  let cleared := { filter with held := [] }
  match parseToolCalls json filter.style filter.held with
  | some (_, calls) => if filter.inCall then (cleared, .ok calls) else (cleared, .error filter.held)
  | none => (cleared, .error filter.held)

end ToolStreamFilter

/-- Makes completion frames over into chat frames. -/
structure ChatChunkShaper where
  roleSent : Bool
  tools : Option ToolStreamFilter
  deriving DecidableEq, Repr

namespace ChatChunkShaper

def new (style : Option ToolStyle) : ChatChunkShaper := ⟨false, style.map ToolStreamFilter.new⟩

variable (json : JsonLibrary)

/-- The text of a choice through the filter: the filter, what is shown and, at the
end, the calls. -/
def filterText (filter : ToolStreamFilter) (text : Text) (finishing : Bool) :
    ToolStreamFilter × Text × Option (List ToolCall) :=
  let (filter, shown) := filter.push text
  if finishing then
    match filter.finish json with
    | (filter, .ok calls) => (filter, shown, some calls)
    | (filter, .error held) => (filter, held, none)
  else (filter, shown, none)

def shapeChoice (shaper : ChatChunkShaper) (idBase : Text) (choice : List (Text × Json)) :
    ChatChunkShaper × List (Text × Json) :=
  let text := (Entries.get "text".toList choice).getD (.string [])
  let choice := Entries.swapRemove "text".toList choice
  let finishing := (Entries.get "finish_reason".toList choice).any fun reason => !reason.isNull
  let delta : List (Text × Json) :=
    if shaper.roleSent then [] else [("role".toList, .string "assistant".toList)]
  let shaper := { shaper with roleSent := true }
  let (tools, text, calls) :=
    match shaper.tools with
    | none => (none, text, none)
    | some filter =>
        let (filter, shown, calls) := filterText json filter (text.asStr.getD []) finishing
        (some filter, .string shown, calls)
  let (delta, choice) :=
    match calls with
    | none => (delta, choice)
    | some calls =>
        (Entries.insert "tool_calls".toList (toolCallValues calls idBase true) delta,
          Entries.insert "finish_reason".toList (.string "tool_calls".toList) choice)
  let delta :=
    if finishing && text.asStr.any List.isEmpty then delta
    else Entries.insert "content".toList text delta
  ({ shaper with tools }, Entries.insert "delta".toList (.object delta) choice)

def shapeChoices (shaper : ChatChunkShaper) (idBase : Text) :
    List Json → ChatChunkShaper × List Json
  | [] => (shaper, [])
  | .object choice :: rest =>
      let (shaper, choice) := shaper.shapeChoice json idBase choice
      let (shaper, rest) := shaper.shapeChoices idBase rest
      (shaper, .object choice :: rest)
  | other :: rest =>
      let (shaper, rest) := shaper.shapeChoices idBase rest
      (shaper, other :: rest)

def shapeChunk (shaper : ChatChunkShaper) (chunk : List (Text × Json)) :
    ChatChunkShaper × List (Text × Json) :=
  let chunk := Entries.insert "object".toList (.string chatChunkObject) chunk
  let idBase := ((Entries.get "id".toList chunk).bind Json.asStr).getD []
  match Entries.get "choices".toList chunk with
  | some (.array choices) =>
      let (shaper, choices) := shaper.shapeChoices json idBase choices
      (shaper, Entries.insert "choices".toList (.array choices) chunk)
  | some _ => (shaper, chunk)
  | none => (shaper, Entries.insert "choices".toList .null chunk)

/-- A frame of a stream around its payload. -/
def dataFrame (payload : Text) : Text := "data: ".toList ++ payload ++ "\n\n".toList

/-- The chat form of a frame; a frame that holds no chunk of a completion passes as is. -/
def shapeFrame (shaper : ChatChunkShaper) (frame : Text) : ChatChunkShaper × Text :=
  let payload := (stripPrefix "data: ".toList frame).bind (stripSuffix "\n\n".toList)
  match payload.bind json.fromStr with
  | some (.object chunk) =>
      if (Entries.get "object".toList chunk).bind Json.asStr = some textCompletion then
        let (shaper, chunk) := shaper.shapeChunk json chunk
        (shaper, dataFrame ((Json.object chunk).compact))
      else (shaper, frame)
  | _ => (shaper, frame)

/-- The chat form of a stream of frames. -/
def shapeFrames (shaper : ChatChunkShaper) : List Text → ChatChunkShaper × List Text
  | [] => (shaper, [])
  | frame :: rest =>
      let (shaper, frame) := shaper.shapeFrame json frame
      let (shaper, rest) := shaper.shapeFrames rest
      (shaper, frame :: rest)

end ChatChunkShaper

end Riley.Server
