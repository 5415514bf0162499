import Mathlib.Data.List.Sort
import Mathlib.Logic.Function.Basic
import Riley.Server.Domain

/-!
The worker of the inference engine and its clients, step by step. A step of the worker does
one operation on what it shares with the clients, and the clients may act between any two
of them. What the backend answers is an input of a step.
-/

namespace Riley.Server

/-- The cancellation word of a request, which its client and the worker share. -/
inductive RequestState
  | live
  | cancelled
  | terminal
  | cancelling
  deriving DecidableEq, Repr

inductive Lifecycle
  | ready
  | draining
  | stopped
  | failed
  deriving DecidableEq, Repr

inductive EngineError
  | overloaded
  | invalidRequest
  | timeout
  | shuttingDown
  | workerUnavailable
  | internal
  deriving DecidableEq, Repr

inductive Command
  | submit (request : Nat)
  | metrics
  | wake
  deriving DecidableEq, Repr

structure EngineConfig where
  commandQueueCapacity : Nat
  eventChannelCapacity : Nat
  maxInflightRequests : Nat
  /-- Publish the events of an iteration after the next one has been submitted. -/
  publishAfterSubmit : Bool
  deriving DecidableEq, Repr

structure BackendEvent (F : Type) where
  request : Nat
  event : GenerationEvent F

namespace GenerationEvent

variable {F : Type}

def isTerminal : GenerationEvent F → Bool
  | .finished _ _ | .failed _ => true
  | _ => false

/-- Text of no character, which is not published. -/
def isEmptyDelta : GenerationEvent F → Bool
  | .tokenDelta text => text.isEmpty
  | _ => false

end GenerationEvent

/-- The stream of events of a request, as the worker sees it. -/
structure EventChannel where
  unread : Nat
  connected : Bool

/-- What has been done about a request, oldest first. -/
inductive Occurrence (F : Type)
  /-- Its command was taken, and no longer counts as waiting. -/
  | dequeued
  | admitted
  /-- The backend returned an event of a request in the map. -/
  | returned (event : GenerationEvent F)
  /-- The stream took an event. -/
  | accepted (event : GenerationEvent F)
  /-- Its client has cancelled it. -/
  | abandoned
  /-- The worker turns to its cancellation. -/
  | cancelling
  | removed
  /-- Its control block was dropped, and it no longer counts as active. -/
  | released

/-- An operation that a loop of the worker is in the middle of. -/
inductive Operation (F : Type)
  | send (request : Nat) (event : GenerationEvent F)
  /-- The last event of a request whose control block has left the map. -/
  | finish (request : Nat) (event : GenerationEvent F)
  /-- The stream did not take an event. -/
  | refused (request : Nat)
  | storeTerminal (request : Nat)

/-- A call of the worker, with what is left of its loop. -/
inductive Frame (F : Type)
  /-- The first loop of `publish_events`. -/
  | publish (events : List (BackendEvent F)) (cancelAfterPublish : List Nat)
  | cancelAfterPublish (requests : List Nat)
  | deliver (staged : List (BackendEvent F))
  /-- `flush_staged_events` behind the delivery. -/
  | flush
  | cancelSlow (requests : List Nat)
  /-- The scan of `process_cancellations`. -/
  | scan (requests cancelled : List Nat)
  | cancelEach (requests : List Nat)
  | failRemaining (errorClass : ServiceErrorClass)
  /-- A failure of the backend has been reported. -/
  | drain

/-- Where the loop of `worker_main` stands. -/
inductive Phase (F : Type)
  | loop
  /-- Cancellations have been processed. -/
  | checked
  | commands (received : Bool)
  /-- A command and then the cancellations have been processed. -/
  | commanded
  | iterate (received : Bool)
  /-- In `backend.step()`. -/
  | stepping
  | stepped (result : Except ServiceErrorClass (List (BackendEvent F)))
  | idle
  | reject
  | shutdown
  | finish
  /-- The worker has returned, and its end of the queue is dropped next. -/
  | stopped
  | gone

structure Engine (F : Type) where
  lifecycle : Lifecycle
  commands : List Command
  cell : Nat → RequestState
  channel : Nat → EventChannel
  answer : Nat → Option (Except EngineError Unit)
  waitingRequests : Int
  activeRequests : Int
  nextRequest : Nat
  /-- Submissions that are counted and not in the queue yet. -/
  registered : List Nat
  /-- Whether some client can still send a command. -/
  clients : Bool
  /-- The map of the worker, by its keys. -/
  requests : List Nat
  staged : List (BackendEvent F)
  slowConsumers : List Nat
  hasFailed : Bool
  operation : Option (Operation F)
  frames : List (Frame F)
  phase : Phase F
  log : Nat → List (Occurrence F)

/-- What the backend does in a step of the worker that asks it. -/
structure Reply (F : Type) where
  /-- Whether the iteration submits its work now rather than returning. -/
  submits : Bool
  result : Except ServiceErrorClass (List (BackendEvent F))
  /-- The events of the request that is cancelled. -/
  cancelled : Except ServiceErrorClass (List (GenerationEvent F))
  isIdle : Bool
  supported : Bool
  admission : Except ServiceErrorClass Unit

namespace Engine

variable {F : Type}

def start : Engine F where
  lifecycle := .ready
  commands := []
  cell := fun _ => .live
  channel := fun _ => ⟨0, true⟩
  answer := fun _ => none
  waitingRequests := 0
  activeRequests := 0
  nextRequest := 1
  registered := []
  clients := true
  requests := []
  staged := []
  slowConsumers := []
  hasFailed := false
  operation := none
  frames := []
  phase := .loop
  log := fun _ => []

def note (engine : Engine F) (request : Nat) (occurrence : Occurrence F) : Engine F :=
  { engine with log := Function.update engine.log request (engine.log request ++ [occurrence]) }

def setCell (engine : Engine F) (request : Nat) (state : RequestState) : Engine F :=
  { engine with cell := Function.update engine.cell request state }

/-- The control block of a request leaves the map. -/
def remove (engine : Engine F) (request : Nat) : Engine F :=
  { engine with requests := engine.requests.erase request }.note request .removed

/-- The backend has returned events. -/
def noteReturned (engine : Engine F) (events : List (BackendEvent F)) : Engine F :=
  events.foldl (fun engine one =>
    if one.request ∈ engine.requests then engine.note one.request (.returned one.event)
    else engine) engine

def noteResult (engine : Engine F) : Except ServiceErrorClass (List (BackendEvent F)) → Engine F
  | .ok events => engine.noteReturned events
  | .error _ => engine

section Publication

/-- The stream takes an event if it is there and not full. -/
def trySend (config : EngineConfig) (engine : Engine F) (request : Nat)
    (event : GenerationEvent F) : Option (Engine F) :=
  let channel := engine.channel request
  if channel.connected ∧ channel.unread < config.eventChannelCapacity then
    let channel := { channel with unread := channel.unread + 1 }
    some ({ engine with
      channel := Function.update engine.channel request channel }.note request (.accepted event))
  else none

/-- One event in `publish_events`. The control block of a terminal event is taken out of the
map before it is sent and not after it, which only the worker could tell. -/
def publishOne (engine : Engine F) (one : BackendEvent F) : Engine F :=
  let state := engine.cell one.request
  if one.request ∉ engine.requests then engine
  else if one.event.isTerminal then
    { engine.remove one.request with operation := some (.finish one.request one.event) }
  else if state = .cancelled ∨ state = .cancelling then engine
  else if one.event.isEmptyDelta then engine
  else { engine with operation := some (.send one.request one.event) }

/-- One event in `stage_events`. The event is terminal where the staged one has a control
block. -/
def stageOne (engine : Engine F) (one : BackendEvent F) : Engine F :=
  if one.event.isEmptyDelta then engine
  else if one.request ∉ engine.requests then engine
  else
    let staged := { engine with staged := engine.staged ++ [one] }
    if one.event.isTerminal then staged.remove one.request else staged

def stageEvents (engine : Engine F) (events : List (BackendEvent F)) : Engine F :=
  events.foldl stageOne engine

/-- One event in `deliver_staged_events`. -/
def deliverOne (engine : Engine F) (one : BackendEvent F) : Engine F :=
  if one.event.isTerminal then
    { engine with operation := some (.finish one.request one.event) }
  else if engine.cell one.request ≠ .live then engine
  else { engine with operation := some (.send one.request one.event) }

/-- `deliver_staged_events` takes what is staged. -/
def deliverStaged (engine : Engine F) (after : List (Frame F)) : Engine F :=
  { engine with staged := [], frames := .deliver engine.staged :: after ++ engine.frames }

def flushStaged (engine : Engine F) : Engine F := engine.deliverStaged [.flush]

/-- A request whose stream refused an event is to be cancelled by the loop that sent it. -/
def refuse (engine : Engine F) (request : Nat) : Engine F :=
  match engine.frames with
  | .publish events after :: frames =>
      { engine with frames := .publish events (after ++ [request]) :: frames }
  | _ => { engine with slowConsumers := engine.slowConsumers ++ [request] }

def operate (config : EngineConfig) (engine : Engine F) : Operation F → Engine F
  | .send request event =>
      match trySend config engine request event with
      | some sent => sent
      | none => { engine with operation := some (.refused request) }
  | .finish request event =>
      { (trySend config engine request event).getD engine with
        operation := some (.storeTerminal request) }
  | .refused request =>
      if engine.cell request = .live then
        ((engine.setCell request .cancelling).note request .cancelling).refuse request
      else engine
  | .storeTerminal request =>
      { engine.setCell request .terminal with
        activeRequests := engine.activeRequests - 1 }.note request .released

/-- A request whose cancellation failed is failed alone. -/
def failRequest (engine : Engine F) (request : Nat) (errorClass : ServiceErrorClass) : Engine F :=
  if request ∈ engine.requests then
    { engine.remove request with operation := some (.finish request (.failed errorClass)) }
  else engine

/-- The events of a cancellation are published before the loop goes on. -/
def publishCancelled (engine : Engine F) (request : Nat) (events : List (GenerationEvent F)) :
    Engine F :=
  let events := events.map (BackendEvent.mk request)
  let engine := engine.noteReturned events
  { engine with frames := .publish events [] :: engine.frames }

/-- `backend.cancel` for a request whose stream could not take a token. -/
def cancelSlowConsumer (engine : Engine F) (reply : Reply F) (request : Nat) : Engine F :=
  match reply.cancelled with
  | .ok events => engine.publishCancelled request events
  | .error errorClass => engine.failRequest request errorClass

/-- The next step of a call, which has been taken off the frames. -/
def advance (engine : Engine F) (reply : Reply F) : Frame F → Engine F
  | .publish [] after =>
      { engine with frames := .cancelAfterPublish after :: engine.frames }
  | .publish (one :: events) after =>
      { engine with frames := .publish events after :: engine.frames }.publishOne one
  | .cancelAfterPublish [] => engine
  | .cancelAfterPublish (request :: requests) =>
      { engine with frames := .cancelAfterPublish requests :: engine.frames }.cancelSlowConsumer
        reply request
  | .deliver [] => engine
  | .deliver (one :: staged) =>
      { engine with frames := .deliver staged :: engine.frames }.deliverOne one
  | .flush =>
      { engine with
        slowConsumers := []
        frames := .cancelSlow engine.slowConsumers :: engine.frames }
  | .cancelSlow [] => engine
  | .cancelSlow (request :: requests) =>
      let engine := { engine with frames := .cancelSlow requests :: engine.frames }
      if request ∈ engine.requests then engine.cancelSlowConsumer reply request else engine
  | .scan [] cancelled => { engine with frames := .cancelEach cancelled :: engine.frames }
  | .scan (request :: requests) cancelled =>
      if engine.cell request = .cancelled then
        { engine with frames := .scan requests (cancelled ++ [request]) :: engine.frames }.setCell
          request .cancelling |>.note request .cancelling
      else { engine with frames := .scan requests cancelled :: engine.frames }
  | .cancelEach [] => engine
  | .cancelEach (request :: requests) =>
      match reply.cancelled with
      | .ok events =>
          { engine with frames := .cancelEach requests :: engine.frames }.publishCancelled
            request events
      | .error errorClass =>
          { engine with frames := .failRemaining errorClass :: .drain :: engine.frames }
  | .failRemaining errorClass =>
      match engine.requests with
      | [] => engine
      | request :: _ =>
          { engine with frames := .failRemaining errorClass :: engine.frames }.failRequest
            request errorClass
  | .drain => { engine with hasFailed := true, lifecycle := .draining }

end Publication

section Worker

def processCancellations (engine : Engine F) : Engine F :=
  { engine with frames := .scan engine.requests [] :: engine.frames }

def respond (engine : Engine F) (request : Nat) (answer : Except EngineError Unit) : Engine F :=
  { engine with answer := Function.update engine.answer request (some answer) }

/-- The public error of a failed admission. -/
def admissionError : ServiceErrorClass → EngineError
  | .overloaded => .overloaded
  | .timeout | .cancelled => .timeout
  | .shuttingDown => .shuttingDown
  | .invalidRequest => .invalidRequest
  | .internal => .internal

/-- A submission stops counting as waiting. -/
def dequeue (engine : Engine F) (request : Nat) : Engine F :=
  { engine with waitingRequests := engine.waitingRequests - 1 }.note request .dequeued

def admitRequest (engine : Engine F) (request : Nat) : Engine F :=
  { engine with
    requests := engine.requests.orderedInsert (· ≤ ·) request
    activeRequests := engine.activeRequests + 1 }.note request .admitted

def processSubmit (config : EngineConfig) (engine : Engine F) (reply : Reply F) (request : Nat) :
    Engine F :=
  let engine := engine.dequeue request
  if engine.lifecycle ≠ .ready then engine.respond request (.error .shuttingDown)
  else if engine.cell request ≠ .live then engine.respond request (.error .timeout)
  else if config.maxInflightRequests ≤ engine.requests.length then
    engine.respond request (.error .overloaded)
  else if !reply.supported then engine.respond request (.error .invalidRequest)
  else
    match reply.admission with
    | .ok () => (engine.admitRequest request).respond request (.ok ())
    | .error errorClass => engine.respond request (.error (admissionError errorClass))

def processCommand (config : EngineConfig) (engine : Engine F) (reply : Reply F) :
    Command → Engine F
  | .submit request => engine.processSubmit config reply request
  | _ => engine

/-- A step of the loop of `worker_main`, when no call is left. -/
def iteration (config : EngineConfig) (reply : Reply F) (engine : Engine F) : Engine F :=
  match engine.phase with
  | .loop =>
      if engine.lifecycle = .draining then
        let engine := { engine with phase := .reject }
        if config.publishAfterSubmit then engine.flushStaged else engine
      else { engine with phase := .checked }.processCancellations
  | .checked =>
      if engine.hasFailed then { engine with lifecycle := .draining, phase := .loop }
      else { engine with phase := .commands false }
  | .commands received =>
      match engine.commands with
      | command :: commands =>
          ({ engine with commands, phase := .commanded }.processCommand config reply
            command).processCancellations
      | [] =>
          if engine.clients then { engine with phase := .iterate received }
          else { engine with lifecycle := .draining, phase := .loop }
  | .commanded =>
      if engine.hasFailed ∨ engine.lifecycle = .draining then { engine with phase := .loop }
      else { engine with phase := .commands true }
  | .iterate received =>
      if engine.hasFailed ∨ engine.lifecycle = .draining then { engine with phase := .loop }
      else if !reply.isIdle then { engine with phase := .stepping }
      else if received then { engine with phase := .loop }
      else { engine with phase := .idle }
  | .stepping =>
      if reply.submits then
        -- The hook is installed only for this configuration.
        if config.publishAfterSubmit then engine.deliverStaged [] else engine
      else
        let engine := { engine.noteResult reply.result with phase := .stepped reply.result }
        if config.publishAfterSubmit then engine.flushStaged else engine
  | .stepped (.ok events) =>
      let engine := { engine with phase := .loop }
      if config.publishAfterSubmit then
        let engine := engine.stageEvents events
        if reply.isIdle then engine.flushStaged else engine
      else { engine with frames := .publish events [] :: engine.frames }
  | .stepped (.error errorClass) =>
      { engine with
        phase := .loop
        frames := .failRemaining errorClass :: .drain :: engine.frames }
  | .idle =>
      let engine := { engine with phase := .loop }
      match engine.commands with
      | command :: commands =>
          { engine with commands }.processCommand config reply command
      | [] => if engine.clients then engine else { engine with lifecycle := .draining }
  | .reject =>
      match engine.commands with
      | .submit request :: commands =>
          ({ engine with commands }.dequeue request).respond request (.error .shuttingDown)
      | _ :: commands => { engine with commands }
      | [] => { engine with phase := .shutdown }
  | .shutdown =>
      match reply.result with
      | .ok events =>
          let engine := { engine.noteReturned events with phase := .finish }
          let errorClass := if engine.hasFailed then .internal else .shuttingDown
          { engine with
            frames := .publish events [] :: .failRemaining errorClass :: engine.frames }
      | .error _ =>
          { engine with
            hasFailed := true
            phase := .finish
            frames := .failRemaining .internal :: engine.frames }
  | .finish =>
      { engine with
        waitingRequests := 0
        lifecycle := if engine.hasFailed then .failed else .stopped
        phase := .stopped }
  | .stopped => { engine with commands := [], phase := .gone }
  | .gone => engine

def work (config : EngineConfig) (engine : Engine F) (reply : Reply F) : Engine F :=
  match engine.operation with
  | some operation => { engine with operation := none }.operate config operation
  | none =>
      match engine.frames with
      | frame :: frames => { engine with frames }.advance reply frame
      | [] => engine.iteration config reply

end Worker

section Clients

/-- What a client does in one step. Each may come at any moment, also where a client that
waits for an answer or has dropped its handle would not come to it. -/
inductive ClientAction
  /-- A submission that has found the engine ready takes its number and is counted. -/
  | register
  | enqueue (request : Nat)
  /-- No answer has come in time. -/
  | giveUp (request : Nat)
  | cancel (request : Nat)
  | receive (request : Nat)
  | disconnect (request : Nat)
  | wake
  | metrics
  | beginShutdown
  /-- The last sender of commands is dropped. -/
  | leave

/-- `try_send` of a command. -/
def sendCommand (config : EngineConfig) (engine : Engine F) (command : Command) :
    Option (Engine F) :=
  match engine.phase with
  | .gone => none
  | _ =>
      if engine.clients ∧ engine.commands.length < config.commandQueueCapacity then
        some { engine with commands := engine.commands ++ [command] }
      else none

def act (config : EngineConfig) (engine : Engine F) : ClientAction → Engine F
  | .register =>
      { engine with
        nextRequest := engine.nextRequest + 1
        registered := engine.nextRequest :: engine.registered
        waitingRequests := engine.waitingRequests + 1 }
  | .enqueue request =>
      if request ∈ engine.registered then
        let engine := { engine with registered := engine.registered.erase request }
        match sendCommand config engine (.submit request) with
        | some sent => sent
        | none => { engine with waitingRequests := engine.waitingRequests - 1 }
      else engine
  | .giveUp request =>
      if request < engine.nextRequest then
        (engine.setCell request .cancelled).note request .abandoned
      else engine
  | .cancel request =>
      if request < engine.nextRequest ∧ engine.cell request = .live then
        (engine.setCell request .cancelled).note request .abandoned
      else engine
  | .receive request =>
      { engine with
        channel := Function.update engine.channel request
          { engine.channel request with unread := (engine.channel request).unread - 1 } }
  | .disconnect request =>
      { engine with
        channel := Function.update engine.channel request
          { engine.channel request with connected := false } }
  | .wake => (sendCommand config engine .wake).getD engine
  | .metrics => (sendCommand config engine .metrics).getD engine
  | .beginShutdown =>
      if engine.lifecycle = .ready then { engine with lifecycle := .draining } else engine
  | .leave => { engine with clients := false }

end Clients

section Runs

inductive Move (F : Type)
  | client (action : ClientAction)
  | worker (reply : Reply F)

def move (config : EngineConfig) (engine : Engine F) : Move F → Engine F
  | .client action => engine.act config action
  | .worker reply => engine.work config reply

/-- Any interleaving of the clients and the worker. -/
def run (config : EngineConfig) (moves : List (Move F)) : Engine F :=
  moves.foldl (move config) start

end Runs

end Engine

end Riley.Server
