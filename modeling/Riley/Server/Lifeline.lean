import Mathlib.Logic.Relation
import Riley.Server.Engine

/-!
One request between its submission and its end, apart from all others. This says what the
engine is to do about a request; that the engine does it is shown elsewhere.
-/

namespace Riley.Server

variable {F : Type}

namespace Occurrence

def accepted? : Occurrence F → Option (GenerationEvent F)
  | accepted event => some event
  | _ => none

def returned? : Occurrence F → Option (GenerationEvent F)
  | returned event => some event
  | _ => none

inductive Kind
  | dequeued
  | admitted
  | returned
  | accepted
  | abandoned
  | cancelling
  | removed
  | released
  deriving DecidableEq

def kind : Occurrence F → Kind
  | dequeued => .dequeued
  | admitted => .admitted
  | returned _ => .returned
  | accepted _ => .accepted
  | abandoned => .abandoned
  | cancelling => .cancelling
  | removed => .removed
  | released => .released

end Occurrence

/-- What the worker is in the middle of about the request. -/
inductive Task (F : Type)
  | send (event : GenerationEvent F)
  | finish (event : GenerationEvent F)
  | refused
  | storeTerminal

structure Lifeline (F : Type) where
  /-- Whether its number is taken. -/
  born : Bool
  cell : RequestState
  /-- Submissions of it that are counted as waiting. -/
  waiting : Nat
  held : Bool
  task : Option (Task F)
  /-- Staged events. -/
  queue : List (GenerationEvent F)
  /-- Returned events that are neither staged nor published yet. -/
  direct : List (GenerationEvent F)
  log : List (Occurrence F)

namespace Lifeline

def start : Lifeline F := ⟨false, .live, 0, false, none, [], [], []⟩

/-- The events that the stream took. -/
def sent (log : List (Occurrence F)) : List (GenerationEvent F) := log.filterMap Occurrence.accepted?

/-- The events that the backend returned, but for text of no character. -/
def produced (log : List (Occurrence F)) : List (GenerationEvent F) :=
  (log.filterMap Occurrence.returned?).filter (!·.isEmptyDelta)

/-- How often something has been done. -/
def times (log : List (Occurrence F)) (kind : Occurrence.Kind) : Nat :=
  log.countP (·.kind = kind)

def texts (events : List (GenerationEvent F)) : List (GenerationEvent F) :=
  events.filter (!·.isTerminal)

inductive Step : Lifeline F → Lifeline F → Prop
  | register (line : Lifeline F) (hborn : line.born = false) :
      Step line { line with born := true, waiting := line.waiting + 1 }
  | withdraw (line : Lifeline F) : Step line { line with waiting := line.waiting - 1 }
  | dequeue (line : Lifeline F) (hwaiting : 0 < line.waiting) :
      Step line { line with waiting := line.waiting - 1, log := line.log ++ [.dequeued] }
  | enter (line : Lifeline F) (hwaiting : 0 < line.waiting) (hcell : line.cell = .live)
      (htask : line.task = none) (hdirect : line.direct = []) :
      Step line { line with
        waiting := line.waiting - 1
        held := true
        log := line.log ++ [.dequeued, .admitted] }
  | abandon (line : Lifeline F) (hborn : line.born = true) :
      Step line { line with cell := .cancelled, log := line.log ++ [.abandoned] }
  /-- The worker turns to a cancellation. -/
  | process (line : Lifeline F) (hcell : line.cell = .cancelled) (htask : line.task = none) :
      Step line { line with cell := .cancelling, log := line.log ++ [.cancelling] }
  | returns (line : Lifeline F) (events : List (GenerationEvent F)) (hheld : line.held = true)
      (hdirect : line.direct = []) :
      Step line { line with
        direct := events.filter (!·.isEmptyDelta)
        log := line.log ++ events.map .returned }
  /-- The backend returns events of a cancellation, before others that wait. -/
  | returnsFirst (line : Lifeline F) (events : List (GenerationEvent F)) (hheld : line.held = true)
      (hcell : line.cell ≠ .live) (htask : line.task = none) :
      Step line { line with
        direct := events.filter (!·.isEmptyDelta) ++ line.direct
        log := line.log ++ events.map .returned }
  /-- The backend returns events of a request that is not held. -/
  | ignores (line : Lifeline F) (direct : List (GenerationEvent F)) (hheld : line.held = false)
      : Step line { line with direct }
  | publish (line : Lifeline F) (event : GenerationEvent F) (rest : List (GenerationEvent F))
      (htask : line.task = none) (hdirect : line.direct = event :: rest)
      (hheld : line.held = true) (hevent : event.isTerminal = false)
      (hcell : line.cell ≠ .cancelled ∧ line.cell ≠ .cancelling)
      (hqueue : line.cell = .live → line.queue = []) :
      Step line { line with task := some (.send event), direct := rest }
  | publishLast (line : Lifeline F) (event : GenerationEvent F) (rest : List (GenerationEvent F))
      (htask : line.task = none) (hdirect : line.direct = event :: rest)
      (hheld : line.held = true) (hevent : event.isTerminal = true)
      (hqueue : line.cell = .live → line.queue = []) :
      Step line { line with
        held := false
        task := some (.finish event)
        direct := rest
        log := line.log ++ [.removed] }
  | stage (line : Lifeline F) (event : GenerationEvent F) (rest : List (GenerationEvent F))
      (htask : line.task = none) (hdirect : line.direct = event :: rest)
      (hheld : line.held = true) (hevent : event.isTerminal = false) :
      Step line { line with queue := line.queue ++ [event], direct := rest }
  | stageLast (line : Lifeline F) (event : GenerationEvent F) (rest : List (GenerationEvent F))
      (htask : line.task = none) (hdirect : line.direct = event :: rest)
      (hheld : line.held = true) (hevent : event.isTerminal = true) :
      Step line { line with
        held := false
        queue := line.queue ++ [event]
        direct := rest
        log := line.log ++ [.removed] }
  | skip (line : Lifeline F) (event : GenerationEvent F) (rest : List (GenerationEvent F))
      (htask : line.task = none) (hdirect : line.direct = event :: rest)
      (hlost : line.held = false ∨ line.cell ≠ .live) :
      Step line { line with direct := rest }
  | deliver (line : Lifeline F) (event : GenerationEvent F) (rest : List (GenerationEvent F))
      (htask : line.task = none) (hqueue : line.queue = event :: rest)
      (hevent : event.isTerminal = false) (hcell : line.cell = .live) :
      Step line { line with task := some (.send event), queue := rest }
  | deliverLast (line : Lifeline F) (event : GenerationEvent F) (rest : List (GenerationEvent F))
      (htask : line.task = none) (hqueue : line.queue = event :: rest)
      (hevent : event.isTerminal = true) :
      Step line { line with task := some (.finish event), queue := rest }
  | deliverSkip (line : Lifeline F) (event : GenerationEvent F) (rest : List (GenerationEvent F))
      (htask : line.task = none) (hqueue : line.queue = event :: rest)
      (hevent : event.isTerminal = false) (hcell : line.cell ≠ .live) :
      Step line { line with queue := rest }
  | accept (line : Lifeline F) (event : GenerationEvent F) (htask : line.task = some (.send event)) :
      Step line { line with task := none, log := line.log ++ [.accepted event] }
  | refuse (line : Lifeline F) (event : GenerationEvent F) (htask : line.task = some (.send event)) :
      Step line { line with task := some .refused }
  | cancelRefused (line : Lifeline F) (htask : line.task = some .refused)
      (hcell : line.cell = .live) :
      Step line { line with
        cell := .cancelling
        task := none
        log := line.log ++ [.cancelling] }
  | leaveRefused (line : Lifeline F) (htask : line.task = some .refused)
      (hcell : line.cell ≠ .live) : Step line { line with task := none }
  | finish (line : Lifeline F) (event : GenerationEvent F)
      (htask : line.task = some (.finish event)) :
      Step line { line with task := some .storeTerminal, log := line.log ++ [.accepted event] }
  | finishRefused (line : Lifeline F) (event : GenerationEvent F)
      (htask : line.task = some (.finish event)) :
      Step line { line with task := some .storeTerminal }
  | storeTerminal (line : Lifeline F) (htask : line.task = some .storeTerminal) :
      Step line { line with
        cell := .terminal
        task := none
        log := line.log ++ [.released] }
  | fail (line : Lifeline F) (errorClass : ServiceErrorClass) (htask : line.task = none)
      (hheld : line.held = true) :
      Step line { line with
        held := false
        task := some (.finish (.failed errorClass))
        log := line.log ++ [.removed] }

/-- What the steps of the engine do about the request. -/
abbrev Steps : Lifeline F → Lifeline F → Prop := Relation.ReflTransGen Step

end Lifeline

end Riley.Server
