import Riley.TensorParallel.Executor

/-!
A leader and its followers. The leader hands the rows of an iteration to every
follower, runs the iteration itself and collects a reply from each; a follower takes
what is in its inbox whenever it gets to run, and its thread may stop at any moment.
Both channels of a follower hold one message. An iteration is known by its number.
-/

namespace Riley.TensorParallel

structure Reply where
  call : Nat
  error : Option LlamaBatchExecutorError
  deriving DecidableEq, Repr

structure Follower where
  executor : Executor
  /-- Whether the thread still holds its ends of the channels. -/
  alive : Bool
  inbox : Option Nat
  /-- The result of an iteration that is not sent yet. -/
  replying : Option Reply
  outbox : Option Reply
  deriving DecidableEq, Repr

/-- What the leader waits for the replies for. -/
inductive Purpose
  | finishing (run : DeviceRun)
  | closing

inductive Phase
  | idle
  | dispatching (next : Nat)
  | running
  | waiting (purpose : Purpose) (next : Nat) (firstError : Option LlamaBatchExecutorError)
  | closed

structure Group where
  leader : Executor
  followers : List Follower
  /-- The replies that are still to be read. -/
  pending : Nat
  phase : Phase
  /-- The number of the last iteration that was begun. -/
  call : Nat

inductive Action
  /-- `execute` or `execute_greedy`, with the result of packing the rows. -/
  | execute (packs : Option LlamaBatchExecutorError)
  | dispatch
  | run (run : DeviceRun)
  | wait
  | finish
  | close
  | followerExecutes (index : Nat) (packs : Option LlamaBatchExecutorError) (run : DeviceRun)
  | followerReplies (index : Nat)
  | followerStops (index : Nat) (touch : Option Touch)

namespace Follower

def execute (follower : Follower) (packs : Option LlamaBatchExecutorError) (run : DeviceRun) :
    Option Follower :=
  match follower.alive, follower.replying, follower.inbox with
  | true, none, some call =>
      let (executor, error) := follower.executor.executeOutput call packs run
      some { follower with executor, inbox := none, replying := some ⟨call, error⟩ }
  | _, _, _ => none

def reply (follower : Follower) : Option Follower :=
  match follower.replying, follower.outbox with
  | some reply, none => some { follower with replying := none, outbox := some reply }
  | _, _ => none

/-- The thread ends: what it has not taken and what it has not sent is lost. Of an
iteration in its hands the device may have done some. -/
def stop (touch : Option Touch) (follower : Follower) : Option Follower :=
  if follower.alive then
    let done := follower.inbox.bind fun call => touch.map fun touch => (call, touch)
    let executor := { follower.executor with history := follower.executor.history ++ done.toList }
    some { follower with executor, alive := false, inbox := none, replying := none }
  else none

end Follower

namespace Group

/-- A change of one follower. -/
def withFollower (group : Group) (index : Nat) (change : Follower → Option Follower) :
    Option Group := do
  let follower ← group.followers[index]?
  let follower ← change follower
  some { group with followers := group.followers.set index follower }

/-- A call of the leader up to the dispatch. One that is refused changes nothing. -/
def beginExecute (group : Group) (packs : Option LlamaBatchExecutorError) : Group :=
  match group.leader.admission packs with
  | some _ => group
  | none => { group with phase := .dispatching 0, call := group.call + 1 }

/-- One turn of the dispatch loop: it waits for room in the inbox of the next follower. -/
def dispatchNext (group : Group) (next : Nat) : Option Group :=
  match group.followers[next]? with
  | none => some { group with phase := .running }
  | some follower =>
      if !follower.alive then
        some { group with leader := group.leader.poison, phase := .idle }
      else if follower.inbox.isSome then none
      else some
        { group with
          followers := group.followers.set next { follower with inbox := some group.call }
          pending := group.pending + 1
          phase := .dispatching (next + 1) }

/-- One turn of the loop that waits: it blocks until there is a reply or no thread. -/
def waitNext (group : Group) (purpose : Purpose) (next : Nat)
    (firstError : Option LlamaBatchExecutorError) : Option Group :=
  match group.pending, group.followers[next]? with
  | pending + 1, some follower =>
      match follower.outbox with
      | some reply =>
          let error := reply.error.map fun _ => followerFailed "a follower iteration failed"
          some
            { group with
              followers := group.followers.set next { follower with outbox := none }
              pending := pending
              phase := .waiting purpose (next + 1) (firstError.or error) }
      | none =>
          if follower.alive then none
          else
            let error := some (followerFailed "a follower thread has stopped")
            some
              { group with
                pending := pending
                phase := .waiting purpose (next + 1) (firstError.or error) }
  | _, _ => none

/-- The end of a call, or of the close, once no reply is to be read. -/
def conclude (group : Group) (purpose : Purpose) (next : Nat)
    (firstError : Option LlamaBatchExecutorError) : Option Group :=
  if group.pending = 0 ∨ group.followers.length ≤ next then
    match purpose with
    | .finishing run =>
        let (leader, _) := group.leader.conclude run.disposition run.error firstError
        some { group with leader, phase := .idle }
    | .closing => some { group with phase := .closed }
  else none

def step (group : Group) : Action → Option Group
  | .execute packs =>
      match group.phase with
      | .idle => some (group.beginExecute packs)
      | _ => none
  | .dispatch =>
      match group.phase with
      | .dispatching next => group.dispatchNext next
      | _ => none
  | .run run =>
      match group.phase with
      | .running =>
          some
            { group with
              leader := group.leader.ran group.call run
              phase := .waiting (.finishing run) 0 none }
      | _ => none
  | .wait =>
      match group.phase with
      | .waiting purpose next firstError => group.waitNext purpose next firstError
      | _ => none
  | .finish =>
      match group.phase with
      | .waiting purpose next firstError => group.conclude purpose next firstError
      | _ => none
  | .close =>
      match group.phase with
      | .idle => some { group with phase := .waiting .closing 0 none }
      | _ => none
  | .followerExecutes index packs run =>
      group.withFollower index fun follower => follower.execute packs run
  | .followerReplies index => group.withFollower index Follower.reply
  | .followerStops index touch => group.withFollower index (Follower.stop touch)

/-- The group behind a sequence of actions, each of which can be taken. -/
def runs (group : Group) : List Action → Option Group
  | [] => some group
  | action :: rest => do
      let group ← group.step action
      group.runs rest

/-- A group before its first iteration, with nothing under way. -/
structure Starts (group : Group) : Prop where
  phase : group.phase = .idle
  call : group.call = 0
  pending : group.pending = 0
  leader : group.leader.history = []
  followers : ∀ follower ∈ group.followers, follower.executor.history = [] ∧
    follower.inbox = none ∧ follower.replying = none ∧ follower.outbox = none

end Group

end Riley.TensorParallel
