import Riley.Server.EngineCounters

/-!
What a client gets over any interleaving of the clients and the worker, with the events of an
iteration published at once or staged until the next one has been submitted.
-/

namespace Riley.Server
variable {F : Type}
namespace Engine
open Lifeline

section Reachable

/-- What holds of the engine in every state. -/
structure Reached (config : EngineConfig) (engine : Engine F) : Prop where
  valid : engine.Valid config
  sound : ∀ request, (engine.lifeline request).Sound
  counted : engine.Counted

variable {config : EngineConfig} {engine : Engine F}

theorem reached_start : Reached config (start : Engine F) where
  valid := by constructor <;> simp [start]
  sound := fun request => sound_start (Nat.blt request 1)
  counted := counted_start

theorem Reached.move (h : Reached config engine) (move : Move F) :
    Reached config (engine.move config move) where
  valid := by
    cases move with
    | client action => exact act_valid h.valid action
    | worker reply => exact work_valid h.valid h.sound reply
  sound := fun request => (move_steps h.valid move request).sound (h.sound request)
  counted := by
    cases move with
    | client action => exact act_counted h.counted h.sound action
    | worker reply => exact work_counted h.counted h.sound reply

theorem reached_run (moves : List (Move F)) : Reached config (run config moves) := by
  have hrun : ∀ engine : Engine F, Reached config engine →
      Reached config (moves.foldl (Engine.move config) engine) := by
    induction moves with
    | nil => exact fun _ => id
    | cons move moves ih => exact fun engine h => ih _ (h.move move)
  exact hrun start reached_start

end Reachable

section Publication

/-- What the client of a request gets, and what becomes of the request. -/
structure Publishes (engine : Engine F) (request : Nat) : Prop where
  /-- The stream took the first texts that the backend returned, each once and in order. -/
  texts : texts (sent (engine.log request)) <+: texts (produced (engine.log request))
  /-- Nothing follows a last event. -/
  ordered : Ordered (engine.log request)
  /-- No text is sent after the worker has turned to the cancellation. -/
  quiet : Quiet (engine.log request)
  /-- It is counted as waiting until its command is taken, and never again. -/
  dequeued : engine.registered.count request + engine.commands.count (.submit request) +
    times (engine.log request) .dequeued ≤ 1
  admitted : times (engine.log request) .admitted ≤ times (engine.log request) .dequeued
  /-- It leaves the map once. -/
  removed : engine.requests.count request + times (engine.log request) .removed =
    times (engine.log request) .admitted
  /-- It is counted as active until after it has left the map. -/
  released : times (engine.log request) .released ≤ times (engine.log request) .removed
  returned : engine.phase.returned = true →
    times (engine.log request) .removed = times (engine.log request) .admitted ∧
      times (engine.log request) .released = times (engine.log request) .admitted
  /-- While it is live, what waits to be published or delivered follows what was sent. -/
  account : (engine.lifeline request).Streaming → (engine.lifeline request).Account
  /-- Nothing is missing before the end of a request that nobody has cancelled. -/
  complete : Untouched (engine.log request) → Complete (engine.log request)

/-- The gauges of the engine count the requests that they are about. -/
structure Gauges (engine : Engine F) : Prop where
  active : engine.activeRequests = ∑ request ∈ Finset.range engine.nextRequest,
    ((times (engine.log request) .admitted : Int) - times (engine.log request) .released)
  waiting : engine.phase.returned = false →
    engine.waitingRequests = engine.registered.length + engine.commands.countP Command.isSubmit

variable {config : EngineConfig} {engine : Engine F}

theorem count_requests (hnodup : engine.requests.Nodup) (request : Nat) :
    engine.requests.count request = (engine.holds request).toNat := by
  cases hheld : engine.holds request with
  | true => exact List.count_eq_one_of_mem hnodup (holds_iff.mp hheld)
  | false => exact List.count_eq_zero_of_not_mem (not_holds.mp hheld)

theorem settled_of_returned {phase : Phase F} (h : phase.returned = true) : phase.settled = true := by
  cases phase <;> simp_all [Phase.returned, Phase.settled]

theorem Reached.publishes (h : Reached config engine) (request : Nat) :
    engine.Publishes request := by
  have hsound := h.sound request
  obtain ⟨hdequeued, hadmitted, hremoved, hcontrol⟩ := hsound.counts
  constructor
  · exact hsound.faithful
  · exact hsound.ordered
  · exact hsound.quiet
  · exact hdequeued
  · exact hadmitted
  · rw [count_requests h.valid.nodup]
    exact hremoved
  · change times (engine.lifeline request).log .released ≤
      times (engine.lifeline request).log .removed
    omega
  · intro hreturned
    obtain ⟨hnone, hframes, hoperation⟩ := h.counted.closed hreturned
    have hstaged := h.valid.settled (settled_of_returned hreturned)
    have hheld : (engine.lifeline request).held = false := by simp [lifeline, holds, hnone]
    have hqueue : (engine.lifeline request).queue = [] := by
      simp [lifeline, hframes, hstaged, eventsFor]
    have htask : (engine.lifeline request).task = none := by simp [lifeline, hoperation]
    rw [hheld, Bool.toNat_false, hqueue, List.countP_nil, htask, controls_none] at hcontrol
    rw [hheld, Bool.toNat_false] at hremoved
    change times (engine.lifeline request).log .removed = times (engine.lifeline request).log .admitted ∧
      times (engine.lifeline request).log .released = times (engine.lifeline request).log .admitted
    omega
  · exact hsound.account
  · exact fun huntouched => (hsound.whole huntouched).complete

theorem Reached.gauges (h : Reached config engine) : engine.Gauges :=
  ⟨h.counted.active, h.counted.waiting⟩

/-- The stream of a request ends with its own last event. -/
def Finished (log : List (Occurrence F)) : Prop := ∃ reason usage, .finished reason usage ∈ sent log

/-- A stream that ends well is all of what the backend returned up to its end. -/
theorem Finished.sent_prefix {log : List (Occurrence F)} (h : Finished log) (hordered : Ordered log)
    (hcomplete : Complete log) : sent log <+: produced log := by
  obtain ⟨reason, usage, hmem⟩ := h
  rcases hcomplete with hsent | ⟨whole, errorClass, hsent, _⟩
  · exact hsent
  · unfold Ordered at hordered
    rw [hsent, List.pairwise_append] at hordered
    rw [hsent] at hmem
    rcases List.mem_append.mp hmem with hmem | hmem
    · cases hordered.2.2 _ hmem _ List.mem_cons_self
    · cases List.mem_singleton.mp hmem

/-- A stream that has ended is not the beginning of a longer one. -/
theorem Finished.eq_of_prefix {log log' : List (Occurrence F)} (h : Finished log)
    (hordered : Ordered log') (hfirst : sent log <+: sent log') : sent log = sent log' := by
  obtain ⟨reason, usage, hmem⟩ := h
  obtain ⟨rest, hrest⟩ := hfirst
  unfold Ordered at hordered
  rw [← hrest, List.pairwise_append] at hordered
  cases rest with
  | nil => rw [← hrest, List.append_nil]
  | cons event rest => cases hordered.2.2 _ hmem event List.mem_cons_self

/-- Over any interleaving, with the events of an iteration staged or published at once. Where the
backend returns the same for a request in two runs, the texts of one stream begin those of the
other, and the streams are the same when both end well and nobody has cancelled. -/
theorem run_publishes (config : EngineConfig) (moves : List (Move F)) (request : Nat) :
    (run config moves).Publishes request ∧ (run config moves).Gauges ∧
      ∀ (config' : EngineConfig) (moves' : List (Move F)),
        let log := (run config moves).log request
        let log' := (run config' moves').log request
        produced log' <+: produced log →
          (Lifeline.texts (sent log') <+: Lifeline.texts (sent log) ∨
            Lifeline.texts (sent log) <+: Lifeline.texts (sent log')) ∧
          (Untouched log → Untouched log' → Finished log → Finished log' → sent log' = sent log) := by
  have hpublishes := (@reached_run _ config moves).publishes request
  refine ⟨hpublishes, (reached_run moves).gauges, ?_⟩
  intro config' moves' log log' hproduced
  constructor
  · have hpublishes' := (@reached_run _ config' moves').publishes request
    have htexts : Lifeline.texts (produced log') <+: Lifeline.texts (produced log) :=
      List.IsPrefix.filter (fun event => !GenerationEvent.isTerminal event) hproduced
    exact List.prefix_or_prefix_of_prefix (hpublishes'.texts.trans htexts) hpublishes.texts
  · intro huntouched huntouched' hfinished hfinished'
    have hpublishes' := (@reached_run _ config' moves').publishes request
    have hsent := hfinished.sent_prefix hpublishes.ordered (hpublishes.complete huntouched)
    have hsent' := (hfinished'.sent_prefix hpublishes'.ordered
      (hpublishes'.complete huntouched')).trans hproduced
    rcases List.prefix_or_prefix_of_prefix hsent' hsent with hfirst | hfirst
    · exact hfinished'.eq_of_prefix hpublishes.ordered hfirst
    · exact (hfinished.eq_of_prefix hpublishes'.ordered hfirst).symm

def cancelledLast : GenerationEvent Unit := .finished .cancelled ⟨1, 1, 0⟩

/-- A backend that returns a text in each iteration. -/
def textReply : Reply Unit where
  submits := false
  result := .ok [⟨1, .tokenDelta ['a']⟩]
  cancelled := .ok [cancelledLast]
  isIdle := false
  supported := true
  admission := .ok ()

/-- A client cancels its request right after the first iteration. -/
def cancelAfterIteration : List (Move Unit) :=
  [.client .register, .client (.enqueue 1)] ++ List.replicate 16 (.worker textReply) ++
    [.client (.cancel 1)] ++ List.replicate 8 (.worker textReply)

/-- What is published at once may be dropped where it is staged: the client cancels in between. -/
theorem staged_text_dropped :
    let immediate := run ⟨1, 4, 1, false⟩ cancelAfterIteration
    let staged := run ⟨1, 4, 1, true⟩ cancelAfterIteration
    produced (staged.log 1) = produced (immediate.log 1) ∧
      sent (immediate.log 1) = [.tokenDelta ['a'], cancelledLast] ∧
      sent (staged.log 1) = [cancelledLast] := by
  decide

end Publication

end Engine
end Riley.Server
