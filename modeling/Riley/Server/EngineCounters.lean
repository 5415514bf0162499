import Mathlib.Algebra.BigOperators.Intervals
import Riley.Server.EngineValid

/-!
What the engine counts, and what is left of it when the worker has returned.
-/

namespace Riley.Server
variable {F : Type}

def Command.isSubmit : Command → Bool
  | .submit _ => true
  | _ => false

/-- Phases of a worker that has returned. -/
def Phase.returned : Phase F → Bool
  | .stopped | .gone => true
  | _ => false

/-- Phases of a worker that has not begun to return. -/
def Phase.working : Phase F → Bool
  | .finish | .stopped | .gone => false
  | _ => true

theorem Phase.working_iff {phase : Phase F} :
    phase.working = true ↔ phase.returned = false ∧ phase ≠ .finish := by
  cases phase <;> simp [working, returned]

namespace Engine
open Lifeline

/-- The control blocks of a request that there are. -/
def controls (log : List (Occurrence F)) : Int := times log .admitted - times log .released

/-- What the engine counts is left as it is. -/
structure Tallies (engine engine' : Engine F) : Prop where
  nextRequest : engine'.nextRequest = engine.nextRequest
  registered : engine'.registered = engine.registered
  commands : engine'.commands = engine.commands
  waiting : engine'.waitingRequests = engine.waitingRequests
  active : engine'.activeRequests = engine.activeRequests
  tally : ∀ request, controls (engine'.log request) = controls (engine.log request)

/-- A step inside a call of the worker. -/
structure Keeps (engine engine' : Engine F) : Prop extends Tallies engine engine' where
  phase : engine'.phase = engine.phase
  requests : engine'.requests ⊆ engine.requests
  failing : ∀ errorClass, .failRemaining errorClass ∈ engine.frames →
    .failRemaining errorClass ∈ engine'.frames

section Keeping

variable {config : EngineConfig} {engine engine' engine'' : Engine F}

theorem Tallies.refl (engine : Engine F) : Tallies engine engine :=
  ⟨rfl, rfl, rfl, rfl, rfl, fun _ => rfl⟩

theorem Keeps.refl (engine : Engine F) : Keeps engine engine :=
  ⟨.refl engine, rfl, List.Subset.refl _, fun _ => id⟩

theorem Keeps.trans (h : Keeps engine engine') (h' : Keeps engine' engine'') :
    Keeps engine engine'' where
  phase := h'.phase.trans h.phase
  nextRequest := h'.nextRequest.trans h.nextRequest
  registered := h'.registered.trans h.registered
  commands := h'.commands.trans h.commands
  waiting := h'.waiting.trans h.waiting
  active := h'.active.trans h.active
  requests := List.Subset.trans h'.requests h.requests
  failing := fun errorClass hmem => h'.failing errorClass (h.failing errorClass hmem)
  tally := fun request => (h'.tally request).trans (h.tally request)

theorem Keeps.note (h : Keeps engine engine') {occurrence : Occurrence F}
    (hadmitted : occurrence.kind ≠ .admitted) (hreleased : occurrence.kind ≠ .released)
    (one : Nat) : Keeps engine (engine'.note one occurrence) where
  phase := h.phase
  nextRequest := h.nextRequest
  registered := h.registered
  commands := h.commands
  waiting := h.waiting
  active := h.active
  requests := h.requests
  failing := h.failing
  tally := by
    intro request
    rw [← h.tally request]
    by_cases hone : request = one
    · subst hone
      simp [Engine.note, Engine.controls, hadmitted, hreleased]
    · simp [Engine.note, Function.update_of_ne hone]

theorem setCell_keeps (one : Nat) (state : RequestState) : Keeps engine (engine.setCell one state) :=
  ⟨⟨rfl, rfl, rfl, rfl, rfl, fun _ => rfl⟩, rfl, List.Subset.refl _, fun _ => id⟩

theorem remove_keeps (one : Nat) : Keeps engine (engine.remove one) := by
  have herased : Keeps engine { engine with requests := engine.requests.erase one } :=
    ⟨⟨rfl, rfl, rfl, rfl, rfl, fun _ => rfl⟩, rfl, List.erase_subset, fun _ => id⟩
  exact herased.note (by simp [Occurrence.kind]) (by simp [Occurrence.kind]) one

theorem Keeps.operation (h : Keeps engine engine') (operation : Option (Operation F)) :
    Keeps engine { engine' with operation } :=
  ⟨⟨h.nextRequest, h.registered, h.commands, h.waiting, h.active, h.tally⟩, h.phase, h.requests,
    h.failing⟩

theorem Keeps.call (h : Keeps engine engine') (frame : Frame F) :
    Keeps engine { engine' with frames := frame :: engine'.frames } :=
  ⟨⟨h.nextRequest, h.registered, h.commands, h.waiting, h.active, h.tally⟩, h.phase, h.requests,
    fun errorClass hmem => List.mem_cons_of_mem _ (h.failing errorClass hmem)⟩

theorem noteReturned_keeps (events : List (BackendEvent F)) :
    Keeps engine (engine.noteReturned events) := by
  induction events generalizing engine with
  | nil => exact .refl engine
  | cons one events ih =>
      have hone : Keeps engine (if one.request ∈ engine.requests then
          engine.note one.request (.returned one.event) else engine) := by
        split
        · exact (Keeps.refl engine).note (by simp [Occurrence.kind]) (by simp [Occurrence.kind]) _
        · exact .refl engine
      exact hone.trans ih

theorem noteResult_keeps (result : Except ServiceErrorClass (List (BackendEvent F))) :
    Keeps engine (engine.noteResult result) := by
  cases result with
  | ok events => exact noteReturned_keeps events
  | error _ => exact .refl engine

theorem trySend_keeps {request : Nat} {event : GenerationEvent F} {sent : Engine F}
    (h : trySend config engine request event = some sent) : Keeps engine sent := by
  unfold trySend at h
  simp only at h
  split at h
  · rw [← Option.some.inj h]
    refine Keeps.note ?_ (by simp [Occurrence.kind]) (by simp [Occurrence.kind]) request
    exact ⟨⟨rfl, rfl, rfl, rfl, rfl, fun _ => rfl⟩, rfl, List.Subset.refl _, fun _ => id⟩
  · cases h

theorem refuse_keeps (one : Nat) : Keeps engine (engine.refuse one) := by
  unfold refuse
  split
  next events after frames hframes =>
    refine ⟨⟨rfl, rfl, rfl, rfl, rfl, fun _ => rfl⟩, rfl, List.Subset.refl _,
      fun errorClass hmem => ?_⟩
    rw [hframes] at hmem
    rcases List.mem_cons.mp hmem with heq | hmem
    · cases heq
    · exact List.mem_cons_of_mem _ hmem
  · exact ⟨⟨rfl, rfl, rfl, rfl, rfl, fun _ => rfl⟩, rfl, List.Subset.refl _, fun _ => id⟩

theorem publishOne_keeps (one : BackendEvent F) : Keeps engine (engine.publishOne one) := by
  unfold publishOne
  simp only
  split
  · exact .refl engine
  split
  · exact (remove_keeps one.request).operation _
  split
  · exact .refl engine
  split
  · exact .refl engine
  · exact (Keeps.refl engine).operation _

theorem stageOne_keeps (one : BackendEvent F) : Keeps engine (engine.stageOne one) := by
  have hstaged : Keeps engine { engine with staged := engine.staged ++ [one] } :=
    ⟨⟨rfl, rfl, rfl, rfl, rfl, fun _ => rfl⟩, rfl, List.Subset.refl _, fun _ => id⟩
  unfold stageOne
  split
  · exact .refl engine
  split
  · exact .refl engine
  simp only
  split
  · exact hstaged.trans (remove_keeps one.request)
  · exact hstaged

theorem stageEvents_keeps (events : List (BackendEvent F)) :
    Keeps engine (engine.stageEvents events) := by
  induction events generalizing engine with
  | nil => exact .refl engine
  | cons one events ih => exact (stageOne_keeps one).trans ih

theorem deliverOne_keeps (one : BackendEvent F) : Keeps engine (engine.deliverOne one) := by
  unfold deliverOne
  split
  · exact (Keeps.refl engine).operation _
  split
  · exact .refl engine
  · exact (Keeps.refl engine).operation _

theorem failRequest_keeps (one : Nat) (errorClass : ServiceErrorClass) :
    Keeps engine (engine.failRequest one errorClass) := by
  unfold failRequest
  split
  · exact (remove_keeps one).operation _
  · exact .refl engine

theorem cancelSlowConsumer_keeps (reply : Reply F) (one : Nat) :
    Keeps engine (engine.cancelSlowConsumer reply one) := by
  unfold cancelSlowConsumer
  split
  · exact (noteReturned_keeps _).call _
  · exact failRequest_keeps one _

end Keeping

/-- What holds of the counters in every state. -/
structure Counted (engine : Engine F) : Prop where
  active : engine.activeRequests =
    ∑ request ∈ Finset.range engine.nextRequest, controls (engine.log request)
  waiting : engine.phase.returned = false →
    engine.waitingRequests = engine.registered.length + engine.commands.countP Command.isSubmit
  closing : engine.phase = .finish →
    engine.requests = [] ∨ ∃ errorClass, .failRemaining errorClass ∈ engine.frames
  closed : engine.phase.returned = true →
    engine.requests = [] ∧ engine.frames = [] ∧ engine.operation = none

section Counting

variable {config : EngineConfig} {engine engine' : Engine F}

theorem counted_start : (start : Engine F).Counted where
  active := rfl
  waiting := fun _ => rfl
  closing := fun hphase => by cases hphase
  closed := fun hphase => by cases hphase

theorem Tallies.active_sum (h : Tallies engine engine') (hcounted : engine.Counted) :
    engine'.activeRequests =
      ∑ request ∈ Finset.range engine'.nextRequest, controls (engine'.log request) := by
  rw [h.active, hcounted.active, h.nextRequest]
  exact Finset.sum_congr rfl fun request _ => (h.tally request).symm

theorem Counted.keeps (hcounted : engine.Counted) (h : Keeps engine engine')
    (hrunning : engine.phase.returned = false) : engine'.Counted where
  active := h.active_sum hcounted
  waiting := by
    intro _
    rw [h.waiting, h.registered, h.commands]
    exact hcounted.waiting hrunning
  closing := by
    intro hphase
    rw [h.phase] at hphase
    rcases hcounted.closing hphase with hnone | ⟨errorClass, hmem⟩
    · have hsubset := h.requests
      rw [hnone] at hsubset
      exact .inl (List.subset_nil.mp hsubset)
    · exact .inr ⟨errorClass, h.failing errorClass hmem⟩
  closed := by
    intro hphase
    rw [h.phase, hrunning] at hphase
    cases hphase

/-- The worker goes on elsewhere in its loop. -/
theorem Counted.goes (hcounted : engine.Counted) (h : Tallies engine engine')
    (hworking : engine.phase.working = true) (hphase : engine'.phase.working = true) :
    engine'.Counted where
  active := h.active_sum hcounted
  waiting := by
    intro _
    rw [h.waiting, h.registered, h.commands]
    exact hcounted.waiting (Phase.working_iff.mp hworking).1
  closing := fun heq => absurd heq (Phase.working_iff.mp hphase).2
  closed := fun hreturned => by cases (Phase.working_iff.mp hphase).1.symm.trans hreturned

/-- The worker begins to return, with what is left to be failed. -/
theorem Counted.closes (hcounted : engine.Counted) (h : Tallies engine engine')
    (hworking : engine.phase.working = true) (hphase : engine'.phase = .finish)
    (hfailing : ∃ errorClass, .failRemaining errorClass ∈ engine'.frames) : engine'.Counted where
  active := h.active_sum hcounted
  waiting := by
    intro _
    rw [h.waiting, h.registered, h.commands]
    exact hcounted.waiting (Phase.working_iff.mp hworking).1
  closing := fun _ => .inr hfailing
  closed := by
    intro hreturned
    rw [hphase] at hreturned
    cases hreturned

theorem Counted.running_of_frames (hcounted : engine.Counted) {frame : Frame F}
    {frames : List (Frame F)} (hframes : engine.frames = frame :: frames) :
    engine.phase.returned = false := by
  refine Bool.eq_false_of_not_eq_true fun hreturned => ?_
  cases hframes.symm.trans (hcounted.closed hreturned).2.1

theorem Counted.running_of_operation (hcounted : engine.Counted) {operation : Operation F}
    (hoperation : engine.operation = some operation) : engine.phase.returned = false := by
  refine Bool.eq_false_of_not_eq_true fun hreturned => ?_
  cases hoperation.symm.trans (hcounted.closed hreturned).2.2

/-- What one occurrence does to the number of control blocks. -/
theorem sum_controls_note {count one : Nat} (hone : one < count) (occurrence : Occurrence F) :
    ∑ request ∈ Finset.range count, controls ((engine.note one occurrence).log request) =
      ∑ request ∈ Finset.range count, controls (engine.log request) + controls [occurrence] := by
  have hmem : one ∈ Finset.range count := Finset.mem_range.mpr hone
  have hlog : ∀ request, controls ((engine.note one occurrence).log request) =
      Function.update (fun request => controls (engine.log request)) one
        (controls (engine.log one) + controls [occurrence]) request := by
    intro request
    by_cases heq : request = one
    · subst heq
      simp only [note, Function.update_self, controls, times_append]
      omega
    · simp only [note, Function.update_of_ne heq]
  rw [Finset.sum_congr rfl fun request _ => hlog request, Finset.sum_update_of_mem hmem,
    Finset.sum_eq_add_sum_sdiff_singleton_of_mem hmem (fun request => controls (engine.log request))]
  omega

/-- What is done about a request is done about one whose number is taken. -/
theorem born_of_task {request : Nat} (hsound : (engine.lifeline request).Sound)
    (htask : (engine.lifeline request).task ≠ none) : request < engine.nextRequest := by
  refine Nat.blt_eq.mp (Bool.eq_true_of_not_eq_false fun hborn => ?_)
  exact htask (hsound.unborn hborn).task

theorem storeTerminal_counted (hcounted : engine.Counted) {one : Nat} (hone : one < engine.nextRequest)
    (hoperation : engine.operation = some (.storeTerminal one)) :
    (({ engine with operation := none } : Engine F).operate config (.storeTerminal one)).Counted := by
  have hrunning := hcounted.running_of_operation hoperation
  constructor
  · have hsum := @sum_controls_note _ engine _ _ hone .released
    have hcontrols : controls [(.released : Occurrence F)] = -1 := rfl
    rw [hcontrols] at hsum
    have hactive := hcounted.active
    change engine.activeRequests - 1 = ∑ request ∈ Finset.range engine.nextRequest,
      controls ((engine.note one .released).log request)
    omega
  · exact hcounted.waiting
  · exact hcounted.closing
  · exact fun hreturned => by cases hrunning.symm.trans hreturned

theorem operate_counted (hcounted : engine.Counted)
    (hsound : ∀ request, (engine.lifeline request).Sound) {operation : Operation F}
    (hoperation : engine.operation = some operation) :
    (({ engine with operation := none } : Engine F).operate config operation).Counted := by
  have hrunning := hcounted.running_of_operation hoperation
  have hdone : Keeps engine { engine with operation := none } := (Keeps.refl engine).operation none
  cases operation with
  | send one event =>
      refine hcounted.keeps (hdone.trans ?_) hrunning
      simp only [operate]
      split
      next sent hsent => exact trySend_keeps hsent
      · exact (Keeps.refl _).operation _
  | finish one event =>
      refine hcounted.keeps (hdone.trans ?_) hrunning
      simp only [operate]
      cases hsent : trySend config { engine with operation := none } one event with
      | some sent => exact (trySend_keeps hsent).operation _
      | none => exact (Keeps.refl _).operation _
  | refused one =>
      refine hcounted.keeps (hdone.trans ?_) hrunning
      simp only [operate]
      split
      · have hset := @setCell_keeps _ { engine with operation := none } one .cancelling
        exact (hset.note (by simp [Occurrence.kind]) (by simp [Occurrence.kind]) one).trans
          (refuse_keeps one)
      · exact .refl _
  | storeTerminal one =>
      refine storeTerminal_counted hcounted (born_of_task (hsound one) ?_) hoperation
      simp [lifeline, hoperation, Operation.task]

/-- A call comes to its end. -/
theorem Counted.pop (hcounted : engine.Counted) {frame : Frame F} {frames : List (Frame F)}
    (hframes : engine.frames = frame :: frames)
    (hfail : ∀ errorClass, frame = .failRemaining errorClass → engine.requests = []) :
    ({ engine with frames } : Engine F).Counted where
  active := hcounted.active
  waiting := hcounted.waiting
  closing := by
    intro hphase
    rcases hcounted.closing hphase with hnone | ⟨errorClass, hmem⟩
    · exact .inl hnone
    · rw [hframes] at hmem
      rcases List.mem_cons.mp hmem with heq | hmem
      · exact .inl (hfail errorClass heq.symm)
      · exact .inr ⟨errorClass, hmem⟩
  closed := by
    intro hreturned
    cases (hcounted.running_of_frames hframes).symm.trans hreturned

theorem advance_keeps (reply : Reply F) (frame : Frame F) : Keeps engine (engine.advance reply frame) := by
  cases frame with
  | publish events after =>
      cases events with
      | nil => exact (Keeps.refl engine).call _
      | cons one events => exact ((Keeps.refl engine).call _).trans (publishOne_keeps one)
  | cancelAfterPublish requests =>
      cases requests with
      | nil => exact .refl engine
      | cons one requests =>
          exact ((Keeps.refl engine).call _).trans (cancelSlowConsumer_keeps reply one)
  | deliver staged =>
      cases staged with
      | nil => exact .refl engine
      | cons one staged => exact ((Keeps.refl engine).call _).trans (deliverOne_keeps one)
  | flush =>
      have hempty : Keeps engine { engine with slowConsumers := [] } :=
        ⟨⟨rfl, rfl, rfl, rfl, rfl, fun _ => rfl⟩, rfl, List.Subset.refl _, fun _ => id⟩
      exact hempty.call _
  | cancelSlow requests =>
      cases requests with
      | nil => exact .refl engine
      | cons one requests =>
          simp only [advance]
          split
          · exact ((Keeps.refl engine).call _).trans (cancelSlowConsumer_keeps reply one)
          · exact (Keeps.refl engine).call _
  | scan requests cancelled =>
      cases requests with
      | nil => exact (Keeps.refl engine).call _
      | cons one requests =>
          simp only [advance]
          split
          · have hset : Keeps engine (({ engine with
                frames := .scan requests (cancelled ++ [one]) :: engine.frames } : Engine F).setCell
                  one .cancelling) :=
              ((Keeps.refl engine).call _).trans (setCell_keeps one .cancelling)
            exact hset.note (by simp [Occurrence.kind]) (by simp [Occurrence.kind]) one
          · exact (Keeps.refl engine).call _
  | cancelEach requests =>
      cases requests with
      | nil => exact .refl engine
      | cons one requests =>
          simp only [advance]
          split
          · exact ((Keeps.refl engine).call _).trans ((noteReturned_keeps _).call _)
          · exact ((Keeps.refl engine).call .drain).call _
  | failRemaining errorClass =>
      simp only [advance]
      split
      · exact .refl engine
      · exact ((Keeps.refl engine).call _).trans (failRequest_keeps _ errorClass)
  | drain => exact ⟨⟨rfl, rfl, rfl, rfl, rfl, fun _ => rfl⟩, rfl, List.Subset.refl _, fun _ => id⟩

theorem advance_counted (hcounted : engine.Counted) {frame : Frame F} {frames : List (Frame F)}
    (hframes : engine.frames = frame :: frames) (reply : Reply F) :
    (({ engine with frames } : Engine F).advance reply frame).Counted := by
  have hrunning := hcounted.running_of_frames hframes
  by_cases hlast : ∀ errorClass, frame = .failRemaining errorClass → engine.requests = []
  · exact (hcounted.pop hframes hlast).keeps (advance_keeps reply frame) hrunning
  · push Not at hlast
    obtain ⟨errorClass, rfl, hsome⟩ := hlast
    simp only [advance]
    split
    next hnone => exact absurd hnone hsome
    next one rest hrequests =>
      rw [← hframes]
      exact hcounted.keeps (failRequest_keeps one errorClass) hrunning

/-- A submission is taken from the queue, and may be admitted. -/
theorem dequeue_counted (hcounted : engine.Counted) {one : Nat} {commands : List Command}
    (hcommands : engine.commands = .submit one :: commands)
    (hworking : engine.phase.working = true) :
    (({ engine with commands } : Engine F).dequeue one).Counted := by
  obtain ⟨hrunning, hfinish⟩ := Phase.working_iff.mp hworking
  have hnoted : Keeps engine (engine.note one .dequeued) :=
    (Keeps.refl engine).note (by simp [Occurrence.kind]) (by simp [Occurrence.kind]) one
  constructor
  · exact hnoted.active_sum hcounted
  · intro _
    have hwaiting := hcounted.waiting hrunning
    rw [hcommands, List.countP_cons_of_pos rfl] at hwaiting
    change engine.waitingRequests - 1 = engine.registered.length + commands.countP Command.isSubmit
    omega
  · exact fun heq => absurd heq hfinish
  · exact fun hreturned => by cases hrunning.symm.trans hreturned

theorem admit_counted (hcounted : engine.Counted) {one : Nat} (hone : one < engine.nextRequest)
    (hworking : engine.phase.working = true) :
    (engine.admitRequest one).Counted := by
  obtain ⟨hrunning, hfinish⟩ := Phase.working_iff.mp hworking
  constructor
  · have hsum := @sum_controls_note _ engine _ _ hone .admitted
    have hcontrols : controls [(.admitted : Occurrence F)] = 1 := rfl
    rw [hcontrols] at hsum
    have hactive := hcounted.active
    change engine.activeRequests + 1 = ∑ request ∈ Finset.range engine.nextRequest,
      controls ((engine.note one .admitted).log request)
    omega
  · exact hcounted.waiting
  · exact fun heq => absurd heq hfinish
  · exact fun hreturned => by cases hrunning.symm.trans hreturned

theorem respond_counted (hcounted : engine.Counted) (one : Nat)
    (answer : Except EngineError Unit) : (engine.respond one answer).Counted :=
  ⟨hcounted.active, hcounted.waiting, hcounted.closing, hcounted.closed⟩

theorem processCommand_counted (hcounted : engine.Counted)
    (hsound : ∀ request, (engine.lifeline request).Sound) {command : Command}
    {commands : List Command} (hcommands : engine.commands = command :: commands) (reply : Reply F)
    (hworking : engine.phase.working = true) :
    (({ engine with commands } : Engine F).processCommand config reply command).Counted := by
  obtain ⟨hrunning, hfinish⟩ := Phase.working_iff.mp hworking
  cases command with
  | submit one =>
      have hdequeued := dequeue_counted hcounted hcommands hworking
      have hone : one < engine.nextRequest := by
        refine Nat.blt_eq.mp (Bool.eq_true_of_not_eq_false fun hborn => ?_)
        exact absurd ((hsound one).unborn hborn).waiting (waiting_pos hcommands).ne'
      simp only [processCommand, processSubmit]
      split
      · exact respond_counted hdequeued one _
      split
      · exact respond_counted hdequeued one _
      split
      · exact respond_counted hdequeued one _
      split
      · exact respond_counted hdequeued one _
      split
      · exact respond_counted (admit_counted hdequeued hone hworking) one _
      · exact respond_counted hdequeued one _
  | metrics | wake =>
      have hwaiting := hcounted.waiting hrunning
      rw [hcommands, List.countP_cons_of_neg (by simp [Command.isSubmit])] at hwaiting
      exact ⟨hcounted.active, fun _ => hwaiting, fun heq => absurd heq hfinish,
        fun hreturned => by cases hrunning.symm.trans hreturned⟩

theorem processCommand_phase (command : Command) (reply : Reply F) :
    (engine.processCommand config reply command).phase = engine.phase := by
  cases command with
  | submit one =>
      simp only [processCommand, processSubmit]
      split
      · rfl
      split
      · rfl
      split
      · rfl
      split
      · rfl
      split <;> rfl
  | metrics | wake => rfl

theorem iteration_counted (hcounted : engine.Counted)
    (hsound : ∀ request, (engine.lifeline request).Sound) (hoperation : engine.operation = none)
    (hframes : engine.frames = []) (reply : Reply F) :
    (engine.iteration config reply).Counted := by
  have hcommanded : ∀ phase : Phase F,
      (∀ request, phase.direct request = engine.phase.direct request) →
      engine.phase.working = true → phase.working = true →
      ∀ command commands, engine.commands = command :: commands →
        (({ engine with commands, phase } : Engine F).processCommand config reply
          command).Counted := by
    intro phase hdirect hworking hphase command commands hcommands
    have hcounted' : ({ engine with phase } : Engine F).Counted :=
      hcounted.goes ⟨rfl, rfl, rfl, rfl, rfl, fun _ => rfl⟩ hworking hphase
    refine processCommand_counted hcounted' (fun request => ?_) hcommands reply hphase
    rw [lifeline_phase (hdirect request)]
    exact hsound request
  unfold iteration
  split
  next hphase => -- loop
    have hworking : engine.phase.working = true := by rw [hphase]; rfl
    split
    · simp only
      split <;> exact hcounted.goes ⟨rfl, rfl, rfl, rfl, rfl, fun _ => rfl⟩ hworking rfl
    · exact hcounted.goes ⟨rfl, rfl, rfl, rfl, rfl, fun _ => rfl⟩ hworking rfl
  next hphase => -- checked
    have hworking : engine.phase.working = true := by rw [hphase]; rfl
    split <;> exact hcounted.goes ⟨rfl, rfl, rfl, rfl, rfl, fun _ => rfl⟩ hworking rfl
  next received hphase => -- commands
    have hworking : engine.phase.working = true := by rw [hphase]; rfl
    split
    next command commands hcommands =>
      have hcommand := hcommanded .commanded (fun _ => by rw [hphase]; rfl) hworking rfl
        command commands hcommands
      refine hcommand.keeps ((Keeps.refl _).call _) ?_
      rw [processCommand_phase]
      rfl
    · split <;> exact hcounted.goes ⟨rfl, rfl, rfl, rfl, rfl, fun _ => rfl⟩ hworking rfl
  next hphase => -- commanded
    have hworking : engine.phase.working = true := by rw [hphase]; rfl
    split <;> exact hcounted.goes ⟨rfl, rfl, rfl, rfl, rfl, fun _ => rfl⟩ hworking rfl
  next received hphase => -- iterate
    have hworking : engine.phase.working = true := by rw [hphase]; rfl
    split
    · exact hcounted.goes ⟨rfl, rfl, rfl, rfl, rfl, fun _ => rfl⟩ hworking rfl
    split
    · exact hcounted.goes ⟨rfl, rfl, rfl, rfl, rfl, fun _ => rfl⟩ hworking rfl
    split <;> exact hcounted.goes ⟨rfl, rfl, rfl, rfl, rfl, fun _ => rfl⟩ hworking rfl
  next hphase => -- stepping
    have hworking : engine.phase.working = true := by rw [hphase]; rfl
    split
    · split
      · exact hcounted.goes ⟨rfl, rfl, rfl, rfl, rfl, fun _ => rfl⟩ hworking hworking
      · exact hcounted
    · have hresult := (@noteResult_keeps _ engine reply.result).toTallies
      simp only
      split
      · exact hcounted.goes ⟨hresult.nextRequest, hresult.registered, hresult.commands,
          hresult.waiting, hresult.active, hresult.tally⟩ hworking rfl
      · exact hcounted.goes ⟨hresult.nextRequest, hresult.registered, hresult.commands,
          hresult.waiting, hresult.active, hresult.tally⟩ hworking rfl
  next events hphase => -- stepped
    have hworking : engine.phase.working = true := by rw [hphase]; rfl
    have hloop : ({ engine with phase := .loop } : Engine F).Counted :=
      hcounted.goes ⟨rfl, rfl, rfl, rfl, rfl, fun _ => rfl⟩ hworking rfl
    simp only
    split
    · have hstaged := @stageEvents_keeps _ { engine with phase := .loop } events
      have hcounted' := hloop.keeps hstaged rfl
      split
      · refine hcounted'.goes ⟨rfl, rfl, rfl, rfl, rfl, fun _ => rfl⟩ ?_ ?_
        · rw [hstaged.phase]
          rfl
        · change (stageEvents { engine with phase := .loop } events).phase.working = true
          rw [hstaged.phase]
          rfl
      · exact hcounted'
    · exact hloop.goes ⟨rfl, rfl, rfl, rfl, rfl, fun _ => rfl⟩ rfl rfl
  next errorClass hphase =>
    have hworking : engine.phase.working = true := by rw [hphase]; rfl
    exact hcounted.goes ⟨rfl, rfl, rfl, rfl, rfl, fun _ => rfl⟩ hworking rfl
  next hphase => -- idle
    have hworking : engine.phase.working = true := by rw [hphase]; rfl
    simp only
    split
    next command commands hcommands =>
      exact hcommanded .loop (fun _ => by rw [hphase]; rfl) hworking rfl command commands hcommands
    · split <;> exact hcounted.goes ⟨rfl, rfl, rfl, rfl, rfl, fun _ => rfl⟩ hworking rfl
  next hphase => -- reject
    have hworking : engine.phase.working = true := by rw [hphase]; rfl
    split
    next one commands hcommands =>
      exact respond_counted (dequeue_counted hcounted hcommands hworking) one _
    next command commands hother hcommands =>
      cases command with
      | submit one => exact absurd rfl (hother one)
      | metrics => exact @processCommand_counted _ config _ hcounted hsound _ _ hcommands reply hworking
      | wake => exact @processCommand_counted _ config _ hcounted hsound _ _ hcommands reply hworking
    · exact hcounted.goes ⟨rfl, rfl, rfl, rfl, rfl, fun _ => rfl⟩ hworking rfl
  next hphase => -- shutdown
    have hworking : engine.phase.working = true := by rw [hphase]; rfl
    split
    next events hresult =>
      have hnoted := (@noteReturned_keeps _ engine events).toTallies
      exact hcounted.closes ⟨hnoted.nextRequest, hnoted.registered, hnoted.commands,
        hnoted.waiting, hnoted.active, hnoted.tally⟩ hworking rfl
        ⟨_, List.mem_cons_of_mem _ List.mem_cons_self⟩
    · exact hcounted.closes ⟨rfl, rfl, rfl, rfl, rfl, fun _ => rfl⟩ hworking rfl
        ⟨_, List.mem_cons_self⟩
  next hphase => -- finish
    refine ⟨hcounted.active, fun hrunning => (by cases hrunning), fun heq => (by cases heq),
      fun _ => ⟨?_, hframes, hoperation⟩⟩
    rcases hcounted.closing hphase with hnone | ⟨errorClass, hmem⟩
    · exact hnone
    · rw [hframes] at hmem
      cases hmem
  next hphase => -- stopped
    have hclosed := hcounted.closed (by rw [hphase]; rfl)
    exact ⟨hcounted.active, fun hrunning => (by cases hrunning), fun heq => (by cases heq),
      fun _ => hclosed⟩
  next hphase => exact hcounted

theorem work_counted (hcounted : engine.Counted)
    (hsound : ∀ request, (engine.lifeline request).Sound) (reply : Reply F) :
    (engine.work config reply).Counted := by
  cases hoperation : engine.operation with
  | some operation =>
      rw [work_operate hoperation]
      exact operate_counted hcounted hsound hoperation
  | none =>
      cases hframes : engine.frames with
      | cons frame frames =>
          rw [work_advance hoperation hframes]
          exact advance_counted hcounted hframes reply
      | nil =>
          rw [work_iteration hoperation hframes]
          exact iteration_counted hcounted hsound hoperation hframes reply

theorem register_counted (hcounted : engine.Counted)
    (hsound : ∀ request, (engine.lifeline request).Sound) :
    (engine.act config .register).Counted where
  active := by
    have hborn : (engine.lifeline engine.nextRequest).born = false :=
      Bool.eq_false_of_not_eq_true fun htrue => Nat.lt_irrefl _ (Nat.blt_eq.mp htrue)
    have hlog : engine.log engine.nextRequest = [] := ((hsound _).unborn hborn).log
    have hactive := hcounted.active
    simp only [act, Finset.sum_range_succ, hlog]
    simpa [controls] using hactive
  waiting := by
    intro hrunning
    have hwaiting := hcounted.waiting hrunning
    simp only [act, List.length_cons]
    omega
  closing := hcounted.closing
  closed := hcounted.closed

theorem signal_counted (hcounted : engine.Counted) {command : Command}
    (hcommand : command.isSubmit = false) :
    ((sendCommand config engine command).getD engine).Counted := by
  cases hsent : sendCommand config engine command with
  | none => exact hcounted
  | some sent =>
      rw [sendCommand_eq_some hsent]
      refine ⟨hcounted.active, fun hrunning => ?_, hcounted.closing, hcounted.closed⟩
      simpa [hcommand] using hcounted.waiting hrunning

theorem enqueue_counted (hcounted : engine.Counted) (one : Nat) :
    (engine.act config (.enqueue one)).Counted := by
  simp only [act]
  split
  next hmem =>
    have hlength := List.length_erase_add_one hmem
    split
    next sent hsent =>
      rw [sendCommand_eq_some hsent]
      refine ⟨hcounted.active, fun hrunning => ?_, hcounted.closing, hcounted.closed⟩
      have hwaiting := hcounted.waiting hrunning
      simp only [List.countP_append, List.countP_singleton, Command.isSubmit, if_true]
      omega
    · refine ⟨hcounted.active, fun hrunning => ?_, hcounted.closing, hcounted.closed⟩
      have hwaiting := hcounted.waiting hrunning
      simp only
      omega
  · exact hcounted

theorem abandon_counted (hcounted : engine.Counted) (one : Nat) :
    ((engine.setCell one .cancelled).note one .abandoned).Counted := by
  have hnoted : Keeps engine ((engine.setCell one .cancelled).note one .abandoned) :=
    (setCell_keeps one .cancelled).note (by simp [Occurrence.kind]) (by simp [Occurrence.kind]) one
  exact ⟨hnoted.active_sum hcounted, hcounted.waiting, hcounted.closing, hcounted.closed⟩

theorem act_counted (hcounted : engine.Counted)
    (hsound : ∀ request, (engine.lifeline request).Sound) (action : ClientAction) :
    (engine.act config action).Counted := by
  cases action with
  | register => exact register_counted hcounted hsound
  | enqueue one => exact enqueue_counted hcounted one
  | giveUp one =>
      simp only [act]
      split
      · exact abandon_counted hcounted one
      · exact hcounted
  | cancel one =>
      simp only [act]
      split
      · exact abandon_counted hcounted one
      · exact hcounted
  | receive | disconnect | leave =>
      exact ⟨hcounted.active, hcounted.waiting, hcounted.closing, hcounted.closed⟩
  | wake => exact signal_counted hcounted rfl
  | metrics => exact signal_counted hcounted rfl
  | beginShutdown =>
      simp only [act]
      split
      · exact ⟨hcounted.active, hcounted.waiting, hcounted.closing, hcounted.closed⟩
      · exact hcounted

end Counting

end Engine
end Riley.Server
