import Riley.Server.LifelineSpec

/-!
Each step of the engine does to a request what a request may go through, and to all others
nothing.
-/

namespace Riley.Server
variable {F : Type}

/-- The events for a request. -/
def eventsFor (request : Nat) (events : List (BackendEvent F)) : List (GenerationEvent F) :=
  (events.filter (·.request = request)).map (·.event)

/-- The events for a request that are published. -/
def publishable (request : Nat) (events : List (BackendEvent F)) : List (GenerationEvent F) :=
  (eventsFor request events).filter (!·.isEmptyDelta)

def Frame.queue (request : Nat) : Frame F → List (GenerationEvent F)
  | .deliver staged => eventsFor request staged
  | _ => []

def Frame.direct (request : Nat) : Frame F → List (GenerationEvent F)
  | .publish events _ => publishable request events
  | _ => []

def Phase.direct (request : Nat) : Phase F → List (GenerationEvent F)
  | .stepped (.ok events) => publishable request events
  | _ => []

def Operation.task (request : Nat) : Operation F → Option (Task F)
  | .send one event => if one = request then some (.send event) else none
  | .finish one event => if one = request then some (.finish event) else none
  | .refused one => if one = request then some .refused else none
  | .storeTerminal one => if one = request then some .storeTerminal else none

/-- Requests that are to be cancelled. -/
def Frame.toCancel : Frame F → List Nat
  | .publish _ after => after
  | .cancelAfterPublish requests | .cancelSlow requests | .cancelEach requests => requests
  | .scan _ cancelled => cancelled
  | _ => []

/-- Phases after the last delivery. -/
def Phase.settled : Phase F → Bool
  | .reject | .shutdown | .finish | .stopped | .gone => true
  | _ => false

namespace Engine

def holds (engine : Engine F) (request : Nat) : Bool := engine.requests.contains request

/-- What the engine has of a request. -/
def lifeline (engine : Engine F) (request : Nat) : Lifeline F where
  born := Nat.blt request engine.nextRequest
  cell := engine.cell request
  waiting := engine.registered.count request + engine.commands.count (.submit request)
  held := engine.holds request
  task := engine.operation.bind (Operation.task request)
  queue := engine.frames.flatMap (Frame.queue request) ++ eventsFor request engine.staged
  direct := engine.frames.flatMap (Frame.direct request) ++ engine.phase.direct request
  log := engine.log request

open Lifeline

theorem Steps.of_eq {line line' : Lifeline F} (h : line' = line) : Steps line line' :=
  h ▸ Relation.ReflTransGen.refl

section Primitives

variable (engine : Engine F) (one request : Nat)

theorem lifeline_note (occurrence : Occurrence F) :
    (engine.note one occurrence).lifeline request =
      if request = one then
        { engine.lifeline request with log := (engine.lifeline request).log ++ [occurrence] }
      else engine.lifeline request := by
  by_cases hone : request = one
  · subst hone
    simp only [lifeline, note, Function.update_self, if_true, holds]
  · simp only [lifeline, note, Function.update_of_ne hone, if_neg hone, holds]

theorem lifeline_setCell (state : RequestState) :
    (engine.setCell one state).lifeline request =
      if request = one then { engine.lifeline request with cell := state }
      else engine.lifeline request := by
  by_cases hone : request = one
  · subst hone
    simp only [lifeline, setCell, Function.update_self, if_true, holds]
  · simp only [lifeline, setCell, Function.update_of_ne hone, if_neg hone, holds]

theorem lifeline_remove (hnodup : engine.requests.Nodup) :
    (engine.remove one).lifeline request =
      if request = one then
        { engine.lifeline request with
          held := false
          log := (engine.lifeline request).log ++ [.removed] }
      else engine.lifeline request := by
  unfold remove
  rw [lifeline_note]
  have hheld : ({ engine with requests := engine.requests.erase one } : Engine F).holds request =
      if request = one then false else engine.holds request := by
    unfold holds
    split
    next hone => simp [hone, hnodup.not_mem_erase]
    next hone => simp [List.mem_erase_of_ne hone]
  split
  next hone =>
    rw [if_pos hone] at hheld
    simp only [lifeline, hheld]
  next hone =>
    rw [if_neg hone] at hheld
    simp only [lifeline, hheld]

/-- The operation that the worker is in the middle of. -/
theorem lifeline_operation (operation : Option (Operation F)) :
    ({ engine with operation } : Engine F).lifeline request =
      { engine.lifeline request with task := operation.bind (Operation.task request) } := rfl

end Primitives

section Operations

variable (config : EngineConfig) {engine : Engine F}

theorem trySend_lifeline {request : Nat} {event : GenerationEvent F} {sent : Engine F}
    (h : trySend config engine request event = some sent) (other : Nat) :
    sent.lifeline other = (engine.note request (.accepted event)).lifeline other := by
  unfold trySend at h
  simp only at h
  split at h
  · rw [← Option.some.inj h, lifeline_note, lifeline_note]
    rfl
  · cases h

theorem refuse_lifeline (one request : Nat) :
    (engine.refuse one).lifeline request = engine.lifeline request := by
  unfold refuse
  split
  next events after frames hframes =>
    simp [lifeline, hframes, Frame.queue, Frame.direct, holds]
  · rfl

theorem with_task {line : Lifeline F} {task : Option (Task F)} (h : line.task = task) :
    { line with task } = line := by
  subst h
  rfl

/-- The operation that the worker was in the middle of is done. -/
theorem done_lifeline (engine : Engine F) (request : Nat) :
    ({ engine with operation := none } : Engine F).lifeline request =
      { engine.lifeline request with task := none } := rfl

theorem operate_steps {operation : Operation F} (hoperation : engine.operation = some operation)
    (request : Nat) :
    Steps (engine.lifeline request)
      (({ engine with operation := none }.operate config operation).lifeline request) := by
  have htask : (engine.lifeline request).task = operation.task request := by
    simp [lifeline, hoperation]
  cases operation with
  | send one event =>
      simp only [operate]
      cases hsent : trySend config { engine with operation := none } one event with
      | some sent =>
          simp only [trySend_lifeline config hsent, lifeline_note, done_lifeline]
          by_cases hone : request = one
          · simp only [Operation.task, hone, if_true] at htask ⊢
            exact .single (Step.accept _ event htask)
          · simp only [Operation.task, Ne.symm hone, hone, if_false] at htask ⊢
            exact Steps.of_eq (with_task htask)
      | none =>
          simp only [lifeline_operation, Option.bind_some]
          by_cases hone : request = one
          · simp only [Operation.task, hone, if_true] at htask ⊢
            exact .single (Step.refuse _ event htask)
          · simp only [Operation.task, Ne.symm hone, if_false] at htask ⊢
            exact Steps.of_eq (with_task htask)
  | finish one event =>
      simp only [operate, lifeline_operation, Option.bind_some]
      by_cases hone : request = one
      · simp only [Operation.task, hone, if_true] at htask ⊢
        cases hsent : trySend config { engine with operation := none } one event with
        | some sent =>
            simp only [Option.getD_some, trySend_lifeline config hsent, lifeline_note, if_true]
            exact .single (Step.finish _ event htask)
        | none => exact .single (Step.finishRefused _ event htask)
      · simp only [Operation.task, Ne.symm hone, if_false] at htask ⊢
        cases hsent : trySend config { engine with operation := none } one event with
        | some sent =>
            simp only [Option.getD_some, trySend_lifeline config hsent, lifeline_note, hone,
              if_false]
            exact Steps.of_eq (with_task htask)
        | none => exact Steps.of_eq (with_task htask)
  | refused one =>
      simp only [operate]
      by_cases hone : request = one
      · subst hone
        simp only [Operation.task, if_true] at htask
        split
        next hcell =>
          simp only [refuse_lifeline, lifeline_note, lifeline_setCell, done_lifeline, if_true]
          exact .single (Step.cancelRefused _ htask hcell)
        next hcell => exact .single (Step.leaveRefused _ htask hcell)
      · simp only [Operation.task, Ne.symm hone, if_false] at htask
        split
        · simp only [refuse_lifeline, lifeline_note, lifeline_setCell, done_lifeline, hone, if_false]
          exact Steps.of_eq (with_task htask)
        · exact Steps.of_eq (with_task htask)
  | storeTerminal one =>
      simp only [operate, lifeline_note]
      change Steps _ (if request = one then
        { Engine.lifeline (setCell { engine with operation := none } one .terminal) request with
          log := _ ++ [Occurrence.released] }
        else (setCell { engine with operation := none } one .terminal).lifeline request)
      simp only [lifeline_setCell, done_lifeline]
      by_cases hone : request = one
      · simp only [Operation.task, hone, if_true] at htask ⊢
        exact .single (Step.storeTerminal _ htask)
      · simp only [Operation.task, Ne.symm hone, hone, if_false] at htask ⊢
        exact Steps.of_eq (with_task htask)

end Operations

section Calls

variable {engine : Engine F}

theorem isTerminal_of_isEmptyDelta {event : GenerationEvent F} (h : event.isEmptyDelta = true) :
    event.isTerminal = false := by
  cases event <;> simp_all [GenerationEvent.isEmptyDelta, GenerationEvent.isTerminal]

theorem eventsFor_cons (request : Nat) (one : BackendEvent F) (events : List (BackendEvent F)) :
    eventsFor request (one :: events) = eventsFor request [one] ++ eventsFor request events := by
  simp only [eventsFor, List.filter_cons]
  split <;> rfl

theorem publishable_cons (request : Nat) (one : BackendEvent F) (events : List (BackendEvent F)) :
    publishable request (one :: events) =
      publishable request [one] ++ publishable request events := by
  simp only [publishable, eventsFor_cons request one events, List.filter_append]

theorem publishable_other {request : Nat} {one : BackendEvent F} (h : one.request ≠ request) :
    publishable request [one] = [] := by
  simp [publishable, eventsFor, h]

theorem publishable_empty {one : BackendEvent F} (h : one.event.isEmptyDelta = true)
    (request : Nat) : publishable request [one] = [] := by
  simp only [publishable, eventsFor, List.filter_cons]
  split <;> simp [h]

theorem publishable_self {one : BackendEvent F} (h : one.event.isEmptyDelta = false) :
    publishable one.request [one] = [one.event] := by
  simp [publishable, eventsFor, h]

theorem not_holds {engine : Engine F} {request : Nat} :
    engine.holds request = false ↔ request ∉ engine.requests := by
  simp [holds]

theorem holds_iff {engine : Engine F} {request : Nat} :
    engine.holds request = true ↔ request ∈ engine.requests := by
  simp [holds]

/-- An operation about another request is none about this one. -/
theorem other_operation {request : Nat} (hoperation : engine.operation = none)
    {operation : Operation F} (htask : operation.task request = none) :
    ({ engine with operation := some operation } : Engine F).lifeline request =
      engine.lifeline request := by
  have hnone : (engine.lifeline request).task = (some operation).bind (Operation.task request) := by
    simp [lifeline, hoperation, htask]
  exact with_task hnone

theorem publishOne_empty {one : BackendEvent F} (h : one.event.isEmptyDelta = true) :
    engine.publishOne one = engine := by
  simp [publishOne, isTerminal_of_isEmptyDelta h, h]

theorem publishOne_other {one : BackendEvent F} {request : Nat} (h : one.request ≠ request)
    (hoperation : engine.operation = none) (hnodup : engine.requests.Nodup) :
    (engine.publishOne one).lifeline request = engine.lifeline request := by
  have hremoved : (engine.remove one.request).operation = none := hoperation
  unfold publishOne
  simp only
  split
  · rfl
  split
  · rw [other_operation hremoved (by simp [Operation.task, h]), lifeline_remove _ _ _ hnodup,
      if_neg h.symm]
  split
  · rfl
  split
  · rfl
  · exact other_operation hoperation (by simp [Operation.task, h])

/-- One event is published, before more that wait. -/
theorem publishOne_steps (one : BackendEvent F) (hoperation : engine.operation = none)
    (hnodup : engine.requests.Nodup)
    (hqueue : engine.cell one.request = .live → one.event.isEmptyDelta = false →
      (engine.lifeline one.request).queue = [])
    (request : Nat) (more : List (GenerationEvent F)) :
    Steps { engine.lifeline request with direct := publishable request [one] ++ more }
      { (engine.publishOne one).lifeline request with direct := more } := by
  have htask : (engine.lifeline request).task = none := by simp [lifeline, hoperation]
  by_cases hone : one.request = request
  · subst hone
    cases hempty : one.event.isEmptyDelta with
    | true =>
        rw [publishable_empty hempty, publishOne_empty hempty]
        exact .refl
    | false =>
        rw [publishable_self hempty]
        unfold publishOne
        simp only
        split
        next hout =>
          exact .single (Step.skip _ one.event more htask rfl (.inl (not_holds.mpr hout)))
        next hin =>
          have hheld := holds_iff.mpr (not_not.mp hin)
          split
          next hterminal =>
            simp only [lifeline_operation, lifeline_remove _ _ _ hnodup, if_true, Option.bind_some,
              Operation.task]
            exact .single (Step.publishLast _ one.event more htask rfl hheld hterminal
              fun hlive => hqueue hlive hempty)
          next hterminal =>
            split
            next hcell =>
              have hlost : engine.cell one.request ≠ .live := by
                rcases hcell with hcell | hcell <;> simp [hcell]
              exact .single (Step.skip _ one.event more htask rfl (.inr hlost))
            next hcell =>
              rw [if_neg (by simp [hempty])]
              simp only [lifeline_operation, Option.bind_some, Operation.task, if_true]
              exact .single (Step.publish _ one.event more htask rfl hheld
                (Bool.eq_false_of_not_eq_true hterminal) (not_or.mp hcell)
                fun hlive => hqueue hlive hempty)
  · rw [publishable_other hone, publishOne_other hone hoperation hnodup]
    exact .refl

theorem publishOne_direct (one : BackendEvent F) (request : Nat) :
    ((engine.publishOne one).lifeline request).direct = (engine.lifeline request).direct := by
  unfold publishOne remove note
  simp only
  split
  · rfl
  split
  · rfl
  split
  · rfl
  split <;> rfl

/-- One event is staged, before more that wait. -/
theorem stageOne_steps (one : BackendEvent F) (hoperation : engine.operation = none)
    (hnodup : engine.requests.Nodup) (request : Nat) (more : List (GenerationEvent F)) :
    Steps { engine.lifeline request with direct := publishable request [one] ++ more }
      { (engine.stageOne one).lifeline request with direct := more } := by
  have htask : (engine.lifeline request).task = none := by simp [lifeline, hoperation]
  have hstaged : ({ engine with staged := engine.staged ++ [one] } : Engine F).lifeline request =
      { engine.lifeline request with
        queue := (engine.lifeline request).queue ++ eventsFor request [one] } := by
    simp [lifeline, eventsFor, holds, List.filter_cons]
  have hremove := lifeline_remove { engine with staged := engine.staged ++ [one] } one.request
    request hnodup
  unfold stageOne
  split
  next hempty =>
    rw [publishable_empty hempty]
    exact .refl
  next hempty =>
  by_cases hone : one.request = request
  · subst hone
    rw [publishable_self (Bool.eq_false_of_not_eq_true hempty)]
    have hevents : eventsFor one.request [one] = [one.event] := by simp [eventsFor]
    rw [hevents] at hstaged
    split
    next hout => exact .single (Step.skip _ one.event more htask rfl (.inl (not_holds.mpr hout)))
    next hin =>
      have hheld := holds_iff.mpr (not_not.mp hin)
      simp only
      split
      next hterminal =>
        rw [hremove, if_pos rfl, hstaged]
        exact .single (Step.stageLast _ one.event more htask rfl hheld hterminal)
      next hterminal =>
        rw [hstaged]
        exact .single (Step.stage _ one.event more htask rfl hheld
          (Bool.eq_false_of_not_eq_true hterminal))
  · have hevents : eventsFor request [one] = [] := by simp [eventsFor, hone]
    rw [hevents, List.append_nil] at hstaged
    rw [publishable_other hone]
    split
    · exact .refl
    · simp only
      split
      · rw [hremove, if_neg (Ne.symm hone), hstaged]
        exact .refl
      · rw [hstaged]
        exact .refl

theorem stageOne_kept (one : BackendEvent F) (hnodup : engine.requests.Nodup) :
    (engine.stageOne one).operation = engine.operation ∧ (engine.stageOne one).requests.Nodup ∧
      (engine.stageOne one).frames = engine.frames ∧ (engine.stageOne one).phase = engine.phase := by
  unfold stageOne remove note
  split
  · exact ⟨rfl, hnodup, rfl, rfl⟩
  split
  · exact ⟨rfl, hnodup, rfl, rfl⟩
  simp only
  split
  · exact ⟨rfl, hnodup.erase _, rfl, rfl⟩
  · exact ⟨rfl, hnodup, rfl, rfl⟩

theorem stageEvents_kept (events : List (BackendEvent F)) (hnodup : engine.requests.Nodup) :
    (engine.stageEvents events).requests.Nodup ∧
      (engine.stageEvents events).frames = engine.frames ∧
      (engine.stageEvents events).phase = engine.phase := by
  induction events generalizing engine with
  | nil => exact ⟨hnodup, rfl, rfl⟩
  | cons one events ih =>
      obtain ⟨_, hnodup', hframes, hphase⟩ := stageOne_kept one hnodup
      obtain ⟨hrest, hframes', hphase'⟩ := ih hnodup'
      exact ⟨hrest, hframes'.trans hframes, hphase'.trans hphase⟩

theorem stageEvents_steps (events : List (BackendEvent F)) (hoperation : engine.operation = none)
    (hnodup : engine.requests.Nodup) (request : Nat) :
    Steps { engine.lifeline request with direct := publishable request events }
      { (engine.stageEvents events).lifeline request with direct := [] } := by
  induction events generalizing engine with
  | nil => exact .refl
  | cons one events ih =>
      obtain ⟨hkept, hnodup', _⟩ := stageOne_kept one hnodup
      rw [publishable_cons]
      exact (stageOne_steps one hoperation hnodup request _).trans
        (ih (hkept.trans hoperation) hnodup')

/-- One staged event is delivered, before more that wait. -/
theorem deliverOne_steps (one : BackendEvent F) (hoperation : engine.operation = none)
    (request : Nat) (more : List (GenerationEvent F)) :
    Steps { engine.lifeline request with queue := eventsFor request [one] ++ more }
      { (engine.deliverOne one).lifeline request with queue := more } := by
  have htask : (engine.lifeline request).task = none := by simp [lifeline, hoperation]
  by_cases hone : one.request = request
  · subst hone
    have hevents : eventsFor one.request [one] = [one.event] := by simp [eventsFor]
    rw [hevents]
    unfold deliverOne
    split
    next hterminal =>
      simp only [lifeline_operation, Option.bind_some, Operation.task, if_true]
      exact .single (Step.deliverLast _ one.event more htask rfl hterminal)
    next hterminal =>
      have hevent := Bool.eq_false_of_not_eq_true hterminal
      split
      next hcell => exact .single (Step.deliverSkip _ one.event more htask rfl hevent hcell)
      next hcell =>
        simp only [lifeline_operation, Option.bind_some, Operation.task, if_true]
        exact .single (Step.deliver _ one.event more htask rfl hevent (not_not.mp hcell))
  · have hevents : eventsFor request [one] = [] := by simp [eventsFor, hone]
    rw [hevents]
    unfold deliverOne
    split
    · rw [other_operation hoperation (by simp [Operation.task, hone])]
      exact .refl
    split
    · exact .refl
    · rw [other_operation hoperation (by simp [Operation.task, hone])]
      exact .refl

theorem deliverOne_queue (one : BackendEvent F) (request : Nat) :
    ((engine.deliverOne one).lifeline request).queue = (engine.lifeline request).queue := by
  unfold deliverOne
  split
  · rfl
  split <;> rfl

theorem noteReturned_eq (events : List (BackendEvent F)) :
    ∃ log, engine.noteReturned events = { engine with log } := by
  induction events generalizing engine with
  | nil => exact ⟨engine.log, rfl⟩
  | cons one events ih =>
      have hcons : engine.noteReturned (one :: events) =
          (if one.request ∈ engine.requests then engine.note one.request (.returned one.event)
          else engine).noteReturned events := rfl
      rw [hcons]
      split
      · obtain ⟨log, hlog⟩ := @ih (engine.note one.request (.returned one.event))
        exact ⟨log, hlog⟩
      · exact ih

theorem noteReturned_lifeline (events : List (BackendEvent F)) (request : Nat) :
    (engine.noteReturned events).lifeline request =
      { engine.lifeline request with
        log := (engine.lifeline request).log ++
          if engine.holds request then (eventsFor request events).map .returned else [] } := by
  induction events generalizing engine with
  | nil => simp [noteReturned, eventsFor]
  | cons one events ih =>
      have hcons : engine.noteReturned (one :: events) =
          (if one.request ∈ engine.requests then engine.note one.request (.returned one.event)
          else engine).noteReturned events := rfl
      rw [hcons, ih, eventsFor_cons]
      by_cases hone : one.request = request
      · subst hone
        split
        next hin =>
          have hheld : engine.holds one.request = true := holds_iff.mpr hin
          have hnoted : (engine.note one.request (.returned one.event)).holds one.request = true :=
            hheld
          simp only [hnoted, hheld, lifeline_note, if_true]
          simp [eventsFor]
        next hout => simp [not_holds.mpr hout]
      · have hevents : eventsFor request [one] = [] := by simp [eventsFor, hone]
        rw [hevents, List.nil_append]
        split
        · rw [lifeline_note, if_neg (Ne.symm hone)]
          rfl
        · rfl

theorem failRequest_steps (one : Nat) (errorClass : ServiceErrorClass)
    (hoperation : engine.operation = none) (hnodup : engine.requests.Nodup) (request : Nat) :
    Steps (engine.lifeline request) ((engine.failRequest one errorClass).lifeline request) := by
  have htask : (engine.lifeline request).task = none := by simp [lifeline, hoperation]
  have hremoved : (engine.remove one).operation = none := hoperation
  unfold failRequest
  split
  next hin =>
    by_cases hone : request = one
    · subst hone
      have hfail := lifeline_operation (engine.remove request) request
        (some (.finish request (.failed errorClass)))
      rw [hfail, lifeline_remove _ _ _ hnodup, if_pos rfl]
      simp only [Option.bind_some, Operation.task, if_true]
      exact .single (Step.fail _ errorClass htask (holds_iff.mpr hin))
    · rw [other_operation hremoved (by simp [Operation.task, Ne.symm hone]),
        lifeline_remove _ _ _ hnodup, if_neg hone]
  · exact .refl

theorem publishCancelled_steps (one : Nat) (events : List (GenerationEvent F))
    (hoperation : engine.operation = none) (hcell : engine.cell one ≠ .live) (request : Nat) :
    Steps (engine.lifeline request) ((engine.publishCancelled one events).lifeline request) := by
  have htask : (engine.lifeline request).task = none := by simp [lifeline, hoperation]
  have hlifeline : (engine.publishCancelled one events).lifeline request =
      { engine.lifeline request with
        direct := publishable request (events.map (BackendEvent.mk one)) ++
          (engine.lifeline request).direct
        log := (engine.lifeline request).log ++
          if engine.holds request then
            (eventsFor request (events.map (BackendEvent.mk one))).map .returned
          else [] } := by
    have hlifeline := @noteReturned_lifeline _ engine (events.map (BackendEvent.mk one))
      request
    obtain ⟨log, hlog⟩ := @noteReturned_eq _ engine (events.map (BackendEvent.mk one))
    rw [hlog] at hlifeline
    have hpast : log request = _ := congrArg Lifeline.log hlifeline
    simp only [publishCancelled, hlog]
    simp [lifeline, Frame.direct, Frame.queue, holds, hpast]
  rw [hlifeline]
  by_cases hone : one = request
  · subst hone
    have hevents : eventsFor one (events.map (BackendEvent.mk one)) = events := by
      simp [eventsFor, List.filter_map, Function.comp_def]
    rw [publishable, hevents]
    cases hheld : engine.holds one with
    | true => exact .single (Step.returnsFirst _ events hheld hcell htask)
    | false =>
        simp only [Bool.false_eq_true, if_false, List.append_nil]
        exact .single (Step.ignores _ _ hheld)
  · have hevents : eventsFor request (events.map (BackendEvent.mk one)) = [] := by
      simp [eventsFor, List.filter_map, Function.comp_def, hone]
    rw [publishable, hevents]
    simp only [List.map_nil, ite_self, List.filter_nil, List.nil_append, List.append_nil]
    exact .refl

theorem cancelSlowConsumer_steps (reply : Reply F) (one : Nat) (hoperation : engine.operation = none)
    (hnodup : engine.requests.Nodup) (hcell : engine.cell one ≠ .live) (request : Nat) :
    Steps (engine.lifeline request) ((engine.cancelSlowConsumer reply one).lifeline request) := by
  unfold cancelSlowConsumer
  split
  · exact publishCancelled_steps one _ hoperation hcell request
  · exact failRequest_steps one _ hoperation hnodup request

end Calls

/-- What holds between the requests in every state. -/
structure Valid (config : EngineConfig) (engine : Engine F) : Prop where
  nodup : engine.requests.Nodup
  slow : ∀ request ∈ engine.slowConsumers, engine.cell request ≠ .live
  cancelled : ∀ frame ∈ engine.frames, ∀ request ∈ frame.toCancel, engine.cell request ≠ .live
  /-- Events of a live request are published when none of it is staged. -/
  order : ∀ request, engine.cell request = .live →
    engine.frames.flatMap (Frame.direct request) ≠ [] → (engine.lifeline request).queue = []
  immediate : config.publishAfterSubmit = false → engine.staged = []
  settled : engine.phase.settled = true → engine.staged = []

section Advance

variable {config : EngineConfig} {engine : Engine F} {frame : Frame F} {frames : List (Frame F)}

/-- A request waits no more for its cancellation. -/
theorem lifeline_frames (hframes : engine.frames = frame :: frames) (frame' : Frame F)
    (hqueue : ∀ request, frame'.queue request = frame.queue request)
    (hdirect : ∀ request, frame'.direct request = frame.direct request) (request : Nat) :
    ({ engine with frames := frame' :: frames } : Engine F).lifeline request =
      engine.lifeline request := by
  simp only [lifeline, hframes, List.flatMap_cons, hqueue, hdirect, holds]

theorem lifeline_pop (hframes : engine.frames = frame :: frames)
    (hqueue : ∀ request, frame.queue request = []) (hdirect : ∀ request, frame.direct request = [])
    (request : Nat) :
    ({ engine with frames } : Engine F).lifeline request = engine.lifeline request := by
  simp only [lifeline, hframes, List.flatMap_cons, hqueue, hdirect, holds, List.nil_append]

theorem publish_steps {one : BackendEvent F} {events : List (BackendEvent F)} {after : List Nat}
    (hvalid : engine.Valid config) (hoperation : engine.operation = none)
    (hframes : engine.frames = .publish (one :: events) after :: frames) (request : Nat) :
    Steps (engine.lifeline request)
      ((({ engine with frames := .publish events after :: frames } : Engine F).publishOne
        one).lifeline request) := by
  have hqueue : engine.cell one.request = .live → one.event.isEmptyDelta = false →
      (({ engine with frames := .publish events after :: frames } : Engine F).lifeline
        one.request).queue = [] := by
    intro hcell hempty
    have hdirect : engine.frames.flatMap (Frame.direct one.request) ≠ [] := by
      simp [hframes, Frame.direct, publishable_cons one.request one events,
        publishable_self hempty]
    have hempty := hvalid.order one.request hcell hdirect
    simpa [lifeline, hframes, Frame.queue] using hempty
  have hsteps := @publishOne_steps F { engine with frames := .publish events after :: frames } one
    hoperation hvalid.nodup hqueue request
    (({ engine with frames := .publish events after :: frames } : Engine F).lifeline request).direct
  rw [← publishOne_direct one request] at hsteps
  have hlifeline : engine.lifeline request =
      { ({ engine with frames := .publish events after :: frames } : Engine F).lifeline request with
        direct := publishable request [one] ++
          (({ engine with frames := .publish events after :: frames } : Engine F).lifeline
            request).direct } := by
    simp only [lifeline, hframes, List.flatMap_cons, Frame.queue, Frame.direct, holds,
      publishable_cons request one events, List.append_assoc]
  rw [hlifeline, ← publishOne_direct one request]
  exact hsteps

theorem deliver_steps {one : BackendEvent F} {staged : List (BackendEvent F)}
    (hoperation : engine.operation = none)
    (hframes : engine.frames = .deliver (one :: staged) :: frames) (request : Nat) :
    Steps (engine.lifeline request)
      ((({ engine with frames := .deliver staged :: frames } : Engine F).deliverOne
        one).lifeline request) := by
  have hsteps := @deliverOne_steps F { engine with frames := .deliver staged :: frames } one
    hoperation request
    (({ engine with frames := .deliver staged :: frames } : Engine F).lifeline request).queue
  rw [← deliverOne_queue one request] at hsteps
  have hlifeline : engine.lifeline request =
      { ({ engine with frames := .deliver staged :: frames } : Engine F).lifeline request with
        queue := eventsFor request [one] ++
          (({ engine with frames := .deliver staged :: frames } : Engine F).lifeline
            request).queue } := by
    simp only [lifeline, hframes, List.flatMap_cons, Frame.queue, Frame.direct, holds,
      eventsFor_cons request one staged, List.append_assoc]
  rw [hlifeline, ← deliverOne_queue one request]
  exact hsteps

theorem advance_steps (hvalid : engine.Valid config) (hoperation : engine.operation = none)
    (hframes : engine.frames = frame :: frames) (reply : Reply F) (request : Nat) :
    Steps (engine.lifeline request)
      ((({ engine with frames } : Engine F).advance reply frame).lifeline request) := by
  have hcancelled := hvalid.cancelled frame (by simp [hframes])
  have hnodup := hvalid.nodup
  cases frame with
  | publish events after =>
      cases events with
      | nil =>
          exact Steps.of_eq (lifeline_frames hframes (.cancelAfterPublish after)
            (fun _ => rfl) (fun _ => rfl) request)
      | cons one events => exact publish_steps hvalid hoperation hframes request
  | cancelAfterPublish requests =>
      cases requests with
      | nil => exact Steps.of_eq (lifeline_pop hframes (fun _ => rfl) (fun _ => rfl) request)
      | cons one requests =>
          rw [← lifeline_frames hframes (.cancelAfterPublish requests) (fun _ => rfl)
            (fun _ => rfl) request]
          apply cancelSlowConsumer_steps
          · exact hoperation
          · exact hnodup
          · exact hcancelled one List.mem_cons_self
  | deliver staged =>
      cases staged with
      | nil => exact Steps.of_eq (lifeline_pop hframes (fun _ => rfl) (fun _ => rfl) request)
      | cons one staged => exact deliver_steps hoperation hframes request
  | flush =>
      exact Steps.of_eq (lifeline_frames hframes (.cancelSlow engine.slowConsumers)
        (fun _ => rfl) (fun _ => rfl) request)
  | cancelSlow requests =>
      cases requests with
      | nil => exact Steps.of_eq (lifeline_pop hframes (fun _ => rfl) (fun _ => rfl) request)
      | cons one requests =>
          rw [← lifeline_frames hframes (.cancelSlow requests) (fun _ => rfl)
            (fun _ => rfl) request]
          simp only [advance]
          split
          · apply cancelSlowConsumer_steps
            · exact hoperation
            · exact hnodup
            · exact hcancelled one List.mem_cons_self
          · exact .refl
  | scan requests cancelled =>
      cases requests with
      | nil =>
          exact Steps.of_eq (lifeline_frames hframes (.cancelEach cancelled)
            (fun _ => rfl) (fun _ => rfl) request)
      | cons one requests =>
          simp only [advance]
          split
          next hcell =>
            rw [lifeline_note, lifeline_setCell, lifeline_frames hframes
              (.scan requests (cancelled ++ [one])) (fun _ => rfl) (fun _ => rfl) request]
            by_cases hone : request = one
            · subst hone
              have htask : (engine.lifeline request).task = none := by simp [lifeline, hoperation]
              rw [if_pos rfl, if_pos rfl]
              exact .single (Step.process _ hcell htask)
            · rw [if_neg hone, if_neg hone]
          next hcell =>
            exact Steps.of_eq (lifeline_frames hframes (.scan requests cancelled)
              (fun _ => rfl) (fun _ => rfl) request)
  | cancelEach requests =>
      cases requests with
      | nil => exact Steps.of_eq (lifeline_pop hframes (fun _ => rfl) (fun _ => rfl) request)
      | cons one requests =>
          simp only [advance]
          split
          · rw [← lifeline_frames hframes (.cancelEach requests) (fun _ => rfl)
              (fun _ => rfl) request]
            apply publishCancelled_steps
            · exact hoperation
            · exact hcancelled one List.mem_cons_self
          · exact Steps.of_eq (by
              simp only [lifeline, hframes, List.flatMap_cons, Frame.queue, Frame.direct, holds,
                List.nil_append])
  | failRemaining errorClass =>
      simp only [advance]
      split
      · exact Steps.of_eq (lifeline_pop hframes (fun _ => rfl) (fun _ => rfl) request)
      next one rest hrequests =>
        rw [← lifeline_frames hframes (.failRemaining errorClass) (fun _ => rfl)
          (fun _ => rfl) request]
        apply failRequest_steps
        · exact hoperation
        · exact hnodup
  | drain => exact Steps.of_eq (lifeline_pop hframes (fun _ => rfl) (fun _ => rfl) request)

end Advance

section Iterations

variable {config : EngineConfig} {engine : Engine F}

theorem withdraw_steps (line : Lifeline F) {count : Nat} (h : count ≤ line.waiting) :
    Steps line { line with waiting := count } := by
  induction hless : line.waiting - count generalizing line with
  | zero =>
      obtain rfl : count = line.waiting := by omega
      exact .refl
  | succ less ih =>
      have hstep := Step.withdraw line
      exact .head hstep (ih _ (by simp only; omega) (by simp only; omega))

theorem deliverStaged_lifeline (hframes : engine.frames = []) {after : List (Frame F)}
    {request : Nat} (hqueue : after.flatMap (Frame.queue request) = [])
    (hdirect : after.flatMap (Frame.direct request) = []) :
    (engine.deliverStaged after).lifeline request = engine.lifeline request := by
  simp [lifeline, deliverStaged, hframes, Frame.queue, Frame.direct, hqueue, hdirect, holds,
    eventsFor]

theorem flushStaged_lifeline (hframes : engine.frames = []) (request : Nat) :
    engine.flushStaged.lifeline request = engine.lifeline request :=
  deliverStaged_lifeline hframes rfl rfl

theorem lifeline_phase {phase : Phase F} {request : Nat}
    (h : phase.direct request = engine.phase.direct request) :
    ({ engine with phase } : Engine F).lifeline request = engine.lifeline request := by
  simp only [lifeline, h, holds]

theorem processCancellations_lifeline (request : Nat) :
    engine.processCancellations.lifeline request = engine.lifeline request := rfl

theorem respond_lifeline (one : Nat) (answer : Except EngineError Unit) (request : Nat) :
    (engine.respond one answer).lifeline request = engine.lifeline request := rfl

/-- A submission is taken from the queue. -/
theorem dequeue_lifeline {one : Nat} {commands : List Command}
    (hcommands : engine.commands = .submit one :: commands) (request : Nat) :
    (({ engine with commands } : Engine F).dequeue one).lifeline request =
      if request = one then
        { engine.lifeline request with
          waiting := (engine.lifeline request).waiting - 1
          log := (engine.lifeline request).log ++ [.dequeued] }
      else engine.lifeline request := by
  unfold dequeue
  rw [lifeline_note]
  split
  next hone =>
    subst hone
    simp [lifeline, hcommands, holds, Nat.add_sub_assoc]
  next hone =>
    have hother : Command.submit one ≠ .submit request := fun heq => hone (by cases heq; rfl)
    simp [lifeline, hcommands, holds, hother]

theorem waiting_pos {one : Nat} {commands : List Command}
    (hcommands : engine.commands = .submit one :: commands) : 0 < (engine.lifeline one).waiting := by
  simp only [lifeline, hcommands, List.count_cons_self]
  omega

theorem dequeue_steps {one : Nat} {commands : List Command}
    (hcommands : engine.commands = .submit one :: commands) (request : Nat) :
    Steps (engine.lifeline request)
      ((({ engine with commands } : Engine F).dequeue one).lifeline request) := by
  rw [dequeue_lifeline hcommands]
  split
  next hone =>
    subst hone
    exact .single (Step.dequeue _ (waiting_pos hcommands))
  · exact .refl

theorem admit_lifeline (one request : Nat) :
    (engine.admitRequest one).lifeline request =
      if request = one then
        { engine.lifeline request with
          held := true
          log := (engine.lifeline request).log ++ [.admitted] }
      else engine.lifeline request := by
  unfold admitRequest
  rw [lifeline_note]
  split
  next hone => simp [lifeline, holds, hone]
  next hone => simp [lifeline, holds, hone]

theorem processSubmit_steps {one : Nat} {commands : List Command} (reply : Reply F)
    (hcommands : engine.commands = .submit one :: commands) (hoperation : engine.operation = none)
    (hdirect : (engine.lifeline one).direct = []) (request : Nat) :
    Steps (engine.lifeline request)
      ((({ engine with commands } : Engine F).processSubmit config reply one).lifeline request) := by
  have hdequeue := dequeue_steps hcommands request
  unfold processSubmit
  simp only
  split
  · exact hdequeue
  split
  · exact hdequeue
  next hcell =>
  split
  · exact hdequeue
  split
  · exact hdequeue
  split
  · rw [respond_lifeline, admit_lifeline, dequeue_lifeline hcommands]
    split
    next hone =>
      subst hone
      have hstep := Step.enter (engine.lifeline request) (waiting_pos hcommands)
        (not_not.mp hcell) (by simp [lifeline, hoperation]) hdirect
      simpa [List.append_assoc] using Relation.ReflTransGen.single hstep
    · exact .refl
  · exact hdequeue

theorem processCommand_steps {command : Command} {commands : List Command} (reply : Reply F)
    (hcommands : engine.commands = command :: commands) (hoperation : engine.operation = none)
    (hdirect : ∀ request, (engine.lifeline request).direct = []) (request : Nat) :
    Steps (engine.lifeline request)
      ((({ engine with commands } : Engine F).processCommand config reply command).lifeline
        request) := by
  cases command with
  | submit one => exact processSubmit_steps reply hcommands hoperation (hdirect one) request
  | metrics | wake => exact Steps.of_eq (by simp [processCommand, lifeline, hcommands, holds])

/-- The backend returns the events of an iteration. -/
theorem returned_steps (events : List (BackendEvent F)) (request : Nat)
    (hdirect : (engine.lifeline request).direct = []) :
    Steps (engine.lifeline request)
      { (engine.noteReturned events).lifeline request with direct := publishable request events } := by
  rw [noteReturned_lifeline]
  cases hheld : engine.holds request with
  | true => exact .single (Step.returns _ (eventsFor request events) hheld hdirect)
  | false =>
      simp only [Bool.false_eq_true, if_false, List.append_nil]
      exact .single (Step.ignores _ _ hheld)

theorem noteResult_eq (result : Except ServiceErrorClass (List (BackendEvent F))) :
    ∃ log, engine.noteResult result = { engine with log } := by
  cases result with
  | ok events => exact noteReturned_eq events
  | error _ => exact ⟨engine.log, rfl⟩

theorem submitted_steps (hframes : engine.frames = []) (hphase : engine.phase = .stepping)
    (result : Except ServiceErrorClass (List (BackendEvent F))) (request : Nat) :
    Steps (engine.lifeline request)
      (({ engine.noteResult result with phase := .stepped result } : Engine F).lifeline request) := by
  have hdirect : (engine.lifeline request).direct = [] := by
    simp [lifeline, hframes, hphase, Phase.direct]
  cases result with
  | ok events =>
      obtain ⟨log, hlog⟩ := @noteReturned_eq _ engine events
      have hsteps := returned_steps events request hdirect
      rw [hlog] at hsteps
      simp only [noteResult, hlog]
      simpa [lifeline, hframes, Phase.direct, holds] using hsteps
  | error errorClass =>
      have hkept : engine.phase.direct request = [] := by rw [hphase]; rfl
      exact Steps.of_eq (lifeline_phase hkept.symm)

theorem closing_steps (hframes : engine.frames = []) (hphase : engine.phase = .shutdown)
    (events : List (BackendEvent F)) (errorClass : ServiceErrorClass) (request : Nat) :
    Steps (engine.lifeline request)
      (({ engine.noteReturned events with
        phase := .finish
        frames := .publish events [] :: .failRemaining errorClass ::
          (engine.noteReturned events).frames } : Engine F).lifeline request) := by
  have hdirect : (engine.lifeline request).direct = [] := by
    simp [lifeline, hframes, hphase, Phase.direct]
  obtain ⟨log, hlog⟩ := @noteReturned_eq _ engine events
  have hsteps := returned_steps events request hdirect
  rw [hlog] at hsteps ⊢
  simpa [lifeline, hframes, Phase.direct, Frame.direct, Frame.queue, holds] using hsteps

theorem stepped_steps {events : List (BackendEvent F)} (hoperation : engine.operation = none)
    (hframes : engine.frames = []) (hphase : engine.phase = .stepped (.ok events))
    (hnodup : engine.requests.Nodup) (request : Nat) :
    Steps (engine.lifeline request)
      ((({ engine with phase := .loop } : Engine F).stageEvents events).lifeline request) := by
  have hsteps := @stageEvents_steps _ { engine with phase := .loop } events hoperation hnodup request
  obtain ⟨_, hkept, hkeptPhase⟩ := @stageEvents_kept _ { engine with phase := .loop } events hnodup
  have hdirect : ((({ engine with phase := .loop } : Engine F).stageEvents events).lifeline
      request).direct = [] := by
    unfold lifeline
    simp only [hkept, hkeptPhase]
    simp [hframes, Phase.direct]
  have hlifeline : engine.lifeline request =
      { ({ engine with phase := .loop } : Engine F).lifeline request with
        direct := publishable request events } := by
    simp [lifeline, hframes, hphase, Phase.direct, holds]
  rw [hlifeline]
  rw [← hdirect] at hsteps
  exact hsteps

/-- Submissions that nobody takes any more. -/
theorem dropped_steps (commands : List Command)
    (hcount : ∀ request, commands.count (.submit request) ≤ engine.commands.count (.submit request))
    (phase : Phase F) (request : Nat) (hphase : phase.direct request = engine.phase.direct request) :
    Steps (engine.lifeline request)
      (({ engine with commands, phase } : Engine F).lifeline request) := by
  have hwaiting : engine.registered.count request + commands.count (.submit request) ≤
      (engine.lifeline request).waiting := Nat.add_le_add_left (hcount request) _
  have hsteps := withdraw_steps (engine.lifeline request) hwaiting
  simpa [lifeline, hphase, holds] using hsteps

theorem iteration_steps (hoperation : engine.operation = none) (hframes : engine.frames = [])
    (hnodup : engine.requests.Nodup) (reply : Reply F) (request : Nat) :
    Steps (engine.lifeline request) ((engine.iteration config reply).lifeline request) := by
  have hphased : ∀ phase : Phase F, phase.direct request = engine.phase.direct request →
      Steps (engine.lifeline request)
        (({ engine with phase } : Engine F).lifeline request) :=
    fun phase hdirect => Steps.of_eq (lifeline_phase hdirect)
  unfold iteration
  split
  next hphase => -- loop
    split
    · simp only
      split
      · rw [flushStaged_lifeline]
        · exact hphased .reject (by rw [hphase]; rfl)
        · exact hframes
      · exact hphased .reject (by rw [hphase]; rfl)
    · exact hphased .checked (by rw [hphase]; rfl)
  next hphase => -- checked
    split
    · exact hphased .loop (by rw [hphase]; rfl)
    · exact hphased (.commands false) (by rw [hphase]; rfl)
  next received hphase => -- commands
    split
    next command commands hcommands =>
      rw [processCancellations_lifeline]
      have hsteps := @processCommand_steps _ config { engine with phase := .commanded } command
        commands reply hcommands hoperation
        (fun _ => by simp [lifeline, hframes, Phase.direct]) request
      exact (hphased .commanded (by rw [hphase]; rfl)).trans hsteps
    next hcommands =>
      split
      · exact hphased (.iterate received) (by rw [hphase]; rfl)
      · exact hphased .loop (by rw [hphase]; rfl)
  next hphase => -- commanded
    split
    · exact hphased .loop (by rw [hphase]; rfl)
    · exact hphased (.commands true) (by rw [hphase]; rfl)
  next received hphase => -- iterate
    split
    · exact hphased .loop (by rw [hphase]; rfl)
    split
    · exact hphased .stepping (by rw [hphase]; rfl)
    split
    · exact hphased .loop (by rw [hphase]; rfl)
    · exact hphased .idle (by rw [hphase]; rfl)
  next hphase => -- stepping
    split
    · split
      · exact Steps.of_eq (deliverStaged_lifeline hframes rfl rfl)
      · exact .refl
    · have hsteps := submitted_steps hframes hphase reply.result request
      obtain ⟨log, hlog⟩ := @noteResult_eq _ engine reply.result
      simp only
      split
      · rw [flushStaged_lifeline]
        · exact hsteps
        · rw [hlog]
          exact hframes
      · exact hsteps
  next events hphase => -- stepped
    simp only
    split
    · have hsteps := stepped_steps hoperation hframes hphase hnodup request
      obtain ⟨_, hkept, _⟩ := @stageEvents_kept _ { engine with phase := .loop } events hnodup
      split
      · rw [flushStaged_lifeline]
        · exact hsteps
        · exact hkept.trans hframes
      · exact hsteps
    · exact Steps.of_eq (by
        simp [lifeline, hframes, hphase, Phase.direct, Frame.direct, Frame.queue, holds])
  next errorClass hphase =>
    exact Steps.of_eq (by
      simp [lifeline, hframes, hphase, Phase.direct, Frame.direct, Frame.queue, holds])
  next hphase => -- idle
    simp only
    split
    next command commands hcommands =>
      have hsteps := @processCommand_steps _ config { engine with phase := .loop } command
        commands reply hcommands hoperation
        (fun _ => by simp [lifeline, hframes, Phase.direct]) request
      exact (hphased .loop (by rw [hphase]; rfl)).trans hsteps
    · split
      · exact hphased .loop (by rw [hphase]; rfl)
      · exact hphased .loop (by rw [hphase]; rfl)
  next hphase => -- reject
    split
    next one commands hcommands => exact dequeue_steps hcommands request
    next command commands hother hcommands =>
      exact dropped_steps commands (fun one => by rw [hcommands]; exact List.count_le_count_cons)
        engine.phase request rfl
    next hcommands => exact hphased .shutdown (by rw [hphase]; rfl)
  next hphase => -- shutdown
    split
    next events hresult => exact closing_steps hframes hphase events _ request
    next errorClass hresult =>
      exact Steps.of_eq (by
        simp [lifeline, hframes, hphase, Phase.direct, Frame.direct, Frame.queue, holds])
  next hphase => exact hphased .stopped (by rw [hphase]; rfl)
  next hphase => -- stopped
    exact dropped_steps [] (fun _ => Nat.zero_le _) .gone request (by rw [hphase]; rfl)
  next hphase => exact .refl

end Iterations

section Actions

variable {config : EngineConfig} {engine : Engine F}

theorem sendCommand_eq_some {command : Command} {sent : Engine F}
    (h : sendCommand config engine command = some sent) :
    sent = { engine with commands := engine.commands ++ [command] } := by
  unfold sendCommand at h
  split at h
  · cases h
  split at h
  · exact (Option.some.inj h).symm
  · cases h

theorem signal_lifeline {command : Command} (hcommand : ∀ request, command ≠ .submit request)
    (request : Nat) :
    ((sendCommand config engine command).getD engine).lifeline request =
      engine.lifeline request := by
  cases hsent : sendCommand config engine command with
  | none => rfl
  | some sent =>
      rw [sendCommand_eq_some hsent]
      simp [lifeline, holds, hcommand request]

theorem register_steps (request : Nat) :
    Steps (engine.lifeline request) ((engine.act config .register).lifeline request) := by
  by_cases hone : request = engine.nextRequest
  · subst hone
    have hborn : (engine.lifeline engine.nextRequest).born = false :=
      Bool.eq_false_of_not_eq_true fun htrue => Nat.lt_irrefl _ (Nat.blt_eq.mp htrue)
    have hstep := Step.register _ hborn
    have hlifeline : (engine.act config .register).lifeline engine.nextRequest =
        { engine.lifeline engine.nextRequest with
          born := true
          waiting := (engine.lifeline engine.nextRequest).waiting + 1 } := by
      have htrue : Nat.blt engine.nextRequest (engine.nextRequest + 1) = true :=
        Nat.blt_eq.mpr (Nat.lt_succ_self _)
      simp only [lifeline, act, holds, htrue, List.count_cons_self, Nat.add_right_comm]
    rw [hlifeline]
    exact .single hstep
  · have hborn : Nat.blt request (engine.nextRequest + 1) = Nat.blt request engine.nextRequest := by
      rw [Bool.eq_iff_iff, Nat.blt_eq, Nat.blt_eq]
      omega
    have hcount : (engine.nextRequest :: engine.registered).count request =
        engine.registered.count request := List.count_cons_of_ne (Ne.symm hone)
    exact Steps.of_eq (by simp only [lifeline, act, hborn, hcount, holds])

theorem enqueue_steps (one request : Nat) :
    Steps (engine.lifeline request) ((engine.act config (.enqueue one)).lifeline request) := by
  simp only [act]
  split
  next hin =>
    split
    next sent hsent =>
      rw [sendCommand_eq_some hsent]
      by_cases hone : request = one
      · subst hone
        have hpos := List.count_pos_iff.mpr hin
        have hwaiting : (engine.registered.erase request).count request +
            (engine.commands ++ [Command.submit request]).count (Command.submit request) =
              engine.registered.count request + engine.commands.count (Command.submit request) := by
          rw [List.count_erase_self, List.count_append, List.count_singleton_self]
          omega
        exact Steps.of_eq (by simp only [lifeline, hwaiting, holds])
      · have hother : Command.submit one ≠ .submit request := fun heq => hone (by cases heq; rfl)
        exact Steps.of_eq (by
          simp [lifeline, holds, List.count_erase_of_ne hone, List.count_cons_of_ne hother])
    next hsent =>
      have hwaiting : (engine.registered.erase one).count request +
          engine.commands.count (.submit request) ≤ (engine.lifeline request).waiting :=
        Nat.add_le_add_right (List.erase_sublist.count_le request) _
      exact withdraw_steps _ hwaiting
  · exact .refl

theorem abandon_steps {one : Nat} (hone : one < engine.nextRequest) (request : Nat) :
    Steps (engine.lifeline request)
      (((engine.setCell one .cancelled).note one .abandoned).lifeline request) := by
  rw [lifeline_note, lifeline_setCell]
  split
  next heq =>
    subst heq
    have hborn : (engine.lifeline request).born = true := Nat.blt_eq.mpr hone
    exact .single (Step.abandon _ hborn)
  · exact .refl

theorem act_steps (action : ClientAction) (request : Nat) :
    Steps (engine.lifeline request) ((engine.act config action).lifeline request) := by
  cases action with
  | register => exact register_steps request
  | enqueue one => exact enqueue_steps one request
  | giveUp one =>
      simp only [act]
      split
      next hone => exact abandon_steps hone request
      · exact .refl
  | cancel one =>
      simp only [act]
      split
      next hone => exact abandon_steps hone.1 request
      · exact .refl
  | receive | disconnect | leave => exact .refl
  | wake => exact Steps.of_eq (signal_lifeline (fun _ heq => by cases heq) request)
  | metrics => exact Steps.of_eq (signal_lifeline (fun _ heq => by cases heq) request)
  | beginShutdown =>
      simp only [act]
      split
      · exact .refl
      · exact .refl

end Actions

section Runs

variable {config : EngineConfig} {engine : Engine F}

theorem work_operate {operation : Operation F} (h : engine.operation = some operation)
    (reply : Reply F) :
    engine.work config reply = { engine with operation := none }.operate config operation := by
  unfold work
  split
  next other hother =>
    obtain rfl := Option.some.inj (h.symm.trans hother)
    rfl
  next hnone => cases h.symm.trans hnone

theorem work_advance {frame : Frame F} {frames : List (Frame F)} (h : engine.operation = none)
    (hframes : engine.frames = frame :: frames) (reply : Reply F) :
    engine.work config reply = ({ engine with frames } : Engine F).advance reply frame := by
  unfold work
  split
  next hsome => cases h.symm.trans hsome
  next =>
    split
    next hcons =>
      cases hframes.symm.trans hcons
      rfl
    next hnil => cases hframes.symm.trans hnil

theorem work_iteration (h : engine.operation = none) (hframes : engine.frames = [])
    (reply : Reply F) : engine.work config reply = engine.iteration config reply := by
  unfold work
  split
  next hsome => cases h.symm.trans hsome
  next =>
    split
    next hcons => cases hframes.symm.trans hcons
    next => rfl

theorem work_steps (hvalid : engine.Valid config) (reply : Reply F) (request : Nat) :
    Steps (engine.lifeline request) ((engine.work config reply).lifeline request) := by
  cases hoperation : engine.operation with
  | some operation =>
      rw [work_operate hoperation]
      exact operate_steps config hoperation request
  | none =>
      cases hframes : engine.frames with
      | cons frame frames =>
          rw [work_advance hoperation hframes]
          exact advance_steps hvalid hoperation hframes reply request
      | nil =>
          rw [work_iteration hoperation hframes]
          exact iteration_steps hoperation hframes hvalid.nodup reply request

/-- A step of the engine does to each request what a request may go through. -/
theorem move_steps (hvalid : engine.Valid config) (move : Move F) (request : Nat) :
    Steps (engine.lifeline request) ((engine.move config move).lifeline request) := by
  cases move with
  | client action => exact act_steps action request
  | worker reply => exact work_steps hvalid reply request

end Runs

end Engine

end Riley.Server
