import Riley.Server.EngineSpec

/-!
Runs of the engine: what the stream of a request has of what the backend returned for it,
and what the engine counts.
-/

namespace Riley.Server
variable {F : Type}
namespace Engine
open Lifeline

section Validity

variable {config : EngineConfig} {engine engine' : Engine F}

/-- What a step leaves as it is, or makes less of. -/
structure Shrinks (engine engine' : Engine F) : Prop where
  nodup : engine.requests.Nodup → engine'.requests.Nodup
  slow : ∀ request ∈ engine'.slowConsumers, engine'.cell request = .live →
    request ∈ engine.slowConsumers
  cancelled : ∀ frame ∈ engine'.frames, ∀ request ∈ frame.toCancel, engine'.cell request = .live →
    request ∈ engine.slowConsumers ∨ ∃ frame ∈ engine.frames, request ∈ frame.toCancel
  order : ∀ request, engine'.cell request = .live →
    engine'.frames.flatMap (Frame.direct request) ≠ [] →
      engine.frames.flatMap (Frame.direct request) ≠ [] ∧
        ((engine.lifeline request).queue = [] → (engine'.lifeline request).queue = [])
  staged : engine'.staged = engine.staged ∨ engine'.staged = []
  phase : engine'.phase.settled = true → engine.phase.settled = true ∨ engine'.staged = []

theorem Valid.shrinks (hvalid : engine.Valid config)
    (hlive : ∀ request, engine'.cell request = .live → engine.cell request = .live)
    (h : Shrinks engine engine') : engine'.Valid config where
  nodup := h.nodup hvalid.nodup
  slow := fun request hmem hcell =>
    hvalid.slow request (h.slow request hmem hcell) (hlive request hcell)
  cancelled := by
    intro frame hframe request hmem hcell
    rcases h.cancelled frame hframe request hmem hcell with hslow | ⟨before, hbefore, hin⟩
    · exact hvalid.slow request hslow (hlive request hcell)
    · exact hvalid.cancelled before hbefore request hin (hlive request hcell)
  order := by
    intro request hcell hdirect
    obtain ⟨hbefore, hqueue⟩ := h.order request hcell hdirect
    exact hqueue (hvalid.order request (hlive request hcell) hbefore)
  immediate := by
    intro hmode
    rcases h.staged with heq | hnil
    · rw [heq, hvalid.immediate hmode]
    · exact hnil
  settled := by
    intro hphase
    rcases h.phase hphase with hbefore | hnil
    · rcases h.staged with heq | hnil
      · rw [heq, hvalid.settled hbefore]
      · exact hnil
    · exact hnil

/-- Neither what is staged changes nor what waits to be published. -/
theorem Valid.kept (hvalid : engine.Valid config)
    (hlive : ∀ request, engine'.cell request = .live → engine.cell request = .live)
    (hrequests : engine.requests.Nodup → engine'.requests.Nodup)
    (hslow : engine'.slowConsumers = engine.slowConsumers)
    (hframes : engine'.frames = engine.frames) (hstaged : engine'.staged = engine.staged)
    (hphase : engine'.phase.settled = true → engine.phase.settled = true ∨ engine'.staged = []) :
    engine'.Valid config := by
  apply hvalid.shrinks hlive
  constructor
  · exact hrequests
  · exact fun request hmem _ => hslow ▸ hmem
  · exact fun frame hframe request hmem _ => .inr ⟨frame, hframes ▸ hframe, hmem⟩
  · intro request _ hdirect
    rw [hframes] at hdirect
    refine ⟨hdirect, fun hqueue => ?_⟩
    simpa only [lifeline, hframes, hstaged] using hqueue
  · exact .inl hstaged
  · exact hphase

theorem refuse_cell (one : Nat) : (engine.refuse one).cell = engine.cell := by
  unfold refuse
  split <;> rfl

theorem refuse_shrinks {one : Nat} (hcell : engine.cell one ≠ .live) :
    Shrinks engine (engine.refuse one) := by
  unfold refuse
  split
  next events after frames hframes =>
    constructor
    · exact id
    · exact fun request hmem _ => hmem
    · intro frame hframe request hmem hlive
      rcases List.mem_cons.mp hframe with rfl | hframe
      · rcases List.mem_append.mp hmem with hmem | hmem
        · exact .inr ⟨.publish events after, hframes ▸ List.mem_cons_self, hmem⟩
        · obtain rfl := List.mem_singleton.mp hmem
          exact absurd hlive hcell
      · exact .inr ⟨frame, hframes ▸ List.mem_cons_of_mem _ hframe, hmem⟩
    · intro request _ hdirect
      refine ⟨?_, fun hqueue => ?_⟩
      · simpa [hframes, Frame.direct] using hdirect
      · simpa [lifeline, hframes, Frame.queue] using hqueue
    · exact .inl rfl
    · exact fun hsettled => .inl hsettled
  next hother =>
    constructor
    · exact id
    · intro request hmem hlive
      rcases List.mem_append.mp hmem with hmem | hmem
      · exact hmem
      · obtain rfl := List.mem_singleton.mp hmem
        exact absurd hlive hcell
    · exact fun frame hframe request hmem _ => .inr ⟨frame, hframe, hmem⟩
    · exact fun request _ hdirect => ⟨hdirect, id⟩
    · exact .inl rfl
    · exact fun hsettled => .inl hsettled

theorem trySend_valid (hvalid : engine.Valid config) {request : Nat} {event : GenerationEvent F}
    {sent : Engine F} (h : trySend config engine request event = some sent) :
    sent.Valid config := by
  unfold trySend at h
  simp only at h
  split at h
  · rw [← Option.some.inj h]
    exact hvalid.kept (fun _ => id) id rfl rfl rfl .inl
  · cases h

theorem setCell_live {state : RequestState} {one : Nat} (hstate : state ≠ .live) (request : Nat)
    (hcell : (engine.setCell one state).cell request = .live) : engine.cell request = .live := by
  by_cases hone : request = one
  · simp [setCell, hone, hstate] at hcell
  · simpa [setCell, hone] using hcell

theorem operate_valid (hvalid : engine.Valid config) (operation : Operation F) :
    (({ engine with operation := none } : Engine F).operate config operation).Valid config := by
  have hdone : ({ engine with operation := none } : Engine F).Valid config :=
    hvalid.kept (fun _ => id) id rfl rfl rfl .inl
  cases operation with
  | send one event =>
      simp only [operate]
      split
      next sent hsent => exact trySend_valid hdone hsent
      next hsent => exact hvalid.kept (fun _ => id) id rfl rfl rfl .inl
  | finish one event =>
      simp only [operate]
      cases hsent : trySend config { engine with operation := none } one event with
      | some sent =>
          have hvalid' := trySend_valid hdone hsent
          exact hvalid'.kept (fun _ => id) id rfl rfl rfl .inl
      | none => exact hvalid.kept (fun _ => id) id rfl rfl rfl .inl
  | refused one =>
      simp only [operate]
      split
      next hcell =>
        have hvalid' : (((({ engine with operation := none } : Engine F).setCell one
            .cancelling).note one .cancelling) : Engine F).Valid config :=
          hvalid.kept (setCell_live (by decide)) id rfl rfl rfl .inl
        exact hvalid'.shrinks (by rw [refuse_cell]; exact fun _ => id)
          (refuse_shrinks (by simp [note, setCell]))
      · exact hdone
  | storeTerminal one =>
      exact hvalid.kept (setCell_live (by decide)) id rfl rfl rfl .inl

/-- A call goes on, with less left of it. -/
theorem Valid.next (hvalid : engine.Valid config) {frame frame' : Frame F} {frames : List (Frame F)}
    (hframes : engine.frames = frame :: frames)
    (hcancel : ∀ request ∈ frame'.toCancel, request ∈ frame.toCancel)
    (hdirect : ∀ request, frame.direct request = [] → frame'.direct request = [])
    (hqueue : ∀ request, frame.queue request = [] → frame'.queue request = []) :
    ({ engine with frames := frame' :: frames } : Engine F).Valid config := by
  refine hvalid.shrinks (fun _ hcell => hcell) ?_
  constructor
  · exact id
  · exact fun request hmem _ => hmem
  · intro one hone request hmem _
    rcases List.mem_cons.mp hone with rfl | hone
    · exact .inr ⟨frame, hframes ▸ List.mem_cons_self, hcancel request hmem⟩
    · exact .inr ⟨one, hframes ▸ List.mem_cons_of_mem _ hone, hmem⟩
  · intro request _ hnext
    simp only [hframes, List.flatMap_cons, ne_eq, List.append_eq_nil_iff, not_and] at hnext ⊢
    refine ⟨fun hempty => hnext (hdirect request hempty), fun hempty => ?_⟩
    simp only [lifeline, hframes, List.flatMap_cons, List.append_eq_nil_iff] at hempty ⊢
    exact ⟨⟨hqueue request hempty.1.1, hempty.1.2⟩, hempty.2⟩
  · exact .inl rfl
  · exact fun hsettled => .inl hsettled

theorem Valid.pop (hvalid : engine.Valid config) {frame : Frame F} {frames : List (Frame F)}
    (hframes : engine.frames = frame :: frames) :
    ({ engine with frames } : Engine F).Valid config := by
  refine hvalid.shrinks (fun _ hcell => hcell) ?_
  constructor
  · exact id
  · exact fun request hmem _ => hmem
  · exact fun one hone request hmem _ => .inr ⟨one, hframes ▸ List.mem_cons_of_mem _ hone, hmem⟩
  · intro request _ hnext
    simp only [hframes, List.flatMap_cons, ne_eq, List.append_eq_nil_iff, not_and] at hnext ⊢
    refine ⟨fun _ => hnext, fun hempty => ?_⟩
    simp only [lifeline, hframes, List.flatMap_cons, List.append_eq_nil_iff] at hempty ⊢
    exact ⟨hempty.1.2, hempty.2⟩
  · exact .inl rfl
  · exact fun hsettled => .inl hsettled

theorem publishOne_valid (hvalid : engine.Valid config) (one : BackendEvent F) :
    (engine.publishOne one).Valid config := by
  unfold publishOne
  simp only
  split
  · exact hvalid
  split
  · exact hvalid.kept (fun _ => id) (List.Nodup.erase _) rfl rfl rfl .inl
  split
  · exact hvalid
  split
  · exact hvalid
  · exact hvalid.kept (fun _ => id) id rfl rfl rfl .inl

theorem deliverOne_valid (hvalid : engine.Valid config) (one : BackendEvent F) :
    (engine.deliverOne one).Valid config := by
  unfold deliverOne
  split
  · exact hvalid.kept (fun _ => id) id rfl rfl rfl .inl
  split
  · exact hvalid
  · exact hvalid.kept (fun _ => id) id rfl rfl rfl .inl

theorem failRequest_valid (hvalid : engine.Valid config) (one : Nat)
    (errorClass : ServiceErrorClass) : (engine.failRequest one errorClass).Valid config := by
  unfold failRequest
  split
  · exact hvalid.kept (fun _ => id) (List.Nodup.erase _) rfl rfl rfl .inl
  · exact hvalid

/-- A call is made that publishes nothing of a live request. -/
theorem Valid.push (hvalid : engine.Valid config) (frame : Frame F)
    (hcancel : ∀ request ∈ frame.toCancel, engine.cell request ≠ .live)
    (hdirect : ∀ request, engine.cell request = .live → frame.direct request = [])
    (hqueue : ∀ request, frame.queue request = []) :
    ({ engine with frames := frame :: engine.frames } : Engine F).Valid config where
  nodup := hvalid.nodup
  slow := hvalid.slow
  cancelled := by
    intro one hone request hmem
    rcases List.mem_cons.mp hone with rfl | hone
    · exact hcancel request hmem
    · exact hvalid.cancelled one hone request hmem
  order := by
    intro request hcell hnext
    rw [List.flatMap_cons, hdirect request hcell, List.nil_append] at hnext
    have hempty := hvalid.order request hcell hnext
    simpa only [lifeline, List.flatMap_cons, hqueue, List.nil_append] using hempty
  immediate := hvalid.immediate
  settled := hvalid.settled

theorem publishCancelled_valid (hvalid : engine.Valid config) {one : Nat}
    (hcell : engine.cell one ≠ .live) (events : List (GenerationEvent F)) :
    (engine.publishCancelled one events).Valid config := by
  obtain ⟨log, hlog⟩ := @noteReturned_eq _ engine (events.map (BackendEvent.mk one))
  have hnoted : ({ engine with log } : Engine F).Valid config :=
    hvalid.kept (fun _ => id) id rfl rfl rfl .inl
  simp only [publishCancelled, hlog]
  apply hnoted.push
  · exact fun request hmem => by cases hmem
  · intro request hlive
    have hother : one ≠ request := fun heq => hcell (heq ▸ hlive)
    simp [Frame.direct, publishable, eventsFor, List.filter_map, Function.comp_def, hother]
  · exact fun _ => rfl

theorem cancelSlowConsumer_valid (hvalid : engine.Valid config) (reply : Reply F) {one : Nat}
    (hcell : engine.cell one ≠ .live) : (engine.cancelSlowConsumer reply one).Valid config := by
  unfold cancelSlowConsumer
  split
  · exact publishCancelled_valid hvalid hcell _
  · exact failRequest_valid hvalid one _

theorem advance_valid (hvalid : engine.Valid config) {frame : Frame F} {frames : List (Frame F)}
    (hframes : engine.frames = frame :: frames) (reply : Reply F) :
    (({ engine with frames } : Engine F).advance reply frame).Valid config := by
  have hcancelled := hvalid.cancelled frame (by simp [hframes])
  have hless : ∀ {requests : List Nat} {one : Nat}, ∀ request ∈ requests,
      request ∈ one :: requests := fun request => List.mem_cons_of_mem _
  cases frame with
  | publish events after =>
      cases events with
      | nil => exact hvalid.next hframes (fun _ => id) (fun _ _ => rfl) (fun _ _ => rfl)
      | cons one events =>
          have hnext : ({ engine with frames := .publish events after :: frames } :
              Engine F).Valid config := by
            refine hvalid.next hframes (fun _ hmem => hmem) ?_ (fun _ _ => rfl)
            intro request hempty
            rw [Frame.direct, publishable_cons, List.append_eq_nil_iff] at hempty
            exact hempty.2
          exact publishOne_valid hnext one
  | cancelAfterPublish requests =>
      cases requests with
      | nil => exact hvalid.pop hframes
      | cons one requests =>
          have hnext : ({ engine with frames := .cancelAfterPublish requests :: frames } :
              Engine F).Valid config :=
            hvalid.next hframes hless (fun _ _ => rfl) (fun _ _ => rfl)
          exact cancelSlowConsumer_valid hnext reply (hcancelled one List.mem_cons_self)
  | deliver staged =>
      cases staged with
      | nil => exact hvalid.pop hframes
      | cons one staged =>
          have hnext : ({ engine with frames := .deliver staged :: frames } :
              Engine F).Valid config := by
            refine hvalid.next hframes (fun _ hmem => hmem) (fun _ _ => rfl) ?_
            intro request hempty
            rw [Frame.queue, eventsFor_cons, List.append_eq_nil_iff] at hempty
            exact hempty.2
          exact deliverOne_valid hnext one
  | flush =>
      refine hvalid.shrinks (fun _ hcell => hcell) ?_
      constructor
      · exact id
      · exact fun request hmem _ => by cases hmem
      · intro one hone request hmem _
        rcases List.mem_cons.mp hone with rfl | hone
        · exact .inl hmem
        · exact .inr ⟨one, hframes ▸ List.mem_cons_of_mem _ hone, hmem⟩
      · intro request _ hnext
        refine ⟨by simpa [hframes, advance, Frame.direct] using hnext, fun hempty => ?_⟩
        simpa [lifeline, hframes, advance, Frame.queue] using hempty
      · exact .inl rfl
      · exact fun hsettled => .inl hsettled
  | cancelSlow requests =>
      cases requests with
      | nil => exact hvalid.pop hframes
      | cons one requests =>
          have hnext : ({ engine with frames := .cancelSlow requests :: frames } :
              Engine F).Valid config :=
            hvalid.next hframes hless (fun _ _ => rfl) (fun _ _ => rfl)
          simp only [advance]
          split
          · exact cancelSlowConsumer_valid hnext reply (hcancelled one List.mem_cons_self)
          · exact hnext
  | scan requests cancelled =>
      cases requests with
      | nil => exact hvalid.next hframes (fun _ => id) (fun _ _ => rfl) (fun _ _ => rfl)
      | cons one requests =>
          simp only [advance]
          split
          next hcell =>
            refine hvalid.shrinks (setCell_live (by decide)) ?_
            constructor
            · exact id
            · exact fun request hmem _ => hmem
            · intro frame hframe request hmem hlive
              rcases List.mem_cons.mp hframe with rfl | hframe
              · rcases List.mem_append.mp hmem with hmem | hmem
                · exact .inr ⟨.scan (one :: requests) cancelled, by simp [hframes], hmem⟩
                · obtain rfl := List.mem_singleton.mp hmem
                  simp [note, setCell] at hlive
              · exact .inr ⟨frame, hframes ▸ List.mem_cons_of_mem _ hframe, hmem⟩
            · intro request _ hnext
              refine ⟨by simpa [hframes, note, setCell, Frame.direct] using hnext,
                fun hempty => ?_⟩
              simpa [lifeline, hframes, note, setCell, Frame.queue] using hempty
            · exact .inl rfl
            · exact fun hsettled => .inl hsettled
          next hcell => exact hvalid.next hframes (fun _ => id) (fun _ _ => rfl) (fun _ _ => rfl)
  | cancelEach requests =>
      cases requests with
      | nil => exact hvalid.pop hframes
      | cons one requests =>
          simp only [advance]
          split
          · have hnext : ({ engine with frames := .cancelEach requests :: frames } :
                Engine F).Valid config :=
              hvalid.next hframes hless (fun _ _ => rfl) (fun _ _ => rfl)
            exact publishCancelled_valid hnext (hcancelled one List.mem_cons_self) _
          next errorClass _ =>
            have hdrain : ({ engine with frames := .drain :: frames } : Engine F).Valid config :=
              hvalid.next hframes (fun _ hmem => by cases hmem) (fun _ _ => rfl) (fun _ _ => rfl)
            exact hdrain.push (.failRemaining errorClass) (fun _ hmem => by cases hmem)
              (fun _ _ => rfl) (fun _ => rfl)
  | failRemaining errorClass =>
      simp only [advance]
      split
      · exact hvalid.pop hframes
      next one rest hrequests =>
        have hnext : ({ engine with frames := .failRemaining errorClass :: frames } :
            Engine F).Valid config :=
          hvalid.next hframes (fun _ => id) (fun _ _ => rfl) (fun _ _ => rfl)
        exact failRequest_valid hnext one errorClass
  | drain =>
      exact (hvalid.pop hframes).kept (fun _ => id) id rfl rfl rfl .inl

/-- What is staged is all taken for delivery. -/
theorem deliverStaged_valid (hnodup : engine.requests.Nodup)
    (hslow : ∀ request ∈ engine.slowConsumers, engine.cell request ≠ .live)
    (hframes : engine.frames = []) {after : List (Frame F)} (hafter : after = [] ∨ after = [.flush]) :
    (engine.deliverStaged after).Valid config where
  nodup := hnodup
  slow := hslow
  cancelled := by
    intro frame hframe request hmem
    have hnone : frame.toCancel = [] := by
      rcases hafter with rfl | rfl
      · simp only [deliverStaged, hframes, List.append_nil, List.mem_singleton] at hframe
        subst hframe
        rfl
      · simp only [deliverStaged, hframes, List.append_nil, List.mem_cons, List.not_mem_nil,
          or_false] at hframe
        rcases hframe with rfl | rfl <;> rfl
    simp [hnone] at hmem
  order := by
    intro request _ hdirect
    rcases hafter with rfl | rfl <;> simp_all [deliverStaged, Frame.direct]
  immediate := fun _ => rfl
  settled := fun _ => rfl

theorem processCancellations_valid (hvalid : engine.Valid config) :
    engine.processCancellations.Valid config :=
  hvalid.push (.scan engine.requests []) (fun _ hmem => by cases hmem) (fun _ _ => rfl) (fun _ => rfl)

theorem processSubmit_valid {one : Nat} {commands : List Command} (hvalid : engine.Valid config)
    (hsound : (engine.lifeline one).Sound) (hcommands : engine.commands = .submit one :: commands)
    (reply : Reply F) :
    (({ engine with commands } : Engine F).processSubmit config reply one).Valid config := by
  have hkept : ({ engine with commands } : Engine F).Valid config :=
    hvalid.kept (fun _ => id) id rfl rfl rfl .inl
  have hdequeued : (({ engine with commands } : Engine F).dequeue one).Valid config :=
    hvalid.kept (fun _ => id) id rfl rfl rfl .inl
  have hanswer : ∀ answer,
      ((({ engine with commands } : Engine F).dequeue one).respond one answer).Valid config :=
    fun _ => hvalid.kept (fun _ => id) id rfl rfl rfl .inl
  unfold processSubmit
  simp only
  split
  · exact hanswer _
  split
  · exact hanswer _
  split
  · exact hanswer _
  split
  · exact hanswer _
  split
  · refine hvalid.kept (fun _ => id) (fun _ => ?_) rfl rfl rfl .inl
    have hout : one ∉ engine.requests :=
      not_holds.mp (hsound.counts.waiting (waiting_pos hcommands))
    have hperm := List.perm_orderedInsert (· ≤ ·) one engine.requests
    exact hperm.nodup_iff.mpr (List.nodup_cons.mpr ⟨hout, hvalid.nodup⟩)
  · exact hanswer _

theorem processCommand_valid {command : Command} {commands : List Command}
    (hvalid : engine.Valid config) (hsound : ∀ request, (engine.lifeline request).Sound)
    (hcommands : engine.commands = command :: commands) (reply : Reply F) :
    (({ engine with commands } : Engine F).processCommand config reply command).Valid config := by
  cases command with
  | submit one => exact processSubmit_valid hvalid (hsound one) hcommands reply
  | metrics | wake => exact hvalid.kept (fun _ => id) id rfl rfl rfl .inl

theorem stageEvents_slow (events : List (BackendEvent F)) :
    (engine.stageEvents events).slowConsumers = engine.slowConsumers ∧
      (engine.stageEvents events).cell = engine.cell := by
  induction events generalizing engine with
  | nil => exact ⟨rfl, rfl⟩
  | cons one events ih =>
      obtain ⟨hslow, hcell⟩ := @ih (engine.stageOne one)
      have hone : (engine.stageOne one).slowConsumers = engine.slowConsumers ∧
          (engine.stageOne one).cell = engine.cell := by
        unfold stageOne remove note
        split
        · exact ⟨rfl, rfl⟩
        split
        · exact ⟨rfl, rfl⟩
        simp only
        split <;> exact ⟨rfl, rfl⟩
      exact ⟨hslow.trans hone.1, hcell.trans hone.2⟩

/-- The events of an iteration are staged while nothing waits to be published. -/
theorem stageEvents_valid (hvalid : engine.Valid config) (hframes : engine.frames = [])
    (hmode : config.publishAfterSubmit = true) (hphase : engine.phase.settled = false)
    (events : List (BackendEvent F)) : (engine.stageEvents events).Valid config := by
  obtain ⟨hnodup, hkept, hkeptPhase⟩ := stageEvents_kept events hvalid.nodup
  obtain ⟨hslow, hcell⟩ := @stageEvents_slow _ engine events
  constructor
  · exact hnodup
  · rw [hslow, hcell]
    exact hvalid.slow
  · simp [hkept, hframes]
  · simp [hkept, hframes]
  · simp [hmode]
  · simp [hkeptPhase, hphase]

/-- Events are published while none is staged. -/
theorem Valid.publishing (hvalid : engine.Valid config)
    (hqueue : ∀ request, engine.frames.flatMap (Frame.queue request) = [])
    (hstaged : engine.staged = []) (events : List (BackendEvent F)) :
    ({ engine with frames := .publish events [] :: engine.frames } : Engine F).Valid config where
  nodup := hvalid.nodup
  slow := hvalid.slow
  cancelled := by
    intro frame hframe request hmem
    rcases List.mem_cons.mp hframe with rfl | hframe
    · cases hmem
    · exact hvalid.cancelled frame hframe request hmem
  order := by
    intro request _ _
    simp only [lifeline, List.flatMap_cons, Frame.queue, hqueue request, hstaged, eventsFor,
      List.filter_nil, List.map_nil, List.append_nil]
  immediate := hvalid.immediate
  settled := hvalid.settled

theorem iteration_valid (hvalid : engine.Valid config)
    (hsound : ∀ request, (engine.lifeline request).Sound) (hframes : engine.frames = [])
    (reply : Reply F) : (engine.iteration config reply).Valid config := by
  have hphased : ∀ phase : Phase F, (phase.settled = true → engine.phase.settled = true) →
      ({ engine with phase } : Engine F).Valid config :=
    fun phase hphase => hvalid.kept (fun _ => id) id rfl rfl rfl fun hsettled => .inl (hphase hsettled)
  have hcommanded : ∀ phase : Phase F, (∀ request, phase.direct request = engine.phase.direct request) →
      phase.settled = false → ∀ command commands, engine.commands = command :: commands →
        (({ engine with commands, phase } : Engine F).processCommand config reply
          command).Valid config := by
    intro phase hdirect hphase command commands hcommands
    refine @processCommand_valid _ config { engine with phase } command commands
      (hphased phase (by simp [hphase])) (fun request => ?_) hcommands reply
    rw [lifeline_phase (hdirect request)]
    exact hsound request
  unfold iteration
  split
  next hphase => -- loop
    split
    · simp only
      split
      · exact @deliverStaged_valid _ config { engine with phase := .reject } hvalid.nodup hvalid.slow
          hframes _ (.inr rfl)
      next hmode =>
        exact hvalid.kept (fun _ => id) id rfl rfl rfl fun _ =>
          .inr (hvalid.immediate (Bool.eq_false_of_not_eq_true hmode))
    · exact processCancellations_valid (hphased .checked (by simp [Phase.settled]))
  next hphase => -- checked
    split
    · exact hvalid.kept (fun _ => id) id rfl rfl rfl (by simp [Phase.settled])
    · exact hphased (.commands false) (by simp [Phase.settled])
  next received hphase => -- commands
    split
    next command commands hcommands =>
      have hcommand := hcommanded .commanded (fun _ => by rw [hphase]; rfl) rfl command commands hcommands
      exact processCancellations_valid hcommand
    next hcommands =>
      split
      · exact hphased (.iterate received) (by simp [Phase.settled])
      · exact hvalid.kept (fun _ => id) id rfl rfl rfl (by simp [Phase.settled])
  next hphase => -- commanded
    split
    · exact hphased .loop (by simp [Phase.settled])
    · exact hphased (.commands true) (by simp [Phase.settled])
  next received hphase => -- iterate
    split
    · exact hphased .loop (by simp [Phase.settled])
    split
    · exact hphased .stepping (by simp [Phase.settled])
    split
    · exact hphased .loop (by simp [Phase.settled])
    · exact hphased .idle (by simp [Phase.settled])
  next hphase => -- stepping
    split
    · split
      · exact deliverStaged_valid hvalid.nodup hvalid.slow hframes (.inl rfl)
      · exact hvalid
    · obtain ⟨log, hlog⟩ := @noteResult_eq _ engine reply.result
      rw [hlog]
      simp only
      split
      · exact @deliverStaged_valid _ config { engine with log, phase := .stepped reply.result }
          hvalid.nodup hvalid.slow hframes _ (.inr rfl)
      · exact hvalid.kept (fun _ => id) id rfl rfl rfl (by simp [Phase.settled])
  next events hphase => -- stepped
    have hloop := hphased .loop (by simp [Phase.settled])
    simp only
    split
    next hmode =>
      have hstaged := stageEvents_valid hloop hframes hmode rfl events
      obtain ⟨_, hkept, _⟩ := @stageEvents_kept _ { engine with phase := .loop } events hvalid.nodup
      split
      · exact deliverStaged_valid hstaged.nodup hstaged.slow (hkept.trans hframes) (.inr rfl)
      · exact hstaged
    next hmode =>
      exact hloop.publishing (fun _ => by simp [hframes]) (hvalid.immediate (Bool.eq_false_of_not_eq_true hmode)) events
  next errorClass hphase =>
    have hdrain := (hphased .loop (by simp [Phase.settled])).push .drain (fun _ hmem => by cases hmem)
      (fun _ _ => rfl) (fun _ => rfl)
    exact hdrain.push (.failRemaining errorClass) (fun _ hmem => by cases hmem) (fun _ _ => rfl)
      (fun _ => rfl)
  next hphase => -- idle
    simp only
    split
    next command commands hcommands =>
      exact hcommanded .loop (fun _ => by rw [hphase]; rfl) rfl command commands hcommands
    · split
      · exact hphased .loop (by simp [Phase.settled])
      · exact hvalid.kept (fun _ => id) id rfl rfl rfl (by simp [Phase.settled])
  next hphase => -- reject
    split
    · exact hvalid.kept (fun _ => id) id rfl rfl rfl .inl
    · exact hvalid.kept (fun _ => id) id rfl rfl rfl .inl
    · exact hphased .shutdown (by simp [hphase, Phase.settled])
  next hphase => -- shutdown
    have hstaged := hvalid.settled (by rw [hphase]; rfl)
    split
    next events hresult =>
      obtain ⟨log, hlog⟩ := @noteReturned_eq _ engine events
      simp only [hlog]
      have hclosing : ({ engine with log, phase := .finish } : Engine F).Valid config :=
        hvalid.kept (fun _ => id) id rfl rfl rfl fun _ => .inr hstaged
      have hfailing := hclosing.push
        (.failRemaining (if engine.hasFailed then .internal else .shuttingDown))
        (fun _ hmem => by cases hmem) (fun _ _ => rfl) (fun _ => rfl)
      exact hfailing.publishing (fun _ => by simp [hframes, Frame.queue]) hstaged events
    next errorClass hresult =>
      have hclosing : ({ engine with hasFailed := true, phase := .finish } : Engine F).Valid config :=
        hvalid.kept (fun _ => id) id rfl rfl rfl fun _ => .inr hstaged
      exact hclosing.push (.failRemaining .internal) (fun _ hmem => by cases hmem) (fun _ _ => rfl)
        (fun _ => rfl)
  next hphase => exact hvalid.kept (fun _ => id) id rfl rfl rfl (by simp [hphase, Phase.settled])
  next hphase => exact hvalid.kept (fun _ => id) id rfl rfl rfl (by simp [hphase, Phase.settled])
  next hphase => exact hvalid

theorem work_valid (hvalid : engine.Valid config)
    (hsound : ∀ request, (engine.lifeline request).Sound) (reply : Reply F) :
    (engine.work config reply).Valid config := by
  cases hoperation : engine.operation with
  | some operation =>
      rw [work_operate hoperation]
      exact operate_valid hvalid operation
  | none =>
      cases hframes : engine.frames with
      | cons frame frames =>
          rw [work_advance hoperation hframes]
          exact advance_valid hvalid hframes reply
      | nil =>
          rw [work_iteration hoperation hframes]
          exact iteration_valid hvalid hsound hframes reply

theorem sendCommand_valid (hvalid : engine.Valid config) {command : Command} {sent : Engine F}
    (h : sendCommand config engine command = some sent) : sent.Valid config := by
  rw [sendCommand_eq_some h]
  exact hvalid.kept (fun _ => id) id rfl rfl rfl .inl

theorem act_valid (hvalid : engine.Valid config) (action : ClientAction) :
    (engine.act config action).Valid config := by
  cases action with
  | register => exact hvalid.kept (fun _ => id) id rfl rfl rfl .inl
  | enqueue one =>
      simp only [act]
      split
      · split
        next sent hsent =>
          have hwithdrawn : ({ engine with registered := engine.registered.erase one } :
              Engine F).Valid config := hvalid.kept (fun _ => id) id rfl rfl rfl .inl
          exact sendCommand_valid hwithdrawn hsent
        · exact hvalid.kept (fun _ => id) id rfl rfl rfl .inl
      · exact hvalid
  | giveUp one =>
      simp only [act]
      split
      · exact hvalid.kept (setCell_live (by decide)) id rfl rfl rfl .inl
      · exact hvalid
  | cancel one =>
      simp only [act]
      split
      · exact hvalid.kept (setCell_live (by decide)) id rfl rfl rfl .inl
      · exact hvalid
  | receive | disconnect | leave => exact hvalid.kept (fun _ => id) id rfl rfl rfl .inl
  | wake | metrics =>
      simp only [act]
      cases hsent : sendCommand config engine _ with
      | none => exact hvalid
      | some sent => exact sendCommand_valid hvalid hsent
  | beginShutdown =>
      simp only [act]
      split
      · exact hvalid.kept (fun _ => id) id rfl rfl rfl .inl
      · exact hvalid

end Validity

end Engine

end Riley.Server
