import Mathlib.Data.List.TakeWhile
import Riley.TensorParallel.Outcomes

/-!
Lockstep: ranks that differ do not go on together. A call that leaves its ranks unlike
each other has poisoned the leader, except where the leader's run failed and was spared.
-/

namespace Riley.TensorParallel

/-- The iterations of a rank before the one of a call. -/
def before (call : Nat) (history : History) : History :=
  history.takeWhile fun entry => decide (entry.1 ≠ call)

namespace Group

/-- The executors of all ranks, the leader first. -/
def ranks (group : Group) : List Executor := group.leader :: group.followers.map Follower.executor

/-- A group whose leader stays poisoned, so that no call after this one begins. -/
def Refuses (group : Group) : Prop :=
  ∀ actions later, group.runs actions = some later →
    later.leader.isPoisoned = true ∧ (∀ packs, (later.leader.admission packs).isSome = true) ∧
      later.call = group.call

structure Lockstep (group : Group) : Prop where
  /-- Ranks that differ when a call returns are the last word of the group. -/
  stops : group.phase = .idle → ∀ rank ∈ group.ranks, rank.history ≠ group.leader.history →
    group.Refuses
  once : ∀ rank ∈ group.ranks, (rank.history.map Prod.fst).Nodup
  /-- Two ranks that ran an iteration ran it behind the same ones. -/
  alike : ∀ rank ∈ group.ranks, ∀ other ∈ group.ranks, ∀ call,
    call ∈ rank.history.map Prod.fst → call ∈ other.history.map Prod.fst →
      before call rank.history = before call other.history
  /-- The reply that a wait reads is one to the iteration at hand. -/
  replies : ∀ purpose next firstError follower reply,
    group.phase = .waiting purpose next firstError → group.pending ≠ 0 →
      group.followers[next]? = some follower → follower.outbox = some reply →
        reply.call = group.call
  /-- No reply, and nothing that would become one, is left for the next call. -/
  leftover : group.phase = .idle → group.leader.isPoisoned = false →
    group.pending = 0 ∧ ∀ follower ∈ group.followers, Resting follower

end Group

section Refusal

variable {group next : Group} {call : Nat}

/-- A poisoned leader outside of a call: all it can still do is close. -/
structure Halted (call : Nat) (group : Group) : Prop where
  poisoned : group.leader.isPoisoned = true
  call : group.call = call
  phase : group.phase = .idle ∨ (∃ turn firstError, group.phase = .waiting .closing turn firstError) ∨
    group.phase = .closed

theorem admission_poisoned {executor : Executor} (h : executor.isPoisoned = true)
    (packs : Option LlamaBatchExecutorError) : (executor.admission packs).isSome = true := by
  unfold Executor.admission
  split
  · rfl
  · rfl

theorem Halted.follow (h : Halted call group) {index : Nat}
    {change : Follower → Option Follower} (hstep : group.withFollower index change = some next) :
    Halted call next := by
  obtain ⟨follower, _, hstep⟩ := Option.bind_eq_some_iff.mp hstep
  obtain ⟨changed, _, hstep⟩ := Option.bind_eq_some_iff.mp hstep
  cases hstep
  exact ⟨h.poisoned, h.call, h.phase⟩

theorem Halted.wait (h : Halted call group) {turn : Nat}
    {firstError : Option LlamaBatchExecutorError}
    (hstep : group.waitNext .closing turn firstError = some next) : Halted call next := by
  unfold Group.waitNext at hstep
  split at hstep
  · split at hstep
    · cases hstep
      exact ⟨h.poisoned, h.call, .inr (.inl ⟨_, _, rfl⟩)⟩
    · split at hstep
      · cases hstep
      · cases hstep
        exact ⟨h.poisoned, h.call, .inr (.inl ⟨_, _, rfl⟩)⟩
  · cases hstep

theorem Halted.conclude (h : Halted call group) {turn : Nat}
    {firstError : Option LlamaBatchExecutorError}
    (hstep : group.conclude .closing turn firstError = some next) : Halted call next := by
  unfold Group.conclude at hstep
  split at hstep
  · cases hstep
    exact ⟨h.poisoned, h.call, .inr (.inr rfl)⟩
  · cases hstep

theorem Halted.step (h : Halted call group) {action : Action}
    (hstep : group.step action = some next) : Halted call next := by
  cases action with
  | followerExecutes index packs run => exact h.follow hstep
  | followerReplies index => exact h.follow hstep
  | followerStops index touch => exact h.follow hstep
  | execute packs =>
      simp only [Group.step] at hstep
      split at hstep
      · cases hstep
        unfold Group.beginExecute
        split
        · exact h
        · next hadmission => cases hadmission ▸ admission_poisoned h.poisoned packs
      · cases hstep
  | close =>
      simp only [Group.step] at hstep
      split at hstep
      · cases hstep
        exact ⟨h.poisoned, h.call, .inr (.inl ⟨_, _, rfl⟩)⟩
      · cases hstep
  | wait =>
      simp only [Group.step] at hstep
      obtain hgroup | ⟨turn, firstError, hgroup⟩ | hgroup := h.phase <;> rw [hgroup] at hstep
      · cases hstep
      · exact h.wait hstep
      · cases hstep
  | finish =>
      simp only [Group.step] at hstep
      obtain hgroup | ⟨turn, firstError, hgroup⟩ | hgroup := h.phase <;> rw [hgroup] at hstep
      · cases hstep
      · exact h.conclude hstep
      · cases hstep
  | dispatch =>
      simp only [Group.step] at hstep
      obtain hgroup | ⟨turn, firstError, hgroup⟩ | hgroup := h.phase <;> rw [hgroup] at hstep <;>
        cases hstep
  | run run =>
      simp only [Group.step] at hstep
      obtain hgroup | ⟨turn, firstError, hgroup⟩ | hgroup := h.phase <;> rw [hgroup] at hstep <;>
        cases hstep

theorem Halted.runs (h : Halted call group) {actions : List Action}
    (hruns : group.runs actions = some next) : Halted call next := by
  induction actions generalizing group with
  | nil =>
      cases hruns
      exact h
  | cons action rest ih =>
      obtain ⟨middle, hstep, hrest⟩ := Option.bind_eq_some_iff.mp hruns
      exact ih (h.step hstep) hrest

theorem Halted.refuses (h : Halted group.call group) : group.Refuses := by
  intro actions later hruns
  have hlater := h.runs hruns
  exact ⟨hlater.poisoned, admission_poisoned hlater.poisoned, hlater.call⟩

end Refusal

section Ranks

variable {group : Group} {base : History} {lo hi : Nat}

theorem Stands.recorded {call : Nat} {follower : Follower} {index : Nat}
    (h : Stands base call lo hi index follower) :
    Recorded base call follower.executor.history := by
  cases Nat.lt_or_ge index lo with
  | inl hlt => exact (h.served hlt).recorded
  | inr hle =>
      cases Nat.lt_or_ge index hi with
      | inr hle => exact .inl (h.fresh hle).history
      | inl hlt =>
          cases h.engaged hle hlt with
          | given alive inbox replying outbox history => exact .inl history
          | replying reply alive inbox replying outbox answers => exact answers.recorded
          | replied reply inbox replying outbox answers => exact answers.recorded
          | stopped alive resting recorded => exact recorded

/-- Every rank has the common record, with or without the iteration of a new call. -/
theorem Standing.ranks (h : Standing group base lo hi) :
    (∀ rank ∈ group.ranks, rank.history = base) ∨
      ((∀ rank ∈ group.ranks, Recorded base group.call rank.history) ∧
        ∀ entry ∈ base, entry.1 < group.call) := by
  cases h.told with
  | inl htold =>
      obtain ⟨rfl, hleader, _⟩ := htold
      left
      intro rank hrank
      cases List.mem_cons.mp hrank with
      | inl heq => rw [heq, hleader]
      | inr hmem =>
          obtain ⟨follower, hfollower, rfl⟩ := List.mem_map.mp hmem
          obtain ⟨index, hindex⟩ := List.mem_iff_getElem?.mp hfollower
          exact ((h.each index follower hindex).fresh (Nat.zero_le _)).history
  | inr htold =>
      right
      refine ⟨fun rank hrank => ?_, htold.2⟩
      cases List.mem_cons.mp hrank with
      | inl heq =>
          rw [heq]
          exact htold.1
      | inr hmem =>
          obtain ⟨follower, hfollower, rfl⟩ := List.mem_map.mp hmem
          obtain ⟨index, hindex⟩ := List.mem_iff_getElem?.mp hfollower
          exact (h.each index follower hindex).recorded

theorem Recorded.before_eq {call tag : Nat} {history : History} (h : Recorded base call history)
    (hmem : tag ∈ history.map Prod.fst) : before tag history = before tag base := by
  cases h with
  | inl heq => rw [heq]
  | inr h =>
      obtain ⟨touch, rfl⟩ := h
      unfold before
      rw [List.takeWhile_append]
      split
      · next hall =>
          have hbase := (List.takeWhile_prefix fun entry : Nat × Touch =>
            decide (entry.1 ≠ tag)).eq_of_length hall
          have hcall : call = tag := by
            rw [List.map_append, List.mem_append] at hmem
            cases hmem with
            | inr hmem => exact (List.mem_singleton.mp hmem).symm
            | inl hmem =>
                obtain ⟨entry, hentry, htag⟩ := List.mem_map.mp hmem
                have hne := List.takeWhile_eq_self_iff.mp hbase entry hentry
                exact absurd htag (of_decide_eq_true hne)
          rw [hbase, List.takeWhile_cons_of_neg (by simp [hcall]), List.append_nil]
      · rfl

theorem Standing.lockstep (h : Standing group base lo hi) : group.Lockstep := by
  have hphase := h.phase
  apply Group.Lockstep.mk
  · intro hidle rank hrank hne
    simp only [PhaseOk, hidle] at hphase
    apply Halted.refuses
    refine ⟨?_, rfl, .inl hidle⟩
    cases hpoisoned : group.leader.isPoisoned with
    | true => rfl
    | false =>
        obtain ⟨rfl, hbase⟩ := hphase.2 hpoisoned
        cases List.mem_cons.mp hrank with
        | inl heq => exact absurd (congrArg Executor.history heq) hne
        | inr hmem =>
            obtain ⟨follower, hfollower, rfl⟩ := List.mem_map.mp hmem
            obtain ⟨index, hindex⟩ := List.mem_iff_getElem?.mp hfollower
            have hfresh := (h.each index follower hindex).fresh (Nat.zero_le _)
            exact absurd (hfresh.history.trans hbase) hne
  · intro rank hrank
    cases h.ranks with
    | inl hall =>
        rw [hall rank hrank]
        exact h.distinct
    | inr hall => exact (hall.1 rank hrank).nodup h.distinct hall.2
  · intro rank hrank other hother call hmem hmem'
    cases h.ranks with
    | inl hall => rw [hall rank hrank, hall other hother]
    | inr hall =>
        rw [(hall.1 rank hrank).before_eq hmem, (hall.1 other hother).before_eq hmem']
  · intro purpose turn firstError follower reply hgroup hpending hfollower hreply
    have hcount := h.pending
    have hturn : lo = turn := h.turn hgroup hpending
    have hengaged := (h.each turn follower hfollower).engaged (by omega) (by omega)
    exact (hengaged.answered hreply).1.number
  · intro hidle hclean
    simp only [PhaseOk, hidle] at hphase
    obtain ⟨rfl, _⟩ := hphase.2 hclean
    refine ⟨h.pending.trans (Nat.zero_sub lo), fun follower hmem => ?_⟩
    obtain ⟨index, hindex⟩ := List.mem_iff_getElem?.mp hmem
    exact ((h.each index follower hindex).fresh (Nat.zero_le _)).toResting

end Ranks

section Runs

variable {group : Group}

/-- A call that ends unlike on its ranks leaves a group that differs and goes on. -/
theorem Group.Lockstep.endsAlike {action : Action} {next : Group}
    (h : next.Lockstep) (hstep : group.step action = some next) : group.EndsAlike action := by
  rintro run turn firstError error rfl hgroup herror hspared
  have hnext : next = { group with
      leader := group.leader.failed run.disposition error
      phase := .idle } := by
    simp only [Group.step, hgroup, Group.conclude, herror] at hstep
    split at hstep
    · cases hstep
      rfl
    · cases hstep
  have hclean : next.leader.isPoisoned = false := by
    rw [hnext]
    exact (isPoisoned_failed run.disposition error).mpr hspared
  intro follower hmem
  by_contra hne
  have hrank : follower.executor ∈ next.ranks := by
    rw [hnext]
    exact List.mem_cons_of_mem _ (List.mem_map_of_mem hmem)
  have hstops := h.stops (by rw [hnext]) follower.executor hrank (by rw [hnext]; exact hne)
  cases hclean.symm.trans (hstops [] next rfl).1

/-- From wherever the histories stand and are tracked, by induction on what is still to be
done: lockstep of the next state is what its call's outcomes have to say. -/
theorem Standing.lockstep_iff {base : History} {lo hi : Nat} {outcomes : Outcomes}
    {actions : List Action} (h : Standing group base lo hi) (htracked : Tracked group outcomes) :
    (∀ done rest state, actions = done ++ rest → group.runs done = some state →
      state.Lockstep) ↔ group.AllConcur outcomes actions := by
  induction actions generalizing group base lo hi outcomes with
  | nil =>
      constructor
      · exact fun _ => trivial
      · intro _ done rest state hsplit hdone
        obtain ⟨rfl, -⟩ := List.append_eq_nil_iff.mp hsplit.symm
        cases hdone
        exact h.lockstep
  | cons action rest ih =>
      constructor
      · intro hall next hstep
        have hruns : ∀ done, group.runs (action :: done) = next.runs done := by
          intro done
          simp only [Group.runs, hstep, Option.bind_eq_bind, Option.bind_some]
        have halike : group.EndsAlike action :=
          (hall [action] rest next rfl (hruns [])).endsAlike hstep
        obtain ⟨_, _, _, hnext⟩ := h.step halike hstep
        refine ⟨htracked.concurs_iff.mpr halike, (ih hnext (htracked.step h hstep)).mp ?_⟩
        intro done tail state hsplit hdone
        apply hall (action :: done) tail state
        · rw [hsplit]
          rfl
        · rw [hruns]
          exact hdone
      · intro hall done tail state hsplit hdone
        cases done with
        | nil =>
            cases hdone
            exact h.lockstep
        | cons first later =>
            obtain ⟨rfl, htail⟩ := List.cons.inj hsplit
            obtain ⟨middle, hstep, hlater⟩ := Option.bind_eq_some_iff.mp hdone
            obtain ⟨hconcurs, hrest⟩ := hall middle hstep
            obtain ⟨_, _, _, hmiddle⟩ := h.step (htracked.concurs_iff.mp hconcurs) hstep
            exact (ih hmiddle (htracked.step h hstep)).mpr hrest later tail state htail hlater

/-- Two ranks without a mark on them. -/
def pair : Group :=
  let executor : Executor := ⟨false, .iterationBatch, false, false, false, false, false, []⟩
  ⟨executor, [⟨executor, true, none, none, none⟩], 0, .idle, 0⟩

theorem pair_starts : pair.Starts := by
  apply Group.Starts.mk
  · rfl
  · rfl
  · rfl
  · rfl
  · intro follower hmem
    obtain rfl := List.mem_singleton.mp hmem
    exact ⟨rfl, rfl, rfl, rfl⟩

/-- A run of the whole iteration. -/
def wholeRun : DeviceRun :=
  ⟨some .whole, none, .commandSubmissionStarted, false, false, false, false, by decide⟩

/-- A run that a check of the metadata upload turns away before the first command. -/
def refusedUpload : DeviceRun :=
  ⟨none, some (.cuda .validation), .preDispatch, false, false, false, false, by decide⟩

/-- A run whose all-reduces wait in vain for another rank, until their barriers trap. -/
def trappedRun : DeviceRun :=
  ⟨some .partly, some (.cuda .synchronize), .commandSubmissionStarted, false, false, false, false,
    by decide⟩

/-- A call in which the two ranks end as given. -/
def callOf (leader follower : DeviceRun) : List Action :=
  [.execute none, .dispatch, .dispatch, .run leader, .followerExecutes 0 none follower,
    .followerReplies 0, .wait, .finish]

/-- A group stays in lockstep through a run exactly when every call of the run that fails on
the leader and is spared there has, by the outcomes of its runs, done the same on all
devices. -/
theorem lockstep_iff_concurs (group : Group) (hstarts : group.Starts) (actions : List Action) :
    (∀ done rest state, actions = done ++ rest → group.runs done = some state →
      state.Lockstep) ↔ group.AllConcur (fun _ => none) actions := by
  apply hstarts.standing.lockstep_iff
  apply tracked_of_none
  simp only [Group.leaderTouch, hstarts.phase]

/-- An upload that both ranks refuse, and a call after it. -/
theorem pair_lockstep_iff :
    (pair.runs (callOf refusedUpload refusedUpload ++ callOf wholeRun wholeRun)).isSome = true ∧
      ∀ done rest state, callOf refusedUpload refusedUpload ++ callOf wholeRun wholeRun =
        done ++ rest → pair.runs done = some state → state.Lockstep := by
  refine ⟨rfl, (lockstep_iff_concurs pair pair_starts _).mpr ?_⟩
  have hother : ∀ {group : Group} {outcomes : Outcomes} {action : Action}, action ≠ .finish →
      group.Concurs outcomes action :=
    fun hne _ _ _ _ heq => absurd heq hne
  -- Only a finish has something to say of the outcomes.
  iterate 7
    intro _ hstep
    cases hstep
    refine ⟨hother nofun, ?_⟩
  intro _ hstep
  cases hstep
  constructor
  · intro run turn firstError error _ hgroup _ _ index hindex
    cases hgroup
    obtain rfl := Nat.lt_one_iff.mp hindex
    rfl
  iterate 7
    intro _ hstep
    cases hstep
    refine ⟨hother nofun, ?_⟩
  intro _ hstep
  cases hstep
  refine ⟨?_, trivial⟩
  intro run turn firstError error _ hgroup herror
  cases hgroup
  cases herror

/-- The leader goes on without the iteration that the follower has begun in its caches. -/
theorem refused_upload_parts : pair.Starts ∧
    ∃ state, pair.runs (callOf refusedUpload trappedRun) = some state ∧
      state.phase = .idle ∧ state.leader.isPoisoned = false ∧ ¬ state.Lockstep := by
  refine ⟨pair_starts, _, rfl, rfl, rfl, fun hlockstep => ?_⟩
  have hstops := hlockstep.stops rfl _ (List.mem_cons_of_mem _ (List.mem_singleton_self _))
    (by decide)
  cases (hstops [] _ rfl).1

end Runs

end Riley.TensorParallel
