import Riley.TensorParallel.GroupSpec

/-!
What the outcomes of a call say. The run of an iteration tells what its device has done;
from the runs of a call alone one can tell on which ranks the iteration is the same.
-/

namespace Riley.TensorParallel

/-- What the device of each follower does of the iteration at hand. -/
abbrev Outcomes := Nat → Option Touch

/-- What a follower's device does where it executes: nothing, if a check turns the rows
away, and else what the run says. -/
def Follower.outcome (follower : Follower) (packs : Option LlamaBatchExecutorError)
    (run : DeviceRun) : Option Touch :=
  match follower.executor.admission packs with
  | some _ => none
  | none => run.touch

namespace Group

/-- The outcomes behind an action: a new call begins without any. -/
def outcomes (group : Group) (outcomes : Outcomes) : Action → Outcomes
  | .execute _ => fun _ => none
  | .followerExecutes index packs run =>
      match group.followers[index]? with
      | some follower => Function.update outcomes index (follower.outcome packs run)
      | none => outcomes
  | .followerStops index touch =>
      match group.followers[index]? with
      | some follower =>
          if follower.inbox.isSome then Function.update outcomes index touch else outcomes
      | none => outcomes
  | _ => outcomes

/-- The outcomes of a call at its end: where the leader's run fails and is spared, the
devices of the followers do as much of the iteration as the leader's. -/
def Concurs (group : Group) (outcomes : Outcomes) (action : Action) : Prop :=
  ∀ run next firstError error, action = .finish →
    group.phase = .waiting (.finishing run) next firstError → run.error = some error →
    group.leader.Spared run.disposition error →
    ∀ index, index < group.followers.length → outcomes index = run.touch

/-- Every call that a run ends has such outcomes. -/
def AllConcur (group : Group) (outcomes : Outcomes) : List Action → Prop
  | [] => True
  | action :: rest => ∀ next, group.step action = some next →
      group.Concurs outcomes action ∧ next.AllConcur (group.outcomes outcomes action) rest

/-- What the leader's device has done of the iteration at hand, within a call. -/
def leaderTouch (group : Group) : Option (Option Touch) :=
  match group.phase with
  | .dispatching _ | .running => some none
  | .waiting (.finishing run) _ _ => some run.touch
  | _ => none

end Group

/-- The record that a call adds to a history. -/
def record (call : Nat) (touch : Option Touch) : History :=
  (touch.map fun touch => (call, touch)).toList

/-- Within a call, the history of every follower is the leader's from before the call with
what the outcomes add. -/
def Tracked (group : Group) (outcomes : Outcomes) : Prop :=
  ∀ touch, group.leaderTouch = some touch →
    ∃ base, group.leader.history = base ++ record group.call touch ∧
      ∀ index follower, group.followers[index]? = some follower →
        follower.executor.history = base ++ record group.call (outcomes index)

section Tracking

variable {group next : Group} {base : History} {lo hi : Nat} {outcomes : Outcomes}

theorem record_inj {call : Nat} {touch touch' : Option Touch}
    (h : record call touch = record call touch') : touch = touch' := by
  cases touch with
  | none =>
      cases touch' with
      | none => rfl
      | some touch' => cases h
  | some touch =>
      cases touch' with
      | none => cases h
      | some touch' =>
          cases h
          rfl

/-- The common record is the leader's from before the call. -/
theorem Standing.leader_history (h : Standing group base lo hi) {touch : Option Touch}
    (hcall : group.leaderTouch = some touch) :
    group.leader.history = base ++ record group.call touch := by
  have hphase := h.phase
  unfold Group.leaderTouch at hcall
  split at hcall
  · next turn hgroup =>
      cases hcall
      simp only [PhaseOk, hgroup] at hphase
      exact hphase.2.2.1.symm.trans (List.append_nil base).symm
  · next hgroup =>
      cases hcall
      simp only [PhaseOk, hgroup] at hphase
      exact hphase.2.2.1.symm.trans (List.append_nil base).symm
  · next run turn firstError hgroup =>
      cases hcall
      simp only [PhaseOk, hgroup] at hphase
      exact hphase.2.2.1
  · cases hcall

/-- An action that no device takes part in. -/
theorem Tracked.keep (h : Tracked group outcomes)
    (htouch : ∀ touch, next.leaderTouch = some touch → group.leaderTouch = some touch)
    (hleader : next.leader.history = group.leader.history) (hcall : next.call = group.call)
    (hfollowers : ∀ (index : Nat) (follower : Follower), next.followers[index]? = some follower →
      ∃ old : Follower, group.followers[index]? = some old ∧
        follower.executor.history = old.executor.history) : Tracked next outcomes := by
  intro touch hnext
  obtain ⟨base, hbase, heach⟩ := h touch (htouch touch hnext)
  refine ⟨base, ?_, ?_⟩
  · rw [hleader, hcall]
    exact hbase
  · intro index follower hfollower
    obtain ⟨old, hold, hhistory⟩ := hfollowers index follower hfollower
    rw [hhistory, hcall]
    exact heach index old hold

/-- A group in no call. -/
theorem tracked_of_none (h : group.leaderTouch = none) (outcomes : Outcomes) :
    Tracked group outcomes := by
  intro touch htouch
  cases h.symm.trans htouch

theorem followers_keep {followers : List Follower} {place : Nat} {old changed : Follower}
    (hold : followers[place]? = some old)
    (hhistory : changed.executor.history = old.executor.history) :
    ∀ (index : Nat) (follower : Follower), (followers.set place changed)[index]? = some follower →
      ∃ old : Follower, followers[index]? = some old ∧
        follower.executor.history = old.executor.history := by
  have hkept : ∀ (index : Nat) (follower : Follower), followers[index]? = some follower →
      ∃ old : Follower, followers[index]? = some old ∧
        follower.executor.history = old.executor.history :=
    fun index follower hfollower => ⟨follower, hfollower, rfl⟩
  refine each_set ?_ ?_ hkept
  · exact fun _ _ _ _ hkept => hkept
  · exact fun _ => ⟨old, hold, hhistory⟩

/-- A change of one follower, with what the outcomes say of it. -/
theorem Tracked.change (h : Tracked group outcomes) {place : Nat} {changed : Follower}
    {outcome : Option Touch}
    (hchanged : ∀ base touch, group.leaderTouch = some touch →
      group.leader.history = base ++ record group.call touch →
        changed.executor.history = base ++ record group.call outcome) :
    Tracked { group with followers := group.followers.set place changed }
      (Function.update outcomes place outcome) := by
  intro touch htouch
  obtain ⟨base, hbase, heach⟩ := h touch htouch
  refine ⟨base, hbase, each_set ?_ ?_ heach⟩
  · intro index follower _ hne hhistory
    rw [Function.update_of_ne hne]
    exact hhistory
  · intro _
    rw [Function.update_self]
    exact hchanged base touch htouch hbase

/-- A message in an inbox is the current iteration, for a follower that has not run it. -/
theorem Standing.given (h : Standing group base lo hi) {index call : Nat} {follower : Follower}
    (hfollower : group.followers[index]? = some follower) (hinbox : follower.inbox = some call) :
    call = group.call ∧ follower.executor.history = base := by
  have hstands := h.each index follower hfollower
  have hresting : ¬ Resting follower := by
    intro hresting
    cases hresting.inbox.symm.trans hinbox
  have hlo : lo ≤ index := by
    by_contra hlt
    exact hresting (hstands.served (Nat.lt_of_not_le hlt)).toResting
  have hhi : index < hi := by
    by_contra hle
    exact hresting (hstands.fresh (Nat.le_of_not_lt hle)).toResting
  cases hstands.engaged hlo hhi with
  | given alive inbox replying outbox history =>
      cases inbox.symm.trans hinbox
      exact ⟨rfl, history⟩
  | replying reply alive inbox replying outbox answers => cases inbox.symm.trans hinbox
  | replied reply inbox replying outbox answers => cases inbox.symm.trans hinbox
  | stopped alive resting recorded => exact absurd resting hresting

/-- The common record of a call is one. -/
theorem Standing.base_eq (h : Standing group base lo hi) {touch : Option Touch}
    (htouch : group.leaderTouch = some touch) {other : History}
    (hother : group.leader.history = other ++ record group.call touch) : base = other :=
  List.append_cancel_right ((h.leader_history htouch).symm.trans hother)

theorem executeOutput_history (follower : Follower) (call : Nat)
    (packs : Option LlamaBatchExecutorError) (run : DeviceRun) :
    (follower.executor.executeOutput call packs run).1.history =
      follower.executor.history ++ record call (follower.outcome packs run) := by
  unfold Executor.executeOutput Follower.outcome
  cases follower.executor.admission packs with
  | some error => exact (List.append_nil _).symm
  | none =>
      rw [history_conclude, history_ran]
      rfl

theorem Tracked.executes (h : Tracked group outcomes) (hstanding : Standing group base lo hi)
    {index : Nat} {packs : Option LlamaBatchExecutorError} {run : DeviceRun}
    (hstep : group.step (.followerExecutes index packs run) = some next) :
    Tracked next (group.outcomes outcomes (.followerExecutes index packs run)) := by
  obtain ⟨follower, hfollower, hstep⟩ := Option.bind_eq_some_iff.mp hstep
  obtain ⟨changed, hchanged, hstep⟩ := Option.bind_eq_some_iff.mp hstep
  cases hstep
  simp only [Group.outcomes, hfollower]
  apply h.change
  intro other touch htouch hother
  simp only [Follower.execute] at hchanged
  split at hchanged
  · next call _ _ hinbox =>
      cases hchanged
      obtain ⟨rfl, hhistory⟩ := hstanding.given hfollower hinbox
      rw [executeOutput_history, hhistory, hstanding.base_eq htouch hother]
  · cases hchanged

theorem Tracked.stops (h : Tracked group outcomes) (hstanding : Standing group base lo hi)
    {index : Nat} {touch : Option Touch}
    (hstep : group.step (.followerStops index touch) = some next) :
    Tracked next (group.outcomes outcomes (.followerStops index touch)) := by
  obtain ⟨follower, hfollower, hstep⟩ := Option.bind_eq_some_iff.mp hstep
  obtain ⟨changed, hchanged, hstep⟩ := Option.bind_eq_some_iff.mp hstep
  cases hstep
  simp only [Group.outcomes, hfollower]
  simp only [Follower.stop] at hchanged
  split at hchanged
  · cases hchanged
    cases hinbox : follower.inbox with
    | none =>
        refine h.keep (fun _ htouch => htouch) rfl rfl (followers_keep hfollower ?_)
        exact List.append_nil _
    | some call =>
        obtain ⟨rfl, hhistory⟩ := hstanding.given hfollower hinbox
        apply h.change
        intro other leaderTouch htouch hother
        show follower.executor.history ++ record group.call touch = _
        rw [hhistory, hstanding.base_eq htouch hother]
  · cases hchanged

theorem Tracked.replies (h : Tracked group outcomes) {index : Nat}
    (hstep : group.step (.followerReplies index) = some next) : Tracked next outcomes := by
  obtain ⟨follower, hfollower, hstep⟩ := Option.bind_eq_some_iff.mp hstep
  obtain ⟨changed, hchanged, hstep⟩ := Option.bind_eq_some_iff.mp hstep
  cases hstep
  refine h.keep (fun _ htouch => htouch) rfl rfl (followers_keep hfollower ?_)
  simp only [Follower.reply] at hchanged
  split at hchanged
  · cases hchanged
    rfl
  · cases hchanged

/-- A call that begins finds the histories alike. -/
theorem tracked_execute (hstanding : Standing group base lo hi) (hgroup : group.phase = .idle)
    (packs : Option LlamaBatchExecutorError) :
    Tracked (group.beginExecute packs) fun _ => none := by
  obtain ⟨base', lo', hi', hnext⟩ := hstanding.execute hgroup packs
  intro touch htouch
  refine ⟨base', hnext.leader_history htouch, ?_⟩
  have hphase := hnext.phase
  unfold Group.beginExecute at hnext htouch hphase ⊢
  split at hnext
  · next hadmission =>
      simp only [hadmission, Group.leaderTouch, hgroup] at htouch
      cases htouch
  · next hadmission =>
      simp only [hadmission, PhaseOk] at hphase ⊢
      obtain ⟨rfl, rfl, -⟩ := hphase
      intro index follower hfollower
      rw [((hnext.each index follower hfollower).fresh (Nat.zero_le _)).history]
      exact (List.append_nil _).symm

theorem Tracked.dispatch (h : Tracked group outcomes) {turn : Nat}
    (hgroup : group.phase = .dispatching turn) (hstep : group.dispatchNext turn = some next) :
    Tracked next outcomes := by
  have htouch : group.leaderTouch = some none := by simp only [Group.leaderTouch, hgroup]
  unfold Group.dispatchNext at hstep
  split at hstep
  · cases hstep
    exact h.keep (fun _ hnext => htouch.trans hnext) rfl rfl
      fun index follower hfollower => ⟨follower, hfollower, rfl⟩
  · next follower hfollower =>
      split at hstep
      · cases hstep
        exact tracked_of_none rfl outcomes
      · split at hstep
        · cases hstep
        · cases hstep
          exact h.keep (fun _ hnext => htouch.trans hnext) rfl rfl (followers_keep hfollower rfl)

theorem Tracked.run (h : Tracked group outcomes) (hgroup : group.phase = .running)
    (run : DeviceRun) :
    Tracked
      { group with
        leader := group.leader.ran group.call run
        phase := .waiting (.finishing run) 0 none } outcomes := by
  intro touch htouch
  cases htouch
  obtain ⟨base, hbase, heach⟩ := h none (by simp only [Group.leaderTouch, hgroup])
  refine ⟨base, ?_, heach⟩
  rw [history_ran, hbase]
  exact congrArg (· ++ _) (List.append_nil base)

theorem Tracked.wait (h : Tracked group outcomes) {purpose : Purpose} {turn : Nat}
    {firstError : Option LlamaBatchExecutorError}
    (hgroup : group.phase = .waiting purpose turn firstError)
    (hstep : group.waitNext purpose turn firstError = some next) : Tracked next outcomes := by
  have htouch : ∀ turn' error pending followers touch,
      Group.leaderTouch ⟨group.leader, followers, pending, .waiting purpose turn' error,
        group.call⟩ = some touch → group.leaderTouch = some touch := by
    intro turn' error pending followers touch hnext
    simp only [Group.leaderTouch, hgroup]
    cases purpose <;> exact hnext
  unfold Group.waitNext at hstep
  split at hstep
  · next pending follower _ hfollower =>
      split at hstep
      · cases hstep
        exact h.keep (htouch _ _ _ _) rfl rfl (followers_keep hfollower rfl)
      · split at hstep
        · cases hstep
        · cases hstep
          exact h.keep (htouch _ _ _ _) rfl rfl
            fun index follower hfollower => ⟨follower, hfollower, rfl⟩
  · cases hstep

/-- What one action leaves tracked. -/
theorem Tracked.step (h : Tracked group outcomes) (hstanding : Standing group base lo hi)
    {action : Action} (hstep : group.step action = some next) :
    Tracked next (group.outcomes outcomes action) := by
  cases action with
  | execute packs =>
      simp only [Group.step] at hstep
      split at hstep
      · next hgroup =>
          cases hstep
          exact tracked_execute hstanding hgroup packs
      · cases hstep
  | dispatch =>
      simp only [Group.step] at hstep
      split at hstep
      · next turn hgroup => exact h.dispatch hgroup hstep
      · cases hstep
  | run run =>
      simp only [Group.step] at hstep
      split at hstep
      · next hgroup =>
          cases hstep
          exact h.run hgroup run
      · cases hstep
  | wait =>
      simp only [Group.step] at hstep
      split at hstep
      · next purpose turn firstError hgroup => exact h.wait hgroup hstep
      · cases hstep
  | finish =>
      simp only [Group.step] at hstep
      split at hstep
      · next purpose turn firstError hgroup =>
          unfold Group.conclude at hstep
          split at hstep
          · cases purpose <;> cases hstep <;> exact tracked_of_none rfl outcomes
          · cases hstep
      · cases hstep
  | close =>
      simp only [Group.step] at hstep
      split at hstep
      · cases hstep
        exact tracked_of_none rfl outcomes
      · cases hstep
  | followerExecutes index packs run => exact h.executes hstanding hstep
  | followerReplies index => exact h.replies hstep
  | followerStops index touch => exact h.stops hstanding hstep

/-- The outcomes of a call tell where the histories are alike at its end. -/
theorem Tracked.concurs_iff (h : Tracked group outcomes) {action : Action} :
    group.Concurs outcomes action ↔ group.EndsAlike action := by
  have hends : ∀ run turn firstError, group.phase = .waiting (.finishing run) turn firstError →
      ((∀ index, index < group.followers.length → outcomes index = run.touch) ↔
        ∀ follower ∈ group.followers, follower.executor.history = group.leader.history) := by
    intro run turn firstError hgroup
    obtain ⟨base, hbase, heach⟩ := h run.touch (by simp only [Group.leaderTouch, hgroup])
    constructor
    · intro hall follower hmem
      obtain ⟨index, hfollower⟩ := List.mem_iff_getElem?.mp hmem
      have hlt := (List.getElem?_eq_some_iff.mp hfollower).choose
      rw [heach index follower hfollower, hbase, hall index hlt]
    · intro hall index hlt
      have hfollower := List.getElem?_eq_getElem hlt
      have hhistory := hall _ (List.getElem_mem hlt)
      rw [heach index _ hfollower, hbase] at hhistory
      exact record_inj (List.append_cancel_left hhistory)
  constructor
  · intro hconcurs run turn firstError error haction hgroup herror hspared
    exact (hends run turn firstError hgroup).mp
      (hconcurs run turn firstError error haction hgroup herror hspared)
  · intro halike run turn firstError error haction hgroup herror hspared
    exact (hends run turn firstError hgroup).mpr
      (halike run turn firstError error haction hgroup herror hspared)

end Tracking

end Riley.TensorParallel
