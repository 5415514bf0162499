import Riley.TensorParallel.Group

/-!
A tensor-parallel group over all its runs. While its leader is not poisoned, every
rank has the same record of iterations between two calls, except where a call fails
on the leader and leaves no mark there.
-/

namespace Riley.TensorParallel

section Executors

variable {executor : Executor}

/-- The predicate of the source on an error: whether it sets a flag of a clean executor. -/
def LlamaBatchExecutorError.poisons (error : LlamaBatchExecutorError)
    (forwardGemmsPoisoned : Bool) : Bool :=
  (poisonForBatchError false false error forwardGemmsPoisoned).1 ||
    (poisonForBatchError false false error forwardGemmsPoisoned).2

/-- A failure that leaves the executor usable: no command was submitted under one
completion, and neither the error nor what the run has set poisons it. -/
def Executor.Spared (executor : Executor) (disposition : BatchDispatchDisposition)
    (error : LlamaBatchExecutorError) : Prop :=
  executor.isPoisoned = false ∧
    ¬ (executor.completion = .iterationBatch ∧ disposition = .commandSubmissionStarted) ∧
    error.poisons (executor.gemmsPoisoned || executor.lmHeadPoisoned) = false

@[simp] theorem history_poison : executor.poison.history = executor.history := rfl

@[simp] theorem history_failed (disposition : BatchDispatchDisposition)
    (error : LlamaBatchExecutorError) :
    (executor.failed disposition error).history = executor.history := rfl

@[simp] theorem history_ran (call : Nat) (run : DeviceRun) :
    (executor.ran call run).history =
      executor.history ++ (run.touch.map fun touch => (call, touch)).toList := rfl

@[simp] theorem isPoisoned_poison : executor.poison.isPoisoned = true := rfl

theorem history_conclude (executor : Executor) (disposition : BatchDispatchDisposition)
    (own waited : Option LlamaBatchExecutorError) :
    (executor.conclude disposition own waited).1.history = executor.history := by
  cases own with
  | none => cases waited <;> rfl
  | some error => rfl

theorem poisonForBatchError_flags (poisoned forwardPoisoned : Bool)
    (error : LlamaBatchExecutorError) (gemms : Bool) :
    ((poisonForBatchError poisoned forwardPoisoned error gemms).1 ||
      (poisonForBatchError poisoned forwardPoisoned error gemms).2) =
      (poisoned || forwardPoisoned || error.poisons gemms) := by
  cases error with
  | forward source =>
      cases source with
      | weight site =>
          cases site <;> cases poisoned <;> cases forwardPoisoned <;> cases gemms <;> rfl
      | cuda source | embedding source =>
          cases source <;> cases poisoned <;> cases forwardPoisoned <;> cases gemms <;> rfl
      | _ => cases poisoned <;> cases forwardPoisoned <;> cases gemms <;> rfl
  | cuda source => cases source <;> cases poisoned <;> cases forwardPoisoned <;> rfl
  | _ => cases poisoned <;> cases forwardPoisoned <;> rfl

/-- A failure poisons the executor unless it is spared. -/
theorem isPoisoned_failed (disposition : BatchDispatchDisposition)
    (error : LlamaBatchExecutorError) :
    (executor.failed disposition error).isPoisoned = false ↔ executor.Spared disposition error := by
  have hmutated : (decide (executor.completion = .iterationBatch) &&
      disposition.mutationMayHaveOccurred) = false ↔
      ¬ (executor.completion = .iterationBatch ∧ disposition = .commandSubmissionStarted) := by
    cases disposition <;> simp [BatchDispatchDisposition.mutationMayHaveOccurred]
  unfold Executor.Spared Executor.failed Executor.isPoisoned
  rw [← hmutated]
  generalize (decide (executor.completion = .iterationBatch) &&
    disposition.mutationMayHaveOccurred) = mutated
  have hflags := poisonForBatchError_flags (executor.poisoned || mutated)
    (executor.forwardPoisoned || mutated) error (executor.gemmsPoisoned || executor.lmHeadPoisoned)
  have hclean := congrArg (· = false) hflags
  simp only [Bool.or_eq_false_iff, eq_iff_iff] at hclean ⊢
  tauto

theorem conclude_error {disposition : BatchDispatchDisposition}
    {own waited : Option LlamaBatchExecutorError}
    (h : (executor.conclude disposition own waited).2 = none) : own = none := by
  cases own with
  | none => rfl
  | some error => cases h

/-- An iteration that ends without poison: all went well, or the failure was spared. -/
theorem conclude_unpoisoned {disposition : BatchDispatchDisposition}
    {own waited : Option LlamaBatchExecutorError}
    (h : (executor.conclude disposition own waited).1.isPoisoned = false) :
    (own = none ∧ waited = none) ∨
      ∃ error, own = some error ∧ executor.Spared disposition error := by
  cases own with
  | none =>
      cases waited with
      | none => exact .inl ⟨rfl, rfl⟩
      | some error =>
          have hspared := (isPoisoned_failed disposition error).mp h
          cases hspared.1
  | some error => exact .inr ⟨error, rfl, (isPoisoned_failed disposition error).mp h⟩

/-- A history with or without the iteration of a call. -/
def Recorded (base : History) (call : Nat) (history : History) : Prop :=
  history = base ∨ ∃ touch, history = base ++ [(call, touch)]

theorem recorded_touch (base : History) (call : Nat) (touch : Option Touch) :
    Recorded base call (base ++ (touch.map fun touch => (call, touch)).toList) := by
  cases touch with
  | none => exact .inl (List.append_nil base)
  | some touch => exact .inr ⟨touch, rfl⟩

/-- An iteration on a follower: whatever comes of it is recorded, and success is whole. -/
theorem executeOutput_spec (executor : Executor) (call : Nat)
    (packs : Option LlamaBatchExecutorError) (run : DeviceRun) :
    Recorded executor.history call (executor.executeOutput call packs run).1.history ∧
      ((executor.executeOutput call packs run).2 = none →
        (executor.executeOutput call packs run).1.history =
          executor.history ++ [(call, .whole)]) := by
  unfold Executor.executeOutput
  cases executor.admission packs with
  | some error =>
      constructor
      · exact .inl rfl
      · intro h
        cases h
  | none =>
      simp only [history_conclude, history_ran]
      constructor
      · exact recorded_touch executor.history call run.touch
      · intro h
        rw [run.succeeds (conclude_error h)]
        rfl

end Executors

section Standing

/-- Nothing of an iteration is under way at a follower. -/
structure Resting (follower : Follower) : Prop where
  inbox : follower.inbox = none
  replying : follower.replying = none
  outbox : follower.outbox = none

/-- A follower that has not been given the current iteration. -/
structure Fresh (base : History) (follower : Follower) : Prop extends Resting follower where
  history : follower.executor.history = base

/-- A follower whose reply has been read. -/
structure Served (base : History) (call : Nat) (follower : Follower) : Prop
    extends Resting follower where
  recorded : Recorded base call follower.executor.history

/-- A reply to an iteration, of a rank with that history. -/
structure Answers (base : History) (call : Nat) (reply : Reply) (history : History) : Prop where
  number : reply.call = call
  recorded : Recorded base call history
  whole : reply.error = none → history = base ++ [(call, .whole)]

/-- A follower that has the current iteration before it or its reply, in one place, or
whose thread has stopped on it. -/
inductive Engaged (base : History) (call : Nat) (follower : Follower) : Prop
  | given (alive : follower.alive = true) (inbox : follower.inbox = some call)
      (replying : follower.replying = none) (outbox : follower.outbox = none)
      (history : follower.executor.history = base)
  | replying (reply : Reply) (alive : follower.alive = true) (inbox : follower.inbox = none)
      (replying : follower.replying = some reply) (outbox : follower.outbox = none)
      (answers : Answers base call reply follower.executor.history)
  | replied (reply : Reply) (inbox : follower.inbox = none) (replying : follower.replying = none)
      (outbox : follower.outbox = some reply)
      (answers : Answers base call reply follower.executor.history)
  | stopped (alive : follower.alive = false) (resting : Resting follower)
      (recorded : Recorded base call follower.executor.history)

/-- Where the follower at an index stands: those below `lo` are served, those from `hi`
on are fresh. -/
structure Stands (base : History) (call lo hi index : Nat) (follower : Follower) : Prop where
  served : index < lo → Served base call follower
  engaged : lo ≤ index → index < hi → Engaged base call follower
  fresh : hi ≤ index → Fresh base follower

/-- What a phase of the leader says of the followers that were given the iteration. -/
def PhaseOk (group : Group) (base : History) (lo hi : Nat) : Prop :=
  match group.phase with
  | .idle =>
      (lo = 0 ∨ lo = hi) ∧
        (group.leader.isPoisoned = false → hi = 0 ∧ base = group.leader.history)
  | .dispatching next =>
      lo = 0 ∧ hi = next ∧ base = group.leader.history ∧ ∀ entry ∈ base, entry.1 < group.call
  | .running =>
      lo = 0 ∧ hi = group.followers.length ∧ base = group.leader.history ∧
        ∀ entry ∈ base, entry.1 < group.call
  | .waiting (.finishing run) next firstError =>
      lo = next ∧ hi = group.followers.length ∧
        group.leader.history = base ++ (run.touch.map fun touch => (group.call, touch)).toList ∧
        (∀ entry ∈ base, entry.1 < group.call) ∧
        (firstError = none → ∀ index follower, group.followers[index]? = some follower →
          index < next → follower.executor.history = base ++ [(group.call, .whole)])
  | .waiting .closing next _ => group.pending ≠ 0 → lo = next
  | .closed => True

/-- The records of a group: all ranks have `base`, and some the current iteration. -/
def Told (group : Group) (base : History) (hi : Nat) : Prop :=
  (hi = 0 ∧ base = group.leader.history ∧ ∀ entry ∈ base, entry.1 ≤ group.call) ∨
    (Recorded base group.call group.leader.history ∧ ∀ entry ∈ base, entry.1 < group.call)

structure Standing (group : Group) (base : History) (lo hi : Nat) : Prop where
  le : lo ≤ hi
  hi_le : hi ≤ group.followers.length
  pending : group.pending = hi - lo
  each : ∀ index follower, group.followers[index]? = some follower →
    Stands base group.call lo hi index follower
  distinct : (base.map Prod.fst).Nodup
  told : Told group base hi
  phase : PhaseOk group base lo hi

/-- A call ends alike on all ranks: where the leader's run fails and is spared, no device
has done more or less than its own. -/
def Group.EndsAlike (group : Group) (action : Action) : Prop :=
  ∀ run next firstError error, action = .finish →
    group.phase = .waiting (.finishing run) next firstError → run.error = some error →
    group.leader.Spared run.disposition error →
    ∀ follower ∈ group.followers, follower.executor.history = group.leader.history

end Standing

section Followers

variable {base : History} {call : Nat} {follower next : Follower}

theorem Engaged.execute (h : Engaged base call follower)
    {packs : Option LlamaBatchExecutorError} {run : DeviceRun}
    (hstep : follower.execute packs run = some next) : Engaged base call next := by
  cases h with
  | given alive inbox replying outbox history =>
      simp only [Follower.execute, alive, inbox, replying] at hstep
      cases hstep
      obtain ⟨hrecorded, hwhole⟩ :=
        executeOutput_spec follower.executor call packs run
      rw [history] at hrecorded hwhole
      exact .replying _ rfl rfl rfl outbox ⟨rfl, hrecorded, hwhole⟩
  | replying reply alive inbox replying outbox answers =>
      simp [Follower.execute, replying] at hstep
  | replied reply inbox replying outbox answers =>
      simp [Follower.execute, inbox] at hstep
  | stopped alive resting recorded => simp [Follower.execute, alive] at hstep

theorem Engaged.reply (h : Engaged base call follower) (hstep : follower.reply = some next) :
    Engaged base call next := by
  cases h with
  | given alive inbox replying outbox history => simp [Follower.reply, replying] at hstep
  | replying reply alive inbox replying outbox answers =>
      simp only [Follower.reply, replying, outbox] at hstep
      cases hstep
      exact .replied reply inbox rfl rfl answers
  | replied reply inbox replying outbox answers => simp [Follower.reply, replying] at hstep
  | stopped alive resting recorded => simp [Follower.reply, resting.replying] at hstep

theorem Engaged.stop (h : Engaged base call follower) {touch : Option Touch}
    (hstep : follower.stop touch = some next) : Engaged base call next := by
  unfold Follower.stop at hstep
  split at hstep
  · cases hstep
    cases h with
    | given alive inbox replying outbox history =>
        refine .stopped rfl ⟨rfl, rfl, outbox⟩ ?_
        rw [history, inbox]
        exact recorded_touch base call touch
    | replying reply alive inbox replying outbox answers =>
        refine .stopped rfl ⟨rfl, rfl, outbox⟩ ?_
        rw [inbox, Option.bind_none, Option.toList_none, List.append_nil]
        exact answers.recorded
    | replied reply inbox replying outbox answers =>
        refine .replied reply rfl rfl outbox ?_
        rw [inbox, Option.bind_none, Option.toList_none, List.append_nil]
        exact answers
    | stopped alive resting recorded =>
        refine .stopped rfl ⟨rfl, rfl, resting.outbox⟩ ?_
        rw [resting.inbox, Option.bind_none, Option.toList_none, List.append_nil]
        exact recorded
  · cases hstep

/-- A change that an engaged follower can make and a resting one can make only by stopping. -/
structure FollowerStep (follower next : Follower) : Prop where
  engaged : ∀ base call, Engaged base call follower → Engaged base call next
  resting : Resting follower →
    Resting next ∧ next.executor.history = follower.executor.history

theorem followerStep_execute {packs : Option LlamaBatchExecutorError} {run : DeviceRun}
    (hstep : follower.execute packs run = some next) : FollowerStep follower next := by
  apply FollowerStep.mk
  · exact fun base call h => h.execute hstep
  · intro h
    simp [Follower.execute, h.inbox] at hstep

theorem followerStep_reply (hstep : follower.reply = some next) : FollowerStep follower next := by
  apply FollowerStep.mk
  · exact fun base call h => h.reply hstep
  · intro h
    simp [Follower.reply, h.replying] at hstep

theorem followerStep_stop {touch : Option Touch} (hstep : follower.stop touch = some next) :
    FollowerStep follower next := by
  apply FollowerStep.mk
  · exact fun base call h => h.stop hstep
  · intro h
    unfold Follower.stop at hstep
    split at hstep
    · cases hstep
      refine ⟨⟨rfl, rfl, h.outbox⟩, ?_⟩
      rw [h.inbox, Option.bind_none, Option.toList_none, List.append_nil]
    · cases hstep

theorem Stands.follow {lo hi index : Nat} (h : Stands base call lo hi index follower)
    (hstep : FollowerStep follower next) : Stands base call lo hi index next := by
  apply Stands.mk
  · intro hlt
    obtain ⟨hresting, hhistory⟩ := hstep.resting (h.served hlt).toResting
    exact ⟨hresting, hhistory ▸ (h.served hlt).recorded⟩
  · exact fun hlo hhi => hstep.engaged base call (h.engaged hlo hhi)
  · intro hle
    obtain ⟨hresting, hhistory⟩ := hstep.resting (h.fresh hle).toResting
    exact ⟨hresting, hhistory.trans (h.fresh hle).history⟩

end Followers

section Steps

variable {group next : Group} {base : History} {lo hi : Nat}

/-- What is said of each follower, behind a change of one. -/
theorem each_set {followers : List Follower} {place : Nat} {changed : Follower}
    {holds holds' : Nat → Follower → Prop}
    (heach : ∀ index follower, followers[index]? = some follower → index ≠ place →
      holds index follower → holds' index follower)
    (hchanged : place < followers.length → holds' place changed)
    (h : ∀ index follower, followers[index]? = some follower → holds index follower) :
    ∀ index follower, (followers.set place changed)[index]? = some follower →
      holds' index follower := by
  intro index follower hfollower
  rw [List.getElem?_set] at hfollower
  split at hfollower
  · next heq =>
      split at hfollower
      · next hlt =>
          cases hfollower
          subst heq
          exact hchanged hlt
      · cases hfollower
  · next hne => exact heach index follower hfollower (Ne.symm hne) (h index follower hfollower)

theorem Standing.follow (h : Standing group base lo hi) {index : Nat}
    {change : Follower → Option Follower}
    (hchange : ∀ follower changed, change follower = some changed → FollowerStep follower changed)
    (hstep : group.withFollower index change = some next) : Standing next base lo hi := by
  obtain ⟨follower, hfollower, hstep⟩ := Option.bind_eq_some_iff.mp hstep
  obtain ⟨changed, hchanged, hstep⟩ := Option.bind_eq_some_iff.mp hstep
  have hfollows := hchange follower changed hchanged
  cases hstep
  refine ⟨h.le, ?_, h.pending, ?_, h.distinct, h.told, ?_⟩
  · rw [List.length_set]
    exact h.hi_le
  · apply each_set (fun _ _ _ _ hstands => hstands) _ h.each
    intro _
    exact (h.each index follower hfollower).follow hfollows
  · have hphase := h.phase
    cases hgroup : group.phase with
    | waiting purpose turn firstError =>
        cases purpose with
        | finishing run =>
            simp only [PhaseOk, hgroup, List.length_set] at hphase ⊢
            obtain ⟨hlo, hhi, hleader, htags, hwhole⟩ := hphase
            refine ⟨hlo, hhi, hleader, htags, fun hnone => ?_⟩
            have hold := h.each index follower hfollower
            apply each_set (fun _ _ _ _ hstands => hstands) _ (hwhole hnone)
            intro _ hlt
            rw [(hfollows.resting (hold.served (hlo ▸ hlt)).toResting).2]
            exact hwhole hnone index follower hfollower hlt
        | closing =>
            simp only [PhaseOk, hgroup] at hphase ⊢
            exact hphase
    | closed => simp only [PhaseOk]
    | _ =>
        simp only [PhaseOk, hgroup, List.length_set] at hphase ⊢
        exact hphase

theorem Standing.execute (h : Standing group base lo hi) (hgroup : group.phase = .idle)
    (packs : Option LlamaBatchExecutorError) :
    ∃ base lo hi, Standing (group.beginExecute packs) base lo hi := by
  unfold Group.beginExecute
  split
  · exact ⟨base, lo, hi, h⟩
  · next hadmission =>
      have hclean : group.leader.isPoisoned = false := by
        unfold Executor.admission at hadmission
        split at hadmission
        · cases hadmission
        · split at hadmission
          · cases hadmission
          · next hpoisoned => exact Bool.eq_false_iff.mpr hpoisoned
      have hphase := h.phase
      simp only [PhaseOk, hgroup] at hphase
      obtain ⟨rfl, rfl⟩ := hphase.2 hclean
      obtain rfl : lo = 0 := Nat.le_zero.mp h.le
      have htags : ∀ entry ∈ group.leader.history, entry.1 < group.call + 1 := by
        intro entry hentry
        cases h.told with
        | inl htold => exact Nat.lt_succ_of_le (htold.2.2 entry hentry)
        | inr htold => exact Nat.lt_succ_of_lt (htold.2 entry hentry)
      refine ⟨group.leader.history, 0, 0, ?_⟩
      apply Standing.mk
      · exact Nat.le_refl 0
      · exact Nat.zero_le _
      · exact h.pending
      · intro index follower hfollower
        apply Stands.mk
        · intro hlt
          cases hlt
        · intro _ hlt
          cases hlt
        · exact (h.each index follower hfollower).fresh
      · exact h.distinct
      · exact .inr ⟨.inl rfl, htags⟩
      · exact ⟨rfl, rfl, rfl, htags⟩

theorem Stands.advance {call index : Nat} {follower : Follower}
    (h : Stands base call lo hi index follower)
    (hserved : index = lo → Served base call follower) :
    Stands base call (lo + 1) hi index follower := by
  apply Stands.mk
  · intro hlt
    cases Nat.lt_or_eq_of_le (Nat.le_of_lt_succ hlt) with
    | inl hlt => exact h.served hlt
    | inr heq => exact hserved heq
  · exact fun hle hlt => h.engaged (Nat.le_of_succ_le hle) hlt
  · exact h.fresh

theorem Served.stands {call : Nat} {follower : Follower} (h : Served base call follower)
    (hlt : lo < hi) : Stands base call (lo + 1) hi lo follower := by
  apply Stands.mk
  · exact fun _ => h
  · exact fun hle _ => absurd hle (Nat.not_succ_le_self lo)
  · exact fun hle => absurd hle (Nat.not_le_of_lt hlt)

theorem Standing.dispatch (h : Standing group base lo hi) {turn : Nat}
    (hgroup : group.phase = .dispatching turn) (hstep : group.dispatchNext turn = some next) :
    ∃ base lo hi, Standing next base lo hi := by
  have hphase := h.phase
  simp only [PhaseOk, hgroup] at hphase
  obtain ⟨rfl, rfl, rfl, htags⟩ := hphase
  unfold Group.dispatchNext at hstep
  split at hstep
  · next hnone =>
      cases hstep
      have hlast : hi = group.followers.length :=
        Nat.le_antisymm h.hi_le (List.getElem?_eq_none_iff.mp hnone)
      exact ⟨_, 0, hi, h.le, h.hi_le, h.pending, h.each, h.distinct, h.told, rfl, hlast, rfl, htags⟩
  · next follower hfollower =>
      split at hstep
      · cases hstep
        refine ⟨_, 0, hi, h.le, h.hi_le, h.pending, h.each, h.distinct, .inr ⟨.inl rfl, htags⟩,
          .inl rfl, ?_⟩
        intro hpoisoned
        cases hpoisoned
      · next hdead =>
          have halive : follower.alive = true := by
            cases halive : follower.alive with
            | true => rfl
            | false => exact absurd (by rw [halive]; rfl) hdead
          split at hstep
          · cases hstep
          · cases hstep
            have hfresh := (h.each hi follower hfollower).fresh (Nat.le_refl hi)
            have hlt : hi < group.followers.length :=
              (List.getElem?_eq_some_iff.mp hfollower).choose
            have hother : ∀ index other, group.followers[index]? = some other → index ≠ hi →
                Stands group.leader.history group.call 0 hi index other →
                Stands group.leader.history group.call 0 (hi + 1) index other := by
              intro index other _ hne hstands
              apply Stands.mk
              · exact hstands.served
              · intro hle hlt
                apply hstands.engaged hle
                omega
              · exact fun hle => hstands.fresh (Nat.le_of_succ_le hle)
            have hgiven : hi < group.followers.length → Stands group.leader.history group.call 0
                (hi + 1) hi { follower with inbox := some group.call } := by
              intro _
              apply Stands.mk
              · intro hlt
                cases hlt
              · exact fun _ _ => .given halive rfl hfresh.replying hfresh.outbox hfresh.history
              · exact fun hle => absurd hle (Nat.not_succ_le_self hi)
            refine ⟨_, 0, hi + 1, Nat.zero_le _, ?_, congrArg (· + 1) h.pending,
              each_set hother hgiven h.each, h.distinct, .inr ⟨.inl rfl, htags⟩,
              rfl, rfl, rfl, htags⟩
            rw [List.length_set]
            exact hlt

theorem Standing.run (h : Standing group base lo hi) (hgroup : group.phase = .running)
    (run : DeviceRun) :
    ∃ base lo hi, Standing
      { group with
        leader := group.leader.ran group.call run
        phase := .waiting (.finishing run) 0 none } base lo hi := by
  have hphase := h.phase
  simp only [PhaseOk, hgroup] at hphase
  obtain ⟨rfl, hhi, rfl, htags⟩ := hphase
  refine ⟨_, 0, hi, h.le, h.hi_le, h.pending, h.each, h.distinct,
    .inr ⟨recorded_touch _ _ run.touch, htags⟩, rfl, hhi, rfl, htags, ?_⟩
  intro _ index follower _ hlt
  cases hlt

/-- The reply that is next belongs to the iteration, and so does the silence of a thread
that has stopped. -/
theorem Engaged.answered {call : Nat} {follower : Follower} (h : Engaged base call follower)
    {reply : Reply} (hreply : follower.outbox = some reply) :
    Answers base call reply follower.executor.history ∧ follower.inbox = none ∧
      follower.replying = none := by
  cases h with
  | given alive inbox replying outbox history => cases outbox.symm.trans hreply
  | replying other alive inbox replying outbox answers => cases outbox.symm.trans hreply
  | replied other inbox replying outbox answers =>
      cases outbox.symm.trans hreply
      exact ⟨answers, inbox, replying⟩
  | stopped alive resting recorded => cases resting.outbox.symm.trans hreply

theorem Engaged.silent {call : Nat} {follower : Follower} (h : Engaged base call follower)
    (hdead : follower.alive ≠ true) (hnone : follower.outbox = none) :
    Served base call follower := by
  cases h with
  | given alive inbox replying outbox history => exact absurd alive hdead
  | replying reply alive inbox replying outbox answers => exact absurd alive hdead
  | replied reply inbox replying outbox answers => cases outbox.symm.trans hnone
  | stopped alive resting recorded => exact ⟨resting, recorded⟩

theorem Standing.turn (h : Standing group base lo hi) {purpose : Purpose} {turn : Nat}
    {firstError : Option LlamaBatchExecutorError}
    (hgroup : group.phase = .waiting purpose turn firstError) (hpending : group.pending ≠ 0) :
    lo = turn := by
  have hphase := h.phase
  cases purpose with
  | finishing run =>
      simp only [PhaseOk, hgroup] at hphase
      exact hphase.1
  | closing =>
      simp only [PhaseOk, hgroup] at hphase
      exact hphase hpending

/-- A wait that goes on to the next follower, with what it has made of this one. -/
theorem Standing.read (h : Standing group base lo hi) {purpose : Purpose} {turn pending : Nat}
    {firstError error : Option LlamaBatchExecutorError} {changed : Follower}
    (hgroup : group.phase = .waiting purpose turn firstError)
    (hpending : group.pending = pending + 1) (hserved : Served base group.call changed)
    (hwhole : error = none → changed.executor.history = base ++ [(group.call, .whole)]) :
    Standing
      { group with
        followers := group.followers.set turn changed
        pending := pending
        phase := .waiting purpose (turn + 1) (firstError.or error) } base (lo + 1) hi := by
  have hcount := h.pending
  have hlt : lo < hi := by omega
  obtain rfl : lo = turn := h.turn hgroup (by omega)
  have hother : ∀ index other, group.followers[index]? = some other → index ≠ lo →
      Stands base group.call lo hi index other → Stands base group.call (lo + 1) hi index other :=
    fun index other _ hne hstands => hstands.advance fun heq => absurd heq hne
  apply Standing.mk
  · exact hlt
  · rw [List.length_set]
    exact h.hi_le
  · show pending = hi - (lo + 1)
    omega
  · exact each_set hother (fun _ => hserved.stands hlt) h.each
  · exact h.distinct
  · exact h.told
  · have hphase := h.phase
    cases purpose with
    | closing =>
        simp only [PhaseOk, hgroup] at hphase ⊢
        exact fun _ => trivial
    | finishing run =>
        simp only [PhaseOk, hgroup, List.length_set] at hphase ⊢
        obtain ⟨_, hhi, hleader, htags, hall⟩ := hphase
        refine ⟨trivial, hhi, hleader, htags, fun hnone => ?_⟩
        obtain ⟨hfirst, herror⟩ := Option.or_eq_none_iff.mp hnone
        have hothers : ∀ index other, group.followers[index]? = some other → index ≠ lo →
            (index < lo → other.executor.history = base ++ [(group.call, .whole)]) →
            index < lo + 1 → other.executor.history = base ++ [(group.call, .whole)] := by
          intro index other _ hne hhistory hle
          apply hhistory
          omega
        exact each_set hothers (fun _ _ => hwhole herror) (hall hfirst)

theorem Standing.wait (h : Standing group base lo hi) {purpose : Purpose} {turn : Nat}
    {firstError : Option LlamaBatchExecutorError}
    (hgroup : group.phase = .waiting purpose turn firstError)
    (hstep : group.waitNext purpose turn firstError = some next) :
    ∃ base lo hi, Standing next base lo hi := by
  unfold Group.waitNext at hstep
  split at hstep
  · next pending follower hpending hfollower =>
      have hcount := h.pending
      have hturn : lo = turn := h.turn hgroup (by omega)
      have hengaged : Engaged base group.call follower :=
        (h.each turn follower hfollower).engaged (by omega) (by omega)
      split at hstep
      · next reply hreply =>
          cases hstep
          obtain ⟨hanswers, hinbox, hreplying⟩ := hengaged.answered hreply
          refine ⟨base, lo + 1, hi, h.read hgroup hpending ⟨⟨hinbox, hreplying, rfl⟩,
            hanswers.recorded⟩ fun hnone => hanswers.whole ?_⟩
          exact Option.map_eq_none_iff.mp hnone
      · next hnone =>
          split at hstep
          · cases hstep
          · next hdead =>
              cases hstep
              have hread := h.read hgroup hpending (hengaged.silent hdead hnone)
                (fun herror : some (followerFailed "a follower thread has stopped") = none =>
                  nomatch herror)
              obtain ⟨hlt, rfl⟩ := List.getElem?_eq_some_iff.mp hfollower
              rw [List.set_getElem_self] at hread
              exact ⟨base, lo + 1, hi, hread⟩
  · cases hstep

theorem Recorded.nodup {call : Nat} {history : History} (h : Recorded base call history)
    (hdistinct : (base.map Prod.fst).Nodup) (htags : ∀ entry ∈ base, entry.1 < call) :
    (history.map Prod.fst).Nodup := by
  cases h with
  | inl heq =>
      rw [heq]
      exact hdistinct
  | inr h =>
      obtain ⟨touch, heq⟩ := h
      rw [heq, List.map_append, List.nodup_append]
      refine ⟨hdistinct, List.pairwise_singleton _ _, ?_⟩
      intro tag hmem last hlast
      obtain ⟨entry, hentry, rfl⟩ := List.mem_map.mp hmem
      rw [List.mem_singleton.mp hlast]
      exact Nat.ne_of_lt (htags entry hentry)

theorem Recorded.le {call : Nat} {history : History} (h : Recorded base call history)
    (htags : ∀ entry ∈ base, entry.1 < call) : ∀ entry ∈ history, entry.1 ≤ call := by
  intro entry hentry
  cases h with
  | inl heq => exact Nat.le_of_lt (htags entry (heq ▸ hentry))
  | inr h =>
      obtain ⟨touch, heq⟩ := h
      rw [heq, List.mem_append, List.mem_singleton] at hentry
      cases hentry with
      | inl hentry => exact Nat.le_of_lt (htags entry hentry)
      | inr heq => exact Nat.le_of_eq (congrArg Prod.fst heq)

/-- Between two calls of a leader that is not poisoned, with all ranks alike. -/
theorem Standing.settled {leader : Executor} {call : Nat} {followers : List Follower}
    (hresting : ∀ follower ∈ followers, Resting follower)
    (halike : ∀ follower ∈ followers, follower.executor.history = leader.history)
    (hdistinct : (leader.history.map Prod.fst).Nodup)
    (htags : ∀ entry ∈ leader.history, entry.1 ≤ call) :
    Standing ⟨leader, followers, 0, .idle, call⟩ leader.history 0 0 := by
  apply Standing.mk
  · exact Nat.le_refl 0
  · exact Nat.zero_le _
  · rfl
  · intro index follower hfollower
    have hmem := List.mem_of_getElem? hfollower
    apply Stands.mk
    · intro hlt
      cases hlt
    · intro _ hlt
      cases hlt
    · exact fun _ => ⟨hresting follower hmem, halike follower hmem⟩
  · exact hdistinct
  · exact .inl ⟨rfl, rfl, htags⟩
  · exact ⟨.inl rfl, fun _ => ⟨rfl, rfl⟩⟩

theorem Standing.served (h : Standing group base lo group.followers.length)
    (hlo : lo = group.followers.length) :
    ∀ follower ∈ group.followers, Served base group.call follower := by
  intro follower hmem
  obtain ⟨index, hfollower⟩ := List.mem_iff_getElem?.mp hmem
  have hlt := (List.getElem?_eq_some_iff.mp hfollower).choose
  exact (h.each index follower hfollower).served (hlo ▸ hlt)

theorem Standing.conclude (h : Standing group base lo hi) {purpose : Purpose} {turn : Nat}
    {firstError : Option LlamaBatchExecutorError}
    (hgroup : group.phase = .waiting purpose turn firstError)
    (halike : group.EndsAlike .finish)
    (hstep : group.conclude purpose turn firstError = some next) :
    ∃ base lo hi, Standing next base lo hi := by
  have hphase := h.phase
  unfold Group.conclude at hstep
  split at hstep
  · next hdone =>
      cases purpose with
      | closing =>
          cases hstep
          exact ⟨base, lo, hi, h.le, h.hi_le, h.pending, h.each, h.distinct, h.told, trivial⟩
      | finishing run =>
          obtain rfl : { group with
              leader := (group.leader.conclude run.disposition run.error firstError).1
              phase := .idle } = next := Option.some.inj hstep
          simp only [PhaseOk, hgroup] at hphase
          obtain ⟨rfl, rfl, hleader, htags, hwhole⟩ := hphase
          have hle := h.le
          have hcount := h.pending
          have hlast : lo = group.followers.length := by omega
          have hrecorded : Recorded base group.call group.leader.history := by
            rw [hleader]
            exact recorded_touch base group.call run.touch
          cases hpoisoned :
              (group.leader.conclude run.disposition run.error firstError).1.isPoisoned with
          | true =>
              refine ⟨base, lo, _, h.le, h.hi_le, h.pending, h.each, h.distinct, .inr ⟨?_, htags⟩,
                .inr hlast, ?_⟩
              · rw [history_conclude]
                exact hrecorded
              · intro hclean
                cases hpoisoned.symm.trans hclean
          | false =>
              have hall : ∀ follower ∈ group.followers,
                  follower.executor.history = group.leader.history := by
                cases conclude_unpoisoned hpoisoned with
                | inl hwell =>
                    intro follower hmem
                    obtain ⟨index, hfollower⟩ := List.mem_iff_getElem?.mp hmem
                    have hlt := (List.getElem?_eq_some_iff.mp hfollower).choose
                    rw [hwhole hwell.2 index follower hfollower (hlast ▸ hlt), hleader,
                      run.succeeds hwell.1]
                    rfl
                | inr hspared =>
                    obtain ⟨error, herror, hspared⟩ := hspared
                    exact halike run lo firstError error rfl hgroup herror hspared
              have hhistory := history_conclude group.leader run.disposition run.error
                firstError
              have hresting : ∀ follower ∈ group.followers, Resting follower :=
                fun follower hmem => (h.served hlast follower hmem).toResting
              have hpending : group.pending = 0 := by omega
              rw [hpending]
              refine ⟨_, 0, 0, Standing.settled hresting ?_ ?_ ?_⟩
              · rw [hhistory]
                exact hall
              · rw [hhistory]
                exact hrecorded.nodup h.distinct htags
              · rw [hhistory]
                exact hrecorded.le htags
  · cases hstep

/-- What one action leaves standing, where a call that it ends ends alike. -/
theorem Standing.step (h : Standing group base lo hi) {action : Action}
    (halike : group.EndsAlike action) (hstep : group.step action = some next) :
    ∃ base lo hi, Standing next base lo hi := by
  cases action with
  | execute packs =>
      simp only [Group.step] at hstep
      split at hstep
      · next hgroup =>
          cases hstep
          exact h.execute hgroup packs
      · cases hstep
  | dispatch =>
      simp only [Group.step] at hstep
      split at hstep
      · next turn hgroup => exact h.dispatch hgroup hstep
      · cases hstep
  | run run =>
      simp only [Group.step] at hstep
      split at hstep
      · next hgroup =>
          cases hstep
          exact h.run hgroup run
      · cases hstep
  | wait =>
      simp only [Group.step] at hstep
      split at hstep
      · next purpose turn firstError hgroup => exact h.wait hgroup hstep
      · cases hstep
  | finish =>
      simp only [Group.step] at hstep
      split at hstep
      · next purpose turn firstError hgroup => exact h.conclude hgroup halike hstep
      · cases hstep
  | close =>
      simp only [Group.step] at hstep
      split at hstep
      · next hgroup =>
          cases hstep
          have hphase := h.phase
          simp only [PhaseOk, hgroup] at hphase
          refine ⟨base, lo, hi, h.le, h.hi_le, h.pending, h.each, h.distinct, h.told, ?_⟩
          intro hpending
          have hcount := h.pending
          cases hphase.1 with
          | inl hlo => exact hlo
          | inr heq =>
              rw [heq, Nat.sub_self] at hcount
              exact absurd hcount hpending
      · cases hstep
  | followerExecutes index packs run =>
      exact ⟨base, lo, hi, h.follow (fun _ _ hstep => followerStep_execute hstep) hstep⟩
  | followerReplies index =>
      exact ⟨base, lo, hi, h.follow (fun _ _ hstep => followerStep_reply hstep) hstep⟩
  | followerStops index touch =>
      exact ⟨base, lo, hi, h.follow (fun _ _ hstep => followerStep_stop hstep) hstep⟩

theorem Group.Starts.standing (h : group.Starts) : Standing group [] 0 0 := by
  obtain ⟨leader, followers, pending, phase, call⟩ := group
  obtain ⟨rfl, rfl, rfl, hleader, hfollowers⟩ := h
  have hsettled := @Standing.settled leader 0 followers
  rw [hleader] at hsettled
  apply hsettled
  · intro follower hmem
    obtain ⟨_, hinbox, hreplying, houtbox⟩ := hfollowers follower hmem
    exact ⟨hinbox, hreplying, houtbox⟩
  · exact fun follower hmem => (hfollowers follower hmem).1
  · exact List.nodup_nil
  · exact fun entry hentry => nomatch hentry

end Steps

end Riley.TensorParallel
