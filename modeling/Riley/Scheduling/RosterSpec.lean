import Mathlib
import Riley.Scheduling.PlanExact
import Riley.Scheduling.Roster

/-!
A roster in order: the queue holds the waiting requests by age, everything admitted is older,
and the counters count. Turns at running requests end some of them and keep the order.
-/

namespace Riley.Scheduling

open PagedKv Outcome Relation

namespace Roster

def waitingTokens (seats : List Seat) : Nat :=
  ((seats.filter Seat.waiting).map Seat.promptTokens).sum

def running (seats : List Seat) : Nat := seats.countP fun seat => !seat.waiting

/-- A roster in order, with everyone who was ever admitted, in that order. -/
structure Ok (admitted : List RequestId) (roster : Roster) : Prop where
  config_ok : roster.config.Valid
  active_bound : roster.config.maxActiveSequences ≤ usizeMax
  burst_ok : ∀ policy, roster.burst = some policy →
    0 < policy.steadyBudget ∧ policy.steadyBudget < roster.config.iterationTokenBudget
  seats_nodup : (roster.seats.map Seat.requestId).Nodup
  line : (admitted ++ roster.waiting).Pairwise fun a b => a.value < b.value
  issued : ∀ id ∈ admitted ++ roster.waiting, id.value < roster.nextRequestId
  queued : ∀ seat ∈ roster.seats, seat.waiting = true ↔ seat.requestId ∈ roster.waiting
  present : ∀ id ∈ roster.waiting, ∃ seat ∈ roster.seats, seat.requestId = id
  ran : ∀ seat ∈ roster.seats, seat.waiting = false → seat.requestId ∈ admitted
  ordered : ∀ seat ∈ roster.seats, ∀ later ∈ roster.seats,
    seat.requestId.value < later.requestId.value → seat.submittedAtNs ≤ later.submittedAtNs
  clock : ∀ seat ∈ roster.seats, ∃ last, roster.lastNowNs = some last ∧
    seat.submittedAtNs ≤ last
  tokens : roster.waitingPromptTokens = waitingTokens roster.seats
  active : roster.activeSequences = running roster.seats
  active_le : roster.activeSequences ≤ roster.config.maxActiveSequences
  inflight : ∀ plan, roster.inflight = some plan → ∀ item ∈ plan.items,
    Resumes (· ∈ admitted) item

/-- Some running requests ended. -/
structure Ended (roster roster' : Roster) : Prop where
  same : { roster' with
    seats := roster.seats
    activeSequences := roster.activeSequences
    outbox := roster.outbox } = roster
  seats : roster'.seats ⊆ roster.seats
  outbox : ∃ completions, roster'.outbox = roster.outbox ++ completions ∧
    ∀ completion ∈ completions, completion.reason ≠ .admissionTimeout

variable {admitted : List RequestId} {ids : RequestId → Prop} {roster roster' : Roster}
  {seat : Seat} {seats : List Seat}

theorem Ended.refl (roster : Roster) : Ended roster roster :=
  ⟨rfl, fun _ => id, [], by simp, by simp⟩

theorem Ended.trans {middle : Roster} (h : Ended roster middle) (h' : Ended middle roster') :
    Ended roster roster' := by
  obtain ⟨first, hfirst, hreasons⟩ := h.outbox
  obtain ⟨second, hsecond, hreasons'⟩ := h'.outbox
  refine ⟨?_, fun _ hseat => h.seats (h'.seats hseat), first ++ second, ?_, ?_⟩
  · have hmiddle := congrArg (fun between => { between with
      seats := roster.seats
      activeSequences := roster.activeSequences
      outbox := roster.outbox }) h'.same
    exact hmiddle.trans h.same
  · rw [hsecond, hfirst, List.append_assoc]
  · intro completion hcompletion
    rcases List.mem_append.mp hcompletion with hold | hnew
    · exact hreasons completion hold
    · exact hreasons' completion hnew

theorem Ended.waiting (h : Ended roster roster') : roster'.waiting = roster.waiting := by
  have hsame := congrArg Roster.waiting h.same
  exact hsame

theorem Ok.not_waiting (h : roster.Ok admitted) {id : RequestId} (hid : id ∈ admitted) :
    id ∉ roster.waiting := fun hwaiting =>
  absurd ((List.pairwise_append.mp h.line).2.2 id hid id hwaiting) (Nat.lt_irrefl _)

theorem Ok.running_seat (h : roster.Ok admitted) (hseat : seat ∈ roster.seats)
    (hid : seat.requestId ∉ roster.waiting) : seat.waiting = false :=
  Bool.eq_false_iff.mpr fun hwaiting => hid ((h.queued seat hseat).mp hwaiting)

theorem running_cons (hseat : seat.waiting = false) :
    running (seat :: seats) = running seats + 1 := by
  unfold running
  rw [List.countP_cons, hseat]
  rfl

theorem waitingTokens_cons (hseat : seat.waiting = false) :
    waitingTokens (seat :: seats) = waitingTokens seats := by
  unfold waitingTokens
  rw [List.filter_cons, hseat]
  rfl

theorem running_perm {other : List Seat} (h : seats.Perm other) :
    running seats = running other :=
  h.countP_eq _

theorem waitingTokens_perm {other : List Seat} (h : seats.Perm other) :
    waitingTokens seats = waitingTokens other :=
  ((h.filter _).map _).sum_eq

/-- A running request goes, with its seat and its place. -/
theorem Ok.finish (h : roster.Ok admitted) (hperm : roster.seats.Perm (seat :: seats))
    (hid : seat.requestId ∉ roster.waiting) (outbox : List RequestCompletion) :
    Ok admitted { roster with
      seats := seats
      activeSequences := roster.activeSequences - 1
      outbox := outbox } := by
  have hmem : ∀ other ∈ seats, other ∈ roster.seats := fun other hother =>
    hperm.mem_iff.mpr (List.mem_cons_of_mem _ hother)
  have hstops := h.running_seat (hperm.mem_iff.mpr List.mem_cons_self) hid
  have hcount : roster.activeSequences = running seats + 1 := by
    rw [h.active, running_perm hperm, running_cons hstops]
  have hle := h.active_le
  exact {
    config_ok := h.config_ok
    active_bound := h.active_bound
    burst_ok := h.burst_ok
    seats_nodup := (List.nodup_cons.mp ((hperm.map _).nodup_iff.mp h.seats_nodup)).2
    line := h.line
    issued := h.issued
    queued := fun other hother => h.queued other (hmem other hother)
    present := fun id hwaiting => by
      obtain ⟨other, hother, rfl⟩ := h.present id hwaiting
      rcases List.mem_cons.mp (hperm.mem_iff.mp hother) with rfl | hother
      · exact absurd hwaiting hid
      · exact ⟨other, hother, rfl⟩
    ran := fun other hother => h.ran other (hmem other hother)
    ordered := fun other hother later hlater =>
      h.ordered other (hmem other hother) later (hmem later hlater)
    clock := fun other hother => h.clock other (hmem other hother)
    tokens := by
      change roster.waitingPromptTokens = waitingTokens seats
      rw [h.tokens, waitingTokens_perm hperm, waitingTokens_cons hstops]
    active := by
      change roster.activeSequences - 1 = running seats
      omega
    active_le := by
      change roster.activeSequences - 1 ≤ _
      exact (Nat.sub_le _ _).trans hle
    inflight := h.inflight }

theorem Ok.turn (h : roster.Ok admitted) (hturn : Turn ids roster roster')
    (hids : ∀ id, ids id → id ∉ roster.waiting) : roster'.Ok admitted ∧ Ended roster roster' := by
  cases hturn with
  | @wake index seat hget hid =>
      have hruns := h.running_seat (List.mem_of_getElem? hget) (hids _ hid)
      have hsame : roster.seats.set index { seat with waiting := false } = roster.seats := by
        obtain ⟨hlt, rfl⟩ := List.getElem?_eq_some_iff.mp hget
        rw [← hruns]
        exact List.set_getElem_self hlt
      rw [hsame]
      exact ⟨h, Ended.refl roster⟩
  | @finish seat seats completion hperm hid _ hreason =>
      refine ⟨h.finish hperm (hids _ hid) _, rfl, fun other hother => ?_, [completion], rfl, ?_⟩
      · exact hperm.mem_iff.mpr (List.mem_cons_of_mem _ hother)
      · simpa using hreason
  | leave _ hid hqueued => exact absurd hqueued (hids _ hid)

theorem Ok.turns (h : roster.Ok admitted) (hturns : Turns ids roster roster')
    (hids : ∀ id, ids id → id ∉ roster.waiting) : roster'.Ok admitted ∧ Ended roster roster' := by
  induction hturns with
  | refl => exact ⟨h, Ended.refl roster⟩
  | tail _ hturn ih =>
      obtain ⟨hok, hended⟩ := ih
      rw [← hended.waiting] at hids
      obtain ⟨hok', hended'⟩ := hok.turn hturn hids
      exact ⟨hok', hended.trans hended'⟩

theorem Ok.dispatched (h : roster.Ok admitted) {inflight : InflightPlan}
    (hitems : ∀ item ∈ inflight.items, Resumes (· ∈ admitted) item) :
    Ok admitted { roster with inflight := some inflight } :=
  { h with
    inflight := fun _ hplan => by
      cases hplan
      exact hitems }

/-- Turns at requests that have been admitted. -/
theorem Ok.worked (h : roster.Ok admitted) (hturns : Turns (· ∈ admitted) roster roster') :
    roster'.Ok admitted ∧ Ended roster roster' :=
  h.turns hturns fun _ => h.not_waiting

theorem running_cons_waiting (hseat : seat.waiting = true) :
    running (seat :: seats) = running seats := by
  unfold running
  rw [List.countP_cons, hseat]
  rfl

theorem waitingTokens_cons_waiting (hseat : seat.waiting = true) :
    waitingTokens (seat :: seats) = seat.promptTokens + waitingTokens seats := by
  unfold waitingTokens
  rw [List.filter_cons, if_pos hseat, List.map_cons, List.sum_cons]

theorem Ok.waiting_nodup (h : roster.Ok admitted) : roster.waiting.Nodup :=
  (List.pairwise_append.mp h.line).2.1.imp fun hlt hsame =>
    absurd (congrArg RequestId.value hsame) (Nat.ne_of_lt hlt)

/-- The other seats belong to other requests. -/
theorem Ok.other_id (h : roster.Ok admitted) (hperm : roster.seats.Perm (seat :: seats))
    {other : Seat} (hother : other ∈ seats) : other.requestId ≠ seat.requestId := by
  have hnodup := (hperm.map Seat.requestId).nodup_iff.mp h.seats_nodup
  intro hsame
  refine (List.nodup_cons.mp hnodup).1 ?_
  rw [← hsame]
  exact List.mem_map_of_mem hother

/-- A waiting request goes, from wherever it stands in the queue. -/
theorem Ok.leave (h : roster.Ok admitted) (hperm : roster.seats.Perm (seat :: seats))
    (hqueued : seat.requestId ∈ roster.waiting) (outbox : List RequestCompletion) :
    Ok admitted { roster with
      seats := seats
      waiting := roster.waiting.erase seat.requestId
      waitingPromptTokens := roster.waitingPromptTokens - seat.promptTokens
      outbox := outbox } := by
  have hmem : ∀ other ∈ seats, other ∈ roster.seats := fun other hother =>
    hperm.mem_iff.mpr (List.mem_cons_of_mem _ hother)
  have hwaits : seat.waiting = true :=
    (h.queued seat (hperm.mem_iff.mpr List.mem_cons_self)).mpr hqueued
  have hsub : (admitted ++ roster.waiting.erase seat.requestId).Sublist
      (admitted ++ roster.waiting) := List.Sublist.append_left List.erase_sublist _
  exact {
    config_ok := h.config_ok
    active_bound := h.active_bound
    burst_ok := h.burst_ok
    seats_nodup := (List.nodup_cons.mp ((hperm.map _).nodup_iff.mp h.seats_nodup)).2
    line := h.line.sublist hsub
    issued := fun id hid => h.issued id (hsub.subset hid)
    queued := fun other hother => by
      rw [h.queued other (hmem other hother)]
      exact (List.mem_erase_of_ne (h.other_id hperm hother)).symm
    present := fun id hwaiting => by
      obtain ⟨hne, hwaiting⟩ := h.waiting_nodup.mem_erase_iff.mp hwaiting
      obtain ⟨other, hother, rfl⟩ := h.present id hwaiting
      rcases List.mem_cons.mp (hperm.mem_iff.mp hother) with rfl | hother
      · exact absurd rfl hne
      · exact ⟨other, hother, rfl⟩
    ran := fun other hother => h.ran other (hmem other hother)
    ordered := fun other hother later hlater =>
      h.ordered other (hmem other hother) later (hmem later hlater)
    clock := fun other hother => h.clock other (hmem other hother)
    tokens := by
      change roster.waitingPromptTokens - seat.promptTokens = waitingTokens seats
      rw [h.tokens, waitingTokens_perm hperm, waitingTokens_cons_waiting hwaits]
      omega
    active := by
      change roster.activeSequences = running seats
      rw [h.active, running_perm hperm, running_cons_waiting hwaits]
    active_le := h.active_le
    inflight := h.inflight }

/-- The first of the queue starts to run. -/
theorem Ok.takesSeat (h : roster.Ok admitted) {seats' : List Seat} {rest : List RequestId}
    (hperm : roster.seats.Perm (seat :: seats))
    (hperm' : seats'.Perm ({ seat with waiting := false } :: seats))
    (hhead : roster.waiting = seat.requestId :: rest)
    (hplace : roster.activeSequences < roster.config.maxActiveSequences) :
    Ok (admitted ++ [seat.requestId]) { roster with
      seats := seats'
      waiting := rest
      waitingPromptTokens := roster.waitingPromptTokens - seat.promptTokens
      activeSequences := roster.activeSequences + 1 } := by
  have hmem : ∀ other ∈ seats, other ∈ roster.seats := fun other hother =>
    hperm.mem_iff.mpr (List.mem_cons_of_mem _ hother)
  have hwaits : seat.waiting = true := by
    refine (h.queued seat (hperm.mem_iff.mpr List.mem_cons_self)).mpr ?_
    rw [hhead]
    exact List.mem_cons_self
  have hline : admitted ++ [seat.requestId] ++ rest = admitted ++ roster.waiting := by
    rw [hhead, List.append_assoc]
    rfl
  have hfirst : seat.requestId ∉ rest := by
    have hnodup := h.waiting_nodup
    rw [hhead] at hnodup
    exact (List.nodup_cons.mp hnodup).1
  -- a seat of the new roster stands for one of the old with the same identity and age
  have hformer : ∀ other ∈ seats', ∃ former ∈ roster.seats,
      former.requestId = other.requestId ∧ former.submittedAtNs = other.submittedAtNs := by
    intro other hother
    rcases List.mem_cons.mp (hperm'.mem_iff.mp hother) with rfl | hother
    · exact ⟨seat, hperm.mem_iff.mpr List.mem_cons_self, rfl, rfl⟩
    · exact ⟨other, hmem other hother, rfl, rfl⟩
  exact {
    config_ok := h.config_ok
    active_bound := h.active_bound
    burst_ok := h.burst_ok
    seats_nodup := by
      refine (hperm'.map _).nodup_iff.mpr ?_
      exact (hperm.map Seat.requestId).nodup_iff.mp h.seats_nodup
    line := by
      change (admitted ++ [seat.requestId] ++ rest).Pairwise _
      rw [hline]
      exact h.line
    issued := fun id hid => by
      change id ∈ admitted ++ [seat.requestId] ++ rest at hid
      rw [hline] at hid
      exact h.issued id hid
    queued := fun other hother => by
      rcases List.mem_cons.mp (hperm'.mem_iff.mp hother) with rfl | hother
      · exact ⟨nofun, fun hrest => absurd hrest hfirst⟩
      · rw [h.queued other (hmem other hother), hhead, List.mem_cons]
        exact or_iff_right (h.other_id hperm hother)
    present := fun id hwaiting => by
      have hold : id ∈ roster.waiting := by
        rw [hhead]
        exact List.mem_cons_of_mem _ hwaiting
      obtain ⟨other, hother, rfl⟩ := h.present id hold
      rcases List.mem_cons.mp (hperm.mem_iff.mp hother) with rfl | hother
      · exact absurd hwaiting hfirst
      · exact ⟨other, hperm'.mem_iff.mpr (List.mem_cons_of_mem _ hother), rfl⟩
    ran := fun other hother hruns => by
      rcases List.mem_cons.mp (hperm'.mem_iff.mp hother) with rfl | hother
      · exact List.mem_append_right _ List.mem_cons_self
      · exact List.mem_append_left _ (h.ran other (hmem other hother) hruns)
    ordered := fun other hother later hlater hlt => by
      obtain ⟨former, hformer', hid, hage⟩ := hformer other hother
      obtain ⟨former', hformer'', hid', hage'⟩ := hformer later hlater
      rw [← hid, ← hid'] at hlt
      rw [← hage, ← hage']
      exact h.ordered former hformer' former' hformer'' hlt
    clock := fun other hother => by
      obtain ⟨former, hformer', -, hage⟩ := hformer other hother
      rw [← hage]
      exact h.clock former hformer'
    tokens := by
      change roster.waitingPromptTokens - seat.promptTokens = waitingTokens seats'
      rw [h.tokens, waitingTokens_perm hperm, waitingTokens_cons_waiting hwaits,
        waitingTokens_perm hperm', waitingTokens_cons rfl]
      omega
    active := by
      change roster.activeSequences + 1 = running seats'
      rw [h.active, running_perm hperm, running_cons_waiting hwaits, running_perm hperm',
        running_cons rfl]
    active_le := hplace
    inflight := fun plan hplan item hitem => by
      obtain ⟨hid, hstate⟩ := h.inflight plan hplan item hitem
      exact ⟨List.mem_append_left _ hid, hstate⟩ }

/-- Everyone on the roster was given an identity. -/
theorem Ok.seat_issued (h : roster.Ok admitted) (hseat : seat ∈ roster.seats) :
    seat.requestId.value < roster.nextRequestId := by
  apply h.issued
  cases hwaits : seat.waiting with
  | true => exact List.mem_append_right _ ((h.queued seat hseat).mp hwaits)
  | false => exact List.mem_append_left _ (h.ran seat hseat hwaits)

/-- A new request joins the end of the queue. -/
theorem Ok.enqueue (h : roster.Ok admitted) (hwaits : seat.waiting = true)
    (hnew : seat.requestId.value = roster.nextRequestId)
    (hnow : roster.lastNowNs = some seat.submittedAtNs) :
    Ok admitted { roster with
      seats := roster.seats ++ [seat]
      waiting := roster.waiting ++ [seat.requestId]
      waitingPromptTokens := roster.waitingPromptTokens + seat.promptTokens
      nextRequestId := roster.nextRequestId + 1 } := by
  have hperm : (roster.seats ++ [seat]).Perm (seat :: roster.seats) :=
    List.perm_append_singleton _ _
  have hline : admitted ++ (roster.waiting ++ [seat.requestId]) =
      admitted ++ roster.waiting ++ [seat.requestId] := (List.append_assoc _ _ _).symm
  have hfresh : ∀ other ∈ roster.seats, other.requestId ≠ seat.requestId := by
    intro other hother hsame
    have hlt := h.seat_issued hother
    rw [hsame, hnew] at hlt
    exact absurd hlt (Nat.lt_irrefl _)
  have hunqueued : seat.requestId ∉ roster.waiting := fun hqueued => by
    have hlt := h.issued _ (List.mem_append_right _ hqueued)
    rw [hnew] at hlt
    exact absurd hlt (Nat.lt_irrefl _)
  exact {
    config_ok := h.config_ok
    active_bound := h.active_bound
    burst_ok := h.burst_ok
    seats_nodup := by
      refine (hperm.map Seat.requestId).nodup_iff.mpr (List.nodup_cons.mpr ⟨?_, h.seats_nodup⟩)
      rintro hmem
      obtain ⟨other, hother, hsame⟩ := List.mem_map.mp hmem
      exact hfresh other hother hsame
    line := by
      change (admitted ++ (roster.waiting ++ [seat.requestId])).Pairwise _
      rw [hline]
      refine List.pairwise_append.mpr ⟨h.line, List.pairwise_singleton _ _, fun id hid last hlast => ?_⟩
      rw [List.mem_singleton.mp hlast, hnew]
      exact h.issued id hid
    issued := fun id hid => by
      change id ∈ admitted ++ (roster.waiting ++ [seat.requestId]) at hid
      rw [hline] at hid
      change id.value < roster.nextRequestId + 1
      rcases List.mem_append.mp hid with hid | hid
      · exact Nat.lt_succ_of_lt (h.issued id hid)
      · rw [List.mem_singleton.mp hid, hnew]
        exact Nat.lt_succ_self _
    queued := fun other hother => by
      change other.waiting = true ↔ other.requestId ∈ roster.waiting ++ [seat.requestId]
      rw [List.mem_append, List.mem_singleton]
      rcases List.mem_cons.mp (hperm.mem_iff.mp hother) with rfl | hother
      · exact ⟨fun _ => .inr rfl, fun _ => hwaits⟩
      · rw [h.queued other hother]
        exact (or_iff_left (hfresh other hother)).symm
    present := fun id hid => by
      change id ∈ roster.waiting ++ [seat.requestId] at hid
      rcases List.mem_append.mp hid with hid | hid
      · obtain ⟨other, hother, rfl⟩ := h.present id hid
        exact ⟨other, List.mem_append_left _ hother, rfl⟩
      · rw [List.mem_singleton.mp hid]
        exact ⟨seat, List.mem_append_right _ List.mem_cons_self, rfl⟩
    ran := fun other hother hruns => by
      rcases List.mem_cons.mp (hperm.mem_iff.mp hother) with rfl | hother
      · rw [hwaits] at hruns
        cases hruns
      · exact h.ran other hother hruns
    ordered := fun other hother later hlater hlt => by
      rcases List.mem_cons.mp (hperm.mem_iff.mp hlater) with rfl | hlater'
      · rcases List.mem_cons.mp (hperm.mem_iff.mp hother) with rfl | hother
        · exact Nat.le_refl _
        · obtain ⟨last, hlast, hage⟩ := h.clock other hother
          rw [hnow] at hlast
          cases hlast
          exact hage
      · rcases List.mem_cons.mp (hperm.mem_iff.mp hother) with rfl | hother
        · rw [hnew] at hlt
          exact absurd (h.seat_issued hlater') (Nat.lt_asymm hlt)
        · exact h.ordered other hother later hlater' hlt
    clock := fun other hother => by
      rcases List.mem_cons.mp (hperm.mem_iff.mp hother) with rfl | hother
      · exact ⟨_, hnow, Nat.le_refl _⟩
      · exact h.clock other hother
    tokens := by
      change roster.waitingPromptTokens + seat.promptTokens = waitingTokens (roster.seats ++ [seat])
      rw [h.tokens, waitingTokens_perm hperm, waitingTokens_cons_waiting hwaits, Nat.add_comm]
    active := by
      change roster.activeSequences = running (roster.seats ++ [seat])
      rw [h.active, running_perm hperm, running_cons_waiting hwaits]
    active_le := h.active_le
    inflight := h.inflight }

/-- A new request starts to run when nobody waits. -/
theorem Ok.enter (h : roster.Ok admitted) (hruns : seat.waiting = false)
    (hnew : seat.requestId.value = roster.nextRequestId)
    (hnow : roster.lastNowNs = some seat.submittedAtNs) (hempty : roster.waiting = [])
    (hplace : roster.activeSequences < roster.config.maxActiveSequences) :
    Ok (admitted ++ [seat.requestId]) { roster with
      seats := roster.seats ++ [seat]
      activeSequences := roster.activeSequences + 1
      nextRequestId := roster.nextRequestId + 1 } := by
  have hqueued := @Ok.enqueue admitted roster { seat with waiting := true } h rfl hnew hnow
  have hwoken : ({ seat with waiting := false } : Seat) = seat := by rw [← hruns]
  have hdone := hqueued.takesSeat (List.perm_append_singleton _ _)
    (show (roster.seats ++ [seat]).Perm ({ seat with waiting := false } :: roster.seats) by
      rw [hwoken]
      exact List.perm_append_singleton _ _)
    (show roster.waiting ++ [seat.requestId] = seat.requestId :: [] by rw [hempty]; rfl) hplace
  have htokens : roster.waitingPromptTokens + seat.promptTokens - seat.promptTokens =
      roster.waitingPromptTokens := Nat.add_sub_cancel _ _
  change Ok _ { roster with
    seats := roster.seats ++ [seat]
    waiting := []
    waitingPromptTokens := roster.waitingPromptTokens + seat.promptTokens - seat.promptTokens
    activeSequences := roster.activeSequences + 1
    nextRequestId := roster.nextRequestId + 1 } at hdone
  rw [htokens] at hdone
  rw [hempty]
  exact hdone

/-- The clock never goes back. -/
theorem Ok.observed (h : roster.Ok admitted) {nowNs : Nat}
    (hnow : ∀ last, roster.lastNowNs = some last → last ≤ nowNs) :
    Ok admitted { roster with lastNowNs := some nowNs } :=
  { h with
    clock := fun seat hseat => by
      obtain ⟨last, hlast, hage⟩ := h.clock seat hseat
      exact ⟨nowNs, rfl, hage.trans (hnow last hlast)⟩ }

theorem Ok.settled (h : roster.Ok admitted) : Ok admitted { roster with inflight := none } :=
  { h with inflight := nofun }

theorem Ok.delivered (h : roster.Ok admitted) (outbox : List RequestCompletion) :
    Ok admitted { roster with outbox := outbox } :=
  { h with }

end Roster

section Prepare

variable {admitted : List RequestId} {ids : RequestId → Prop} {s : Scheduler}

/-- The work item that runs what a candidate was picked for. -/
structure Runs (candidate : Candidate) (item : WorkItem) : Prop where
  request : item.requestId = candidate.requestId
  kind : item.kind = candidate.kind
  tokens : item.inputTokens.length = candidate.tokenCount

/-- A payload with the tokens of its candidate. -/
def Loads (candidate : Candidate) (payload : CandidatePayload) : Prop :=
  payload.candidate = candidate ∧ payload.inputTokens.length = candidate.tokenCount

theorem wp_copyTokens (tokens : List TokenId) (resource : String) :
    wp (copyTokens tokens resource) (fun input t => input = tokens ∧ t.roster = s.roster)
      (fun _ t => t.roster = s.roster) s :=
  wp_same (same_onHost _) (fun _ _ hsame => ⟨rfl, hsame⟩) fun _ _ hsame => hsame

theorem wp_loadOf {candidate : Candidate} (record : RequestRecord)
    (hdecode : candidate.kind = .decode → candidate.tokenCount = 1) :
    wp (payloadOf candidate record)
      (fun payload t => t.roster = s.roster ∧ payload.1.length = candidate.tokenCount)
      (fun _ t => t.roster = s.roster) s := by
  unfold payloadOf
  split
  next hkind =>
    refine wp_seq ((wp_orReject _ _).mpr ⟨fun _ => rfl, fun stop hstop => ?_⟩)
    obtain ⟨rfl, -⟩ := checkedAdd_eq_some.mp hstop
    refine wp_check (fun _ => rfl) fun hfits => ?_
    refine wp_call (wp_copyTokens _ _) (fun input t hinput => ?_) fun _ _ hsame => hsame
    obtain ⟨rfl, hsame⟩ := hinput
    refine ⟨hsame, ?_⟩
    simp only [List.length_drop, List.length_take]
    omega
  next hkind =>
    refine wp_seq ((wp_orReject _ _).mpr ⟨fun _ => rfl, fun token _ => ?_⟩)
    refine wp_seq ((wp_orReject _ _).mpr ⟨fun _ => rfl, fun sequence _ => ?_⟩)
    refine wp_seq ((wp_orReject _ _).mpr ⟨fun _ => rfl, fun target _ => ?_⟩)
    refine wp_call (wp_copyTokens _ _) (fun input t hinput => ?_) fun _ _ hsame => hsame
    obtain ⟨rfl, hsame⟩ := hinput
    exact ⟨hsame, (hdecode hkind).symm⟩

theorem wp_loadAll (slots : Nat) (candidates : List Candidate)
    (hdecode : ∀ candidate ∈ candidates, candidate.kind = .decode → candidate.tokenCount = 1) :
    wp (buildPayloads slots candidates)
      (fun built t => t.roster = s.roster ∧ List.Forall₂ Loads candidates built.1)
      (fun _ t => t.roster = s.roster) s := by
  induction candidates generalizing s slots with
  | nil => exact ⟨rfl, .nil⟩
  | cons candidate rest ih =>
      have hrest := fun s slots => @ih s slots fun other hother =>
        hdecode other (List.mem_cons_of_mem _ hother)
      refine wp_require rfl fun index record _ _ => ?_
      refine wp_call (wp_loadOf record (hdecode candidate List.mem_cons_self))
        (fun payload t hload => ?_) fun _ _ hsame => hsame
      obtain ⟨hsame, hlength⟩ := hload
      refine wp_check (fun _ => hsame) fun _ => ?_
      refine wp_call (hrest t _) (fun built u hbuilt => ?_) fun _ _ hmore => hmore.trans hsame
      exact ⟨hbuilt.1.trans hsame, .cons ⟨rfl, hlength⟩ hbuilt.2⟩

/-- Reserving for an admitted request, which is thus known to run. -/
theorem wp_reserveRunning (h : s.roster.Ok admitted) {payload : CandidatePayload}
    (hid : payload.candidate.requestId ∈ admitted) :
    wp (reservePayload payload)
      (fun item t => t.roster = s.roster ∧ item.requestId = payload.candidate.requestId ∧
        item.kind = payload.candidate.kind ∧ Resumes (· ∈ admitted) item)
      (fun _ t => t.roster = s.roster) s := by
  refine wp_require rfl fun index record hget hrecord => ?_
  refine wp_seq ((wp_orReject _ _).mpr ⟨fun _ => rfl, fun sequence _ => wp_read ?_⟩)
  refine wp_same (.repeatWhile _ (same_evictForRoom _)) (fun _ t hroom => ?_)
    fun _ _ hsame => hsame
  refine wp_same (same_onSequence _ _ _) (fun reservation u hreserved => ?_)
    fun _ _ hsame => hsame.trans hroom
  have hruns : record.seat.waiting = false :=
    h.running_seat (List.mem_of_getElem? (seats_of_requests hget))
      (h.not_waiting (show record.requestId ∈ admitted from hrecord ▸ hid))
  exact ⟨hreserved.trans hroom, rfl, rfl, hid, of_decide_eq_false hruns⟩

theorem workItem_of_new {requestId : RequestId} {kind : WorkKind} {inputTokens : List TokenId}
    {targetLogicalLength blockTableIndex : Nat} {outputSlot : Option OutputSlot}
    {item : WorkItem} (h : WorkItem.new requestId kind inputTokens targetLogicalLength
      blockTableIndex outputSlot = .ok item) :
    inputTokens ≠ [] ∧ item =
      ⟨requestId, kind, inputTokens, targetLogicalLength, blockTableIndex, outputSlot⟩ := by
  unfold WorkItem.new at h
  split_ifs at h with hempty
  cases h
  exact ⟨hempty, rfl⟩

theorem wp_transportRunning (payload : CandidatePayload) (item : InflightItem)
    (tableIndex : Nat) :
    wp (transportPayload payload item tableIndex)
      (fun made t => t.roster = s.roster ∧ made.2.requestId = item.requestId ∧
        made.2.kind = item.kind ∧ made.2.inputTokens = payload.inputTokens)
      (fun _ t => t.roster = s.roster) s := by
  refine wp_require rfl fun index record _ _ => ?_
  refine wp_seq ((wp_orReject _ _).mpr ⟨fun _ => rfl, fun sequence _ => ?_⟩)
  refine wp_same (.fromExcept _) (fun view t hview => ?_) fun _ _ hsame => hsame
  refine wp_same (same_onHost _) (fun table u htable => ?_) fun _ _ hsame => hsame.trans hview
  have hsame := htable.trans hview
  refine wp_seq ((wp_fromExcept _).mpr ⟨fun _ _ => hsame, fun workItem hmade => ?_⟩)
  obtain ⟨-, rfl⟩ := workItem_of_new hmade
  exact ⟨hsame, rfl, rfl, rfl⟩

/-- Reservations for the payloads, or the rollback of those that were made. -/
theorem wp_reserveAll (h : s.roster.Ok admitted) (payloads : List CandidatePayload)
    (prepared : Prepared)
    (hids : ∀ payload ∈ payloads, payload.candidate.requestId ∈ admitted)
    (hitems : ∀ item ∈ prepared.inflightItems, Resumes (· ∈ admitted) item) :
    wp (reservePayloads prepared payloads)
      (fun result t => t.roster = s.roster ∧
        (∀ item ∈ result.inflightItems, Resumes (· ∈ admitted) item) ∧
        ∃ items, result.workItems = prepared.workItems ++ items ∧
          List.Forall₂ (fun payload item => item.requestId = payload.candidate.requestId ∧
            item.kind = payload.candidate.kind ∧ item.inputTokens = payload.inputTokens)
            payloads items)
      (fun _ t => Turning (· ∈ admitted) s t) s := by
  induction payloads generalizing s prepared with
  | nil => exact ⟨rfl, hitems, [], (List.append_nil _).symm, .nil⟩
  | cons payload rest ih =>
      have hreserve : wp (attempt (reservePayload payload) : SchedulerM _)
          (fun answer t => t.roster = s.roster ∧ ∀ item, answer = .ok item →
            item.requestId = payload.candidate.requestId ∧
            item.kind = payload.candidate.kind ∧ Resumes (· ∈ admitted) item)
          (fun _ _ => False) s :=
        (wp_attempt _).mpr (wp_mono (wp_reserveRunning h (hids payload List.mem_cons_self))
          (fun item t hmade => ⟨hmade.1, fun _ hsame => by cases hsame; exact hmade.2⟩)
          fun _ _ hsame => ⟨hsame, fun _ hok => by cases hok⟩)
      refine wp_call hreserve (fun answer t hanswer => ?_) fun _ _ hfalse => hfalse.elim
      obtain ⟨hsame, hmade⟩ := hanswer
      cases answer with
      | error error =>
          exact wp_mono (wp_rollbackTurning error hitems) (fun _ _ hok => hok)
            fun _ _ hturned => hturned.of_same hsame
      | ok item =>
          obtain ⟨hrequest, hkind, hresumes⟩ := hmade item rfl
          have hmore : ∀ other ∈ prepared.inflightItems ++ [item],
              Resumes (· ∈ admitted) other := by
            intro other hother
            rcases List.mem_append.mp hother with hother | hother
            · exact hitems other hother
            · cases List.mem_singleton.mp hother
              exact hresumes
          have htransport : wp (attempt (transportPayload payload item
              prepared.blockTables.length) : SchedulerM _)
              (fun answer u => u.roster = s.roster ∧ ∀ made, answer = .ok made →
                made.2.requestId = payload.candidate.requestId ∧
                made.2.kind = payload.candidate.kind ∧
                made.2.inputTokens = payload.inputTokens)
              (fun _ _ => False) t := by
            refine (wp_attempt _).mpr (wp_mono (wp_transportRunning payload item _)
              (fun made u hcarried => ⟨hcarried.1.trans hsame, fun _ hok => ?_⟩)
              fun _ _ hagain => ⟨hagain.trans hsame, fun _ hok => by cases hok⟩)
            cases hok
            exact ⟨hcarried.2.1.trans hrequest, hcarried.2.2.1.trans hkind, hcarried.2.2.2⟩
          refine wp_call htransport (fun answer u hanswer => ?_) fun _ _ hfalse => hfalse.elim
          obtain ⟨hsame, hcarried⟩ := hanswer
          cases answer with
          | error error =>
              exact wp_mono (wp_rollbackTurning error hmore) (fun _ _ hok => hok)
                fun _ _ hturned => hturned.of_same hsame
          | ok made =>
              have hlater := @ih u (hsame ▸ h)
                ⟨prepared.inflightItems ++ [item], prepared.blockTables ++ [made.1],
                  prepared.workItems ++ [made.2]⟩
                (fun other hother => hids other (List.mem_cons_of_mem _ hother)) hmore
              refine wp_mono hlater (fun result v hresult => ?_)
                fun _ _ hturned => hturned.of_same hsame
              obtain ⟨hlast, hresumed, items, hworks, hcarries⟩ := hresult
              refine ⟨hlast.trans hsame, hresumed, made.2 :: items, ?_,
                .cons (hcarried made rfl) hcarries⟩
              rw [hworks, List.append_assoc]
              rfl

section Rollback

variable {α β : Type} {ok : α → Scheduler → Prop} {err : SchedulerError → Scheduler → Prop}

/-- A step of `prepare_plan` that only reads. -/
theorem wp_orRollbackSame {items : List InflightItem} {action : SchedulerM β}
    {next : β → SchedulerM α} {made : β → Prop}
    (haction : wp action (fun a t => t.roster = s.roster ∧ made a)
      (fun _ t => t.roster = s.roster) s)
    (hitems : ∀ item ∈ items, Resumes ids item)
    (hnext : ∀ a t, t.roster = s.roster → made a → wp (next a) ok err t)
    (herr : ∀ e t, Turning ids s t → err e t) : wp (orRollback items action >>= next) ok err s := by
  have hanswer : wp (attempt action : SchedulerM _)
      (fun answer t => t.roster = s.roster ∧ ∀ a, answer = .ok a → made a)
      (fun _ _ => False) s :=
    (wp_attempt _).mpr (wp_mono haction
      (fun a t hmade => ⟨hmade.1, fun _ hok => by cases hok; exact hmade.2⟩)
      fun _ _ hsame => ⟨hsame, fun _ hok => by cases hok⟩)
  refine wp_seq (wp_call hanswer (fun answer t hanswer => ?_) fun _ _ hfalse => hfalse.elim)
  cases answer with
  | ok a => exact hnext a t hanswer.1 (hanswer.2 a rfl)
  | error error =>
      exact wp_mono (wp_rollbackTurning error hitems) (fun _ _ hok => hok)
        fun _ _ hturned => herr _ _ (hturned.of_same hanswer.1)

end Rollback

theorem wp_checkRunning (items : List InflightItem) (hids : ∀ item ∈ items, ids item.requestId) :
    wp (checkTransitions items)
      (fun indices t => t = s ∧ ∀ pair ∈ items.zip indices, WorksAt ids s.roster pair.2)
      (fun _ t => t = s) s := by
  induction items with
  | nil => exact ⟨rfl, nofun⟩
  | cons item rest ih =>
      refine wp_require rfl fun index record hget hrecord => wp_check (fun _ => rfl) fun _ => ?_
      refine wp_call (ih fun other hother => hids other (List.mem_cons_of_mem _ hother))
        (fun indices t hrest => ?_) fun _ _ hsame => hsame
      obtain ⟨rfl, hrest⟩ := hrest
      refine ⟨rfl, fun pair hpair => ?_⟩
      rcases List.mem_cons.mp hpair with rfl | hpair
      · exact worksAt hget (hrecord ▸ hids item List.mem_cons_self)
      · exact hrest pair hpair

/-- The work items of a plan: one for each candidate, by kind. -/
structure Carries (candidates : List Candidate) (plan : IterationPlan) : Prop where
  split : ∃ items, List.Forall₂ Runs candidates items ∧
    plan.prefillItems = items.filter (·.kind = .prefill) ∧
    plan.decodeItems = items.filter (·.kind = .decode)
  once : (plan.items.map WorkItem.requestId).Nodup

theorem wp_dispatchRunning {prepared : Prepared} (iterationId : IterationId) (slots nowNs : Nat)
    (hitems : ∀ item ∈ prepared.inflightItems, Resumes ids item) :
    wp (dispatchPlan iterationId prepared slots nowNs)
      (fun plan t => (∃ u inflight, Turning ids s u ∧
          inflight.items = prepared.inflightItems ∧
          t.roster = { u.roster with inflight := some inflight }) ∧
        plan.prefillItems = prepared.workItems.filter (·.kind = .prefill) ∧
        plan.decodeItems = prepared.workItems.filter (·.kind = .decode) ∧
        (plan.items.map WorkItem.requestId).Nodup)
      (fun _ t => Turning ids s t) s := by
  have hplan : wp (onHost (IterationPlan.new iterationId
      (prepared.workItems.filter (·.kind = .prefill))
      (prepared.workItems.filter (·.kind = .decode)) prepared.blockTables))
      (fun plan t => t.roster = s.roster ∧ Checked
        (prepared.workItems.filter (·.kind = .prefill))
        (prepared.workItems.filter (·.kind = .decode)) prepared.blockTables plan)
      (fun _ t => t.roster = s.roster) s := by
    unfold onHost
    rw [wp_zoom]
    exact wp_mono wp_planChecked (fun _ _ hchecked => ⟨rfl, hchecked⟩) fun _ _ _ => rfl
  refine wp_orRollbackSame hplan hitems (fun plan t hmade hchecked => ?_)
    fun _ _ hturned => hturned
  have hcount : ∀ (count : Option Nat) (error : SchedulerError) (u : Scheduler),
      wp (orReject count error : SchedulerM Nat) (fun _ v => v.roster = u.roster ∧ True)
        (fun _ v => v.roster = u.roster) u := fun _ _ _ =>
    (wp_orReject _ _).mpr ⟨fun _ => rfl, fun _ _ => ⟨rfl, trivial⟩⟩
  refine wp_orRollbackSame (hcount _ _ t) hitems (fun prefillTokens u hprefill _ => ?_)
    fun _ _ hturned => hturned.of_same hmade
  refine wp_orRollbackSame (hcount _ _ u) hitems (fun decodeTokens v hdecode _ => ?_)
    fun _ _ hturned => hturned.of_same (hprefill.trans hmade)
  have hsame : v.roster = s.roster := hdecode.trans (hprefill.trans hmade)
  have hcheck : wp (checkTransitions prepared.inflightItems)
      (fun indices w => w.roster = v.roster ∧
        ∀ pair ∈ prepared.inflightItems.zip indices, WorksAt ids v.roster pair.2)
      (fun _ w => w.roster = v.roster) v :=
    wp_mono (wp_checkRunning _ fun item hitem => (hitems item hitem).1)
      (fun _ _ hchecked => ⟨congrArg _ hchecked.1, hchecked.2⟩) fun _ _ hagain => congrArg _ hagain
  refine wp_orRollbackSame hcheck hitems (fun indices w hagain hat => ?_)
    fun _ _ hturned => hturned.of_same hsame
  rw [← hagain] at hat
  refine wp_call (wp_startRunning nowNs _ hat) (fun _ x hstarted => ?_)
    fun _ _ hfalse => hfalse.elim
  refine ⟨⟨x, _, hstarted.of_same (hagain.trans hsame), rfl, rfl⟩, hchecked.prefill_items,
    hchecked.decode_items, ?_⟩
  unfold IterationPlan.items
  rw [hchecked.prefill_items, hchecked.decode_items]
  exact hchecked.scanned.ids

theorem map_candidate {candidates : List Candidate} {payloads : List CandidatePayload}
    (h : List.Forall₂ Loads candidates payloads) :
    payloads.map CandidatePayload.candidate = candidates := by
  induction h with
  | nil => rfl
  | cons hload _ ih => rw [List.map_cons, ih, hload.1]

theorem runs_of_loads {candidates : List Candidate} {payloads : List CandidatePayload}
    {items : List WorkItem} (h : List.Forall₂ Loads candidates payloads)
    (hitems : List.Forall₂ (fun payload item =>
      item.requestId = payload.candidate.requestId ∧ item.kind = payload.candidate.kind ∧
      item.inputTokens = payload.inputTokens) payloads items) :
    List.Forall₂ Runs candidates items := by
  induction h generalizing items with
  | nil =>
      cases hitems
      exact .nil
  | cons hload _ ih =>
      cases hitems with
      | cons hitem hitems =>
          obtain ⟨hrequest, hkind, hinputs⟩ := hitem
          refine .cons ⟨hrequest.trans ?_, hkind.trans ?_, ?_⟩ (ih hitems)
          · rw [hload.1]
          · rw [hload.1]
          · rw [hinputs, hload.2]

/-- Building a plan for admitted requests. -/
theorem wp_prepareRunning (h : s.roster.Ok admitted) (iterationId : IterationId)
    {candidates : List Candidate} (nowNs : Nat)
    (hids : ∀ candidate ∈ candidates, candidate.requestId ∈ admitted)
    (hdecode : ∀ candidate ∈ candidates, candidate.kind = .decode → candidate.tokenCount = 1) :
    wp (preparePlan iterationId candidates nowNs)
      (fun plan t => t.roster.Ok admitted ∧ Carries candidates plan ∧
        ∃ roster inflight, Roster.Ended s.roster roster ∧
          t.roster = { roster with inflight := some inflight })
      (fun _ t => t.roster.Ok admitted ∧ Roster.Ended s.roster t.roster) s := by
  have hbuffers : Moves SameRoster reservePlanBuffers := .forEach _ fun _ => same_onHost _
  have hkept : ∀ t : Scheduler, t.roster = s.roster →
      t.roster.Ok admitted ∧ Roster.Ended s.roster t.roster := by
    intro t hsame
    rw [hsame]
    exact ⟨h, Roster.Ended.refl _⟩
  refine wp_same hbuffers (fun _ t hreserved => ?_) fun _ t hsame => hkept t hsame
  refine wp_call (wp_loadAll 0 candidates hdecode) (fun built u hbuilt => ?_)
    fun _ u hsame => hkept u (hsame.trans hreserved)
  obtain ⟨hsame, hloads⟩ := hbuilt
  replace hsame : u.roster = s.roster := hsame.trans hreserved
  have hok : u.roster.Ok admitted := hsame ▸ h
  have hworked : ∀ v : Scheduler, Turning (· ∈ admitted) u v →
      v.roster.Ok admitted ∧ Roster.Ended s.roster v.roster := by
    intro v hturned
    rw [← hsame]
    exact hok.worked hturned
  have hpayloads : ∀ payload ∈ built.1, payload.candidate.requestId ∈ admitted := by
    intro payload hpayload
    apply hids
    rw [← map_candidate hloads]
    exact List.mem_map_of_mem hpayload
  refine wp_call (wp_reserveAll hok built.1 ⟨[], [], []⟩ hpayloads nofun)
    (fun prepared v hprepared => ?_) fun _ v hturned => hworked v hturned
  obtain ⟨hagain, hresumes, items, hworks, hcarries⟩ := hprepared
  rw [List.nil_append] at hworks
  refine wp_mono (wp_dispatchRunning iterationId built.2 nowNs hresumes) (fun plan w hplan => ?_)
    fun _ w hturned => hworked w (hturned.of_same hagain)
  obtain ⟨⟨x, inflight, hturned, hitems, hroster⟩, hprefill, hdecoded, honce⟩ := hplan
  obtain ⟨hdone, hended⟩ := hworked x (hturned.of_same hagain)
  rw [hworks] at hprefill hdecoded
  refine ⟨?_, ⟨⟨items, ?_, hprefill, hdecoded⟩, honce⟩, x.roster, inflight, hended, hroster⟩
  · rw [hroster]
    exact hdone.dispatched (hitems ▸ hresumes)
  · exact runs_of_loads hloads hcarries

end Prepare

end Riley.Scheduling
