import Mathlib.Tactic.Common
import Riley.Server.Lifeline

/-!
What holds of one request in every state: its stream has the first of its texts, each once
and in order, nothing follows its end or a text its cancellation, and it is removed and
released once.
-/

namespace Riley.Server
variable {F : Type}
namespace Lifeline

section Logs

variable (log : List (Occurrence F)) (occurrence : Occurrence F) (events : List (GenerationEvent F))

@[simp] theorem times_nil (kind : Occurrence.Kind) : times ([] : List (Occurrence F)) kind = 0 := rfl

@[simp] theorem times_append (kind : Occurrence.Kind) (more : List (Occurrence F)) :
    times (log ++ more) kind = times log kind + times more kind := List.countP_append

@[simp] theorem times_cons (kind : Occurrence.Kind) :
    times (occurrence :: log) kind =
      times log kind + if occurrence.kind = kind then 1 else 0 := by
  simp [times, List.countP_cons]

@[simp] theorem times_returned (kind : Occurrence.Kind) (hkind : kind ≠ .returned):
    times (events.map .returned) kind = 0 := by
  simp [times, List.countP_map, Function.comp_def, Occurrence.kind, hkind.symm]

@[simp] theorem sent_append (more : List (Occurrence F)) :
    sent (log ++ more) = sent log ++ sent more := List.filterMap_append

@[simp] theorem sent_nil : sent ([] : List (Occurrence F)) = [] := rfl

@[simp] theorem sent_cons : sent (occurrence :: log) = occurrence.accepted?.toList ++ sent log := by
  cases occurrence <;> rfl

@[simp] theorem sent_returned : sent (events.map .returned) = [] := by
  simp [sent, List.filterMap_map, Function.comp_def, Occurrence.accepted?]

@[simp] theorem produced_append (more : List (Occurrence F)) :
    produced (log ++ more) = produced log ++ produced more := by
  simp [produced]

@[simp] theorem produced_nil : produced ([] : List (Occurrence F)) = [] := rfl

@[simp] theorem produced_cons : produced (occurrence :: log) =
    occurrence.returned?.toList.filter (!·.isEmptyDelta) ++ produced log := by
  simp only [produced, List.filterMap_cons]
  cases occurrence.returned? with
  | none => rfl
  | some event =>
      cases hempty : event.isEmptyDelta <;> simp [hempty]

@[simp] theorem produced_returned :
    produced (events.map .returned) = events.filter (!·.isEmptyDelta) := by
  simp [produced, List.filterMap_map, Function.comp_def, Occurrence.returned?]

end Logs

def Task.controls : Option (Task F) → Nat
  | some (.finish _) | some .storeTerminal => 1
  | _ => 0

@[simp] theorem controls_none : Task.controls (none : Option (Task F)) = 0 := rfl

@[simp] theorem controls_send (event : GenerationEvent F) :
    Task.controls (some (.send event)) = 0 := rfl

@[simp] theorem controls_refused : Task.controls (some (.refused : Task F)) = 0 := rfl

@[simp] theorem controls_finish (event : GenerationEvent F) :
    Task.controls (some (.finish event)) = 1 := rfl

@[simp] theorem controls_storeTerminal :
    Task.controls (some (.storeTerminal : Task F)) = 1 := rfl

/-- A number that is not taken yet. -/
structure Unborn (line : Lifeline F) : Prop where
  cell : line.cell = .live
  waiting : line.waiting = 0
  held : line.held = false
  task : line.task = none
  queue : line.queue = []
  log : line.log = []

theorem Step.unborn {line line' : Lifeline F} (h : Step line line')
    (hline : line.born = false → line.Unborn) : line'.born = false → line'.Unborn := by
  intro hborn
  cases h with
  | register => cases hborn
  | abandon htrue => cases htrue.symm.trans hborn
  | _ =>
      obtain ⟨hcell, hwaiting, hheld, htask, hqueue, hlog⟩ := hline hborn
      constructor <;> simp_all

structure Counts (line : Lifeline F) : Prop where
  dequeued : line.waiting + times line.log .dequeued ≤ 1
  admitted : times line.log .admitted ≤ times line.log .dequeued
  removed : line.held.toNat + times line.log .removed = times line.log .admitted
  control : line.held.toNat + line.queue.countP (·.isTerminal) + Task.controls line.task +
    times line.log .released = times line.log .admitted

theorem Step.counts {line line' : Lifeline F} (h : Step line line')
    (hunborn : line.born = false → line.Unborn) (hline : line.Counts) : line'.Counts := by
  obtain ⟨hdequeued, hadmitted, hremoved, hcontrol⟩ := hline
  cases h with
  | register hborn =>
      obtain ⟨_, hwaiting, hheld, htask, hqueue, hlog⟩ := hunborn hborn
      constructor <;> simp [hwaiting, hheld, htask, hqueue, hlog]
  | _ => constructor <;> simp_all [Occurrence.kind] <;> omega

theorem Step.released_cell {line line' : Lifeline F} (h : Step line line')
    (hline : 0 < times line.log .released → line.cell ≠ .live) :
    0 < times line'.log .released → line'.cell ≠ .live := by
  cases h <;> simp_all [Occurrence.kind]

theorem Step.cancelling_cell {line line' : Lifeline F} (h : Step line line')
    (hline : 0 < times line.log .cancelling → line.cell ≠ .live) :
    0 < times line'.log .cancelling → line'.cell ≠ .live := by
  cases h <;> simp_all [Occurrence.kind]


/-- The control block of a request that is being ended has left the map. -/
theorem Counts.ending {line : Lifeline F} (h : line.Counts) (htask : 0 < Task.controls line.task) :
    line.held = false ∧ times line.log .released = 0 := by
  have hdequeued := h.dequeued
  have hadmitted := h.admitted
  have hcontrol := h.control
  cases hheld : line.held with
  | false => exact ⟨rfl, by omega⟩
  | true =>
      rw [hheld, Bool.toNat_true] at hcontrol
      omega

theorem Counts.held {line : Lifeline F} (h : line.Counts) (hheld : line.held = true) :
    0 < times line.log .admitted ∧ times line.log .released = 0 ∧
      line.queue.countP (·.isTerminal) = 0 := by
  have hdequeued := h.dequeued
  have hadmitted := h.admitted
  have hcontrol := h.control
  rw [hheld, Bool.toNat_true] at hcontrol
  omega

theorem Counts.waiting {line : Lifeline F} (h : line.Counts) (hwaiting : 0 < line.waiting) :
    line.held = false := by
  have hdequeued := h.dequeued
  have hadmitted := h.admitted
  have hremoved := h.removed
  cases hheld : line.held with
  | false => rfl
  | true =>
      rw [hheld, Bool.toNat_true] at hremoved
      omega

theorem Step.held_cell {line line' : Lifeline F} (h : Step line line') (hcounts : line.Counts)
    (hline : line.held = true → line.cell ≠ .terminal) :
    line'.held = true → line'.cell ≠ .terminal := by
  cases h with
  | storeTerminal htask =>
      have hheld := (hcounts.ending (by rw [htask]; exact Nat.one_pos)).1
      simp [hheld]
  | _ => simp_all

/-- Nothing has happened to a request before its admission. -/
structure Fresh (line : Lifeline F) : Prop where
  sent : sent line.log = []
  produced : produced line.log = []
  queue : line.queue = []
  task : ∀ event, line.task ≠ some (.send event)

theorem Step.fresh {line line' : Lifeline F} (h : Step line line') (hcounts : line.Counts)
    (hline : times line.log .admitted = 0 → line.Fresh) :
    times line'.log .admitted = 0 → line'.Fresh := by
  have hheld := hcounts.held
  have hcontrol := hcounts.control
  intro hadmitted
  have hpast : times line.log .admitted = 0 := by
    cases h <;> simp_all [Occurrence.kind]
  obtain ⟨hsent, hproduced, hqueue, htask⟩ := hline hpast
  rw [hpast] at hheld hcontrol
  cases h <;> constructor <;>
    simp_all [Occurrence.accepted?, Occurrence.returned?]

/-- What is sent without being the last event comes before all that ends the request. -/
theorem Step.sending {line line' : Lifeline F} (h : Step line line')
    (hheld : line.held = true → line.cell ≠ .terminal)
    (hreleased : 0 < times line.log .released → line.cell ≠ .live)
    (hcancelling : 0 < times line.log .cancelling → line.cell ≠ .live)
    (hline : ∀ event, line.task = some (.send event) → event.isTerminal = false ∧
      times line.log .released = 0 ∧ times line.log .cancelling = 0) :
    ∀ event, line'.task = some (.send event) → event.isTerminal = false ∧
      times line'.log .released = 0 ∧ times line'.log .cancelling = 0 := by
  cases h with
  | publish event rest htask hdirect hin hevent hcell hqueue =>
      have hlive : line.cell = .live := by
        cases hstate : line.cell with
        | live => rfl
        | terminal => exact absurd hstate (hheld hin)
        | _ => simp_all
      simp_all [Nat.pos_iff_ne_zero]
  | deliver event rest htask hqueue hevent hcell => simp_all [Nat.pos_iff_ne_zero]
  | _ => simp_all [Occurrence.kind]

/-- The last events that the stream took. -/
def ends (log : List (Occurrence F)) : Nat := (sent log).countP (·.isTerminal)

@[simp] theorem ends_append (log more : List (Occurrence F)) :
    ends (log ++ more) = ends log + ends more := by
  rw [ends, sent_append, List.countP_append, ends, ends]

@[simp] theorem ends_returned (events : List (GenerationEvent F)) :
    ends (events.map .returned) = 0 := by rw [ends, sent_returned, List.countP_nil]

theorem ends_single (occurrence : Occurrence F) :
    ends [occurrence] = occurrence.accepted?.toList.countP (·.isTerminal) := by
  rw [ends, sent_cons, sent_nil, List.append_nil]

theorem Step.ended {line line' : Lifeline F} (h : Step line line')
    (hsending : ∀ event, line.task = some (.send event) → event.isTerminal = false ∧
      times line.log .released = 0 ∧ times line.log .cancelling = 0)
    (hline : 0 < ends line.log → line.task = some .storeTerminal ∨ 0 < times line.log .released) :
    0 < ends line'.log → line'.task = some .storeTerminal ∨ 0 < times line'.log .released := by
  cases h with
  | accept event htask => simp_all [ends_single, Occurrence.accepted?, Occurrence.kind]
  | enter hwaiting hcell htask hdirect =>
      rw [List.append_cons]
      simp_all [ends_single, Occurrence.accepted?, Occurrence.kind, - List.append_assoc]
  | _ => simp_all [ends_single, Occurrence.accepted?, Occurrence.kind]

theorem Step.finishing {line line' : Lifeline F} (h : Step line line')
    (hline : ∀ event, line.task = some (.finish event) → event.isTerminal = true) :
    ∀ event, line'.task = some (.finish event) → event.isTerminal = true := by
  cases h with
  | fail => simp [GenerationEvent.isTerminal]
  | _ => simp_all

/-- No event follows a last one. -/
def Ordered (log : List (Occurrence F)) : Prop :=
  (sent log).Pairwise fun earlier _ => earlier.isTerminal = false

theorem Ordered.accept {log : List (Occurrence F)} (h : Ordered log) (hends : ends log = 0)
    (event : GenerationEvent F) : Ordered (log ++ [.accepted event]) := by
  unfold Ordered
  rw [sent_append, List.pairwise_append]
  refine ⟨h, List.pairwise_singleton _ _, fun earlier hearlier _ _ => ?_⟩
  have hnone := List.countP_eq_zero.mp hends earlier hearlier
  simpa using hnone

theorem Step.ordered {line line' : Lifeline F} (h : Step line line') (hcounts : line.Counts)
    (hsending : ∀ event, line.task = some (.send event) → event.isTerminal = false ∧
      times line.log .released = 0 ∧ times line.log .cancelling = 0)
    (hended : 0 < ends line.log → line.task = some .storeTerminal ∨ 0 < times line.log .released)
    (hline : Ordered line.log) : Ordered line'.log := by
  cases h with
  | accept event htask =>
      apply hline.accept
      simp_all
  | finish event htask =>
      have hreleased := (hcounts.ending (by rw [htask]; exact Nat.one_pos)).2
      apply hline.accept
      simp_all
  | _ => simp_all [Ordered, Occurrence.accepted?]

/-- No text is sent once the worker has turned to the cancellation of the request. -/
def Quiet (log : List (Occurrence F)) : Prop :=
  log.Pairwise fun earlier later => earlier.kind = .cancelling →
    ∀ event, later = .accepted event → event.isTerminal = true

theorem Quiet.append {log more : List (Occurrence F)} (h : Quiet log)
    (hmore : ∀ event, .accepted event ∈ more → event.isTerminal = true ∨
      times log .cancelling = 0 ∧ more = [.accepted event]) : Quiet (log ++ more) := by
  unfold Quiet
  rw [List.pairwise_append]
  refine ⟨h, ?_, ?_⟩
  · rw [List.pairwise_iff_forall_sublist]
    rintro earlier later hsub hearlier event rfl
    rcases hmore event (hsub.subset (by simp)) with hterminal | ⟨_, rfl⟩
    · exact hterminal
    · have hlength := hsub.length_le
      simp at hlength
  · rintro earlier hmem _ hin hearlier event rfl
    rcases hmore event hin with hterminal | ⟨hnone, _⟩
    · exact hterminal
    · have hnot := List.countP_eq_zero.mp hnone earlier hmem
      simp [hearlier] at hnot

theorem Step.quiet {line line' : Lifeline F} (h : Step line line')
    (hsending : ∀ event, line.task = some (.send event) → event.isTerminal = false ∧
      times line.log .released = 0 ∧ times line.log .cancelling = 0)
    (hfinishing : ∀ event, line.task = some (.finish event) → event.isTerminal = true)
    (hline : Quiet line.log) : Quiet line'.log := by
  cases h with
  | accept event htask =>
      apply hline.append
      simp_all
  | finish event htask =>
      apply hline.append
      simp_all
  | dequeue => exact hline.append (by simp)
  | abandon => exact hline.append (by simp)
  | enter => exact hline.append (by simp)
  | process => exact hline.append (by simp)
  | returns => exact hline.append (by simp)
  | returnsFirst => exact hline.append (by simp)
  | publishLast => exact hline.append (by simp)
  | stageLast => exact hline.append (by simp)
  | cancelRefused => exact hline.append (by simp)
  | storeTerminal => exact hline.append (by simp)
  | fail => exact hline.append (by simp)
  | _ => exact hline

def Task.events : Option (Task F) → List (GenerationEvent F)
  | some (.send event) => [event]
  | _ => []

/-- Whether no event of the request is lost as yet. -/
def Streaming (line : Lifeline F) : Prop :=
  (line.task = none ∧ line.cell = .live) ∨ ∃ event, line.task = some (.send event)

/-- The events that are not sent yet follow those that are. -/
structure Account (line : Lifeline F) : Prop where
  held : line.held = true →
    sent line.log ++ Task.events line.task ++ line.queue ++ line.direct = produced line.log
  ended : line.held = false →
    sent line.log ++ Task.events line.task ++ line.queue <+: produced line.log

theorem streaming_none {line : Lifeline F} (htask : line.task = none) :
    line.Streaming ↔ line.cell = .live := by
  simp [Streaming, htask]

theorem Step.account {line line' : Lifeline F} (h : Step line line') (hcounts : line.Counts)
    (hheld : line.held = true → line.cell ≠ .terminal)
    (hfresh : times line.log .admitted = 0 → line.Fresh)
    (hline : line.Streaming → line.Account) : line'.Streaming → line'.Account := by
  intro hstreaming
  cases h with
  | register | withdraw => exact ⟨(hline hstreaming).held, (hline hstreaming).ended⟩
  | dequeue =>
      obtain ⟨hin, hout⟩ := hline hstreaming
      constructor <;> simp_all [Occurrence.accepted?, Occurrence.returned?]
  | enter hwaiting hcell htask hdirect =>
      have hdequeued := hcounts.dequeued
      have hadmitted := hcounts.admitted
      obtain ⟨hsent, hproduced, hqueue, _⟩ := hfresh (by omega)
      constructor <;>
        simp_all [Occurrence.accepted?, Occurrence.returned?, Task.events]
  | abandon =>
      have hsend : line.Streaming := by
        rcases hstreaming with ⟨_, hcell⟩ | hsend
        · cases hcell
        · exact Or.inr hsend
      obtain ⟨hin, hout⟩ := hline hsend
      constructor <;> simp_all [Occurrence.accepted?, Occurrence.returned?]
  | process hcell htask => simp [Streaming, htask] at hstreaming
  | returns events hin hdirect =>
      obtain ⟨hpast, _⟩ := hline hstreaming
      constructor <;> simp_all
  | returnsFirst events hin hcell htask =>
      exact absurd ((streaming_none htask).mp hstreaming) hcell
  | ignores direct hout =>
      obtain ⟨_, hpast⟩ := hline hstreaming
      constructor <;> simp_all
  | publish event rest htask hdirect hin hevent hcell hqueue =>
      have hlive : line.cell = .live := by
        cases hstate : line.cell with
        | live => rfl
        | terminal => exact absurd hstate (hheld hin)
        | cancelled => exact absurd hstate hcell.1
        | cancelling => exact absurd hstate hcell.2
      obtain ⟨hpast, _⟩ := hline ((streaming_none htask).mpr hlive)
      constructor <;> simp_all [Task.events]
  | stage event rest htask hdirect hin hevent =>
      obtain ⟨hpast, _⟩ := hline hstreaming
      constructor <;> simp_all
  | stageLast event rest htask hdirect hin hevent =>
      obtain ⟨hpast, _⟩ := hline hstreaming
      constructor
      · simp
      · intro _
        have hproduced := hpast hin
        rw [hdirect] at hproduced
        refine ⟨rest, ?_⟩
        simpa [Occurrence.accepted?, Occurrence.returned?] using hproduced
  | skip event rest htask hdirect hlost =>
      have hlive := (streaming_none htask).mp hstreaming
      obtain ⟨_, hpast⟩ := hline hstreaming
      constructor <;> simp_all
  | deliver event rest htask hqueue hevent hcell =>
      obtain ⟨hin, hout⟩ := hline ((streaming_none htask).mpr hcell)
      constructor <;> simp_all [Task.events]
  | deliverSkip event rest htask hqueue hevent hcell =>
      exact absurd ((streaming_none htask).mp hstreaming) hcell
  | accept event htask =>
      obtain ⟨hin, hout⟩ := hline (Or.inr ⟨event, htask⟩)
      constructor <;> simp_all [Task.events, Occurrence.accepted?, Occurrence.returned?]
  | leaveRefused htask hcell =>
      exact absurd ((streaming_none rfl).mp hstreaming) hcell
  | publishLast | deliverLast | refuse | cancelRefused | finish | finishRefused
  | storeTerminal | fail => simp [Streaming] at hstreaming

/-- The texts that the stream took are the first that the backend returned. -/
def Faithful (log : List (Occurrence F)) : Prop := texts (sent log) <+: texts (produced log)

theorem Faithful.append {log more : List (Occurrence F)} (h : Faithful log)
    (hmore : texts (sent more) = []) : Faithful (log ++ more) := by
  unfold Faithful texts at *
  rw [sent_append, produced_append, List.filter_append, List.filter_append, hmore, List.append_nil]
  exact h.trans (List.prefix_append _ _)

theorem Step.faithful {line line' : Lifeline F} (h : Step line line')
    (hfinishing : ∀ event, line.task = some (.finish event) → event.isTerminal = true)
    (haccount : line.Streaming → line.Account) (hline : Faithful line.log) :
    Faithful line'.log := by
  cases h with
  | accept event htask =>
      obtain ⟨hin, hout⟩ := haccount (Or.inr ⟨event, htask⟩)
      have hfirst : sent line.log ++ [event] <+: produced line.log := by
        rw [htask] at hin hout
        cases hheld : line.held with
        | true =>
            rw [← hin hheld, List.append_assoc (_ ++ _)]
            exact List.prefix_append _ _
        | false => exact (List.prefix_append _ _).trans (hout hheld)
      have htexts := hfirst.filter (!·.isTerminal)
      simpa [Faithful, texts, Occurrence.accepted?, Occurrence.returned?] using htexts
  | finish event htask =>
      apply hline.append
      simp [texts, Occurrence.accepted?, hfinishing event htask]
  | dequeue | abandon | enter | process | publishLast | stageLast | cancelRefused | storeTerminal | fail =>
      exact hline.append (by simp [texts, Occurrence.accepted?])
  | returns | returnsFirst => exact hline.append (by simp [texts])
  | _ => exact hline

/-- Nobody has cancelled the request. -/
def Untouched (log : List (Occurrence F)) : Prop :=
  times log .abandoned = 0 ∧ times log .cancelling = 0

/-- The events that the stream took are the first that the backend returned, up to an error of
the worker's own. -/
def Complete (log : List (Occurrence F)) : Prop :=
  sent log <+: produced log ∨
    ∃ whole errorClass, sent log = whole ++ [.failed errorClass] ∧ whole <+: produced log

theorem Complete.append {log more : List (Occurrence F)} (h : Complete log)
    (hmore : sent more = []) : Complete (log ++ more) := by
  unfold Complete at *
  rw [sent_append, produced_append, hmore, List.append_nil]
  rcases h with hsent | ⟨whole, errorClass, hsent, hwhole⟩
  · exact .inl (hsent.trans (List.prefix_append _ _))
  · exact .inr ⟨whole, errorClass, hsent, hwhole.trans (List.prefix_append _ _)⟩

/-- What holds of a request that nobody has cancelled. -/
structure Whole (line : Lifeline F) : Prop where
  live : times line.log .released = 0 → line.cell = .live
  finish : ∀ event, line.task = some (.finish event) →
    sent line.log ++ [event] <+: produced line.log ∨
      (∃ errorClass, event = .failed errorClass) ∧ sent line.log <+: produced line.log
  complete : Complete line.log

theorem Account.sent {line : Lifeline F} (h : line.Account) :
    sent line.log ++ Task.events line.task ++ line.queue <+: produced line.log := by
  cases hheld : line.held with
  | true =>
      rw [← h.held hheld]
      exact List.prefix_append _ _
  | false => exact h.ended hheld

theorem Step.whole {line line' : Lifeline F} (h : Step line line') (hcounts : line.Counts)
    (haccount : line.Streaming → line.Account) (hline : Untouched line.log → line.Whole) :
    Untouched line'.log → line'.Whole := by
  intro huntouched
  have hpast : Untouched line.log := by
    cases h <;> simp_all [Untouched, Occurrence.kind]
  obtain ⟨hlive, hfinish, hcomplete⟩ := hline hpast
  have hdequeued := hcounts.dequeued
  have hadmitted := hcounts.admitted
  have hcontrol := hcounts.control
  have hstream : line.task = none → times line.log .released = 0 →
      sent line.log ++ line.queue <+: produced line.log := by
    intro htask hreleased
    have hsent := (haccount ((streaming_none htask).mpr (hlive hreleased))).sent
    simpa [htask, Task.events] using hsent
  cases h with
  | abandon => simp [Untouched, Occurrence.kind] at huntouched
  | process => simp [Untouched, Occurrence.kind] at huntouched
  | cancelRefused => simp [Untouched, Occurrence.kind] at huntouched
  | returns events hin hdirect =>
      refine ⟨by simpa [Occurrence.kind] using hlive, fun event htask => ?_,
        hcomplete.append (by simp)⟩
      rw [sent_append, produced_append, sent_returned, List.append_nil]
      rcases hfinish event htask with hsent | ⟨hevent, hsent⟩
      · exact .inl (hsent.trans (List.prefix_append _ _))
      · exact .inr ⟨hevent, hsent.trans (List.prefix_append _ _)⟩
  | returnsFirst events hin hcell htask =>
      refine ⟨by simpa [Occurrence.kind] using hlive, fun event hfinal => ?_,
        hcomplete.append (by simp)⟩
      cases htask.symm.trans hfinal
  | publishLast event rest htask hdirect hin hevent hqueue =>
      rw [hin, Bool.toNat_true] at hcontrol
      have hcell := hlive (by omega)
      have hsent := (haccount ((streaming_none htask).mpr hcell)).held hin
      rw [htask, hqueue hcell, hdirect] at hsent
      refine ⟨by simpa [Occurrence.kind] using hlive, fun last hlast => .inl ?_,
        hcomplete.append (by simp [Occurrence.accepted?])⟩
      obtain rfl : event = last := by simpa using hlast
      refine ⟨rest, ?_⟩
      simpa [Task.events, Occurrence.accepted?, Occurrence.returned?] using hsent
  | deliverLast event rest htask hqueue hevent =>
      rw [hqueue, List.countP_cons, if_pos hevent] at hcontrol
      have hsent := hstream htask (by omega)
      refine ⟨hlive, fun last hlast => .inl ?_, hcomplete⟩
      obtain rfl : event = last := by simpa using hlast
      rw [hqueue, List.append_cons] at hsent
      exact (List.prefix_append _ _).trans hsent
  | accept event htask =>
      have hsent := (haccount (Or.inr ⟨event, htask⟩)).sent
      simp only [htask, Task.events] at hsent
      refine ⟨by simpa [Occurrence.kind] using hlive, by simp, .inl ?_⟩
      simpa [Occurrence.accepted?, Occurrence.returned?] using (List.prefix_append _ _).trans hsent
  | finish event htask =>
      refine ⟨by simpa [Occurrence.kind] using hlive, by simp, ?_⟩
      rcases hfinish event htask with hsent | ⟨⟨errorClass, rfl⟩, hsent⟩
      · exact .inl (by simpa [Occurrence.accepted?, Occurrence.returned?] using hsent)
      · refine .inr ⟨sent line.log, errorClass, ?_, ?_⟩
        · simp [Occurrence.accepted?]
        · simpa [Occurrence.returned?] using hsent
  | storeTerminal htask =>
      refine ⟨by simp [Occurrence.kind], by simp, hcomplete.append (by simp [Occurrence.accepted?])⟩
  | fail errorClass htask hin =>
      rw [hin, Bool.toNat_true] at hcontrol
      have hsent := hstream htask (by omega)
      refine ⟨by simpa [Occurrence.kind] using hlive, fun last hlast => .inr ?_,
        hcomplete.append (by simp [Occurrence.accepted?])⟩
      obtain rfl : GenerationEvent.failed errorClass = last := by simpa using hlast
      refine ⟨⟨errorClass, rfl⟩, ?_⟩
      simpa [Occurrence.accepted?, Occurrence.returned?] using (List.prefix_append _ _).trans hsent
  | dequeue | enter | stageLast =>
      refine ⟨by simpa [Occurrence.kind] using hlive, ?_,
        hcomplete.append (by simp [Occurrence.accepted?])⟩
      simpa [Occurrence.accepted?, Occurrence.returned?] using hfinish
  | register | withdraw | ignores | stage | skip | deliverSkip =>
      exact ⟨hlive, hfinish, hcomplete⟩
  | publish | deliver | refuse | leaveRefused | finishRefused =>
      exact ⟨hlive, by simp, hcomplete⟩

/-- What holds of a request in every state of the engine. -/
structure Sound (line : Lifeline F) : Prop where
  unborn : line.born = false → line.Unborn
  counts : line.Counts
  fresh : times line.log .admitted = 0 → line.Fresh
  held : line.held = true → line.cell ≠ .terminal
  released : 0 < times line.log .released → line.cell ≠ .live
  cancelling : 0 < times line.log .cancelling → line.cell ≠ .live
  sending : ∀ event, line.task = some (.send event) → event.isTerminal = false ∧
    times line.log .released = 0 ∧ times line.log .cancelling = 0
  finishing : ∀ event, line.task = some (.finish event) → event.isTerminal = true
  ended : 0 < ends line.log → line.task = some .storeTerminal ∨ 0 < times line.log .released
  ordered : Ordered line.log
  quiet : Quiet line.log
  account : line.Streaming → line.Account
  faithful : Faithful line.log
  whole : Untouched line.log → line.Whole

theorem sound_start (born : Bool) : ({ start with born } : Lifeline F).Sound where
  unborn := fun _ => ⟨rfl, rfl, rfl, rfl, rfl, rfl⟩
  counts := ⟨Nat.zero_le 1, Nat.le_refl 0, rfl, rfl⟩
  fresh := fun _ => ⟨rfl, rfl, rfl, fun _ => by simp [start]⟩
  held := by simp [start]
  released := by simp [start]
  cancelling := by simp [start]
  sending := by simp [start]
  finishing := by simp [start]
  ended := by simp [start, ends]
  ordered := List.Pairwise.nil
  quiet := List.Pairwise.nil
  account := fun _ => ⟨by simp [start], fun _ => List.prefix_rfl⟩
  faithful := List.prefix_rfl
  whole := fun _ => ⟨fun _ => rfl, by simp [start], .inl List.prefix_rfl⟩

theorem Step.sound {line line' : Lifeline F} (h : Step line line') (hline : line.Sound) :
    line'.Sound where
  unborn := h.unborn hline.unborn
  counts := h.counts hline.unborn hline.counts
  fresh := h.fresh hline.counts hline.fresh
  held := h.held_cell hline.counts hline.held
  released := h.released_cell hline.released
  cancelling := h.cancelling_cell hline.cancelling
  sending := h.sending hline.held hline.released hline.cancelling hline.sending
  finishing := h.finishing hline.finishing
  ended := h.ended hline.sending hline.ended
  ordered := h.ordered hline.counts hline.sending hline.ended hline.ordered
  quiet := h.quiet hline.sending hline.finishing hline.quiet
  account := h.account hline.counts hline.held hline.fresh hline.account
  faithful := h.faithful hline.finishing hline.account hline.faithful
  whole := h.whole hline.counts hline.account hline.whole

theorem Steps.sound {line line' : Lifeline F} (h : Steps line line') (hline : line.Sound) :
    line'.Sound := by
  induction h with
  | refl => exact hline
  | tail _ hstep ih => exact hstep.sound ih

end Lifeline
end Riley.Server
