import Mathlib.Logic.Function.Basic
import Mathlib.Tactic.Common

/-!
Programs that run side by side over one state. A program is the operation it performs next and
how it goes on with the answer; an operation may change the state before it answers, and any
program may stop for good between two changes. A program is safe where it keeps to what it
guarantees as long as the others keep to what it relies on; programs of which each guarantees what
all others rely on are safe together.
-/

namespace Riley.Interleaving

variable {Op : Type} {Answer : Op → Type} {ε α β γ σ ι : Type}

/-- Operations one after the other, each of which is answered or fails. -/
inductive Program (Op : Type) (Answer : Op → Type) (ε α : Type)
  | done (result : Except ε α)
  | perform (op : Op) (next : Except ε (Answer op) → Program Op Answer ε α)

namespace Program

/-- Goes on with the result, whichever it is. -/
def handle (program : Program Op Answer ε α) (next : Except ε α → Program Op Answer ε β) :
    Program Op Answer ε β :=
  match program with
  | .done result => next result
  | .perform op rest => .perform op fun answer => (rest answer).handle next

/-- Goes on with the value, or ends with the error. -/
def onValue (next : α → Program Op Answer ε β) : Except ε α → Program Op Answer ε β
  | .ok value => next value
  | .error error => .done (.error error)

instance : Monad (Program Op Answer ε) where
  pure value := .done (.ok value)
  bind program next := program.handle (onValue next)

def call (op : Op) : Program Op Answer ε (Answer op) := .perform op .done

def fail (error : ε) : Program Op Answer ε α := .done (.error error)

/-- Cleans up where the body fails; whether that succeeds is not told. -/
def onError (cleanup : Program Op Answer ε Unit) (body : Program Op Answer ε α) :
    Program Op Answer ε α :=
  body.handle fun
    | .ok value => .done (.ok value)
    | .error error => cleanup.handle fun _ => .done (.error error)

def fromExcept (value : Except ε α) : Program Op Answer ε α := .done value

/-- Runs the body on every item of a list, in order. -/
def forEach (body : γ → Program Op Answer ε Unit) : List γ → Program Op Answer ε Unit
  | [] => .done (.ok ())
  | item :: rest => do
      body item
      forEach body rest

end Program

/-- What an operation may change before its answer, and with it. -/
structure Semantics (Op : Type) (Answer : Op → Type) (ε σ : Type) where
  progress : Op → σ → σ → Prop
  answers : (op : Op) → σ → Except ε (Answer op) → σ → Prop

section Safety

variable (semantics : Semantics Op Answer ε σ) (rely guarantee : σ → σ → Prop)

/-- What holds at the end, where that is a value and where it is an error. -/
def ends (ok : α → σ → Prop) (failed : ε → σ → Prop) : Except ε α → σ → Prop
  | .ok value => ok value
  | .error error => failed error

/-- An assertion that the others do not make false. -/
def Stable (assertion : σ → Prop) : Prop := ∀ s t, assertion s → rely s t → assertion t

/-- From this state on all changes of a program are guaranteed, and it ends where its
postcondition holds. While an operation lasts, an invariant holds that the others keep. -/
def Safe (post : Except ε α → σ → Prop) : Program Op Answer ε α → σ → Prop
  | .done result, s => post result s
  | .perform op next, s => ∃ invariant : σ → Prop, invariant s ∧ Stable rely invariant ∧
      ∀ t, invariant t →
        (∀ t', semantics.progress op t t' → guarantee t t' ∧ invariant t') ∧
        ∀ answer t', semantics.answers op t answer t' →
          guarantee t t' ∧ Safe post (next answer) t'

end Safety

section Rules

variable {semantics : Semantics Op Answer ε σ} {rely guarantee : σ → σ → Prop}
  {post : Except ε α → σ → Prop} {post' : Except ε β → σ → Prop}
  {program : Program Op Answer ε α} {s t : σ}

theorem Safe.stable (hpost : ∀ result, Stable rely (post result))
    (h : Safe semantics rely guarantee post program s) (hrely : rely s t) :
    Safe semantics rely guarantee post program t := by
  cases program with
  | done result => exact hpost result s t h hrely
  | perform op next =>
      obtain ⟨invariant, hs, hstable, hnext⟩ := h
      exact ⟨invariant, hstable s t hs hrely, hstable, hnext⟩

theorem Safe.imp {other : Except ε α → σ → Prop}
    (h : Safe semantics rely guarantee post program s)
    (himp : ∀ result s, post result s → other result s) :
    Safe semantics rely guarantee other program s := by
  induction program generalizing s with
  | done result => exact himp result s h
  | perform op next ih =>
      obtain ⟨invariant, hs, hstable, hnext⟩ := h
      refine ⟨invariant, hs, hstable, fun t ht => ⟨(hnext t ht).1, fun answer t' hanswer => ?_⟩⟩
      obtain ⟨hguarantee, hsafe⟩ := (hnext t ht).2 answer t' hanswer
      exact ⟨hguarantee, ih answer hsafe⟩

/-- A program is safe where it is safe to its end, and from there the rest of it is. -/
theorem Safe.handle {next : Except ε α → Program Op Answer ε β}
    (h : Safe semantics rely guarantee
      (fun result s => Safe semantics rely guarantee post' (next result) s) program s) :
    Safe semantics rely guarantee post' (program.handle next) s := by
  induction program generalizing s with
  | done result => exact h
  | perform op rest ih =>
      obtain ⟨invariant, hs, hstable, hnext⟩ := h
      refine ⟨invariant, hs, hstable, fun t ht => ⟨(hnext t ht).1, fun answer t' hanswer => ?_⟩⟩
      obtain ⟨hguarantee, hsafe⟩ := (hnext t ht).2 answer t' hanswer
      exact ⟨hguarantee, ih answer hsafe⟩

theorem Safe.bind {next : α → Program Op Answer ε β} {middle : α → σ → Prop}
    {failed : ε → σ → Prop}
    (h : Safe semantics rely guarantee (ends middle failed) program s)
    (hnext : ∀ value s, middle value s → Safe semantics rely guarantee post' (next value) s)
    (hfailed : ∀ error s, failed error s → post' (.error error) s) :
    Safe semantics rely guarantee post' (program >>= next) s := by
  refine Safe.handle (h.imp fun result s hresult => ?_)
  cases result with
  | ok value => exact hnext value s hresult
  | error error => exact hfailed error s hresult

/-- A single operation, with what holds while it lasts. -/
theorem Safe.call {op : Op} {post : Except ε (Answer op) → σ → Prop} (invariant : σ → Prop)
    (hs : invariant s) (hstable : Stable rely invariant)
    (hprogress : ∀ t t', invariant t → semantics.progress op t t' → guarantee t t' ∧ invariant t')
    (hanswers : ∀ t answer t', invariant t → semantics.answers op t answer t' →
      guarantee t t' ∧ post answer t') :
    Safe semantics rely guarantee post (Program.call op) s :=
  ⟨invariant, hs, hstable, fun t ht =>
    ⟨fun t' => hprogress t t' ht, fun answer t' => hanswers t answer t' ht⟩⟩

theorem Safe.onError {cleanup : Program Op Answer ε Unit} {failed : ε → σ → Prop}
    (h : Safe semantics rely guarantee (ends (fun value => post (.ok value)) failed) program s)
    (hcleanup : ∀ error s, failed error s →
      Safe semantics rely guarantee (fun _ s => post (.error error) s) cleanup s) :
    Safe semantics rely guarantee post (Program.onError cleanup program) s := by
  refine Safe.handle (h.imp fun result s hresult => ?_)
  cases result with
  | ok value => exact hresult
  | error error => exact Safe.handle (hcleanup error s hresult)

/-- A loop is safe by what holds of the items that are behind it. -/
theorem Safe.forEach {body : γ → Program Op Answer ε Unit} {post : Except ε Unit → σ → Prop}
    (failed : ε → σ → Prop) (invariant : List γ → σ → Prop) {items : List γ}
    (hbody : ∀ before item after, items = before ++ item :: after → ∀ s, invariant before s →
      Safe semantics rely guarantee (ends (fun _ => invariant (before ++ [item])) failed)
        (body item) s)
    (hfailed : ∀ error s, failed error s → post (.error error) s)
    (hpost : ∀ s, invariant items s → post (.ok ()) s) (hs : invariant [] s) :
    Safe semantics rely guarantee post (Program.forEach body items) s := by
  -- The items behind the loop grow as those before it become fewer.
  suffices hrest : ∀ after before s, items = before ++ after → invariant before s →
      Safe semantics rely guarantee post (Program.forEach body after) s from
    hrest items [] s rfl hs
  intro after
  induction after with
  | nil =>
      intro before s hitems hinvariant
      rw [List.append_nil] at hitems
      subst hitems
      exact hpost s hinvariant
  | cons item rest ih =>
      intro before s hitems hinvariant
      refine Safe.bind (hbody before item rest hitems s hinvariant) (fun _ t ht => ?_) hfailed
      exact ih (before ++ [item]) t (by rw [hitems]; simp) ht

end Rules

section Together

/-- A state and what each program has still to do; a program that has stopped is gone. -/
structure Config (ι Op : Type) (Answer : Op → Type) (ε α σ : Type) where
  state : σ
  programs : ι → Option (Program Op Answer ε α)

/-- One program changes, or is gone. -/
def Changes (i : ι) (value : Option (Program Op Answer ε α))
    (programs programs' : ι → Option (Program Op Answer ε α)) : Prop :=
  programs' i = value ∧ ∀ j, j ≠ i → programs' j = programs j

/-- A step of one program. -/
inductive Step (semantics : ι → Semantics Op Answer ε σ) (i : ι) :
    Config ι Op Answer ε α σ → Config ι Op Answer ε α σ → Prop
  | progress {config op next state} :
      config.programs i = some (.perform op next) →
      (semantics i).progress op config.state state →
      Step semantics i config ⟨state, config.programs⟩
  | answers {config op next answer state programs} :
      config.programs i = some (.perform op next) →
      (semantics i).answers op config.state answer state →
      Changes i (some (next answer)) config.programs programs →
      Step semantics i config ⟨state, programs⟩
  | stop {config programs} :
      Changes i none config.programs programs → Step semantics i config ⟨config.state, programs⟩

/-- What a start leads to by steps of any programs, in any order. -/
inductive Reachable (semantics : ι → Semantics Op Answer ε σ) (start : Config ι Op Answer ε α σ) :
    Config ι Op Answer ε α σ → Prop
  | start : Reachable semantics start start
  | step {config config'} (i : ι) : Reachable semantics start config →
      Step semantics i config config' → Reachable semantics start config'

open Classical in
/-- Where an operation may be answered, a run goes on with the answer. -/
theorem Reachable.answers {semantics : ι → Semantics Op Answer ε σ}
    {start config : Config ι Op Answer ε α σ} {i : ι} {op : Op}
    {next : Except ε (Answer op) → Program Op Answer ε α} {answer : Except ε (Answer op)} {state : σ}
    (h : Reachable semantics start config) (hprogram : config.programs i = some (.perform op next))
    (hanswers : (semantics i).answers op config.state answer state) :
    ∃ config', Reachable semantics start config' ∧ config'.state = state ∧
      config'.programs i = some (next answer) :=
  ⟨⟨state, Function.update config.programs i (some (next answer))⟩,
    h.step i (.answers hprogram hanswers
      ⟨Function.update_self i _ _, fun _ hne => Function.update_of_ne hne _ _⟩),
    rfl, Function.update_self i _ _⟩

/-- A way through a program on its own on which every operation is answered with a value. -/
inductive Completes (semantics : Semantics Op Answer ε σ) (value : α) (last : σ) :
    Program Op Answer ε α → σ → Prop
  | done : Completes semantics value last (.done (.ok value)) last
  | progress {op next s t} : semantics.progress op s t →
      Completes semantics value last (.perform op next) t →
      Completes semantics value last (.perform op next) s
  | answers {op next answer s t} : semantics.answers op s (.ok answer) t →
      Completes semantics value last (next (.ok answer)) t →
      Completes semantics value last (.perform op next) s

/-- A run goes on along such a way, while the other programs wait. -/
theorem Reachable.completes {semantics : ι → Semantics Op Answer ε σ}
    {start config : Config ι Op Answer ε α σ} {i : ι} {program : Program Op Answer ε α} {value : α}
    {last s : σ} (hcompletes : Completes (semantics i) value last program s)
    (h : Reachable semantics start config) (hprogram : config.programs i = some program)
    (hstate : config.state = s) :
    ∃ config', Reachable semantics start config' ∧ config'.state = last ∧
      config'.programs i = some (.done (.ok value)) := by
  induction hcompletes generalizing config with
  | done => exact ⟨config, h, hstate, hprogram⟩
  | progress hprogress _ ih =>
      subst hstate
      exact ih (h.step i (.progress hprogram hprogress)) hprogram rfl
  | answers hanswers _ ih =>
      subst hstate
      obtain ⟨next, hnext, hstate, hrest⟩ := h.answers hprogram hanswers
      exact ih hnext hrest hstate

variable {semantics : ι → Semantics Op Answer ε σ} {rely guarantee : ι → σ → σ → Prop}
  {post : ι → Except ε α → σ → Prop} {config config' start : Config ι Op Answer ε α σ} {i : ι}

/-- What is left of every program is safe. -/
def AllSafe (semantics : ι → Semantics Op Answer ε σ) (rely guarantee : ι → σ → σ → Prop)
    (post : ι → Except ε α → σ → Prop) (config : Config ι Op Answer ε α σ) : Prop :=
  ∀ i program, config.programs i = some program →
    Safe (semantics i) (rely i) (guarantee i) (post i) program config.state

/-- Each program guarantees what all others rely on. -/
structure Compatible (rely guarantee : ι → σ → σ → Prop) (post : ι → Except ε α → σ → Prop) :
    Prop where
  relies : ∀ i j, i ≠ j → ∀ s t, guarantee i s t → rely j s t
  guarantee_refl : ∀ i s, guarantee i s s
  stable : ∀ i result, Stable (rely i) (post i result)

theorem AllSafe.step (h : AllSafe semantics rely guarantee post config)
    (hcompatible : Compatible rely guarantee post) (hstep : Step semantics i config config') :
    guarantee i config.state config'.state ∧ AllSafe semantics rely guarantee post config' := by
  -- What the others have left stays safe where the change is one that they rely on.
  have hothers : ∀ {s t : σ} {programs : ι → Option (Program Op Answer ε α)}, config.state = s → guarantee i s t →
      (∀ j, j ≠ i → programs j = config.programs j) → ∀ j program, j ≠ i →
      programs j = some program →
      Safe (semantics j) (rely j) (guarantee j) (post j) program t := by
    rintro s t programs rfl hguarantee hsame j program hne hprogram
    rw [hsame j hne] at hprogram
    exact (h j program hprogram).stable (hcompatible.stable j)
      (hcompatible.relies i j hne.symm _ _ hguarantee)
  cases hstep with
  | @progress op next state hprogram hprogress =>
      obtain ⟨invariant, hs, hstable, hnext⟩ := h i _ hprogram
      obtain ⟨hguarantee, hinvariant⟩ := (hnext _ hs).1 state hprogress
      refine ⟨hguarantee, fun j program hj => ?_⟩
      by_cases hne : j = i
      · subst hne
        obtain rfl := Option.some.inj (hprogram.symm.trans hj)
        exact ⟨invariant, hinvariant, hstable, hnext⟩
      · exact hothers rfl hguarantee (fun _ _ => rfl) j program hne hj
  | @answers op next answer state programs hprogram hanswers hchanges =>
      obtain ⟨invariant, hs, hstable, hnext⟩ := h i _ hprogram
      obtain ⟨hguarantee, hsafe⟩ := (hnext _ hs).2 answer state hanswers
      refine ⟨hguarantee, fun j program hj => ?_⟩
      by_cases hne : j = i
      · subst hne
        obtain rfl := Option.some.inj (hchanges.1.symm.trans hj)
        exact hsafe
      · exact hothers rfl hguarantee hchanges.2 j program hne hj
  | @stop programs hchanges =>
      have hguarantee := hcompatible.guarantee_refl i config.state
      refine ⟨hguarantee, fun j program hj => ?_⟩
      by_cases hne : j = i
      · subst hne
        cases hchanges.1.symm.trans hj
      · exact hothers rfl hguarantee hchanges.2 j program hne hj

theorem AllSafe.reachable (h : AllSafe semantics rely guarantee post start)
    (hcompatible : Compatible rely guarantee post) (hreachable : Reachable semantics start config) :
    AllSafe semantics rely guarantee post config := by
  induction hreachable with
  | start => exact h
  | step i _ hstep ih => exact (ih.step hcompatible hstep).2

/-- What every guaranteed change keeps holds in all states that are reached. -/
theorem AllSafe.invariant (h : AllSafe semantics rely guarantee post start)
    (hcompatible : Compatible rely guarantee post) {invariant : σ → Prop}
    (hstart : invariant start.state)
    (hkeeps : ∀ i s t, guarantee i s t → invariant s → invariant t)
    (hreachable : Reachable semantics start config) : invariant config.state := by
  induction hreachable with
  | start => exact hstart
  | step i hreachable hstep ih =>
      have hsafe := h.reachable hcompatible hreachable
      exact hkeeps i _ _ (hsafe.step hcompatible hstep).1 ih

end Together

end Riley.Interleaving
