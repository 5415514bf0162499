import Riley.Constraint.Recursion
import Riley.Library.Derivation

/-!
The parse stacks against the language of the grammar. The pending elements of a
stack, top first, form a sentential form; `expand` rewrites it by leftmost
derivation steps and a byte consumes its first element. Stacks that the depth
limit or the ambiguity bound drop lose words, never add any.
-/

namespace Riley.Constraint

open Riley.Derivation

namespace GrammarElement

/-- A byte class consumes the bytes it holds. -/
def Consumes (element : GrammarElement) (byte : UInt8) : Prop :=
  ∃ byteClass, element = .bytes byteClass ∧ byteClass.contains byte = true

end GrammarElement

namespace Grammar

variable (g : Grammar)

/-- A rule reference is replaced by any alternative of the rule. -/
def Expands (element : GrammarElement) (body : List GrammarElement) : Prop :=
  ∃ rule, element = .rule rule ∧ body ∈ g.alternatives rule

/-- The byte strings that a sequence of elements derives. -/
abbrev Yields : List GrammarElement → List UInt8 → Prop :=
  Derives GrammarElement.Consumes g.Expands

/-- The context-free language of the grammar. -/
def Sentence (word : List UInt8) : Prop := g.Yields [.rule g.start] word

/-- Every rule derives some byte string. -/
def Productive : Prop :=
  ∀ rule, rule < g.rules.length → ∃ word, g.Yields [.rule rule] word

/-- Every byte class holds some byte. -/
def Inhabited : Prop :=
  ∀ rule, ∀ alternative ∈ g.alternatives rule, ∀ byteClass,
    GrammarElement.bytes byteClass ∈ alternative → ∃ byte, byteClass.contains byte = true

/-- What is left to match on a stack, top first. -/
def pending (stack : Stack) : List GrammarElement := stack.flatMap g.remaining

section Elements

theorem yields_bytes {byteClass : ByteClass} {rest : List GrammarElement} {word : List UInt8} :
    g.Yields (.bytes byteClass :: rest) word ↔
      ∃ byte tail, word = byte :: tail ∧ byteClass.contains byte = true ∧
        g.Yields rest tail := by
  unfold Yields
  rw [derives_token]
  · constructor
    · rintro ⟨byte, tail, hword, ⟨_, heq, hcontains⟩, hrest⟩
      cases heq
      exact ⟨byte, tail, hword, hcontains, hrest⟩
    · rintro ⟨byte, tail, hword, hcontains, hrest⟩
      exact ⟨byte, tail, hword, ⟨byteClass, rfl, hcontains⟩, hrest⟩
  · rintro body ⟨rule, heq, _⟩
    cases heq

theorem yields_rule {rule : Nat} {rest : List GrammarElement} {word : List UInt8} :
    g.Yields (.rule rule :: rest) word ↔
      ∃ body ∈ g.alternatives rule, g.Yields (body ++ rest) word := by
  unfold Yields
  rw [derives_body]
  · constructor
    · rintro ⟨body, ⟨_, heq, hbody⟩, hrest⟩
      cases heq
      exact ⟨body, hbody, hrest⟩
    · rintro ⟨body, hbody, hrest⟩
      exact ⟨body, ⟨rule, rfl, hbody⟩, hrest⟩
  · rintro byte ⟨byteClass, heq, _⟩
    cases heq

@[simp] theorem pending_nil : g.pending [] = [] := rfl

@[simp] theorem pending_cons (frame : Frame) (rest : Stack) :
    g.pending (frame :: rest) = g.remaining frame ++ g.pending rest := List.flatMap_cons

theorem remaining_of_element {frame : Frame} {element : GrammarElement}
    (h : g.element frame = some element) :
    g.remaining frame = element :: g.remaining frame.next := by
  unfold Grammar.element at h
  rw [remaining_next]
  exact (List.cons_head?_tail h).symm

theorem remaining_of_done {frame : Frame} (h : g.element frame = none) :
    g.remaining frame = [] := List.head?_eq_none_iff.mp h

/-- Leaving out a finished frame changes nothing that is left to match. -/
theorem pending_below (frame : Frame) (rest : Stack) :
    g.pending (g.below frame rest) = g.remaining frame.next ++ g.pending rest := by
  unfold below
  by_cases hsome : (g.element frame.next).isSome
  · rw [if_pos hsome, pending_cons]
  · rw [if_neg hsome, g.remaining_of_done (Option.not_isSome_iff_eq_none.mp hsome),
      List.nil_append]

end Elements

section Expand

variable {g}

/-- The words of an expanded stack are words of the stack. -/
theorem expandWith_sound {fuel : Nat} {stack out : Stack} {found : List Stack}
    (h : g.expandWith fuel stack = some found) (hout : out ∈ found) {word : List UInt8}
    (hword : g.Yields (g.pending out) word) : g.Yields (g.pending stack) word := by
  induction fuel generalizing stack found with
  | zero => cases h
  | succ fuel ih =>
      cases stack with
      | nil =>
          cases h
          rwa [List.mem_singleton.mp hout] at hword
      | cons frame rest =>
          cases helement : g.element frame with
          | none =>
              simp only [expandWith, helement] at h
              rw [pending_cons, g.remaining_of_done helement, List.nil_append]
              exact ih h hout
          | some element =>
              rw [pending_cons, g.remaining_of_element helement]
              cases element with
              | bytes byteClass =>
                  simp only [expandWith, helement, Option.some.injEq] at h
                  subst h
                  rw [List.mem_singleton.mp hout, pending_cons,
                    g.remaining_of_element helement] at hword
                  exact hword
              | rule rule =>
                  simp only [expandWith, helement] at h
                  split at h
                  · cases h
                    exact absurd hout List.not_mem_nil
                  · obtain ⟨entry, hentry, one, hone, hmem⟩ := (collect_eq_some h out).mp hout
                    have hbranch := ih hone hmem
                    rw [pending_cons, pending_below, ← List.append_assoc] at hbranch
                    rw [List.cons_append, yields_rule]
                    refine ⟨g.remaining entry, g.entries_remaining hentry, ?_⟩
                    rwa [List.append_assoc] at hbranch

/-- A stack that waits for a byte or is empty. -/
def Settled (g : Grammar) (stack : Stack) : Prop :=
  ∀ top rest, stack = top :: rest → ∃ byteClass, g.element top = some (.bytes byteClass)

theorem expandWith_settled {fuel : Nat} {stack out : Stack} {found : List Stack}
    (h : g.expandWith fuel stack = some found) (hout : out ∈ found) : g.Settled out := by
  induction fuel generalizing stack found with
  | zero => cases h
  | succ fuel ih =>
      cases stack with
      | nil =>
          cases h
          rw [List.mem_singleton.mp hout]
          intro top rest hcons
          cases hcons
      | cons frame rest =>
          cases helement : g.element frame with
          | none =>
              simp only [expandWith, helement] at h
              exact ih h hout
          | some element =>
              cases element with
              | bytes byteClass =>
                  simp only [expandWith, helement, Option.some.injEq] at h
                  subst h
                  rw [List.mem_singleton.mp hout]
                  intro top rest' hcons
                  cases hcons
                  exact ⟨byteClass, helement⟩
              | rule rule =>
                  simp only [expandWith, helement] at h
                  split at h
                  · cases h
                    exact absurd hout List.not_mem_nil
                  · obtain ⟨entry, _, one, hone, hmem⟩ := (collect_eq_some h out).mp hout
                    exact ih hone hmem

/-- Whether `expand` abandons a branch at the depth limit. -/
def clipsWith (g : Grammar) : Nat → Stack → Bool
  | 0, _ => false
  | _ + 1, [] => false
  | fuel + 1, frame :: rest =>
      match g.element frame with
      | none => g.clipsWith fuel rest
      | some (.bytes _) => false
      | some (.rule rule) =>
          decide (MAX_STACK_DEPTH ≤ (g.below frame rest).length) ||
            (g.entries rule).any fun entry => g.clipsWith fuel (entry :: g.below frame rest)

def clips (g : Grammar) (stack : Stack) : Bool :=
  g.clipsWith (stack.length * g.frameCost + 1) stack

/-- Without an abandoned branch every word of the stack is kept. -/
theorem expandWith_complete {fuel : Nat} {stack : Stack} {found : List Stack}
    (h : g.expandWith fuel stack = some found) (hclips : g.clipsWith fuel stack = false)
    {word : List UInt8} (hword : g.Yields (g.pending stack) word) :
    ∃ out ∈ found, g.Yields (g.pending out) word := by
  induction fuel generalizing stack found with
  | zero => cases h
  | succ fuel ih =>
      cases stack with
      | nil =>
          cases h
          exact ⟨[], List.mem_singleton_self _, hword⟩
      | cons frame rest =>
          cases helement : g.element frame with
          | none =>
              simp only [expandWith, clipsWith, helement] at h hclips
              rw [pending_cons, g.remaining_of_done helement, List.nil_append] at hword
              exact ih h hclips hword
          | some element =>
              cases element with
              | bytes byteClass =>
                  simp only [expandWith, helement, Option.some.injEq] at h
                  subst h
                  exact ⟨frame :: rest, List.mem_singleton_self _, hword⟩
              | rule rule =>
                  rw [pending_cons, g.remaining_of_element helement, List.cons_append,
                    yields_rule] at hword
                  obtain ⟨body, hbody, hderived⟩ := hword
                  obtain ⟨entry, hentry, hremaining⟩ := g.exists_entry hbody
                  simp only [expandWith, clipsWith, helement, Bool.or_eq_false_iff,
                    decide_eq_false_iff_not] at h hclips
                  rw [if_neg hclips.1] at h
                  have hbranch : g.Yields (g.pending (entry :: g.below frame rest)) word := by
                    rwa [pending_cons, hremaining, pending_below]
                  have hkept : g.clipsWith fuel (entry :: g.below frame rest) = false := by
                    have hany := List.any_eq_false.mp hclips.2 entry hentry
                    simpa using hany
                  obtain ⟨one, hone⟩ := collect_some h entry hentry
                  obtain ⟨out, hout, hyields⟩ := ih hone hkept hbranch
                  exact ⟨out, (collect_eq_some h out).mpr ⟨entry, hentry, one, hone, hout⟩,
                    hyields⟩

variable (g)

theorem expand_sound {stack out : Stack} (hout : out ∈ g.expand stack) {word : List UInt8}
    (hword : g.Yields (g.pending out) word) : g.Yields (g.pending stack) word :=
  expandWith_sound (g.expandWith_isSome stack) hout hword

theorem expand_settled {stack out : Stack} (hout : out ∈ g.expand stack) : g.Settled out :=
  expandWith_settled (g.expandWith_isSome stack) hout

theorem expand_complete {stack : Stack} (hclips : g.clips stack = false) {word : List UInt8}
    (hword : g.Yields (g.pending stack) word) :
    ∃ out ∈ g.expand stack, g.Yields (g.pending out) word :=
  expandWith_complete (g.expandWith_isSome stack) hclips hword

end Expand

section Canonical

theorem mem_destutter' {α : Type*} [DecidableEq α] (first item : α) (items : List α) :
    item ∈ items.destutter' (· ≠ ·) first ↔ item ∈ first :: items := by
  induction items generalizing first with
  | nil => rfl
  | cons second rest ih =>
      by_cases heq : first = second
      · subst heq
        rw [List.destutter'_cons_neg _ (by simp), ih]
        simp
      · rw [List.destutter'_cons_pos _ heq, List.mem_cons, ih]
        simp

theorem mem_destutter {α : Type*} [DecidableEq α] {item : α} {items : List α} :
    item ∈ items.destutter (· ≠ ·) ↔ item ∈ items := by
  cases items with
  | nil => rfl
  | cons first rest => exact mem_destutter' first item rest

theorem mem_distinct {found : List Stack} {stack : Stack} :
    stack ∈ distinct found ↔ stack ∈ found := by
  unfold distinct
  rw [mem_destutter]
  exact List.mem_insertionSort _

theorem mem_of_mem_canonical {found : List Stack} {stack : Stack}
    (h : stack ∈ canonical found) : stack ∈ found :=
  mem_distinct.mp (List.mem_of_mem_take h)

theorem mem_canonical {found : List Stack} {stack : Stack}
    (hfits : (distinct found).length ≤ MAX_STACKS_PER_STATE) (h : stack ∈ found) :
    stack ∈ canonical found := by
  unfold canonical
  rw [List.take_of_length_le hfits]
  exact mem_distinct.mpr h

end Canonical

section Steps

/-- The expansion before the first byte drops nothing at either limit. -/
def opensWithin : Bool :=
  ((g.entries g.start).all fun entry => !g.clips [entry]) &&
    decide ((distinct g.opened).length ≤ MAX_STACKS_PER_STATE)

/-- Advancing one stack abandons no branch at the depth limit. -/
def advancesWithin (byte : UInt8) : Stack → Bool
  | [] => true
  | top :: rest =>
      match g.element top with
      | some (.bytes byteClass) => !byteClass.contains byte || !g.clips (top.next :: rest)
      | _ => true

/-- One byte drops nothing at either limit. -/
def stepsWithin (current : List Stack) (byte : UInt8) : Bool :=
  current.all (g.advancesWithin byte) &&
    decide ((distinct (current.flatMap (g.advanceStack byte))).length ≤ MAX_STACKS_PER_STATE)

/-- The stacks after a byte string, or nothing once no stack is left. -/
def follow : List Stack → List UInt8 → Option (List Stack)
  | current, [] => some current
  | current, byte :: rest =>
      let next := g.advanceStacks current byte
      if next = [] then none else follow next rest

/-- Exploring a byte string from some stacks drops nothing at either limit. -/
def followsWithin : List Stack → List UInt8 → Bool
  | _, [] => true
  | current, byte :: rest =>
      g.stepsWithin current byte && followsWithin (g.advanceStacks current byte) rest

/-- Exploring a byte string never reaches the depth limit or the ambiguity bound. -/
def exploredWithin (word : List UInt8) : Bool :=
  g.opensWithin && g.followsWithin g.startStacks word

variable {g}

theorem follow_append {current : List Stack} (first second : List UInt8) :
    g.follow current (first ++ second) =
      (g.follow current first).bind fun middle => g.follow middle second := by
  induction first generalizing current with
  | nil => rfl
  | cons byte rest ih =>
      simp only [List.cons_append, follow]
      split
      · rfl
      · exact ih

theorem advanceStack_sound {stack out : Stack} {byte : UInt8}
    (hout : out ∈ g.advanceStack byte stack) {word : List UInt8}
    (hword : g.Yields (g.pending out) word) : g.Yields (g.pending stack) (byte :: word) := by
  cases stack with
  | nil => exact absurd hout List.not_mem_nil
  | cons top rest =>
      simp only [advanceStack] at hout
      split at hout
      · rename_i byteClass helement
        split at hout
        · rename_i hcontains
          have hnext := g.expand_sound hout hword
          rw [pending_cons] at hnext
          rw [pending_cons, g.remaining_of_element helement, List.cons_append, yields_bytes]
          exact ⟨byte, word, rfl, hcontains, hnext⟩
        · exact absurd hout List.not_mem_nil
      · exact absurd hout List.not_mem_nil

theorem advanceStack_settled {stack out : Stack} {byte : UInt8}
    (hout : out ∈ g.advanceStack byte stack) : g.Settled out := by
  cases stack with
  | nil => exact absurd hout List.not_mem_nil
  | cons top rest =>
      simp only [advanceStack] at hout
      split at hout
      · split at hout
        · exact g.expand_settled hout
        · exact absurd hout List.not_mem_nil
      · exact absurd hout List.not_mem_nil

theorem advanceStack_complete {stack : Stack} {byte : UInt8} {word : List UInt8}
    (hsettled : g.Settled stack) (hwithin : g.advancesWithin byte stack = true)
    (hword : g.Yields (g.pending stack) (byte :: word)) :
    ∃ out ∈ g.advanceStack byte stack, g.Yields (g.pending out) word := by
  cases stack with
  | nil =>
      have hnil := derives_nil.mp hword
      cases hnil
  | cons top rest =>
      obtain ⟨byteClass, helement⟩ := hsettled top rest rfl
      rw [pending_cons, g.remaining_of_element helement, List.cons_append, yields_bytes] at hword
      obtain ⟨_, _, heq, hcontains, hrest⟩ := hword
      cases heq
      simp only [advancesWithin, helement, hcontains, Bool.not_true, Bool.false_or,
        Bool.not_eq_true'] at hwithin
      rw [← pending_cons] at hrest
      obtain ⟨out, hout, hyields⟩ := g.expand_complete hwithin hrest
      refine ⟨out, ?_, hyields⟩
      simp only [advanceStack, helement, hcontains, if_true]
      exact hout

/-- Every stack of a state waits for a byte or is empty. -/
def AllSettled (g : Grammar) (current : List Stack) : Prop :=
  ∀ stack ∈ current, g.Settled stack

theorem startStacks_settled : g.AllSettled g.startStacks := by
  intro stack hstack
  obtain ⟨entry, _, hout⟩ := List.mem_flatMap.mp (mem_of_mem_canonical hstack)
  exact g.expand_settled hout

theorem advanceStacks_settled {current : List Stack} {byte : UInt8} :
    g.AllSettled (g.advanceStacks current byte) := by
  intro stack hstack
  obtain ⟨before, _, hout⟩ := List.mem_flatMap.mp (mem_of_mem_canonical hstack)
  exact advanceStack_settled hout

theorem follow_settled {current last : List Stack} {word : List UInt8}
    (hsettled : g.AllSettled current) (h : g.follow current word = some last) :
    g.AllSettled last := by
  induction word generalizing current with
  | nil =>
      cases h
      exact hsettled
  | cons byte rest ih =>
      simp only [follow] at h
      split at h
      · cases h
      · exact ih advanceStacks_settled h

theorem follow_ne_nil {current last : List Stack} {word : List UInt8} (hword : word ≠ [])
    (h : g.follow current word = some last) : last ≠ [] := by
  induction word generalizing current with
  | nil => exact absurd rfl hword
  | cons byte rest ih =>
      simp only [follow] at h
      split at h
      · cases h
      · rename_i hlive
        cases rest with
        | nil =>
            cases h
            exact hlive
        | cons second more => exact ih (List.cons_ne_nil _ _) h

/-- What a followed string leaves to match, it leaves of the stacks before it. -/
theorem follow_sound {current last : List Stack} {first : List UInt8}
    (h : g.follow current first = some last) {stack : Stack} (hstack : stack ∈ last)
    {second : List UInt8} (hsecond : g.Yields (g.pending stack) second) :
    ∃ before ∈ current, g.Yields (g.pending before) (first ++ second) := by
  induction first generalizing current with
  | nil =>
      cases h
      exact ⟨stack, hstack, hsecond⟩
  | cons byte rest ih =>
      simp only [follow] at h
      split at h
      · cases h
      · obtain ⟨next, hnext, hyields⟩ := ih h
        obtain ⟨before, hbefore, hout⟩ := List.mem_flatMap.mp (mem_of_mem_canonical hnext)
        exact ⟨before, hbefore, advanceStack_sound hout hyields⟩

/-- Within the limits every word left to match survives its bytes. -/
theorem follow_complete {current : List Stack} {first second : List UInt8}
    (hsettled : g.AllSettled current) (hwithin : g.followsWithin current first = true)
    {before : Stack} (hbefore : before ∈ current)
    (hword : g.Yields (g.pending before) (first ++ second)) :
    ∃ last, g.follow current first = some last ∧
      ∃ stack ∈ last, g.Yields (g.pending stack) second := by
  induction first generalizing current before with
  | nil => exact ⟨current, rfl, before, hbefore, hword⟩
  | cons byte rest ih =>
      simp only [followsWithin, stepsWithin, Bool.and_eq_true, decide_eq_true_eq,
        List.all_eq_true] at hwithin
      obtain ⟨⟨hadvance, hfits⟩, hrest⟩ := hwithin
      obtain ⟨out, hout, hyields⟩ := advanceStack_complete (hsettled before hbefore)
        (hadvance before hbefore) hword
      have hmem : out ∈ g.advanceStacks current byte :=
        mem_canonical hfits (List.mem_flatMap.mpr ⟨before, hbefore, hout⟩)
      obtain ⟨last, hlast, hstack⟩ := ih advanceStacks_settled hrest hmem hyields
      refine ⟨last, ?_, hstack⟩
      simp only [follow]
      rw [if_neg (List.ne_nil_of_mem hmem)]
      exact hlast

theorem startStacks_sound {stack : Stack} (hstack : stack ∈ g.startStacks)
    {word : List UInt8} (hword : g.Yields (g.pending stack) word) : g.Sentence word := by
  obtain ⟨entry, hentry, hout⟩ := List.mem_flatMap.mp (mem_of_mem_canonical hstack)
  have hyields := g.expand_sound hout hword
  rw [pending_cons, pending_nil] at hyields
  unfold Sentence
  rw [yields_rule]
  exact ⟨_, g.entries_remaining hentry, hyields⟩

theorem startStacks_complete (hwithin : g.opensWithin = true) {word : List UInt8}
    (hword : g.Sentence word) :
    ∃ stack ∈ g.startStacks, g.Yields (g.pending stack) word := by
  unfold Sentence at hword
  rw [yields_rule] at hword
  obtain ⟨body, hbody, hderived⟩ := hword
  obtain ⟨entry, hentry, hremaining⟩ := g.exists_entry hbody
  simp only [opensWithin, Bool.and_eq_true, decide_eq_true_eq, List.all_eq_true,
    Bool.not_eq_true'] at hwithin
  have hentryWord : g.Yields (g.pending [entry]) word := by
    rwa [pending_cons, pending_nil, hremaining]
  obtain ⟨out, hout, hyields⟩ := g.expand_complete (hwithin.1 entry hentry) hentryWord
  exact ⟨out, mem_canonical hwithin.2 (List.mem_flatMap.mpr ⟨entry, hentry, hout⟩), hyields⟩

/-- Whether the stacks decide a string: every byte finds a stack, and one is
empty at the end. -/
def Accepts (g : Grammar) (word : List UInt8) : Prop :=
  ∃ last, g.follow g.startStacks word = some last ∧ accepting last = true

theorem accepts_sound {word : List UInt8} (h : g.Accepts word) : g.Sentence word := by
  obtain ⟨last, hlast, haccepting⟩ := h
  obtain ⟨stack, hstack, hempty⟩ := List.any_eq_true.mp haccepting
  rw [List.isEmpty_iff] at hempty
  subst hempty
  obtain ⟨before, hbefore, hyields⟩ := follow_sound hlast hstack Derives.nil
  rw [List.append_nil] at hyields
  exact startStacks_sound hbefore hyields

theorem nil_of_settled {stack : Stack} (hsettled : g.Settled stack)
    (h : g.Yields (g.pending stack) []) : stack = [] := by
  cases stack with
  | nil => rfl
  | cons top rest =>
      obtain ⟨byteClass, helement⟩ := hsettled top rest rfl
      rw [pending_cons, g.remaining_of_element helement, List.cons_append, yields_bytes] at h
      obtain ⟨_, _, hword, _⟩ := h
      cases hword

theorem accepts_complete {word : List UInt8} (hword : g.Sentence word)
    (hwithin : g.exploredWithin word = true) : g.Accepts word := by
  simp only [exploredWithin, Bool.and_eq_true] at hwithin
  obtain ⟨before, hbefore, hyields⟩ := startStacks_complete hwithin.1 hword
  rw [← List.append_nil word] at hyields
  obtain ⟨last, hlast, stack, hstack, hrest⟩ :=
    follow_complete startStacks_settled hwithin.2 hbefore hyields
  have hempty := nil_of_settled (follow_settled startStacks_settled hlast stack hstack) hrest
  exact ⟨last, hlast, List.any_eq_true.mpr ⟨stack, hstack, by rw [hempty, List.isEmpty_nil]⟩⟩

/-- With productive rules and classes every stack has a word left to match. -/
theorem Productive.exists_yields (hproductive : g.Productive) (hinhabited : g.Inhabited)
    (stack : Stack) : ∃ word, g.Yields (g.pending stack) word := by
  apply exists_derives
  intro element helement
  obtain ⟨frame, _, hremaining⟩ := List.mem_flatMap.mp helement
  cases element with
  | bytes byteClass =>
      rcases g.remaining_cases frame with hnil | ⟨alternative, halternative, heq⟩
      · rw [hnil] at hremaining
        exact absurd hremaining List.not_mem_nil
      · rw [heq] at hremaining
        obtain ⟨byte, hbyte⟩ := hinhabited frame.rule alternative halternative byteClass
          (List.mem_of_mem_drop hremaining)
        exact ⟨[byte], g.yields_bytes.mpr ⟨byte, [], rfl, hbyte, Derives.nil⟩⟩
  | rule rule => exact hproductive rule (g.lt_of_mem_remaining hremaining)

/-- Bytes that the stacks follow begin a sentence of a productive grammar. -/
theorem Productive.exists_sentence (hproductive : g.Productive) (hinhabited : g.Inhabited)
    {word : List UInt8} {last : List Stack} (h : g.follow g.startStacks word = some last) :
    ∃ rest, g.Sentence (word ++ rest) := by
  by_cases hword : word = []
  · subst hword
    exact hproductive g.start g.checked.2.1
  · obtain ⟨stack, hstack⟩ := List.exists_mem_of_ne_nil last (follow_ne_nil hword h)
    obtain ⟨rest, hrest⟩ := hproductive.exists_yields hinhabited stack
    obtain ⟨before, hbefore, hyields⟩ := follow_sound h hstack hrest
    exact ⟨rest, startStacks_sound hbefore hyields⟩

end Steps

end Grammar

end Riley.Constraint
