import Mathlib.Data.Finset.Card
import Riley.Constraint.Automaton
import Riley.Constraint.Stacks
import Riley.Constraint.TrieSpec

/-!
The table of interned states. Whatever was asked before, a state stands for one
stack set, a known transition is what the grammar does with that set, and a
cached mask is the one that the set has. The stack sets of a table are counted
in a finite set that a call may fill, so that no identifier leaves its range.
-/

namespace Riley.Constraint.GrammarAutomaton

variable {g : Grammar} {tokens : List (List UInt8)}

/-- A state stands for a stack set. -/
def Holds (a : GrammarAutomaton g) (id : Nat) (stackSet : List Stack) : Prop :=
  ∃ state, a.states[id]? = some state ∧ state.stackSet = stackSet

/-- A transition says where the stack set goes. -/
def Leads (a : GrammarAutomaton g) (stackSet : List Stack) (byte : UInt8) (next : Nat) : Prop :=
  g.advanceStacks stackSet byte = [] ∧ next = DEAD ∨
    g.advanceStacks stackSet byte ≠ [] ∧ a.Holds next (g.advanceStacks stackSet byte)

/-- A token continues a stack set when it has bytes and all of them fit. -/
def Continues (g : Grammar) (tokens : List (List UInt8)) (stackSet : List Stack)
    (id : Nat) : Prop :=
  ∃ bytes, tokens[id]? = some bytes ∧ bytes ≠ [] ∧ (g.follow stackSet bytes).isSome

/-- The mask of a stack set. -/
structure MaskOk (g : Grammar) (tokens : List (List UInt8)) (stackSet : List Stack)
    (mask : Mask) : Prop where
  words : mask.length = (tokens.length + 63) / 64
  bits : ∀ id, mask.admits id = true ↔ Continues g tokens stackSet id

structure Interned (tokens : List (List UInt8)) (a : GrammarAutomaton g) : Prop where
  rows : a.transitions.length = a.states.length
  small : a.states.length ≤ DEAD
  known : ∀ stackSet id, a.ids.lookup stackSet = some id ↔ a.Holds id stackSet
  accepting : ∀ (id : Nat) state, a.states[id]? = some state →
    state.accepting = Grammar.accepting state.stackSet
  moves : ∀ (id : Nat) state row, a.states[id]? = some state → a.transitions[id]? = some row →
    ∀ byte, row byte ≠ UNKNOWN → a.Leads state.stackSet byte (row byte)
  masks : ∀ (id : Nat) state mask, a.states[id]? = some state → state.mask = some mask →
    MaskOk g tokens state.stackSet mask

theorem interned_empty (generation : Nat) :
    Interned tokens (⟨[], [], [], generation⟩ : GrammarAutomaton g) where
  rows := rfl
  small := Nat.zero_le _
  known := by
    intro stackSet id
    constructor
    · intro h
      cases h
    · rintro ⟨state, hstate, _⟩
      cases hstate
  accepting := by
    intro id state hstate
    cases hstate
  moves := by
    intro id state row hstate
    cases hstate
  masks := by
    intro id state mask hstate
    cases hstate

section Table

variable {a a' : GrammarAutomaton g} {room : Finset (List Stack)}

theorem Holds.lt {id : Nat} {stackSet : List Stack} (h : a.Holds id stackSet) :
    id < a.states.length := by
  obtain ⟨state, hstate, _⟩ := h
  exact (List.getElem?_eq_some_iff.mp hstate).choose

theorem Holds.inj {id : Nat} {first second : List Stack} (hfirst : a.Holds id first)
    (hsecond : a.Holds id second) : first = second := by
  obtain ⟨state, hstate, rfl⟩ := hfirst
  obtain ⟨state', hstate', rfl⟩ := hsecond
  rw [hstate, Option.some.injEq] at hstate'
  rw [hstate']

/-- The stack sets of the table are among those counted. -/
def Within (room : Finset (List Stack)) (a : GrammarAutomaton g) : Prop :=
  ∀ id stackSet, a.Holds id stackSet → stackSet ∈ room

/-- No stack set has two states. -/
theorem Interned.nodup (h : Interned tokens a) :
    (a.states.map DfaState.stackSet).Nodup := by
  rw [List.nodup_iff_injective_get]
  intro first second heq
  have hfirst : first.val < a.states.length := by simpa using first.isLt
  have hsecond : second.val < a.states.length := by simpa using second.isLt
  have hsame : a.states[first.val].stackSet = a.states[second.val].stackSet := by
    simpa using heq
  have hone : a.Holds first.val a.states[second.val].stackSet :=
    ⟨_, List.getElem?_eq_getElem hfirst, hsame⟩
  have htwo : a.Holds second.val a.states[second.val].stackSet :=
    ⟨_, List.getElem?_eq_getElem hsecond, rfl⟩
  have hlookup := (h.known _ _).mpr hone
  rw [(h.known _ _).mpr htwo, Option.some.injEq] at hlookup
  exact Fin.ext hlookup.symm

theorem mem_map_stackSet {stackSet : List Stack} :
    stackSet ∈ a.states.map DfaState.stackSet ↔ ∃ id, a.Holds id stackSet := by
  rw [List.mem_map]
  constructor
  · rintro ⟨state, hstate, rfl⟩
    obtain ⟨id, hid, rfl⟩ := List.getElem_of_mem hstate
    exact ⟨id, _, List.getElem?_eq_getElem hid, rfl⟩
  · rintro ⟨id, state, hstate, rfl⟩
    exact ⟨state, List.mem_of_getElem? hstate, rfl⟩

/-- A counted stack set without a state leaves room for it. -/
theorem Interned.lt_card (h : Interned tokens a) (hwithin : Within room a)
    {stackSet : List Stack} (hmem : stackSet ∈ room) (hnew : ∀ id, ¬ a.Holds id stackSet) :
    a.states.length < room.card := by
  have hsub : (a.states.map DfaState.stackSet).toFinset ⊂ room := by
    rw [Finset.ssubset_iff_of_subset]
    · refine ⟨stackSet, hmem, fun hin => ?_⟩
      obtain ⟨id, hid⟩ := mem_map_stackSet.mp (List.mem_toFinset.mp hin)
      exact hnew id hid
    · intro other hother
      obtain ⟨id, hid⟩ := mem_map_stackSet.mp (List.mem_toFinset.mp hother)
      exact hwithin id other hid
  have hcard := Finset.card_lt_card hsub
  rwa [List.toFinset_card_of_nodup h.nodup, List.length_map] at hcard

/-- What a call leaves of the table it found: every state keeps its stack set. -/
structure Grown (tokens : List (List UInt8)) (room : Finset (List Stack))
    (a a' : GrammarAutomaton g) : Prop where
  interned : Interned tokens a'
  within : Within room a'
  generation : a'.generation = a.generation
  holds : ∀ id stackSet, a.Holds id stackSet → a'.Holds id stackSet

theorem Grown.refl (h : Interned tokens a) (hwithin : Within room a) :
    Grown tokens room a a :=
  ⟨h, hwithin, rfl, fun _ _ => id⟩

theorem Grown.trans {a'' : GrammarAutomaton g} (h : Grown tokens room a a')
    (h' : Grown tokens room a' a'') : Grown tokens room a a'' :=
  ⟨h'.interned, h'.within, h'.generation.trans h.generation,
    fun id stackSet hid => h'.holds id stackSet (h.holds id stackSet hid)⟩

theorem Leads.mono {stackSet : List Stack} {byte : UInt8} {next : Nat}
    (hholds : ∀ id stackSet, a.Holds id stackSet → a'.Holds id stackSet)
    (h : a.Leads stackSet byte next) : a'.Leads stackSet byte next := by
  rcases h with hdead | ⟨hlive, hnext⟩
  · exact Or.inl hdead
  · exact Or.inr ⟨hlive, hholds _ _ hnext⟩

/-- The table after a new state. -/
def pushed (a : GrammarAutomaton g) (stackSet : List Stack) : GrammarAutomaton g :=
  { a with
    states := a.states ++ [⟨stackSet, Grammar.accepting stackSet, none⟩]
    transitions := a.transitions ++ [fun _ => UNKNOWN]
    ids := (stackSet, a.states.length) :: a.ids }

theorem Interned.push (h : Interned tokens a) {stackSet : List Stack}
    (hnew : a.ids.lookup stackSet = none) (hlt : a.states.length < DEAD) :
    Interned tokens (a.pushed stackSet) ∧ ∀ id other, (a.pushed stackSet).Holds id other ↔
      a.Holds id other ∨ id = a.states.length ∧ other = stackSet := by
  have hstates : ∀ (id : Nat) state, (a.pushed stackSet).states[id]? = some state ↔
      a.states[id]? = some state ∨
        id = a.states.length ∧ state = ⟨stackSet, Grammar.accepting stackSet, none⟩ := by
    intro id state
    unfold pushed
    rcases Nat.lt_trichotomy id a.states.length with hid | rfl | hid
    · rw [List.getElem?_append_left hid]
      simp [Nat.ne_of_lt hid]
    · simp [eq_comm]
    · rw [List.getElem?_append_right (Nat.le_of_lt hid), List.getElem?_eq_none,
        List.getElem?_eq_none (Nat.le_of_lt hid)]
      · simp [Nat.ne_of_gt hid]
      · simp only [List.length_singleton]
        omega
  have hholds : ∀ id other, (a.pushed stackSet).Holds id other ↔
      a.Holds id other ∨ id = a.states.length ∧ other = stackSet := by
    intro id other
    constructor
    · rintro ⟨state, hstate, rfl⟩
      rcases (hstates id state).mp hstate with hold | ⟨hid, rfl⟩
      · exact Or.inl ⟨state, hold, rfl⟩
      · exact Or.inr ⟨hid, rfl⟩
    · rintro (⟨state, hstate, rfl⟩ | ⟨rfl, rfl⟩)
      · exact ⟨state, (hstates id state).mpr (Or.inl hstate), rfl⟩
      · exact ⟨_, (hstates _ _).mpr (Or.inr ⟨rfl, rfl⟩), rfl⟩
  refine ⟨⟨?_, ?_, ?_, ?_, ?_, ?_⟩, hholds⟩
  · simp only [pushed, List.length_append, List.length_singleton, h.rows]
  · simp only [pushed, List.length_append, List.length_singleton]
    exact hlt
  · intro other id
    rw [hholds, pushed, List.lookup_cons]
    by_cases heq : other = stackSet
    · subst heq
      have hnone : ¬ a.Holds id other := by
        intro hheld
        rw [(h.known other id).mpr hheld] at hnew
        cases hnew
      simp [hnone, eq_comm]
    · rw [beq_false_of_ne heq, h.known]
      simp [heq]
  · intro id state hstate
    rcases (hstates id state).mp hstate with hold | ⟨_, rfl⟩
    · exact h.accepting id state hold
    · rfl
  · intro id state row hstate hrow byte hbyte
    simp only [pushed] at hrow
    rcases (hstates id state).mp hstate with hold | ⟨rfl, rfl⟩
    · have hid : id < a.transitions.length := by
        rw [h.rows]
        exact (List.getElem?_eq_some_iff.mp hold).choose
      rw [List.getElem?_append_left hid] at hrow
      exact (h.moves id state row hold hrow byte hbyte).mono
        fun _ _ hheld => (hholds _ _).mpr (Or.inl hheld)
    · rw [← h.rows, List.getElem?_concat_length, Option.some.injEq] at hrow
      rw [← hrow] at hbyte
      exact absurd rfl hbyte
  · intro id state mask hstate hmask
    rcases (hstates id state).mp hstate with hold | ⟨_, rfl⟩
    · exact h.masks id state mask hold hmask
    · cases hmask

theorem intern_grown (h : Interned tokens a) (hwithin : Within room a)
    (hroom : room.card ≤ DEAD) {stackSet : List Stack} (hmem : stackSet ∈ room) :
    Grown tokens room a (a.intern stackSet).2 ∧
      (a.intern stackSet).2.Holds (a.intern stackSet).1 stackSet := by
  unfold intern
  cases hlookup : a.ids.lookup stackSet with
  | some id => exact ⟨Grown.refl h hwithin, (h.known stackSet id).mp hlookup⟩
  | none =>
      have hnew : ∀ id, ¬ a.Holds id stackSet := by
        intro id hid
        rw [(h.known stackSet id).mpr hid] at hlookup
        cases hlookup
      have hlt : a.states.length < DEAD :=
        Nat.lt_of_lt_of_le (h.lt_card hwithin hmem hnew) hroom
      have hid : a.states.length ≤ u32Max := by
        unfold DEAD at hlt
        omega
      obtain ⟨hinterned, hholds⟩ := h.push hlookup hlt
      simp only [if_pos hid]
      refine ⟨⟨hinterned, ?_, rfl, fun id other hother => (hholds id other).mpr (Or.inl hother)⟩,
        (hholds _ _).mpr (Or.inr ⟨rfl, rfl⟩)⟩
      intro id other hother
      rcases (hholds id other).mp hother with hold | ⟨_, rfl⟩
      · exact hwithin id other hold
      · exact hmem

/-- A transition is remembered only after it was found to be right. -/
theorem remember_grown (h : Interned tokens a) (hwithin : Within room a) {state next : Nat}
    {stackSet : List Stack} {byte : UInt8} (hstate : a.Holds state stackSet)
    (hleads : a.Leads stackSet byte next) : Grown tokens room a (a.remember state byte next) := by
  refine ⟨⟨?_, h.small, h.known, h.accepting, ?_, h.masks⟩, hwithin, rfl, fun _ _ => id⟩
  · simp only [remember, List.length_modify]
    exact h.rows
  · intro id entry row hentry hrow other hother
    simp only [remember, List.getElem?_modify] at hrow
    obtain ⟨before, hbefore, rfl⟩ := Option.map_eq_some_iff.mp hrow
    by_cases heq : state = id
    · subst heq
      simp only [if_true] at hother ⊢
      have hsame : entry.stackSet = stackSet := Holds.inj ⟨entry, hentry, rfl⟩ hstate
      by_cases hbyte : other = byte
      · subst hbyte
        rw [Function.update_self, hsame]
        exact hleads
      · rw [Function.update_of_ne hbyte] at hother ⊢
        exact h.moves state entry before hentry hbefore other hother
    · simp only [heq, if_false] at hother ⊢
      exact h.moves id entry before hentry hbefore other hother

/-- One byte from a state, whether the table knew it or not. -/
theorem step_grown (h : Interned tokens a) (hwithin : Within room a) (hroom : room.card ≤ DEAD)
    {state : Nat} {stackSet : List Stack} {byte : UInt8} (hstate : a.Holds state stackSet)
    (hmem : g.advanceStacks stackSet byte ≠ [] → g.advanceStacks stackSet byte ∈ room) :
    ∃ next a', a.step state byte = some (next, a') ∧ Grown tokens room a a' ∧
      a'.Leads stackSet byte next := by
  obtain ⟨entry, hentry, rfl⟩ := hstate
  have hrow : state < a.transitions.length := by
    rw [h.rows]
    exact (List.getElem?_eq_some_iff.mp hentry).choose
  unfold step
  rw [List.getElem?_eq_getElem hrow]
  simp only [Option.bind_eq_bind, Option.bind_some]
  by_cases hcached : a.transitions[state] byte = UNKNOWN
  · rw [if_neg (not_not_intro hcached), hentry]
    simp only [Option.bind_some]
    unfold explore
    by_cases hdead : g.advanceStacks entry.stackSet byte = []
    · simp only [if_pos hdead]
      have hleads : a.Leads entry.stackSet byte DEAD := Or.inl ⟨hdead, rfl⟩
      exact ⟨_, _, rfl, remember_grown h hwithin ⟨entry, hentry, rfl⟩ hleads, hleads⟩
    · simp only [if_neg hdead]
      obtain ⟨hgrown, hnext⟩ := intern_grown h hwithin hroom (hmem hdead)
      have hleads : (a.intern (g.advanceStacks entry.stackSet byte)).2.Leads entry.stackSet byte
          (a.intern (g.advanceStacks entry.stackSet byte)).1 := Or.inr ⟨hdead, hnext⟩
      have hremember := remember_grown hgrown.interned hgrown.within
        (hgrown.holds _ _ ⟨entry, hentry, rfl⟩) hleads
      exact ⟨_, _, rfl, hgrown.trans hremember, hleads⟩
  · rw [if_pos hcached]
    exact ⟨_, _, rfl, Grown.refl h hwithin,
      h.moves state entry _ hentry (List.getElem?_eq_getElem hrow) byte hcached⟩

theorem Leads.dead_iff (h : Interned tokens a) {stackSet : List Stack} {byte : UInt8}
    {next : Nat} (hleads : a.Leads stackSet byte next) :
    next = DEAD ↔ g.advanceStacks stackSet byte = [] := by
  rcases hleads with ⟨hdead, rfl⟩ | ⟨hlive, hnext⟩
  · exact ⟨fun _ => hdead, fun _ => rfl⟩
  · have hlt := hnext.lt
    have hsmall := h.small
    exact ⟨fun heq => absurd hlt (by omega), fun hdead => absurd hdead hlive⟩

/-- The counted sets hold every set on the way of some bytes. -/
def Covers (g : Grammar) (room : Finset (List Stack)) (stackSet : List Stack)
    (bytes : List UInt8) : Prop :=
  ∀ first last, first <+: bytes → g.follow stackSet first = some last → last ∈ room

theorem Covers.tail {stackSet : List Stack} {byte : UInt8} {rest : List UInt8}
    (h : Covers g room stackSet (byte :: rest)) (hlive : g.advanceStacks stackSet byte ≠ []) :
    Covers g room (g.advanceStacks stackSet byte) rest := by
  intro first last hfirst hlast
  apply h (byte :: first) last ((List.prefix_cons_inj byte).mpr hfirst)
  simp only [Grammar.follow]
  rw [if_neg hlive]
  exact hlast

/-- Walking a table agrees with following the stacks. -/
theorem walk_grown (bytes : List UInt8) (h : Interned tokens a) (hwithin : Within room a)
    (hroom : room.card ≤ DEAD) {state : Nat} {stackSet : List Stack}
    (hstate : a.Holds state stackSet) (hcovers : Covers g room stackSet bytes) :
    ∃ last a', a.walk state bytes = some (last, a') ∧ Grown tokens room a a' ∧
      (g.follow stackSet bytes = none ∧ last = DEAD ∨
        ∃ final, g.follow stackSet bytes = some final ∧ a'.Holds last final) := by
  induction bytes generalizing a state stackSet with
  | nil => exact ⟨state, a, rfl, Grown.refl h hwithin, Or.inr ⟨stackSet, rfl, hstate⟩⟩
  | cons byte rest ih =>
      have hnextMem : g.advanceStacks stackSet byte ≠ [] →
          g.advanceStacks stackSet byte ∈ room := by
        intro hlive
        apply hcovers [byte] _ (List.prefix_append [byte] rest)
        simp only [Grammar.follow]
        rw [if_neg hlive]
      obtain ⟨next, middle, hstep, hgrown, hleads⟩ :=
        step_grown h hwithin hroom hstate hnextMem
      simp only [walk, hstep, Option.bind_eq_bind, Option.bind_some, Grammar.follow]
      by_cases hdead : g.advanceStacks stackSet byte = []
      · rw [if_pos ((hleads.dead_iff hgrown.interned).mpr hdead), if_pos hdead]
        exact ⟨_, _, rfl, hgrown, Or.inl ⟨rfl, rfl⟩⟩
      · have hlive : next ≠ DEAD := fun heq =>
          hdead ((hleads.dead_iff hgrown.interned).mp heq)
        rw [if_neg hlive, if_neg hdead]
        rcases hleads with ⟨hnil, _⟩ | ⟨_, hnext⟩
        · exact absurd hnil hdead
        · obtain ⟨last, a', hwalk, hgrown', hlast⟩ :=
            ih hgrown.interned hgrown.within hnext (hcovers.tail hdead)
          exact ⟨last, a', hwalk, hgrown.trans hgrown', hlast⟩

end Table

end Riley.Constraint.GrammarAutomaton
