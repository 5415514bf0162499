import Mathlib.Data.Finset.Image
import Riley.Constraint.MaskSpec

/-!
Requests that share one automaton. Any interleaving of starting, cloning,
dropping, advancing and querying cursors keeps the table right, although it may
be dropped and rebuilt between two calls of a cursor. `capacity` bounds the
cursors alive at one time and `reach` the bytes of one call and of the indexed
vocabulary; within them a state identifier never leaves its range.
-/

namespace Riley.Constraint

open GrammarAutomaton

/-- An automaton and its cursors, each with the bytes that it has accepted. -/
structure Sharing (g : Grammar) where
  automaton : GrammarAutomaton g
  cursors : List (GrammarCursor × List UInt8)

namespace Sharing

variable {g : Grammar}

def new (g : Grammar) : Sharing g := ⟨GrammarAutomaton.new g, []⟩

/-- One call on the automaton, or the copy or the end of a cursor. -/
inductive Step (index : TokenIndex) (capacity reach : Nat) : Sharing g → Sharing g → Prop
  | start {s : Sharing g} : s.cursors.length < capacity →
      Step index capacity reach s
        ⟨s.automaton.start.2, s.cursors ++ [(s.automaton.start.1, [])]⟩
  | clone {s : Sharing g} {entry : GrammarCursor × List UInt8} : entry ∈ s.cursors →
      s.cursors.length < capacity →
      Step index capacity reach s ⟨s.automaton, s.cursors ++ [entry]⟩
  | drop {s : Sharing g} (slot : Nat) :
      Step index capacity reach s ⟨s.automaton, s.cursors.eraseIdx slot⟩
  | advance {s : Sharing g} {slot : Nat} {c c' : GrammarCursor} {word bytes : List UInt8}
      {ok : Bool} {a' : GrammarAutomaton g} : s.cursors[slot]? = some (c, word) →
      bytes.length ≤ reach → s.automaton.advance c bytes = some (ok, c', a') →
      Step index capacity reach s
        ⟨a', s.cursors.set slot (c', if ok then word ++ bytes else word)⟩
  | isAccepting {s : Sharing g} {slot : Nat} {c c' : GrammarCursor} {word : List UInt8}
      {complete : Bool} {a' : GrammarAutomaton g} : s.cursors[slot]? = some (c, word) →
      s.automaton.isAccepting c = some (complete, c', a') →
      Step index capacity reach s ⟨a', s.cursors.set slot (c', word)⟩
  | allows {s : Sharing g} {slot token : Nat} {c c' : GrammarCursor} {word : List UInt8}
      {admitted : Bool} {a' : GrammarAutomaton g} : s.cursors[slot]? = some (c, word) →
      s.automaton.allows c index token = some (admitted, c', a') →
      Step index capacity reach s ⟨a', s.cursors.set slot (c', word)⟩
  | applyMask {s : Sharing g} {slot : Nat} {c c' : GrammarCursor} {word : List UInt8}
      {allowed narrowed : List Bool} {continuable : Bool} {a' : GrammarAutomaton g} :
      s.cursors[slot]? = some (c, word) →
      s.automaton.applyMask c index allowed = some (continuable, narrowed, c', a') →
      Step index capacity reach s ⟨a', s.cursors.set slot (c', word)⟩

/-- The states that calls on a fresh automaton lead to. -/
abbrev Reachable (index : TokenIndex) (capacity reach : Nat) : Sharing g → Prop :=
  Relation.ReflTransGen (Step index capacity reach) (new g)

end Sharing

namespace GrammarAutomaton

variable {g : Grammar} {tokens : List (List UInt8)} {a a' : GrammarAutomaton g}
variable {room : Finset (List Stack)} {c : GrammarCursor}

/-- A cursor of the current generation names the state of its stacks. -/
structure CursorOk (a : GrammarAutomaton g) (c : GrammarCursor) : Prop where
  born : c.generation ≤ a.generation
  holds : c.generation = a.generation → a.Holds c.state c.stackSet

theorem CursorOk.grown (h : CursorOk a c) (hgrown : Grown tokens room a a') : CursorOk a' c where
  born := by
    rw [hgrown.generation]
    exact h.born
  holds := by
    rw [hgrown.generation]
    exact fun heq => hgrown.holds _ _ (h.holds heq)

theorem trim_interned (h : Interned tokens a) : Interned tokens a.trim := by
  unfold trim
  split
  · exact interned_empty _
  · exact h

theorem trim_length : a.trim.states.length ≤ MAX_STATES := by
  unfold trim
  split
  · exact Nat.zero_le _
  · rename_i hle
    exact Nat.le_of_not_lt hle

/-- Cursors survive a table reset: an older generation promises nothing. -/
theorem CursorOk.trim (h : CursorOk a c) : CursorOk a.trim c := by
  unfold GrammarAutomaton.trim
  split
  · refine ⟨Nat.le_succ_of_le h.born, fun heq => ?_⟩
    have hborn := h.born
    simp only at heq
    omega
  · exact h

/-- What resolving gives: the same stacks under a current state. -/
theorem resolve_grown (h : Interned tokens a) (hwithin : Within room a)
    (hroom : room.card ≤ DEAD) (hc : CursorOk a c) (hmem : c.stackSet ∈ room) :
    Grown tokens room a (a.resolve c).2 ∧ (a.resolve c).1.stackSet = c.stackSet ∧
      (a.resolve c).1.generation = (a.resolve c).2.generation ∧
      (a.resolve c).2.Holds (a.resolve c).1.state c.stackSet := by
  unfold resolve
  by_cases hsame : c.generation = a.generation
  · rw [if_neg (not_not_intro hsame)]
    exact ⟨Grown.refl h hwithin, rfl, hsame, hc.holds hsame⟩
  · rw [if_pos hsame]
    obtain ⟨hgrown, hheld⟩ := intern_grown h hwithin hroom hmem
    exact ⟨hgrown, rfl, rfl, hheld⟩

theorem start_grown (h : Interned tokens a) (hwithin : Within room a)
    (hroom : room.card ≤ DEAD) (hmem : g.startStacks ∈ room) :
    Grown tokens room a a.start.2 ∧ CursorOk a.start.2 a.start.1 ∧
      a.start.1.stackSet = g.startStacks := by
  obtain ⟨hgrown, hheld⟩ := intern_grown h hwithin hroom hmem
  refine ⟨hgrown, ⟨Nat.le_refl _, fun _ => hheld⟩, rfl⟩

/-- Keeping a right mask changes nothing else of a state. -/
theorem store_grown (h : Interned tokens a) (hwithin : Within room a) {state : Nat}
    {stackSet : List Stack} {mask : Mask} (hstate : a.Holds state stackSet)
    (hmask : MaskOk g tokens stackSet mask) :
    Grown tokens room a (a.store state mask) := by
  have hstates : ∀ (id : Nat) entry,
      (a.store state mask).states[id]? = some entry →
        ∃ before, a.states[id]? = some before ∧ entry.stackSet = before.stackSet ∧
          entry.accepting = before.accepting ∧
          (entry.mask = before.mask ∨ id = state ∧ entry.mask = some mask) := by
    intro id entry hentry
    rw [store, List.getElem?_modify] at hentry
    obtain ⟨before, hbefore, rfl⟩ := Option.map_eq_some_iff.mp hentry
    refine ⟨before, hbefore, ?_⟩
    by_cases heq : state = id
    · simp [heq]
    · simp [heq]
  have hback : ∀ (id : Nat) before, a.states[id]? = some before → ∃ entry,
      (a.store state mask).states[id]? = some entry ∧ entry.stackSet = before.stackSet := by
    intro id before hbefore
    rw [store, List.getElem?_modify, hbefore]
    by_cases heq : state = id
    · simp [heq]
    · simp [heq]
  have hholds : ∀ id other, (a.store state mask).Holds id other ↔ a.Holds id other := by
    intro id other
    constructor
    · rintro ⟨entry, hentry, rfl⟩
      obtain ⟨before, hbefore, hsame, _⟩ := hstates id entry hentry
      exact ⟨before, hbefore, hsame.symm⟩
    · rintro ⟨before, hbefore, rfl⟩
      obtain ⟨entry, hentry, hsame⟩ := hback id before hbefore
      exact ⟨entry, hentry, hsame⟩
  refine ⟨⟨?_, ?_, ?_, ?_, ?_, ?_⟩, fun id other hother => hwithin id other ((hholds id other).mp
    hother), rfl, fun id other hother => (hholds id other).mpr hother⟩
  · simp only [store, List.length_modify]
    exact h.rows
  · simp only [store, List.length_modify]
    exact h.small
  · intro other id
    rw [hholds]
    exact h.known other id
  · intro id entry hentry
    obtain ⟨before, hbefore, hsame, haccepting, _⟩ := hstates id entry hentry
    rw [haccepting, hsame]
    exact h.accepting id before hbefore
  · intro id entry row hentry hrow byte hbyte
    obtain ⟨before, hbefore, hsame, _⟩ := hstates id entry hentry
    rw [hsame]
    exact (h.moves id before row hbefore hrow byte hbyte).mono
      fun id other hother => (hholds id other).mpr hother
  · intro id entry mask' hentry hmask'
    obtain ⟨before, hbefore, hsame, _, hmasks⟩ := hstates id entry hentry
    rw [hsame]
    rcases hmasks with hkept | ⟨rfl, hnew⟩
    · rw [hkept] at hmask'
      exact h.masks id before mask' hbefore hmask'
    · rw [hnew, Option.some.injEq] at hmask'
      rw [← hmask', Holds.inj ⟨before, hbefore, rfl⟩ hstate]
      exact hmask

theorem maskOf_grown {paths : List (List UInt8)} {stackSet : List Stack}
    (hspelled : Spelled tokens paths) (hroom : room.card ≤ DEAD)
    (hcovers : CoversPaths g room stackSet paths) (h : Interned tokens a)
    (hwithin : Within room a) {state : Nat} (hstate : a.Holds state stackSet) :
    ∃ mask a', a.maskOf state (TokenIndex.new tokens) = some (mask, a') ∧
      MaskOk g tokens stackSet mask ∧ Grown tokens room a a' := by
  obtain ⟨entry, hentry, rfl⟩ := hstate
  unfold maskOf
  simp only [hentry, Option.bind_eq_bind, Option.bind_some]
  cases hcached : entry.mask with
  | some mask => exact ⟨mask, a, rfl, h.masks state entry mask hentry hcached, Grown.refl h hwithin⟩
  | none =>
      obtain ⟨mask, middle, hcompute, hmask, hgrown⟩ :=
        computeMask_grown hspelled hroom hcovers h hwithin ⟨entry, hentry, rfl⟩
      simp only [hcompute, Option.bind_some]
      exact ⟨mask, _, rfl, hmask, hgrown.trans (store_grown hgrown.interned hgrown.within
        (hgrown.holds _ _ ⟨entry, hentry, rfl⟩) hmask)⟩

end GrammarAutomaton

namespace Sharing

variable {g : Grammar} {tokens : List (List UInt8)} {capacity reach : Nat}

/-- Room for state identifiers, and a vocabulary that the index can address. -/
structure Limits (tokens : List (List UInt8)) (capacity reach : Nat) : Prop where
  ids : MAX_STATES + 2 + capacity + reach ≤ DEAD
  count : tokens.length ≤ u32Max
  bytes : tokens.flatten.length ≤ reach

theorem Limits.fits (h : Limits tokens capacity reach) : TokenIndex.Fits tokens := by
  have hids := h.ids
  have hbytes := h.bytes
  unfold DEAD MAX_STATES at hids
  exact ⟨h.count, by omega⟩

/-- What holds between two calls. The counted sets are those of the table and
of the cursors, with the bytes of one call to spare. -/
structure Ok (tokens : List (List UInt8)) (capacity reach : Nat) (s : Sharing g) : Prop where
  interned : Interned tokens s.automaton
  few : s.cursors.length ≤ capacity
  current : ∀ entry ∈ s.cursors, CursorOk s.automaton entry.1
  follows : ∀ entry ∈ s.cursors,
    g.follow g.startStacks entry.2 = some entry.1.stackSet
  room : ∃ room : Finset (List Stack), room.card ≤ MAX_STATES + 2 + capacity + reach ∧
    g.startStacks ∈ room ∧ Within room s.automaton ∧
    ∀ entry ∈ s.cursors, entry.1.stackSet ∈ room

theorem ok_new : Ok tokens capacity reach (new g) where
  interned := interned_empty 0
  few := Nat.zero_le _
  current := fun _ hnone => absurd hnone List.not_mem_nil
  follows := fun _ hnone => absurd hnone List.not_mem_nil
  room := by
    refine ⟨{g.startStacks}, ?_, Finset.mem_singleton_self _, ?_, ?_⟩
    · rw [Finset.card_singleton]
      omega
    · rintro id stackSet ⟨state, hstate, _⟩
      cases hstate
    · exact fun _ hnone => absurd hnone List.not_mem_nil

/-- Room for what following some byte strings from a stack set can meet. -/
theorem exists_room (room : Finset (List Stack)) (stackSet : List Stack)
    (words : List (List UInt8)) :
    ∃ room' : Finset (List Stack), room ⊆ room' ∧ room'.card ≤ room.card + words.length ∧
      ∀ word ∈ words, ∀ last, g.follow stackSet word = some last → last ∈ room' := by
  refine ⟨room ∪ (words.filterMap (g.follow stackSet)).toFinset, Finset.subset_union_left,
    ?_, ?_⟩
  · apply (Finset.card_union_le _ _).trans
    apply Nat.add_le_add_left
    exact (List.toFinset_card_le _).trans (List.length_filterMap_le _ _)
  · intro word hword last hlast
    apply Finset.mem_union_right
    rw [List.mem_toFinset, List.mem_filterMap]
    exact ⟨word, hword, hlast⟩

variable {s : Sharing g} {slot : Nat} {c : GrammarCursor} {word : List UInt8}

/-- After a trim the table is small again, whether it was dropped or not. -/
theorem Ok.trimmed (h : Ok tokens capacity reach s) :
    ∃ room : Finset (List Stack), room.card ≤ MAX_STATES + 1 + capacity ∧
      g.startStacks ∈ room ∧ Within room s.automaton.trim ∧
      ∀ entry ∈ s.cursors, entry.1.stackSet ∈ room := by
  refine ⟨insert g.startStacks ((s.automaton.trim.states.map DfaState.stackSet).toFinset ∪
    (s.cursors.map fun entry => entry.1.stackSet).toFinset), ?_, Finset.mem_insert_self _ _,
    ?_, ?_⟩
  · have hstates := List.toFinset_card_le (s.automaton.trim.states.map DfaState.stackSet)
    have hcursors := List.toFinset_card_le (s.cursors.map fun entry => entry.1.stackSet)
    have hunion := Finset.card_union_le
      (s.automaton.trim.states.map DfaState.stackSet).toFinset
      (s.cursors.map fun entry => entry.1.stackSet).toFinset
    have hinsert := Finset.card_insert_le g.startStacks
      ((s.automaton.trim.states.map DfaState.stackSet).toFinset ∪
        (s.cursors.map fun entry => entry.1.stackSet).toFinset)
    have htrim := trim_length (a := s.automaton)
    have hfew := h.few
    rw [List.length_map] at hstates hcursors
    omega
  · intro id stackSet hheld
    apply Finset.mem_insert_of_mem
    apply Finset.mem_union_left
    exact List.mem_toFinset.mpr (mem_map_stackSet.mpr ⟨id, hheld⟩)
  · intro entry hentry
    apply Finset.mem_insert_of_mem
    apply Finset.mem_union_right
    exact List.mem_toFinset.mpr (List.mem_map_of_mem hentry)

/-- A call that leaves its cursor right leaves everything right. -/
theorem Ok.settle (h : Ok tokens capacity reach s) {a' : GrammarAutomaton g}
    {entry' : GrammarCursor × List UInt8} (hinterned : Interned tokens a')
    (hcurrent : ∀ entry ∈ s.cursors, CursorOk a' entry.1) (hentry : CursorOk a' entry'.1)
    (hfollows : g.follow g.startStacks entry'.2 = some entry'.1.stackSet)
    {room : Finset (List Stack)} (hcard : room.card ≤ MAX_STATES + 2 + capacity + reach)
    (hstart : g.startStacks ∈ room) (hwithin : Within room a')
    (hmem : ∀ entry ∈ s.cursors, entry.1.stackSet ∈ room) (hmem' : entry'.1.stackSet ∈ room) :
    Ok tokens capacity reach ⟨a', s.cursors.set slot entry'⟩ := by
  refine ⟨hinterned, ?_, ?_, ?_, room, hcard, hstart, hwithin, ?_⟩
  · rw [List.length_set]
    exact h.few
  · intro entry hset
    rcases List.mem_or_eq_of_mem_set hset with hold | rfl
    · exact hcurrent entry hold
    · exact hentry
  · intro entry hset
    rcases List.mem_or_eq_of_mem_set hset with hold | rfl
    · exact h.follows entry hold
    · exact hfollows
  · intro entry hset
    rcases List.mem_or_eq_of_mem_set hset with hold | rfl
    · exact hmem entry hold
    · exact hmem'

theorem Ok.start (h : Ok tokens capacity reach s) (hlimits : Limits tokens capacity reach)
    (hfew : s.cursors.length < capacity) :
    Ok tokens capacity reach
      ⟨s.automaton.start.2, s.cursors ++ [(s.automaton.start.1, [])]⟩ := by
  obtain ⟨room, hcard, hstart, hwithin, hmem⟩ := h.room
  obtain ⟨hgrown, hcurrent, hstacks⟩ := start_grown h.interned hwithin
    (hcard.trans hlimits.ids) hstart
  refine ⟨hgrown.interned, ?_, ?_, ?_, room, hcard, hstart, hgrown.within, ?_⟩
  · rw [List.length_append, List.length_singleton]
    exact hfew
  · intro entry hentry
    rcases List.mem_append.mp hentry with hold | hnew
    · exact (h.current entry hold).grown hgrown
    · rw [List.mem_singleton.mp hnew]
      exact hcurrent
  · intro entry hentry
    rcases List.mem_append.mp hentry with hold | hnew
    · exact h.follows entry hold
    · rw [List.mem_singleton.mp hnew, hstacks]
      rfl
  · intro entry hentry
    rcases List.mem_append.mp hentry with hold | hnew
    · exact hmem entry hold
    · rw [List.mem_singleton.mp hnew, hstacks]
      exact hstart

theorem Ok.clone (h : Ok tokens capacity reach s) {entry : GrammarCursor × List UInt8}
    (hentry : entry ∈ s.cursors) (hfew : s.cursors.length < capacity) :
    Ok tokens capacity reach ⟨s.automaton, s.cursors ++ [entry]⟩ := by
  have hall : ∀ other ∈ s.cursors ++ [entry], other ∈ s.cursors := by
    intro other hother
    rcases List.mem_append.mp hother with hold | hnew
    · exact hold
    · rw [List.mem_singleton.mp hnew]
      exact hentry
  obtain ⟨room, hcard, hstart, hwithin, hmem⟩ := h.room
  refine ⟨h.interned, ?_, fun other hother => h.current other (hall other hother),
    fun other hother => h.follows other (hall other hother), room, hcard, hstart, hwithin,
    fun other hother => hmem other (hall other hother)⟩
  rw [List.length_append, List.length_singleton]
  exact hfew

theorem Ok.drop (h : Ok tokens capacity reach s) (slot : Nat) :
    Ok tokens capacity reach ⟨s.automaton, s.cursors.eraseIdx slot⟩ := by
  have hall : ∀ other ∈ s.cursors.eraseIdx slot, other ∈ s.cursors :=
    fun other hother => List.mem_of_mem_eraseIdx hother
  obtain ⟨room, hcard, hstart, hwithin, hmem⟩ := h.room
  refine ⟨h.interned, (List.length_eraseIdx_le _ _).trans h.few,
    fun other hother => h.current other (hall other hother),
    fun other hother => h.follows other (hall other hother), room, hcard, hstart, hwithin,
    fun other hother => hmem other (hall other hother)⟩

/-- `advance` succeeds exactly when the stacks of the cursor follow the bytes. -/
theorem Ok.advance (h : Ok tokens capacity reach s) (hlimits : Limits tokens capacity reach)
    (hslot : s.cursors[slot]? = some (c, word)) {bytes : List UInt8}
    (hbytes : bytes.length ≤ reach) :
    ∃ ok c' a', s.automaton.advance c bytes = some (ok, c', a') ∧
      (ok = false ∧ g.follow c.stackSet bytes = none ∧ c'.stackSet = c.stackSet ∨
        ok = true ∧ g.follow c.stackSet bytes = some c'.stackSet) ∧
      Ok tokens capacity reach
        ⟨a', s.cursors.set slot (c', if ok then word ++ bytes else word)⟩ := by
  have hentry : (c, word) ∈ s.cursors := List.mem_of_getElem? hslot
  obtain ⟨base, hbase, hstart, hwithin, hmem⟩ := h.trimmed
  obtain ⟨room, hsub, hcard, hcover⟩ := exists_room (g := g) base c.stackSet bytes.inits
  have hlimit : room.card ≤ MAX_STATES + 2 + capacity + reach := by
    rw [List.length_inits] at hcard
    omega
  have hroom := hlimit.trans hlimits.ids
  have hwithin' : Within room s.automaton.trim := fun id set hheld => hsub (hwithin id set hheld)
  have htrimmed := trim_interned h.interned
  obtain ⟨hresolved, hstacks, hgeneration, hheld⟩ := resolve_grown htrimmed hwithin' hroom
    (h.current _ hentry).trim (hsub (hmem _ hentry))
  have hcovers : Covers g room c.stackSet bytes := fun first last hfirst hlast =>
    hcover first ((List.mem_inits first bytes).mpr hfirst) last hlast
  obtain ⟨last, a', hwalk, hwalked, hlast⟩ := walk_grown bytes hresolved.interned
    hresolved.within hroom hheld hcovers
  have hgrown := hresolved.trans hwalked
  have hold : ∀ entry ∈ s.cursors, CursorOk a' entry.1 := fun entry hmem =>
    (h.current entry hmem).trim.grown hgrown
  have hmems : ∀ entry ∈ s.cursors, entry.1.stackSet ∈ room := fun entry hin =>
    hsub (hmem entry hin)
  simp only [GrammarAutomaton.advance, hwalk, Option.bind_eq_bind, Option.bind_some]
  rcases hlast with ⟨hnone, rfl⟩ | ⟨final, hsome, hfinal⟩
  · rw [if_pos rfl]
    refine ⟨_, _, _, rfl, Or.inl ⟨rfl, hnone, hstacks⟩, ?_⟩
    apply h.settle hgrown.interned hold _ _ hlimit (hsub hstart) hgrown.within hmems
    · rw [hstacks]
      exact hmems _ hentry
    · exact ⟨Nat.le_of_eq (hgeneration.trans hwalked.generation.symm), fun _ => by
        rw [hstacks]
        exact hwalked.holds _ _ hheld⟩
    · rw [hstacks]
      exact h.follows _ hentry
  · have hlive : last ≠ DEAD := by
      have hlt := hfinal.lt
      have hsmall := hgrown.interned.small
      omega
    have hcontents := hfinal
    obtain ⟨entry, hstate, rfl⟩ := hfinal
    rw [if_neg hlive, hstate, Option.bind_some]
    refine ⟨_, _, _, rfl, Or.inr ⟨rfl, hsome⟩, ?_⟩
    apply h.settle hgrown.interned hold _ _ hlimit (hsub hstart) hgrown.within hmems
    · exact hcovers bytes _ List.prefix_rfl hsome
    · exact ⟨Nat.le_of_eq (hgeneration.trans hwalked.generation.symm), fun _ => hcontents⟩
    · simp only [if_true]
      rw [Grammar.follow_append, h.follows _ hentry, Option.bind_some]
      exact hsome

/-- `isAccepting` reads whether the stacks of the cursor accept. -/
theorem Ok.isAccepting (h : Ok tokens capacity reach s)
    (hlimits : Limits tokens capacity reach) (hslot : s.cursors[slot]? = some (c, word)) :
    ∃ c' a', s.automaton.isAccepting c = some (Grammar.accepting c.stackSet, c', a') ∧
      c'.stackSet = c.stackSet ∧
      Ok tokens capacity reach ⟨a', s.cursors.set slot (c', word)⟩ := by
  have hentry : (c, word) ∈ s.cursors := List.mem_of_getElem? hslot
  obtain ⟨room, hcard, hstart, hwithin, hmem⟩ := h.room
  obtain ⟨hgrown, hstacks, hgeneration, hheld⟩ := resolve_grown h.interned hwithin
    (hcard.trans hlimits.ids) (h.current _ hentry) (hmem _ hentry)
  have hcontents := hheld
  obtain ⟨state, hstate, hset⟩ := hheld
  refine ⟨(s.automaton.resolve c).1, (s.automaton.resolve c).2, ?_, hstacks, ?_⟩
  · simp only [GrammarAutomaton.isAccepting, hstate, Option.bind_eq_bind, Option.bind_some]
    rw [hgrown.interned.accepting _ state hstate, hset]
  · apply h.settle hgrown.interned (fun entry hin => (h.current entry hin).grown hgrown) _ _
      hcard hstart hgrown.within hmem
    · rw [hstacks]
      exact hmem _ hentry
    · exact ⟨Nat.le_of_eq hgeneration, fun _ => by
        rw [hstacks]
        exact hcontents⟩
    · rw [hstacks]
      exact h.follows _ hentry

/-- The mask that a query finds or computes is the one of the cursor's stacks. -/
theorem Ok.masked (h : Ok tokens capacity reach s) (hlimits : Limits tokens capacity reach)
    (hslot : s.cursors[slot]? = some (c, word)) :
    ∃ mask a', (s.automaton.trim.resolve c).2.maskOf (s.automaton.trim.resolve c).1.state
        (TokenIndex.new tokens) = some (mask, a') ∧
      MaskOk g tokens c.stackSet mask ∧
      (s.automaton.trim.resolve c).1.stackSet = c.stackSet ∧
      Ok tokens capacity reach
        ⟨a', s.cursors.set slot ((s.automaton.trim.resolve c).1, word)⟩ := by
  have hentry : (c, word) ∈ s.cursors := List.mem_of_getElem? hslot
  obtain ⟨paths, hspelled⟩ := exists_spelled hlimits.fits
  obtain ⟨base, hbase, hstart, hwithin, hmem⟩ := h.trimmed
  obtain ⟨room, hsub, hcard, hcover⟩ := exists_room (g := g) base c.stackSet paths
  have hlimit : room.card ≤ MAX_STATES + 2 + capacity + reach := by
    have hsize := hspelled.size
    have hpaths := hspelled.indexes.spells.paths_length
    have hbytes := hlimits.bytes
    omega
  have hroom := hlimit.trans hlimits.ids
  have hwithin' : Within room s.automaton.trim := fun id set hheld => hsub (hwithin id set hheld)
  obtain ⟨hresolved, hstacks, hgeneration, hheld⟩ := resolve_grown (trim_interned h.interned)
    hwithin' hroom (h.current _ hentry).trim (hsub (hmem _ hentry))
  obtain ⟨mask, a', hmaskOf, hmask, hmasked⟩ := maskOf_grown hspelled hroom
    (fun spelled last hin hlast => hcover spelled hin last hlast)
    hresolved.interned hresolved.within hheld
  have hgrown := hresolved.trans hmasked
  refine ⟨mask, a', hmaskOf, hmask, hstacks, ?_⟩
  apply h.settle hgrown.interned (fun entry hin => (h.current entry hin).trim.grown hgrown) _ _
    hlimit (hsub hstart) hgrown.within fun entry hin => hsub (hmem entry hin)
  · rw [hstacks]
    exact hsub (hmem _ hentry)
  · exact ⟨Nat.le_of_eq (hgeneration.trans hmasked.generation.symm), fun _ => by
      rw [hstacks]
      exact hmasked.holds _ _ hheld⟩
  · rw [hstacks]
    exact h.follows _ hentry

theorem Ok.allows (h : Ok tokens capacity reach s) (hlimits : Limits tokens capacity reach)
    (hslot : s.cursors[slot]? = some (c, word)) (token : Nat) :
    ∃ admitted c' a', s.automaton.allows c (TokenIndex.new tokens) token =
        some (admitted, c', a') ∧
      (admitted = true ↔ Continues g tokens c.stackSet token) ∧
      Ok tokens capacity reach ⟨a', s.cursors.set slot (c', word)⟩ := by
  obtain ⟨mask, a', hmaskOf, hmask, _, hok⟩ := h.masked hlimits hslot
  refine ⟨mask.admits token, _, a', ?_, hmask.bits token, hok⟩
  simp only [GrammarAutomaton.allows, hmaskOf, Option.bind_eq_bind, Option.bind_some]

end Sharing

namespace Mask

/-- Reading the words of a mask for the entries of a vocabulary. -/
theorem narrowAll_spec (mask : Mask) (entries : List Bool) (first : Nat)
    (h : ∀ id < first + entries.length, id / 64 < mask.length) :
    ∃ narrowed, mask.narrowAll first entries = some narrowed ∧
      narrowed.length = entries.length ∧
      ∀ index, narrowed.getD index false =
        (entries.getD index false && mask.admits (first + index)) := by
  induction entries generalizing first with
  | nil => exact ⟨[], rfl, rfl, fun index => by simp⟩
  | cons entry rest ih =>
      have hword : first / 64 < mask.length := h first (by simp)
      have hentry : mask.narrow first entry = some (entry && mask.admits first) := by
        unfold admits
        rw [List.getElem?_eq_getElem hword, Option.any_some]
        cases entry with
        | false => rfl
        | true =>
            unfold narrow
            rw [List.getElem?_eq_getElem hword, Option.map_some, Bool.true_and]
      obtain ⟨narrowed, hrest, hlength, hbits⟩ := ih (first + 1) fun id hid => h id (by
        rw [List.length_cons]
        omega)
      refine ⟨(entry && mask.admits first) :: narrowed, ?_, ?_, ?_⟩
      · simp only [narrowAll, hentry, hrest, Option.bind_eq_bind, Option.bind_some]
      · rw [List.length_cons, List.length_cons, hlength]
      · intro index
        cases index with
        | zero => rfl
        | succ index =>
            rw [List.getD_cons_succ, List.getD_cons_succ, hbits, Nat.succ_add_eq_add_succ]

end Mask

namespace Sharing

variable {g : Grammar} {tokens : List (List UInt8)} {capacity reach : Nat}
variable {s : Sharing g} {slot : Nat} {c : GrammarCursor} {word : List UInt8}

/-- `applyMask` keeps of the vocabulary what was allowed and can continue. -/
theorem Ok.applyMask (h : Ok tokens capacity reach s) (hlimits : Limits tokens capacity reach)
    (hslot : s.cursors[slot]? = some (c, word)) {allowed : List Bool}
    (hallowed : tokens.length ≤ allowed.length) :
    ∃ continuable narrowed c' a', s.automaton.applyMask c (TokenIndex.new tokens) allowed =
        some (continuable, narrowed, c', a') ∧
      narrowed.length = allowed.length ∧
      (∀ id < tokens.length, narrowed.getD id false = true ↔
        allowed.getD id false = true ∧ Continues g tokens c.stackSet id) ∧
      (∀ id, tokens.length ≤ id → narrowed.getD id false = allowed.getD id false) ∧
      (continuable = true ↔ ∃ id, allowed.getD id false = true ∧
        Continues g tokens c.stackSet id) ∧
      c'.stackSet = c.stackSet ∧
      Ok tokens capacity reach ⟨a', s.cursors.set slot (c', word)⟩ := by
  obtain ⟨mask, a', hmaskOf, hmask, hstacks, hok⟩ := h.masked hlimits hslot
  have htake : (allowed.take tokens.length).length = tokens.length := by
    rw [List.length_take, Nat.min_eq_left hallowed]
  obtain ⟨narrowed, hnarrow, hlength, hbits⟩ := Mask.narrowAll_spec mask
    (allowed.take tokens.length) 0 (by
      intro id hid
      rw [htake] at hid
      rw [hmask.words]
      omega)
  have hentries : ∀ id < tokens.length, narrowed.getD id false = true ↔
      allowed.getD id false = true ∧ Continues g tokens c.stackSet id := by
    intro id hid
    have hget : (allowed.take tokens.length).getD id false = allowed.getD id false := by
      rw [List.getD_eq_getElem?_getD, List.getElem?_take_of_lt hid, List.getD_eq_getElem?_getD]
    rw [hbits, Nat.zero_add, Bool.and_eq_true, hmask.bits, hget]
  refine ⟨narrowed.any id, narrowed ++ allowed.drop tokens.length, _, a', ?_, ?_, ?_, ?_, ?_,
    hstacks, hok⟩
  · have hnot : ¬ allowed.length < (TokenIndex.new tokens).vocabularySize :=
      Nat.not_lt.mpr hallowed
    simp only [GrammarAutomaton.applyMask, hmaskOf, Option.bind_eq_bind, Option.bind_some,
      if_neg hnot]
    have hsize : (TokenIndex.new tokens).vocabularySize = tokens.length := rfl
    rw [hsize, hnarrow, Option.bind_some]
  · rw [List.length_append, hlength, htake, List.length_drop]
    omega
  · intro id hid
    rw [List.getD_append _ _ _ _ (by rw [hlength, htake]; exact hid)]
    exact hentries id hid
  · intro id hid
    rw [List.getD_append_right _ _ _ _ (by rw [hlength, htake]; exact hid), hlength, htake,
      List.getD_eq_getElem?_getD, List.getElem?_drop, List.getD_eq_getElem?_getD,
      Nat.add_sub_cancel' hid]
  · rw [List.any_eq_true]
    constructor
    · rintro ⟨entry, hentry, htrue⟩
      obtain ⟨id, hid, rfl⟩ := List.getElem_of_mem hentry
      have hget : narrowed.getD id false = true := by
        rw [List.getD_eq_getElem _ _ hid]
        exact htrue
      exact ⟨id, (hentries id (by rwa [hlength, htake] at hid)).mp hget⟩
    · rintro ⟨id, hallowedId, hcontinues⟩
      have hid : id < tokens.length := by
        obtain ⟨bytes, hbytes, _⟩ := hcontinues
        exact (List.getElem?_eq_some_iff.mp hbytes).choose
      have hget := (hentries id hid).mpr ⟨hallowedId, hcontinues⟩
      have hlt : id < narrowed.length := by rw [hlength, htake]; exact hid
      rw [List.getD_eq_getElem _ _ hlt] at hget
      exact ⟨_, List.getElem_mem hlt, hget⟩

/-- Every call keeps what holds between calls. -/
theorem Ok.step (hlimits : Limits tokens capacity reach) {s s' : Sharing g}
    (h : Ok tokens capacity reach s)
    (hstep : Step (TokenIndex.new tokens) capacity reach s s') :
    Ok tokens capacity reach s' := by
  cases hstep with
  | start hfew => exact h.start hlimits hfew
  | clone hentry hfew => exact h.clone hentry hfew
  | drop slot => exact h.drop slot
  | advance hslot hbytes hrun =>
      obtain ⟨ok, c', a', hadvance, _, hok⟩ := h.advance hlimits hslot hbytes
      rw [hrun, Option.some.injEq] at hadvance
      cases hadvance
      exact hok
  | isAccepting hslot hrun =>
      obtain ⟨c', a', haccepting, _, hok⟩ := h.isAccepting hlimits hslot
      rw [hrun, Option.some.injEq] at haccepting
      cases haccepting
      exact hok
  | allows hslot hrun =>
      rename_i token _ _ _ _ _
      obtain ⟨admitted, c', a', hallows, _, hok⟩ := h.allows hlimits hslot token
      rw [hrun, Option.some.injEq] at hallows
      cases hallows
      exact hok
  | applyMask hslot hrun =>
      rename_i slot c c' word allowed narrowed continuable a'
      have hallowed : tokens.length ≤ allowed.length := by
        by_contra hshort
        obtain ⟨mask, a'', hmaskOf, _⟩ := h.masked hlimits hslot
        have hlt : allowed.length < (TokenIndex.new tokens).vocabularySize :=
          Nat.lt_of_not_le hshort
        simp only [GrammarAutomaton.applyMask, hmaskOf, Option.bind_eq_bind, Option.bind_some,
          if_pos hlt] at hrun
        cases hrun
      obtain ⟨_, _, _, _, happly, _, _, _, _, _, hok⟩ := h.applyMask hlimits hslot hallowed
      rw [hrun, Option.some.injEq] at happly
      cases happly
      exact hok

/-- Every reachable state is right. -/
theorem Reachable.ok (hlimits : Limits tokens capacity reach)
    (h : Reachable (TokenIndex.new tokens) capacity reach s) : Ok tokens capacity reach s := by
  induction h with
  | refl => exact ok_new
  | tail _ hstep ih => exact ih.step hlimits hstep

end Sharing

end Riley.Constraint
