import Riley.Constraint.Sharing

/-!
What the automaton decides. Fed in pieces to a cursor of a shared automaton, a
byte string is judged as the stacks judge it: only sentences are accepted, and
every sentence is unless exploring it reaches a limit. A mask admits the tokens
that advancing would accept. The limits can strand a cursor, and the engine
then lets the sequence end.
-/

namespace Riley.Constraint

open GrammarAutomaton

namespace GrammarAutomaton

variable {g : Grammar}

/-- Feeds pieces to a cursor until one leaves the grammar; whether the input is
a complete sentence after the last. -/
def decides (a : GrammarAutomaton g) (cursor : GrammarCursor) : List (List UInt8) → Option Bool
  | [] => (a.isAccepting cursor).map fun result => result.1
  | piece :: rest => do
      let (ok, cursor, a) ← a.advance cursor piece
      if ok then a.decides cursor rest else some false

/-- Feeds pieces to a new cursor. -/
def recognizes (a : GrammarAutomaton g) (pieces : List (List UInt8)) : Option Bool :=
  a.start.2.decides a.start.1 pieces

/-- A token fits a cursor when it has bytes and a copy of the cursor advances
over them. -/
def Fitting (a : GrammarAutomaton g) (cursor : GrammarCursor) (tokens : List (List UInt8))
    (id : Nat) : Prop :=
  ∃ bytes, tokens[id]? = some bytes ∧ bytes ≠ [] ∧
    ∃ cursor' a', a.advance cursor bytes = some (true, cursor', a')

/-- Whether the input of a cursor may end. -/
def Complete (a : GrammarAutomaton g) (cursor : GrammarCursor) : Prop :=
  ∃ cursor' a', a.isAccepting cursor = some (true, cursor', a')

end GrammarAutomaton

namespace Sharing

variable {g : Grammar} {tokens : List (List UInt8)} {capacity reach : Nat}
variable {s : Sharing g} {slot : Nat} {c : GrammarCursor} {word : List UInt8}

theorem getElem?_set_slot {entry : GrammarCursor × List UInt8}
    (hslot : s.cursors[slot]? = some (c, word)) :
    (s.cursors.set slot entry)[slot]? = some entry := by
  have hlt := (List.getElem?_eq_some_iff.mp hslot).choose
  rw [List.getElem?_set_self hlt]

/-- The pieces do not matter, only the bytes: the stacks decide. -/
theorem Ok.decides (hlimits : Limits tokens capacity reach) (pieces : List (List UInt8))
    (h : Ok tokens capacity reach s) (hslot : s.cursors[slot]? = some (c, word))
    (hpieces : ∀ piece ∈ pieces, piece.length ≤ reach) :
    ∃ verdict, s.automaton.decides c pieces = some verdict ∧
      (verdict = true ↔ ∃ last, g.follow c.stackSet pieces.flatten = some last ∧
        Grammar.accepting last = true) := by
  induction pieces generalizing s c word with
  | nil =>
      obtain ⟨c', a', haccepting, _⟩ := h.isAccepting hlimits hslot
      refine ⟨Grammar.accepting c.stackSet, ?_, ?_⟩
      · rw [GrammarAutomaton.decides, haccepting, Option.map_some]
      · rw [List.flatten_nil]
        constructor
        · exact fun htrue => ⟨c.stackSet, rfl, htrue⟩
        · rintro ⟨last, hlast, htrue⟩
          cases hlast
          exact htrue
  | cons piece rest ih =>
      obtain ⟨ok, c', a', hadvance, hok, hnext⟩ := h.advance hlimits hslot
        (hpieces piece List.mem_cons_self)
      rw [List.flatten_cons, Grammar.follow_append]
      simp only [GrammarAutomaton.decides, hadvance, Option.bind_eq_bind, Option.bind_some]
      rcases hok with ⟨rfl, hnone, _⟩ | ⟨rfl, hsome⟩
      · refine ⟨false, rfl, ?_⟩
        rw [hnone, Option.bind_none]
        simp
      · rw [hsome, Option.bind_some]
        exact ih hnext (getElem?_set_slot hslot) fun other hother =>
          hpieces other (List.mem_cons_of_mem _ hother)

/-- Fitting is following. -/
theorem Ok.fitting_iff (h : Ok tokens capacity reach s)
    (hlimits : Limits tokens capacity reach) (hslot : s.cursors[slot]? = some (c, word))
    (id : Nat) : s.automaton.Fitting c tokens id ↔ Continues g tokens c.stackSet id := by
  have hadvances : ∀ bytes, tokens[id]? = some bytes →
      ((∃ c' a', s.automaton.advance c bytes = some (true, c', a')) ↔
        (g.follow c.stackSet bytes).isSome) := by
    intro bytes hbytes
    have hlength : bytes.length ≤ reach := by
      apply Nat.le_trans _ hlimits.bytes
      exact (List.sublist_flatten_of_mem (List.mem_of_getElem? hbytes)).length_le
    obtain ⟨ok, c', a', hadvance, hok, _⟩ := h.advance hlimits hslot hlength
    rcases hok with ⟨rfl, hnone, _⟩ | ⟨rfl, hsome⟩
    · rw [hadvance, hnone]
      simp
    · rw [hadvance, hsome]
      simp
  constructor
  · rintro ⟨bytes, hbytes, hne, hadvance⟩
    exact ⟨bytes, hbytes, hne, (hadvances bytes hbytes).mp hadvance⟩
  · rintro ⟨bytes, hbytes, hne, hfollow⟩
    exact ⟨bytes, hbytes, hne, (hadvances bytes hbytes).mpr hfollow⟩

theorem Ok.complete_iff (h : Ok tokens capacity reach s)
    (hlimits : Limits tokens capacity reach) (hslot : s.cursors[slot]? = some (c, word)) :
    s.automaton.Complete c ↔ Grammar.accepting c.stackSet = true := by
  obtain ⟨c', a', haccepting, _⟩ := h.isAccepting hlimits hslot
  unfold Complete
  rw [haccepting]
  cases Grammar.accepting c.stackSet <;> simp

theorem Ok.slot_follows (h : Ok tokens capacity reach s)
    (hslot : s.cursors[slot]? = some (c, word)) :
    g.follow g.startStacks word = some c.stackSet :=
  h.follows _ (List.mem_of_getElem? hslot)

/-- What continues a cursor depends on the bytes it has accepted alone. -/
theorem Ok.continues_iff (h : Ok tokens capacity reach s)
    (hslot : s.cursors[slot]? = some (c, word)) (id : Nat) :
    Continues g tokens c.stackSet id ↔ ∃ bytes, tokens[id]? = some bytes ∧ bytes ≠ [] ∧
      (g.follow g.startStacks (word ++ bytes)).isSome := by
  unfold Continues
  simp only [Grammar.follow_append, h.slot_follows hslot, Option.bind_some]

theorem recognizes_language (hlimits : Limits tokens capacity reach)
    (hs : Reachable (TokenIndex.new tokens) capacity reach s)
    (hfew : s.cursors.length < capacity) (pieces : List (List UInt8))
    (hpieces : ∀ piece ∈ pieces, piece.length ≤ reach) :
    ∃ verdict, s.automaton.recognizes pieces = some verdict ∧
      (verdict = true → g.Sentence pieces.flatten) ∧
      (g.Sentence pieces.flatten → g.exploredWithin pieces.flatten = true →
        verdict = true) := by
  have hok := Reachable.ok hlimits hs
  have hstart := hok.start hlimits hfew
  have hslot : (s.cursors ++ [(s.automaton.start.1, ([] : List UInt8))])[s.cursors.length]? =
      some (s.automaton.start.1, []) := List.getElem?_concat_length ..
  obtain ⟨verdict, hdecides, hverdict⟩ := Ok.decides hlimits pieces hstart hslot hpieces
  refine ⟨verdict, hdecides, ?_, ?_⟩
  · exact fun htrue => Grammar.accepts_sound (hverdict.mp htrue)
  · exact fun hsentence hwithin => hverdict.mpr (Grammar.accepts_complete hsentence hwithin)

end Sharing

/-- `S` is `(S)` or `aUb`, and `U` is `d`: one byte opens a level, and the
middle needs one level more than the closing brackets. -/
def bracketed : Grammar :=
  ⟨[[[.bytes (.byte 40), .rule 0, .bytes (.byte 41)],
      [.bytes (.byte 97), .rule 1, .bytes (.byte 98)]],
    [[.bytes (.byte 100)]]], 0, by decide⟩

/-- A vocabulary of four bytes. -/
def fourBytes : List (List UInt8) := [[40], [41], [97], [98, 100]]

theorem limits_fourBytes : Sharing.Limits fourBytes 8 4096 :=
  ⟨by decide, by decide, by decide⟩

theorem bracketed_recognizes : ∃ verdict,
    (Sharing.new bracketed).automaton.recognizes [[40, 97], [100], [98, 41]] = some verdict ∧
      (verdict = true → bracketed.Sentence [40, 97, 100, 98, 41]) ∧
      (bracketed.Sentence [40, 97, 100, 98, 41] →
        bracketed.exploredWithin [40, 97, 100, 98, 41] = true → verdict = true) :=
  Sharing.recognizes_language limits_fourBytes Relation.ReflTransGen.refl (by decide)
    [[40, 97], [100], [98, 41]] (by decide)

example : bracketed.exploredWithin [40, 97, 100, 98, 41] = true := by decide

namespace Sharing

variable {g : Grammar} {tokens : List (List UInt8)} {capacity reach : Nat}
variable {s : Sharing g} {slot : Nat} {c : GrammarCursor} {word : List UInt8}

/-- Accepted bytes begin a sentence, and a sentence that begins with them is
accepted unless exploring it reaches a limit; while there is such a sentence,
the input may end or some byte continues it. -/
theorem accepted_continues (hlimits : Limits tokens capacity reach)
    (hs : Reachable (TokenIndex.new tokens) capacity reach s)
    (hslot : s.cursors[slot]? = some (c, word)) (hproductive : g.Productive)
    (hinhabited : g.Inhabited) :
    (∃ rest, g.Sentence (word ++ rest)) ∧
    (∀ pieces : List (List UInt8), (∀ piece ∈ pieces, piece.length ≤ reach) →
      g.Sentence (word ++ pieces.flatten) → g.exploredWithin (word ++ pieces.flatten) = true →
      s.automaton.decides c pieces = some true) ∧
    ((∃ rest, g.Sentence (word ++ rest) ∧ g.exploredWithin (word ++ rest) = true) →
      (∀ byte : UInt8, [byte] ∈ tokens) →
      s.automaton.Complete c ∨ ∃ narrowed c' a', s.automaton.applyMask c (TokenIndex.new tokens)
        (List.replicate tokens.length true) = some (true, narrowed, c', a')) := by
  have hok := Reachable.ok hlimits hs
  have hfollows := hok.slot_follows hslot
  refine ⟨hproductive.exists_sentence hinhabited hfollows, ?_, ?_⟩
  · intro pieces hpieces hsentence hwithin
    obtain ⟨verdict, hdecides, hverdict⟩ := Ok.decides hlimits pieces hok hslot hpieces
    obtain ⟨last, hlast, haccepting⟩ := Grammar.accepts_complete hsentence hwithin
    rw [Grammar.follow_append, hfollows, Option.bind_some] at hlast
    rw [hdecides, hverdict.mpr ⟨last, hlast, haccepting⟩]
  · rintro ⟨rest, hsentence, hwithin⟩ hbytes
    obtain ⟨last, hlast, haccepting⟩ := Grammar.accepts_complete hsentence hwithin
    rw [Grammar.follow_append, hfollows, Option.bind_some] at hlast
    cases rest with
    | nil =>
        cases hlast
        exact Or.inl ((hok.complete_iff hlimits hslot).mpr haccepting)
    | cons byte rest =>
        have hallowed : tokens.length ≤ (List.replicate tokens.length true).length :=
          Nat.le_of_eq List.length_replicate.symm
        obtain ⟨continuable, narrowed, c', a', happly, _, _, _, hcontinuable, _⟩ :=
          hok.applyMask hlimits hslot hallowed
        have hfirst : (g.follow c.stackSet [byte]).isSome := by
          rw [← List.singleton_append, Grammar.follow_append] at hlast
          cases hbyte : g.follow c.stackSet [byte] with
          | none =>
              rw [hbyte] at hlast
              cases hlast
          | some next => rfl
        obtain ⟨id, hid, hget⟩ := List.getElem_of_mem (hbytes byte)
        have htrue : continuable = true := by
          apply hcontinuable.mpr
          refine ⟨id, ?_, [byte], ?_, List.cons_ne_nil _ _, hfirst⟩
          · rw [List.getD_eq_getElem _ _ (by rwa [List.length_replicate]),
              List.getElem_replicate]
          · rw [List.getElem?_eq_getElem hid, hget]
        rw [htrue] at happly
        exact Or.inr ⟨narrowed, c', a', happly⟩

end Sharing

section Stranded

/-- A new automaton accepts a prefix and then no continuation of it. -/
def Stranded (g : Grammar) (word : List UInt8) : Prop :=
  ∃ c a, (GrammarAutomaton.new g).start.2.advance (GrammarAutomaton.new g).start.1 word =
      some (true, c, a) ∧
    ∀ rest : List UInt8, a.decides c (rest.map fun byte => [byte]) = some false

/-- A stack set that does not accept and that no byte leaves strands its cursor. -/
theorem stranded_of_stuck {g : Grammar} {word : List UInt8} {last : List Stack}
    (hfollow : g.follow g.startStacks word = some last) (hlength : word.length ≤ 4096)
    (hstuck : ∀ byte, g.advanceStacks last byte = [])
    (haccepting : Grammar.accepting last = false) : Stranded g word := by
  have hlimits : Sharing.Limits [] 1 4096 := ⟨by decide, by decide, by decide⟩
  have hstart := Sharing.Ok.start (Sharing.ok_new (g := g)) hlimits Nat.zero_lt_one
  have hslot : ([((GrammarAutomaton.new g).start.1, [])] :
      List (GrammarCursor × List UInt8))[0]? = some ((GrammarAutomaton.new g).start.1, []) := rfl
  obtain ⟨ok, c, a, hadvance, hok, hnext⟩ := hstart.advance hlimits hslot hlength
  rcases hok with ⟨_, hnone, _⟩ | ⟨rfl, hsome⟩
  · have hcontra := hnone.symm.trans hfollow
    cases hcontra
  · refine ⟨c, a, hadvance, fun rest => ?_⟩
    have hset : c.stackSet = last := Option.some.inj (hsome.symm.trans hfollow)
    have hpieces : ∀ piece ∈ rest.map fun byte => [byte], piece.length ≤ 4096 := by
      intro piece hpiece
      obtain ⟨byte, _, rfl⟩ := List.mem_map.mp hpiece
      exact Nat.le_of_ble_eq_true rfl
    obtain ⟨verdict, hdecides, hverdict⟩ := Sharing.Ok.decides hlimits
      (rest.map fun byte => [byte]) hnext (Sharing.getElem?_set_slot hslot) hpieces
    have hfalse : verdict = false := by
      by_contra htrue
      obtain ⟨final, hfinal, hend⟩ := hverdict.mp (by simpa using htrue)
      rw [hset] at hfinal
      cases rest with
      | nil =>
          cases hfinal
          rw [haccepting] at hend
          cases hend
      | cons byte more =>
          simp only [List.map_cons, List.flatten_cons, List.singleton_append, Grammar.follow,
            hstuck byte, if_true] at hfinal
          cases hfinal
    rw [hdecides, hfalse]

/-- No byte leaves a stack that cannot expand after its class. -/
theorem advanceStack_nil {g : Grammar} {top : Frame} {rest : Stack}
    (h : g.expand (top.next :: rest) = []) (byte : UInt8) :
    g.advanceStack byte (top :: rest) = [] := by
  simp only [Grammar.advanceStack]
  split
  · rw [h, ite_self]
  · rfl

theorem advanceStacks_nil {g : Grammar} {current : List Stack} {byte : UInt8}
    (h : ∀ stack ∈ current, g.advanceStack byte stack = []) :
    g.advanceStacks current byte = [] := by
  unfold Grammar.advanceStacks
  rw [List.flatMap_eq_nil_iff.mpr h]
  rfl

theorem bracketed_middle : bracketed.Yields [.rule 1] [100] := by
  rw [Grammar.yields_rule]
  refine ⟨[.bytes (.byte 100)], List.mem_singleton_self _, ?_⟩
  rw [List.append_nil, Grammar.yields_bytes]
  exact ⟨100, [], rfl, by decide, Derivation.Derives.nil⟩

theorem bracketed_sentence : bracketed.Sentence [97, 100, 98] := by
  have hlast : bracketed.Yields [.bytes (.byte 98)] [98] := by
    rw [Grammar.yields_bytes]
    exact ⟨98, [], rfl, by decide, Derivation.Derives.nil⟩
  unfold Grammar.Sentence
  rw [Grammar.yields_rule]
  refine ⟨[.bytes (.byte 97), .rule 1, .bytes (.byte 98)], by decide, ?_⟩
  rw [List.append_nil, Grammar.yields_bytes]
  exact ⟨97, [100, 98], rfl, by decide, bracketed_middle.append hlast⟩

theorem bracketed_productive : bracketed.Productive := by
  intro rule hrule
  rcases (show rule = 0 ∨ rule = 1 by
    have hlt : rule < 2 := hrule
    omega) with rfl | rfl
  · exact ⟨[97, 100, 98], bracketed_sentence⟩
  · exact ⟨[100], bracketed_middle⟩

/-- A class without bytes after `a`, beside the sentence `b`. -/
def hollow : Grammar :=
  ⟨[[[.bytes (.byte 97), .bytes .empty], [.bytes (.byte 98)]]], 0, by decide⟩

theorem hollow_productive : hollow.Productive := by
  intro rule hrule
  have hzero : rule = 0 := by
    have hlt : rule < 1 := hrule
    omega
  subst hzero
  refine ⟨[98], ?_⟩
  rw [Grammar.yields_rule]
  refine ⟨[.bytes (.byte 98)], by decide, ?_⟩
  rw [List.append_nil, Grammar.yields_bytes]
  exact ⟨98, [], rfl, by decide, Derivation.Derives.nil⟩

theorem bracketed_inhabited : bracketed.Inhabited := by
  intro rule alternative halternative byteClass hmem
  have hbytes : ∀ rule < 2, ∀ alternative ∈ bracketed.alternatives rule,
      ∀ element ∈ alternative, element = .rule 0 ∨ element = .rule 1 ∨
        element = .bytes (.byte 40) ∨ element = .bytes (.byte 41) ∨
        element = .bytes (.byte 97) ∨ element = .bytes (.byte 98) ∨
        element = .bytes (.byte 100) := by
    decide
  have hrule := (bracketed.mem_rules_of_mem_alternatives halternative).1
  rcases hbytes rule hrule alternative halternative _ hmem with
    h | h | h | h | h | h | h <;> cases h
  · exact ⟨40, by decide⟩
  · exact ⟨41, by decide⟩
  · exact ⟨97, by decide⟩
  · exact ⟨98, by decide⟩
  · exact ⟨100, by decide⟩

/-- The first cursor of a new automaton. -/
def first (g : Grammar) : Sharing g :=
  ⟨(GrammarAutomaton.new g).start.2, [((GrammarAutomaton.new g).start.1, [])]⟩

theorem reachable_first (g : Grammar) {index : TokenIndex} {capacity reach : Nat}
    (h : 0 < capacity) : Sharing.Reachable index capacity reach (first g) :=
  Relation.ReflTransGen.single (Sharing.Step.start h)

theorem bracketed_continues :
    (first bracketed).automaton.decides (GrammarAutomaton.new bracketed).start.1
      [[97], [100, 98]] = some true :=
  (Sharing.accepted_continues limits_fourBytes (reachable_first bracketed (by decide))
    (show (first bracketed).cursors[0]? = some ((GrammarAutomaton.new bracketed).start.1, []) from
      rfl) bracketed_productive bracketed_inhabited).2.1 [[97], [100, 98]] (by decide)
    bracketed_sentence (by decide)

/-- Two productive grammars whose automata strand a cursor: one at the depth
limit, after opening brackets that it can still close but not fill, and one in
front of a class without bytes. -/
theorem productive_stranded :
    bracketed.Productive ∧ Stranded bracketed (List.replicate 127 40) ∧
      hollow.Productive ∧ Stranded hollow [97] := by
  have hdeep : bracketed.follow bracketed.startStacks (List.replicate 127 40) =
      some [⟨0, 0, 0⟩ :: List.replicate 127 ⟨0, 0, 2⟩,
        ⟨0, 1, 0⟩ :: List.replicate 127 ⟨0, 0, 2⟩] := by
    decide +kernel
  have hempty : hollow.follow hollow.startStacks [97] = some [[⟨0, 0, 1⟩]] := by decide +kernel
  refine ⟨bracketed_productive, ?_, hollow_productive, ?_⟩
  · apply stranded_of_stuck hdeep
    · rw [List.length_replicate]
      decide
    · intro byte
      apply advanceStacks_nil
      intro stack hstack
      rcases List.mem_cons.mp hstack with rfl | hsecond
      · exact advanceStack_nil (by decide +kernel) byte
      · rw [List.mem_singleton.mp hsecond]
        exact advanceStack_nil (by decide +kernel) byte
    · rfl
  · apply stranded_of_stuck hempty
    · decide
    · intro byte
      apply advanceStacks_nil
      intro stack hstack
      rw [List.mem_singleton.mp hstack]
      have hnever : ByteClass.empty.contains byte = false := by
        simp [ByteClass.contains, ByteClass.empty]
      have helement : hollow.element ⟨0, 0, 1⟩ = some (.bytes .empty) := by decide
      simp only [Grammar.advanceStack, helement, hnever]
      rfl
    · rfl

end Stranded

namespace Sharing

variable {g : Grammar} {tokens : List (List UInt8)} {capacity reach : Nat}
variable {s : Sharing g} {slot : Nat} {c : GrammarCursor} {word : List UInt8}

/-- Setting some ids of a list of entries. -/
theorem getD_setAll (ids : List Nat) (entries : List Bool) {id : Nat}
    (h : id < entries.length) :
    (ids.foldl (fun entries id => entries.set id true) entries).getD id false = true ↔
      id ∈ ids ∨ entries.getD id false = true := by
  induction ids generalizing entries with
  | nil => simp
  | cons first rest ih =>
      rw [List.foldl_cons, ih _ (by rwa [List.length_set]), List.mem_cons]
      by_cases heq : id = first
      · subst heq
        rw [getD_set_self h]
        simp
      · rw [getD_set_of_ne heq]
        simp [heq]

theorem length_setAll (ids : List Nat) (entries : List Bool) :
    (ids.foldl (fun entries id => entries.set id true) entries).length = entries.length := by
  induction ids generalizing entries with
  | nil => rfl
  | cons first rest ih => rw [List.foldl_cons, ih, List.length_set]

/-- The offer of `constrain`, by the stacks of the cursor, which it leaves as they are. -/
theorem Ok.constrained (h : Ok tokens capacity reach s)
    (hlimits : Limits tokens capacity reach) (hslot : s.cursors[slot]? = some (c, word))
    (eos : List Nat) {allowed : List Bool} (hallowed : tokens.length ≤ allowed.length) :
    ∃ offered c' a', s.automaton.constrain c (TokenIndex.new tokens) eos allowed =
        some (offered, c', a') ∧
      offered.length = allowed.length ∧
      (∀ id < allowed.length, offered.getD id false = true ↔
        id ∈ eos ∧ (Grammar.accepting c.stackSet = true ∨
          ∀ other, allowed.getD other false = true → ¬ Continues g tokens c.stackSet other) ∨
        allowed.getD id false = true ∧
          (id < tokens.length → Continues g tokens c.stackSet id)) ∧
      c'.stackSet = c.stackSet ∧
      Ok tokens capacity reach ⟨a', s.cursors.set slot (c', word)⟩ := by
  obtain ⟨c', a', haccepting, hstacks, hnext⟩ := h.isAccepting hlimits hslot
  obtain ⟨continuable, narrowed, c'', a'', happly, hlength, hinside, houtside, hcontinuable,
    hstacks', hlast⟩ := hnext.applyMask hlimits (getElem?_set_slot hslot) hallowed
  rw [hstacks] at hinside hcontinuable
  rw [List.set_set] at hlast
  have hkept : ∀ id, narrowed.getD id false = true ↔ allowed.getD id false = true ∧
      (id < tokens.length → Continues g tokens c.stackSet id) := by
    intro id
    by_cases hid : id < tokens.length
    · rw [hinside id hid]
      simp [hid]
    · rw [houtside id (Nat.le_of_not_lt hid)]
      simp [hid]
  have hnothing : continuable = false ↔
      ∀ other, allowed.getD other false = true → ¬ Continues g tokens c.stackSet other := by
    rw [← Bool.not_eq_true, hcontinuable]
    simp
  simp only [GrammarAutomaton.constrain, haccepting, happly, Option.bind_eq_bind,
    Option.bind_some]
  by_cases hopen : (Grammar.accepting c.stackSet || !continuable) = true
  · rw [if_pos hopen]
    refine ⟨_, _, _, rfl, (length_setAll eos narrowed).trans hlength, fun id hid => ?_,
      hstacks'.trans hstacks, hlast⟩
    rw [getD_setAll eos narrowed (by rwa [hlength]), hkept]
    rw [Bool.or_eq_true, Bool.not_eq_true', hnothing] at hopen
    simp only [hopen, and_true]
  · rw [if_neg hopen]
    refine ⟨_, _, _, rfl, hlength, fun id _ => ?_, hstacks'.trans hstacks, hlast⟩
    rw [Bool.or_eq_true, Bool.not_eq_true', hnothing] at hopen
    rw [hkept]
    simp only [hopen, and_false, false_or]

/-- What the engine offers for sampling: the end-of-sequence ids where the input
is complete or nothing that was allowed fits, and what was allowed and fits. -/
theorem Ok.constrain (h : Ok tokens capacity reach s)
    (hlimits : Limits tokens capacity reach) (hslot : s.cursors[slot]? = some (c, word))
    (eos : List Nat) {allowed : List Bool} (hallowed : tokens.length ≤ allowed.length) :
    ∃ offered c' a', s.automaton.constrain c (TokenIndex.new tokens) eos allowed =
        some (offered, c', a') ∧
      ∀ id < allowed.length, offered.getD id false = true ↔
        id ∈ eos ∧ (s.automaton.Complete c ∨
          ∀ other, allowed.getD other false = true → ¬ s.automaton.Fitting c tokens other) ∨
        allowed.getD id false = true ∧
          (id < tokens.length → s.automaton.Fitting c tokens id) := by
  simp only [h.fitting_iff hlimits hslot, h.complete_iff hlimits hslot]
  obtain ⟨offered, c', a', hrun, _, hoffered, _⟩ := h.constrained hlimits hslot eos hallowed
  exact ⟨offered, c', a', hrun, hoffered⟩

/-- A query admits a token exactly when a copy of the cursor advances over its
bytes, which depends on the accepted bytes alone; the end of the sequence is
offered where the input is complete or nothing that was allowed fits. -/
theorem mask_fits (hlimits : Limits tokens capacity reach)
    (hs : Reachable (TokenIndex.new tokens) capacity reach s)
    (hslot : s.cursors[slot]? = some (c, word)) :
    (∀ id, s.automaton.Fitting c tokens id ↔ ∃ bytes, tokens[id]? = some bytes ∧ bytes ≠ [] ∧
      (g.follow g.startStacks (word ++ bytes)).isSome) ∧
    (∀ id, ∃ admitted c' a', s.automaton.allows c (TokenIndex.new tokens) id =
        some (admitted, c', a') ∧ (admitted = true ↔ s.automaton.Fitting c tokens id)) ∧
    (∀ allowed : List Bool, tokens.length ≤ allowed.length → ∃ continuable narrowed c' a',
      s.automaton.applyMask c (TokenIndex.new tokens) allowed =
          some (continuable, narrowed, c', a') ∧
        ∀ id < tokens.length, narrowed.getD id false = true ↔
          allowed.getD id false = true ∧ s.automaton.Fitting c tokens id) ∧
    ∀ (eos : List Nat) (allowed : List Bool), tokens.length ≤ allowed.length →
      ∃ offered c' a', s.automaton.constrain c (TokenIndex.new tokens) eos allowed =
          some (offered, c', a') ∧
        ∀ id < allowed.length, offered.getD id false = true ↔
          id ∈ eos ∧ (s.automaton.Complete c ∨
            ∀ other, allowed.getD other false = true → ¬ s.automaton.Fitting c tokens other) ∨
          allowed.getD id false = true ∧
            (id < tokens.length → s.automaton.Fitting c tokens id) := by
  have hok := Reachable.ok hlimits hs
  refine ⟨fun id => ?_, fun id => ?_, fun allowed hallowed => ?_,
    fun eos allowed hallowed => hok.constrain hlimits hslot eos hallowed⟩
  · rw [hok.fitting_iff hlimits hslot]
    exact hok.continues_iff hslot id
  · obtain ⟨admitted, c', a', hallows, hadmitted, _⟩ := hok.allows hlimits hslot id
    rw [← hok.fitting_iff hlimits hslot] at hadmitted
    exact ⟨admitted, c', a', hallows, hadmitted⟩
  · obtain ⟨continuable, narrowed, c', a', happly, _, hinside, _⟩ :=
      hok.applyMask hlimits hslot hallowed
    simp only [← hok.fitting_iff hlimits hslot] at hinside
    exact ⟨continuable, narrowed, c', a', happly, hinside⟩

end Sharing

theorem bracketed_fits :
    (first bracketed).automaton.Fitting (GrammarAutomaton.new bracketed).start.1 fourBytes 0 ∧
      ¬ (first bracketed).automaton.Fitting (GrammarAutomaton.new bracketed).start.1
        fourBytes 1 := by
  have hmask := Sharing.mask_fits limits_fourBytes (reachable_first bracketed (by decide))
    (show (first bracketed).cursors[0]? = some ((GrammarAutomaton.new bracketed).start.1, []) from
      rfl)
  rw [hmask.1, hmask.1]
  constructor
  · exact ⟨[40], rfl, by decide, by decide⟩
  · rintro ⟨bytes, hbytes, _, hfollow⟩
    cases hbytes
    exact absurd hfollow (by decide)

/-- A vocabulary without the byte that a grammar starts with, and one token that
decodes to nothing. -/
def withoutStart : List (List UInt8) := [[], [98]]

/-- The end of the sequence is offered although the input is not complete. -/
theorem end_offered_incomplete :
    (((GrammarAutomaton.new bracketed).start.2.constrain
        (GrammarAutomaton.new bracketed).start.1 (TokenIndex.new withoutStart) [0]
        [true, true]).map fun result => result.1) = some [true, false] ∧
      (((GrammarAutomaton.new bracketed).start.2.isAccepting
        (GrammarAutomaton.new bracketed).start.1).map fun result => result.1) = some false := by
  decide +kernel

end Riley.Constraint
