import Riley.Constraint.AutomatonSpec

/-!
The vocabulary mask of a state. The search of the trie visits exactly the nodes
whose path the stacks of the state can follow, each of them once; the tokens
that end there are the tokens that continue the state.
-/

namespace Riley.Constraint

namespace Mask

theorem bit_eq (word : BitVec 64) (token : Nat) :
    bit word token = word.getLsbD (token % 64) := by
  have hone : (1#64 <<< (token % 64)) = BitVec.twoPow 64 (token % 64) := by
    rw [BitVec.twoPow_eq]
  unfold bit
  rw [hone, BitVec.and_twoPow]
  cases hbit : word.getLsbD (token % 64) with
  | false => simp
  | true =>
      have hlt : token % 64 < 64 := Nat.mod_lt _ (by decide)
      simp only [if_true, decide_eq_true_eq]
      intro hzero
      have hget := congrArg (fun value : BitVec 64 => value.getLsbD (token % 64)) hzero
      simp [hlt] at hget

theorem admits_set {mask mask' : Mask} {token : Nat} (h : mask.set token = some mask')
    (id : Nat) : mask'.admits id = true ↔ mask.admits id = true ∨ id = token := by
  unfold set at h
  split at h
  · rename_i hlt
    cases h
    unfold admits
    rw [List.getElem?_modify]
    by_cases hword : token / 64 = id / 64
    · rw [hword] at hlt
      rw [List.getElem?_eq_getElem hlt]
      have hmod : id % 64 < 64 := Nat.mod_lt _ (by decide)
      have hsame : id = token ↔ id % 64 = token % 64 := by omega
      simp only [hword, if_true, Option.map_eq_map, Option.map_some, Option.any_some, bit_eq,
        BitVec.getLsbD_or, Bool.or_eq_true, hsame]
      constructor
      · rintro (hold | hnew)
        · exact Or.inl hold
        · rw [← BitVec.twoPow_eq, BitVec.getLsbD_twoPow] at hnew
          simp only [Bool.and_eq_true, decide_eq_true_eq] at hnew
          exact Or.inr hnew.2.symm
      · rintro (hold | hnew)
        · exact Or.inl hold
        · rw [← BitVec.twoPow_eq, BitVec.getLsbD_twoPow]
          simp [hnew]
          omega
    · have hne : id ≠ token := fun heq => hword (by rw [heq])
      simp only [hword, if_false, Option.map_eq_map, hne, or_false]
      rw [Option.map_id']
  · cases h

theorem length_set {mask mask' : Mask} {token : Nat} (h : mask.set token = some mask') :
    mask'.length = mask.length := by
  unfold set at h
  split at h
  · cases h
    rw [List.length_modify]
  · cases h

/-- Setting the bits of tokens that the words cover sets just these. -/
theorem setAll_spec (group : List Nat) (mask : Mask)
    (h : ∀ token ∈ group, token / 64 < mask.length) :
    ∃ mask', mask.setAll group = some mask' ∧ mask'.length = mask.length ∧
      ∀ id, mask'.admits id = true ↔ mask.admits id = true ∨ id ∈ group := by
  induction group generalizing mask with
  | nil => exact ⟨mask, rfl, rfl, fun id => by simp⟩
  | cons token rest ih =>
      obtain ⟨middle, hmiddle⟩ : ∃ middle, mask.set token = some middle := by
        unfold set
        rw [if_pos (h token List.mem_cons_self)]
        exact ⟨_, rfl⟩
      have hlength := length_set hmiddle
      obtain ⟨mask', hall, hwords, hbits⟩ := ih middle fun other hother => by
        rw [hlength]
        exact h other (List.mem_cons_of_mem _ hother)
      refine ⟨mask', ?_, hwords.trans hlength, fun id => ?_⟩
      · unfold setAll
        rw [hmiddle, Option.bind_some]
        exact hall
      · rw [hbits, admits_set hmiddle, List.mem_cons, or_assoc]

theorem admits_new (vocabularySize id : Nat) : (Mask.new vocabularySize).admits id = false := by
  unfold admits new
  rw [List.getElem?_replicate]
  split
  · simp [bit]
  · rfl

end Mask

namespace GrammarAutomaton

variable {g : Grammar} {tokens : List (List UInt8)} {room : Finset (List Stack)}

section Search

/-- The children of one node that the stack set of the node can enter. -/
theorem descend_grown {a : GrammarAutomaton g} (edges : List (UInt8 × Nat))
    (h : Interned tokens a) (hwithin : Within room a) (hroom : room.card ≤ DEAD) {state : Nat}
    {stackSet : List Stack} (hstate : a.Holds state stackSet)
    (hmem : ∀ byte child, (byte, child) ∈ edges → g.advanceStacks stackSet byte ≠ [] →
      g.advanceStacks stackSet byte ∈ room) (pending : List (Nat × Nat)) :
    ∃ added a', a.descend state pending edges = some (added ++ pending, a') ∧
      Grown tokens room a a' ∧ (added.map Prod.fst).reverse.Sublist (edges.map Prod.snd) ∧
      (∀ child next, (child, next) ∈ added → ∃ byte, (byte, child) ∈ edges ∧
        g.advanceStacks stackSet byte ≠ [] ∧ a'.Holds next (g.advanceStacks stackSet byte)) ∧
      ∀ byte child, (byte, child) ∈ edges → g.advanceStacks stackSet byte ≠ [] →
        child ∈ added.map Prod.fst := by
  induction edges generalizing a pending with
  | nil =>
      refine ⟨[], a, rfl, Grown.refl h hwithin, List.Sublist.refl _, ?_, ?_⟩
      · exact fun _ _ hnone => absurd hnone List.not_mem_nil
      · exact fun _ _ hnone => absurd hnone List.not_mem_nil
  | cons edge rest ih =>
      obtain ⟨byte, child⟩ := edge
      obtain ⟨next, middle, hstep, hgrown, hleads⟩ := step_grown h hwithin hroom hstate
        (hmem byte child List.mem_cons_self)
      have hrest := fun pending => ih hgrown.interned hgrown.within (hgrown.holds _ _ hstate)
        (fun other otherChild hother =>
          hmem other otherChild (List.mem_cons_of_mem _ hother)) pending
      simp only [descend, hstep, Option.bind_eq_bind, Option.bind_some]
      rcases hleads with ⟨hdead, rfl⟩ | ⟨hlive, hnext⟩
      · rw [if_pos rfl]
        obtain ⟨added, a', hdescend, hgrown', hsub, hsound, hcomplete⟩ := hrest pending
        refine ⟨added, a', hdescend, hgrown.trans hgrown', hsub.cons _, ?_, ?_⟩
        · intro other state' hother
          obtain ⟨otherByte, hedge, hrest⟩ := hsound other state' hother
          exact ⟨otherByte, List.mem_cons_of_mem _ hedge, hrest⟩
        · intro otherByte other hedge hotherLive
          rcases List.mem_cons.mp hedge with heq | htail
          · cases heq
            exact absurd hdead hotherLive
          · exact hcomplete otherByte other htail hotherLive
      · have hne : next ≠ DEAD := by
          have hlt := hnext.lt
          have hsmall := hgrown.interned.small
          omega
        rw [if_neg hne]
        obtain ⟨added, a', hdescend, hgrown', hsub, hsound, hcomplete⟩ :=
          hrest ((child, next) :: pending)
        refine ⟨added ++ [(child, next)], a', ?_, hgrown.trans hgrown', ?_, ?_, ?_⟩
        · rw [hdescend, List.append_assoc, List.singleton_append]
        · rw [List.map_append, List.reverse_append, List.map_cons, List.map_cons]
          exact hsub.cons_cons _
        · intro other state' hother
          rcases List.mem_append.mp hother with hbefore | hlast
          · obtain ⟨otherByte, hedge, hrest⟩ := hsound other state' hbefore
            exact ⟨otherByte, List.mem_cons_of_mem _ hedge, hrest⟩
          · cases List.mem_singleton.mp hlast
            exact ⟨byte, List.mem_cons_self, hlive, hgrown'.holds _ _ hnext⟩
        · intro otherByte other hedge hotherLive
          rw [List.map_append, List.mem_append]
          rcases List.mem_cons.mp hedge with heq | htail
          · cases heq
            exact Or.inr List.mem_cons_self
          · exact Or.inl (hcomplete otherByte other htail hotherLive)

/-- The nodes that are visited or wait on the stack of the search. -/
abbrev seen (done : List Nat) (pending : List (Nat × Nat)) : List Nat :=
  done ++ pending.map Prod.fst

/-- What holds between two turns of the loop of `compute_mask` that started at
the state of a stack set. -/
structure Searching (tokens : List (List UInt8)) (paths : List (List UInt8))
    (room : Finset (List Stack)) (stackSet : List Stack) (done : List Nat)
    (pending : List (Nat × Nat)) (mask : Mask) (a : GrammarAutomaton g) : Prop where
  interned : Interned tokens a
  within : Within room a
  entered : ∀ node state, (node, state) ∈ pending → ∃ spelled last,
    paths[node]? = some spelled ∧ g.follow stackSet spelled = some last ∧ a.Holds state last
  visited : ∀ node ∈ done, ∃ spelled, paths[node]? = some spelled ∧
    (g.follow stackSet spelled).isSome
  distinct : (seen done pending).Nodup
  rooted : 0 ∈ seen done pending
  parents : ∀ child ∈ seen done pending, 0 < child →
    ∃ node ∈ done, ∃ byte, Lists (TokenIndex.trie tokens).children node (byte, child)
  closed : ∀ node ∈ done, ∀ byte child,
    Lists (TokenIndex.trie tokens).children node (byte, child) → ∀ spelled,
      paths[child]? = some spelled → (g.follow stackSet spelled).isSome →
        child ∈ seen done pending
  words : mask.length = (tokens.length + 63) / 64
  bits : ∀ id, mask.admits id = true ↔
    ∃ node ∈ done, Lists (TokenIndex.trie tokens).terminals node id

variable {paths : List (List UInt8)} {stackSet : List Stack} {done : List Nat}
variable {pending : List (Nat × Nat)} {mask : Mask} {a : GrammarAutomaton g}

/-- The trie of the vocabulary together with the paths that its nodes spell. -/
structure Spelled (tokens : List (List UInt8)) (paths : List (List UInt8)) : Prop where
  fits : TokenIndex.Fits tokens
  indexes : Trie.Indexes (fun id => tokens.getD id []) (TokenIndex.order tokens)
    (TokenIndex.trie tokens) paths
  size : (TokenIndex.trie tokens).children.length ≤ tokens.flatten.length + 1

theorem exists_spelled (h : TokenIndex.Fits tokens) : ∃ paths, Spelled tokens paths := by
  obtain ⟨paths, hindexes, hsize⟩ := TokenIndex.trie_indexes h.count h.bytes
  exact ⟨paths, h, hindexes, hsize⟩

/-- A token at a node continues the stack set that follows the path of the node. -/
theorem Spelled.token (h : Spelled tokens paths) {node id : Nat}
    (hid : Lists (TokenIndex.trie tokens).terminals node id) :
    ∃ bytes, tokens[id]? = some bytes ∧ bytes ≠ [] ∧ paths[node]? = some bytes := by
  obtain ⟨hmem, hpath⟩ := h.indexes.sound node id hid
  obtain ⟨bytes, hbytes, hne⟩ := (TokenIndex.mem_order h.fits.count).mp hmem
  rw [List.getD_eq_getElem?_getD, hbytes, Option.getD_some] at hpath
  exact ⟨bytes, hbytes, hne, hpath⟩

theorem Searching.seen_lt (h : Searching tokens paths room stackSet done pending mask a)
    (hspelled : Spelled tokens paths) :
    ∀ node ∈ seen done pending, node < (TokenIndex.trie tokens).children.length := by
  intro node hnode
  rcases List.mem_append.mp hnode with hdone | hwaits
  · obtain ⟨spelled, hpath, _⟩ := h.visited node hdone
    exact hspelled.indexes.spells.node_lt hpath
  · obtain ⟨⟨_, state⟩, hentry, rfl⟩ := List.mem_map.mp hwaits
    obtain ⟨spelled, _, hpath, _⟩ := h.entered _ state hentry
    exact hspelled.indexes.spells.node_lt hpath

theorem Searching.seen_length (h : Searching tokens paths room stackSet done pending mask a)
    (hspelled : Spelled tokens paths) :
    (seen done pending).length ≤ (TokenIndex.trie tokens).children.length := by
  have hsub : seen done pending ⊆ List.range (TokenIndex.trie tokens).children.length :=
    fun node hnode => List.mem_range.mpr (h.seen_lt hspelled node hnode)
  have hle := (List.subperm_of_subset h.distinct hsub).length_le
  rwa [List.length_range] at hle

/-- The counted sets hold every set that the search can enter. -/
def CoversPaths (g : Grammar) (room : Finset (List Stack)) (stackSet : List Stack)
    (paths : List (List UInt8)) : Prop :=
  ∀ spelled last, spelled ∈ paths → g.follow stackSet spelled = some last → last ∈ room

theorem follow_concat {first last : List Stack} {spelled : List UInt8} {byte : UInt8}
    (h : g.follow first spelled = some last) :
    g.follow first (spelled ++ [byte]) =
      if g.advanceStacks last byte = [] then none else some (g.advanceStacks last byte) := by
  rw [Grammar.follow_append, h, Option.bind_some]
  rfl

/-- One turn of the loop: the tokens of the node are set, its children join. -/
theorem Searching.turn {node state : Nat}
    (h : Searching tokens paths room stackSet done ((node, state) :: pending) mask a)
    (hspelled : Spelled tokens paths) (hroom : room.card ≤ DEAD)
    (hcovers : CoversPaths g room stackSet paths) :
    ∃ mask' pending' a',
      TokenIndex.slice (TokenIndex.new tokens).tokenStarts (TokenIndex.new tokens).tokens node =
        some ((TokenIndex.trie tokens).terminals.getD node []) ∧
      mask.setAll ((TokenIndex.trie tokens).terminals.getD node []) = some mask' ∧
      TokenIndex.slice (TokenIndex.new tokens).edgeStarts (TokenIndex.new tokens).edges node =
        some ((TokenIndex.trie tokens).children.getD node []) ∧
      a.descend state pending ((TokenIndex.trie tokens).children.getD node []) =
        some (pending', a') ∧
      Searching tokens paths room stackSet (node :: done) pending' mask' a' ∧
      Grown tokens room a a' := by
  obtain ⟨spelled, last, hpath, hfollow, hheld⟩ := h.entered node state List.mem_cons_self
  have hnode := hspelled.indexes.spells.node_lt hpath
  obtain ⟨htokens, hedges⟩ :=
    TokenIndex.slices_new hspelled.fits hspelled.indexes hspelled.size hnode
  obtain ⟨mask', hmask', hwords', hbits'⟩ := Mask.setAll_spec
    ((TokenIndex.trie tokens).terminals.getD node []) mask (by
      intro id hid
      obtain ⟨bytes, hbytes, _⟩ := hspelled.token hid
      have hlt := (List.getElem?_eq_some_iff.mp hbytes).choose
      rw [h.words]
      omega)
  -- Children that can be entered have their own entry among the paths.
  have hchild : ∀ byte child, (byte, child) ∈ (TokenIndex.trie tokens).children.getD node [] →
      paths[child]? = some (spelled ++ [byte]) := by
    intro byte child hmem
    obtain ⟨_, p, hp, hp'⟩ := hspelled.indexes.spells.edges node byte child hmem
    rw [hpath, Option.some.injEq] at hp
    rwa [← hp] at hp'
  have henter : ∀ byte child, (byte, child) ∈ (TokenIndex.trie tokens).children.getD node [] →
      g.advanceStacks last byte ≠ [] →
        g.follow stackSet (spelled ++ [byte]) = some (g.advanceStacks last byte) := by
    intro byte child _ hlive
    rw [follow_concat hfollow, if_neg hlive]
  obtain ⟨added, a', hdescend, hgrown, hsub, hsound, hcomplete⟩ := descend_grown
    ((TokenIndex.trie tokens).children.getD node []) h.interned h.within hroom hheld
    (fun byte child hmem hlive => hcovers _ _ (List.mem_of_getElem? (hchild byte child hmem))
      (henter byte child hmem hlive)) pending
  refine ⟨mask', added ++ pending, a', htokens, hmask', hedges, hdescend, ?_, hgrown⟩
  have hseen : ∀ other, other ∈ seen (node :: done) (added ++ pending) ↔
      other ∈ seen done ((node, state) :: pending) ∨ other ∈ added.map Prod.fst := by
    intro other
    simp only [seen, List.map_append, List.map_cons, List.mem_append, List.mem_cons]
    tauto
  have hnotDone : node ∉ done := by
    have hdistinct := h.distinct
    rw [List.nodup_append] at hdistinct
    exact fun hin => hdistinct.2.2 node hin node List.mem_cons_self rfl
  have haddedEdge : ∀ child ∈ added.map Prod.fst,
      ∃ byte, Lists (TokenIndex.trie tokens).children node (byte, child) := by
    intro child hchildMem
    obtain ⟨⟨_, next⟩, hentry, rfl⟩ := List.mem_map.mp hchildMem
    obtain ⟨byte, hbyte, _⟩ := hsound _ next hentry
    exact ⟨byte, hbyte⟩
  have haddedPos : ∀ child ∈ added.map Prod.fst, 0 < child := by
    intro child hchildMem
    obtain ⟨byte, hbyte⟩ := haddedEdge child hchildMem
    by_contra hzero
    have heq : child = 0 := by omega
    have hroot := hchild byte child hbyte
    rw [heq, hspelled.indexes.spells.root, Option.some.injEq] at hroot
    exact absurd hroot (by simp)
  -- A child that was seen before would have been reached through this node.
  have hfresh : ∀ child ∈ added.map Prod.fst,
      child ∉ seen done ((node, state) :: pending) := by
    intro child hchildMem hin
    obtain ⟨byte, hbyte⟩ := haddedEdge child hchildMem
    obtain ⟨parent, hparent, other, hother⟩ := h.parents child hin (haddedPos child hchildMem)
    have hsame := hspelled.indexes.spells.parent_unique hother hbyte
    rw [hsame] at hparent
    exact hnotDone hparent
  refine ⟨hgrown.interned, hgrown.within, ?_, ?_, ?_, ?_, ?_, ?_, hwords'.trans h.words, ?_⟩
  · intro child next hentry
    rcases List.mem_append.mp hentry with hnew | hold
    · obtain ⟨byte, hbyte, hlive, hnext⟩ := hsound child next hnew
      exact ⟨spelled ++ [byte], _, hchild byte child hbyte, henter byte child hbyte hlive, hnext⟩
    · obtain ⟨p, l, hp, hl, hheld'⟩ := h.entered child next (List.mem_cons_of_mem _ hold)
      exact ⟨p, l, hp, hl, hgrown.holds _ _ hheld'⟩
  · intro other hother
    rcases List.mem_cons.mp hother with rfl | hdone
    · exact ⟨spelled, hpath, by rw [hfollow]; rfl⟩
    · exact h.visited other hdone
  · have hperm : (seen (node :: done) (added ++ pending)).Perm
        (added.map Prod.fst ++ seen done ((node, state) :: pending)) := by
      simp only [seen, List.map_append, List.map_cons]
      rw [List.cons_append]
      have hmiddle : (done ++ (added.map Prod.fst ++ pending.map Prod.fst)).Perm
          (added.map Prod.fst ++ (done ++ pending.map Prod.fst)) := by
        rw [← List.append_assoc, ← List.append_assoc]
        exact List.perm_append_comm.append_right _
      apply (hmiddle.cons node).trans
      apply List.perm_middle.symm.trans
      exact List.perm_middle.symm.append_left _
    apply hperm.nodup_iff.mpr
    rw [List.nodup_append]
    refine ⟨?_, h.distinct, fun child hnew other hold heq => ?_⟩
    · apply List.nodup_reverse.mp
      exact hsub.nodup (hspelled.indexes.spells.group_nodup node)
    · rw [heq] at hnew
      exact hfresh other hnew hold
  · exact (hseen 0).mpr (Or.inl h.rooted)
  · intro child hin hpos
    rcases (hseen child).mp hin with hold | hnew
    · obtain ⟨parent, hparent, hrest⟩ := h.parents child hold hpos
      exact ⟨parent, List.mem_cons_of_mem _ hparent, hrest⟩
    · exact ⟨node, List.mem_cons_self, haddedEdge child hnew⟩
  · intro parent hparent byte child hlist p hp hsome
    apply (hseen child).mpr
    rcases List.mem_cons.mp hparent with rfl | hdone
    · apply Or.inr
      apply hcomplete byte child hlist
      intro hdead
      rw [hchild byte child hlist, Option.some.injEq] at hp
      rw [← hp, follow_concat hfollow, if_pos hdead] at hsome
      cases hsome
    · exact Or.inl (h.closed parent hdone byte child hlist p hp hsome)
  · intro id
    rw [hbits', h.bits]
    constructor
    · rintro (⟨other, hother, hlist⟩ | hnew)
      · exact ⟨other, List.mem_cons_of_mem _ hother, hlist⟩
      · exact ⟨node, List.mem_cons_self, hnew⟩
    · rintro ⟨other, hother, hlist⟩
      rcases List.mem_cons.mp hother with rfl | hdone
      · exact Or.inr hlist
      · exact Or.inl ⟨other, hdone, hlist⟩

/-- The loop ends with nothing left to visit, within the nodes of the trie. -/
theorem search_grown (hspelled : Spelled tokens paths) (hroom : room.card ≤ DEAD)
    (hcovers : CoversPaths g room stackSet paths) (fuel : Nat) {done : List Nat}
    {pending : List (Nat × Nat)} {mask : Mask} {a : GrammarAutomaton g}
    (h : Searching tokens paths room stackSet done pending mask a)
    (hfuel : (TokenIndex.trie tokens).children.length < fuel + done.length) :
    ∃ mask' done' a', search (TokenIndex.new tokens) fuel pending mask a = some (mask', a') ∧
      Searching tokens paths room stackSet done' [] mask' a' ∧ Grown tokens room a a' := by
  induction fuel generalizing done pending mask a with
  | zero =>
      have hlength := h.seen_length hspelled
      rw [seen, List.length_append] at hlength
      omega
  | succ fuel ih =>
      cases pending with
      | nil => exact ⟨mask, done, a, rfl, h, Grown.refl h.interned h.within⟩
      | cons entry pending =>
          obtain ⟨node, state⟩ := entry
          obtain ⟨mask', pending', a', htokens, hmask, hedges, hdescend, hnext, hgrown⟩ :=
            h.turn hspelled hroom hcovers
          obtain ⟨last, done', a'', hsearch, hlast, hgrown'⟩ := ih hnext (by
            rw [List.length_cons]
            omega)
          refine ⟨last, done', a'', ?_, hlast, hgrown.trans hgrown'⟩
          simp only [search, htokens, hmask, hedges, hdescend, Option.bind_eq_bind,
            Option.bind_some]
          exact hsearch

/-- When nothing waits any more, the search has entered every node that the
stack set can follow. -/
theorem Searching.complete (h : Searching tokens paths room stackSet done [] mask a)
    (hspelled : Spelled tokens paths) (node : Nat) :
    ∀ spelled, paths[node]? = some spelled → (g.follow stackSet spelled).isSome →
      node ∈ done := by
  have hseen : seen done [] = done := by simp [seen]
  induction node using Nat.strong_induction_on with
  | _ node ih =>
      intro spelled hpath hsome
      rcases Nat.eq_zero_or_pos node with rfl | hpos
      · have hrooted := h.rooted
        rwa [hseen] at hrooted
      · obtain ⟨parent, hparent, byte, hlist⟩ := hspelled.indexes.spells.parents node hpos
          (hspelled.indexes.spells.node_lt hpath)
        obtain ⟨_, p, hp, hp'⟩ := hspelled.indexes.spells.edges parent byte node hlist
        have hbefore : (g.follow stackSet p).isSome := by
          rw [hpath, Option.some.injEq] at hp'
          rw [hp', Grammar.follow_append] at hsome
          cases hfollow : g.follow stackSet p with
          | none =>
              rw [hfollow] at hsome
              cases hsome
          | some last => rfl
        have hdone := ih parent hparent p hp hbefore
        have hclosed := h.closed parent hdone byte node hlist spelled hpath hsome
        rwa [hseen] at hclosed

theorem Searching.maskOk (h : Searching tokens paths room stackSet done [] mask a)
    (hspelled : Spelled tokens paths) : MaskOk g tokens stackSet mask := by
  refine ⟨h.words, fun id => ?_⟩
  rw [h.bits]
  constructor
  · rintro ⟨node, hnode, hlist⟩
    obtain ⟨bytes, hbytes, hne, hpath⟩ := hspelled.token hlist
    obtain ⟨spelled, hspelledPath, hsome⟩ := h.visited node hnode
    rw [hpath, Option.some.injEq] at hspelledPath
    rw [← hspelledPath] at hsome
    exact ⟨bytes, hbytes, hne, hsome⟩
  · rintro ⟨bytes, hbytes, hne, hsome⟩
    have hmem := (TokenIndex.mem_order hspelled.fits.count).mpr ⟨bytes, hbytes, hne⟩
    obtain ⟨node, hlist⟩ := hspelled.indexes.complete id hmem
    obtain ⟨other, hother, _, hpath⟩ := hspelled.token hlist
    rw [hbytes, Option.some.injEq] at hother
    rw [← hother] at hpath
    exact ⟨node, h.complete hspelled node bytes hpath hsome, hlist⟩

theorem computeMask_grown (hspelled : Spelled tokens paths) (hroom : room.card ≤ DEAD)
    (hcovers : CoversPaths g room stackSet paths) (h : Interned tokens a)
    (hwithin : Within room a) {state : Nat} (hstate : a.Holds state stackSet) :
    ∃ mask a', a.computeMask state (TokenIndex.new tokens) = some (mask, a') ∧
      MaskOk g tokens stackSet mask ∧ Grown tokens room a a' := by
  have hstart : Searching tokens paths room stackSet [] [(0, state)]
      (Mask.new tokens.length) a := by
    refine ⟨h, hwithin, ?_, ?_, List.nodup_singleton 0, List.mem_singleton_self 0, ?_, ?_, ?_, ?_⟩
    · intro node other hentry
      cases List.mem_singleton.mp hentry
      exact ⟨[], stackSet, hspelled.indexes.spells.root, rfl, hstate⟩
    · exact fun _ hnone => absurd hnone List.not_mem_nil
    · intro child hchild hpos
      rw [List.mem_singleton.mp hchild] at hpos
      exact absurd hpos (Nat.lt_irrefl 0)
    · exact fun _ hnone => absurd hnone List.not_mem_nil
    · exact List.length_replicate
    · intro id
      rw [Mask.admits_new]
      simp
  have hlength : (TokenIndex.new tokens).edgeStarts.length =
      (TokenIndex.trie tokens).children.length + 1 := by
    change (TokenIndex.starts (TokenIndex.trie tokens).children).length = _
    rw [TokenIndex.starts, List.length_map, List.length_scanl, List.length_map]
  obtain ⟨mask, done, a', hsearch, hlast, hgrown⟩ := search_grown hspelled hroom hcovers
    (TokenIndex.new tokens).edgeStarts.length hstart (by
      rw [hlength]
      exact Nat.lt_succ_self _)
  exact ⟨mask, a', hsearch, hlast.maskOk hspelled, hgrown⟩

end Search

end GrammarAutomaton

end Riley.Constraint
