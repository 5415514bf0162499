import Mathlib
import Riley.PagedKv.CallSpec
import Riley.PagedKv.ReclaimSpec
import Riley.Library.Focus

/-!
The invariant of a pool and its sequences under every order of public calls.
The holds of the tables, of the tokens and of the callers are the books of the
pool, and every sequence has an identity of its own.
-/

namespace Riley.PagedKv

open Outcome Focus

namespace KvSystem

def exclusiveOf : Option SequenceState → Multiset (BlockId × SequenceId)
  | none => 0
  | some seq => seq.exclusiveHolds

def sharedOf : Option SequenceState → Multiset BlockId
  | none => 0
  | some seq => seq.sharedHolds

def identityOf : Option SequenceState → Multiset SequenceId
  | none => 0
  | some seq => {seq.sequenceId}

/-- The private holds of these sequences and tokens. -/
def exclusiveHolds (sequences : List (Option SequenceState))
    (tokens : List SequenceReclaimToken) : Multiset (BlockId × SequenceId) :=
  (sequences.map exclusiveOf).sum + (tokens.map SequenceReclaimToken.exclusiveHolds).sum

def sharedHolds (sequences : List (Option SequenceState))
    (tokens : List SequenceReclaimToken) (owed : Multiset BlockId) : Multiset BlockId :=
  (sequences.map sharedOf).sum + ((tokens.map SequenceReclaimToken.sharedHolds).sum + owed)

def identities (sequences : List (Option SequenceState))
    (tokens : List SequenceReclaimToken) : Multiset SequenceId :=
  (sequences.map identityOf).sum + (tokens.map SequenceReclaimToken.owner : List SequenceId)

end KvSystem

open KvSystem

structure SystemOk (layout : KvLayout) (system : KvSystem) : Prop where
  layout : system.pool.layout = layout
  owns : Owns system.pool (exclusiveHolds system.sequences system.tokens)
    (sharedHolds system.sequences system.tokens system.owed)
  table : ∀ (index : Nat) (seq : SequenceState), system.sequences[index]? = some (some seq) →
    SequenceTable system.pool seq ∧ seq.blockIds.length ≤ seq.maximumBlockCount ∧
      seq.maximumLogicalLength ≤ longestWholeLength
  token : ∀ token ∈ system.tokens, token.owner.poolCookie = system.pool.cookie ∧
    token.owner.value ≠ sharedBlockOwner ∧ token.owner.value < system.pool.nextSequenceId
  identity : (identities system.sequences system.tokens).Nodup

section Sequences

variable {layout : KvLayout} {system : KvSystem} {index : Nat} {seq : SequenceState}

/-- The holds of all the rest, seen from one sequence. -/
def exclusiveBeside (system : KvSystem) (index : Nat) : Multiset (BlockId × SequenceId) :=
  exclusiveHolds (system.sequences.eraseIdx index) system.tokens

def sharedBeside (system : KvSystem) (index : Nat) : Multiset BlockId :=
  sharedHolds (system.sequences.eraseIdx index) system.tokens system.owed

theorem holds_set (hseq : system.sequences[index]? = some (some seq))
    (next : Option SequenceState) (tokens : List SequenceReclaimToken)
    (owed : Multiset BlockId) :
    exclusiveHolds (system.sequences.set index next) tokens =
      exclusiveOf next + exclusiveHolds (system.sequences.eraseIdx index) tokens ∧
    sharedHolds (system.sequences.set index next) tokens owed =
      sharedOf next + sharedHolds (system.sequences.eraseIdx index) tokens owed ∧
    identities (system.sequences.set index next) tokens =
      identityOf next + identities (system.sequences.eraseIdx index) tokens := by
  unfold exclusiveHolds sharedHolds identities
  rw [sum_set hseq, sum_set hseq, sum_set hseq, add_assoc, add_assoc, add_assoc]
  exact ⟨rfl, rfl, rfl⟩

theorem set_self (hseq : system.sequences[index]? = some (some seq)) :
    system.sequences.set index (some seq) = system.sequences := by
  obtain ⟨hlt, hget⟩ := List.getElem?_eq_some_iff.mp hseq
  rw [← hget]
  exact List.set_getElem_self hlt

theorem SystemOk.held (h : SystemOk layout system) (hseq : system.sequences[index]? = some (some seq)) :
    Held (exclusiveBeside system index) (sharedBeside system index) system.pool seq := by
  obtain ⟨htable, hcapacity, _⟩ := h.table index seq hseq
  obtain ⟨hexclusive, hshared, _⟩ := holds_set hseq (some seq) system.tokens system.owed
  rw [set_self hseq] at hexclusive hshared
  have howns := h.owns
  rw [hexclusive, hshared] at howns
  exact ⟨htable, howns, hcapacity⟩

/-- A sequence that changed keeps the books when it kept its own. -/
theorem SystemOk.changed (h : SystemOk layout system)
    (hseq : system.sequences[index]? = some (some seq)) {state : KvState}
    {owed : Multiset BlockId}
    (hkeeps : CallKeeps (exclusiveBeside system index)
      (sharedHolds (system.sequences.eraseIdx index) system.tokens owed) system.pool seq state) :
    SystemOk layout { system.withSequence index state with owed := owed } := by
  obtain ⟨hexclusive, hshared, hidentity⟩ := holds_set hseq (some state.seq) system.tokens owed
  constructor
  · exact hkeeps.advances.layout.trans h.layout
  · have howns := hkeeps.held.owns
    change Owns state.pool
      (exclusiveHolds (system.sequences.set index (some state.seq)) system.tokens)
      (sharedHolds (system.sequences.set index (some state.seq)) system.tokens owed)
    rw [hexclusive, hshared]
    exact howns
  · intro other found hfound
    change (system.sequences.set index (some state.seq))[other]? = some (some found) at hfound
    rw [List.getElem?_set] at hfound
    split_ifs at hfound with hsame hlt
    · cases hfound
      have hmaximum := (h.table index seq hseq).2.2
      rw [← hkeeps.maximum] at hmaximum
      exact ⟨hkeeps.held.table, hkeeps.held.capacity, hmaximum⟩
    · obtain ⟨htable, hrest⟩ := h.table other found hfound
      exact ⟨htable.advance hkeeps.advances, hrest⟩
  · intro token htoken
    obtain ⟨hcookie, hpos, hlt⟩ := h.token token htoken
    exact ⟨hcookie.trans hkeeps.advances.cookie.symm, hpos,
      Nat.lt_of_lt_of_le hlt hkeeps.advances.next_le⟩
  · change (identities (system.sequences.set index (some state.seq)) system.tokens).Nodup
    rw [hidentity]
    have hnodup := h.identity
    have hold := (holds_set hseq (some seq) system.tokens owed).2.2
    rw [set_self hseq] at hold
    rw [hold] at hnodup
    have hsame : identityOf (some state.seq) = identityOf (some seq) :=
      congrArg (fun owner : SequenceId => ({owner} : Multiset SequenceId)) hkeeps.identity
    rwa [hsame]

/-- An abandoned sequence leaves its holds to its token. -/
theorem SystemOk.abandoned (h : SystemOk layout system)
    (hseq : system.sequences[index]? = some (some seq)) :
    SystemOk layout
      { system with
        sequences := system.sequences.set index none
        tokens := seq.abandonForReclaim :: system.tokens } := by
  obtain ⟨hexclusive, hshared, hidentity⟩ := holds_set hseq none
    (seq.abandonForReclaim :: system.tokens) system.owed
  obtain ⟨hexclusive', hshared', hidentity'⟩ := holds_set hseq (some seq) system.tokens
    system.owed
  rw [set_self hseq] at hexclusive' hshared' hidentity'
  constructor
  · exact h.layout
  · have howns := h.owns
    rw [hexclusive', hshared'] at howns
    rw [hexclusive, hshared]
    unfold exclusiveHolds sharedHolds at howns ⊢
    rw [List.map_cons, List.sum_cons, List.map_cons, List.sum_cons]
    have hmoved : exclusiveOf none + (((system.sequences.eraseIdx index).map exclusiveOf).sum +
        (seq.abandonForReclaim.exclusiveHolds +
          (system.tokens.map SequenceReclaimToken.exclusiveHolds).sum)) =
        exclusiveOf (some seq) + (((system.sequences.eraseIdx index).map exclusiveOf).sum +
          (system.tokens.map SequenceReclaimToken.exclusiveHolds).sum) := by
      rw [add_left_comm (exclusiveOf (some seq))]
      exact (zero_add _).trans rfl
    have hmoved' : sharedOf none + (((system.sequences.eraseIdx index).map sharedOf).sum +
        (seq.abandonForReclaim.sharedHolds +
          (system.tokens.map SequenceReclaimToken.sharedHolds).sum + system.owed)) =
        sharedOf (some seq) + (((system.sequences.eraseIdx index).map sharedOf).sum +
          ((system.tokens.map SequenceReclaimToken.sharedHolds).sum + system.owed)) := by
      rw [add_left_comm (sharedOf (some seq)), add_assoc]
      exact (zero_add _).trans rfl
    rw [hmoved, hmoved']
    exact howns
  · intro other found hfound
    change (system.sequences.set index none)[other]? = some (some found) at hfound
    rw [List.getElem?_set] at hfound
    split_ifs at hfound
    · cases hfound
    · exact h.table other found hfound
  · intro token htoken
    rcases List.mem_cons.mp htoken with rfl | hold
    · obtain ⟨htable, _⟩ := h.table index seq hseq
      exact ⟨htable.id_cookie, htable.id_pos, htable.id_lt⟩
    · exact h.token token hold
  · have hnodup := h.identity
    rw [hidentity'] at hnodup
    rw [hidentity]
    unfold identities at hnodup ⊢
    have hmoved : identityOf none + (((system.sequences.eraseIdx index).map identityOf).sum +
        ((seq.abandonForReclaim :: system.tokens).map SequenceReclaimToken.owner :
          List SequenceId)) =
        identityOf (some seq) + (((system.sequences.eraseIdx index).map identityOf).sum +
          (system.tokens.map SequenceReclaimToken.owner : List SequenceId)) := by
      rw [add_left_comm (identityOf (some seq)), List.map_cons, ← Multiset.cons_coe,
        ← Multiset.singleton_add]
      exact (zero_add _).trans rfl
    rwa [hmoved]

end Sequences

section Pool

variable {layout : KvLayout} {system : KvSystem}

/-- A change of the pool alone that settles the books. -/
theorem SystemOk.settled (h : SystemOk layout system) {pool : KvBlockPool}
    {tokens redeemed : List SequenceReclaimToken} {owed : Multiset BlockId}
    (howns : Owns pool (exclusiveHolds system.sequences tokens)
      (sharedHolds system.sequences tokens owed))
    (hadv : Advances system.pool pool) (htokens : tokens.Sublist system.tokens) :
    SystemOk layout ⟨pool, system.sequences, tokens, redeemed, owed⟩ := by
  apply SystemOk.mk (hadv.layout.trans h.layout) howns
  · intro index seq hseq
    obtain ⟨htable, hrest⟩ := h.table index seq hseq
    exact ⟨htable.advance hadv, hrest⟩
  · intro token htoken
    obtain ⟨hcookie, hpos, hlt⟩ := h.token token (htokens.subset htoken)
    exact ⟨hcookie.trans hadv.cookie.symm, hpos, Nat.lt_of_lt_of_le hlt hadv.next_le⟩
  · apply Multiset.nodup_of_le _ h.identity
    exact Multiset.add_le_add_left (Multiset.coe_le.mpr (htokens.map _).subperm)

theorem SystemOk.released (h : SystemOk layout system) {block : BlockId} {pool : KvBlockPool}
    (hrun : KvBlockPool.releaseSharedBlock block system.pool = .ok () pool)
    (howed : block ∈ system.owed) :
    SystemOk layout { system with pool := pool, owed := system.owed.erase block } := by
  have howns := h.owns
  unfold sharedHolds at howns
  rw [← Multiset.cons_erase howed, Multiset.add_cons, Multiset.add_cons] at howns
  obtain ⟨howns', hadv, _⟩ := (wp_elim howns.releaseSharedBlock).1 _ _ hrun
  exact h.settled howns' hadv (List.Sublist.refl _)

/-- A release that fails changes nothing. -/
theorem releaseSharedBlock_error {block : BlockId} {pool pool' : KvBlockPool}
    {error : PagedKvError} (hrun : KvBlockPool.releaseSharedBlock block pool = .error error pool') :
    pool' = pool := by
  have hwp : wp (KvBlockPool.releaseSharedBlock block) (fun _ _ => True)
      (fun _ pool' => pool' = pool) pool := by
    unfold KvBlockPool.releaseSharedBlock
    apply wp_read
    apply wp_seq
    rw [wp_fromExcept]
    exact ⟨fun _ _ => rfl, fun _ _ => trivial⟩
  exact (wp_elim hwp).2 _ _ hrun

/-- Private holds bear the identities of the sequences that keep them. -/
theorem mem_identities {sequences : List (Option SequenceState)}
    {tokens : List SequenceReclaimToken} {hold : BlockId × SequenceId}
    (h : hold ∈ exclusiveHolds sequences tokens) : hold.2 ∈ identities sequences tokens := by
  unfold exclusiveHolds at h
  unfold identities
  rw [Multiset.mem_add, mem_sum_map, mem_sum_map] at h
  rw [Multiset.mem_add, mem_sum_map, Multiset.mem_coe, List.mem_map]
  rcases h with ⟨slot, hslot, hhold⟩ | ⟨token, htoken, hhold⟩
  · left
    refine ⟨slot, hslot, ?_⟩
    cases slot with
    | none => exact absurd hhold (Multiset.notMem_zero _)
    | some seq =>
        obtain ⟨block, _, rfl⟩ := List.mem_map.mp (Multiset.mem_coe.mp hhold)
        exact Multiset.mem_singleton_self _
  · right
    obtain ⟨block, _, rfl⟩ := List.mem_map.mp (Multiset.mem_coe.mp hhold)
    exact ⟨token, htoken, rfl⟩

/-- Redeeming a token outstanding settles its holds, and cannot fail. -/
theorem SystemOk.reclaims (h : SystemOk layout system) {token : SequenceReclaimToken}
    (htoken : token ∈ system.tokens) :
    wp (KvBlockPool.reclaimSequence token)
      (fun _ pool => SystemOk layout
        { system with
          pool := pool
          tokens := system.tokens.erase token
          redeemed := token :: system.redeemed })
      (fun _ _ => False) system.pool := by
  obtain ⟨hcookie, hpos, _⟩ := h.token token htoken
  have howns := h.owns
  unfold exclusiveHolds sharedHolds at howns
  rw [sum_erase htoken, sum_erase htoken, add_assoc, add_left_comm,
    add_left_comm (system.sequences.map sharedOf).sum] at howns
  have hidentity := h.identity
  unfold identities at hidentity
  have hperm := (List.perm_cons_erase htoken).map SequenceReclaimToken.owner
  rw [Multiset.coe_eq_coe.mpr hperm, List.map_cons, ← Multiset.cons_coe, Multiset.add_cons,
    Multiset.nodup_cons] at hidentity
  apply wp_mono (wp_reclaimSequence howns hcookie hpos _)
  · rintro _ pool ⟨howns', hadv⟩
    exact h.settled howns' hadv List.erase_sublist
  · exact fun _ _ hfalse => hfalse
  · intro hold hhold heq
    apply hidentity.1
    rw [← heq]
    exact mem_identities hhold

end Pool

section Create

variable {layout : KvLayout} {system : KvSystem} {maximum : Nat} {host : List Bool}
  {left : KvBlockPool × List Bool}

/-- A sequence is made from a length that the table can address. -/
theorem createSequence_bounds {pool : KvBlockPool} {seq : SequenceState}
    (hrun : KvBlockPool.createSequence maximum (pool, host) = .ok seq left) :
    0 < maximum ∧ maximum ≤ u32Max := by
  have hwp : wp (KvBlockPool.createSequence maximum)
      (fun _ _ => 0 < maximum ∧ maximum ≤ u32Max) (fun _ _ => True) (pool, host) := by
    rcases Classical.em (0 < maximum ∧ maximum ≤ u32Max) with hbounds | hout
    · apply wp_mono (wp_createSequence hbounds.1 hbounds.2)
      · exact fun _ _ _ => hbounds
      · exact fun _ _ _ => trivial
    · unfold KvBlockPool.createSequence
      apply wp_check (fun _ => trivial)
      intro hpos
      apply wp_check (fun _ => trivial)
      intro hmax
      exact absurd ⟨Nat.pos_of_ne_zero hpos, Nat.le_of_not_lt hmax⟩ hout
  exact (wp_elim hwp).1 _ _ hrun

theorem createSequence_error {pool : KvBlockPool} {error : PagedKvError}
    (hrun : KvBlockPool.createSequence maximum (pool, host) = .error error left) :
    left.1 = pool := by
  have hwp : wp (KvBlockPool.createSequence maximum) (fun _ _ => True)
      (fun _ left => left.1 = pool) (pool, host) := by
    rcases Classical.em (0 < maximum ∧ maximum ≤ u32Max) with hbounds | hout
    · apply wp_mono (wp_createSequence hbounds.1 hbounds.2)
      · exact fun _ _ _ => trivial
      · exact fun _ _ hleft => hleft.1
    · unfold KvBlockPool.createSequence
      apply wp_check
      · exact fun _ => rfl
      intro hpos
      apply wp_check
      · exact fun _ => rfl
      intro hmax
      exact absurd ⟨Nat.pos_of_ne_zero hpos, Nat.le_of_not_lt hmax⟩ hout
  exact (wp_elim hwp).2 _ _ hrun

/-- Every identity on the books was handed out by the pool. -/
theorem SystemOk.identity_lt (h : SystemOk layout system) {owner : SequenceId}
    (hmem : owner ∈ identities system.sequences system.tokens) :
    owner.value < system.pool.nextSequenceId := by
  unfold identities at hmem
  rw [Multiset.mem_add, mem_sum_map, Multiset.mem_coe, List.mem_map] at hmem
  rcases hmem with ⟨slot, hslot, howner⟩ | ⟨token, htoken, rfl⟩
  · cases slot with
    | none => exact absurd howner (Multiset.notMem_zero _)
    | some seq =>
        obtain ⟨index, hindex⟩ := List.mem_iff_getElem?.mp hslot
        rw [Multiset.mem_singleton.mp howner]
        exact (h.table index seq hindex).1.id_lt
  · exact (h.token token htoken).2.2

theorem SystemOk.created (h : SystemOk layout system) {seq : SequenceState}
    (hrun : KvBlockPool.createSequence maximum (system.pool, host) = .ok seq left)
    (hmaximum : maximum ≤ longestWholeLength) :
    SystemOk layout { system with pool := left.1, sequences := system.sequences ++ [some seq] } := by
  obtain ⟨hpos, hmax⟩ := createSequence_bounds hrun
  obtain ⟨rfl, hpool, _⟩ := (wp_elim (wp_createSequence hpos hmax)).1 _ _ hrun
  have honly := onlyShared_nextSequence h.owns.ok.next_pos hmax
  rw [hpool]
  constructor
  · exact h.layout
  · have hexclusive : exclusiveHolds (system.sequences ++ [some (system.pool.nextSequence
        maximum)]) system.tokens = exclusiveHolds system.sequences system.tokens := by
      unfold exclusiveHolds
      rw [List.map_append, List.sum_append]
      exact congrArg (· + _) (add_zero _)
    have hshared : sharedHolds (system.sequences ++ [some (system.pool.nextSequence
        maximum)]) system.tokens system.owed =
        sharedHolds system.sequences system.tokens system.owed := by
      unfold sharedHolds
      rw [List.map_append, List.sum_append]
      exact congrArg (· + _) (add_zero _)
    rw [hexclusive, hshared]
    exact h.owns.withNextSequence
  · intro index found hfound
    rw [List.getElem?_append] at hfound
    split_ifs at hfound with hlt
    · obtain ⟨htable, hrest⟩ := h.table index found hfound
      exact ⟨htable.advance (advances_withNextSequence _), hrest⟩
    · obtain rfl := Option.some.inj (List.mem_singleton.mp (List.mem_of_getElem? hfound))
      exact ⟨honly.idle.ok.toSequenceTable, Nat.zero_le _, hmaximum⟩
  · intro token htoken
    obtain ⟨hcookie, hne, hlt⟩ := h.token token htoken
    exact ⟨hcookie, hne, Nat.lt_succ_of_lt hlt⟩
  · have hidentity : identities (system.sequences ++ [some (system.pool.nextSequence
        maximum)]) system.tokens =
        ⟨system.pool.cookie, system.pool.nextSequenceId⟩ ::ₘ
          identities system.sequences system.tokens := by
      unfold identities
      rw [List.map_append, List.sum_append, add_right_comm, add_comm, ← Multiset.singleton_add]
      exact congrArg (· + _) (add_zero _)
    rw [hidentity]
    apply Multiset.nodup_cons.mpr
    refine ⟨fun hmem => ?_, h.identity⟩
    exact Nat.lt_irrefl _ (h.identity_lt hmem)

end Create

/-- A new pool is in order. -/
theorem systemOk_start (cookie : Nat) (layout : KvLayout) :
    SystemOk layout (KvSystem.start cookie layout) where
  layout := rfl
  owns := owns_new cookie layout
  table := by
    intro index seq hseq
    cases hseq
  token := by
    intro token htoken
    cases htoken
  identity := Multiset.nodup_zero

theorem SystemOk.step {layout : KvLayout} {system next : KvSystem} (h : SystemOk layout system)
    (hstep : KvSystem.Step true system next) : SystemOk layout next := by
  cases hstep with
  | create hrun hmaximum => exact h.created hrun (hmaximum rfl)
  | createFails hrun =>
      rw [createSequence_error hrun]
      exact h
  | call call hseq =>
      exact h.changed hseq ((h.held hseq).call (h.table _ _ hseq).2.2 call)
  | share hseq hrun =>
      have hkeeps := (wp_elim (h.held hseq).shareNextBlock).1 _ _ hrun
      apply h.changed hseq
      unfold sharedBeside sharedHolds at hkeeps
      rwa [← Multiset.add_cons, ← Multiset.add_cons] at hkeeps
  | shareFails hseq hrun =>
      exact h.changed hseq ((wp_elim (h.held hseq).shareNextBlock).2 _ _ hrun)
  | release hrun howed => exact h.released hrun (howed rfl)
  | releaseFails hrun =>
      rw [releaseSharedBlock_error hrun]
      exact h
  | abandon hseq => exact h.abandoned hseq
  | reclaim hrun htoken =>
      have hmem := htoken.resolve_right fun hfalse => Bool.noConfusion hfalse.1
      exact (wp_elim (h.reclaims hmem)).1 _ _ hrun
  | reclaimFails hrun htoken =>
      have hmem := htoken.resolve_right fun hfalse => Bool.noConfusion hfalse.1
      exact ((wp_elim (h.reclaims hmem)).2 _ _ hrun).elim

/-- Every state that callers who keep the contract reach is in order. -/
theorem SystemOk.of_reachable {cookie : Nat} {layout : KvLayout} {system : KvSystem}
    (h : KvSystem.Reachable true cookie layout system) : SystemOk layout system := by
  induction h with
  | refl => exact systemOk_start cookie layout
  | tail _ hstep ih => exact ih.step hstep

section Invariant

variable {layout : KvLayout} {system : KvSystem}

/-- A private block of one table is in no other place of any table. -/
def KvSystem.PrivateApart (system : KvSystem) : Prop :=
  ∀ (index other : Nat) (seq seq' : SequenceState) (place place' : Nat) (block block' : BlockId),
    system.sequences[index]? = some (some seq) →
    system.sequences[other]? = some (some seq') →
    seq.sharedBlockCount ≤ place → seq.blockIds[place]? = some block →
    seq'.blockIds[place']? = some block' → block.physicalIndex = block'.physicalIndex →
    index = other ∧ place = place'

/-- The canonical counts fill every block but the last and add up. -/
theorem canonicalTokens_spec (length : Nat) :
    (canonicalTokens length).length = blocksForLength length ∧
    (canonicalTokens length).sum = length ∧
    ∀ block, block + 1 < blocksForLength length →
      (canonicalTokens length)[block]? = some kvBlockSize := by
  have hlength : (canonicalTokens length).length = blocksForLength length := by
    simp [canonicalTokens]
  refine ⟨hlength, ?_, ?_⟩
  · have hsum : ∀ count, count ≤ blocksForLength length →
        ((List.range count).map fun index =>
          min (length - index * kvBlockSize) kvBlockSize).sum =
          min length (count * kvBlockSize) := by
      intro count
      induction count with
      | zero => simp
      | succ count ih =>
          intro hcount
          rw [List.range_succ, List.map_append, List.sum_append, ih (Nat.le_of_succ_le hcount)]
          simp only [List.map_singleton, List.sum_singleton]
          unfold kvBlockSize
          omega
    have hwhole := hsum _ (Nat.le_refl _)
    rw [Nat.min_eq_left (blocksForLength_le_iff.mp (Nat.le_refl _))] at hwhole
    exact hwhole
  · intro block hblock
    have hfull := lt_blocksForLength_iff.mp hblock
    unfold canonicalTokens
    rw [List.getElem?_map, List.getElem?_range (Nat.lt_of_succ_lt hblock), Option.map_some]
    unfold kvBlockSize at *
    congr 1
    omega

/-- An entry of a table is a hold of its sequence. -/
theorem hold_of_entry {seq : SequenceState} {place : Nat} {block : BlockId}
    (hblock : seq.blockIds[place]? = some block) :
    (seq.sharedBlockCount ≤ place → (block, seq.sequenceId) ∈ seq.exclusiveHolds) ∧
    (place < seq.sharedBlockCount → block ∈ seq.sharedHolds) := by
  obtain ⟨hlt, rfl⟩ := List.getElem?_eq_some_iff.mp hblock
  exact ⟨fun hprivate => mem_exclusiveHolds hprivate hlt,
    fun hshared => mem_sharedHolds hshared hlt⟩

/-- The holds of another sequence are beside this one. -/
theorem holds_beside {index other : Nat} {seq : SequenceState} (hne : other ≠ index)
    (hseq : system.sequences[other]? = some (some seq)) :
    (∀ hold ∈ seq.exclusiveHolds, hold ∈ exclusiveBeside system index) ∧
    ∀ block ∈ seq.sharedHolds, block ∈ sharedBeside system index := by
  have hmem : some seq ∈ system.sequences.eraseIdx index :=
    List.mem_eraseIdx_iff_getElem?.mpr ⟨other, hne, hseq⟩
  unfold exclusiveBeside exclusiveHolds sharedBeside sharedHolds
  constructor
  · intro hold hhold
    exact Multiset.mem_add.mpr (Or.inl (mem_sum_map.mpr ⟨some seq, hmem, hhold⟩))
  · intro block hblock
    exact Multiset.mem_add.mpr (Or.inl (mem_sum_map.mpr ⟨some seq, hmem, hblock⟩))

theorem SystemOk.privateApart (h : SystemOk layout system) : system.PrivateApart := by
  intro index other seq seq' place place' block block' hseq hseq' hprivate hblock hblock' hsame
  have hheld := h.held hseq
  have hmine := (hold_of_entry hblock).1 hprivate
  have howned := Multiset.mem_add.mpr (Or.inl (b := (block, seq.sequenceId) ∈
    exclusiveBeside system index) hmine)
  -- A live handle is known by its slot.
  have hhandle := (hheld.owns.handle_of_exclusive howned).2.1
  have hnotShared := hheld.owns.accounts.not_mem_shared_of_exclusive howned
  rcases Nat.lt_or_ge place' seq'.sharedBlockCount with hshared' | hprivate'
  · exfalso
    have hmem' := (hold_of_entry hblock').2 hshared'
    have hheld' : block' ∈ seq.sharedHolds + sharedBeside system index := by
      rw [Multiset.mem_add]
      rcases Nat.decEq other index with hne | rfl
      · exact Or.inr ((holds_beside hne hseq').2 block' hmem')
      · rw [hseq] at hseq'
        cases hseq'
        exact Or.inl hmem'
    have hhandle' := (hheld.owns.handle_of_shared hheld').2.1
    rw [← hsame, ← hhandle] at hhandle'
    rw [hhandle'] at hheld'
    exact hnotShared hheld'
  · have hmem' := (hold_of_entry hblock').1 hprivate'
    have hnodup := Multiset.nodup_add.mp hheld.owns.accounts.exclusive_nodup
    rcases Nat.decEq other index with hne | rfl
    · exfalso
      have hbeside := (holds_beside hne hseq').1 _ hmem'
      have howned' := Multiset.mem_add.mpr (Or.inr (a := (block', seq'.sequenceId) ∈
        seq.exclusiveHolds) hbeside)
      have hhandle' := (hheld.owns.handle_of_exclusive howned').2.1
      rw [← hsame, ← hhandle] at hhandle'
      subst hhandle'
      have howner := hheld.owns.accounts.exclusive_unique howned howned'
      rw [← howner] at hbeside
      exact Multiset.disjoint_left.mp hnodup.2.2 hmine hbeside
    · rw [hseq] at hseq'
      cases hseq'
      refine ⟨rfl, ?_⟩
      have hhandle' := (hheld.owns.handle_of_exclusive (Multiset.mem_add.mpr (Or.inl hmem'))).2.1
      rw [← hsame, ← hhandle] at hhandle'
      subst hhandle'
      have htable : (seq.blockIds.drop seq.sharedBlockCount).Nodup :=
        (Multiset.coe_nodup.mp hnodup.1).of_map _
      have hget : ∀ {at_ : Nat}, seq.sharedBlockCount ≤ at_ → seq.blockIds[at_]? = some block' →
          (seq.blockIds.drop seq.sharedBlockCount)[at_ - seq.sharedBlockCount]? =
            some block' := by
        intro at_ hle hat
        rw [List.getElem?_drop, Nat.add_sub_cancel' hle]
        exact hat
      have hone := hget hprivate hblock
      have hplaces := (List.getElem?_inj (List.getElem?_eq_some_iff.mp hone).1 htable).mp
        (hone.trans (hget hprivate' hblock').symm)
      omega

/-- What holds of a pool and its sequences after every run of calls that keep
the contract. -/
theorem pool_invariant {cookie : Nat}
    (h : KvSystem.Reachable true cookie layout system) :
    (∀ index < layout.physicalBlockCount,
      system.pool.freeList.count index = 1 ∧ (system.pool.slot index).owner = none ∨
      system.pool.freeList.count index = 0 ∧ (system.pool.slot index).owner ≠ none) ∧
    (∀ index ∈ system.pool.freeList, index < layout.physicalBlockCount) ∧
    system.PrivateApart ∧
    (∀ (index : Nat) (seq : SequenceState), system.sequences[index]? = some (some seq) →
      (seq.validTokens.length = seq.blockIds.length ∧
        seq.validTokens.sum = seq.visibleLength ∧
        ∀ block, block + 1 < seq.validTokens.length →
          seq.validTokens[block]? = some kvBlockSize) ∧
      (seq.pending = none → seq.blockIds.length = blocksForLength seq.logicalLength)) ∧
    system.pool.allocatedBlockCount =
      layout.physicalBlockCount - system.pool.freeList.length := by
  have hok := SystemOk.of_reachable h
  have hlength := hok.owns.ok.slots_length
  rw [hok.layout] at hlength
  refine ⟨?_, ?_, hok.privateApart, ?_, ?_⟩
  · intro index hindex
    have hfree := hok.owns.ok.free_iff index
    rw [hlength] at hfree
    cases howner : (system.pool.slot index).owner with
    | none =>
        left
        exact ⟨List.count_eq_one_of_mem hok.owns.ok.free_nodup
          (hfree.mpr ⟨hindex, howner⟩), rfl⟩
    | some owner =>
        right
        refine ⟨List.count_eq_zero.mpr fun hmem => ?_, nofun⟩
        have hnone := (hfree.mp hmem).2
        rw [howner] at hnone
        cases hnone
  · intro index hmem
    have hlt := ((hok.owns.ok.free_iff index).mp hmem).1
    rwa [hlength] at hlt
  · intro index seq hseq
    obtain ⟨htable, _⟩ := hok.table index seq hseq
    obtain ⟨_, hsum, hfull⟩ := canonicalTokens_spec seq.visibleLength
    refine ⟨⟨htable.valid_length, htable.valid ▸ hsum, ?_⟩, ?_⟩
    · intro block hblock
      rw [htable.valid_length, htable.blocks] at hblock
      rw [htable.valid]
      exact hfull block hblock
    · intro hpending
      rw [htable.blocks]
      unfold SequenceState.visibleLength
      rw [hpending]
  · have hcount := hok.owns.ok.count
    rw [hlength] at hcount
    exact Nat.eq_sub_of_add_eq hcount

/-! Calls as functions, for runs on given inputs. -/

def KvSystem.creating (maximum : Nat) (system : KvSystem) : KvSystem :=
  match KvBlockPool.createSequence maximum (system.pool, []) with
  | .ok seq left => { system with pool := left.1, sequences := system.sequences ++ [some seq] }
  | .error _ left => { system with pool := left.1 }

def KvSystem.calling (index : Nat) (call : SequenceCall) (system : KvSystem) : KvSystem :=
  match system.sequences[index]? with
  | some (some seq) => system.withSequence index (after call.run ⟨seq, system.pool⟩)
  | _ => system

def KvSystem.sharing (index : Nat) (system : KvSystem) : KvSystem :=
  match system.sequences[index]? with
  | some (some seq) =>
      match SequenceState.shareNextBlock ⟨seq, system.pool⟩ with
      | .ok block state =>
          { system.withSequence index state with owed := block ::ₘ system.owed }
      | .error _ state => system.withSequence index state
  | _ => system

def KvSystem.releasing (block : BlockId) (system : KvSystem) : KvSystem :=
  match KvBlockPool.releaseSharedBlock block system.pool with
  | .ok () pool => { system with pool := pool, owed := system.owed.erase block }
  | .error _ pool => { system with pool := pool }

section Runs

variable {contract : Bool} {cookie : Nat}

theorem reachable_creating {maximum : Nat} (h : KvSystem.Reachable contract cookie layout system)
    (hmaximum : maximum ≤ longestWholeLength) :
    KvSystem.Reachable contract cookie layout (system.creating maximum) := by
  apply h.tail
  unfold KvSystem.creating
  cases hrun : KvBlockPool.createSequence maximum (system.pool, []) with
  | ok seq left => exact KvSystem.Step.create hrun fun _ => hmaximum
  | error e left => exact KvSystem.Step.createFails hrun

theorem reachable_calling {index : Nat} {call : SequenceCall}
    (h : KvSystem.Reachable contract cookie layout system) :
    KvSystem.Reachable contract cookie layout (system.calling index call) := by
  unfold KvSystem.calling
  split
  · exact h.tail (KvSystem.Step.call call ‹_›)
  · exact h

theorem reachable_sharing {index : Nat} (h : KvSystem.Reachable contract cookie layout system) :
    KvSystem.Reachable contract cookie layout (system.sharing index) := by
  unfold KvSystem.sharing
  split
  · split
    · exact h.tail (KvSystem.Step.share ‹_› ‹_›)
    · exact h.tail (KvSystem.Step.shareFails ‹_› ‹_›)
  · exact h

theorem reachable_releasing {block : BlockId}
    (h : KvSystem.Reachable contract cookie layout system)
    (howed : contract = true → block ∈ system.owed) :
    KvSystem.Reachable contract cookie layout (system.releasing block) := by
  apply h.tail
  unfold KvSystem.releasing
  cases hrun : KvBlockPool.releaseSharedBlock block system.pool with
  | ok done pool => exact KvSystem.Step.release hrun howed
  | error e pool => exact KvSystem.Step.releaseFails hrun

end Runs

def twoBlocks : KvLayout := ⟨1, 2, 1, 1, Nat.two_pos, two_le_u32Max⟩

/-- One sequence of a full block that it shares with its caller. -/
def sharedOnce : KvSystem :=
  ((((KvSystem.start 7 twoBlocks).creating 16).calling 0 (.reserveTo 16)).calling 0
    (.commit ⟨7, ⟨7, 1⟩, 1, 0, 16⟩)).sharing 0

theorem sharedOnce_reachable (contract : Bool) :
    KvSystem.Reachable contract 7 twoBlocks sharedOnce :=
  reachable_sharing (reachable_calling (reachable_calling
    (reachable_creating Relation.ReflTransGen.refl (by decide))))

theorem sharedOnce_invariant :
    sharedOnce.PrivateApart ∧
      sharedOnce.pool.allocatedBlockCount = 2 - sharedOnce.pool.freeList.length := by
  have hinvariant := pool_invariant (sharedOnce_reachable true)
  exact ⟨hinvariant.2.2.1, hinvariant.2.2.2.2⟩

/-- The caller gives its one hold back twice, and a second sequence gets the
block that the first still has in its table. -/
def overReleased : KvSystem :=
  (((sharedOnce.releasing ⟨7, 0, 1⟩).releasing ⟨7, 0, 1⟩).creating 16).calling 1 (.reserveTo 16)

theorem overReleased_not_apart :
    ¬ ∀ (cookie : Nat) (layout : KvLayout) (system : KvSystem),
      KvSystem.Reachable false cookie layout system → system.PrivateApart := by
  intro h
  have hreach : KvSystem.Reachable false 7 twoBlocks overReleased :=
    reachable_calling (reachable_creating (reachable_releasing (reachable_releasing
      (sharedOnce_reachable false) nofun) nofun) (by decide))
  have hfirst : overReleased.sequences[0]? = some (some
      ⟨7, ⟨7, 1⟩, 16, [⟨7, 0, 1⟩], [16], 1, 16, 2, none, false⟩) := by
    rfl
  have hsecond : overReleased.sequences[1]? = some (some
      ⟨7, ⟨7, 2⟩, 16, [⟨7, 0, 2⟩], [16], 0, 0, 2, some ⟨1, 0, 16⟩, false⟩) := by
    rfl
  have hsame := h 7 twoBlocks overReleased hreach 1 0 _ _ 0 0 ⟨7, 0, 2⟩ ⟨7, 0, 1⟩ hsecond hfirst
    (Nat.le_refl 0) rfl rfl rfl
  exact absurd hsame.1 Nat.one_ne_zero

end Invariant

end Riley.PagedKv
