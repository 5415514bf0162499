import Mathlib
import Riley.Constraint.TokenIndex

/-!
What the trie of a vocabulary spells: every node has one path of bytes from the
root and one parent, and a token ends exactly at the nodes that spell its bytes.
The flattened arrays give every node its own edges and tokens back.
-/

namespace Riley.Constraint

section Slices

variable {α : Type}

theorem starts_getElem? (groups : List (List α)) (index : Nat)
    (h : index ≤ groups.length) (hfits : groups.flatten.length ≤ u32Max) :
    (TokenIndex.starts groups)[index]? = some (groups.take index).flatten.length := by
  have hsum : ∀ (lengths : List Nat) (start : Nat),
      lengths.foldl (· + ·) start = start + lengths.sum := by
    intro lengths
    induction lengths with
    | nil => exact fun start => rfl
    | cons first rest ih =>
        intro start
        rw [List.foldl_cons, ih, List.sum_cons, Nat.add_assoc]
  have hle : (groups.take index).flatten.length ≤ u32Max := by
    apply Nat.le_trans _ hfits
    rw [← List.take_append_drop index groups, List.flatten_append, List.length_append,
      List.take_append_drop]
    exact Nat.le_add_right _ _
  unfold TokenIndex.starts
  rw [List.getElem?_map, List.getElem?_scanl, List.length_map, if_pos h, Option.map_some, hsum,
    Nat.zero_add, ← List.map_take, ← List.length_flatten, Nat.min_eq_left hle]

/-- A group of the flattened lists is the group it was flattened from. -/
theorem slice_flatten (groups : List (List α)) {index : Nat} {group : List α}
    (h : groups[index]? = some group) (hfits : groups.flatten.length ≤ u32Max) :
    TokenIndex.slice (TokenIndex.starts groups) groups.flatten index = some group := by
  obtain ⟨hlt, hget⟩ := List.getElem?_eq_some_iff.mp h
  have htake : groups.take (index + 1) = groups.take index ++ [group] := by
    rw [List.take_add_one, h, Option.toList_some]
  have hsplit : groups.flatten =
      (groups.take index).flatten ++ (group ++ (groups.drop (index + 1)).flatten) := by
    rw [← List.flatten_cons, ← List.flatten_append, ← List.singleton_append, ← List.append_assoc,
      ← htake, List.take_append_drop]
  have hlast : (groups.take (index + 1)).flatten.length =
      (groups.take index).flatten.length + group.length := by
    rw [htake, List.flatten_append, List.length_append, List.flatten_cons, List.flatten_nil,
      List.append_nil]
  unfold TokenIndex.slice
  rw [starts_getElem? groups index (Nat.le_of_lt hlt) hfits,
    starts_getElem? groups (index + 1) hlt hfits, hlast]
  simp only [Option.bind_eq_bind, Option.bind_some]
  rw [if_pos]
  · rw [hsplit, ← List.append_assoc, List.take_left' (by rw [List.length_append]),
      List.drop_left]
  · constructor
    · exact Nat.le_add_right _ _
    · rw [hsplit, List.length_append, List.length_append]
      omega

/-- An item of one group. -/
def Lists (groups : List (List α)) (index : Nat) (item : α) : Prop :=
  item ∈ groups.getD index []

theorem Lists.lt {groups : List (List α)} {index : Nat} {item : α}
    (h : Lists groups index item) : index < groups.length := by
  by_contra hge
  unfold Lists at h
  rw [List.getD_eq_default _ _ (Nat.le_of_not_lt hge)] at h
  exact absurd h List.not_mem_nil

theorem lists_append_empty {groups : List (List α)} (count : Nat) {index : Nat} {item : α} :
    Lists (groups ++ List.replicate count []) index item ↔ Lists groups index item := by
  unfold Lists
  rcases Nat.lt_or_ge index groups.length with hlt | hge
  · rw [List.getD_append _ _ _ _ hlt]
  · rw [List.getD_append_right _ _ _ _ hge, List.getD_eq_default _ _ hge,
      List.getD_eq_getElem?_getD, List.getElem?_replicate]
    split <;> rfl

theorem lists_modify {groups : List (List α)} {node index : Nat} {item other : α}
    (h : node < groups.length) :
    Lists (groups.modify node (· ++ [item])) index other ↔
      Lists groups index other ∨ index = node ∧ other = item := by
  unfold Lists
  rw [List.getD_eq_getElem?_getD, List.getD_eq_getElem?_getD, List.getElem?_modify]
  by_cases heq : node = index
  · subst heq
    rw [List.getElem?_eq_getElem h]
    simp
  · cases groups[index]? <;> simp [heq, Ne.symm heq]

theorem perm_flatten_modify (groups : List (List α)) {index : Nat} (item : α)
    (h : index < groups.length) :
    (groups.modify index (· ++ [item])).flatten.Perm (item :: groups.flatten) := by
  induction groups generalizing index with
  | nil => exact absurd h (Nat.not_lt_zero index)
  | cons first rest ih =>
      cases index with
      | zero =>
          rw [List.modify_zero_cons, List.flatten_cons, List.flatten_cons, List.append_assoc]
          exact List.perm_middle
      | succ index =>
          rw [List.modify_succ_cons, List.flatten_cons, List.flatten_cons]
          have hrest := (ih (Nat.lt_of_succ_lt_succ h)).append_left first
          exact hrest.trans List.perm_middle

end Slices

namespace Trie

/-- The bytes on the way from the root to every node. -/
structure Spells (trie : Trie) (paths : List (List UInt8)) : Prop where
  paths_length : paths.length = trie.children.length
  terminals_length : trie.terminals.length = trie.children.length
  root : paths[0]? = some []
  edges : ∀ node byte child, Lists trie.children node (byte, child) →
    child < trie.children.length ∧ ∃ spelled, paths[node]? = some spelled ∧
      paths[child]? = some (spelled ++ [byte])
  parents : ∀ node, 0 < node → node < trie.children.length →
    ∃ parent < node, ∃ byte, Lists trie.children parent (byte, node)
  unique : (trie.children.flatten.map Prod.snd).Nodup

theorem not_lists_root {α : Type} {node : Nat} {item : α} : ¬ Lists [[]] node item := by
  intro h
  cases node with
  | zero => exact List.not_mem_nil h
  | succ node => exact List.not_mem_nil h

theorem spells_root : Spells Trie.root [[]] where
  paths_length := rfl
  terminals_length := rfl
  root := rfl
  edges := fun _ _ _ h => absurd h not_lists_root
  parents := fun _ hpos hlt => absurd hlt (Nat.not_lt.mpr hpos)
  unique := List.nodup_nil

variable {trie : Trie} {paths : List (List UInt8)}

theorem Spells.child_lt (h : Spells trie paths) {child : Nat}
    (hchild : child ∈ trie.children.flatten.map Prod.snd) : child < trie.children.length := by
  obtain ⟨⟨byte, _⟩, hedge, rfl⟩ := List.mem_map.mp hchild
  obtain ⟨group, hgroup, hmem⟩ := List.mem_flatten.mp hedge
  obtain ⟨node, hlt, rfl⟩ := List.getElem_of_mem hgroup
  apply (h.edges node byte _ _).1
  unfold Lists
  rwa [List.getD_eq_getElem _ _ hlt]

/-- Every node but the root is the child of one edge. -/
theorem Spells.edge_count (h : Spells trie paths) :
    trie.children.flatten.length ≤ trie.children.length := by
  have hsub : trie.children.flatten.map Prod.snd ⊆ List.range trie.children.length :=
    fun child hchild => List.mem_range.mpr (h.child_lt hchild)
  have hle := (List.subperm_of_subset h.unique hsub).length_le
  rwa [List.length_map, List.length_range] at hle

theorem Spells.node_lt (h : Spells trie paths) {node : Nat} {spelled : List UInt8}
    (hnode : paths[node]? = some spelled) : node < trie.children.length := by
  rw [← h.paths_length]
  exact (List.getElem?_eq_some_iff.mp hnode).choose

theorem Spells.group_nodup (h : Spells trie paths) (node : Nat) :
    ((trie.children.getD node []).map Prod.snd).Nodup := by
  rcases Nat.lt_or_ge node trie.children.length with hlt | hge
  · rw [List.getD_eq_getElem _ _ hlt]
    exact ((List.sublist_flatten_of_mem (List.getElem_mem hlt)).map Prod.snd).nodup h.unique
  · rw [List.getD_eq_default _ _ hge]
    exact List.nodup_nil

/-- A node is a child of one node only. -/
theorem Spells.parent_unique (h : Spells trie paths) {node node' child : Nat}
    {byte byte' : UInt8} (hfirst : Lists trie.children node (byte, child))
    (hsecond : Lists trie.children node' (byte', child)) : node = node' := by
  have hunique := h.unique
  rw [List.map_flatten, List.nodup_flatten] at hunique
  have hlt := hfirst.lt
  have hlt' := hsecond.lt
  unfold Lists at hfirst hsecond
  rw [List.getD_eq_getElem _ _ hlt] at hfirst
  rw [List.getD_eq_getElem _ _ hlt'] at hsecond
  have hin : child ∈ trie.children[node].map Prod.snd := List.mem_map_of_mem hfirst
  have hin' : child ∈ trie.children[node'].map Prod.snd := List.mem_map_of_mem hsecond
  have hapart := List.pairwise_iff_getElem.mp hunique.2
  by_contra hne
  rcases Nat.lt_or_gt_of_ne hne with hbefore | hafter
  · have hdisjoint := hapart node node' (by simpa using hlt) (by simpa using hlt') hbefore
    rw [List.getElem_map, List.getElem_map] at hdisjoint
    exact hdisjoint hin hin'
  · have hdisjoint := hapart node' node (by simpa using hlt') (by simpa using hlt) hafter
    rw [List.getElem_map, List.getElem_map] at hdisjoint
    exact hdisjoint hin' hin

/-- What going down one byte leaves as it was, and where it ends. -/
structure Descended (trie : Trie) (paths : List (List UInt8)) (spelled : List UInt8)
    (bytes : List UInt8) (next : Nat) (trie' : Trie) (paths' : List (List UInt8)) : Prop where
  spells : Spells trie' paths'
  leading : paths <+: paths'
  ends : paths'[next]? = some (spelled ++ bytes)
  terminals : ∃ added, trie'.terminals = trie.terminals ++ List.replicate added []
  size : trie'.children.length ≤ trie.children.length + bytes.length

/-- The new node of `descend`. -/
theorem Spells.grow (h : Spells trie paths) {node : Nat} {spelled : List UInt8}
    (hnode : paths[node]? = some spelled) (byte : UInt8) :
    Descended trie paths spelled [byte] trie.children.length
      { children := trie.children.modify node (· ++ [(byte, trie.children.length)]) ++ [[]]
        terminals := trie.terminals ++ [[]] } (paths ++ [spelled ++ [byte]]) := by
  have hlt := h.node_lt hnode
  have hold : ∀ {index : Nat} {p : List UInt8}, paths[index]? = some p →
      (paths ++ [spelled ++ [byte]])[index]? = some p := fun hindex => by
    rw [List.getElem?_append_left (List.getElem?_eq_some_iff.mp hindex).choose, hindex]
  have hnew : (paths ++ [spelled ++ [byte]])[trie.children.length]? =
      some (spelled ++ [byte]) := by
    rw [← h.paths_length, List.getElem?_concat_length]
  have hlength : (trie.children.modify node (· ++ [(byte, trie.children.length)]) ++
      [[]]).length = trie.children.length + 1 := by
    rw [List.length_append, List.length_modify, List.length_singleton]
  have hlists : ∀ index edge,
      Lists (trie.children.modify node (· ++ [(byte, trie.children.length)]) ++ [[]]) index edge ↔
        Lists trie.children index edge ∨ index = node ∧ edge = (byte, trie.children.length) :=
    fun index edge => Iff.trans (lists_append_empty 1) (lists_modify hlt)
  refine ⟨⟨?_, ?_, hold h.root, ?_, ?_, ?_⟩, List.prefix_append _ _, hnew, ⟨1, rfl⟩, ?_⟩
  · rw [List.length_append, List.length_singleton, h.paths_length, hlength]
  · rw [List.length_append, List.length_singleton, h.terminals_length, hlength]
  · intro index other child hmem
    rw [hlength]
    rcases (hlists _ _).mp hmem with hbefore | ⟨rfl, heq⟩
    · obtain ⟨hchild, p, hp, hp'⟩ := h.edges index other child hbefore
      exact ⟨Nat.lt_succ_of_lt hchild, p, hold hp, hold hp'⟩
    · cases heq
      exact ⟨Nat.lt_succ_self _, spelled, hold hnode, hnew⟩
  · intro index hpos hindex
    rw [hlength] at hindex
    rcases Nat.lt_succ_iff_lt_or_eq.mp hindex with hbefore | rfl
    · obtain ⟨parent, hparent, other, hother⟩ := h.parents index hpos hbefore
      exact ⟨parent, hparent, other, (hlists _ _).mpr (Or.inl hother)⟩
    · exact ⟨node, hlt, byte, (hlists _ _).mpr (Or.inr ⟨rfl, rfl⟩)⟩
  · rw [List.flatten_append, List.flatten_cons, List.flatten_nil, List.append_nil,
      List.append_nil]
    apply ((perm_flatten_modify _ _ hlt).map Prod.snd).nodup_iff.mpr
    rw [List.map_cons, List.nodup_cons]
    exact ⟨fun hmem => Nat.lt_irrefl _ (h.child_lt hmem), h.unique⟩
  · rw [hlength, List.length_singleton]

theorem Spells.descend (h : Spells trie paths) {node : Nat} {spelled : List UInt8}
    (hnode : paths[node]? = some spelled) (byte : UInt8)
    (hfits : trie.children.length ≤ u32Max) :
    ∃ paths', Descended trie paths spelled [byte] (trie.descend node byte).1
      (trie.descend node byte).2 paths' := by
  simp only [Trie.descend]
  split
  · rename_i last next hlast
    obtain ⟨hget, hbyte⟩ := Option.filter_eq_some_iff.mp hlast
    obtain ⟨_, p, hp, hp'⟩ := h.edges node last next (List.mem_of_getLast? hget)
    rw [hnode, Option.some.injEq] at hp
    subst hp
    have hlastByte : last = byte := of_decide_eq_true hbyte
    rw [hlastByte] at hp'
    exact ⟨paths, h, List.prefix_rfl, hp', ⟨0, by simp⟩, by simp⟩
  · rw [Nat.min_eq_left hfits]
    exact ⟨_, h.grow hnode byte⟩

theorem Spells.path (bytes : List UInt8) (h : Spells trie paths) {node : Nat}
    {spelled : List UInt8} (hnode : paths[node]? = some spelled)
    (hfits : trie.children.length + bytes.length ≤ u32Max) :
    ∃ paths', Descended trie paths spelled bytes (trie.path node bytes).1
      (trie.path node bytes).2 paths' := by
  induction bytes generalizing trie paths node spelled with
  | nil =>
      refine ⟨paths, h, List.prefix_rfl, ?_, ⟨0, ?_⟩, Nat.le_refl _⟩
      · rwa [List.append_nil]
      · rw [List.replicate_zero, List.append_nil]
        rfl
  | cons byte rest ih =>
      rw [List.length_cons] at hfits
      obtain ⟨middle, hfirst⟩ := h.descend hnode byte (by omega)
      have hsize := hfirst.size
      rw [List.length_singleton] at hsize
      obtain ⟨last, hrest⟩ := ih hfirst.spells hfirst.ends (by omega)
      obtain ⟨added, hadded⟩ := hfirst.terminals
      obtain ⟨more, hmore⟩ := hrest.terminals
      refine ⟨last, hrest.spells, hfirst.leading.trans hrest.leading, ?_, ⟨added + more, ?_⟩, ?_⟩
      · have hends := hrest.ends
        rwa [List.append_assoc] at hends
      · rw [List.replicate_add, ← List.append_assoc, ← hadded]
        exact hmore
      · have hmoreSize := hrest.size
        rw [List.length_cons]
        exact Nat.le_trans hmoreSize (by omega)

/-- Tokens end where their bytes are spelled, and nowhere else. -/
structure Indexes (tokenBytes : Nat → List UInt8) (ids : List Nat) (trie : Trie)
    (paths : List (List UInt8)) : Prop where
  spells : Spells trie paths
  sound : ∀ node id, Lists trie.terminals node id →
    id ∈ ids ∧ paths[node]? = some (tokenBytes id)
  complete : ∀ id ∈ ids, ∃ node, Lists trie.terminals node id
  count : trie.terminals.flatten.length = ids.length

theorem indexes_root (tokenBytes : Nat → List UInt8) : Indexes tokenBytes [] root [[]] where
  spells := spells_root
  sound := fun _ _ h => absurd h not_lists_root
  complete := fun _ hid => absurd hid List.not_mem_nil
  count := rfl

theorem Indexes.insert {tokenBytes : Nat → List UInt8} {ids : List Nat}
    (h : Indexes tokenBytes ids trie paths) (id : Nat)
    (hfits : trie.children.length + (tokenBytes id).length ≤ u32Max) :
    ∃ paths', Indexes tokenBytes (ids ++ [id]) (trie.insert id (tokenBytes id)) paths' ∧
      (trie.insert id (tokenBytes id)).children.length ≤
        trie.children.length + (tokenBytes id).length := by
  obtain ⟨paths', hpath⟩ := h.spells.path (tokenBytes id) h.spells.root hfits
  rw [Trie.insert]
  generalize trie.path 0 (tokenBytes id) = reached at hpath
  obtain ⟨node, trie'⟩ := reached
  obtain ⟨added, hadded⟩ := hpath.terminals
  have hends := hpath.ends
  rw [List.nil_append] at hends
  have hnode : node < trie'.terminals.length := by
    rw [hpath.spells.terminals_length]
    exact hpath.spells.node_lt hends
  have hlists : ∀ index other,
      Lists (trie'.terminals.modify node (· ++ [id])) index other ↔
        Lists trie.terminals index other ∨ index = node ∧ other = id := by
    intro index other
    rw [lists_modify hnode, hadded, lists_append_empty]
  refine ⟨paths', ⟨⟨hpath.spells.paths_length, ?_, hpath.spells.root, hpath.spells.edges,
    hpath.spells.parents, hpath.spells.unique⟩, ?_, ?_, ?_⟩, hpath.size⟩
  · rw [List.length_modify]
    exact hpath.spells.terminals_length
  · intro index other hmem
    rcases (hlists _ _).mp hmem with hbefore | ⟨rfl, rfl⟩
    · obtain ⟨hid, hspelled⟩ := h.sound index other hbefore
      have hkept := List.IsPrefix.getElem hpath.leading
        (List.getElem?_eq_some_iff.mp hspelled).choose
      refine ⟨List.mem_append_left _ hid, List.getElem?_eq_some_iff.mpr ⟨_, hkept.symm.trans ?_⟩⟩
      exact (List.getElem?_eq_some_iff.mp hspelled).choose_spec
    · exact ⟨List.mem_append_right _ (List.mem_singleton_self _), hends⟩
  · intro other hother
    rcases List.mem_append.mp hother with hmem | hlast
    · obtain ⟨index, hindex⟩ := h.complete other hmem
      exact ⟨index, (hlists _ _).mpr (Or.inl hindex)⟩
    · exact ⟨node, (hlists _ _).mpr (Or.inr ⟨rfl, List.mem_singleton.mp hlast⟩)⟩
  · have hempty : (List.replicate added ([] : List Nat)).flatten = [] := by
      rw [List.flatten_eq_nil_iff]
      exact fun group hgroup => List.eq_of_mem_replicate hgroup
    rw [(perm_flatten_modify _ id hnode).length_eq, List.length_cons, hadded, List.flatten_append,
      hempty, List.append_nil, h.count, List.length_append, List.length_singleton]

theorem Indexes.insertAll {tokenBytes : Nat → List UInt8} {ids : List Nat} (more : List Nat)
    (h : Indexes tokenBytes ids trie paths)
    (hfits : trie.children.length + (more.map fun id => (tokenBytes id).length).sum ≤ u32Max) :
    ∃ paths', Indexes tokenBytes (ids ++ more)
        (more.foldl (fun trie id => trie.insert id (tokenBytes id)) trie) paths' ∧
      (more.foldl (fun trie id => trie.insert id (tokenBytes id)) trie).children.length ≤
        trie.children.length + (more.map fun id => (tokenBytes id).length).sum := by
  induction more generalizing trie paths ids with
  | nil =>
      rw [List.append_nil]
      exact ⟨paths, h, Nat.le_refl _⟩
  | cons id rest ih =>
      rw [List.map_cons, List.sum_cons] at hfits ⊢
      obtain ⟨middle, hone, hsize⟩ := h.insert id (by omega)
      obtain ⟨last, hall, hmore⟩ := ih hone (by omega)
      rw [List.append_assoc] at hall
      exact ⟨last, hall, Nat.le_trans hmore (by omega)⟩

end Trie

namespace TokenIndex

variable {tokenBytes : List (List UInt8)}

/-- The ids that the trie holds: the tokens that decode to something. -/
theorem mem_order (hfits : tokenBytes.length ≤ u32Max) {id : Nat} :
    id ∈ order tokenBytes ↔ ∃ bytes, tokenBytes[id]? = some bytes ∧ bytes ≠ [] := by
  unfold order
  rw [List.mem_insertionSort]
  have hid : ∀ other < tokenBytes.length, min other u32Max = other := fun other hlt =>
    Nat.min_eq_left (Nat.le_trans (Nat.le_of_lt hlt) hfits)
  constructor
  · intro hmem
    obtain ⟨other, hother, rfl⟩ := List.mem_map.mp hmem
    obtain ⟨hlt, hne⟩ := List.mem_filter.mp hother
    rw [List.mem_range] at hlt
    rw [hid other hlt, List.getElem?_eq_getElem hlt]
    rw [List.getD_eq_getElem?_getD, List.getElem?_eq_getElem hlt] at hne
    exact ⟨_, rfl, of_decide_eq_true hne⟩
  · rintro ⟨bytes, hbytes, hne⟩
    obtain ⟨hlt, _⟩ := List.getElem?_eq_some_iff.mp hbytes
    apply List.mem_map.mpr
    refine ⟨id, List.mem_filter.mpr ⟨List.mem_range.mpr hlt, ?_⟩, hid id hlt⟩
    rw [List.getD_eq_getElem?_getD, hbytes]
    exact decide_eq_true hne

theorem order_length (tokenBytes : List (List UInt8)) :
    (order tokenBytes).length ≤ tokenBytes.length := by
  unfold order
  rw [List.length_insertionSort, List.length_map]
  have hle := List.length_filter_le (fun id => decide (tokenBytes.getD id [] ≠ []))
    (List.range tokenBytes.length)
  rwa [List.length_range] at hle

/-- The bytes of all indexed tokens. -/
theorem order_bytes (hfits : tokenBytes.length ≤ u32Max) :
    ((order tokenBytes).map fun id => (tokenBytes.getD id []).length).sum ≤
      tokenBytes.flatten.length := by
  have hperm : (order tokenBytes).Perm
      ((List.range tokenBytes.length).filter fun id => tokenBytes.getD id [] ≠ []) := by
    apply (List.perm_insertionSort _ _).trans
    apply List.Perm.of_eq
    conv_rhs => rw [← List.map_id ((List.range tokenBytes.length).filter _)]
    apply List.map_congr_left
    intro id hid
    have hlt := List.mem_range.mp (List.mem_filter.mp hid).1
    exact Nat.min_eq_left (Nat.le_trans (Nat.le_of_lt hlt) hfits)
  have hall : (List.range tokenBytes.length).map (fun id => (tokenBytes.getD id []).length) =
      tokenBytes.map List.length := by
    apply List.ext_getElem
    · simp
    · intro index hindex hindex'
      simp only [List.getElem_map, List.getElem_range]
      rw [List.length_map] at hindex'
      rw [List.getD_eq_getElem?_getD, List.getElem?_eq_getElem hindex', Option.getD_some]
  rw [(hperm.map _).sum_nat, List.length_flatten, ← hall]
  exact (List.filter_sublist.map _).sum_le_sum fun _ _ => Nat.zero_le _

/-- The trie of a vocabulary whose bytes fit the offsets of the index. -/
theorem trie_indexes (hcount : tokenBytes.length ≤ u32Max)
    (hfits : tokenBytes.flatten.length < u32Max) :
    ∃ paths, Trie.Indexes (fun id => tokenBytes.getD id []) (order tokenBytes)
        (trie tokenBytes) paths ∧
      (trie tokenBytes).children.length ≤ tokenBytes.flatten.length + 1 := by
  have hbytes := order_bytes hcount
  have hroot : Trie.root.children.length = 1 := rfl
  obtain ⟨paths, hindexes, hsize⟩ := Trie.Indexes.insertAll (order tokenBytes)
    (Trie.indexes_root fun id => tokenBytes.getD id []) (by omega)
  exact ⟨paths, hindexes, Nat.le_trans hsize (by omega)⟩

/-- A vocabulary that the offsets of the index can address, as every loaded
tokenizer has it. -/
structure Fits (tokenBytes : List (List UInt8)) : Prop where
  count : tokenBytes.length ≤ u32Max
  bytes : tokenBytes.flatten.length < u32Max

/-- Every node of the index has the edges and the tokens of the trie. -/
theorem slices_new (h : Fits tokenBytes) {paths : List (List UInt8)}
    (hindexes : Trie.Indexes (fun id => tokenBytes.getD id []) (order tokenBytes)
      (trie tokenBytes) paths)
    (hsize : (trie tokenBytes).children.length ≤ tokenBytes.flatten.length + 1) {node : Nat}
    (hnode : node < (trie tokenBytes).children.length) :
    slice (new tokenBytes).tokenStarts (new tokenBytes).tokens node =
        some ((trie tokenBytes).terminals.getD node []) ∧
      slice (new tokenBytes).edgeStarts (new tokenBytes).edges node =
        some ((trie tokenBytes).children.getD node []) := by
  have hterminals := hindexes.spells.terminals_length
  have hcount := hindexes.count
  have horder := order_length tokenBytes
  have hedges := hindexes.spells.edge_count
  have hlimit := h.count
  have hbytes := h.bytes
  constructor
  · rw [List.getD_eq_getElem _ _ (by omega)]
    exact slice_flatten _ (List.getElem?_eq_getElem (by omega)) (by omega)
  · rw [List.getD_eq_getElem _ _ hnode]
    exact slice_flatten _ (List.getElem?_eq_getElem hnode) (by omega)

/-- The bytes that the engine reads back for a token. -/
theorem bytesOf_new (hfits : tokenBytes.flatten.length ≤ u32Max) (id : Nat) :
    (new tokenBytes).bytesOf id = some (tokenBytes.getD id []) := by
  have hlength : (new tokenBytes).offsets.length = tokenBytes.length + 1 := by
    change (starts tokenBytes).length = _
    rw [starts, List.length_map, List.length_scanl, List.length_map]
  unfold bytesOf
  rw [hlength]
  by_cases hlt : id < tokenBytes.length
  · rw [if_neg (by omega), List.getD_eq_getElem _ _ hlt]
    exact slice_flatten tokenBytes (List.getElem?_eq_getElem hlt) hfits
  · rw [if_pos (by omega), List.getD_eq_default _ _ (Nat.le_of_not_lt hlt)]

end TokenIndex

end Riley.Constraint
