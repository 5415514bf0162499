import Riley.Library.Recency
import Riley.PagedKv.SequenceSpec
import Riley.Scheduling.PrefixCache

/-!
What the prefix index is for: a finite prefix-closed map from paths of full
prompt pages to the blocks that hold them. `CacheOk cache listed` says that the
arena, its hash map and its recency list represent the map `listed`; every
operation of the index is specified by its effect on that map and on the
holds of the pool.
-/

namespace Riley.Scheduling

open PagedKv Outcome Recency

/-- The token pages of a prompt prefix, first page first. -/
abbrev PagePath := List (List Nat)

/-- The listed pages with their blocks. -/
abbrev Listing := Multiset (PagePath × BlockId)

/-- What an entry says apart from its place in the recency list. -/
structure Page where
  key : Key
  block : BlockId
  children : Nat
  deriving DecidableEq

def Entry.page (entry : Entry) : Page := ⟨entry.key, entry.block, entry.children⟩

namespace PrefixCache

def page (cache : PrefixCache) (id : EntryId) : Option Page :=
  (cache.entryAt id).map Entry.page

def ring (cache : PrefixCache) : LinkRing EntryId where
  next node :=
    match node with
    | none => cache.oldest
    | some id => (cache.entryAt id).bind Entry.newer
  prev node :=
    match node with
    | none => cache.newest
    | some id => (cache.entryAt id).bind Entry.older

end PrefixCache

/-- The entry at the end of a path of pages. -/
inductive Reaches (pages : EntryId → Option Page) : Option EntryId → PagePath → Prop
  | root : Reaches pages none []
  | page {id : EntryId} {page : Page} {path : PagePath} :
      pages id = some page → Reaches pages page.key.parent path →
      Reaches pages (some id) (path ++ [page.key.tokens])

def isChildOf (pages : EntryId → Option Page) (parent id : EntryId) : Bool :=
  (pages id).any fun page => page.key.parent = some parent

def listedAt (pages : EntryId → Option Page) (paths : EntryId → PagePath)
    (id : EntryId) : Option (PagePath × BlockId) :=
  (pages id).map fun page => (paths id, page.block)

/-- Two caches that differ in their recency links only. -/
structure SameCore (cache cache' : PrefixCache) : Prop where
  capacity : cache'.capacity = cache.capacity
  freeEntries : cache'.freeEntries = cache.freeEntries
  index : cache'.index = cache.index
  length : cache'.length = cache.length
  entries_length : cache'.entries.length = cache.entries.length
  page : cache'.page = cache.page

theorem SameCore.refl (cache : PrefixCache) : SameCore cache cache :=
  ⟨rfl, rfl, rfl, rfl, rfl, rfl⟩

theorem SameCore.trans {a b c : PrefixCache} (hab : SameCore a b) (hbc : SameCore b c) :
    SameCore a c where
  capacity := hbc.capacity.trans hab.capacity
  freeEntries := hbc.freeEntries.trans hab.freeEntries
  index := hbc.index.trans hab.index
  length := hbc.length.trans hab.length
  entries_length := hbc.entries_length.trans hab.entries_length
  page := hbc.page.trans hab.page

/-- The arena represents `listed`, with its members in recency order and the
path of each of them. -/
structure CacheView (cache : PrefixCache) (listed : Listing) (order : List EntryId)
    (paths : EntryId → PagePath) : Prop where
  entries_length : cache.entries.length = cache.capacity
  free_nodup : cache.freeEntries.Nodup
  free_iff : ∀ id, id ∈ cache.freeEntries ↔
    id < cache.entries.length ∧ cache.page id = none
  count : cache.length = order.length
  ring : cache.ring.Represents order
  mem_order : ∀ id, id ∈ order ↔ (cache.page id).isSome
  reaches : ∀ id ∈ order, Reaches cache.page (some id) (paths id)
  indexed : ∀ id page, cache.page id = some page → cache.index page.key = some id
  index_page : ∀ key id, cache.index key = some id →
    ∃ page, cache.page id = some page ∧ page.key = key
  children : ∀ id page, cache.page id = some page →
    page.children = order.countP (isChildOf cache.page id)
  listed_eq : listed =
    (order.filterMap (listedAt cache.page paths) : List (PagePath × BlockId))

def CacheOk (cache : PrefixCache) (listed : Listing) : Prop :=
  ∃ order paths, CacheView cache listed order paths

section Arena

variable {cache : PrefixCache}

theorem entryAt_lt {id : EntryId} {entry : Entry} (h : cache.entryAt id = some entry) :
    id < cache.entries.length := by
  unfold PrefixCache.entryAt at h
  by_contra hlt
  rw [List.getElem?_eq_none (Nat.le_of_not_lt hlt)] at h
  cases h

theorem entryAt_setEntry (cache : PrefixCache) (id other : EntryId)
    (entry : Option Entry) :
    (cache.setEntry id entry).entryAt other =
      if other = id ∧ id < cache.entries.length then entry else cache.entryAt other := by
  simp only [PrefixCache.setEntry, PrefixCache.entryAt, List.getElem?_set]
  by_cases h : id = other
  · subst h
    by_cases hlt : id < cache.entries.length
    · simp [hlt]
    · simp [hlt]
  · simp [h, Ne.symm h]

theorem page_setEntry (cache : PrefixCache) (id : EntryId) (entry : Option Entry)
    (hlt : id < cache.entries.length) :
    (cache.setEntry id entry).page =
      Function.update cache.page id (entry.map Entry.page) := by
  funext other
  unfold PrefixCache.page
  rw [entryAt_setEntry]
  by_cases h : other = id
  · subst h
    simp [hlt]
  · simp [h]

theorem entry_eq_ok {id : EntryId} {entry : Entry} (h : cache.entryAt id = some entry) :
    cache.entry id = .ok entry := by
  simp [PrefixCache.entry, h]

theorem entry_of_page {id : EntryId} {page : Page} (h : cache.page id = some page) :
    ∃ entry, cache.entryAt id = some entry ∧ entry.page = page := by
  unfold PrefixCache.page at h
  obtain ⟨entry, hentry, hpage⟩ := Option.map_eq_some_iff.mp h
  exact ⟨entry, hentry, hpage⟩

theorem page_of_entry {id : EntryId} {entry : Entry} (h : cache.entryAt id = some entry) :
    cache.page id = some entry.page := by
  simp [PrefixCache.page, h]

end Arena

section Links

variable {cache : PrefixCache}

/-- A node whose links can be assigned: the header or an occupied entry. -/
def Node (cache : PrefixCache) (node : Option EntryId) : Prop :=
  ∀ id, node = some id → (cache.page id).isSome

theorem Node.entry {id : EntryId} {node : Option EntryId} (h : Node cache node)
    (hnode : node = some id) : ∃ entry, cache.entryAt id = some entry := by
  obtain ⟨page, hpage⟩ := Option.isSome_iff_exists.mp (h id hnode)
  obtain ⟨entry, hentry, _⟩ := entry_of_page hpage
  exact ⟨entry, hentry⟩

theorem sameCore_setEntry {id : EntryId} {entry entry' : Entry}
    (hentry : cache.entryAt id = some entry) (hpage : entry'.page = entry.page) :
    SameCore cache (cache.setEntry id (some entry')) := by
  refine ⟨rfl, rfl, rfl, rfl, by simp [PrefixCache.setEntry], ?_⟩
  rw [page_setEntry _ _ _ (entryAt_lt hentry), Option.map_some, hpage, ← page_of_entry hentry]
  exact Function.update_eq_self id cache.page

theorem wp_modifyEntry {id : EntryId} {entry : Entry} {f : Entry → Entry}
    {ok : Unit → PrefixCache → Prop} {err : SchedulerError → PrefixCache → Prop}
    (hentry : cache.entryAt id = some entry)
    (h : ok () (cache.setEntry id (some (f entry)))) :
    wp (PrefixCache.modifyEntry id f) ok err cache := by
  unfold PrefixCache.modifyEntry
  refine wp_read (wp_ofOk (entry_eq_ok hentry) ?_)
  exact h

theorem wp_setNewer {node value : Option EntryId} (hnode : Node cache node) :
    wp (PrefixCache.setNewer node value)
      (fun _ cache' => SameCore cache cache' ∧
        cache'.ring = ⟨Function.update cache.ring.next node value, cache.ring.prev⟩)
      (fun _ _ => False) cache := by
  cases node with
  | none =>
      simp only [PrefixCache.setNewer, wp_modify]
      refine ⟨⟨rfl, rfl, rfl, rfl, rfl, rfl⟩, ?_⟩
      unfold PrefixCache.ring
      congr 1
      funext node
      cases node <;> rfl
  | some id =>
      obtain ⟨entry, hentry⟩ := hnode.entry rfl
      have hlt := entryAt_lt hentry
      refine wp_modifyEntry hentry ⟨sameCore_setEntry hentry rfl, ?_⟩
      unfold PrefixCache.ring
      congr 1
      · funext node
        cases node with
        | none => rfl
        | some other =>
            by_cases heq : other = id
            · subst heq
              simp [entryAt_setEntry, hlt]
            · simp [entryAt_setEntry, heq]
      · funext node
        cases node with
        | none => rfl
        | some other =>
            by_cases heq : other = id
            · subst heq
              simp [entryAt_setEntry, hlt, hentry]
            · simp [entryAt_setEntry, heq]

theorem wp_setOlder {node value : Option EntryId} (hnode : Node cache node) :
    wp (PrefixCache.setOlder node value)
      (fun _ cache' => SameCore cache cache' ∧
        cache'.ring = ⟨cache.ring.next, Function.update cache.ring.prev node value⟩)
      (fun _ _ => False) cache := by
  cases node with
  | none =>
      simp only [PrefixCache.setOlder, wp_modify]
      refine ⟨⟨rfl, rfl, rfl, rfl, rfl, rfl⟩, ?_⟩
      unfold PrefixCache.ring
      congr 1
      funext node
      cases node <;> rfl
  | some id =>
      obtain ⟨entry, hentry⟩ := hnode.entry rfl
      have hlt := entryAt_lt hentry
      refine wp_modifyEntry hentry ⟨sameCore_setEntry hentry rfl, ?_⟩
      unfold PrefixCache.ring
      congr 1
      · funext node
        cases node with
        | none => rfl
        | some other =>
            by_cases heq : other = id
            · subst heq
              simp [entryAt_setEntry, hlt, hentry]
            · simp [entryAt_setEntry, heq]
      · funext node
        cases node with
        | none => rfl
        | some other =>
            by_cases heq : other = id
            · subst heq
              simp [entryAt_setEntry, hlt]
            · simp [entryAt_setEntry, heq]

theorem SameCore.node {cache cache' : PrefixCache} (h : SameCore cache cache')
    {node : Option EntryId} (hnode : Node cache node) : Node cache' node := by
  intro id hid
  rw [h.page]
  exact hnode id hid

theorem wp_unlink {id : EntryId} {entry : Entry} (hentry : cache.entryAt id = some entry)
    (holder : Node cache entry.older) (hnewer : Node cache entry.newer) :
    wp (PrefixCache.unlink id)
      (fun _ cache' => SameCore cache cache' ∧ cache'.ring = cache.ring.unlink id)
      (fun _ _ => False) cache := by
  unfold PrefixCache.unlink
  refine wp_read (wp_ofOk (entry_eq_ok hentry) ?_)
  refine wp_call (wp_setNewer holder) ?_ (fun _ _ hf => hf.elim)
  rintro _ middle ⟨hsame, hring⟩
  refine wp_mono (wp_setOlder (hsame.node hnewer)) ?_ (fun _ _ hf => hf.elim)
  rintro _ cache' ⟨hsame', hring'⟩
  refine ⟨hsame.trans hsame', ?_⟩
  rw [hring', hring]
  simp [LinkRing.unlink, PrefixCache.ring, hentry]

theorem wp_linkNewest {id : EntryId} {entry : Entry}
    (hentry : cache.entryAt id = some entry) (hnewest : Node cache cache.newest) :
    wp (PrefixCache.linkNewest id)
      (fun _ cache' => SameCore cache cache' ∧ cache'.ring = cache.ring.linkNewest id)
      (fun _ _ => False) cache := by
  have hlt := entryAt_lt hentry
  unfold PrefixCache.linkNewest
  refine wp_read (wp_seq (wp_modifyEntry hentry ?_))
  have hsame := @sameCore_setEntry _ _ _
    { entry with older := cache.newest, newer := none } hentry rfl
  refine wp_call (wp_setNewer (hsame.node hnewest)) ?_ (fun _ _ hf => hf.elim)
  rintro _ middle ⟨hsame', hring'⟩
  refine wp_mono (wp_setOlder (fun _ h => by cases h)) ?_ (fun _ _ hf => hf.elim)
  rintro _ cache' ⟨hsame'', hring''⟩
  refine ⟨(hsame.trans hsame').trans hsame'', ?_⟩
  have hnext : (cache.setEntry id (some { entry with
      older := cache.newest, newer := none })).ring.next =
      Function.update cache.ring.next (some id) none := by
    funext node
    cases node with
    | none => rfl
    | some other =>
        by_cases heq : other = id
        · subst heq
          simp [PrefixCache.ring, entryAt_setEntry, hlt]
        · simp [PrefixCache.ring, entryAt_setEntry, heq]
  have hprev : (cache.setEntry id (some { entry with
      older := cache.newest, newer := none })).ring.prev =
      Function.update cache.ring.prev (some id) cache.newest := by
    funext node
    cases node with
    | none => rfl
    | some other =>
        by_cases heq : other = id
        · subst heq
          simp [PrefixCache.ring, entryAt_setEntry, hlt]
        · simp [PrefixCache.ring, entryAt_setEntry, heq]
  rw [hring'', hring', hnext, hprev]
  rfl

end Links

section View

variable {cache cache' : PrefixCache} {listed : Listing} {order : List EntryId}
  {paths : EntryId → PagePath} {pages : EntryId → Option Page}

theorem Reaches.unique {tip : Option EntryId} {path path' : PagePath}
    (h : Reaches pages tip path) (h' : Reaches pages tip path') : path = path' := by
  induction h generalizing path' with
  | root =>
      cases h'
      rfl
  | page hpage _ ih =>
      cases h' with
      | page hpage' hparent' =>
          rw [hpage] at hpage'
          cases hpage'
          rw [ih hparent']

theorem Reaches.page_of_some {id : EntryId} {path : PagePath}
    (h : Reaches pages (some id) path) :
    ∃ page front, pages id = some page ∧ Reaches pages page.key.parent front ∧
      path = front ++ [page.key.tokens] := by
  cases h with
  | page hpage hparent => exact ⟨_, _, hpage, hparent, rfl⟩

namespace CacheView

theorem mem_of_page (h : CacheView cache listed order paths) {id : EntryId} {page : Page}
    (hpage : cache.page id = some page) : id ∈ order := by
  rw [h.mem_order, hpage]
  rfl

theorem page_of_mem (h : CacheView cache listed order paths) {id : EntryId}
    (hid : id ∈ order) : ∃ page, cache.page id = some page :=
  Option.isSome_iff_exists.mp ((h.mem_order id).mp hid)

theorem entry_of_mem (h : CacheView cache listed order paths) {id : EntryId}
    (hid : id ∈ order) : ∃ entry, cache.entryAt id = some entry := by
  obtain ⟨page, hpage⟩ := h.page_of_mem hid
  obtain ⟨entry, hentry, _⟩ := entry_of_page hpage
  exact ⟨entry, hentry⟩

/-- A view survives any edit of the recency links that keeps the members. -/
theorem relink (h : CacheView cache listed order paths) (hsame : SameCore cache cache')
    {order' : List EntryId} (hperm : order'.Perm order)
    (hring : cache'.ring.Represents order') : CacheView cache' listed order' paths := by
  constructor
  · rw [hsame.entries_length, hsame.capacity, h.entries_length]
  · rw [hsame.freeEntries]
    exact h.free_nodup
  · rw [hsame.freeEntries, hsame.entries_length, hsame.page]
    exact h.free_iff
  · rw [hsame.length, h.count, hperm.length_eq]
  · exact hring
  · intro id
    rw [hperm.mem_iff, hsame.page]
    exact h.mem_order id
  · intro id hid
    rw [hsame.page]
    exact h.reaches id (hperm.mem_iff.mp hid)
  · rw [hsame.page, hsame.index]
    exact h.indexed
  · rw [hsame.page, hsame.index]
    exact h.index_page
  · intro id page hpage
    rw [hsame.page] at hpage ⊢
    rw [h.children id page hpage, hperm.countP_eq]
  · rw [h.listed_eq, hsame.page]
    exact Multiset.coe_eq_coe.mpr (hperm.filterMap _).symm

/-- Equal paths lead to the same entry: keys are compared in full. -/
theorem reaches_injective (h : CacheView cache listed order paths) {path : PagePath}
    {tip tip' : Option EntryId} (htip : Reaches cache.page tip path)
    (htip' : Reaches cache.page tip' path) : tip = tip' := by
  induction htip generalizing tip' with
  | root =>
      cases tip' with
      | none => rfl
      | some id =>
          obtain ⟨_, _, _, _, hpath⟩ := htip'.page_of_some
          exact absurd hpath.symm (by simp)
  | @page id page path hpage _ ih =>
      cases tip' with
      | none =>
          generalize hfull : path ++ [page.key.tokens] = full at htip'
          cases htip'
          exact absurd hfull (by simp)
      | some id' =>
          obtain ⟨page', front, hpage', hparent', hpath⟩ := htip'.page_of_some
          obtain ⟨rfl, htokens⟩ := List.append_inj' hpath rfl
          have hkey : page.key = page'.key := by
            have hparent := ih hparent'
            cases hk : page.key
            cases hk' : page'.key
            simp_all
          have hindex := h.indexed id page hpage
          rw [hkey, h.indexed id' page' hpage'] at hindex
          rw [Option.some.inj hindex]

theorem mem_listed (h : CacheView cache listed order paths) {path : PagePath}
    {block : BlockId} : (path, block) ∈ listed ↔ ∃ id page,
      cache.page id = some page ∧ Reaches cache.page (some id) path ∧
        page.block = block := by
  rw [h.listed_eq, Multiset.mem_coe, List.mem_filterMap]
  constructor
  · rintro ⟨id, hid, hlisted⟩
    obtain ⟨page, hpage, heq⟩ := Option.map_eq_some_iff.mp hlisted
    cases heq
    exact ⟨id, page, hpage, h.reaches id hid, rfl⟩
  · rintro ⟨id, page, hpage, hreaches, rfl⟩
    have hid := h.mem_of_page hpage
    refine ⟨id, hid, ?_⟩
    unfold listedAt
    rw [hpage, Option.map_some, (h.reaches id hid).unique hreaches]

theorem order_length_le (h : CacheView cache listed order paths) :
    order.length ≤ cache.entries.length := by
  have hsub : order ⊆ List.range cache.entries.length := by
    intro id hid
    obtain ⟨entry, hentry⟩ := h.entry_of_mem hid
    exact List.mem_range.mpr (entryAt_lt hentry)
  have hle := (List.Nodup.subperm h.ring.nodup hsub).length_le
  rwa [List.length_range] at hle

private theorem exists_depth (h : CacheView cache listed order paths)
    {tip : Option EntryId} {path : PagePath} (hreaches : Reaches cache.page tip path)
    {depth : Nat} (hpos : 0 < depth) (hle : depth ≤ path.length) :
    depth ∈ order.map fun id => (paths id).length := by
  induction hreaches with
  | root =>
      rw [List.length_nil] at hle
      omega
  | @page id page path hpage hparent ih =>
      rw [List.length_append, List.length_singleton] at hle
      by_cases hlast : depth ≤ path.length
      · exact ih hlast
      · have hid := h.mem_of_page hpage
        refine List.mem_map.mpr ⟨id, hid, ?_⟩
        rw [(h.reaches id hid).unique (Reaches.page hpage hparent), List.length_append,
          List.length_singleton]
        omega

/-- A chain of parents visits each listed entry at most once. -/
theorem path_length_le (h : CacheView cache listed order paths) {tip : Option EntryId}
    {path : PagePath} (hreaches : Reaches cache.page tip path) :
    path.length ≤ order.length := by
  have hsub : List.range' 1 path.length ⊆ order.map fun id => (paths id).length := by
    intro depth hdepth
    obtain ⟨hpos, hlt⟩ := List.mem_range'_1.mp hdepth
    exact h.exists_depth hreaches (by omega) (by omega)
  have hle := (List.Nodup.subperm List.nodup_range' hsub).length_le
  rwa [List.length_range', List.length_map] at hle

theorem node_of_mem (h : CacheView cache listed order paths) {node : Option EntryId}
    (hmem : ∀ id, node = some id → id ∈ order) : Node cache node :=
  fun id hid => (h.mem_order id).mp (hmem id hid)

end CacheView

end View

section Touch

variable {cache : PrefixCache} {listed : Listing} {order : List EntryId}
  {paths : EntryId → PagePath}

/-- A member taken out of the recency list; it stays in the arena. -/
theorem CacheView.wp_unlink (h : CacheView cache listed order paths) {id : EntryId}
    {front back : List EntryId} (horder : order = front ++ id :: back) :
    wp (PrefixCache.unlink id)
      (fun _ cache' => SameCore cache cache' ∧ cache'.ring.Represents (front ++ back))
      (fun _ _ => False) cache := by
  subst horder
  obtain ⟨entry, hentry⟩ := h.entry_of_mem (show id ∈ front ++ id :: back by simp)
  obtain ⟨hnext, hprev⟩ := h.ring.neighbours
  have hnewer : cache.ring.next (some id) = entry.newer := by
    simp [PrefixCache.ring, hentry]
  have holder : cache.ring.prev (some id) = entry.older := by
    simp [PrefixCache.ring, hentry]
  rw [hnewer] at hnext
  rw [holder] at hprev
  refine wp_mono (Scheduling.wp_unlink hentry (h.node_of_mem hprev) (h.node_of_mem hnext)) ?_
    (fun _ _ hf => hf.elim)
  rintro _ cache' ⟨hsame, hring⟩
  refine ⟨hsame, ?_⟩
  rw [hring]
  exact h.ring.unlink

/-- One round of `touch_path` moves an entry to the newest end. -/
theorem CacheView.wp_touch {id : EntryId} {front back : List EntryId}
    (h : CacheView cache listed (front ++ id :: back) paths) :
    wp (do PrefixCache.unlink id; PrefixCache.linkNewest id)
      (fun _ cache' => SameCore cache cache' ∧
        CacheView cache' listed (front ++ back ++ [id]) paths)
      (fun _ _ => False) cache := by
  obtain ⟨page, hpage⟩ := h.page_of_mem (show id ∈ front ++ id :: back by simp)
  refine wp_call (h.wp_unlink rfl) ?_ (fun _ _ hf => hf.elim)
  rintro _ middle ⟨hsame, hring⟩
  have hfresh : id ∉ front ++ back := by
    have hnodup := h.ring.nodup
    rw [List.nodup_middle, List.nodup_cons] at hnodup
    exact hnodup.1
  have hpage' : middle.page id = some page := by rw [hsame.page, hpage]
  obtain ⟨entry, hentry, _⟩ := entry_of_page hpage'
  have hnewest : Node middle middle.newest := by
    intro newest hnewest
    have hmem : newest ∈ front ++ back := hring.newest_mem hnewest
    rw [hsame.page, ← h.mem_order]
    rcases List.mem_append.mp hmem with hm | hm
    · exact List.mem_append_left _ hm
    · exact List.mem_append_right _ (List.mem_cons_of_mem _ hm)
  refine wp_mono (Scheduling.wp_linkNewest hentry hnewest) ?_ (fun _ _ hf => hf.elim)
  rintro _ cache' ⟨hsame', hring'⟩
  have hperm : (front ++ back ++ [id]).Perm (front ++ id :: back) := by
    rw [List.append_assoc]
    exact List.Perm.append_left front (List.perm_append_singleton id back)
  refine ⟨hsame.trans hsame', h.relink (hsame.trans hsame') hperm ?_⟩
  rw [hring']
  exact hring.linkNewest hfresh

/-- An entry and its ancestors, from the entry up. -/
inductive Ancestry (pages : EntryId → Option Page) : Option EntryId → List EntryId → Prop
  | root : Ancestry pages none []
  | page {id : EntryId} {page : Page} {above : List EntryId} :
      pages id = some page → Ancestry pages page.key.parent above →
      Ancestry pages (some id) (id :: above)

/-- A member moved to the newest end of a recency list. -/
def moveNewest (order : List EntryId) (id : EntryId) : List EntryId := order.erase id ++ [id]

theorem moveNewest_split {id : EntryId} {front back : List EntryId}
    (h : (front ++ id :: back).Nodup) :
    moveNewest (front ++ id :: back) id = front ++ back ++ [id] := by
  rw [List.nodup_middle, List.nodup_cons, List.mem_append, not_or] at h
  rw [moveNewest, List.erase_append_right _ h.1.1, List.erase_cons_head]

theorem wp_touchFrom (fuel : Nat) (h : CacheView cache listed order paths)
    {tip : Option EntryId} {above : List EntryId} (habove : Ancestry cache.page tip above)
    (hfuel : above.length ≤ fuel) :
    wp (PrefixCache.touchFrom fuel tip)
      (fun _ cache' => SameCore cache cache' ∧
        CacheView cache' listed (above.foldl moveNewest order) paths)
      (fun _ _ => False) cache := by
  induction fuel generalizing cache tip above order with
  | zero =>
      cases List.length_eq_zero_iff.mp (Nat.le_zero.mp hfuel)
      simp only [PrefixCache.touchFrom, wp_pure]
      exact ⟨SameCore.refl cache, h⟩
  | succ fuel ih =>
      cases habove with
      | root =>
          simp only [PrefixCache.touchFrom, wp_pure]
          exact ⟨SameCore.refl cache, h⟩
      | @page id page above hpage hparent =>
          rw [List.length_cons] at hfuel
          obtain ⟨front, back, rfl⟩ := List.append_of_mem (h.mem_of_page hpage)
          rw [PrefixCache.touchFrom]
          have hround : wp (do
                PrefixCache.unlink id
                PrefixCache.linkNewest id) (fun _ middle => wp (do
                  let cache ← get
                  let entry ← fromExcept (cache.entry id)
                  PrefixCache.touchFrom fuel entry.key.parent)
                (fun _ cache' => SameCore cache cache' ∧
                  CacheView cache' listed
                    ((id :: above).foldl moveNewest (front ++ id :: back)) paths)
                (fun _ _ => False) middle) (fun _ _ => False) cache := by
            refine wp_ok_mono h.wp_touch ?_
            rintro _ middle ⟨hsame, hview⟩
            have hpage' : middle.page id = some page := by rw [hsame.page, hpage]
            obtain ⟨entry, hentry, rfl⟩ := entry_of_page hpage'
            refine wp_read (wp_ofOk (entry_eq_ok hentry) ?_)
            have hparent' : Ancestry middle.page entry.key.parent above := by
              rw [hsame.page]
              exact hparent
            refine wp_ok_mono (ih hview hparent' (by omega)) ?_
            rintro _ cache' ⟨hsame', hview'⟩
            rw [List.foldl_cons, moveNewest_split h.ring.nodup]
            exact ⟨hsame.trans hsame', hview'⟩
          simpa only [wp_bind] using hround

theorem CacheView.ancestry_length_le (h : CacheView cache listed order paths)
    {tip : Option EntryId} {above : List EntryId} (habove : Ancestry cache.page tip above) :
    above.length ≤ order.length := by
  have hreaches : ∃ path, Reaches cache.page tip path ∧ path.length = above.length := by
    induction habove with
    | root => exact ⟨[], .root, rfl⟩
    | page hpage _ ih =>
        obtain ⟨path, hparent, hlength⟩ := ih
        refine ⟨_, .page hpage hparent, ?_⟩
        rw [List.length_append, List.length_singleton, List.length_cons, hlength]
  obtain ⟨path, hpath, hlength⟩ := hreaches
  rw [← hlength]
  exact h.path_length_le hpath

theorem CacheView.wp_touchAncestry (h : CacheView cache listed order paths)
    {tip : Option EntryId} {above : List EntryId} (habove : Ancestry cache.page tip above) :
    wp (PrefixCache.touchPath tip)
      (fun _ cache' => SameCore cache cache' ∧
        CacheView cache' listed (above.foldl moveNewest order) paths)
      (fun _ _ => False) cache := by
  unfold PrefixCache.touchPath
  refine wp_read (wp_touchFrom _ h habove ?_)
  exact (h.ancestry_length_le habove).trans h.order_length_le

end Touch

section Insert

variable {cache : PrefixCache} {listed : Listing} {order : List EntryId}
  {paths : EntryId → PagePath} {pages : EntryId → Option Page}

theorem Reaches.mono {pages' : EntryId → Option Page}
    (hkeys : ∀ id page, pages id = some page →
      ∃ page', pages' id = some page' ∧ page'.key = page.key)
    {tip : Option EntryId} {path : PagePath} (h : Reaches pages tip path) :
    Reaches pages' tip path := by
  induction h with
  | root => exact .root
  | page hpage _ ih =>
      obtain ⟨page', hpage', hkey⟩ := hkeys _ _ hpage
      rw [← hkey] at ih ⊢
      exact .page hpage' ih

/-- The pages with one child counted in or out of a parent. -/
def adjusted (pages : EntryId → Option Page) (parent : Option EntryId) (f : Nat → Nat)
    (id : EntryId) : Option Page :=
  (pages id).map fun page =>
    if parent = some id then { page with children := f page.children } else page

theorem adjusted_key {parent : Option EntryId} {f : Nat → Nat} {id : EntryId}
    {page : Page} (h : adjusted pages parent f id = some page) :
    ∃ old, pages id = some old ∧ page.key = old.key ∧ page.block = old.block ∧
      page.children = if parent = some id then f old.children else old.children := by
  obtain ⟨old, hold, rfl⟩ := Option.map_eq_some_iff.mp h
  refine ⟨old, hold, ?_⟩
  split <;> exact ⟨rfl, rfl, rfl⟩

theorem isChildOf_adjusted (parent : Option EntryId) (f : Nat → Nat)
    (above id : EntryId) :
    isChildOf (adjusted pages parent f) above id = isChildOf pages above id := by
  unfold isChildOf adjusted
  cases pages id with
  | none => rfl
  | some page =>
      simp only [Option.map_some, Option.any_some]
      split <;> rfl

theorem wp_adjustChildren {parent : Option EntryId} {f : Nat → Nat}
    (hnode : Node cache parent) :
    wp (PrefixCache.adjustChildren parent f)
      (fun _ cache' => cache'.page = adjusted cache.page parent f ∧
        cache'.ring = cache.ring ∧ cache'.capacity = cache.capacity ∧
        cache'.freeEntries = cache.freeEntries ∧ cache'.index = cache.index ∧
        cache'.length = cache.length ∧ cache'.entries.length = cache.entries.length)
      (fun _ _ => False) cache := by
  cases parent with
  | none =>
      refine (wp_pure ()).mpr ⟨?_, rfl, rfl, rfl, rfl, rfl, rfl⟩
      funext id
      unfold adjusted
      cases cache.page id <;> rfl
  | some above =>
      obtain ⟨entry, hentry⟩ := hnode.entry rfl
      have hlt := entryAt_lt hentry
      refine wp_modifyEntry hentry ⟨?_, ?_, rfl, rfl, rfl, rfl, ?_⟩
      · rw [page_setEntry _ _ _ hlt]
        funext id
        by_cases heq : id = above
        · subst heq
          simp [adjusted, page_of_entry hentry, Entry.page]
        · rw [Function.update_of_ne heq]
          have hne : ¬ some above = some id := fun h => heq (Option.some.inj h).symm
          unfold adjusted
          cases cache.page id <;> simp [hne]
      · unfold PrefixCache.ring
        congr 1
        · funext node
          cases node with
          | none => rfl
          | some other =>
              by_cases heq : other = above
              · subst heq
                simp [entryAt_setEntry, hlt, hentry]
              · simp [entryAt_setEntry, heq]
        · funext node
          cases node with
          | none => rfl
          | some other =>
              by_cases heq : other = above
              · subst heq
                simp [entryAt_setEntry, hlt, hentry]
              · simp [entryAt_setEntry, heq]
      · simp [PrefixCache.setEntry]

namespace CacheView

/-- Vacant and listed entries fill the arena. -/
theorem free_append_order (h : CacheView cache listed order paths) :
    (cache.freeEntries ++ order).Perm (List.range cache.entries.length) := by
  have hnodup : (cache.freeEntries ++ order).Nodup := by
    rw [List.nodup_append]
    refine ⟨h.free_nodup, h.ring.nodup, ?_⟩
    rintro a ha b hb rfl
    have hnone := ((h.free_iff a).mp ha).2
    have hsome := (h.mem_order a).mp hb
    rw [hnone] at hsome
    cases hsome
  refine (List.perm_ext_iff_of_nodup hnodup List.nodup_range).mpr fun id => ?_
  rw [List.mem_append, List.mem_range, h.free_iff, h.mem_order]
  constructor
  · rintro (⟨hlt, _⟩ | hsome)
    · exact hlt
    · obtain ⟨entry, hentry⟩ := h.entry_of_mem ((h.mem_order id).mpr hsome)
      exact entryAt_lt hentry
  · intro hlt
    cases hpage : cache.page id with
    | none => exact Or.inl ⟨hlt, rfl⟩
    | some page => exact Or.inr rfl

/-- The parent of a listed entry is listed. -/
theorem parent_mem (h : CacheView cache listed order paths) {id above : EntryId}
    {page : Page} (hpage : cache.page id = some page)
    (hparent : page.key.parent = some above) : above ∈ order := by
  obtain ⟨page', _, hpage', hreaches, _⟩ :=
    (h.reaches id (h.mem_of_page hpage)).page_of_some
  rw [hpage] at hpage'
  cases hpage'
  rw [hparent] at hreaches
  obtain ⟨_, _, habove, _, _⟩ := hreaches.page_of_some
  exact h.mem_of_page habove

end CacheView

/-- The view of an arena that took one more entry. -/
theorem CacheView.inserted (h : CacheView cache listed order paths) {after : PrefixCache}
    {key : Key} {block : BlockId} {path : PagePath} {id : EntryId} {rest : List EntryId}
    (hreaches : Reaches cache.page key.parent path)
    (habsent : cache.index key = none) (hfree : cache.freeEntries = id :: rest)
    (hentries : after.entries.length = cache.entries.length)
    (hcapacity : after.capacity = cache.capacity) (hafterFree : after.freeEntries = rest)
    (hindex : after.index = fun other => if other = key then some id else cache.index other)
    (hlength : after.length = cache.length + 1)
    (hpage : after.page = Function.update (adjusted cache.page key.parent (· + 1)) id
      (some ⟨key, block, 0⟩))
    (hring : after.ring.Represents (order ++ [id])) :
    CacheView after ((path ++ [key.tokens], block) ::ₘ listed) (order ++ [id])
      (Function.update paths id (path ++ [key.tokens])) ∧
    ∀ tip other, Reaches cache.page tip other → Reaches after.page tip other := by
  obtain ⟨hlt, hvacant⟩ := (h.free_iff id).mp (by rw [hfree]; exact List.mem_cons_self)
  have hidFresh : id ∉ order := by
    rw [h.mem_order, hvacant]
    simp
  have hparentNe : key.parent ≠ some id := by
    intro hp
    rw [hp] at hreaches
    obtain ⟨_, _, hpage', _, _⟩ := hreaches.page_of_some
    rw [hvacant] at hpage'
    cases hpage'
  have hself : after.page id = some ⟨key, block, 0⟩ := by rw [hpage, Function.update_self]
  have hother : ∀ other, other ≠ id →
      after.page other = adjusted cache.page key.parent (· + 1) other := by
    intro other hne
    rw [hpage, Function.update_of_ne hne]
  have hmono : ∀ other page, cache.page other = some page →
      ∃ page', after.page other = some page' ∧ page'.key = page.key ∧
        page'.block = page.block := by
    intro other page hp
    have hne : other ≠ id := by
      rintro rfl
      rw [hvacant] at hp
      cases hp
    rw [hother other hne]
    unfold adjusted
    rw [hp, Option.map_some]
    split <;> exact ⟨_, rfl, rfl, rfl⟩
  have hreachesMono : ∀ tip other, Reaches cache.page tip other →
      Reaches after.page tip other := fun _ _ hr => hr.mono fun other page hp => by
    obtain ⟨page', hpage', hkey, _⟩ := hmono other page hp
    exact ⟨page', hpage', hkey⟩
  have hchildren : ∀ above, order.countP (isChildOf after.page above) =
      order.countP (isChildOf cache.page above) := by
    intro above
    refine List.countP_congr fun child hchild => ?_
    have hne : child ≠ id := fun heq => hidFresh (heq ▸ hchild)
    unfold isChildOf
    rw [hother child hne]
    have hadjusted := @isChildOf_adjusted cache.page key.parent (· + 1) above child
    unfold isChildOf at hadjusted
    rw [hadjusted]
  have hnew : ∀ above, isChildOf after.page above id = decide (key.parent = some above) := by
    intro above
    simp [isChildOf, hself]
  refine ⟨?_, hreachesMono⟩
  constructor
  · rw [hentries, hcapacity, h.entries_length]
  · have hnodup := h.free_nodup
    rw [hfree, List.nodup_cons] at hnodup
    rw [hafterFree]
    exact hnodup.2
  · intro other
    have hnodup := h.free_nodup
    rw [hfree, List.nodup_cons] at hnodup
    have hfreeIff := h.free_iff other
    rw [hfree, List.mem_cons] at hfreeIff
    rw [hafterFree, hentries]
    by_cases heq : other = id
    · subst heq
      simp [hself, hnodup.1]
    · rw [hother other heq, adjusted, Option.map_eq_none_iff, ← hfreeIff]
      simp [heq]
  · rw [hlength, h.count, List.length_append, List.length_singleton]
  · exact hring
  · intro other
    rw [List.mem_append, List.mem_singleton, h.mem_order]
    by_cases heq : other = id
    · subst heq
      simp [hself]
    · rw [hother other heq, adjusted, Option.isSome_map]
      simp [heq]
  · intro other hmem
    rcases List.mem_append.mp hmem with hmem | hmem
    · have hne : other ≠ id := fun heq => hidFresh (heq ▸ hmem)
      rw [Function.update_of_ne hne]
      exact hreachesMono _ _ (h.reaches other hmem)
    · rw [List.mem_singleton.mp hmem, Function.update_self]
      exact Reaches.page hself (hreachesMono _ _ hreaches)
  · intro other page hp
    by_cases heq : other = id
    · subst heq
      rw [hself] at hp
      cases hp
      simp [hindex]
    · rw [hother other heq] at hp
      obtain ⟨old, hold, hkey, _, _⟩ := adjusted_key hp
      have hindexed := h.indexed other old hold
      have hne : page.key ≠ key := by
        intro hk
        rw [← hkey, hk, habsent] at hindexed
        cases hindexed
      rw [hindex]
      simp only [if_neg hne]
      rw [hkey]
      exact hindexed
  · intro k other hk
    rw [hindex] at hk
    simp only at hk
    split at hk
    · subst k
      cases hk
      exact ⟨_, hself, rfl⟩
    · obtain ⟨page, hp, hpk⟩ := h.index_page k other hk
      obtain ⟨page', hp', hkey, _⟩ := hmono other page hp
      exact ⟨page', hp', hkey.trans hpk⟩
  · intro other page hp
    rw [List.countP_append, hchildren, List.countP_singleton, hnew]
    by_cases heq : other = id
    · subst heq
      rw [hself] at hp
      cases hp
      have hzero : order.countP (isChildOf cache.page other) = 0 := by
        rw [List.countP_eq_zero]
        intro child _ hchild
        unfold isChildOf at hchild
        obtain ⟨page, hpage', hparent⟩ := (Option.any_eq_true _ _).mp hchild
        exact hidFresh (h.parent_mem hpage' (by simpa using hparent))
      simp [hzero, hparentNe]
    · rw [hother other heq] at hp
      obtain ⟨old, hold, _, _, hcount⟩ := adjusted_key hp
      rw [hcount, h.children other old hold]
      by_cases hparent : key.parent = some other
      · simp [hparent]
      · simp [hparent]
  · rw [h.listed_eq, Multiset.cons_coe, Multiset.coe_eq_coe]
    have hold : order.filterMap (listedAt after.page
        (Function.update paths id (path ++ [key.tokens]))) =
        order.filterMap (listedAt cache.page paths) := by
      refine List.filterMap_congr fun other hmem => ?_
      have hne : other ≠ id := fun heq => hidFresh (heq ▸ hmem)
      unfold listedAt
      rw [hother other hne, Function.update_of_ne hne]
      unfold adjusted
      cases cache.page other with
      | none => rfl
      | some page =>
          simp only [Option.map_some]
          split <;> rfl
    rw [List.filterMap_append, hold]
    have hlast : [id].filterMap (listedAt after.page
        (Function.update paths id (path ++ [key.tokens]))) =
        [(path ++ [key.tokens], block)] := by
      simp [listedAt, hself]
    rw [hlast]
    exact (List.perm_append_singleton _ _).symm

/-- Listing a block takes a vacant slot, and the new entry is the most recent. -/
theorem CacheView.wp_insert (h : CacheView cache listed order paths) {id : EntryId}
    {rest : List EntryId} (hfree : cache.freeEntries = id :: rest)
    {parent : Option EntryId} {path : PagePath} (hreaches : Reaches cache.page parent path)
    {tokens : List Nat} (hfull : tokens.length = kvBlockSize)
    (habsent : cache.index ⟨parent, tokens, hfull⟩ = none) (block : BlockId) :
    wp (PrefixCache.insert parent tokens block)
      (fun id' cache' => id' = id ∧
        CacheView cache' ((path ++ [tokens], block) ::ₘ listed) (order ++ [id])
          (Function.update paths id (path ++ [tokens])) ∧
        cache'.page = Function.update (adjusted cache.page parent (· + 1)) id
          (some ⟨⟨parent, tokens, hfull⟩, block, 0⟩) ∧
        (∀ tip other, Reaches cache.page tip other → Reaches cache'.page tip other) ∧
        cache'.capacity = cache.capacity ∧
        cache'.entries.length = cache.entries.length)
      (fun _ _ => False) cache := by
  obtain ⟨hlt, hvacant⟩ := (h.free_iff id).mp (by rw [hfree]; exact List.mem_cons_self)
  have hidFresh : id ∉ order := by
    rw [h.mem_order, hvacant]
    simp
  have hparentMem : ∀ above, parent = some above → above ∈ order := by
    rintro above rfl
    obtain ⟨_, _, habove, _, _⟩ := hreaches.page_of_some
    exact h.mem_of_page habove
  have hparentNe : parent ≠ some id := fun hp => hidFresh (hparentMem id hp)
  have hkey : Key.new parent tokens = .ok ⟨parent, tokens, hfull⟩ := by
    simp [Key.new, hfull]
  unfold PrefixCache.insert
  refine wp_ofOk hkey (wp_read ?_)
  rw [hfree]
  simp only [wp_bind, wp_set]
  refine wp_ok_mono (@wp_adjustChildren { cache with freeEntries := rest } _ _
    (h.node_of_mem hparentMem)) ?_
  rintro _ counted ⟨hpages, hring, hcapacity, hfreeEntries, hindexEq, hlength, hentries⟩
  simp only [wp_modify]
  let entry : Entry := ⟨⟨parent, tokens, hfull⟩, block, 0, none, none⟩
  have hlt' : id < counted.entries.length := by rw [hentries]; exact hlt
  have hentryAt : (counted.setEntry id (some entry)).entryAt id = some entry := by
    simp [entryAt_setEntry, hlt']
  have hring' : (counted.setEntry id (some entry)).ring.Represents order := by
    refine h.ring.congr ?_ ?_
    all_goals
      intro node hnode
      cases node with
      | none =>
          first
          | exact congrFun (congrArg LinkRing.next hring) none
          | exact congrFun (congrArg LinkRing.prev hring) none
      | some other =>
          have hne : other ≠ id := by
            rintro rfl
            exact hidFresh (by simpa using hnode)
          have hsame : (counted.setEntry id (some entry)).entryAt other =
              counted.entryAt other := by simp [entryAt_setEntry, hne]
          first
          | exact (congrArg (fun e => Option.bind e Entry.newer) hsame).trans
              (congrFun (congrArg LinkRing.next hring) (some other))
          | exact (congrArg (fun e => Option.bind e Entry.older) hsame).trans
              (congrFun (congrArg LinkRing.prev hring) (some other))
  have hpage : (counted.setEntry id (some entry)).page =
      Function.update (adjusted cache.page parent (· + 1)) id (some entry.page) := by
    rw [page_setEntry _ _ _ hlt', hpages]
    rfl
  have hnewest : Node (counted.setEntry id (some entry))
      (counted.setEntry id (some entry)).newest := by
    intro newest hnewest
    have hmem := hring'.newest_mem hnewest
    have hne : newest ≠ id := fun heq => hidFresh (heq ▸ hmem)
    rw [hpage, Function.update_of_ne hne]
    obtain ⟨page, hnewestPage⟩ := h.page_of_mem hmem
    simp [adjusted, hnewestPage]
  refine wp_ok_mono (Scheduling.wp_linkNewest hentryAt hnewest) ?_
  rintro _ linked ⟨hsame, hringLinked⟩
  simp only [wp_pure]
  have hafter := @CacheView.inserted _ _ _ _ h
    { linked.setIndex ⟨parent, tokens, hfull⟩ (some id) with length := linked.length + 1 }
    ⟨parent, tokens, hfull⟩ block _ _ _ hreaches habsent hfree
    (hsame.entries_length.trans (by simp [PrefixCache.setEntry, hentries]))
    (hsame.capacity.trans hcapacity) (hsame.freeEntries.trans hfreeEntries)
    (by
      funext other
      simp only [PrefixCache.setIndex]
      rw [hsame.index, show (counted.setEntry id (some entry)).index = counted.index from rfl,
        hindexEq])
    (by
      rw [hsame.length, show (counted.setEntry id (some entry)).length = counted.length
        from rfl, hlength])
    (hsame.page.trans hpage)
    (by
      refine Eq.mp ?_ (hring'.linkNewest hidFresh)
      rw [← hringLinked]
      rfl)
  refine ⟨trivial, hafter.1, hsame.page.trans hpage, hafter.2, hsame.capacity.trans hcapacity, ?_⟩
  exact hsame.entries_length.trans (by simp [PrefixCache.setEntry, hentries])

end Insert

/-- No listed path extends `path`. -/
def Leaf (listed : Listing) (path : PagePath) : Prop :=
  ∀ tokens block, (path ++ [tokens], block) ∉ listed

section Evict

variable {cache : PrefixCache} {listed : Listing} {order : List EntryId}
  {paths : EntryId → PagePath} {pool : KvBlockPool}
  {exclusive : Multiset (BlockId × SequenceId)} {held : Multiset BlockId}

/-- An entry without children is a leaf of the map. -/
theorem CacheView.leaf_iff (h : CacheView cache listed order paths) {id : EntryId}
    {page : Page} (hpage : cache.page id = some page) :
    page.children = 0 ↔ Leaf listed (paths id) := by
  have hid := h.mem_of_page hpage
  rw [h.children id page hpage, List.countP_eq_zero]
  constructor
  · intro hnone tokens block hmem
    obtain ⟨child, childPage, hchild, hreaches, _⟩ := h.mem_listed.mp hmem
    obtain ⟨page', front, hpage', hparent, hpath⟩ := hreaches.page_of_some
    obtain ⟨rfl, _⟩ := List.append_inj' hpath rfl
    have htip := h.reaches_injective hparent (h.reaches id hid)
    refine hnone child (h.mem_of_page hchild) ?_
    simp [isChildOf, hpage', htip]
  · intro hleaf child hchild hisChild
    unfold isChildOf at hisChild
    obtain ⟨childPage, hchildPage, hparent⟩ := (Option.any_eq_true _ _).mp hisChild
    have hparent' : childPage.key.parent = some id := by simpa using hparent
    have hreaches : Reaches cache.page (some child)
        (paths id ++ [childPage.key.tokens]) :=
      Reaches.page hchildPage (by rw [hparent']; exact h.reaches id hid)
    exact hleaf _ _ (h.mem_listed.mpr ⟨child, childPage, hchildPage, hreaches, rfl⟩)

/-- The view of an arena that lost one entry without children. -/
theorem CacheView.removed {front back : List EntryId} {id : EntryId}
    (h : CacheView cache listed (front ++ id :: back) paths) {page : Page}
    (hpage : cache.page id = some page) (hchildless : page.children = 0)
    {after : PrefixCache} (hentries : after.entries.length = cache.entries.length)
    (hcapacity : after.capacity = cache.capacity)
    (hfree : after.freeEntries = id :: cache.freeEntries)
    (hindex : after.index =
      fun other => if other = page.key then none else cache.index other)
    (hlength : after.length = cache.length - 1)
    (hafter : after.page =
      adjusted (Function.update cache.page id none) page.key.parent (· - 1))
    (hring : after.ring.Represents (front ++ back)) :
    ∃ rest, listed = (paths id, page.block) ::ₘ rest ∧
      CacheView after rest (front ++ back) paths ∧
      ∀ tip path, Reaches cache.page tip path → path ≠ paths id →
        Reaches after.page tip path := by
  have hleaf := (h.leaf_iff hpage).mp hchildless
  have hmemId : id ∈ front ++ id :: back := by simp
  have hfresh : id ∉ front ++ back := by
    have hnodup := h.ring.nodup
    rw [List.nodup_middle, List.nodup_cons] at hnodup
    exact hnodup.1
  have hmem : ∀ other, other ∈ front ++ id :: back ↔ other = id ∨ other ∈ front ++ back := by
    intro other
    simp only [List.mem_append, List.mem_cons]
    tauto
  have hself : after.page id = none := by
    rw [hafter]
    simp [adjusted]
  have hother : ∀ other, other ≠ id →
      after.page other = adjusted cache.page page.key.parent (· - 1) other := by
    intro other hne
    rw [hafter]
    simp [adjusted, Function.update_of_ne hne]
  have hkeys : ∀ other old, other ≠ id → cache.page other = some old →
      ∃ page', after.page other = some page' ∧ page'.key = old.key ∧
        page'.block = old.block := by
    intro other old hne hold
    rw [hother other hne]
    unfold adjusted
    rw [hold, Option.map_some]
    split <;> exact ⟨_, rfl, rfl, rfl⟩
  have hreaches : ∀ tip path, Reaches cache.page tip path → path ≠ paths id →
      Reaches after.page tip path := by
    intro tip path hr
    induction hr with
    | root => exact fun _ => .root
    | @page other old front' hold hparent ih =>
        intro hne
        have hother' : other ≠ id := by
          rintro rfl
          exact hne ((Reaches.page hold hparent).unique (h.reaches other hmemId))
        obtain ⟨page', hpage', hkey, _⟩ := hkeys other old hother' hold
        have hfront : front' ≠ paths id := by
          rintro rfl
          exact hleaf _ _ (h.mem_listed.mpr
            ⟨other, old, hold, Reaches.page hold hparent, rfl⟩)
        have hup := ih hfront
        rw [← hkey] at hup ⊢
        exact .page hpage' hup
  have hpathNe : ∀ other ∈ front ++ back, paths other ≠ paths id := by
    intro other hm heq
    have hr := h.reaches other ((hmem other).mpr (Or.inr hm))
    rw [heq] at hr
    have htip := h.reaches_injective hr (h.reaches id hmemId)
    exact hfresh (Option.some.inj htip ▸ hm)
  have hlisted : ∀ other ∈ front ++ back,
      listedAt after.page paths other = listedAt cache.page paths other := by
    intro other hm
    have hne : other ≠ id := fun heq => hfresh (heq ▸ hm)
    unfold listedAt
    rw [hother other hne]
    unfold adjusted
    cases cache.page other with
    | none => rfl
    | some old =>
        simp only [Option.map_some]
        split <;> rfl
  refine ⟨((front ++ back).filterMap (listedAt after.page paths) : List _), ?_, ?_, hreaches⟩
  · have hself' : listedAt cache.page paths id = some (paths id, page.block) := by
      simp [listedAt, hpage]
    rw [List.filterMap_congr hlisted, h.listed_eq, Multiset.cons_coe,
      Multiset.coe_eq_coe]
    have hperm : (front ++ id :: back).Perm (id :: (front ++ back)) := List.perm_middle
    have hmapped := hperm.filterMap (listedAt cache.page paths)
    rwa [List.filterMap_cons_some hself'] at hmapped
  · constructor
    · rw [hentries, hcapacity, h.entries_length]
    · rw [hfree, List.nodup_cons]
      refine ⟨fun hmemFree => ?_, h.free_nodup⟩
      have hnone := ((h.free_iff id).mp hmemFree).2
      rw [hpage] at hnone
      cases hnone
    · intro other
      rw [hfree, hentries, List.mem_cons, h.free_iff]
      by_cases heq : other = id
      · subst heq
        obtain ⟨entry, hentry, _⟩ := entry_of_page hpage
        simp [hself, entryAt_lt hentry]
      · rw [hother other heq, adjusted, Option.map_eq_none_iff]
        simp [heq]
    · rw [hlength, h.count]
      simp only [List.length_append, List.length_cons]
      omega
    · exact hring
    · intro other
      by_cases heq : other = id
      · subst heq
        simp [hself, hfresh]
      · rw [hother other heq, adjusted, Option.isSome_map, ← h.mem_order, hmem]
        simp [heq]
    · intro other hm
      exact hreaches _ _ (h.reaches other ((hmem other).mpr (Or.inr hm))) (hpathNe other hm)
    · intro other page' hp
      have hne : other ≠ id := by
        rintro rfl
        rw [hself] at hp
        cases hp
      rw [hother other hne] at hp
      obtain ⟨old, hold, hkey, _, _⟩ := adjusted_key hp
      have hindexed := h.indexed other old hold
      have hkeyNe : old.key ≠ page.key := by
        intro hk
        rw [hk, h.indexed id page hpage] at hindexed
        exact hne (Option.some.inj hindexed).symm
      rw [hindex, hkey]
      simp only [if_neg hkeyNe]
      exact hindexed
    · intro key other hk
      rw [hindex] at hk
      simp only at hk
      split at hk
      · cases hk
      · obtain ⟨old, hold, rfl⟩ := h.index_page key other hk
        have hne : other ≠ id := by
          rintro rfl
          rw [hpage] at hold
          cases hold
          exact absurd rfl ‹_›
        obtain ⟨page', hpage', hkey, _⟩ := hkeys other old hne hold
        exact ⟨page', hpage', hkey⟩
    · intro other page' hp
      have hne : other ≠ id := by
        rintro rfl
        rw [hself] at hp
        cases hp
      rw [hother other hne] at hp
      obtain ⟨old, hold, _, _, hcount⟩ := adjusted_key hp
      have hchild : (front ++ back).countP (isChildOf after.page other) =
          (front ++ back).countP (isChildOf cache.page other) := by
        refine List.countP_congr fun child hm => ?_
        have hchildNe : child ≠ id := fun heq => hfresh (heq ▸ hm)
        have hadjusted := @isChildOf_adjusted cache.page page.key.parent (· - 1)
          other child
        unfold isChildOf at hadjusted ⊢
        rw [hother child hchildNe, hadjusted]
      have hold' := h.children other old hold
      rw [List.countP_append, List.countP_cons] at hold'
      have hid : isChildOf cache.page other id = decide (page.key.parent = some other) := by
        simp [isChildOf, hpage]
      rw [hid] at hold'
      rw [hcount, hchild, List.countP_append]
      by_cases hparent : page.key.parent = some other
      · simp [hparent] at hold' ⊢
        omega
      · simp [hparent] at hold' ⊢
        omega
    · rfl

/-- Unlisting an entry without children, where its hold can be given back. -/
theorem CacheView.wp_remove {front back : List EntryId} {id : EntryId}
    (h : CacheView cache listed (front ++ id :: back) paths) {page : Page}
    (hpage : cache.page id = some page) (hchildless : page.children = 0)
    {kept : KvBlockPool → Prop}
    (hrelease : wp (KvBlockPool.releaseSharedBlock page.block) (fun _ pool' => kept pool')
      (fun _ _ => False) pool) :
    wp (PrefixCache.remove id)
      (fun _ state => kept state.pool ∧ ∃ rest, listed = (paths id, page.block) ::ₘ rest ∧
        CacheView state.cache rest (front ++ back) paths ∧
        state.cache.capacity = cache.capacity ∧
        state.cache.page =
          adjusted (Function.update cache.page id none) page.key.parent (· - 1) ∧
        (∀ tip path, Reaches cache.page tip path → path ≠ paths id →
          Reaches state.cache.page tip path))
      (fun _ _ => False) ⟨cache, pool⟩ := by
  unfold PrefixCache.remove
  refine wp_seq ((wp_zoom _ _ _ _ _).mpr ?_)
  refine wp_mono (h.wp_unlink rfl) ?_ (fun _ _ hf => hf.elim)
  rintro _ unlinked ⟨hsame, hring⟩
  have hpage' : unlinked.page id = some page := by rw [hsame.page, hpage]
  obtain ⟨entry, hentry, hentryPage⟩ := entry_of_page hpage'
  have hblock : entry.block = page.block := by rw [← hentryPage]; rfl
  have hkey : entry.key = page.key := by rw [← hentryPage]; rfl
  have hlt := entryAt_lt hentry
  refine wp_read (wp_some hentry ?_)
  rw [hblock, hkey]
  simp only [onIndex, onCachePool, wp_bind, wp_zoom, wp_modify]
  refine wp_ok_mono hrelease ?_
  rintro _ pool' hkept
  have hfreshId : id ∉ front ++ back := by
    have hnodup := h.ring.nodup
    rw [List.nodup_middle, List.nodup_cons] at hnodup
    exact hnodup.1
  let vacated := (unlinked.setEntry id none).setIndex page.key none
  have hvacated : vacated.page = Function.update cache.page id none := by
    have hset := page_setEntry unlinked id none hlt
    rw [hsame.page] at hset
    exact hset
  have hnode : Node vacated page.key.parent := by
    intro above habove
    have hne : above ≠ id := by
      rintro rfl
      have hleaf := (h.leaf_iff hpage).mp hchildless
      obtain ⟨page'', front', hpage'', hreaches, hpath⟩ :=
        (h.reaches above (by simp)).page_of_some
      rw [hpage] at hpage''
      cases hpage''
      rw [habove] at hreaches
      have := congrArg List.length (hreaches.unique (h.reaches above (by simp)))
      rw [hpath, List.length_append, List.length_singleton] at this
      omega
    rw [hvacated, Function.update_of_ne hne]
    exact (h.mem_order above).mp (h.parent_mem hpage habove)
  refine wp_mono (wp_adjustChildren hnode) ?_ (fun _ _ hf => hf.elim)
  rintro _ counted ⟨hpages, hringCounted, hcapacity, hfreeEntries, hindexEq, hlength,
    hentries⟩
  have hvacatedRing : vacated.ring.Represents (front ++ back) := by
    refine hring.congr ?_ ?_
    all_goals
      intro node hmember
      cases node with
      | none => rfl
      | some other =>
          have hne : other ≠ id := by
            rintro rfl
            exact hfreshId (by simpa using hmember)
          have hsameEntry : vacated.entryAt other = unlinked.entryAt other := by
            change (unlinked.setEntry id none).entryAt other = _
            rw [entryAt_setEntry, if_neg (fun hc => hne hc.1)]
          first
          | exact congrArg (fun e => Option.bind e Entry.newer) hsameEntry
          | exact congrArg (fun e => Option.bind e Entry.older) hsameEntry
  obtain ⟨rest, hlisted, hview, hreaches⟩ := @CacheView.removed _ _ _ _ _ _ h _ hpage hchildless
    { counted with
      freeEntries := id :: counted.freeEntries, length := counted.length - 1 }
    (hentries.trans (by
      simp only [PrefixCache.setIndex, PrefixCache.setEntry, List.length_set]
      exact hsame.entries_length))
    (hcapacity.trans hsame.capacity)
    (by rw [hfreeEntries]; exact congrArg (id :: ·) hsame.freeEntries)
    (by
      funext other
      rw [hindexEq]
      simp only [PrefixCache.setIndex, PrefixCache.setEntry, hsame.index])
    (by rw [hlength]; exact congrArg (· - 1) hsame.length)
    (by
      rw [← hvacated]
      exact hpages)
    (by
      refine Eq.mp ?_ hvacatedRing
      rw [← hringCounted]
      rfl)
  refine ⟨hkept, rest, hlisted, hview, hcapacity.trans hsame.capacity, ?_, hreaches⟩
  rw [← hvacated]
  exact hpages

theorem CacheView.mem_listed_at (h : CacheView cache listed order paths) {id : EntryId}
    {page : Page} (hpage : cache.page id = some page) :
    (paths id, page.block) ∈ listed :=
  h.mem_listed.mpr ⟨id, page, hpage, h.reaches id (h.mem_of_page hpage), rfl⟩

/-- An entry without children whose block is held by the index alone. -/
def Evictable (state : CacheState) (id : EntryId) : Prop :=
  ∃ page, state.cache.page id = some page ∧ page.children = 0 ∧
    state.pool.sharedReferences page.block = .ok 1

/-- The first evictable entry of a recency list left the index, and the hold on its block
was given back. -/
structure Dropped (before after : CacheState) (listed rest : Listing)
    (paths : EntryId → PagePath) (front : List EntryId) (id : EntryId) (back : List EntryId)
    (page : Page) : Prop where
  found : before.cache.page id = some page
  childless : page.children = 0
  unheld : before.pool.sharedReferences page.block = .ok 1
  first : ∀ other ∈ front, ¬ Evictable before other
  released : KvBlockPool.releaseSharedBlock page.block before.pool = .ok () after.pool
  listed_eq : listed = (paths id, page.block) ::ₘ rest
  view : CacheView after.cache rest (front ++ back) paths
  capacity : after.cache.capacity = before.cache.capacity
  page_eq : after.cache.page =
    adjusted (Function.update before.cache.page id none) page.key.parent (· - 1)
  reaches : ∀ tip path, Reaches before.cache.page tip path → path ≠ paths id →
    Reaches after.cache.page tip path

/-- `evict_one` drops the first evictable entry, or answers that there is none. -/
def DropOutcome (before : CacheState) (listed : Listing) (order : List EntryId)
    (paths : EntryId → PagePath) (evicted : Bool) (after : CacheState) : Prop :=
  (evicted = true ∧ ∃ front id back page rest, order = front ++ id :: back ∧
    Dropped before after listed rest paths front id back page) ∨
  (evicted = false ∧ after = before ∧ ∀ id ∈ order, ¬ Evictable before id)

theorem wp_releaseUnheld {block : BlockId} (h : pool.sharedReferences block = .ok 1) :
    wp (KvBlockPool.releaseSharedBlock block)
      (fun _ pool' => KvBlockPool.releaseSharedBlock block pool = .ok () pool')
      (fun _ _ => False) pool := by
  have hdrops : wp (KvBlockPool.releaseSharedBlock block) (fun _ _ => True)
      (fun _ _ => False) pool := by
    unfold KvBlockPool.releaseSharedBlock
    simp [h]
  exact wp_ok_mono (wp_ran hdrops) fun _ _ hrun => hrun.1

theorem CacheView.wp_evictFrom (fuel : Nat) {done rest : List EntryId}
    (h : CacheView cache listed (done ++ rest) paths)
    (hshared : ∀ id page, cache.page id = some page →
      ∃ references, pool.sharedReferences page.block = .ok references)
    (hdone : ∀ id ∈ done, ¬ Evictable ⟨cache, pool⟩ id) (hfuel : rest.length ≤ fuel) :
    wp (PrefixCache.evictFrom fuel rest.head?)
      (DropOutcome ⟨cache, pool⟩ listed (done ++ rest) paths) (fun _ _ => False)
      ⟨cache, pool⟩ := by
  induction fuel generalizing done rest with
  | zero =>
      cases List.length_eq_zero_iff.mp (Nat.le_zero.mp hfuel)
      simp only [PrefixCache.evictFrom, wp_pure]
      rw [List.append_nil]
      exact Or.inr ⟨rfl, rfl, hdone⟩
  | succ fuel ih =>
      cases rest with
      | nil =>
          simp only [List.head?_nil, PrefixCache.evictFrom, wp_pure]
          rw [List.append_nil]
          exact Or.inr ⟨rfl, rfl, hdone⟩
      | cons id rest =>
          obtain ⟨entry, hentry⟩ := h.entry_of_mem (show id ∈ done ++ id :: rest by simp)
          have hpage := page_of_entry hentry
          have hnewer : entry.newer = rest.head? := by
            have hnext := h.ring.next_eq
            simp only [PrefixCache.ring, hentry, Option.bind_some] at hnext
            rw [hnext]
            cases rest <;> rfl
          have hsplit : done ++ id :: rest = (done ++ [id]) ++ rest := by
            rw [List.append_assoc, List.singleton_append]
          have hnextRound : ¬ Evictable ⟨cache, pool⟩ id →
              wp (PrefixCache.evictFrom fuel entry.newer)
                (DropOutcome ⟨cache, pool⟩ listed (done ++ id :: rest) paths)
                (fun _ _ => False) ⟨cache, pool⟩ := by
            intro hskip
            rw [hnewer, hsplit]
            refine ih (hsplit ▸ h) ?_ (Nat.le_of_succ_le_succ hfuel)
            intro other hother
            rcases List.mem_append.mp hother with hother | hother
            · exact hdone other hother
            · rw [List.mem_singleton.mp hother]
              exact hskip
          rw [List.head?_cons, PrefixCache.evictFrom]
          refine wp_read (wp_ofOk (entry_eq_ok hentry) ?_)
          refine wp_ite (fun hchildless => ?_) (fun hchildren => ?_)
          · obtain ⟨references, hreferences⟩ := hshared id _ hpage
            have hreferences' : pool.sharedReferences entry.block = .ok references := hreferences
            refine wp_seq ((wp_zoom _ _ _ _ _).mpr ?_)
            rw [hreferences']
            refine wp_ite (fun hone => ?_) (fun hmany => ?_)
            · rw [hone] at hreferences
              have hremove := h.wp_remove hpage hchildless (wp_releaseUnheld hreferences)
              refine wp_call hremove ?_ (fun _ _ hf => hf.elim)
              rintro _ state ⟨hreleased, rest', hlisted, hview, hcapacity, hpages, hreaches⟩
              rw [wp_pure]
              exact Or.inl ⟨rfl, done, id, rest, entry.page, rest', rfl, hpage, hchildless,
                hreferences, hdone, hreleased, hlisted, hview, hcapacity, hpages, hreaches⟩
            · apply hnextRound
              rintro ⟨page, hfound, _, hone⟩
              cases hpage.symm.trans hfound
              rw [hreferences] at hone
              exact hmany (Except.ok.inj hone)
          · apply hnextRound
            rintro ⟨page, hfound, hchildless, _⟩
            cases hpage.symm.trans hfound
            exact hchildren hchildless

theorem CacheView.wp_evictOne (h : CacheView cache listed order paths)
    (hshared : ∀ id page, cache.page id = some page →
      ∃ references, pool.sharedReferences page.block = .ok references) :
    wp PrefixCache.evictOne (DropOutcome ⟨cache, pool⟩ listed order paths) (fun _ _ => False)
      ⟨cache, pool⟩ := by
  unfold PrefixCache.evictOne
  refine wp_read ?_
  have holdest : cache.oldest = order.head? := h.ring.oldest_eq
  rw [holdest]
  exact @CacheView.wp_evictFrom _ _ _ _ _ [] _ h hshared (fun _ hid => absurd hid (by simp))
    h.order_length_le

end Evict

section Clear

variable {cache : PrefixCache} {listed : Listing} {order : List EntryId}
  {paths : EntryId → PagePath} {pool : KvBlockPool}
  {exclusive : Multiset (BlockId × SequenceId)} {held : Multiset BlockId}

/-- The blocks of the entries at the given positions. -/
def blocksAt (pages : EntryId → Option Page) (ids : List EntryId) : List BlockId :=
  ids.filterMap fun id => (pages id).map Page.block

theorem CacheView.listed_blocks (h : CacheView cache listed order paths) :
    listed.map Prod.snd =
      (blocksAt cache.page (List.range cache.entries.length) : Multiset BlockId) := by
  have hmap : listed.map Prod.snd = (blocksAt cache.page order : Multiset BlockId) := by
    rw [h.listed_eq, Multiset.map_coe, List.map_filterMap]
    congr 2
    funext id
    unfold listedAt
    cases cache.page id <;> rfl
  have hvacant : blocksAt cache.page cache.freeEntries = [] := by
    rw [blocksAt, List.filterMap_eq_nil_iff]
    intro id hid
    rw [((h.free_iff id).mp hid).2]
    rfl
  have hperm := h.free_append_order.filterMap fun id => (cache.page id).map Page.block
  rw [List.filterMap_append] at hperm
  change (blocksAt cache.page cache.freeEntries ++ _).Perm _ at hperm
  rw [hvacant, List.nil_append] at hperm
  rw [hmap]
  exact Multiset.coe_eq_coe.mpr hperm

/-- What holds while `clear` works through the arena. -/
private structure Clearing (cache : PrefixCache) (holds : List BlockId → KvBlockPool → Prop)
    (rest : List EntryId) (state : CacheState) : Prop where
  entries_length : state.cache.entries.length = cache.entries.length
  capacity : state.cache.capacity = cache.capacity
  todo : ∀ id ∈ rest, state.cache.page id = cache.page id
  nodup : rest.Nodup
  done : ∀ id, id ∉ rest → state.cache.page id = none
  free_nodup : state.cache.freeEntries.Nodup
  free_iff : ∀ id, id ∈ state.cache.freeEntries ↔
    id < cache.entries.length ∧ state.cache.page id = none
  holds : holds (blocksAt cache.page rest) state.pool

private theorem wp_clearEntry {holds : List BlockId → KvBlockPool → Prop}
    (hrelease : ∀ block rest pool, holds (block :: rest) pool →
      wp (KvBlockPool.releaseSharedBlock block) (fun _ pool' => holds rest pool')
        (fun _ _ => False) pool)
    {id : EntryId} {rest : List EntryId} {state : CacheState}
    (h : Clearing cache holds (id :: rest) state) :
    wp (PrefixCache.clearEntry id)
      (fun _ after => Clearing cache holds rest after)
      (fun _ _ => False) state := by
  have hnodup := List.nodup_cons.mp h.nodup
  have hpage := h.todo id List.mem_cons_self
  have htodo : ∀ other ∈ rest, state.cache.page other = cache.page other :=
    fun other hother => h.todo other (List.mem_cons_of_mem _ hother)
  have hholds := h.holds
  unfold PrefixCache.clearEntry
  refine wp_read ?_
  cases hentry : state.cache.entryAt id with
  | none =>
      have hnone : state.cache.page id = none := by simp [PrefixCache.page, hentry]
      rw [blocksAt, List.filterMap_cons_none (by rw [← hpage, hnone]; rfl)] at hholds
      refine (wp_pure ()).mpr ⟨h.entries_length, h.capacity, htodo, hnodup.2, ?_,
        h.free_nodup, h.free_iff, hholds⟩
      intro other hother
      by_cases heq : other = id
      · rw [heq, hnone]
      · exact h.done other (by simp [heq, hother])
  | some entry =>
      have hsome := page_of_entry hentry
      have hlt := entryAt_lt hentry
      rw [blocksAt, List.filterMap_cons_some (by rw [← hpage, hsome]; rfl)]
        at hholds
      simp only [onIndex, onCachePool, wp_bind, wp_zoom, wp_modify]
      refine wp_ok_mono (hrelease _ _ _ hholds) ?_
      rintro _ pool' hholds'
      have hupdate := page_setEntry state.cache id none hlt
      have hself : (state.cache.setEntry id none).page id = none := by
        rw [hupdate, Function.update_self]
        rfl
      have hother : ∀ other, other ≠ id →
          (state.cache.setEntry id none).page other = state.cache.page other := by
        intro other hne
        rw [hupdate, Function.update_of_ne hne]
      have hnotFree : id ∉ state.cache.freeEntries := by
        intro hfree
        have hnone := ((h.free_iff id).mp hfree).2
        rw [hsome] at hnone
        cases hnone
      refine ⟨?_, h.capacity, ?_, hnodup.2, ?_,
        List.nodup_cons.mpr ⟨hnotFree, h.free_nodup⟩, ?_, hholds'⟩
      · simpa [PrefixCache.setEntry] using h.entries_length
      · intro other hmem
        have hne : other ≠ id := fun heq => hnodup.1 (heq ▸ hmem)
        exact (hother other hne).trans (htodo other hmem)
      · intro other hmem
        by_cases heq : other = id
        · rw [heq]
          exact hself
        · exact (hother other heq).trans (h.done other (by simp [heq, hmem]))
      · intro other
        change other ∈ id :: state.cache.freeEntries ↔
          _ ∧ (state.cache.setEntry id none).page other = none
        rw [List.mem_cons, h.free_iff]
        by_cases heq : other = id
        · subst heq
          rw [h.entries_length] at hlt
          simp [hself, hlt]
        · rw [hother other heq]
          simp [heq]

theorem CacheView.wp_clear (h : CacheView cache listed order paths)
    {holds : List BlockId → KvBlockPool → Prop}
    (hrelease : ∀ block rest pool, holds (block :: rest) pool →
      wp (KvBlockPool.releaseSharedBlock block) (fun _ pool' => holds rest pool')
        (fun _ _ => False) pool)
    (hholds : holds (blocksAt cache.page (List.range cache.entries.length)) pool) :
    wp PrefixCache.clear
      (fun _ state => CacheView state.cache 0 [] paths ∧
        state.cache.capacity = cache.capacity ∧
        state.cache.entries.length = cache.entries.length ∧ holds [] state.pool)
      (fun _ _ => False) ⟨cache, pool⟩ := by
  unfold PrefixCache.clear
  refine wp_read (wp_seq (wp_forEach (Clearing cache holds) _ _
    (fun id rest state hstate => wp_clearEntry hrelease hstate) ?_ ?_))
  · intro state hdone
    simp only [onIndex, wp_zoom, wp_modify]
    have hempty : ∀ id, state.cache.page id = none := fun id => hdone.done id (by simp)
    refine ⟨?_, hdone.capacity, hdone.entries_length, hdone.holds⟩
    constructor
    · exact hdone.entries_length.trans (h.entries_length.trans hdone.capacity.symm)
    · exact hdone.free_nodup
    · intro id
      rw [show state.cache.entries.length = cache.entries.length from hdone.entries_length]
      exact hdone.free_iff id
    · rfl
    · exact LinkRing.represents_nil rfl rfl
    · intro id
      change id ∈ [] ↔ (state.cache.page id).isSome
      simp [hempty id]
    · intro id hid
      cases hid
    · intro id page hpage
      change state.cache.page id = some page at hpage
      rw [hempty id] at hpage
      cases hpage
    · intro key id hindex
      cases hindex
    · intro id page hpage
      change state.cache.page id = some page at hpage
      rw [hempty id] at hpage
      cases hpage
    · rfl
  · refine ⟨rfl, rfl, fun _ _ => rfl, List.nodup_range, ?_, h.free_nodup,
      h.free_iff, hholds⟩
    intro id hid
    cases hpage : cache.page id with
    | none => rfl
    | some page =>
        obtain ⟨entry, hentry, _⟩ := entry_of_page hpage
        exact absurd (List.mem_range.mpr (entryAt_lt hentry)) hid

/-- The length that the index keeps is the number of listed paths, and the
arena bounds it. -/
theorem CacheOk.length_eq {listed : Listing} {cache : PrefixCache} (h : CacheOk cache listed) :
    cache.length = listed.card ∧ cache.length ≤ cache.capacity := by
  obtain ⟨order, paths, hview⟩ := h
  have hall : (order.filterMap (listedAt cache.page paths)).length = order.length := by
    rw [List.filterMap_length_eq_length]
    intro id hid
    obtain ⟨page, hpage⟩ := hview.page_of_mem hid
    simp [listedAt, hpage]
  refine ⟨?_, ?_⟩
  · rw [hview.count, hview.listed_eq, Multiset.coe_card, hall]
  · rw [hview.count, ← hview.entries_length]
    exact hview.order_length_le

/-- A new index lists nothing. -/
theorem wp_newCache {capacity : Nat} {host : List Bool} :
    wp (PrefixCache.new capacity)
      (fun cache host' => CacheOk cache 0 ∧ cache.capacity = capacity ∧
        (host = [] → host' = []))
      (fun error _ => error = .invalidConfiguration "prefix_cache.capacity"
          "must fit the U32 entry index" ∧ u32Max < capacity ∨
        ∃ resource, error = .hostAllocation resource) host := by
  unfold PrefixCache.new
  refine wp_check (fun hlarge => Or.inl ⟨rfl, hlarge⟩) (fun _ => ?_)
  refine wp_seq (wp_forEach (fun _ host' => host = [] → host' = []) _ _ ?_ ?_ id)
  · intro resource rest host' hhost
    refine wp_mono wp_hostReserve (fun _ host'' h hnil => h (hhost hnil)) ?_
    rintro e host'' ⟨rfl, _⟩
    exact Or.inr ⟨resource, rfl⟩
  · intro host' hhost
    simp only [wp_pure]
    have hempty : ∀ id : EntryId, ((List.replicate capacity (none : Option Entry))[id]?).join =
        none := by
      intro id
      rw [List.getElem?_replicate]
      split <;> rfl
    refine ⟨⟨[], fun _ => [], ?_⟩, trivial, hhost⟩
    constructor
    · simp
    · exact List.nodup_range
    · intro id
      simp [PrefixCache.page, PrefixCache.entryAt, hempty]
    · rfl
    · exact LinkRing.represents_nil rfl rfl
    · intro id
      simp [PrefixCache.page, PrefixCache.entryAt, hempty]
    · intro id hid
      cases hid
    · intro id page hpage
      simp [PrefixCache.page, PrefixCache.entryAt, hempty] at hpage
    · intro key id hindex
      cases hindex
    · intro id page hpage
      simp [PrefixCache.page, PrefixCache.entryAt, hempty] at hpage
    · rfl

end Clear

end Riley.Scheduling
