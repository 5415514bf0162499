import Mathlib.Logic.Relation
import Riley.Scheduling.CacheSpec

/-!
Whole runs of the prefix index, over a pool that the requests change in between. The ghost
list `used` has the listed entries in the order of their last use; the recency list of the
arena visits exactly these, and `evict_one` drops the first of them that it may.
-/

namespace Riley.Scheduling

open PagedKv Outcome Recency

namespace PrefixCache

/-- The blocks of the live entries. -/
def blocks (cache : PrefixCache) : Multiset BlockId :=
  ((List.range cache.entries.length).filterMap fun id => (cache.entryAt id).map Entry.block :
    List BlockId)

/-- Live entries right under a live entry. -/
def childCount (cache : PrefixCache) (id : EntryId) : Nat :=
  (List.range cache.entries.length).countP fun child =>
    (cache.entryAt child).any fun entry => entry.key.parent = some id

end PrefixCache

/-- The pool keeps at least one hold for each of the blocks. -/
def Backs (pool : KvBlockPool) (blocks : Multiset BlockId) : Prop :=
  ∀ block ∈ blocks, ∃ references, pool.sharedReferences block = .ok references ∧
    blocks.count block ≤ references

structure UsedCache where
  cache : PrefixCache
  pool : KvBlockPool
  /-- The listed entries, least recently used first. -/
  used : List EntryId

namespace UsedCache

def state (s : UsedCache) : CacheState := ⟨s.cache, s.pool⟩

/-- After a call: entries that left the index are forgotten. -/
def keeping (s : UsedCache) (next : CacheState) : UsedCache :=
  ⟨next.cache, next.pool, s.used.filter fun id => (next.cache.entryAt id).isSome⟩

/-- One call. `find` only reads. A caller of `insert` hands over a hold, has looked the key up
and names a live parent; `remove` is called on entries without children. -/
inductive Step : UsedCache → UsedCache → Prop
  | insert {s : UsedCache} {parent : Option EntryId} {tokens : List Nat} {block : BlockId}
      {id : EntryId} {next : CacheState}
      (hlive : ∀ above, parent = some above → (s.cache.entryAt above).isSome)
      (habsent : ∀ found, s.cache.find parent tokens ≠ .ok (some found))
      (hhold : Backs s.pool (block ::ₘ s.cache.blocks))
      (hrun : onIndex (PrefixCache.insert parent tokens block) s.state = .ok id next) :
      Step s ⟨next.cache, next.pool, s.used ++ [id]⟩
  | insertFails {s : UsedCache} {parent : Option EntryId} {tokens : List Nat} {block : BlockId}
      {error : SchedulerError} {next : CacheState}
      (hlive : ∀ above, parent = some above → (s.cache.entryAt above).isSome)
      (habsent : ∀ found, s.cache.find parent tokens ≠ .ok (some found))
      (hrun : onIndex (PrefixCache.insert parent tokens block) s.state = .error error next) :
      Step s (s.keeping next)
  | touchPath {s : UsedCache} {tip : Option EntryId} {above : List EntryId}
      (habove : Ancestry s.cache.page tip above) :
      Step s
        { s.keeping (after (onIndex (PrefixCache.touchPath tip)) s.state) with
          used := above.foldl moveNewest s.used }
  | touchVacant {s : UsedCache} {id : EntryId} (hvacant : s.cache.entryAt id = none) :
      Step s (s.keeping (after (onIndex (PrefixCache.touchPath (some id))) s.state))
  | evictOne {s : UsedCache} : Step s (s.keeping (after PrefixCache.evictOne s.state))
  | remove {s : UsedCache} {id : EntryId}
      (hchildless : ∀ entry, s.cache.entryAt id = some entry → entry.children = 0) :
      Step s (s.keeping (after (PrefixCache.remove id) s.state))
  | clear {s : UsedCache} : Step s (s.keeping (after PrefixCache.clear s.state))
  | others {s : UsedCache} {pool : KvBlockPool} (hhold : Backs pool s.cache.blocks) :
      Step s { s with pool := pool }

/-- The representation invariant of the index. -/
structure Coherent (s : UsedCache) : Prop where
  /-- The recency list is doubly linked and visits exactly the live entries, each once. -/
  linked : s.cache.ring.Represents s.used
  live : ∀ id, id ∈ s.used ↔ (s.cache.entryAt id).isSome
  length : s.cache.length = s.used.length
  /-- Keys and live entries correspond one to one. -/
  indexed : ∀ key id, s.cache.index key = some id ↔
    ∃ entry, s.cache.entryAt id = some entry ∧ entry.key = key
  parent_live : ∀ id entry above, s.cache.entryAt id = some entry →
    entry.key.parent = some above → (s.cache.entryAt above).isSome
  children : ∀ id entry, s.cache.entryAt id = some entry →
    entry.children = s.cache.childCount id
  /-- Vacant and live slots are the whole arena, each slot once. -/
  slots : (s.cache.freeEntries ++ s.used).Perm (List.range s.cache.entries.length)

/-- A live entry without children whose only hold is that of the index. -/
def MayEvict (s : UsedCache) (id : EntryId) : Prop :=
  ∃ entry, s.cache.entryAt id = some entry ∧ entry.children = 0 ∧
    s.pool.sharedReferences entry.block = .ok 1

/-- `evict_one` takes the least recently used entry that it may, and answers `false` without a
change when there is none. -/
structure EvictsLeast (s : UsedCache) : Prop where
  evicts : ∀ id front back, s.used = front ++ id :: back → s.MayEvict id →
    (∀ other ∈ front, ¬ s.MayEvict other) →
    ∃ next, PrefixCache.evictOne s.state = .ok true next ∧ next.cache.entryAt id = none ∧
      (s.keeping next).used = front ++ back
  refuses : (∀ id, ¬ s.MayEvict id) → PrefixCache.evictOne s.state = .ok false s.state

end UsedCache

section Holds

variable {pool : KvBlockPool} {block : BlockId} {blocks : Multiset BlockId}

theorem Backs.of_cons (h : Backs pool (block ::ₘ blocks)) : Backs pool blocks := by
  intro other hother
  obtain ⟨references, hrefs, hle⟩ := h other (Multiset.mem_cons_of_mem hother)
  exact ⟨references, hrefs, (Multiset.count_le_count_cons other block blocks).trans hle⟩

theorem Backs.release (h : Backs pool (block ::ₘ blocks)) :
    wp (KvBlockPool.releaseSharedBlock block) (fun _ pool' => Backs pool' blocks)
      (fun _ _ => False) pool := by
  obtain ⟨references, hrefs, hle⟩ := h block (Multiset.mem_cons_self _ _)
  rw [Multiset.count_cons_self] at hle
  obtain ⟨references, rfl⟩ := Nat.exists_eq_add_of_lt (Nat.lt_of_lt_of_le (Nat.succ_pos _) hle)
  rw [Nat.zero_add, sharedReferences_eq_ok_iff] at hrefs
  rw [Nat.zero_add] at hle
  refine wp_ok_mono (wp_releaseSharedBlock hrefs) ?_
  intro _ pool' hdrops other hother
  by_cases hsame : other = block
  · subst hsame
    have hpos := Multiset.count_pos.mpr hother
    refine ⟨references, ?_, Nat.le_of_succ_le_succ hle⟩
    rw [sharedReferences_eq_ok_iff, hdrops.cell, Function.update_self, if_neg (by omega)]
  · obtain ⟨others, hothers, hcount⟩ := h.of_cons other hother
    refine ⟨others, ?_, hcount⟩
    rw [sharedReferences_eq_ok_iff] at hothers ⊢
    rw [hdrops.cell, Function.update_of_ne hsame]
    exact hothers

end Holds

section View

variable {s : UsedCache} {listed : Listing} {paths : EntryId → PagePath}

theorem page_isSome (cache : PrefixCache) (id : EntryId) :
    (cache.page id).isSome = (cache.entryAt id).isSome := Option.isSome_map

theorem blocks_eq (cache : PrefixCache) :
    cache.blocks = (blocksAt cache.page (List.range cache.entries.length) : Multiset BlockId) := by
  unfold PrefixCache.blocks blocksAt PrefixCache.page
  congr 2
  funext id
  rw [Option.map_map]
  rfl

theorem CacheView.blocks_eq {cache : PrefixCache} {order : List EntryId}
    (h : CacheView cache listed order paths) : cache.blocks = listed.map Prod.snd := by
  rw [h.listed_blocks, Scheduling.blocks_eq]

theorem CacheView.childCount_eq (h : CacheView s.cache listed s.used paths) (id : EntryId) :
    s.cache.childCount id = s.used.countP (isChildOf s.cache.page id) := by
  have hvacant : s.cache.freeEntries.countP (isChildOf s.cache.page id) = 0 := by
    rw [List.countP_eq_zero]
    intro other hother
    simp [isChildOf, ((h.free_iff other).mp hother).2]
  have hall := h.free_append_order.countP_eq (isChildOf s.cache.page id)
  rw [List.countP_append, hvacant, Nat.zero_add] at hall
  rw [hall]
  unfold PrefixCache.childCount
  congr 1
  funext child
  unfold isChildOf PrefixCache.page
  rw [Option.any_map]
  rfl

theorem CacheView.coherent (h : CacheView s.cache listed s.used paths) : s.Coherent where
  linked := h.ring
  live id := by rw [h.mem_order, page_isSome]
  length := h.count
  indexed key id := by
    constructor
    · intro hindex
      obtain ⟨page, hpage, hkey⟩ := h.index_page key id hindex
      obtain ⟨entry, hentry, rfl⟩ := entry_of_page hpage
      exact ⟨entry, hentry, hkey⟩
    · rintro ⟨entry, hentry, rfl⟩
      exact h.indexed id entry.page (page_of_entry hentry)
  parent_live id entry above hentry hparent := by
    rw [← page_isSome, ← h.mem_order]
    exact h.parent_mem (page_of_entry hentry) hparent
  children id entry hentry := by
    rw [h.childCount_eq]
    exact h.children id entry.page (page_of_entry hentry)
  slots := h.free_append_order

theorem mayEvict_iff (id : EntryId) : s.MayEvict id ↔ Evictable s.state id := by
  constructor
  · rintro ⟨entry, hentry, hchildless, hone⟩
    exact ⟨entry.page, page_of_entry hentry, hchildless, hone⟩
  · rintro ⟨page, hpage, hchildless, hone⟩
    obtain ⟨entry, hentry, rfl⟩ := entry_of_page hpage
    exact ⟨entry, hentry, hchildless, hone⟩

theorem filter_mem_of_sublist {order older : List EntryId} (hsub : order.Sublist older)
    (hnodup : older.Nodup) : older.filter (· ∈ order) = order := by
  induction hsub with
  | slnil => rfl
  | @cons order older id hsub ih =>
      obtain ⟨hfresh, hnodup⟩ := List.nodup_cons.mp hnodup
      rw [List.filter_cons_of_neg (by simpa using fun hid => hfresh (hsub.subset hid))]
      exact ih hnodup
  | @cons_cons order older id hsub ih =>
      obtain ⟨hfresh, hnodup⟩ := List.nodup_cons.mp hnodup
      rw [List.filter_cons_of_pos (by simp)]
      congr 1
      refine Eq.trans (List.filter_congr fun other hother => ?_) (ih hnodup)
      have hne : other ≠ id := fun heq => hfresh (heq ▸ hother)
      simp [hne]

/-- The live ones among the entries of an older list. -/
theorem CacheView.keeps {cache : PrefixCache} {order older : List EntryId}
    (h : CacheView cache listed order paths) (hsub : order.Sublist older) (hnodup : older.Nodup) :
    (older.filter fun id => (cache.entryAt id).isSome) = order := by
  have hlive : (fun id => (cache.entryAt id).isSome) = fun id => decide (id ∈ order) := by
    funext id
    rw [← page_isSome, Bool.eq_iff_iff, decide_eq_true_iff, h.mem_order]
  rw [hlive]
  exact filter_mem_of_sublist hsub hnodup

end View

section Runs

variable {s : UsedCache} {listed : Listing} {paths : EntryId → PagePath}

/-- What holds between calls: the arena represents some prefix map, in the order of `used`,
and the pool keeps the holds of the index. -/
def UsedCache.Valid (s : UsedCache) : Prop :=
  (∃ listed paths, CacheView s.cache listed s.used paths) ∧ Backs s.pool s.cache.blocks

theorem UsedCache.Valid.shared (h : s.Valid) {id : EntryId} {page : Page}
    (hpage : s.cache.page id = some page) :
    ∃ references, s.pool.sharedReferences page.block = .ok references := by
  obtain ⟨⟨listed, paths, hview⟩, hbacks⟩ := h
  rw [hview.blocks_eq] at hbacks
  have hmem : page.block ∈ listed.map Prod.snd :=
    Multiset.mem_map.mpr ⟨_, hview.mem_listed_at hpage, rfl⟩
  obtain ⟨references, hrefs, _⟩ := hbacks _ hmem
  exact ⟨references, hrefs⟩

/-- A call that leaves the cache and the pool as they were. -/
theorem UsedCache.Valid.unchanged (h : s.Valid) : (s.keeping s.state).Valid := by
  obtain ⟨⟨listed, paths, hview⟩, hbacks⟩ := h
  refine ⟨⟨listed, paths, ?_⟩, hbacks⟩
  have hused := hview.keeps (List.Sublist.refl _) hview.ring.nodup
  change CacheView s.cache listed (s.used.filter fun id => (s.cache.entryAt id).isSome) paths
  rw [hused]
  exact hview

theorem wp_onIndex {α : Type} {action : IndexM α} {ok : α → CacheState → Prop}
    {err : SchedulerError → CacheState → Prop}
    (h : wp action (fun a cache => ok a ⟨cache, s.pool⟩) (fun e cache => err e ⟨cache, s.pool⟩)
      s.cache) : wp (onIndex action) ok err s.state :=
  (wp_zoom _ _ _ _ _).mpr h

theorem find_wrong_length {cache : PrefixCache} {parent : Option EntryId} {tokens : List Nat}
    (hlength : tokens.length ≠ kvBlockSize) (block : BlockId) :
    wp (PrefixCache.insert parent tokens block) (fun _ _ => False)
      (fun _ cache' => cache' = cache) cache := by
  unfold PrefixCache.insert Key.new
  rw [dif_neg hlength]
  rfl

theorem insert_without_room {cache : PrefixCache} {parent : Option EntryId} {tokens : List Nat}
    (hfull : tokens.length = kvBlockSize) (hfree : cache.freeEntries = []) (block : BlockId) :
    wp (PrefixCache.insert parent tokens block) (fun _ _ => False)
      (fun _ cache' => cache' = cache) cache := by
  have hkey : Key.new parent tokens = .ok ⟨parent, tokens, hfull⟩ := by simp [Key.new, hfull]
  unfold PrefixCache.insert
  refine wp_ofOk hkey (wp_read ?_)
  rw [hfree]
  rfl

theorem reaches_of_live (h : CacheView s.cache listed s.used paths) {parent : Option EntryId}
    (hlive : ∀ above, parent = some above → (s.cache.entryAt above).isSome) :
    ∃ path, Reaches s.cache.page parent path := by
  cases parent with
  | none => exact ⟨[], .root⟩
  | some above =>
      refine ⟨paths above, h.reaches above ?_⟩
      rw [h.mem_order, page_isSome]
      exact hlive above rfl

theorem index_of_find {cache : PrefixCache} {listed : Listing} {order : List EntryId}
    (h : CacheView cache listed order paths) {parent : Option EntryId} {tokens : List Nat}
    (hfull : tokens.length = kvBlockSize)
    (habsent : ∀ found, cache.find parent tokens ≠ .ok (some found)) :
    cache.index ⟨parent, tokens, hfull⟩ = none := by
  cases hindex : cache.index ⟨parent, tokens, hfull⟩ with
  | none => rfl
  | some id =>
      obtain ⟨page, hpage, _⟩ := h.index_page _ id hindex
      obtain ⟨entry, hentry, _⟩ := entry_of_page hpage
      have hkey : Key.new parent tokens = .ok ⟨parent, tokens, hfull⟩ := by simp [Key.new, hfull]
      exact absurd (by simp [PrefixCache.find, hkey, hindex, entry_eq_ok hentry, bind,
        Except.bind]) (habsent (id, entry.block))

/-- What `insert` does for a caller that keeps the contract. -/
theorem wp_insertUsed (h : s.Valid) {parent : Option EntryId} {tokens : List Nat}
    (hlive : ∀ above, parent = some above → (s.cache.entryAt above).isSome)
    (habsent : ∀ found, s.cache.find parent tokens ≠ .ok (some found)) (block : BlockId) :
    wp (onIndex (PrefixCache.insert parent tokens block))
      (fun id next => Backs s.pool (block ::ₘ s.cache.blocks) →
        UsedCache.Valid ⟨next.cache, next.pool, s.used ++ [id]⟩)
      (fun _ next => next = s.state) s.state := by
  obtain ⟨⟨listed, paths, hview⟩, hbacks⟩ := h
  apply wp_onIndex
  by_cases hfull : tokens.length = kvBlockSize
  · cases hfree : s.cache.freeEntries with
    | nil =>
        refine wp_mono (insert_without_room hfull hfree block) (fun _ _ hf => hf.elim) ?_
        rintro _ cache' rfl
        rfl
    | cons id rest =>
        obtain ⟨path, hreaches⟩ := reaches_of_live hview hlive
        have hindex := index_of_find hview hfull habsent
        refine wp_mono (hview.wp_insert hfree hreaches hfull hindex block) ?_
          (fun _ _ hf => hf.elim)
        rintro id' cache' ⟨rfl, hview', _⟩ hhold
        refine ⟨⟨_, _, hview'⟩, ?_⟩
        rw [hview'.blocks_eq, Multiset.map_cons, ← hview.blocks_eq]
        exact hhold
  · refine wp_mono (find_wrong_length hfull block) (fun _ _ hf => hf.elim) ?_
    rintro _ cache' rfl
    rfl

theorem SameCore.blocks_eq {cache cache' : PrefixCache} (h : SameCore cache cache') :
    cache'.blocks = cache.blocks := by
  rw [Scheduling.blocks_eq, Scheduling.blocks_eq, h.page, h.entries_length]

/-- A touched path moves to the newest end, the entry first and the root last. -/
theorem UsedCache.Valid.touched (h : s.Valid) {tip : Option EntryId} {above : List EntryId}
    (habove : Ancestry s.cache.page tip above) :
    UsedCache.Valid { s.keeping (after (onIndex (PrefixCache.touchPath tip)) s.state) with
      used := above.foldl moveNewest s.used } := by
  obtain ⟨⟨listed, paths, hview⟩, hbacks⟩ := h
  refine @after_of_wp _ _ _ _ (fun next : CacheState =>
    UsedCache.Valid { s.keeping next with used := above.foldl moveNewest s.used }) _ ?_
  apply wp_onIndex
  refine wp_mono (hview.wp_touchAncestry habove) ?_ (fun _ _ hf => hf.elim)
  rintro _ cache' ⟨hsame, hview'⟩
  refine ⟨⟨listed, paths, hview'⟩, ?_⟩
  change Backs s.pool cache'.blocks
  rw [hsame.blocks_eq]
  exact hbacks

theorem UsedCache.Valid.touchVacant (h : s.Valid) {id : EntryId}
    (hvacant : s.cache.entryAt id = none) :
    (s.keeping (after (onIndex (PrefixCache.touchPath (some id))) s.state)).Valid := by
  refine @after_of_wp _ _ _ _ (fun next : CacheState => (s.keeping next).Valid) _ ?_
  apply wp_onIndex
  unfold PrefixCache.touchPath
  apply wp_read
  cases s.cache.entries.length with
  | zero => exact h.unchanged
  | succ fuel =>
      unfold PrefixCache.touchFrom PrefixCache.unlink
      rw [wp_bind]
      apply wp_read
      rw [PrefixCache.entry, hvacant]
      exact h.unchanged

theorem UsedCache.Valid.evicted (h : s.Valid) :
    wp PrefixCache.evictOne
      (fun evicted next => (s.keeping next).Valid ∧
        ((evicted = true ∧ ∃ front id back, s.used = front ++ id :: back ∧ s.MayEvict id ∧
            (∀ other ∈ front, ¬ s.MayEvict other) ∧ next.cache.entryAt id = none ∧
            (s.keeping next).used = front ++ back) ∨
          (evicted = false ∧ next = s.state ∧ ∀ id, ¬ s.MayEvict id)))
      (fun _ _ => False) s.state := by
  have hvalid := h
  obtain ⟨⟨listed, paths, hview⟩, hbacks⟩ := h
  refine wp_ok_mono (hview.wp_evictOne fun id page hpage => hvalid.shared hpage) ?_
  rintro evicted next
    (⟨rfl, front, id, back, page, rest, horder, hdropped⟩ | ⟨rfl, rfl, hnone⟩)
  · have hnodup := hview.ring.nodup
    have hused : (s.keeping next).used = front ++ back := by
      refine hdropped.view.keeps ?_ hnodup
      rw [horder]
      exact List.Sublist.append_left (List.sublist_cons_self id back) front
    have hvacant : next.cache.entryAt id = none := by
      rw [horder, List.nodup_middle, List.nodup_cons] at hnodup
      rw [← Option.not_isSome_iff_eq_none, ← page_isSome, ← hdropped.view.mem_order]
      exact hnodup.1
    refine ⟨⟨⟨rest, paths, ?_⟩, ?_⟩, Or.inl ⟨rfl, front, id, back, horder, ?_, ?_, hvacant, hused⟩⟩
    · rw [hused]
      exact hdropped.view
    · rw [hview.blocks_eq, hdropped.listed_eq, Multiset.map_cons] at hbacks
      have hreleased := hbacks.release
      unfold wp at hreleased
      rw [hdropped.released] at hreleased
      change Backs next.pool next.cache.blocks
      rw [hdropped.view.blocks_eq]
      exact hreleased
    · exact (mayEvict_iff id).mpr ⟨page, hdropped.found, hdropped.childless, hdropped.unheld⟩
    · exact fun other hother hmay => hdropped.first other hother ((mayEvict_iff other).mp hmay)
  · refine ⟨hvalid.unchanged, Or.inr ⟨rfl, rfl, fun id hmay => ?_⟩⟩
    obtain ⟨page, hpage, _⟩ := (mayEvict_iff id).mp hmay
    exact hnone id (hview.mem_of_page hpage) ((mayEvict_iff id).mp hmay)

theorem UsedCache.Valid.removed (h : s.Valid) {id : EntryId}
    (hchildless : ∀ entry, s.cache.entryAt id = some entry → entry.children = 0) :
    (s.keeping (after (PrefixCache.remove id) s.state)).Valid := by
  refine @after_of_wp _ _ _ _ (fun next : CacheState => (s.keeping next).Valid) _ ?_
  cases hentry : s.cache.entryAt id with
  | none =>
      unfold PrefixCache.remove
      rw [wp_bind]
      apply wp_onIndex
      unfold PrefixCache.unlink
      apply wp_read
      rw [PrefixCache.entry, hentry]
      exact h.unchanged
  | some entry =>
      obtain ⟨⟨listed, paths, hview⟩, hbacks⟩ := h
      have hpage := page_of_entry hentry
      obtain ⟨front, back, horder⟩ := List.append_of_mem (hview.mem_of_page hpage)
      rw [horder] at hview
      obtain ⟨rest, hlisted⟩ := Multiset.exists_cons_of_mem (hview.mem_listed_at hpage)
      rw [hview.blocks_eq, hlisted, Multiset.map_cons] at hbacks
      refine wp_mono (hview.wp_remove hpage (hchildless entry hentry) hbacks.release) ?_
        (fun _ _ hf => hf.elim)
      rintro _ next ⟨hbacks', rest', hlisted', hview', _⟩
      have hused : (s.keeping next).used = front ++ back := by
        have hsub := List.Sublist.append_left (List.sublist_cons_self id back) front
        have hnodup := hview.ring.nodup
        rw [← horder] at hsub hnodup
        exact hview'.keeps hsub hnodup
      refine ⟨⟨rest', paths, ?_⟩, ?_⟩
      · rw [hused]
        exact hview'
      · change Backs next.pool next.cache.blocks
        rw [hlisted] at hlisted'
        rw [hview'.blocks_eq, ← (Multiset.cons_inj_right _).mp hlisted']
        exact hbacks'

theorem UsedCache.Valid.cleared (h : s.Valid) :
    (s.keeping (after PrefixCache.clear s.state)).Valid := by
  obtain ⟨⟨listed, paths, hview⟩, hbacks⟩ := h
  refine @after_of_wp _ _ _ _ (fun next : CacheState => (s.keeping next).Valid) _ ?_
  rw [Scheduling.blocks_eq] at hbacks
  have hrelease : ∀ (block : BlockId) (rest : List BlockId) (pool : KvBlockPool),
      Backs pool (block :: rest : List BlockId) →
      wp (KvBlockPool.releaseSharedBlock block) (fun _ pool' => Backs pool' rest)
        (fun _ _ => False) pool := fun block rest pool hholds => hholds.release
  refine wp_mono (@CacheView.wp_clear _ _ _ _ _ hview (fun blocks pool => Backs pool blocks)
    hrelease hbacks) ?_ (fun _ _ hf => hf.elim)
  rintro _ next ⟨hview', _, _, _⟩
  refine ⟨⟨0, paths, ?_⟩, ?_⟩
  · have hused : (s.keeping next).used = [] := hview'.keeps (List.nil_sublist _) hview.ring.nodup
    rw [hused]
    exact hview'
  · change Backs next.pool next.cache.blocks
    rw [hview'.blocks_eq]
    exact fun block hblock => absurd hblock (Multiset.notMem_zero block)

theorem UsedCache.Valid.step {next : UsedCache} (h : s.Valid) (hstep : UsedCache.Step s next) :
    next.Valid := by
  cases hstep with
  | insert hlive habsent hhold hrun => exact (wp_elim (wp_insertUsed h hlive habsent _)).1 _ _ hrun hhold
  | insertFails hlive habsent hrun =>
      cases (wp_elim (wp_insertUsed h hlive habsent _)).2 _ _ hrun
      exact h.unchanged
  | touchPath habove => exact h.touched habove
  | touchVacant hvacant => exact h.touchVacant hvacant
  | evictOne =>
      exact @after_of_wp _ _ _ _ (fun next : CacheState => (s.keeping next).Valid) _
        (wp_mono h.evicted (fun _ _ hnext => hnext.1) (fun _ _ hf => hf.elim))
  | remove hchildless => exact h.removed hchildless
  | clear => exact h.cleared
  | others hhold => exact ⟨h.1, hhold⟩

theorem UsedCache.Valid.evictsLeast (h : s.Valid) : s.EvictsLeast := by
  obtain ⟨evicted, next, hrun, _, houtcome⟩ := wp_ok_iff.mp h.evicted
  constructor
  · intro id front back hused hmay hfirst
    rcases houtcome with ⟨rfl, front', id', back', hused', hmay', hfirst', hvacant, hkept⟩ |
      ⟨_, _, hnone⟩
    · rw [hused] at hused'
      have hsame : front = front' ∧ id = id' ∧ back = back' := by
        rcases List.append_eq_append_iff.mp hused' with ⟨more, hfront, hmore⟩ | ⟨more, hfront, hmore⟩
        · cases more with
          | nil =>
              rw [List.append_nil] at hfront
              rw [List.nil_append] at hmore
              exact ⟨hfront.symm, (List.cons.inj hmore).1, (List.cons.inj hmore).2⟩
          | cons other more =>
              rw [(List.cons.inj hmore).1] at hmay
              exact absurd hmay (hfirst' other (by rw [hfront]; simp))
        · cases more with
          | nil =>
              rw [List.append_nil] at hfront
              rw [List.nil_append] at hmore
              exact ⟨hfront, (List.cons.inj hmore).1.symm, (List.cons.inj hmore).2.symm⟩
          | cons other more =>
              rw [(List.cons.inj hmore).1] at hmay'
              exact absurd hmay' (hfirst other (by rw [hfront]; simp))
      obtain ⟨rfl, rfl, rfl⟩ := hsame
      exact ⟨next, hrun, hvacant, hkept⟩
    · exact absurd hmay (hnone id)
  · intro hnone
    rcases houtcome with ⟨_, _, id, _, _, hmay, _⟩ | ⟨rfl, rfl, _⟩
    · exact absurd hmay (hnone id)
    · exact hrun

/-- In every state that calls on a new index reach, the recency list, the hash index, the
child counts and the vacant slots agree, and eviction takes the least recently used entry that
nobody else holds. -/
theorem prefixCache_invariant {capacity : Nat} {host host' : List Bool} {cache : PrefixCache}
    {pool : KvBlockPool} {last : UsedCache}
    (hnew : PrefixCache.new capacity host = .ok cache host')
    (hrun : Relation.ReflTransGen UsedCache.Step ⟨cache, pool, []⟩ last) :
    last.Coherent ∧ last.EvictsLeast := by
  have hvalid : last.Valid := by
    induction hrun with
    | refl =>
        have hok := ((wp_elim (@wp_newCache capacity host)).1 _ _ hnew).1
        obtain ⟨order, paths, hview⟩ := hok
        have hempty : order = [] := by
          rw [← List.length_eq_zero_iff, ← hview.count]
          exact (CacheOk.length_eq ⟨order, paths, hview⟩).1
        subst hempty
        refine ⟨⟨0, paths, hview⟩, ?_⟩
        change Backs pool cache.blocks
        rw [hview.blocks_eq]
        exact fun block hblock => absurd hblock (Multiset.notMem_zero block)
    | tail _ hstep ih => exact ih.step hstep
  obtain ⟨listed, paths, hview⟩ := hvalid.1
  exact ⟨hview.coherent, hvalid.evictsLeast⟩

/-- A new index of three entries, and a pool of three shared blocks that are held once. -/
def unused : UsedCache where
  cache := ⟨3, [none, none, none], [0, 1, 2], fun _ => none, none, none, 0⟩
  pool :=
    { cookie := 7
      layout := ⟨3, 1, 1, 1, by decide, by decide⟩
      slots := List.replicate 3 ⟨1, some ⟨7, sharedBlockOwner⟩, 1, none⟩
      freeList := []
      allocatedBlockCount := 3
      nextSequenceId := 1
      sidecarCount := 0
      sidecarDeviceBytes := 0 }
  used := []

def UsedCache.inserted (s : UsedCache) (parent : Option EntryId) (token block : Nat) :
    UsedCache :=
  let next := after (onIndex (PrefixCache.insert parent (List.replicate 16 token) ⟨7, block, 1⟩))
    s.state
  ⟨next.cache, next.pool, s.used ++ [block]⟩

/-- A page, one under it and one beside it. -/
def threeInserted : UsedCache :=
  ((unused.inserted none 5 0).inserted (some 0) 6 1).inserted none 7 2

def threeTouched : UsedCache :=
  { threeInserted.keeping
      (after (onIndex (PrefixCache.touchPath (some 1))) threeInserted.state) with
    used := [1, 0].foldl moveNewest threeInserted.used }

/-- A hold of a block that is shared there. -/
theorem backs_unused {blocks : List BlockId} (hnodup : blocks.Nodup)
    (hshared : ∀ block ∈ blocks, unused.pool.sharedReferences block = .ok 1) :
    Backs unused.pool blocks := by
  intro block hblock
  refine ⟨1, hshared block hblock, ?_⟩
  rw [Multiset.coe_count]
  exact List.nodup_iff_count_le_one.mp hnodup block

theorem inserted_step {s : UsedCache} {parent : Option EntryId} {token block : Nat}
    (hlive : ∀ above ∈ parent, (s.cache.entryAt above).isSome)
    (habsent : s.cache.find parent (List.replicate 16 token) = .ok none)
    (hhold : Backs s.pool (⟨7, block, 1⟩ ::ₘ s.cache.blocks))
    (hrun : onIndex (PrefixCache.insert parent (List.replicate 16 token) ⟨7, block, 1⟩) s.state =
      .ok block ⟨(s.inserted parent token block).cache, (s.inserted parent token block).pool⟩) :
    UsedCache.Step s (s.inserted parent token block) := by
  refine .insert hlive ?_ hhold hrun
  intro found hfound
  cases habsent.symm.trans hfound

/-- Of three pages, the one that was neither touched nor has a page under it goes. -/
theorem prefixCache_invariant_inserted :
    ∃ last : UsedCache, last.used = [1, 0] ∧ last.cache.freeEntries = [2] ∧
      last.cache.childCount 0 = 1 ∧ last.Coherent ∧ last.EvictsLeast := by
  have hpage : UsedCache.Step unused (unused.inserted none 5 0) :=
    inserted_step (by decide) rfl (@backs_unused [⟨7, 0, 1⟩] (by decide) (by decide)) rfl
  have hunder : UsedCache.Step (unused.inserted none 5 0)
      ((unused.inserted none 5 0).inserted (some 0) 6 1) :=
    inserted_step (by decide) rfl
      (@backs_unused [⟨7, 1, 1⟩, ⟨7, 0, 1⟩] (by decide) (by decide)) rfl
  have hbeside : UsedCache.Step ((unused.inserted none 5 0).inserted (some 0) 6 1)
      threeInserted :=
    inserted_step (by decide) rfl
      (@backs_unused [⟨7, 2, 1⟩, ⟨7, 0, 1⟩, ⟨7, 1, 1⟩] (by decide) (by decide)) rfl
  have htouch : UsedCache.Step threeInserted threeTouched :=
    .touchPath (.page rfl (.page rfl .root))
  have hrun := ((((Relation.ReflTransGen.single hpage).tail hunder).tail hbeside).tail
    htouch).tail .evictOne
  have hnew : PrefixCache.new 3 [] = .ok unused.cache [] := rfl
  exact ⟨_, by decide, by decide, by decide, prefixCache_invariant hnew hrun⟩

end Runs

end Riley.Scheduling
