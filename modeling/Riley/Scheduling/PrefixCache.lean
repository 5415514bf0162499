import Riley.PagedKv.Sequence
import Riley.Scheduling.Config

/-!
The index of prompt-prefix KV blocks kept for later requests: an arena of
entries keyed by their exact tokens and the entry of the block before, with a
recency list threaded through the entries. The sentinels `ROOT` and `NONE`
are `none`; the hash map is the partial function it implements.
-/

namespace Riley.Scheduling

open PagedKv Outcome

/-- Position in the index. -/
abbrev EntryId := Nat

structure Key where
  parent : Option EntryId
  tokens : List Nat
  full : tokens.length = kvBlockSize
  deriving DecidableEq

structure Entry where
  key : Key
  block : BlockId
  children : Nat
  older : Option EntryId
  newer : Option EntryId
  deriving DecidableEq

structure PrefixCache where
  capacity : Nat
  entries : List (Option Entry)
  freeEntries : List EntryId
  index : Key → Option EntryId
  oldest : Option EntryId
  newest : Option EntryId
  length : Nat

/-- Operations on the index alone. -/
abbrev IndexM := EStateM SchedulerError PrefixCache

/-- The index together with the pool whose blocks it lists. -/
structure CacheState where
  cache : PrefixCache
  pool : KvBlockPool

abbrev CacheM := EStateM SchedulerError CacheState

def onIndex {α : Type} (action : IndexM α) : CacheM α :=
  zoom CacheState.cache (fun cache state => { state with cache := cache }) id action

def onCachePool {α : Type} (action : PoolM α) : CacheM α :=
  zoom CacheState.pool (fun pool state => { state with pool := pool }) .pagedKv action

def Key.new (parent : Option EntryId) (tokens : List Nat) : Except SchedulerError Key :=
  if h : tokens.length = kvBlockSize then
    .ok ⟨parent, tokens, h⟩
  else
    .error (.invalidPlan "prefix cache key" "a key covers exactly one full KV block")

namespace PrefixCache

def new (capacity : Nat) : EStateM SchedulerError (List Bool) PrefixCache := do
  rejectIf (u32Max < capacity)
    (.invalidConfiguration "prefix_cache.capacity" "must fit the U32 entry index")
  forEach ["prefix cache entries", "prefix cache free entries", "prefix cache index"]
    fun resource => hostReserve (.hostAllocation resource)
  return {
    capacity := capacity
    entries := List.replicate capacity none
    freeEntries := List.range capacity
    index := fun _ => none
    oldest := none
    newest := none
    length := 0 }

def entryAt (cache : PrefixCache) (id : EntryId) : Option Entry :=
  (cache.entries[id]?).join

def entry (cache : PrefixCache) (id : EntryId) : Except SchedulerError Entry :=
  match cache.entryAt id with
  | some entry => .ok entry
  | none => .error (.invalidPlan "prefix cache" "entry is vacant")

def setEntry (id : EntryId) (entry : Option Entry) (cache : PrefixCache) : PrefixCache :=
  { cache with entries := cache.entries.set id entry }

def setIndex (key : Key) (id : Option EntryId) (cache : PrefixCache) : PrefixCache :=
  { cache with index := fun other => if other = key then id else cache.index other }

/-- `entry_mut` followed by an assignment through it. -/
def modifyEntry (id : EntryId) (f : Entry → Entry) : IndexM Unit := do
  let cache ← get
  let entry ← fromExcept (cache.entry id)
  set (cache.setEntry id (some (f entry)))

def find (cache : PrefixCache) (parent : Option EntryId) (tokens : List Nat) :
    Except SchedulerError (Option (EntryId × BlockId)) := do
  let key ← Key.new parent tokens
  match cache.index key with
  | none => .ok none
  | some id => do
      let entry ← cache.entry id
      .ok (some (id, entry.block))

/-- Assigns `newer` of a node, `oldest` at the front end. -/
def setNewer (node value : Option EntryId) : IndexM Unit :=
  match node with
  | none => modify fun cache => { cache with oldest := value }
  | some id => modifyEntry id fun entry => { entry with newer := value }

/-- Assigns `older` of a node, `newest` at the back end. -/
def setOlder (node value : Option EntryId) : IndexM Unit :=
  match node with
  | none => modify fun cache => { cache with newest := value }
  | some id => modifyEntry id fun entry => { entry with older := value }

def unlink (id : EntryId) : IndexM Unit := do
  let cache ← get
  let entry ← fromExcept (cache.entry id)
  setNewer entry.older entry.newer
  setOlder entry.newer entry.older

def linkNewest (id : EntryId) : IndexM Unit := do
  let cache ← get
  modifyEntry id fun entry => { entry with older := cache.newest, newer := none }
  setNewer cache.newest (some id)
  setOlder none (some id)

/-- Counts an entry in or out of the children of its parent. -/
def adjustChildren (parent : Option EntryId) (f : Nat → Nat) : IndexM Unit :=
  match parent with
  | none => pure ()
  | some above =>
      modifyEntry above fun entry => { entry with children := f entry.children }

/-- Lists a block under `parent`. -/
def insert (parent : Option EntryId) (tokens : List Nat) (block : BlockId) :
    IndexM EntryId := do
  let key ← fromExcept (Key.new parent tokens)
  let cache ← get
  match cache.freeEntries with
  | [] => throw (.invalidPlan "prefix cache" "insert without a free entry")
  | id :: rest => do
      set { cache with freeEntries := rest }
      adjustChildren parent (· + 1)
      modify (setEntry id (some ⟨key, block, 0, none, none⟩))
      linkNewest id
      modify (setIndex key (some id))
      modify fun cache => { cache with length := cache.length + 1 }
      return id

def hasRoom (cache : PrefixCache) : Bool := cache.length < cache.capacity

/-- The loop of `touch_path`; a parent chain is never longer than the arena. -/
def touchFrom : Nat → Option EntryId → IndexM Unit
  | fuel + 1, some id => do
      unlink id
      linkNewest id
      let cache ← get
      let entry ← fromExcept (cache.entry id)
      touchFrom fuel entry.key.parent
  | _, _ => pure ()

/-- Marks `id` and its ancestors as used, each ancestor newer than its child. -/
def touchPath (id : Option EntryId) : IndexM Unit := do
  let cache ← get
  touchFrom cache.entries.length id

def remove (id : EntryId) : CacheM Unit := do
  onIndex (unlink id)
  let state ← get
  let entry ← orReject (state.cache.entryAt id)
    (.invalidPlan "prefix cache" "removed entry is vacant")
  onIndex (modify (setEntry id none))
  onCachePool (KvBlockPool.releaseSharedBlock entry.block)
  onIndex (modify (setIndex entry.key none))
  onIndex (adjustChildren entry.key.parent (· - 1))
  onIndex (modify fun cache => { cache with
    freeEntries := id :: cache.freeEntries
    length := cache.length - 1 })

/-- The scan of `evict_one`; it visits each listed entry at most once. -/
def evictFrom : Nat → Option EntryId → CacheM Bool
  | fuel + 1, some candidate => do
      let state ← get
      let entry ← fromExcept (state.cache.entry candidate)
      if entry.children = 0 then do
        let references ←
          onCachePool (fromExcept (state.pool.sharedReferences entry.block))
        if references = 1 then do
          remove candidate
          return true
        else
          evictFrom fuel entry.newer
      else
        evictFrom fuel entry.newer
  | _, _ => pure false

/-- Frees the least recently used entry that nothing else holds. -/
def evictOne : CacheM Bool := do
  let state ← get
  evictFrom state.cache.entries.length state.cache.oldest

/-- One round of `clear`. -/
def clearEntry (index : EntryId) : CacheM Unit := do
  let state ← get
  match state.cache.entryAt index with
  | none => pure ()
  | some entry => do
      onIndex (modify (setEntry index none))
      onCachePool (KvBlockPool.releaseSharedBlock entry.block)
      onIndex (modify fun cache => { cache with
        freeEntries := index :: cache.freeEntries })

/-- Unlists everything. -/
def clear : CacheM Unit := do
  let state ← get
  forEach (List.range state.cache.entries.length) clearEntry
  onIndex (modify fun cache => { cache with
    index := fun _ => none
    oldest := none
    newest := none
    length := 0 })

end PrefixCache

end Riley.Scheduling
