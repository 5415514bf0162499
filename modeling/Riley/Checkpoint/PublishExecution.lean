import Riley.Checkpoint.PublishSystem

/-!
A publisher that works alone on a disk and meets no failure. A disk is a list of what stands where,
so that such an execution can be computed; each is a run of the system.
-/

namespace Riley.Publication

open FileTree (Path Node Tree Sets Creates)
open Interleaving (Completes Config Reachable)

section Disks

abbrev Nodes := List (Path × Node)

def nodeAt (nodes : Nodes) (path : Path) : Option Node :=
  (nodes.find? (·.1 = path)).map Prod.snd

/-- Whatever is listed stands in a directory that is. -/
def Closed (nodes : Nodes) : Prop :=
  ∀ item ∈ nodes, item.1 ≠ [] → nodeAt nodes item.1.dropLast = some .directory

instance (nodes : Nodes) : Decidable (Closed nodes) := List.decidableBAll _ _

theorem nodeAt_cons (path other : Path) (node : Node) (nodes : Nodes) :
    nodeAt ((path, node) :: nodes) other =
      if other = path then some node else nodeAt nodes other := by
  unfold nodeAt
  rw [List.find?_cons]
  by_cases heq : other = path
  · simp [heq]
  · simp [heq, Ne.symm heq]

theorem nodeAt_filter (nodes : Nodes) (path other : Path) :
    nodeAt (nodes.filter (·.1 ≠ path)) other =
      if other = path then none else nodeAt nodes other := by
  induction nodes with
  | nil =>
      split
      · rfl
      · rfl
  | cons item rest ih =>
      obtain ⟨first, node⟩ := item
      rw [nodeAt_cons]
      by_cases hfirst : first = path
      · rw [List.filter_cons_of_neg (by simpa using hfirst), ih]
        split
        · rfl
        · next hne => rw [if_neg (fun heq => hne (heq.trans hfirst))]
      · rw [List.filter_cons_of_pos (by simpa using hfirst), nodeAt_cons, ih]
        split
        · next heq => rw [if_neg (fun hpath => hfirst (heq.symm.trans hpath))]
        · rfl

theorem exists_mem_of_nodeAt {nodes : Nodes} {path : Path} (h : nodeAt nodes path ≠ none) :
    ∃ node, (path, node) ∈ nodes := by
  unfold nodeAt at h
  cases hfind : nodes.find? (·.1 = path) with
  | none =>
      rw [hfind] at h
      exact absurd rfl h
  | some item =>
      have hpath : item.1 = path := by simpa using List.find?_some hfind
      exact ⟨item.2, hpath ▸ List.mem_of_find?_eq_some hfind⟩

/-- What is on a disk, which is a tree. -/
structure Disk where
  nodes : Nodes
  closed : Closed nodes

namespace Disk

variable {disk disk' : Disk} {path : Path} {node : Node}

def tree (disk : Disk) : Tree where
  entry := nodeAt disk.nodes
  closed path name h := by
    obtain ⟨node, hmem⟩ := exists_mem_of_nodeAt h
    have hparent := disk.closed _ hmem (by simp)
    rwa [List.dropLast_concat] at hparent

def ofNodes (nodes : Nodes) : Option Disk := if h : Closed nodes then some ⟨nodes, h⟩ else none

def drop (path : Path) (disk : Disk) : Option Disk := ofNodes (disk.nodes.filter (·.1 ≠ path))

def put (path : Path) (node : Node) (disk : Disk) : Option Disk :=
  ofNodes ((path, node) :: disk.nodes.filter (·.1 ≠ path))

def create (path : Path) (node : Node) (disk : Disk) : Option Disk :=
  if nodeAt disk.nodes path = none then disk.put path node else none

def bytes (path : Path) (disk : Disk) : Option (List UInt8) :=
  match nodeAt disk.nodes path with
  | some (.file bytes) => some bytes
  | _ => none

/-- What stands below a path. -/
def below (path : Path) (disk : Disk) : List Path :=
  (disk.nodes.map Prod.fst).filter fun other => path.isPrefixOf other && other ≠ path

def clear : List Path → Disk → Option Disk
  | [], disk => some disk
  | path :: rest, disk => (disk.drop path).bind (clear rest)

def removeDirAll (path : Path) (disk : Disk) : Option Disk :=
  (clear (disk.below path) disk).bind fun disk =>
    if nodeAt disk.nodes path = none then none else disk.drop path

theorem below_spec (disk : Disk) {path : Path} :
    ∀ other ∈ disk.below path, path <+: other ∧ other ≠ path := by
  intro other hmem
  simpa using (List.mem_filter.mp hmem).2

theorem nodes_of_ofNodes {nodes : Nodes} (h : ofNodes nodes = some disk) :
    disk.nodes = nodes := by
  unfold ofNodes at h
  split at h
  · cases h
    rfl
  · cases h

theorem sets_drop (h : disk.drop path = some disk') : Sets path none disk.tree disk'.tree := by
  have hentry : ∀ other, disk'.tree.entry other =
      if other = path then none else disk.tree.entry other := by
    intro other
    change nodeAt disk'.nodes other = _
    rw [nodes_of_ofNodes h]
    exact nodeAt_filter _ _ _
  exact ⟨by rw [hentry, if_pos rfl], fun other hne => by rw [hentry, if_neg hne]⟩

theorem sets_put (h : disk.put path node = some disk') :
    Sets path (some node) disk.tree disk'.tree := by
  have hentry : ∀ other, disk'.tree.entry other =
      if other = path then some node else disk.tree.entry other := by
    intro other
    change nodeAt disk'.nodes other = _
    rw [nodes_of_ofNodes h, nodeAt_cons, nodeAt_filter]
    split
    · rfl
    · rfl
  exact ⟨by rw [hentry, if_pos rfl], fun other hne => by rw [hentry, if_neg hne]⟩

theorem creates_create (h : disk.create path node = some disk') :
    Creates path node disk.tree disk'.tree := by
  unfold create at h
  split at h
  · next habsent => exact ⟨habsent, sets_put h⟩
  · cases h

theorem entry_of_bytes {content : List UInt8} (h : disk.bytes path = some content) :
    disk.tree.entry path = some (.file content) := by
  unfold bytes at h
  split at h
  · next hfile =>
      cases h
      exact hfile
  · cases h

end Disk

end Disks

section Execution

variable {ι α : Type} {loader : Loader} {sources : ProvenanceFile → List Component}

/-- What an operation answers, with the place in the opened file and the disk behind it. Sources
are where the transport says. -/
def perform (loader : Loader) (sources : ProvenanceFile → List Component) :
    (op : Op) → Nat → Disk → Option (Answer op × Nat × Disk)
  | .symlinkMetadata path, place, disk =>
      (nodeAt disk.nodes path).map fun node => (Node.fileType node, place, disk)
  | .openFile path, _, disk => (disk.bytes path).map fun bytes => ((.file, bytes.length), 0, disk)
  | .read path limit, place, disk =>
      (disk.bytes path).map fun bytes => ((bytes.drop place).take limit, place + limit, disk)
  | .readToEnd path limit, place, disk =>
      (disk.bytes path).map fun bytes => (bytes.take limit, place, disk)
  | .createFile path, place, disk => (disk.create path (.file [])).map fun disk => ((), place, disk)
  | .writeAll path bytes, place, disk =>
      (disk.bytes path).bind fun before =>
        (disk.put path (.file (before ++ bytes))).map fun disk => ((), place, disk)
  | .syncAll _, place, disk => some ((), place, disk)
  | .createDirectory path, place, disk =>
      (disk.create path .directory).map fun disk => ((), place, disk)
  | .syncDirectory _, place, disk => some ((), place, disk)
  | .pathExists path, place, disk => some ((nodeAt disk.nodes path).isSome, place, disk)
  | .removeDirAll path, place, disk => (disk.removeDirAll path).map fun disk => ((), place, disk)
  | .hardLink original link, place, disk =>
      (disk.bytes original).bind fun bytes =>
        (disk.create link (.file bytes)).map fun disk => ((), place, disk)
  | .fetch _ entry, place, disk => some (sources entry, place, disk)
  | .load root provenance, place, disk =>
      if loader.load (disk.tree.below root) provenance then some ((), place, disk) else none

/-- A program on its own, where every operation succeeds. -/
def execute (loader : Loader) (sources : ProvenanceFile → List Component) :
    Preparation α → Nat → Disk → Option (α × Disk)
  | .done (.ok value), _, disk => some (value, disk)
  | .done (.error _), _, _ => none
  | .perform op next, place, disk =>
      match perform loader sources op place disk with
      | some (answer, place, disk) => execute loader sources (next (.ok answer)) place disk
      | none => none

/-- The world with that tree, where what has come to be is credited to a publisher. -/
def World.after (i : ι) (tree : Tree) (world : World ι) : World ι where
  tree := tree
  creator path :=
    if tree.entry path = none then none
    else if world.tree.entry path = none then some i
    else world.creator path
  present _ h hnone := h (if_pos hnone)

@[simp] theorem tree_after (i : ι) (tree : Tree) (world : World ι) :
    (world.after i tree).tree = tree := rfl

theorem credits_after (i : ι) (tree : Tree) (world : World ι) :
    Credits i world (world.after i tree) := fun _ => rfl

variable {i : ι} {world : World ι} {disk disk' : Disk} {place place' : Nat}

theorem succeeds_perform {op : Op} {answer : Answer op} (hop : ∀ path, op ≠ .removeDirAll path)
    (h : perform loader sources op place disk = some (answer, place', disk')) :
    succeeds loader op disk.tree answer disk'.tree := by
  cases op with
  | symlinkMetadata path =>
      obtain ⟨node, hnode, ⟨⟩⟩ := Option.map_eq_some_iff.mp h
      exact ⟨rfl, congrArg (Option.map Node.fileType) hnode⟩
  | openFile path =>
      obtain ⟨content, hcontent, ⟨⟩⟩ := Option.map_eq_some_iff.mp h
      refine ⟨rfl, fun bytes hbytes => ?_⟩
      cases (Disk.entry_of_bytes hcontent).symm.trans hbytes
      rfl
  | read path limit =>
      obtain ⟨content, _, ⟨⟩⟩ := Option.map_eq_some_iff.mp h
      exact ⟨rfl, List.length_take_le _ _⟩
  | readToEnd path limit =>
      obtain ⟨content, hcontent, ⟨⟩⟩ := Option.map_eq_some_iff.mp h
      exact ⟨rfl, content, Disk.entry_of_bytes hcontent, rfl⟩
  | createFile path =>
      obtain ⟨_, hcreate, ⟨⟩⟩ := Option.map_eq_some_iff.mp h
      exact Disk.creates_create hcreate
  | writeAll path bytes =>
      obtain ⟨before, hbefore, h⟩ := Option.bind_eq_some_iff.mp h
      obtain ⟨_, hput, ⟨⟩⟩ := Option.map_eq_some_iff.mp h
      exact ⟨before, Disk.entry_of_bytes hbefore, Disk.sets_put hput⟩
  | createDirectory path =>
      obtain ⟨_, hcreate, ⟨⟩⟩ := Option.map_eq_some_iff.mp h
      exact Disk.creates_create hcreate
  | pathExists path =>
      cases h
      exact ⟨rfl, fun hfound => Option.isSome_iff_ne_none.mp hfound⟩
  | removeDirAll path => exact absurd rfl (hop path)
  | hardLink original link =>
      obtain ⟨bytes, hbytes, h⟩ := Option.bind_eq_some_iff.mp h
      obtain ⟨_, hcreate, ⟨⟩⟩ := Option.map_eq_some_iff.mp h
      exact ⟨bytes, Disk.entry_of_bytes hbytes, Disk.creates_create hcreate⟩
  | load root provenance =>
      obtain ⟨hload, ⟨⟩⟩ := Option.ite_none_right_eq_some.mp h
      exact ⟨rfl, hload⟩
  | syncAll path | syncDirectory path | fetch root entry =>
      cases h
      exact rfl

/-- The entries of a directory go one by one, before the directory itself. -/
theorem completes_clear {path : Path} {next : Except Error Unit → Preparation α} {value : α}
    {paths : List Path} (hpaths : ∀ other ∈ paths, path <+: other ∧ other ≠ path)
    (h : Disk.clear paths disk = some disk') (hworld : world.tree = disk.tree) :
    ∃ world', world'.tree = disk'.tree ∧ ∀ last,
      Completes (semantics loader i) value last (.perform (.removeDirAll path) next) world' →
      Completes (semantics loader i) value last (.perform (.removeDirAll path) next) world := by
  induction paths generalizing disk world with
  | nil =>
      cases h
      exact ⟨world, hworld, fun _ hlast => hlast⟩
  | cons other rest ih =>
      obtain ⟨behind, hdrop, hrest⟩ := Option.bind_eq_some_iff.mp h
      obtain ⟨hbelow, hne⟩ := hpaths other List.mem_cons_self
      obtain ⟨world', htree, hway⟩ :=
        ih (fun another hmem => hpaths another (List.mem_cons_of_mem _ hmem)) hrest
          (tree_after i behind.tree world)
      refine ⟨world', htree, fun last hlast => .progress ?_ (hway last hlast)⟩
      refine ⟨⟨other, hbelow, hne, ?_⟩, credits_after i _ world⟩
      rw [hworld]
      exact Disk.sets_drop hdrop

/-- An execution is a way through the program in the system. -/
theorem completes_execute {program : Preparation α} {value : α}
    (hworld : world.tree = disk.tree)
    (h : execute loader sources program place disk = some (value, disk')) :
    ∃ last, last.tree = disk'.tree ∧ Completes (semantics loader i) value last program world := by
  induction program generalizing place disk world with
  | done result =>
      cases result with
      | ok result =>
          cases h
          exact ⟨world, hworld, .done⟩
      | error error => cases h
  | perform op next ih =>
      unfold execute at h
      split at h
      · next answer place behind hperform =>
          by_cases hop : ∃ path, op = .removeDirAll path
          · obtain ⟨path, rfl⟩ := hop
            obtain ⟨_, hremove, ⟨⟩⟩ := Option.map_eq_some_iff.mp hperform
            obtain ⟨cleared, hclear, hremove⟩ := Option.bind_eq_some_iff.mp hremove
            obtain ⟨hthere, hdrop⟩ := Option.ite_none_left_eq_some.mp hremove
            obtain ⟨middle, hmiddle, hway⟩ := completes_clear disk.below_spec hclear hworld
            obtain ⟨last, hlast, hrest⟩ := ih _ (tree_after i behind.tree middle) h
            refine ⟨last, hlast, hway last (.answers ⟨credits_after i _ middle, ?_⟩ hrest)⟩
            rw [hmiddle]
            exact ⟨hthere, Disk.sets_drop hdrop⟩
          · obtain ⟨last, hlast, hway⟩ := ih _ (tree_after i behind.tree world) h
            refine ⟨last, hlast, .answers ⟨credits_after i _ world, ?_⟩ hway⟩
            rw [hworld]
            exact succeeds_perform (fun path heq => hop ⟨path, heq⟩) hperform
      · cases h

/-- What a publisher does on its own is a run, from wherever its program stands. -/
theorem reachable_execute {requests : ι → Request loader} {before : Tree}
    {config : Config ι Op Answer Error Unit (World ι)} {program : Preparation Unit}
    (h : Reachable (semantics loader) (start requests before) config)
    (hprogram : config.programs i = some program) (hdisk : config.state.tree = disk.tree)
    (hexecute : execute loader sources program place disk = some ((), disk')) :
    ∃ config', Reachable (semantics loader) (start requests before) config' ∧
      config'.state.tree = disk'.tree ∧ config'.programs i = some (.done (.ok ())) := by
  obtain ⟨last, hlast, hway⟩ := completes_execute hdisk hexecute
  obtain ⟨config', hreachable, hstate, hdone⟩ := h.completes hway hprogram rfl
  exact ⟨config', hreachable, hstate ▸ hlast, hdone⟩

end Execution

end Riley.Publication
