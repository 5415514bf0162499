import Riley.Checkpoint.Publish

/-!
Any number of publishers of one destination. What an operation does to the tree of files is told
for each operation; any of them may fail, and a publisher may stop anywhere. Beside the tree stands
who created what is there. The transport may change what is below its own directory, and a source
is read as any bytes.
-/

namespace Riley.Publication

open FileTree (Path Node Tree Sets Creates SameOutside)
open Interleaving (Config Semantics)

section Operations

def Node.fileType : Node → FileType
  | .directory => .directory
  | .file _ => .file
  | .symlink => .symlink

/-- The bytes of a file grow at their end. -/
def Appends (path : Path) (bytes : List UInt8) (tree tree' : Tree) : Prop :=
  ∃ before, tree.entry path = some (.file before) ∧
    Sets path (some (.file (before ++ bytes))) tree tree'

/-- What an operation leaves behind that succeeds. -/
def succeeds (loader : Loader) : (op : Op) → Tree → Answer op → Tree → Prop
  | .symlinkMetadata path, tree, fileType, tree' =>
      tree' = tree ∧ (tree.entry path).map Node.fileType = some fileType
  | .openFile path, tree, metadata, tree' =>
      tree' = tree ∧ ∀ bytes, tree.entry path = some (.file bytes) → metadata = (.file, bytes.length)
  | .read _ limit, tree, bytes, tree' => tree' = tree ∧ List.length (α := UInt8) bytes ≤ limit
  | .readToEnd path limit, tree, bytes, tree' =>
      tree' = tree ∧ ∃ whole, tree.entry path = some (.file whole) ∧ bytes = whole.take limit
  | .createFile path, tree, _, tree' => Creates path (.file []) tree tree'
  | .writeAll path bytes, tree, _, tree' => Appends path bytes tree tree'
  | .syncAll _, tree, _, tree' => tree' = tree
  | .createDirectory path, tree, _, tree' => Creates path .directory tree tree'
  | .syncDirectory _, tree, _, tree' => tree' = tree
  | .pathExists path, tree, found, tree' => tree' = tree ∧ (found = true → tree.entry path ≠ none)
  | .removeDirAll path, tree, _, tree' => tree.entry path ≠ none ∧ Sets path none tree tree'
  | .hardLink original link, tree, _, tree' =>
      ∃ bytes, tree.entry original = some (.file bytes) ∧ Creates link (.file bytes) tree tree'
  | .fetch _ _, tree, _, tree' => tree' = tree
  | .load root provenance, tree, _, tree' =>
      tree' = tree ∧ loader.load (tree.below root) provenance = true

/-- What an operation leaves behind that fails. -/
def fails : Op → Tree → Tree → Prop
  | .writeAll path bytes, tree, tree' =>
      tree' = tree ∨ ∃ part, part <+: bytes ∧ Appends path part tree tree'
  | .pathExists _, _, _ => False
  | _, tree, tree' => tree' = tree

/-- What an operation does before it answers. The entries of a directory go one by one; the
directory goes last, with the answer. -/
def progresses : Op → Tree → Tree → Prop
  | .removeDirAll path, tree, tree' =>
      ∃ below, path <+: below ∧ below ≠ path ∧ Sets below none tree tree'
  | .fetch root _, tree, tree' => SameOutside (root ++ [TRANSPORT]) tree tree'
  | _, _, _ => False

end Operations

section System

variable {ι : Type}

/-- The tree of files, and which publisher created what is there now. -/
structure World (ι : Type) where
  tree : Tree
  creator : Path → Option ι
  present : ∀ path, creator path ≠ none → tree.entry path ≠ none

/-- What comes to be is created by the publisher that makes the step. -/
def Credits (i : ι) (world world' : World ι) : Prop :=
  ∀ path, world'.creator path =
    if world'.tree.entry path = none then none
    else if world.tree.entry path = none then some i
    else world.creator path

def semantics (loader : Loader) (i : ι) : Semantics Op Answer Error (World ι) where
  progress op world world' := progresses op world.tree world'.tree ∧ Credits i world world'
  answers op world answer world' :=
    Credits i world world' ∧ match answer with
      | .ok value => succeeds loader op world.tree value world'.tree
      | .error _ => fails op world.tree world'.tree

/-- What a publisher is to publish, and where. -/
structure Request (loader : Loader) where
  plan : Plan loader
  workingDirectory : Path
  destination : List Component

/-- The directory that a destination names. -/
def Request.target {loader : Loader} (request : Request loader) : Option Path :=
  (fileName request.destination).map fun name =>
    (absolute request.workingDirectory (parentOf request.destination)).foldl push [] ++ [name]

/-- The publishers before their first steps. -/
def start {loader : Loader} (requests : ι → Request loader) (tree : Tree) :
    Config ι Op Answer Error Unit (World ι) where
  state := ⟨tree, fun _ => none, fun _ h => absurd rfl h⟩
  programs i := some
    (publishWith (requests i).plan (requests i).workingDirectory (requests i).destination)

end System

end Riley.Publication
