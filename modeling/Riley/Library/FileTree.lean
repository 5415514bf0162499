import Mathlib.Tactic.Common

/-!
A tree of files: what stands at every path. Whatever is there stands in a directory, so nothing is
left below a path that is gone.
-/

namespace Riley.FileTree

abbrev Path := List String

inductive Node
  | directory
  | file (bytes : List UInt8)
  | symlink
  deriving DecidableEq, Repr

@[ext] structure Tree where
  entry : Path → Option Node
  closed : ∀ path name, entry (path ++ [name]) ≠ none → entry path = some .directory

variable {tree tree' tree'' : Tree} {path other rest : Path} {name : String} {value : Option Node}

namespace Tree

/-- What stands at a path and below it. -/
def below (tree : Tree) (path : Path) : Path → Option Node := fun rest => tree.entry (path ++ rest)

theorem entry_of_below (hrest : rest ≠ []) (h : tree.entry (path ++ rest) ≠ none) :
    tree.entry path = some .directory := by
  induction rest generalizing path with
  | nil => exact absurd rfl hrest
  | cons name rest ih =>
      cases rest with
      | nil => exact tree.closed path name h
      | cons next rest =>
          have hnext : tree.entry (path ++ [name]) = some .directory :=
            ih (List.cons_ne_nil _ _) (by simpa using h)
          exact tree.closed path name (by simp [hnext])

/-- Nothing stands below a path at which nothing stands. -/
theorem entry_below (h : tree.entry path = none) (rest : Path) :
    tree.entry (path ++ rest) = none := by
  by_cases hrest : rest = []
  · simpa [hrest] using h
  · by_contra hbelow
    rw [entry_of_below hrest hbelow] at h
    cases h

end Tree

/-- A single path changes. -/
def Sets (path : Path) (value : Option Node) (tree tree' : Tree) : Prop :=
  tree'.entry path = value ∧ ∀ other, other ≠ path → tree'.entry other = tree.entry other

/-- What does not exist comes to be. -/
def Creates (path : Path) (node : Node) (tree tree' : Tree) : Prop :=
  tree.entry path = none ∧ Sets path (some node) tree tree'

/-- Only a path and what is below it change. -/
def SameOutside (path : Path) (tree tree' : Tree) : Prop :=
  ∀ other, ¬ path <+: other → tree'.entry other = tree.entry other

theorem Sets.sameOutside (h : Sets other value tree tree') (hpath : path <+: other) :
    SameOutside path tree tree' := by
  intro another hother
  refine h.2 another ?_
  rintro rfl
  exact hother hpath

theorem SameOutside.mono (h : SameOutside other tree tree') (hpath : path <+: other) :
    SameOutside path tree tree' :=
  fun another hanother => h another fun hother => hanother (hpath.trans hother)

end Riley.FileTree
