import Riley.Constraint.Grammar

/-!
The vocabulary as a trie of token bytes, and its flattened form. A node of the
trie is numbered in the order in which it is made.
-/

namespace Riley.Constraint

/-- The trie under construction: the edges and the tokens of every node. -/
structure Trie where
  children : List (List (UInt8 × Nat))
  terminals : List (List Nat)
  deriving DecidableEq, Repr

namespace Trie

def root : Trie := ⟨[[]], [[]]⟩

/-- Follows the newest edge of a node when it has the byte, else adds a node. -/
def descend (trie : Trie) (node : Nat) (byte : UInt8) : Nat × Trie :=
  let last := (trie.children.getD node []).getLast?
  match last.filter fun edge => edge.1 = byte with
  | some (_, next) => (next, trie)
  | none =>
      (trie.children.length,
        { children :=
            trie.children.modify node (· ++ [(byte, min trie.children.length u32Max)]) ++ [[]]
          terminals := trie.terminals ++ [[]] })

def path (trie : Trie) (node : Nat) : List UInt8 → Nat × Trie
  | [] => (node, trie)
  | byte :: rest =>
      let (next, trie) := trie.descend node byte
      trie.path next rest

def insert (trie : Trie) (id : Nat) (bytes : List UInt8) : Trie :=
  let (node, trie) := trie.path 0 bytes
  { trie with terminals := trie.terminals.modify node (· ++ [id]) }

end Trie

/-- Every usable token by its bytes. Node `n` has the entries of `edges` from
`edgeStarts[n]` up to `edgeStarts[n + 1]`, and its tokens likewise. -/
structure TokenIndex where
  vocabularySize : Nat
  offsets : List Nat
  bytes : List UInt8
  edgeStarts : List Nat
  edges : List (UInt8 × Nat)
  tokenStarts : List Nat
  tokens : List Nat
  deriving DecidableEq, Repr

namespace TokenIndex

/-- Where each list of a list of lists starts in the concatenation, and its end. -/
def starts {α : Type} (groups : List (List α)) : List Nat :=
  (groups.map List.length).scanl (· + ·) 0 |>.map fun start => min start u32Max

/-- The tokens that decode to something, by their bytes. -/
def order (tokenBytes : List (List UInt8)) : List Nat :=
  (((List.range tokenBytes.length).filter fun id => tokenBytes.getD id [] ≠ []).map
    fun id => min id u32Max).insertionSort
    fun left right => tokenBytes.getD left [] ≤ tokenBytes.getD right []

def trie (tokenBytes : List (List UInt8)) : Trie :=
  (order tokenBytes).foldl (fun trie id => trie.insert id (tokenBytes.getD id [])) Trie.root

def new (tokenBytes : List (List UInt8)) : TokenIndex where
  vocabularySize := tokenBytes.length
  offsets := starts tokenBytes
  bytes := tokenBytes.flatten
  edgeStarts := starts (trie tokenBytes).children
  edges := (trie tokenBytes).children.flatten
  tokenStarts := starts (trie tokenBytes).terminals
  tokens := (trie tokenBytes).terminals.flatten

/-- The entries of one group, or nothing where the source would panic. -/
def slice {α : Type} (starts : List Nat) (items : List α) (group : Nat) : Option (List α) := do
  let first ← starts[group]?
  let last ← starts[group + 1]?
  if first ≤ last ∧ last ≤ items.length then some ((items.take last).drop first) else none

/-- `token_bytes`: empty for special or out-of-range tokens. -/
def bytesOf (index : TokenIndex) (id : Nat) : Option (List UInt8) :=
  if index.offsets.length ≤ id + 1 then some [] else slice index.offsets index.bytes id

end TokenIndex

end Riley.Constraint
