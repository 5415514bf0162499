import Riley.Tokenizer.ByteAlphabet

/-!
The trie of the added tokens, over the bytes of their contents. Nodes are
numbered in the order in which they are made; node 0 is the root.
-/

namespace Riley.Tokenizer

open Utf8 (Text)

structure AddedTrieNode where
  children : List (UInt8 × Nat)
  terminal : Option Nat
  deriving DecidableEq, Repr

def emptyNode : AddedTrieNode := ⟨[], none⟩

structure AddedTrie where
  nodes : List AddedTrieNode
  deriving DecidableEq, Repr

namespace AddedTrie

/-- The child of a node by a byte. -/
def child (trie : AddedTrie) (node : Nat) (byte : UInt8) : Option Nat :=
  (trie.nodes.getD node emptyNode).children.lookup byte

def terminal (trie : AddedTrie) (node : Nat) : Option Nat :=
  (trie.nodes.getD node emptyNode).terminal

/-- Makes a node and the edge to it. -/
def addChild (trie : AddedTrie) (node : Nat) (byte : UInt8) : AddedTrie :=
  ⟨(trie.nodes ++ [emptyNode]).modify node fun parent =>
    { parent with children := (byte, trie.nodes.length) :: parent.children }⟩

def setTerminal (trie : AddedTrie) (node id : Nat) : AddedTrie :=
  ⟨trie.nodes.modify node fun last => { last with terminal := some id }⟩

/-- Goes down from a node along bytes, making the nodes that are missing. -/
def descend (trie : AddedTrie) (node : Nat) : Bytes → Nat × AddedTrie
  | [] => (node, trie)
  | byte :: rest =>
      match trie.child node byte with
      | some child => trie.descend child rest
      | none => (trie.addChild node byte).descend trie.nodes.length rest

/-- Nothing where the bytes end at another token already. -/
def insert (trie : AddedTrie) (bytes : Bytes) (id : Nat) : Option AddedTrie :=
  let rooted := if trie.nodes = [] then ⟨[emptyNode]⟩ else trie
  let (node, trie) := rooted.descend 0 bytes
  if (trie.terminal node).isSome then none else some (trie.setTerminal node id)

/-- The longest token along bytes, with how many of them it takes. `relative`
bytes are behind. -/
def longestFrom (trie : AddedTrie) (node relative : Nat) (best : Option (Nat × Nat)) :
    Bytes → Option (Nat × Nat)
  | [] => best
  | byte :: rest =>
      match trie.child node byte with
      | none => best
      | some child =>
          let best := ((trie.terminal child).map fun id => (relative + 1, id)).or best
          trie.longestFrom child (relative + 1) best rest

def longestAt (trie : AddedTrie) (input : Bytes) : Option (Nat × Nat) :=
  trie.longestFrom 0 0 none input

def nextMatchFrom (trie : AddedTrie) (relative : Nat) : Text → Option (Nat × Nat × Nat)
  | [] => none
  | character :: rest =>
      match trie.longestAt (Utf8.encode (character :: rest)) with
      | some (length, id) => some (relative, length, id)
      | none => trie.nextMatchFrom (relative + 1) rest

/-- The first place where a token begins: the number of characters before it, the
number of its bytes and its id. -/
def nextMatch (trie : AddedTrie) (input : Text) : Option (Nat × Nat × Nat) :=
  if trie.nodes = [] then none else trie.nextMatchFrom 0 input

end AddedTrie

end Riley.Tokenizer
