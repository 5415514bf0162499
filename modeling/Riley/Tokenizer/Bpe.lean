import Riley.Library.Merging
import Riley.Tokenizer.ByteAlphabet

/-!
The merge engine: symbols in a doubly linked list, and a heap of the neighbours
that can be merged. An entry of the heap may be out of date when it is popped.
-/

namespace Riley.Tokenizer

open Utf8 (Text)

structure BpeNode where
  text : Text
  previous : Option Nat
  next : Option Nat
  alive : Bool
  deriving DecidableEq, Repr

def BpeNode.new (text : Text) : BpeNode := ⟨text, none, none, true⟩

/-- The ranks of the pairs of symbols that merge. -/
abbrev MergeRanks := List ((Text × Text) × Nat)

/-- An entry of the heap, in the order of its fields. -/
structure Candidate where
  rank : Nat
  position : Nat
  left : Nat
  right : Nat
  deriving DecidableEq, Repr

def Candidate.le (first second : Candidate) : Bool :=
  first.rank < second.rank || first.rank = second.rank &&
    (first.position < second.position || first.position = second.position &&
      (first.left < second.left || first.left = second.left && first.right ≤ second.right))

/-- Nothing where the source would panic. -/
def pairRank (nodes : List BpeNode) (ranks : MergeRanks) (left right : Nat) : Option Nat := do
  let first ← nodes[left]?
  let second ← nodes[right]?
  ranks.lookup (first.text, second.text)

def pushCandidate (nodes : List BpeNode) (ranks : MergeRanks) (left right : Nat)
    (heap : List Candidate) : List Candidate :=
  match pairRank nodes ranks left right with
  | some rank => ⟨rank, left, left, right⟩ :: heap
  | none => heap

def candidateIsCurrent (nodes : List BpeNode) (ranks : MergeRanks) (rank left right : Nat) : Bool :=
  (nodes[left]?.any fun node => node.alive && node.next = some right) &&
    (nodes[right]?.any fun node => node.alive) && pairRank nodes ranks left right = some rank

/-- The nodes after the right neighbour is merged into the left one. -/
def mergedNodes (nodes : List BpeNode) (left right : Nat) : List BpeNode :=
  let next := nodes[right]?.bind BpeNode.next
  let rightText := (nodes[right]?.map BpeNode.text).getD []
  let nodes := nodes.modify right fun node =>
    { node with text := [], alive := false, previous := none, next := none }
  let nodes := nodes.modify left fun node =>
    { node with text := node.text ++ rightText, next := next }
  match next with
  | some next => nodes.modify next fun node => { node with previous := some left }
  | none => nodes

/-- The heap with the pairs that the merged node is in. -/
def pushNeighbours (nodes : List BpeNode) (ranks : MergeRanks) (left : Nat)
    (heap : List Candidate) : List Candidate :=
  let heap := (nodes[left]?.bind BpeNode.previous).elim heap fun previous =>
    pushCandidate nodes ranks previous left heap
  (nodes[left]?.bind BpeNode.next).elim heap fun next =>
    pushCandidate nodes ranks left next heap

def mergeLoop (ranks : MergeRanks) : Nat → List BpeNode → List Candidate → List BpeNode
  | 0, nodes, _ => nodes
  | fuel + 1, nodes, candidates =>
      match Merging.popLeast Candidate.le candidates with
      | none => nodes
      | some (⟨rank, _, left, right⟩, candidates) =>
          if candidateIsCurrent nodes ranks rank left right then
            let nodes := mergedNodes nodes left right
            mergeLoop ranks fuel nodes (pushNeighbours nodes ranks left candidates)
          else mergeLoop ranks fuel nodes candidates

/-- Every node beside its neighbours. -/
def linkNodes (nodes : List BpeNode) : List BpeNode :=
  nodes.mapIdx fun index node =>
    { node with
      previous := if index = 0 then none else some (index - 1)
      next := if index + 1 < nodes.length then some (index + 1) else none }

def mergeBpeNodes (nodes : List BpeNode) (ranks : MergeRanks) : List BpeNode :=
  let nodes := linkNodes nodes
  let candidates := (List.range (nodes.length - 1)).foldl
    (fun heap left => pushCandidate nodes ranks left (left + 1) heap) []
  mergeLoop ranks (3 * nodes.length) nodes candidates

/-- The texts of the nodes that are alive, from a node on. -/
def aliveTexts (nodes : List BpeNode) : Nat → Option Nat → List Text
  | 0, _ => []
  | _ + 1, none => []
  | fuel + 1, some index =>
      match nodes[index]? with
      | none => []
      | some node => (if node.alive then [node.text] else []) ++ aliveTexts nodes fuel node.next

/-- The symbols that a mapped piece is merged to. -/
def bpeSymbols (ranks : MergeRanks) (mapped : Text) : List Text :=
  let nodes := mapped.map fun character => BpeNode.new [character]
  if nodes = [] then []
  else
    let nodes := mergeBpeNodes nodes ranks
    aliveTexts nodes nodes.length (some 0)

end Riley.Tokenizer
