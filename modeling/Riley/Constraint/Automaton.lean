import Mathlib.Logic.Function.Basic
import Riley.Constraint.TokenIndex

/-!
The lazily determinized grammar. Distinct stack sets are interned as states; a
state that was seen costs one table lookup for a byte, and keeps the vocabulary
mask that was computed for it. `none` stands for a panic of the source. The
generation counter is not bounded here: its 64 bits outlast any run.
-/

namespace Riley.Constraint

/-- A request's position in a grammar. -/
structure GrammarCursor where
  stackSet : List Stack
  state : Nat
  generation : Nat
  deriving DecidableEq, Repr

/-- One bit for each token, in words of 64. -/
abbrev Mask := List (BitVec 64)

namespace Mask

def new (vocabularySize : Nat) : Mask := List.replicate ((vocabularySize + 63) / 64) 0

def set (mask : Mask) (token : Nat) : Option Mask :=
  if token / 64 < mask.length then
    some (mask.modify (token / 64) fun word => word ||| 1#64 <<< (token % 64))
  else none

/-- The bit of a token in the word it falls into. -/
def bit (word : BitVec 64) (token : Nat) : Bool := word &&& (1#64 <<< (token % 64)) ≠ 0

def setAll : List Nat → Mask → Option Mask
  | [], mask => some mask
  | token :: rest, mask => (mask.set token).bind (setAll rest)

/-- One entry of what the caller allowed; a mask is only read for a true one. -/
def narrow (mask : Mask) (id : Nat) : Bool → Option Bool
  | false => some false
  | true => mask[id / 64]?.map fun word => bit word id

def narrowAll (mask : Mask) : Nat → List Bool → Option (List Bool)
  | _, [] => some []
  | id, entry :: rest => do
      let entry ← narrow mask id entry
      let rest ← narrowAll mask (id + 1) rest
      some (entry :: rest)

/-- `allows` on a computed mask: no bit beyond its words. -/
def admits (mask : Mask) (token : Nat) : Bool :=
  mask[token / 64]?.any fun word => bit word token

end Mask

structure DfaState where
  stackSet : List Stack
  accepting : Bool
  mask : Option Mask

/-- Lazily determinized grammar shared by every request that uses it. -/
structure GrammarAutomaton (g : Grammar) where
  states : List DfaState
  transitions : List (UInt8 → Nat)
  ids : List (List Stack × Nat)
  generation : Nat

namespace GrammarAutomaton

variable {g : Grammar}

/-- Starts with no state interned. -/
def new (g : Grammar) : GrammarAutomaton g := ⟨[], [], [], 0⟩

def intern (a : GrammarAutomaton g) (stackSet : List Stack) : Nat × GrammarAutomaton g :=
  match a.ids.lookup stackSet with
  | some id => (id, a)
  | none =>
      let id := if a.states.length ≤ u32Max then a.states.length else DEAD - 1
      (id, { a with
        states := a.states ++ [⟨stackSet, Grammar.accepting stackSet, none⟩]
        transitions := a.transitions ++ [fun _ => UNKNOWN]
        ids := (stackSet, id) :: a.ids })

/-- A cursor before the first byte. -/
def start (a : GrammarAutomaton g) : GrammarCursor × GrammarAutomaton g :=
  let (state, a) := a.intern g.startStacks
  (⟨g.startStacks, state, a.generation⟩, a)

/-- The state after a byte that the table does not know yet. -/
def explore (a : GrammarAutomaton g) (stackSet : List Stack) (byte : UInt8) :
    Nat × GrammarAutomaton g :=
  let nextStacks := g.advanceStacks stackSet byte
  if nextStacks = [] then (DEAD, a) else a.intern nextStacks

def remember (a : GrammarAutomaton g) (state : Nat) (byte : UInt8) (next : Nat) :
    GrammarAutomaton g :=
  { a with transitions := a.transitions.modify state fun row => Function.update row byte next }

def step (a : GrammarAutomaton g) (state : Nat) (byte : UInt8) :
    Option (Nat × GrammarAutomaton g) := do
  let row ← a.transitions[state]?
  if row byte ≠ UNKNOWN then some (row byte, a)
  else
    let current ← a.states[state]?
    let (next, a) := a.explore current.stackSet byte
    some (next, a.remember state byte next)

/-- Drops every interned state once the soft bound is exceeded. -/
def trim (a : GrammarAutomaton g) : GrammarAutomaton g :=
  if MAX_STATES < a.states.length then ⟨[], [], [], a.generation + 1⟩ else a

/-- A cursor of an older generation interns its own stacks again. -/
def resolve (a : GrammarAutomaton g) (cursor : GrammarCursor) :
    GrammarCursor × GrammarAutomaton g :=
  if cursor.generation ≠ a.generation then
    let (state, a) := a.intern cursor.stackSet
    ({ cursor with state := state, generation := a.generation }, a)
  else (cursor, a)

/-- Whether the input so far is a complete sentence. -/
def isAccepting (a : GrammarAutomaton g) (cursor : GrammarCursor) :
    Option (Bool × GrammarCursor × GrammarAutomaton g) := do
  let (cursor, a) := a.resolve cursor
  let state ← a.states[cursor.state]?
  some (state.accepting, cursor, a)

/-- The loop of `advance`: `DEAD` as soon as the bytes leave the grammar. -/
def walk (a : GrammarAutomaton g) (state : Nat) :
    List UInt8 → Option (Nat × GrammarAutomaton g)
  | [] => some (state, a)
  | byte :: rest => do
      let (next, a) ← a.step state byte
      if next = DEAD then some (DEAD, a) else a.walk next rest

/-- Consumes bytes. On `false` the bytes left the grammar and the stacks of the
cursor are unchanged. -/
def advance (a : GrammarAutomaton g) (cursor : GrammarCursor) (bytes : List UInt8) :
    Option (Bool × GrammarCursor × GrammarAutomaton g) := do
  let (cursor, a) := a.trim.resolve cursor
  let (state, a) ← a.walk cursor.state bytes
  -- A cursor never holds `DEAD`, so this is the early return of the loop.
  if state = DEAD then some (false, cursor, a)
  else
    let last ← a.states[state]?
    some (true, { cursor with state := state, stackSet := last.stackSet }, a)

/-- The children of a node that the grammar can enter, newest on top. -/
def descend (a : GrammarAutomaton g) (state : Nat) (pending : List (Nat × Nat)) :
    List (UInt8 × Nat) → Option (List (Nat × Nat) × GrammarAutomaton g)
  | [] => some (pending, a)
  | (byte, child) :: rest => do
      let (next, a) ← a.step state byte
      a.descend state (if next = DEAD then pending else (child, next) :: pending) rest

/-- The loop of `compute_mask`, with a bound on the nodes it visits. -/
def search (index : TokenIndex) : Nat → List (Nat × Nat) → Mask → GrammarAutomaton g →
    Option (Mask × GrammarAutomaton g)
  | _, [], mask, a => some (mask, a)
  | 0, _ :: _, _, _ => none
  | fuel + 1, (node, state) :: pending, mask, a => do
      let tokens ← TokenIndex.slice index.tokenStarts index.tokens node
      let mask ← mask.setAll tokens
      let edges ← TokenIndex.slice index.edgeStarts index.edges node
      let (pending, a) ← a.descend state pending edges
      search index fuel pending mask a

/-- Every node of the trie is visited at most once. -/
def computeMask (a : GrammarAutomaton g) (state : Nat) (index : TokenIndex) :
    Option (Mask × GrammarAutomaton g) :=
  search index index.edgeStarts.length [(0, state)] (Mask.new index.vocabularySize) a

def store (a : GrammarAutomaton g) (state : Nat) (mask : Mask) : GrammarAutomaton g :=
  { a with states := a.states.modify state fun entry => { entry with mask := some mask } }

/-- The mask of a state, computed on the first use. -/
def maskOf (a : GrammarAutomaton g) (state : Nat) (index : TokenIndex) :
    Option (Mask × GrammarAutomaton g) := do
  let current ← a.states[state]?
  match current.mask with
  | some mask => some (mask, a)
  | none => do
      let (mask, a) ← a.computeMask state index
      some (mask, a.store state mask)

/-- Clears every allowed entry whose token cannot continue from the cursor. -/
def applyMask (a : GrammarAutomaton g) (cursor : GrammarCursor) (index : TokenIndex)
    (allowed : List Bool) : Option (Bool × List Bool × GrammarCursor × GrammarAutomaton g) := do
  let (cursor, a) := a.trim.resolve cursor
  let (mask, a) ← a.maskOf cursor.state index
  if allowed.length < index.vocabularySize then none
  else
    let narrowed ← mask.narrowAll 0 (allowed.take index.vocabularySize)
    some (narrowed.any id, narrowed ++ allowed.drop index.vocabularySize, cursor, a)

/-- Whether one token can continue from the cursor. -/
def allows (a : GrammarAutomaton g) (cursor : GrammarCursor) (index : TokenIndex)
    (token : Nat) : Option (Bool × GrammarCursor × GrammarAutomaton g) := do
  let (cursor, a) := a.trim.resolve cursor
  let (mask, a) ← a.maskOf cursor.state index
  some (mask.admits token, cursor, a)

/-- What the engine does with a constrained request before it samples: the mask
of the grammar, and the end-of-sequence ids where the sentence is complete or
no token can continue it. -/
def constrain (a : GrammarAutomaton g) (cursor : GrammarCursor) (index : TokenIndex)
    (eos : List Nat) (allowed : List Bool) :
    Option (List Bool × GrammarCursor × GrammarAutomaton g) := do
  let (complete, cursor, a) ← a.isAccepting cursor
  let (continuable, allowed, cursor, a) ← a.applyMask cursor index allowed
  if complete || !continuable then
    some (eos.foldl (fun allowed id => allowed.set id true) allowed, cursor, a)
  else some (allowed, cursor, a)

end GrammarAutomaton

end Riley.Constraint
