import Mathlib.Data.List.Destutter
import Mathlib.Data.List.Sort
import Riley.Machine

/-!
Byte grammars: the builder with its checks, and the expansion of parse stacks.
The head of a stack is its top, where the source keeps the top at the end of a
vector; `Stack.key` puts a stack back into the order the source compares.
Rule identifiers and frame fields are natural numbers.
-/

namespace Riley.Constraint

def UNKNOWN : Nat := u32Max
def DEAD : Nat := u32Max - 1
/-- Soft bound on interned states. -/
def MAX_STATES : Nat := 4096
/-- Parse stacks deeper than this are abandoned, bounding nested JSON. -/
def MAX_STACK_DEPTH : Nat := 128
/-- Ambiguity bound; generated grammars stay far below it. -/
def MAX_STACKS_PER_STATE : Nat := 1024

/-- A set of bytes matched by one grammar position: bit `value` of four words. -/
structure ByteClass where
  bits : BitVec 256
  deriving DecidableEq, Repr

namespace ByteClass

def empty : ByteClass := ⟨0#256⟩

def union (left right : ByteClass) : ByteClass := ⟨left.bits ||| right.bits⟩

/-- An inclusive byte range, one bit at a time from `first` to `last`. -/
def range (first last : Nat) : ByteClass :=
  ⟨(List.range' first (last + 1 - first)).foldl (fun bits value => bits ||| 1#256 <<< value) 0#256⟩

def byte (value : Nat) : ByteClass := range value value

def contains (byteClass : ByteClass) (value : UInt8) : Bool :=
  byteClass.bits.getLsbD value.toNat

end ByteClass

/-- One position of a rule alternative. -/
inductive GrammarElement where
  | bytes (byteClass : ByteClass)
  | rule (id : Nat)
  deriving DecidableEq, Repr

inductive GrammarError where
  | malformedRule
  | leftRecursion
  deriving DecidableEq, Repr

/-- The alternatives of every rule. -/
abbrev Rules := List (List (List GrammarElement))

/-- Whether `nullable` already lets an alternative match nothing. -/
def matchesNothing (nullable : List Bool) (alternative : List GrammarElement) : Bool :=
  alternative.all fun element =>
    match element with
    | .bytes _ => false
    | .rule rule => nullable.getD rule false

/-- One round of the loop of `nullable_rules`; marks set early in the round
count later in the same round. -/
def nullablePass (rules : Rules) (nullable : List Bool) : List Bool :=
  (List.range rules.length).foldl
    (fun nullable index =>
      if (rules.getD index []).any (matchesNothing nullable) then nullable.set index true
      else nullable)
    nullable

/-- Rounds until one changes nothing. -/
def nullableRounds (rules : Rules) : Nat → List Bool → List Bool
  | 0, nullable => nullable
  | fuel + 1, nullable =>
      let next := nullablePass rules nullable
      if next = nullable then nullable else nullableRounds rules fuel next

/-- Every round but the last marks one more rule. -/
def nullableRules (rules : Rules) : List Bool :=
  nullableRounds rules (rules.length + 1) (List.replicate rules.length false)

/-- The elements of an alternative that `visit` follows: rule references up to
the first byte class or the first rule that cannot match nothing. -/
def leftCorner (nullable : List Bool) : List GrammarElement → List Nat
  | [] => []
  | .bytes _ :: _ => []
  | .rule next :: rest =>
      if nullable.getD next false then next :: leftCorner nullable rest else [next]

/-- Runs `body` over a list, threading the marks. -/
def visitAll (body : Nat → List Nat → Except GrammarError (List Nat)) :
    List Nat → List Nat → Except GrammarError (List Nat)
  | [], marks => .ok marks
  | next :: rest, marks => do
      let marks ← body next marks
      visitAll body rest marks

/-- Marks are 0 unvisited, 1 on the current path, 2 finished. The path never
holds a rule twice, so `rules.length + 1` nested calls are enough. -/
def visit (rules : Rules) (nullable : List Bool) :
    Nat → Nat → List Nat → Except GrammarError (List Nat)
  | 0, _, _ => .error .leftRecursion
  | fuel + 1, rule, marks =>
      match marks.getD rule 0 with
      | 1 => .error .leftRecursion
      | 2 => .ok marks
      | _ => do
          let marks ← visitAll (visit rules nullable fuel)
            ((rules.getD rule []).flatMap (leftCorner nullable)) (marks.set rule 1)
          .ok (marks.set rule 2)

def rejectLeftRecursion (rules : Rules) : Except GrammarError Unit := do
  let _ ← visitAll (visit rules (nullableRules rules) (rules.length + 1))
    (List.range rules.length) (List.replicate rules.length 0)
  .ok ()

/-- An alternative that refers to a missing rule. -/
def dangling (ruleCount : Nat) (alternative : List GrammarElement) : Bool :=
  alternative.any fun element =>
    match element with
    | .bytes _ => false
    | .rule rule => decide (ruleCount ≤ rule)

/-- What `GrammarBuilder::build` checks. -/
def checkRules (rules : Rules) (start : Nat) : Except GrammarError Unit :=
  if rules.length ≤ start then .error .malformedRule
  else if rules.any fun alternatives =>
      alternatives.isEmpty || alternatives.any (dangling rules.length) then
    .error .malformedRule
  else
    rejectLeftRecursion rules

/-- A validated byte grammar. -/
structure Grammar where
  rules : Rules
  start : Nat
  valid : checkRules rules start = .ok ()

/-- Incrementally assembles a grammar. -/
structure GrammarBuilder where
  rules : Rules

namespace GrammarBuilder

def new : GrammarBuilder := ⟨[]⟩

/-- Reserves a rule identifier; alternatives may be added later. -/
def rule (builder : GrammarBuilder) : Nat × GrammarBuilder :=
  (min builder.rules.length u32Max, ⟨builder.rules ++ [[]]⟩)

def alternative (builder : GrammarBuilder) (rule : Nat) (elements : List GrammarElement) :
    GrammarBuilder :=
  ⟨builder.rules.modify rule (· ++ [elements])⟩

def build (builder : GrammarBuilder) (start : Nat) : Except GrammarError Grammar :=
  match h : checkRules builder.rules start with
  | .ok () => .ok ⟨builder.rules, start, h⟩
  | .error error => .error error

end GrammarBuilder

structure Frame where
  rule : Nat
  alternative : Nat
  position : Nat
  deriving DecidableEq, Repr

abbrev Stack := List Frame

namespace Frame

def next (frame : Frame) : Frame := { frame with position := frame.position + 1 }

def key (frame : Frame) : List Nat := [frame.rule, frame.alternative, frame.position]

end Frame

/-- Frames compare field by field and stacks frame by frame from the bottom. -/
def Stack.key (stack : Stack) : List Nat := stack.reverse.flatMap Frame.key

namespace Grammar

def alternatives (g : Grammar) (rule : Nat) : List (List GrammarElement) :=
  g.rules.getD rule []

/-- The elements of a frame from its position on. -/
def remaining (g : Grammar) (frame : Frame) : List GrammarElement :=
  ((g.alternatives frame.rule).getD frame.alternative []).drop frame.position

def element (g : Grammar) (frame : Frame) : Option GrammarElement :=
  (g.remaining frame).head?

/-- The stack under the branches of a rule reference. A rule in tail position
leaves no frame behind, so right recursion runs in constant stack. -/
def below (g : Grammar) (frame : Frame) (rest : Stack) : Stack :=
  if (g.element frame.next).isSome then frame.next :: rest else rest

/-- The first frame of each alternative of a rule, in order. -/
def entries (g : Grammar) (rule : Nat) : List Frame :=
  (List.range (g.alternatives rule).length).map fun alternative => ⟨rule, alternative, 0⟩

/-- The outputs of a list of calls, or nothing when one of them has none. -/
def collect {α β : Type} (body : α → Option (List β)) : List α → Option (List β)
  | [] => some []
  | item :: rest => do
      let first ← body item
      let others ← collect body rest
      some (first ++ others)

/-- Resolves rule references until every stack has a byte class on top or is
empty, with a bound on the frames looked at. -/
def expandWith (g : Grammar) : Nat → Stack → Option (List Stack)
  | 0, _ => none
  | _ + 1, [] => some [[]]
  | fuel + 1, frame :: rest =>
      match g.element frame with
      | none => g.expandWith fuel rest
      | some (.bytes _) => some [frame :: rest]
      | some (.rule rule) =>
          if MAX_STACK_DEPTH ≤ (g.below frame rest).length then some []
          else collect (fun entry => g.expandWith fuel (entry :: g.below frame rest))
            (g.entries rule)

/-- The longest alternative of a grammar. -/
def longest (g : Grammar) : Nat :=
  (g.rules.flatMap fun alternatives => alternatives.map List.length).foldr max 0

/-- Frames that one rule without left recursion can make `expand` look at when
at most `depth` rules are nested at its left corner. -/
def ruleCost (g : Grammar) : Nat → Nat
  | 0 => 0
  | depth + 1 => g.longest * (g.ruleCost depth + 1) + 1

def frameCost (g : Grammar) : Nat :=
  g.longest * (g.ruleCost g.rules.length + 1) + 1

/-- `expand`: the bound is never reached, see `expandWith_isSome`. -/
def expand (g : Grammar) (stack : Stack) : List Stack :=
  (g.expandWith (stack.length * g.frameCost + 1) stack).getD []

/-- Sorted and without repetitions. -/
def distinct (found : List Stack) : List Stack :=
  (found.insertionSort fun left right => Stack.key left ≤ Stack.key right).destutter (· ≠ ·)

/-- The distinct stacks, cut at the ambiguity bound. -/
def canonical (found : List Stack) : List Stack :=
  (distinct found).take MAX_STACKS_PER_STATE

/-- The stacks before the first byte, before they are put in order. -/
def opened (g : Grammar) : List Stack :=
  (g.entries g.start).flatMap fun entry => g.expand [entry]

def startStacks (g : Grammar) : List Stack := canonical g.opened

/-- The stacks of one stack after a byte, before they are put in order. -/
def advanceStack (g : Grammar) (byte : UInt8) : Stack → List Stack
  | [] => []
  | top :: rest =>
      match g.element top with
      | some (.bytes byteClass) =>
          if byteClass.contains byte then g.expand (top.next :: rest) else []
      | _ => []

def advanceStacks (g : Grammar) (current : List Stack) (byte : UInt8) : List Stack :=
  canonical (current.flatMap (g.advanceStack byte))

/-- The input may end where some stack is empty. -/
def accepting (current : List Stack) : Bool := current.any List.isEmpty

end Grammar

end Riley.Constraint
