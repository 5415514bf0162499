import Riley.PagedKv.SequenceSpec

/-!
A pool with all the sequences made from it, under every public call in any
order. Beside the pool and the sequences the state lists what callers hold:
`owed` has one entry for each hold that `share_next_block` handed out and that
was not released, `tokens` the reclaim tokens not yet redeemed, and `redeemed`
those that were.
-/

namespace Riley.PagedKv

open Outcome

/-- A call on one sequence. Reservations, blocks and lengths are any values. -/
inductive SequenceCall
  | reserveTo (target : Nat)
  | commit (reservation : SequenceReservation)
  | rollback (reservation : SequenceReservation)
  | poison (reservation : SequenceReservation)
  | rollbackAbandonedReservation
  | truncateTo (target : Nat)
  | reset
  | close
  | adoptSharedBlock (block : BlockId)
  | attachSidecar (logicalBlockIndex : Nat) (metadata : OptionalBlockMetadata)

def SequenceCall.run : SequenceCall → KvM Unit
  | reserveTo target => do
      let _ ← SequenceState.reserveTo target
  | commit reservation => do
      let _ ← SequenceState.commit reservation
  | rollback reservation => SequenceState.rollback reservation
  | poison reservation => SequenceState.poison reservation
  | rollbackAbandonedReservation => SequenceState.rollbackAbandonedReservation
  | truncateTo target => SequenceState.truncateTo target
  | reset => SequenceState.reset
  | close => SequenceState.close
  | adoptSharedBlock block => SequenceState.adoptSharedBlock block
  | attachSidecar logicalBlockIndex metadata =>
      SequenceState.attachSidecar logicalBlockIndex metadata

structure KvSystem where
  pool : KvBlockPool
  /-- A sequence that was abandoned for reclaim is gone. -/
  sequences : List (Option SequenceState)
  tokens : List SequenceReclaimToken
  redeemed : List SequenceReclaimToken
  owed : Multiset BlockId

namespace KvSystem

def start (cookie : Nat) (layout : KvLayout) : KvSystem where
  pool := KvBlockPool.new cookie layout
  sequences := []
  tokens := []
  redeemed := []
  owed := 0

def withSequence (system : KvSystem) (index : Nat) (state : KvState) : KvSystem :=
  { system with pool := state.pool, sequences := system.sequences.set index (some state.seq) }

/-- The longest maximum length whose blocks all end at a U32 length. -/
def longestWholeLength : Nat := 4294967280

/-- One public call. Under the contract of the callers (`contract`) a hold is
released once, a reclaim token is redeemed once, and a sequence is made with a
maximum length that adopted blocks cannot carry past the U32 range. -/
inductive Step (contract : Bool) : KvSystem → KvSystem → Prop
  | create {system : KvSystem} {maximum : Nat} {host : List Bool}
      {seq : SequenceState} {left : KvBlockPool × List Bool}
      (hrun : KvBlockPool.createSequence maximum (system.pool, host) = .ok seq left)
      (hmaximum : contract = true → maximum ≤ longestWholeLength) :
      Step contract system
        { system with pool := left.1, sequences := system.sequences ++ [some seq] }
  | createFails {system : KvSystem} {maximum : Nat} {host : List Bool}
      {error : PagedKvError} {left : KvBlockPool × List Bool}
      (hrun : KvBlockPool.createSequence maximum (system.pool, host) = .error error left) :
      Step contract system { system with pool := left.1 }
  | call {system : KvSystem} {index : Nat} {seq : SequenceState} (call : SequenceCall)
      (hseq : system.sequences[index]? = some (some seq)) :
      Step contract system (system.withSequence index (after call.run ⟨seq, system.pool⟩))
  | share {system : KvSystem} {index : Nat} {seq : SequenceState} {block : BlockId}
      {state : KvState} (hseq : system.sequences[index]? = some (some seq))
      (hrun : SequenceState.shareNextBlock ⟨seq, system.pool⟩ = .ok block state) :
      Step contract system
        { system.withSequence index state with owed := block ::ₘ system.owed }
  | shareFails {system : KvSystem} {index : Nat} {seq : SequenceState}
      {error : PagedKvError} {state : KvState}
      (hseq : system.sequences[index]? = some (some seq))
      (hrun : SequenceState.shareNextBlock ⟨seq, system.pool⟩ = .error error state) :
      Step contract system (system.withSequence index state)
  | release {system : KvSystem} {block : BlockId} {pool : KvBlockPool}
      (hrun : KvBlockPool.releaseSharedBlock block system.pool = .ok () pool)
      (howed : contract = true → block ∈ system.owed) :
      Step contract system { system with pool := pool, owed := system.owed.erase block }
  | releaseFails {system : KvSystem} {block : BlockId} {error : PagedKvError}
      {pool : KvBlockPool}
      (hrun : KvBlockPool.releaseSharedBlock block system.pool = .error error pool) :
      Step contract system { system with pool := pool }
  | abandon {system : KvSystem} {index : Nat} {seq : SequenceState}
      (hseq : system.sequences[index]? = some (some seq)) :
      Step contract system
        { system with
          sequences := system.sequences.set index none
          tokens := seq.abandonForReclaim :: system.tokens }
  | reclaim {system : KvSystem} {token : SequenceReclaimToken} {released : Nat}
      {pool : KvBlockPool}
      (hrun : KvBlockPool.reclaimSequence token system.pool = .ok released pool)
      (htoken : token ∈ system.tokens ∨ contract = false ∧ token ∈ system.redeemed) :
      Step contract system
        { system with
          pool := pool
          tokens := system.tokens.erase token
          redeemed := token :: system.redeemed }
  | reclaimFails {system : KvSystem} {token : SequenceReclaimToken} {error : PagedKvError}
      {pool : KvBlockPool}
      (hrun : KvBlockPool.reclaimSequence token system.pool = .error error pool)
      (htoken : token ∈ system.tokens ∨ contract = false ∧ token ∈ system.redeemed) :
      Step contract system { system with pool := pool }

/-- The states that public calls reach from a new pool. -/
def Reachable (contract : Bool) (cookie : Nat) (layout : KvLayout) : KvSystem → Prop :=
  Relation.ReflTransGen (Step contract) (start cookie layout)

end KvSystem

end Riley.PagedKv
