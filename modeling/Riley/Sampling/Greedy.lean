import Riley.Sampling.Workspace

/-!
Greedy selection in one pass over a row, for requests whose distribution nobody
reads: the bits of the logits are compared through integer keys.
-/

namespace Riley.Sampling

/-- BF16 values order like their bits once the sign is folded in. Negative zero
has the key of positive zero, and no finite value has the key zero. -/
def orderKey (bits : UInt16) : UInt16 :=
  let bits := if bits = 0x8000 then 0 else bits
  if bits &&& 0x8000 = 0 then bits ||| 0x8000 else ~~~bits

def isNonFinite (bits : UInt16) : Bool := bits &&& 0x7f80 = 0x7f80

def bitsAt (endian : Endian) (row : List UInt8) (tokenId : Nat) : UInt16 :=
  fromNeBytes endian (row.getD (2 * tokenId) 0) (row.getD (2 * tokenId + 1) 0)

/-- The greatest key of the allowed tokens, or zero when there are none. -/
def maximumKey (logits : List UInt16) : TokenConstraints → UInt16
  | .allowAll => logits.foldl (fun maximum bits => max maximum (orderKey bits)) 0
  | .allowedMask mask =>
      (logits.zip mask).foldl
        (fun maximum entry => max maximum (if entry.2 then orderKey entry.1 else 0)) 0

variable {K : Type} [Field K] [LinearOrder K]

/-- Nothing means that the request needs the full path. -/
def greedyBf16Native (endian : Endian) (vocabularySize : Nat) (row : List UInt8)
    (constraints : TokenConstraints) (history : List Nat) (params : SamplingParams K) :
    Except (SamplingError K) (Option (SamplingResult K)) :=
  if params.temperature ≠ .finite 0 ∨ params.repetitionPenalty ≠ .finite 1 then .ok none
  else do
    checkShapes vocabularySize row constraints history params
    let logits := rowBits endian row
    if logits.any isNonFinite then
      let tokenId := ((List.range vocabularySize).find? fun tokenId =>
        isNonFinite (bitsAt endian row tokenId)).getD 0
      .error (.nonFiniteLogit tokenId (bitsAt endian row tokenId))
    else if maximumKey logits constraints = 0 then .error .allMasked
    else
      match (List.range vocabularySize).find? fun tokenId =>
          constraints.allows tokenId &&
            orderKey (bitsAt endian row tokenId) = maximumKey logits constraints with
      | none => .error .allMasked
      | some winner => .ok (some ⟨u32OrMax winner, 1, (0 : K)⟩)

end Riley.Sampling
