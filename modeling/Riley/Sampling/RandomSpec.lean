import Mathlib
import Riley.Library.Outcome
import Riley.Sampling.Random

/-!
Positions of a random stream. A generator is known by its digest and the number of words
drawn, a draw answers the word of that number, and a snapshot tells both: it is accepted
exactly when some generator writes it, and that generator is the one it restores.
-/

namespace Riley.Sampling

open Outcome
open Utf8 (Text)

section Hexadecimal

theorem hexNibble_lowerHex {digit : Nat} (h : digit < 16) :
    hexNibble (lowerHex digit) = digit ∧ isLowerHex (lowerHex digit) = true := by
  have htable : ∀ digit < 16,
      hexNibble (lowerHex digit) = digit ∧ isLowerHex (lowerHex digit) = true := by
    decide
  exact htable digit h

theorem lowerHex_hexNibble {c : Char} (h : isLowerHex c = true) :
    lowerHex (hexNibble c) = c ∧ hexNibble c < 16 := by
  have htable : ∀ value < 103, isLowerHex (Char.ofNat value) = true →
      lowerHex (hexNibble (Char.ofNat value)) = Char.ofNat value ∧
        hexNibble (Char.ofNat value) < 16 := by
    decide
  have hbound : c.toNat < 103 := by
    rw [isLowerHex, Bool.or_eq_true, Bool.and_eq_true, Bool.and_eq_true] at h
    simp only [decide_eq_true_eq] at h
    rcases h with ⟨_, hle⟩ | ⟨_, hle⟩
    · exact Nat.lt_of_le_of_lt (Char.le_def.mp hle) (by decide)
    · exact Nat.lt_of_le_of_lt (Char.le_def.mp hle) (by decide)
  have hvalue := htable c.toNat hbound
  rw [Char.ofNat_toNat] at hvalue
  exact hvalue h

theorem readHex_flatMap (bytes : List UInt8) : readHex (bytes.flatMap byteHex) = bytes := by
  induction bytes with
  | nil => rfl
  | cons byte rest ih =>
      have hlt := byte.toNat_lt
      obtain ⟨hhigh, _⟩ := @hexNibble_lowerHex (byte.toNat / 16) (by omega)
      obtain ⟨hlow, _⟩ := @hexNibble_lowerHex (byte.toNat % 16) (by omega)
      rw [List.flatMap_cons, byteHex, List.cons_append, List.cons_append, List.nil_append, readHex,
        ih, hhigh, hlow, Nat.div_add_mod, UInt8.ofNat_toNat]

theorem all_isLowerHex (bytes : List UInt8) : (bytes.flatMap byteHex).all isLowerHex = true := by
  rw [List.all_flatMap, List.all_eq_true]
  intro byte _
  have hlt := byte.toNat_lt
  rw [byteHex, List.all_cons, List.all_cons, List.all_nil,
    (@hexNibble_lowerHex (byte.toNat / 16) (by omega)).2,
    (@hexNibble_lowerHex (byte.toNat % 16) (by omega)).2]
  rfl

theorem length_flatMap_byteHex (bytes : List UInt8) :
    (bytes.flatMap byteHex).length = 2 * bytes.length := by
  induction bytes with
  | nil => rfl
  | cons byte rest ih =>
      rw [List.flatMap_cons, List.length_append, ih, List.length_cons]
      exact Nat.add_comm 2 _

theorem flatMap_readHex : ∀ {value : Text}, value.length % 2 = 0 → value.all isLowerHex = true →
    (readHex value).flatMap byteHex = value
  | [], _, _ => rfl
  | [_], heven, _ => by simp at heven
  | high :: low :: rest, heven, hall => by
      rw [List.all_cons, List.all_cons, Bool.and_eq_true, Bool.and_eq_true] at hall
      obtain ⟨hhigh, hlow, hrest⟩ := hall
      obtain ⟨hhigh, hhigh'⟩ := lowerHex_hexNibble hhigh
      obtain ⟨hlow, hlow'⟩ := lowerHex_hexNibble hlow
      have heven' : rest.length % 2 = 0 := by
        rw [List.length_cons, List.length_cons] at heven
        omega
      have hbyte : (UInt8.ofNat (16 * hexNibble high + hexNibble low)).toNat =
          16 * hexNibble high + hexNibble low :=
        UInt8.toNat_ofNat_of_lt' (by show _ < 256; omega)
      have hdiv : (16 * hexNibble high + hexNibble low) / 16 = hexNibble high := by omega
      have hmod : (16 * hexNibble high + hexNibble low) % 16 = hexNibble low := by omega
      rw [readHex, List.flatMap_cons, flatMap_readHex heven' hrest, byteHex, hbyte, hdiv, hmod,
        hhigh, hlow]
      rfl

theorem parseDigestHex_eq_ok {value : Text} {digest : DerivationDigest} :
    parseDigestHex value = .ok digest ↔ digestHex digest = value := by
  unfold parseDigestHex digestHex
  constructor
  · intro h
    split at h
    · next hvalid =>
        cases h
        exact flatMap_readHex (by rw [hvalid.1]) hvalid.2
    · cases h
  · rintro rfl
    have hlength : (digest.toList.flatMap byteHex).length = 64 := by
      rw [length_flatMap_byteHex, Vector.length_toList]
    rw [dif_pos ⟨hlength, all_isLowerHex _⟩]
    congr 1
    apply Vector.toArray_inj.mp
    simp only [readHex_flatMap]
    exact Array.toArray_toList

theorem parseBlockDecimal_eq_ok {value : Text} {block : { block : Nat // block ≤ u64Max }} :
    parseBlockDecimal value = .ok block ↔ Nat.toDigits 10 block = value := by
  unfold parseBlockDecimal
  constructor
  · intro h
    split at h
    · next hvalid =>
        obtain ⟨hne, hlead, hall, hle⟩ := hvalid
        cases h
        exact Numerals.toDigits_value ⟨hne, List.all_eq_true.mp hall, hlead⟩
    · cases h
  · intro h
    obtain ⟨hne, hdigit, hlead⟩ := Numerals.canonical_toDigits block
    have hvalue := Numerals.value_toDigits block
    rw [h] at hne hdigit hlead hvalue
    rw [dif_pos ⟨hne, hlead, List.all_eq_true.mpr hdigit, hvalue.symm ▸ block.property⟩]
    congr 1
    exact Subtype.ext hvalue

end Hexadecimal

namespace Philox4x32Rng

section Positions

theorem draws_of_live {rng : Philox4x32Rng} (h : rng.exhausted = false) :
    rng.draws = rng.block * 4 + rng.wordOffset := by
  rw [draws, h]
  rfl

theorem draws_of_exhausted {rng : Philox4x32Rng} (h : rng.exhausted = true) :
    rng.draws = streamLength := by
  rw [draws, h]
  rfl

theorem draws_lt_iff (rng : Philox4x32Rng) :
    rng.draws < streamLength ↔ rng.exhausted = false := by
  constructor
  · intro h
    by_contra hend
    rw [draws_of_exhausted (Bool.not_eq_false _ ▸ hend)] at h
    exact Nat.lt_irrefl _ h
  · intro h
    have hblock := rng.block_le
    have hword := rng.wordOffset.isLt
    rw [draws_of_live h, streamLength]
    rw [u64Max] at hblock
    omega

theorem draws_le (rng : Philox4x32Rng) : rng.draws ≤ streamLength := by
  cases h : rng.exhausted with
  | true => exact Nat.le_of_eq (draws_of_exhausted h)
  | false => exact Nat.le_of_lt ((draws_lt_iff rng).mpr h)

theorem digest_advance (rng : Philox4x32Rng) (h : rng.exhausted = false) :
    (rng.advance h).derivationDigest = rng.derivationDigest := by
  unfold advance
  split
  · rfl
  split <;> rfl

theorem draws_advance (rng : Philox4x32Rng) (h : rng.exhausted = false) :
    (rng.advance h).draws = rng.draws + 1 := by
  have hword := rng.wordOffset.isLt
  rw [draws_of_live h]
  unfold advance
  split
  · next hlt =>
      have hnext : ((rng.wordOffset + 1 : Fin 4) : Nat) = rng.wordOffset + 1 := by omega
      refine Eq.trans (draws_of_live ?_) ?_
      · exact h
      · rw [hnext]
        exact (Nat.add_assoc _ _ _).symm
  split
  · next hlast hblock =>
      have hthree : (rng.wordOffset : Nat) = 3 := by omega
      rw [draws_of_exhausted rfl, hblock, hthree]
      rfl
  · next hlast hblock =>
      have hthree : (rng.wordOffset : Nat) = 3 := by omega
      refine Eq.trans (draws_of_live ?_) ?_
      · exact h
      · rw [hthree]
        show (rng.block + 1) * 4 + 0 = _
        omega

/-- A draw answers the word at the position of the generator, and moves it by one. -/
theorem nextU32_of_lt {rng : Philox4x32Rng} (h : rng.draws < streamLength) :
    ∃ behind, nextU32 rng = .ok (streamWord rng.derivationDigest rng.draws) behind ∧
      behind.draws = rng.draws + 1 ∧ behind.derivationDigest = rng.derivationDigest := by
  have hlive := (draws_lt_iff rng).mp h
  refine ⟨rng.advance hlive, ?_, draws_advance rng hlive, digest_advance rng hlive⟩
  have hword := rng.wordOffset.isLt
  have hblock : rng.draws / 4 = rng.block := by
    rw [draws_of_live hlive]
    omega
  have hoffset : Fin.ofNat 4 rng.draws = rng.wordOffset := by
    apply Fin.ext
    rw [Fin.val_ofNat, draws_of_live hlive]
    omega
  unfold nextU32
  rw [dif_neg (by rw [hlive]; decide), streamWord, hblock, hoffset, rng.key_eq, rng.nonce_eq]

theorem nextU32_of_end {rng : Philox4x32Rng} (h : rng.draws = streamLength) :
    nextU32 rng = .error .exhausted rng := by
  have hend : rng.exhausted = true := by
    by_contra hlive
    exact absurd ((draws_lt_iff rng).mpr (Bool.not_eq_true _ ▸ hlive)) (by omega)
  unfold nextU32
  rw [dif_pos hend]

end Positions

section Snapshots

theorem snapshot_of_fromSnapshot {written : RngSnapshot} {rng : Philox4x32Rng}
    (h : fromSnapshot written = .ok rng) : rng.snapshot = written := by
  unfold fromSnapshot at h
  split at h
  · cases h
  next hid =>
  obtain ⟨digest, hdigest, h⟩ := except_bind_eq_ok.mp h
  obtain ⟨block, hblock, h⟩ := except_bind_eq_ok.mp h
  split at h
  · cases h
  split at h
  · cases h
  · cases h
    exact RngSnapshot.ext (not_not.mp hid).symm (parseDigestHex_eq_ok.mp hdigest)
      (parseBlockDecimal_eq_ok.mp hblock) rfl rfl

theorem fromValidatedState_self (rng : Philox4x32Rng) :
    fromValidatedState rng.derivationDigest rng.block rng.wordOffset rng.exhausted rng.block_le
      rng.exhausted_end = rng := by
  obtain ⟨digest, key, nonce, block, word, exhausted, hblock, rfl, rfl, hend⟩ := rng
  rfl

theorem fromSnapshot_snapshot (rng : Philox4x32Rng) : fromSnapshot rng.snapshot = .ok rng := by
  have hid : ¬ rng.snapshot.algorithmId ≠ philoxAlgorithmId := not_not.mpr rfl
  have hhex : parseDigestHex rng.snapshot.derivationDigestHex = .ok rng.derivationDigest :=
    parseDigestHex_eq_ok.mpr rfl
  have hdecimal : parseBlockDecimal rng.snapshot.block = .ok ⟨rng.block, rng.block_le⟩ :=
    parseBlockDecimal_eq_ok.mpr rfl
  have hword : ¬ rng.snapshot.wordOffset > 3 := by
    have := rng.wordOffset.isLt
    show ¬ (rng.wordOffset : Nat) > 3
    omega
  have hconsistent : ¬ (rng.snapshot.exhausted = true ∧
      (rng.block ≠ u64Max ∨ rng.snapshot.wordOffset ≠ 3)) := by
    rintro ⟨hend, hother⟩
    obtain ⟨hblock, hthree⟩ := rng.exhausted_end hend
    have hthree' : rng.snapshot.wordOffset = 3 := congrArg Fin.val hthree
    rcases hother with hother | hother
    · exact hother hblock
    · exact hother hthree'
  unfold fromSnapshot
  rw [if_neg hid, hhex]
  simp only [bind, Except.bind, hdecimal]
  rw [dif_neg hword, dif_neg hconsistent]
  exact congrArg Except.ok (fromValidatedState_self rng)

/-- A snapshot restores the generator that wrote it, and nothing else is restored. -/
theorem fromSnapshot_eq_ok {written : RngSnapshot} {rng : Philox4x32Rng} :
    fromSnapshot written = .ok rng ↔ rng.snapshot = written := by
  constructor
  · exact snapshot_of_fromSnapshot
  · rintro rfl
    exact fromSnapshot_snapshot rng

/-- What a generator of that digest writes after so many draws. -/
def snapshotAt (digest : DerivationDigest) (position : Nat) : RngSnapshot where
  algorithmId := philoxAlgorithmId
  derivationDigestHex := digestHex digest
  block := Nat.toDigits 10 (if position < streamLength then position / 4 else u64Max)
  wordOffset := if position < streamLength then position % 4 else 3
  exhausted := decide (streamLength ≤ position)

theorem snapshot_eq (rng : Philox4x32Rng) :
    rng.snapshot = snapshotAt rng.derivationDigest rng.draws := by
  rw [snapshot, snapshotAt, RngSnapshot.mk.injEq]
  cases h : rng.exhausted with
  | true =>
      obtain ⟨hblock, hword⟩ := rng.exhausted_end h
      rw [draws_of_exhausted h, if_neg (Nat.lt_irrefl _), if_neg (Nat.lt_irrefl _), hblock, hword]
      exact ⟨rfl, rfl, rfl, rfl, (decide_eq_true (Nat.le_refl _)).symm⟩
  | false =>
      have hlt := (draws_lt_iff rng).mpr h
      have hword := rng.wordOffset.isLt
      have hblock : rng.draws / 4 = rng.block := by
        rw [draws_of_live h]
        omega
      have hoffset : rng.draws % 4 = rng.wordOffset := by
        rw [draws_of_live h]
        omega
      rw [if_pos hlt, if_pos hlt, hblock, hoffset]
      exact ⟨rfl, rfl, rfl, rfl, (decide_eq_false (Nat.not_le.mpr hlt)).symm⟩

/-- The generator of a digest at a position. -/
theorem exists_at (digest : DerivationDigest) {position : Nat} (h : position ≤ streamLength) :
    ∃ rng : Philox4x32Rng, rng.derivationDigest = digest ∧ rng.draws = position := by
  rcases Nat.lt_or_ge position streamLength with hlt | hge
  · have hblock : position / 4 ≤ u64Max := by
      rw [streamLength] at hlt
      rw [u64Max]
      omega
    refine ⟨fromValidatedState digest (position / 4) (Fin.ofNat 4 position) false hblock
      fun hend => absurd hend Bool.false_ne_true, rfl, ?_⟩
    rw [draws_of_live rfl]
    show position / 4 * 4 + position % 4 = position
    omega
  · refine ⟨fromValidatedState digest u64Max 3 true (Nat.le_refl _) fun _ => ⟨rfl, rfl⟩, rfl, ?_⟩
    rw [draws_of_exhausted rfl]
    omega

end Snapshots

section Runs

/-- What may be asked of a generator. -/
inductive Op
  | draw
  | snapshot
  | restore (written : RngSnapshot)

inductive Answer
  | word (result : Except RngError UInt32)
  | taken (written : RngSnapshot)
  | restored (result : Except RngError Unit)

def step (rng : Philox4x32Rng) : Op → Answer × Philox4x32Rng
  | .draw =>
      match nextU32 rng with
      | .ok word behind => (.word (.ok word), behind)
      | .error error behind => (.word (.error error), behind)
  | .snapshot => (.taken rng.snapshot, rng)
  | .restore written =>
      match restore written rng with
      | .ok result behind => (.restored (.ok result), behind)
      | .error error behind => (.restored (.error error), behind)

def run (rng : Philox4x32Rng) : List Op → List Answer × Philox4x32Rng
  | [] => ([], rng)
  | op :: rest =>
      let (answer, behind) := rng.step op
      let (answers, final) := run behind rest
      (answer :: answers, final)

/-- The results of the draws among some answers. -/
def words (answers : List Answer) : List (Except RngError UInt32) :=
  answers.filterMap fun
    | .word result => some result
    | _ => none

/-- The generator that a run leaves. -/
def rngAfter (rng : Philox4x32Rng) (ops : List Op) : Philox4x32Rng := (rng.run ops).2

/-- The position of every word that a run draws, with the stream it is of. -/
def drawn (rng : Philox4x32Rng) : List Op → List (DerivationDigest × Nat)
  | [] => []
  | op :: rest =>
      match op with
      | .draw =>
          if rng.draws < streamLength then
            (rng.derivationDigest, rng.draws) :: drawn (rng.step op).2 rest
          else drawn (rng.step op).2 rest
      | _ => drawn (rng.step op).2 rest

def isDraw : Op → Bool
  | .draw => true
  | _ => false

/-- No snapshot is restored. -/
def Unrestored (ops : List Op) : Prop :=
  ∀ written, .restore written ∈ ops → ∃ error, fromSnapshot written = .error error

/-- What the draw of a position answers. -/
def streamAnswer (digest : DerivationDigest) (position : Nat) : Except RngError UInt32 :=
  if position < streamLength then .ok (streamWord digest position) else .error .exhausted

theorem step_restore_error (rng : Philox4x32Rng) {written : RngSnapshot} {error : RngError}
    (h : fromSnapshot written = .error error) :
    rng.step (.restore written) = (.restored (.error error), rng) := by
  simp only [step, restore, h]

theorem step_restore_snapshot (rng other : Philox4x32Rng) :
    other.step (.restore rng.snapshot) = (.restored (.ok ()), rng) := by
  simp only [step, restore, fromSnapshot_eq_ok.mpr rfl]

/-- Without a restore, the draws of a run answer the stream from where it stands. -/
theorem run_unrestored (rng : Philox4x32Rng) {ops : List Op} (h : Unrestored ops) :
    words (rng.run ops).1 =
        (List.range' rng.draws (ops.countP isDraw)).map (fun position =>
          streamAnswer rng.derivationDigest (min position streamLength)) ∧
      drawn rng ops =
        (List.range' rng.draws (min (ops.countP isDraw) (streamLength - rng.draws))).map
          (fun position => (rng.derivationDigest, position)) ∧
      (rng.run ops).2.derivationDigest = rng.derivationDigest ∧
      (rng.run ops).2.draws = min (rng.draws + ops.countP isDraw) streamLength := by
  induction ops generalizing rng with
  | nil =>
      refine ⟨rfl, ?_, rfl, (Nat.min_eq_left rng.draws_le).symm⟩
      rw [List.countP_nil, Nat.zero_min]
      rfl
  | cons op rest ih =>
      have hrest : Unrestored rest := fun written hmem => h written (List.mem_cons_of_mem _ hmem)
      cases op with
      | snapshot => exact ih rng hrest
      | restore written =>
          obtain ⟨error, herror⟩ := h written List.mem_cons_self
          have hstep := rng.step_restore_error herror
          have hsame := ih rng hrest
          simp only [run, drawn, hstep, words, List.filterMap_cons, List.countP_cons, isDraw]
          exact hsame
      | draw =>
          have hcount : (Op.draw :: rest).countP isDraw = rest.countP isDraw + 1 :=
            List.countP_cons_of_pos rfl
          rw [hcount]
          rcases Nat.lt_or_ge rng.draws streamLength with hlt | hge
          · obtain ⟨behind, hnext, hdraws, hdigest⟩ := nextU32_of_lt hlt
            have hstep : rng.step .draw =
                (.word (.ok (streamWord rng.derivationDigest rng.draws)), behind) := by
              simp only [step, hnext]
            obtain ⟨hwords, hdrawn, hsame, hfinal⟩ := ih behind hrest
            rw [hdigest, hdraws] at hwords hdrawn
            rw [hdigest] at hsame
            rw [hdraws] at hfinal
            refine ⟨?_, ?_, ?_, ?_⟩
            · rw [List.range'_succ, List.map_cons, Nat.min_eq_left (Nat.le_of_lt hlt), streamAnswer, if_pos hlt,
                ← hwords]
              simp only [run, hstep]
              rfl
            · have hmin : min (rest.countP isDraw + 1) (streamLength - rng.draws) =
                  min (rest.countP isDraw) (streamLength - (rng.draws + 1)) + 1 := by
                omega
              rw [hmin, List.range'_succ, List.map_cons, ← hdrawn]
              simp only [drawn, if_pos hlt, hstep]
            · simp only [run, hstep]
              exact hsame
            · simp only [run, hstep]
              rw [hfinal]
              congr 1
              omega
          · -- Behind the last word every draw is refused.
            have hend : rng.draws = streamLength := Nat.le_antisymm rng.draws_le hge
            have hstep : rng.step .draw = (.word (.error .exhausted), rng) := by
              simp only [step, nextU32_of_end hend]
            obtain ⟨hwords, hdrawn, hsame, hfinal⟩ := ih rng hrest
            refine ⟨?_, ?_, ?_, ?_⟩
            · have hshift : (List.range' rng.draws (rest.countP isDraw)).map (fun position =>
                  streamAnswer rng.derivationDigest (min position streamLength)) =
                    (List.range' (rng.draws + 1) (rest.countP isDraw)).map (fun position =>
                      streamAnswer rng.derivationDigest (min position streamLength)) := by
                rw [List.range'_eq_map_range, List.range'_eq_map_range, List.map_map, List.map_map]
                apply List.map_congr_left
                intro position _
                simp only [Function.comp_apply]
                rw [Nat.min_eq_right (by omega), Nat.min_eq_right (by omega)]
              rw [List.range'_succ, List.map_cons, ← hshift, ← hwords, hend, Nat.min_self,
                streamAnswer, if_neg (Nat.lt_irrefl _)]
              simp only [run, hstep]
              rfl
            · rw [hend, Nat.sub_self, Nat.min_zero] at hdrawn ⊢
              simp only [drawn, hend, if_neg (Nat.lt_irrefl _), hstep]
              exact hdrawn
            · simp only [run, hstep]
              exact hsame
            · simp only [run, hstep]
              rw [hfinal]
              omega

/-- A snapshot taken earlier brings that state back: what follows is answered as if
nothing had happened in between. -/
theorem run_restored (rng : Philox4x32Rng) (before between after : List Op) :
    (rng.run (before ++ between)).2.run (.restore (rng.run before).2.snapshot :: after) =
      (.restored (.ok ()) :: ((rng.run before).2.run after).1,
        ((rng.run before).2.run after).2) := by
  simp only [run, step_restore_snapshot]

theorem drawn_nodup (rng : Philox4x32Rng) {ops : List Op} (h : Unrestored ops) :
    (drawn rng ops).Nodup := by
  rw [(run_unrestored rng h).2.1]
  apply List.Nodup.map _ List.nodup_range'
  intro first second hsame
  exact congrArg Prod.snd hsame

end Runs

/-- Every word of a stream is drawn once, in order, and snapshots tell a position exactly:
what some generator writes is accepted, nothing else is, and it restores that generator. -/
theorem stream_positions {sha256 : List UInt8 → DerivationDigest} {masterSeed : Nat}
    {stream domain : List UInt8} {first : Philox4x32Rng}
    (hnew : new sha256 masterSeed stream domain = .ok first) :
    (∀ ops : List Op,
      (rngAfter first ops).draws ≤ streamLength ∧
      ((rngAfter first ops).draws < streamLength →
        ∃ behind, nextU32 (rngAfter first ops) =
            .ok (streamWord (rngAfter first ops).derivationDigest (rngAfter first ops).draws) behind ∧
          behind.draws = (rngAfter first ops).draws + 1 ∧
          behind.derivationDigest = (rngAfter first ops).derivationDigest) ∧
      ((rngAfter first ops).draws = streamLength →
        nextU32 (rngAfter first ops) = .error .exhausted (rngAfter first ops)) ∧
      (∀ written error, fromSnapshot written = .error error →
        restore written (rngAfter first ops) = .error error (rngAfter first ops))) ∧
    (∀ ops, Unrestored ops →
      words (first.run ops).1 = (List.range (ops.countP isDraw)).map (fun position =>
        streamAnswer first.derivationDigest (min position streamLength)) ∧
      drawn first ops = (List.range (min (ops.countP isDraw) streamLength)).map (fun position =>
        (first.derivationDigest, position)) ∧
      (drawn first ops).Nodup ∧
      (rngAfter first ops).draws = min (ops.countP isDraw) streamLength) ∧
    (∀ before between after,
      (rngAfter first (before ++ between)).run
          (.restore (rngAfter first before).snapshot :: after) =
        (.restored (.ok ()) :: ((rngAfter first before).run after).1,
          ((rngAfter first before).run after).2)) ∧
    (∀ written restored, fromSnapshot written = .ok restored → restored.snapshot = written) ∧
    (∀ written, (∃ restored, fromSnapshot written = .ok restored) ↔
      ∃ digest position, position ≤ streamLength ∧ written = snapshotAt digest position) := by
  have hstart : first.draws = 0 := by
    obtain ⟨_, _, hnew⟩ := except_bind_eq_ok.mp hnew
    obtain ⟨_, _, hnew⟩ := except_bind_eq_ok.mp hnew
    cases hnew
    rfl
  refine ⟨?_, ?_, ?_, fun written restored => fromSnapshot_eq_ok.mp, ?_⟩
  · intro ops
    refine ⟨draws_le _, nextU32_of_lt, nextU32_of_end, ?_⟩
    intro written error herror
    simp only [restore, herror]
  · intro ops hops
    obtain ⟨hwords, hdrawn, _, hdraws⟩ := run_unrestored first hops
    rw [hstart, ← List.range_eq_range'] at hwords
    rw [hstart, Nat.sub_zero, ← List.range_eq_range'] at hdrawn
    rw [hstart, Nat.zero_add] at hdraws
    exact ⟨hwords, hdrawn, drawn_nodup first hops, hdraws⟩
  · exact run_restored first
  · intro written
    constructor
    · rintro ⟨restored, hrestored⟩
      rw [← fromSnapshot_eq_ok.mp hrestored]
      exact ⟨_, _, restored.draws_le, restored.snapshot_eq⟩
    · rintro ⟨digest, position, hposition, rfl⟩
      obtain ⟨rng, rfl, rfl⟩ := exists_at digest hposition
      exact ⟨rng, fromSnapshot_eq_ok.mpr rng.snapshot_eq⟩

def knownSeedDigest : DerivationDigest :=
  #v[0x55, 0x93, 0xba, 0x98, 0x48, 0x17, 0xf5, 0x2b, 0xc0, 0x24, 0x1c, 0xa4, 0xda, 0x04, 0xb0, 0xec,
    0xfe, 0xe2, 0xfe, 0x30, 0xbd, 0x75, 0x56, 0x7c, 0x36, 0xa8, 0x19, 0x6f, 0x66, 0xc0, 0x84, 0x18]

def knownStreamDigest : DerivationDigest :=
  #v[0xc9, 0x86, 0x13, 0x18, 0x1d, 0xa8, 0xed, 0xad, 0xd6, 0xbf, 0x2e, 0x27, 0xd2, 0x35, 0x76, 0x26,
    0x8a, 0x3b, 0xa2, 0x54, 0x2e, 0x51, 0x4f, 0xdf, 0xdb, 0x9f, 0x2f, 0x18, 0xc2, 0x3d, 0xff, 0x96]

def knownDigest : DerivationDigest :=
  #v[0xc9, 0x82, 0x6c, 0xff, 0x0d, 0x32, 0x67, 0xe8, 0x59, 0x7d, 0xd2, 0xf1, 0x69, 0x28, 0xca, 0x08,
    0x3e, 0x76, 0xdf, 0x3b, 0x8f, 0xc4, 0xaf, 0x98, 0x10, 0xc7, 0x47, 0x23, 0x6d, 0xeb, 0x51, 0x7a]

def knownStream : List UInt8 := Utf8.encode "request-0001".toList
def knownDomain : List UInt8 := Utf8.encode "token-sampling".toList

/-- SHA-256 where the generator of seed 42 asks for it. -/
def knownSha256 (bytes : List UInt8) : DerivationDigest :=
  if bytes = tagBytes "seed" ++ leBytes 8 42 then knownSeedDigest
  else if bytes = tagBytes "stream" ++ knownSeedDigest.toList ++ leBytes 4 12 ++ knownStream then
    knownStreamDigest
  else knownDigest

/-- The four words that are known, the third of them again from a snapshot, and the last
word of the stream. -/
theorem stream_positions_known : ∃ first last behind,
    new knownSha256 42 knownStream knownDomain = .ok first ∧
    words (first.run [.draw, .draw, .snapshot, .draw, .draw]).1 =
      [.ok 0xc875248d, .ok 0x7d889ea1, .ok 0xd6887282, .ok 0x6daf5198] ∧
    (rngAfter first [.draw, .draw, .snapshot, .draw, .draw]).draws = 4 ∧
    ((rngAfter first [.draw, .draw, .draw, .draw]).run
      [.restore (rngAfter first [.draw, .draw]).snapshot, .draw]).1 =
        [.restored (.ok ()), .word (.ok 0xd6887282)] ∧
    last = rngAfter first [.restore (snapshotAt knownDigest (streamLength - 1))] ∧
    nextU32 last = .ok (streamWord knownDigest (streamLength - 1)) behind ∧
    nextU32 behind = .error .exhausted behind := by
  have hnew : new knownSha256 42 knownStream knownDomain = .ok (start knownDigest) := by
    rfl
  obtain ⟨hrun, hunrestored, hagain, _, _⟩ := stream_positions hnew
  obtain ⟨hwords, _, _, hdraws⟩ :=
    hunrestored [.draw, .draw, .snapshot, .draw, .draw] (by simp [Unrestored])
  obtain ⟨last, hdigest, hposition⟩ := exists_at knownDigest (Nat.sub_le streamLength 1)
  have hstep : (start knownDigest).step (.restore (snapshotAt knownDigest (streamLength - 1))) =
      (.restored (.ok ()), last) := by
    rw [← step_restore_snapshot last, snapshot_eq, hdigest, hposition]
  have hlast : rngAfter (start knownDigest)
      [.restore (snapshotAt knownDigest (streamLength - 1))] = last := by
    simp only [rngAfter, run, hstep]
  obtain ⟨_, hmore, _⟩ := hrun [.restore (snapshotAt knownDigest (streamLength - 1))]
  rw [hlast, hposition, hdigest] at hmore
  obtain ⟨behind, hnext, hend, _⟩ := hmore (by decide)
  have hbehind : rngAfter (start knownDigest)
      [.restore (snapshotAt knownDigest (streamLength - 1)), .draw] = behind := by
    have hdraw : last.step .draw =
        (.word (.ok (streamWord knownDigest (streamLength - 1))), behind) := by
      simp only [step, hnext]
    simp only [rngAfter, run, hstep, hdraw]
  obtain ⟨_, _, hexhausted, _⟩ :=
    hrun [.restore (snapshotAt knownDigest (streamLength - 1)), .draw]
  rw [hbehind] at hexhausted
  refine ⟨_, last, behind, hnew, hwords.trans ?_, hdraws.trans ?_, ?_, hlast.symm, hnext,
    hexhausted hend⟩
  · decide
  · decide
  · have hthird := hagain [.draw, .draw] [.draw, .draw] [.draw]
    refine (congrArg Prod.fst hthird).trans ?_
    rfl

end Philox4x32Rng

end Riley.Sampling
