import Mathlib
import Riley.Checkpoint.Safetensors
import Riley.Library.Outcome
import Riley.Library.Tiling
import Riley.Tensor.LayoutSpec

/-!
What the parser of a shard accepts: a header that fits its limits and describes tensors
whose bytes tile the data behind it. It accepts nothing else, and it never panics.
-/

namespace Riley.Checkpoint

open Offsets (slice slice_eq_some)
open Outcome (except_bind_eq_ok)
open Server (Json)
open Structured (asArray asObject asU64 isControl)
open Tensor (DType Shape)
open Tiling (Chain Tiles shift)
open Utf8 (Text)

/-- A computation that does not panic. -/
def Safe {α : Type} (result : ModelResult α) : Prop := result ≠ .error .panicked

section Steps

variable {α β : Type}

@[simp] theorem safe_ok (value : α) : Safe (.ok value : ModelResult α) := by
  simp [Safe]

@[simp] theorem safe_error {error : ModelError} :
    Safe (.error error : ModelResult α) ↔ error ≠ .panicked := by
  simp [Safe]

theorem Safe.bind {result : ModelResult α} {next : α → ModelResult β} (h : Safe result)
    (hnext : ∀ value, result = .ok value → Safe (next value)) : Safe (result >>= next) := by
  cases result with
  | ok value => exact hnext value rfl
  | error error => exact fun heq => h (by cases heq; rfl)

theorem orError_eq_ok {value : Option α} {error : ModelError} {result : α} :
    orError value error = .ok result ↔ value = some result := by
  cases value <;> simp [orError]

theorem safe_orError {value : Option α} {error : ModelError}
    (h : value = none → error ≠ .panicked) : Safe (orError value error) := by
  cases value with
  | none => simpa [orError] using h rfl
  | some value => simp [orError]

end Steps

section Headers

/-- A shard is the length of a header, the header and the data of its tensors. -/
structure IsShard (libraries : Libraries) (limits : LoadLimits)
    (lengthPrefix header data : List UInt8) (entries : List (Text × Json)) : Prop where
  length_eq : lengthPrefix.length = PREFIX_BYTES
  declares : Nat.ofDigits 256 (lengthPrefix.map UInt8.toNat) = header.length
  shard_le : (lengthPrefix ++ header ++ data).length ≤ limits.shardBytes
  header_le : header.length ≤ limits.safetensorsHeaderBytes
  opens : header.head? = some 0x7b
  closes : ∃ body padding, header = body ++ 0x7d :: List.replicate padding 0x20
  reads : libraries.fromSlice header = .ok (.object entries)

theorem enforceU64Limit_eq_ok {resource : String} {limit actual : Nat} :
    enforceU64Limit resource limit actual = .ok () ↔ actual ≤ limit := by
  unfold enforceU64Limit
  split <;> simp <;> omega

theorem rposition_snoc {α : Type} (condition : α → Bool) (items : List α) (last : α) :
    rposition condition (items ++ [last]) =
      if condition last then some items.length else rposition condition items := by
  unfold rposition
  rw [List.reverse_append, List.reverse_singleton, List.singleton_append, List.findIdx?_cons]
  split
  · simp
  · rw [Option.map_map]
    congr 1
    funext index
    simp
    omega

theorem rposition_lt {α : Type} {condition : α → Bool} {items : List α} {index : Nat}
    (h : rposition condition items = some index) : index < items.length := by
  unfold rposition at h
  obtain ⟨back, hback, rfl⟩ := Option.map_eq_some_iff.mp h
  obtain ⟨hlt, _⟩ := List.findIdx?_eq_some_iff_getElem.mp hback
  rw [List.length_reverse] at hlt
  omega

/-- The bytes of a header are followed by spaces only. -/
theorem closes_iff {header : List UInt8} :
    (∃ body padding, header = body ++ 0x7d :: List.replicate padding 0x20) ↔
      ∃ index, rposition (· ≠ 0x20) header = some index ∧ header[index]? = some 0x7d := by
  constructor
  · rintro ⟨body, padding, rfl⟩
    refine ⟨body.length, ?_, by simp⟩
    induction padding with
    | zero =>
        rw [List.replicate_zero, rposition_snoc]
        simp
    | succ padding ih =>
        rw [List.replicate_succ', ← List.cons_append, ← List.append_assoc, rposition_snoc]
        simpa using ih
  · induction header using List.reverseRecOn with
    | nil => simp [rposition]
    | append_singleton items last ih =>
        rintro ⟨index, hindex, hbyte⟩
        rw [rposition_snoc] at hindex
        split at hindex
        · obtain rfl := Option.some.inj hindex
          rw [List.getElem?_concat_length] at hbyte
          obtain rfl := Option.some.inj hbyte
          exact ⟨items, 0, rfl⟩
        · next hspace =>
            have hlt := rposition_lt hindex
            rw [List.getElem?_append_left hlt] at hbyte
            obtain ⟨body, padding, hitems⟩ := ih ⟨index, hindex, hbyte⟩
            have hlast : last = 0x20 := by simpa using hspace
            refine ⟨body, padding + 1, ?_⟩
            rw [hlast, List.replicate_succ', ← List.cons_append, ← List.append_assoc, ← hitems]

theorem endsAmiss_eq_ok {header : List UInt8} :
    endsAmiss header = .ok false ↔
      ∃ body padding, header = body ++ 0x7d :: List.replicate padding 0x20 := by
  rw [closes_iff]
  unfold endsAmiss
  cases rposition (· ≠ 0x20) header with
  | none => simp
  | some index => simp [except_bind_eq_ok, orError_eq_ok]

theorem safe_endsAmiss (header : List UInt8) : Safe (endsAmiss header) := by
  unfold endsAmiss
  split
  · exact safe_ok _
  · next index hindex =>
      have hlt := rposition_lt hindex
      rw [List.getElem?_eq_getElem hlt]
      exact safe_ok _

theorem parseHeader_eq_ok {libraries : Libraries} {displayName : String} {bytes : List UInt8}
    {limits : LoadLimits} {entries : List (Text × Json)} {dataStart : Nat} :
    parseHeader libraries displayName bytes limits = .ok (entries, dataStart) ↔
      ∃ lengthPrefix header data, bytes = lengthPrefix ++ header ++ data ∧
        dataStart = PREFIX_BYTES + header.length ∧
        IsShard libraries limits lengthPrefix header data entries := by
  constructor
  · intro h
    obtain ⟨_, hlimit, h⟩ := except_bind_eq_ok.mp h
    obtain ⟨lengthPrefix, hprefix, h⟩ := except_bind_eq_ok.mp h
    dsimp only at h
    split at h
    · cases h
    next hheaderLen =>
    obtain ⟨start, hstart, h⟩ := except_bind_eq_ok.mp h
    obtain ⟨header, hheader, h⟩ := except_bind_eq_ok.mp h
    split at h
    · cases h
    next hopens =>
    obtain ⟨amiss, hamiss, h⟩ := except_bind_eq_ok.mp h
    split at h
    · cases h
    next hcloses =>
    split at h
    · next object hreads =>
        cases h
        obtain ⟨rfl, _⟩ := checkedAdd_eq_some.mp (orError_eq_ok.mp hstart)
        obtain ⟨before, rest, rfl, hbefore, hlength⟩ :=
          slice_eq_some.mp (orError_eq_ok.mp hprefix)
        obtain rfl := List.length_eq_zero_iff.mp hbefore
        obtain ⟨before, data, hsplit, hbefore, hheaderLength⟩ :=
          slice_eq_some.mp (orError_eq_ok.mp hheader)
        rw [List.nil_append] at hsplit
        rw [Nat.zero_add] at hlength
        obtain ⟨rfl, rfl⟩ := List.append_inj (hsplit.trans (List.append_assoc _ _ _))
          (hlength.trans hbefore.symm)
        have hdeclares := Nat.add_left_cancel hheaderLength
        have hshard := enforceU64Limit_eq_ok.mp hlimit
        refine ⟨_, header, data, by simp, hheaderLength.symm, hlength, hdeclares.symm, ?_, ?_,
          not_not.mp hopens, ?_, hreads⟩
        · simpa using hshard
        · rw [hdeclares]
          exact Nat.not_lt.mp hheaderLen
        · rw [← endsAmiss_eq_ok, hamiss]
          simpa using hcloses
    · cases h
    · cases h
  · rintro ⟨lengthPrefix, header, data, rfl, rfl, hshard⟩
    obtain ⟨hlength, hdeclares, hshardLe, hheaderLe, hopens, hcloses, hreads⟩ := hshard
    have hprefix : slice (lengthPrefix ++ header ++ data) 0 PREFIX_BYTES =
        some lengthPrefix :=
      slice_eq_some.mpr ⟨[], header ++ data, by simp, rfl, by omega⟩
    have hheader : slice (lengthPrefix ++ header ++ data) PREFIX_BYTES
        (PREFIX_BYTES + header.length) = some header :=
      slice_eq_some.mpr ⟨lengthPrefix, data, rfl, hlength, rfl⟩
    have hfits : PREFIX_BYTES + header.length ≤ usizeMax := by
      have hu64 := limits.shardBytes_le
      rw [List.length_append, List.length_append, hlength] at hshardLe
      rw [usizeMax]
      omega
    have hstart : checkedAdd usizeMax PREFIX_BYTES header.length =
        some (PREFIX_BYTES + header.length) := checkedAdd_eq_some.mpr ⟨rfl, hfits⟩
    simp only [parseHeader, enforceU64Limit_eq_ok.mpr hshardLe, bind, Except.bind, hprefix,
      orError, hdeclares, Nat.not_lt.mpr hheaderLe, if_false, hstart, hheader, hopens, ne_eq,
      not_true_eq_false, endsAmiss_eq_ok.mpr hcloses, Bool.false_eq_true, hreads]

theorem safe_parseHeader (libraries : Libraries) (displayName : String) (bytes : List UInt8)
    (limits : LoadLimits) : Safe (parseHeader libraries displayName bytes limits) := by
  have hlimit : Safe (enforceU64Limit "safetensors shard" limits.shardBytes bytes.length) := by
    unfold enforceU64Limit
    split <;> simp
  apply hlimit.bind
  intro _ _
  apply (safe_orError (by simp [invalid])).bind
  intro lengthPrefix _
  dsimp only
  split
  · simp
  apply (safe_orError (by simp)).bind
  intro dataStart _
  apply (safe_orError (by simp [invalid])).bind
  intro header _
  split
  · simp [invalid]
  apply (safe_endsAmiss header).bind
  intro amiss _
  split
  · simp [invalid]
  split <;> simp [invalid]

end Headers

section Entries

/-- What a value says of a tensor that fits the limits and so many bytes of data. -/
structure Describes (limits : LoadLimits) (dataLen : Nat) (value : Json) (raw : RawTensor)
    (dtype : DType) : Prop where
  reads : RawTensor.fromValue value = some raw
  dtype_eq : dtypeOf raw.dtype = some dtype
  rank_le : raw.shape.length ≤ limits.tensorRank
  length_eq : raw.dataOffsets.1 + raw.shape.prod * dtype.sizeBytes = raw.dataOffsets.2
  inside : raw.dataOffsets.2 ≤ dataLen

/-- A name of a header that the parser takes. -/
structure NameFits (name : Text) : Prop where
  ne_nil : name ≠ []
  length_le : (Utf8.encode name).length ≤ 1024
  printable : name.any isControl = false

theorem sizeBytes_pos (dtype : DType) : 0 < dtype.sizeBytes := by
  cases dtype <;> decide

theorem checkedAbsoluteRange_eq_ok {libraries : Libraries} {displayName name : String}
    {dataStart start stop : Nat} (hle : start ≤ stop) (hfits : dataStart + stop ≤ usizeMax) :
    checkedAbsoluteRange libraries displayName name dataStart start stop =
      .ok (shift dataStart (start, stop)) := by
  have hstart : checkedAdd usizeMax dataStart start = some (dataStart + start) :=
    checkedAdd_eq_some.mpr ⟨rfl, by omega⟩
  have hstop : checkedAdd usizeMax dataStart stop = some (dataStart + stop) :=
    checkedAdd_eq_some.mpr ⟨rfl, hfits⟩
  simp only [checkedAbsoluteRange, hstart, hstop, orError, bind, Except.bind, shift]

theorem parseTensor_eq_ok {libraries : Libraries} {displayName name : String} {value : Json}
    {dataStart dataLen : Nat} {limits : LoadLimits} {tensor : ParsedTensor}
    (hfits : dataStart + dataLen ≤ usizeMax) :
    parseTensor libraries displayName name value dataStart dataLen limits = .ok tensor ↔
      ∃ raw, Describes limits dataLen value raw tensor.dtype ∧
        tensor.shape.dimensions = raw.shape ∧
        tensor.byteRange = shift dataStart raw.dataOffsets := by
  constructor
  · intro h
    unfold parseTensor at h
    dsimp only at h
    obtain ⟨raw, hraw, h⟩ := except_bind_eq_ok.mp h
    obtain ⟨dtype, hdtype, h⟩ := except_bind_eq_ok.mp h
    split at h
    · cases h
    next hrank =>
    obtain ⟨shape, hshape, h⟩ := except_bind_eq_ok.mp h
    obtain ⟨expectedLen, hexpected, h⟩ := except_bind_eq_ok.mp h
    obtain ⟨actualLen, hactual, h⟩ := except_bind_eq_ok.mp h
    split at h
    · cases h
    next hlength =>
    split at h
    · cases h
    next hinside =>
    obtain ⟨byteRange, hrange, h⟩ := except_bind_eq_ok.mp h
    cases h
    rw [orError_eq_ok] at hraw hdtype hshape hexpected hactual
    obtain ⟨rfl, _⟩ := checkedMul_eq_some.mp hexpected
    obtain ⟨hordered, rfl⟩ := checkedSub_eq_some.mp hactual
    have hdimensions : shape.dimensions = raw.shape := by
      cases hnew : Shape.new raw.shape with
      | error error =>
          rw [hnew] at hshape
          cases hshape
      | ok made =>
          rw [hnew] at hshape
          cases hshape
          exact Shape.dimensions_of_new hnew
    rw [not_not, shape.elementCount_eq, hdimensions] at hlength
    rw [checkedAbsoluteRange_eq_ok hordered (by omega)] at hrange
    cases hrange
    exact ⟨raw, ⟨hraw, hdtype, Nat.not_lt.mp hrank, by dsimp only; omega, Nat.not_lt.mp hinside⟩,
      hdimensions, rfl⟩
  · rintro ⟨raw, ⟨hreads, hdtype, hrank, hlength, hinside⟩, hdimensions, hrange⟩
    obtain ⟨dtype, shape, byteRange⟩ := tensor
    dsimp only at hdtype hlength hdimensions hrange
    subst hrange
    have hexpected : raw.shape.prod * dtype.sizeBytes ≤ usizeMax := by omega
    have hproduct : raw.shape.prod ≤ usizeMax :=
      Nat.le_trans (Nat.le_mul_of_pos_right _ (sizeBytes_pos dtype)) hexpected
    have hshape : (Shape.new raw.shape).toOption = some shape := by
      rw [Shape.new_of_prod hproduct]
      exact congrArg some (Shape.ext_dimensions hdimensions.symm)
    have hcount : shape.elementCount = raw.shape.prod := by
      rw [shape.elementCount_eq, hdimensions]
    have hmul : checkedMul usizeMax shape.elementCount dtype.sizeBytes =
        some (raw.shape.prod * dtype.sizeBytes) := by
      rw [hcount]
      exact checkedMul_eq_some.mpr ⟨rfl, hexpected⟩
    have hsub : checkedSub raw.dataOffsets.2 raw.dataOffsets.1 =
        some (raw.shape.prod * dtype.sizeBytes) :=
      checkedSub_eq_some.mpr ⟨by omega, by omega⟩
    have habsolute := @checkedAbsoluteRange_eq_ok libraries displayName name dataStart
      raw.dataOffsets.1 raw.dataOffsets.2 (by omega) (by omega)
    simp only [parseTensor, hreads, orError, bind, Except.bind, hdtype, Nat.not_lt.mpr hrank,
      if_false, hshape, hmul, hsub, ne_eq, not_true_eq_false, Nat.not_lt.mpr hinside, habsolute]

theorem safe_parseTensor (libraries : Libraries) (displayName name : String) (value : Json)
    (dataStart dataLen : Nat) (limits : LoadLimits) :
    Safe (parseTensor libraries displayName name value dataStart dataLen limits) := by
  apply (safe_orError (by simp [invalid])).bind
  intro raw _
  apply (safe_orError (by simp [invalid])).bind
  intro dtype _
  dsimp only
  split
  · simp
  apply (safe_orError (by simp)).bind
  intro shape _
  apply (safe_orError (by simp)).bind
  intro expectedLen _
  apply (safe_orError (by simp [invalid])).bind
  intro actualLen _
  split
  · simp [invalid]
  split
  · simp [invalid]
  refine Safe.bind ?_ fun _ _ => safe_ok _
  apply (safe_orError (by simp)).bind
  intro absoluteStart _
  apply (safe_orError (by simp)).bind
  intro absoluteEnd _
  exact safe_ok _

/-- The entries of a header that are tensors. -/
def tensorEntries (entries : List (Text × Json)) : List (Text × Json) :=
  entries.filter (·.1 ≠ METADATA)

/-- A tensor as its entry describes it. -/
structure Parsed (limits : LoadLimits) (dataStart dataLen : Nat) (entry : Text × Json)
    (named : String × ParsedTensor) : Prop where
  name_fits : NameFits entry.1
  name_eq : named.1 = String.ofList entry.1
  describes : ∃ raw, Describes limits dataLen entry.2 raw named.2.dtype ∧
    named.2.shape.dimensions = raw.shape ∧ named.2.byteRange = shift dataStart raw.dataOffsets

theorem parseTensors_eq_ok {libraries : Libraries} {displayName : String} {dataStart : Nat}
    {bytes : List UInt8} {limits : LoadLimits} {entries : List (Text × Json)}
    {tensors : List (String × ParsedTensor)} (hstart : dataStart ≤ bytes.length)
    (hfits : bytes.length ≤ usizeMax) :
    parseTensors libraries displayName dataStart bytes limits entries = .ok tensors ↔
      List.Forall₂ (Parsed limits dataStart (bytes.length - dataStart)) (tensorEntries entries)
        tensors := by
  have hdata : checkedSub bytes.length dataStart = some (bytes.length - dataStart) :=
    checkedSub_eq_some.mpr ⟨hstart, rfl⟩
  have hsum : dataStart + (bytes.length - dataStart) ≤ usizeMax := by omega
  induction entries generalizing tensors with
  | nil =>
      rw [parseTensors, tensorEntries, List.filter_nil, List.forall₂_nil_left_iff]
      simp [eq_comm]
  | cons entry entries ih =>
      obtain ⟨name, value⟩ := entry
      rw [parseTensors, tensorEntries, List.filter_cons]
      by_cases hmetadata : name = METADATA
      · simpa [hmetadata, tensorEntries] using @ih tensors
      · simp only [hmetadata, if_false, ne_eq, not_false_eq_true, decide_true, if_true,
          List.forall₂_cons_left_iff]
        constructor
        · intro h
          split at h
          · cases h
          next hname =>
          rw [not_or, not_or, Nat.not_lt, Bool.not_eq_true] at hname
          obtain ⟨dataLen, hdataLen, h⟩ := except_bind_eq_ok.mp h
          obtain ⟨tensor, htensor, h⟩ := except_bind_eq_ok.mp h
          obtain ⟨rest, hrest, h⟩ := except_bind_eq_ok.mp h
          cases h
          rw [orError_eq_ok, hdata, Option.some.injEq] at hdataLen
          subst hdataLen
          exact ⟨_, rest, ⟨⟨hname.1, hname.2.1, hname.2.2⟩, rfl, (parseTensor_eq_ok hsum).mp htensor⟩,
            ih.mp hrest, rfl⟩
        · rintro ⟨⟨_, tensor⟩, rest, ⟨hname, hnamed, hdescribes⟩, hrest, rfl⟩
          obtain ⟨hne, hle, hprintable⟩ := hname
          dsimp only at hne hle hprintable hnamed hdescribes
          subst hnamed
          have hchecks : ¬ (name = [] ∨ 1024 < (Utf8.encode name).length ∨
              name.any isControl = true) := by
            rw [hprintable]
            simp only [hne, Nat.not_lt.mpr hle, Bool.false_eq_true, or_false, not_false_eq_true]
          rw [if_neg hchecks]
          simp only [bind, Except.bind, hdata, orError, (parseTensor_eq_ok hsum).mpr hdescribes,
            ih.mpr hrest]

theorem safe_parseTensors {libraries : Libraries} {displayName : String} {dataStart : Nat}
    {bytes : List UInt8} {limits : LoadLimits} (hstart : dataStart ≤ bytes.length)
    (entries : List (Text × Json)) :
    Safe (parseTensors libraries displayName dataStart bytes limits entries) := by
  induction entries with
  | nil => exact safe_ok _
  | cons entry entries ih =>
      obtain ⟨name, value⟩ := entry
      rw [parseTensors]
      split
      · exact ih
      split
      · simp [invalid]
      rw [checkedSub_eq_some.mpr ⟨hstart, rfl⟩]
      apply (safe_ok _).bind
      intro dataLen _
      apply (safe_parseTensor _ _ _ _ _ _ _).bind
      intro tensor _
      exact ih.bind fun _ _ => safe_ok _

end Entries

section Coverage

/-- The bytes of tensors. -/
def ranges (tensors : List (String × ParsedTensor)) : List (Nat × Nat) :=
  tensors.map (·.2.byteRange)

theorem coverageLe_iff {left right : String × ParsedTensor} :
    coverageLe left right = true ↔
      toLex (left.2.byteRange.1, toLex (left.2.byteRange.2, left.1)) ≤
        toLex (right.2.byteRange.1, toLex (right.2.byteRange.2, right.1)) := decide_eq_true_iff

theorem before_of_coverageLe {left right : String × ParsedTensor}
    (h : coverageLe left right = true) : Tiling.Before left.2.byteRange right.2.byteRange := by
  rw [coverageLe_iff, Prod.Lex.toLex_le_toLex] at h
  rcases h with hstart | ⟨hstart, h⟩
  · exact .inl hstart
  · rw [Prod.Lex.toLex_le_toLex] at h
    rcases h with hstop | ⟨hstop, _⟩
    · exact .inr ⟨hstart, Nat.le_of_lt hstop⟩
    · exact .inr ⟨hstart, Nat.le_of_eq hstop⟩

/-- The tensors in the order of their ranges. -/
theorem sorted_coverage (tensors : List (String × ParsedTensor)) :
    (ranges (tensors.mergeSort coverageLe)).Pairwise Tiling.Before := by
  have htrans : ∀ first second third : String × ParsedTensor, coverageLe first second = true →
      coverageLe second third = true → coverageLe first third = true := by
    intro first second third hfirst hsecond
    rw [coverageLe_iff] at hfirst hsecond ⊢
    exact le_trans hfirst hsecond
  have htotal : ∀ first second : String × ParsedTensor,
      (coverageLe first second || coverageLe second first) = true := by
    intro first second
    rw [Bool.or_eq_true, coverageLe_iff, coverageLe_iff]
    exact le_total _ _
  rw [ranges, List.pairwise_map]
  exact (List.pairwise_mergeSort htrans htotal tensors).imp before_of_coverageLe

theorem sweep_eq_ok {libraries : Libraries} {displayName : String} {dataStart cursor stop : Nat}
    {tensors : List (String × ParsedTensor)}
    (hordered : ∀ range ∈ ranges tensors, range.1 ≤ range.2) :
    sweep libraries displayName dataStart cursor tensors = .ok stop ↔
      Chain cursor stop (ranges tensors) := by
  induction tensors generalizing cursor with
  | nil => simp [sweep, ranges, Chain]
  | cons named tensors ih =>
      obtain ⟨name, tensor⟩ := named
      obtain ⟨hhead, htail⟩ := List.forall_mem_cons.mp hordered
      rw [sweep]
      split
      · next hmoved =>
          constructor
          · intro h
            obtain ⟨_, _, h⟩ := except_bind_eq_ok.mp h
            cases h
          · intro h
            exact absurd h.1 hmoved
      · next hplace =>
          rw [ih htail]
          exact ⟨fun h => ⟨not_not.mp hplace, hhead, h⟩, fun h => h.2.2⟩

theorem safe_sweep {libraries : Libraries} {displayName : String} {dataStart cursor : Nat}
    {tensors : List (String × ParsedTensor)} (hcursor : dataStart ≤ cursor)
    (hordered : ∀ range ∈ ranges tensors, range.1 ≤ range.2) :
    Safe (sweep libraries displayName dataStart cursor tensors) := by
  induction tensors generalizing cursor with
  | nil => exact safe_ok _
  | cons named tensors ih =>
      obtain ⟨name, tensor⟩ := named
      obtain ⟨hhead, htail⟩ := List.forall_mem_cons.mp hordered
      rw [sweep]
      split
      · rw [checkedSub_eq_some.mpr ⟨hcursor, rfl⟩]
        exact (safe_ok _).bind fun _ _ => by simp [invalid]
      · next hplace =>
          have hhead : tensor.byteRange.1 ≤ tensor.byteRange.2 := hhead
          exact ih (by omega) htail

variable {libraries : Libraries} {displayName : String} {dataStart shardLen : Nat}
  {tensors : List (String × ParsedTensor)}

/-- The sweep decides whether the tensors tile the data. -/
theorem validateCoverage_eq_ok (hstart : dataStart ≤ shardLen)
    (hordered : ∀ range ∈ ranges tensors, range.1 ≤ range.2) :
    validateCoverage libraries displayName tensors dataStart shardLen = .ok () ↔
      Tiles dataStart shardLen (ranges tensors) := by
  have hperm : (ranges tensors).Perm (ranges (tensors.mergeSort coverageLe)) :=
    (List.mergeSort_perm _ _).symm.map _
  have hsorted : ∀ range ∈ ranges (tensors.mergeSort coverageLe), range.1 ≤ range.2 :=
    fun range hmem => hordered range (hperm.mem_iff.mpr hmem)
  rw [Tiling.tiles_iff_chain hstart hperm (sorted_coverage tensors),
    ← @sweep_eq_ok libraries displayName dataStart _ _ _ hsorted]
  constructor
  · intro h
    obtain ⟨cursor, hcursor, h⟩ := except_bind_eq_ok.mp h
    split at h
    · obtain ⟨_, _, h⟩ := except_bind_eq_ok.mp h
      obtain ⟨_, _, h⟩ := except_bind_eq_ok.mp h
      cases h
    · next hall =>
        rw [hcursor, not_not.mp hall]
  · intro h
    simp only [validateCoverage, h, bind, Except.bind, ne_eq, not_true_eq_false, if_false]

theorem safe_validateCoverage (hstart : dataStart ≤ shardLen)
    (hordered : ∀ range ∈ ranges tensors, range.1 ≤ range.2) :
    Safe (validateCoverage libraries displayName tensors dataStart shardLen) := by
  have hperm : (ranges tensors).Perm (ranges (tensors.mergeSort coverageLe)) :=
    (List.mergeSort_perm _ _).symm.map _
  have hsorted : ∀ range ∈ ranges (tensors.mergeSort coverageLe), range.1 ≤ range.2 :=
    fun range hmem => hordered range (hperm.mem_iff.mpr hmem)
  apply (safe_sweep (Nat.le_refl _) hsorted).bind
  intro cursor hcursor
  have hle := ((sweep_eq_ok hsorted).mp hcursor).le
  split
  · rw [checkedSub_eq_some.mpr ⟨hle, rfl⟩, checkedSub_eq_some.mpr ⟨hstart, rfl⟩]
    exact (safe_ok _).bind fun _ _ => (safe_ok _).bind fun _ _ => by simp [invalid]
  · exact safe_ok _

end Coverage

section Shards

/-- The ranges of data that a header declares. -/
def declaredRanges (entries : List (Text × Json)) : List (Nat × Nat) :=
  (tensorEntries entries).filterMap fun entry =>
    (RawTensor.fromValue entry.2).map (·.dataOffsets)

/-- A header that fits the limits, whose tensors tile so many bytes of data. -/
structure HeaderFits (limits : LoadLimits) (dataLen : Nat) (entries : List (Text × Json)) :
    Prop where
  metadata : ∀ value, Entries.get METADATA entries = some value →
    ∃ fields, asObject value = some fields ∧ ∀ field ∈ fields, field.2.asStr.isSome = true
  count_le : (tensorEntries entries).length ≤ limits.tensors
  tensors : ∀ entry ∈ tensorEntries entries,
    NameFits entry.1 ∧ ∃ raw dtype, Describes limits dataLen entry.2 raw dtype
  tiles : Tiles 0 dataLen (declaredRanges entries)

theorem validMetadataFields_eq_ok {libraries : Libraries} {displayName : String}
    {fields : List (Text × Json)} :
    validMetadataFields libraries displayName fields = .ok () ↔
      ∀ field ∈ fields, field.2.asStr.isSome = true := by
  induction fields with
  | nil => simp [validMetadataFields]
  | cons field fields ih =>
      obtain ⟨key, value⟩ := field
      rw [validMetadataFields]
      split
      · next hstring => simp [hstring, ih]
      · next hother => simp [hother]

theorem safe_validMetadataFields (libraries : Libraries) (displayName : String)
    (fields : List (Text × Json)) :
    Safe (validMetadataFields libraries displayName fields) := by
  induction fields with
  | nil => exact safe_ok _
  | cons field fields ih =>
      obtain ⟨key, value⟩ := field
      rw [validMetadataFields]
      split
      · exact ih
      · simp [invalid]

theorem validateOptionalMetadata_eq_ok {libraries : Libraries} {displayName : String}
    {metadata : Option Json} :
    validateOptionalMetadata libraries displayName metadata = .ok () ↔
      ∀ value, metadata = some value →
        ∃ fields, asObject value = some fields ∧ ∀ field ∈ fields, field.2.asStr.isSome = true := by
  cases metadata with
  | none => simp [validateOptionalMetadata]
  | some value =>
      simp [validateOptionalMetadata, validateMetadata, except_bind_eq_ok, orError_eq_ok,
        validMetadataFields_eq_ok]

theorem safe_validateOptionalMetadata (libraries : Libraries) (displayName : String)
    (metadata : Option Json) :
    Safe (validateOptionalMetadata libraries displayName metadata) := by
  cases metadata with
  | none => exact safe_ok _
  | some value =>
      apply (safe_orError (by simp [invalid])).bind
      intro fields _
      exact safe_validMetadataFields libraries displayName fields

/-- The metadata is one of the entries, or none is. -/
theorem count_tensorEntries {entries : List (Text × Json)}
    (hunique : (entries.map Prod.fst).Nodup) :
    checkedSub entries.length (if (Entries.get METADATA entries).isSome then 1 else 0) =
      some (tensorEntries entries).length := by
  have hcount : (tensorEntries entries).length +
      (if (Entries.get METADATA entries).isSome then 1 else 0) = entries.length := by
    induction entries with
    | nil => rfl
    | cons entry entries ih =>
        obtain ⟨hnew, htail⟩ := List.nodup_cons.mp hunique
        have hrest := ih htail
        rw [tensorEntries, List.filter_cons, Entries.get_cons]
        by_cases hmetadata : entry.1 = METADATA
        · have hnone : Entries.get METADATA entries = none :=
            Entries.get_eq_none (hmetadata ▸ hnew)
          rw [hnone] at hrest
          simpa [hmetadata, tensorEntries] using hrest
        · simp only [hmetadata, ne_eq, not_false_eq_true, decide_true, if_true, if_false,
            List.length_cons, ← hrest, tensorEntries]
          omega
  exact checkedSub_eq_some.mpr ⟨by omega, by omega⟩

/-- The ranges of the tensors are the declared ones behind the header. -/
theorem ranges_of_parsed {limits : LoadLimits} {dataStart dataLen : Nat}
    {entries : List (Text × Json)} {tensors : List (String × ParsedTensor)}
    (h : List.Forall₂ (Parsed limits dataStart dataLen) (tensorEntries entries) tensors) :
    ranges tensors = (declaredRanges entries).map (shift dataStart) := by
  rw [declaredRanges]
  generalize tensorEntries entries = parsed at h
  induction h with
  | nil => rfl
  | cons hparsed _ ih =>
      obtain ⟨_, _, raw, hdescribes, _, hrange⟩ := hparsed
      simp only [ranges, List.map_cons, List.filterMap_cons, hdescribes.reads, Option.map_some,
        hrange] at ih ⊢
      rw [ih]

theorem ranges_inside {limits : LoadLimits} {dataStart dataLen : Nat}
    {entries : List (Text × Json)} {tensors : List (String × ParsedTensor)}
    (h : List.Forall₂ (Parsed limits dataStart dataLen) entries tensors) :
    ∀ named ∈ tensors, dataStart ≤ named.2.byteRange.1 ∧
      named.2.byteRange.1 + named.2.shape.dimensions.prod * named.2.dtype.sizeBytes =
        named.2.byteRange.2 ∧ named.2.byteRange.2 ≤ dataStart + dataLen := by
  induction h with
  | nil => simp
  | cons hparsed _ ih =>
      obtain ⟨_, _, raw, hdescribes, hdimensions, hrange⟩ := hparsed
      refine List.forall_mem_cons.mpr ⟨?_, ih⟩
      have hlength := hdescribes.length_eq
      have hinside := hdescribes.inside
      rw [hdimensions, hrange, shift]
      exact ⟨by omega, by dsimp only; omega, by dsimp only; omega⟩

theorem describes_of_parsed {limits : LoadLimits} {dataStart dataLen : Nat}
    {entries : List (Text × Json)} {tensors : List (String × ParsedTensor)}
    (h : List.Forall₂ (Parsed limits dataStart dataLen) entries tensors) :
    ∀ entry ∈ entries,
      NameFits entry.1 ∧ ∃ raw dtype, Describes limits dataLen entry.2 raw dtype := by
  induction h with
  | nil => simp
  | cons hparsed _ ih =>
      obtain ⟨hname, _, raw, hdescribes, _⟩ := hparsed
      exact List.forall_mem_cons.mpr ⟨⟨hname, raw, _, hdescribes⟩, ih⟩

theorem parsed_exists {limits : LoadLimits} {dataStart dataLen : Nat}
    {entries : List (Text × Json)} (hfits : dataLen ≤ usizeMax)
    (h : ∀ entry ∈ entries, NameFits entry.1 ∧ ∃ raw dtype, Describes limits dataLen entry.2 raw dtype) :
    ∃ tensors, List.Forall₂ (Parsed limits dataStart dataLen) entries tensors := by
  induction entries with
  | nil => exact ⟨[], .nil⟩
  | cons entry entries ih =>
      obtain ⟨⟨hname, raw, dtype, hdescribes⟩, hrest⟩ := List.forall_mem_cons.mp h
      obtain ⟨tensors, htensors⟩ := ih hrest
      have hproduct : raw.shape.prod ≤ usizeMax := by
        have hlength := hdescribes.length_eq
        have hinside := hdescribes.inside
        have := Nat.le_mul_of_pos_right raw.shape.prod (sizeBytes_pos dtype)
        omega
      exact ⟨(String.ofList entry.1,
          ⟨dtype, ⟨raw.shape, _, rfl, hproduct⟩, shift dataStart raw.dataOffsets⟩) :: tensors,
        .cons ⟨hname, rfl, raw, hdescribes, rfl, rfl⟩ htensors⟩

theorem inNameOrder_perm {β : Type} (entries : List (String × β)) :
    (inNameOrder entries).Perm entries := List.mergeSort_perm _ _

theorem isShard_length {libraries : Libraries} {limits : LoadLimits}
    {lengthPrefix header data : List UInt8} {entries : List (Text × Json)}
    (h : IsShard libraries limits lengthPrefix header data entries) :
    (lengthPrefix ++ header ++ data).length = PREFIX_BYTES + header.length + data.length ∧
      (lengthPrefix ++ header ++ data).length ≤ usizeMax := by
  have hle := Nat.le_trans h.shard_le limits.shardBytes_le
  refine ⟨?_, hle⟩
  rw [List.length_append, List.length_append, h.length_eq]

/-- What follows the header, for a shard that is one. -/
theorem fromBytes_of_isShard {libraries : Libraries} {displayName : String} {limits : LoadLimits}
    {lengthPrefix header data : List UInt8} {entries : List (Text × Json)} {shard : ParsedShard}
    (h : IsShard libraries limits lengthPrefix header data entries) :
    ParsedShard.fromBytes libraries displayName (lengthPrefix ++ header ++ data) limits =
        .ok shard ↔
      HeaderFits limits data.length entries ∧
        shard.bytes = lengthPrefix ++ header ++ data ∧
        ∃ tensors, shard.tensors = inNameOrder tensors ∧
          List.Forall₂ (Parsed limits (PREFIX_BYTES + header.length) data.length)
            (tensorEntries entries) tensors := by
  obtain ⟨hlength, husize⟩ := isShard_length h
  have hheader := (@parseHeader_eq_ok libraries displayName _ limits entries _).mpr
    ⟨lengthPrefix, header, data, rfl, rfl, h⟩
  have hcount := count_tensorEntries (libraries.fromSlice_unique h.reads)
  have hdata : (lengthPrefix ++ header ++ data).length - (PREFIX_BYTES + header.length) =
      data.length := by omega
  have hparse := @parseTensors_eq_ok libraries displayName (PREFIX_BYTES + header.length)
    (lengthPrefix ++ header ++ data) limits entries
  rw [hdata] at hparse
  -- The tensors in the order of their names tile what the header declares.
  have htiles : ∀ {tensors : List (String × ParsedTensor)},
      List.Forall₂ (Parsed limits (PREFIX_BYTES + header.length) data.length)
        (tensorEntries entries) tensors →
      (validateCoverage libraries displayName (inNameOrder tensors)
          (PREFIX_BYTES + header.length) (lengthPrefix ++ header ++ data).length = .ok () ↔
        Tiles 0 data.length (declaredRanges entries)) := by
    intro tensors htensors
    have hperm : (ranges (inNameOrder tensors)).Perm (ranges tensors) :=
      (inNameOrder_perm tensors).map _
    have hordered : ∀ range ∈ ranges (inNameOrder tensors), range.1 ≤ range.2 := by
      intro range hmem
      obtain ⟨named, hnamed, rfl⟩ := List.mem_map.mp (hperm.mem_iff.mp hmem)
      have := ranges_inside htensors named hnamed
      omega
    have hshift := @Tiling.tiles_shift 0 data.length (declaredRanges entries) (Nat.zero_le _)
      (PREFIX_BYTES + header.length)
    rw [Nat.add_zero, ← ranges_of_parsed htensors, ← hlength] at hshift
    rw [validateCoverage_eq_ok (by omega) hordered, ← hshift]
    exact ⟨fun h => h.perm hperm, fun h => h.perm hperm.symm⟩
  constructor
  · intro hok
    obtain ⟨⟨object, dataStart⟩, hparsed, hok⟩ := except_bind_eq_ok.mp hok
    rw [hheader] at hparsed
    cases hparsed
    obtain ⟨tensorCount, htensorCount, hok⟩ := except_bind_eq_ok.mp hok
    rw [orError_eq_ok, hcount, Option.some.injEq] at htensorCount
    subst htensorCount
    split at hok
    · cases hok
    next hlimit =>
    obtain ⟨_, hmetadata, hok⟩ := except_bind_eq_ok.mp hok
    obtain ⟨tensors, htensors, hok⟩ := except_bind_eq_ok.mp hok
    obtain ⟨_, hcoverage, hok⟩ := except_bind_eq_ok.mp hok
    cases hok
    have hparsed := (hparse (by omega) husize).mp htensors
    exact ⟨⟨validateOptionalMetadata_eq_ok.mp hmetadata, Nat.not_lt.mp hlimit,
      describes_of_parsed hparsed, (htiles hparsed).mp hcoverage⟩, rfl, tensors, rfl, hparsed⟩
  · rintro ⟨hfits, hbytes, tensors, htensors, hparsed⟩
    obtain ⟨shardTensors, shardBytes⟩ := shard
    dsimp only at hbytes htensors
    subst hbytes htensors
    simp only [ParsedShard.fromBytes, hheader, bind, Except.bind, hcount, orError,
      Nat.not_lt.mpr hfits.count_le, if_false, validateOptionalMetadata_eq_ok.mpr hfits.metadata,
      (hparse (by omega) husize).mpr hparsed, (htiles hparsed).mpr hfits.tiles]

theorem safe_fromBytes (libraries : Libraries) (displayName : String) (bytes : List UInt8)
    (limits : LoadLimits) :
    Safe (ParsedShard.fromBytes libraries displayName bytes limits) := by
  apply (safe_parseHeader libraries displayName bytes limits).bind
  intro ⟨object, dataStart⟩ hheader
  obtain ⟨lengthPrefix, header, data, rfl, rfl, hshard⟩ := parseHeader_eq_ok.mp hheader
  obtain ⟨hlength, husize⟩ := isShard_length hshard
  apply (safe_orError (by simp)).bind
  intro tensorCount _
  dsimp only
  split
  · simp
  apply (safe_validateOptionalMetadata _ _ _).bind
  intro _ _
  apply (safe_parseTensors (by omega) object).bind
  intro tensors htensors
  have hparsed := (parseTensors_eq_ok (by omega) husize).mp htensors
  have hordered : ∀ range ∈ ranges (inNameOrder tensors), range.1 ≤ range.2 := by
    intro range hmem
    obtain ⟨named, hnamed, rfl⟩ := List.mem_map.mp
      (((inNameOrder_perm tensors).map _).mem_iff.mp hmem)
    have := ranges_inside hparsed named hnamed
    omega
  exact (safe_validateCoverage (by omega) hordered).bind fun _ _ => safe_ok _

/-- The names of the tensors are those of the entries. -/
theorem names_of_parsed {limits : LoadLimits} {dataStart dataLen : Nat}
    {entries : List (Text × Json)} {tensors : List (String × ParsedTensor)}
    (h : List.Forall₂ (Parsed limits dataStart dataLen) entries tensors) :
    tensors.map Prod.fst = entries.map fun entry => String.ofList entry.1 := by
  induction h with
  | nil => rfl
  | cons hparsed _ ih => rw [List.map_cons, List.map_cons, hparsed.name_eq, ih]

/-- The parser never panics. What it accepts is a shard whose tensors, each with the bytes
that its shape asks for, tile the data without a gap or a byte left over, and it accepts
every header within the limits whose tensors do. -/
theorem fromBytes_spec (libraries : Libraries) (displayName : String) (bytes : List UInt8)
    (limits : LoadLimits) :
    Safe (ParsedShard.fromBytes libraries displayName bytes limits) ∧
      (∀ shard, ParsedShard.fromBytes libraries displayName bytes limits = .ok shard →
        ∃ lengthPrefix header data entries,
          bytes = lengthPrefix ++ header ++ data ∧
            IsShard libraries limits lengthPrefix header data entries ∧
            HeaderFits limits data.length entries ∧ shard.bytes = bytes ∧
            (shard.tensors.map Prod.fst).Perm
              ((tensorEntries entries).map fun entry => String.ofList entry.1) ∧
            (∀ named ∈ shard.tensors, PREFIX_BYTES + header.length ≤ named.2.byteRange.1 ∧
              named.2.byteRange.1 + named.2.shape.dimensions.prod * named.2.dtype.sizeBytes =
                named.2.byteRange.2 ∧ named.2.byteRange.2 ≤ bytes.length) ∧
            (shard.tensors.Pairwise fun first second =>
              first.1 ≠ second.1 ∧
                Tiling.Disjoint first.2.byteRange second.2.byteRange) ∧
            Tiles (PREFIX_BYTES + header.length) bytes.length (ranges shard.tensors)) ∧
      ∀ lengthPrefix header data entries, bytes = lengthPrefix ++ header ++ data →
        IsShard libraries limits lengthPrefix header data entries →
          HeaderFits limits data.length entries →
            ∃ shard, ParsedShard.fromBytes libraries displayName bytes limits = .ok shard := by
  refine ⟨safe_fromBytes libraries displayName bytes limits, ?_, ?_⟩
  · intro shard hok
    obtain ⟨⟨entries, dataStart⟩, hheader, _⟩ := except_bind_eq_ok.mp hok
    obtain ⟨lengthPrefix, header, data, rfl, _, hshard⟩ := parseHeader_eq_ok.mp hheader
    obtain ⟨hfits, hbytes, tensors, htensors, hparsed⟩ := (fromBytes_of_isShard hshard).mp hok
    obtain ⟨hlength, _⟩ := isShard_length hshard
    have hperm : shard.tensors.Perm tensors := htensors ▸ inNameOrder_perm tensors
    have hnames : (shard.tensors.map Prod.fst).Perm
        ((tensorEntries entries).map fun entry => String.ofList entry.1) :=
      names_of_parsed hparsed ▸ hperm.map _
    have hkeys : ((tensorEntries entries).map Prod.fst).Nodup :=
      (libraries.fromSlice_unique hshard.reads).sublist (List.filter_sublist.map _)
    have hunique : (shard.tensors.map Prod.fst).Nodup := by
      rw [hnames.nodup_iff, ← Function.comp_def String.ofList, ← List.map_map]
      exact hkeys.map fun _ _ => String.ofList_injective
    have htiles : Tiles (PREFIX_BYTES + header.length) (lengthPrefix ++ header ++ data).length
        (ranges shard.tensors) := by
      have hshift := (@Tiling.tiles_shift 0 data.length (declaredRanges entries) (Nat.zero_le _)
        (PREFIX_BYTES + header.length)).mpr hfits.tiles
      rw [Nat.add_zero, ← ranges_of_parsed hparsed, ← hlength] at hshift
      exact hshift.perm (hperm.symm.map _)
    refine ⟨lengthPrefix, header, data, entries, rfl, hshard, hfits, hbytes, hnames, ?_, ?_,
      htiles⟩
    · intro named hmem
      rw [hlength]
      exact ranges_inside hparsed named (hperm.mem_iff.mp hmem)
    · exact (List.pairwise_map.mp hunique).and (List.pairwise_map.mp htiles.disjoint)
  · rintro lengthPrefix header data entries rfl hshard hfits
    obtain ⟨hlength, husize⟩ := isShard_length hshard
    obtain ⟨tensors, htensors⟩ := @parsed_exists limits (PREFIX_BYTES + header.length) data.length
      _ (by omega) hfits.tensors
    exact ⟨⟨inNameOrder tensors, _⟩,
      (fromBytes_of_isShard hshard).mpr ⟨hfits, rfl, tensors, rfl, htensors⟩⟩

section Examples

/-- A reader that knows one header, and stands for the one that the source uses. -/
def reading (entries : List (Text × Json)) (hunique : (entries.map Prod.fst).Nodup) :
    Libraries where
  fromSlice := fun input =>
    if input = [0x7b, 0x7d] then .ok (.object entries) else .error "expected value"
  fromSlice_unique := by
    intro input entries' h
    split at h
    · cases h
      exact hunique
    · cases h
  rawTensorError := fun _ => "invalid type"
  debug := String.quote

def smallLimits : LoadLimits := ⟨16, 2, 1, 64, by decide⟩

def described (dtype shape start stop : String) : Json :=
  .object [("dtype".toList, .string dtype.toList),
    ("shape".toList, .array [.number shape.toList]),
    ("data_offsets".toList, .array [.number start.toList, .number stop.toList])]

theorem isShard_reading {entries : List (Text × Json)}
    (hunique : (entries.map Prod.fst).Nodup) {data : List UInt8} (hdata : data.length ≤ 54) :
    IsShard (reading entries hunique) smallLimits [2, 0, 0, 0, 0, 0, 0, 0] [0x7b, 0x7d] data
      entries where
  length_eq := rfl
  declares := by decide
  shard_le := by
    rw [List.length_append, List.length_append]
    simp [smallLimits]
    omega
  header_le := by decide
  opens := rfl
  closes := ⟨[0x7b], 0, rfl⟩
  reads := rfl

/-- Two tensors begin at the same place, and one of them is empty. -/
def twoTensors : List (Text × Json) :=
  [("a".toList, described "F16" "1" "0" "2"), ("b".toList, described "BF16" "0" "0" "0")]

theorem fromBytes_spec_two :
    ∃ shard, ParsedShard.fromBytes (reading twoTensors (by decide)) "model.safetensors"
      [2, 0, 0, 0, 0, 0, 0, 0, 0x7b, 0x7d, 1, 2] smallLimits = .ok shard := by
  have hentries : tensorEntries twoTensors = twoTensors := rfl
  have hranges : declaredRanges twoTensors = [(0, 2), (0, 0)] := rfl
  have htiles : Tiles 0 2 [(0, 0), (0, 2)] := Chain.tiles ⟨rfl, by decide, rfl, by decide, rfl⟩
  refine (fromBytes_spec (reading twoTensors (by decide)) _ _ _).2.2 _ _ [1, 2] twoTensors rfl
    (isShard_reading _ (by decide)) ⟨?_, ?_, ?_, ?_⟩
  · intro value hvalue
    cases hvalue
  · rw [hentries]
    decide
  · rw [hentries]
    refine List.forall_mem_cons.mpr ⟨⟨⟨by decide, by decide, rfl⟩, ⟨"F16".toList, [1], (0, 2)⟩, .f16,
      ⟨rfl, rfl, by decide, rfl, by decide⟩⟩, List.forall_mem_singleton.mpr
        ⟨⟨by decide, by decide, rfl⟩, ⟨"BF16".toList, [0], (0, 0)⟩, .bf16,
          ⟨rfl, rfl, by decide, rfl, by decide⟩⟩⟩
  · rw [hranges]
    exact htiles.perm (.swap _ _ _)

/-- A shard within the limits whose tensors tile its data, and that the parser refuses. -/
def Refused (entries : List (Text × Json)) (hunique : (entries.map Prod.fst).Nodup)
    (data : List UInt8) : Prop :=
  IsShard (reading entries hunique) smallLimits [2, 0, 0, 0, 0, 0, 0, 0] [0x7b, 0x7d] data
      entries ∧
    (tensorEntries entries).length ≤ smallLimits.tensors ∧
    Tiles 0 data.length (declaredRanges entries) ∧
    ∀ displayName shard, ParsedShard.fromBytes (reading entries hunique) displayName
      ([2, 0, 0, 0, 0, 0, 0, 0] ++ [0x7b, 0x7d] ++ data) smallLimits ≠ .ok shard

theorem refused_of_not_fits {entries : List (Text × Json)}
    {hunique : (entries.map Prod.fst).Nodup} {data : List UInt8} (hdata : data.length ≤ 54)
    (hcount : (tensorEntries entries).length ≤ smallLimits.tensors)
    (htiles : Tiles 0 data.length (declaredRanges entries))
    (h : ¬ HeaderFits smallLimits data.length entries) : Refused entries hunique data := by
  have hshard := isShard_reading hunique hdata
  refine ⟨hshard, hcount, htiles, fun displayName shard hok => ?_⟩
  exact h ((fromBytes_of_isShard hshard).mp hok).1

def singlePrecision : List (Text × Json) := [("a".toList, described "F32" "1" "0" "4")]

def lineBreak : List (Text × Json) := [(['\n'], described "F16" "1" "0" "2")]

def countedMetadata : List (Text × Json) := [(METADATA, .object [("count".toList, .number ['1'])])]

/-- A type that the parser does not load, a name that cannot be printed and metadata that is
no text are refused, whatever the tensors cover. -/
theorem fromBytes_refuses :
    Refused singlePrecision (by decide) [1, 2, 3, 4] ∧
      declaredRanges singlePrecision = [(0, 1 * DType.f32.sizeBytes)] ∧
      Refused lineBreak (by decide) [1, 2] ∧
      declaredRanges lineBreak = [(0, 1 * DType.f16.sizeBytes)] ∧
      Refused countedMetadata (by decide) [] := by
  refine ⟨refused_of_not_fits (by decide) (by decide) ?_ ?_, rfl,
    refused_of_not_fits (by decide) (by decide) ?_ ?_, rfl,
    refused_of_not_fits (by decide) (by decide) ?_ ?_⟩
  · exact Chain.tiles ⟨rfl, by decide, rfl⟩
  · intro hfits
    obtain ⟨_, raw, dtype, hdescribes⟩ := hfits.tensors _ List.mem_cons_self
    have hreads := hdescribes.reads
    have hdtype := hdescribes.dtype_eq
    cases hreads
    cases hdtype
  · exact Chain.tiles ⟨rfl, by decide, rfl⟩
  · intro hfits
    have hprintable := (hfits.tensors _ List.mem_cons_self).1.printable
    cases hprintable
  · exact Chain.tiles rfl
  · intro hfits
    obtain ⟨fields, hfields, htexts⟩ := hfits.metadata _ rfl
    cases hfields
    have htext := htexts _ List.mem_cons_self
    cases htext

end Examples

end Shards

end Riley.Checkpoint
