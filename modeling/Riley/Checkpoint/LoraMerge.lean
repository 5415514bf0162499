import Riley.Checkpoint.LoraRuns

/-!
When a merge is safe and complete. It is, for every arithmetic, if and only if no target it
comes to asks for bytes that are not there or for memory that is not granted, the targets are
no more than the pairs of the adapter, and, where they are all of them, no two are the same
or share a byte.
-/

namespace Riley.Lora

open Cells (cell rewrite)
open Outcome (except_bind_eq_ok)
open Server (Json)
open Utf8 (Text)

variable {F : Type}

section Adapters

theorem returns_scalingTerms (config : Json) : Returns (scalingTerms config) := by
  unfold scalingTerms
  split
  · intro error herror
    cases herror
    exact returned_invalid _
  refine (returns_orError fun _ => returned_invalid _).bind fun rank _ => ?_
  refine (returns_orError fun _ => returned_invalid _).bind fun alpha _ => ?_
  intro error herror
  repeat' split at herror
  all_goals cases herror
  all_goals exact returned_invalid _

theorem scalingTerms_rank_pos {config : Json} {alpha : Text} {rank : Nat}
    (h : scalingTerms config = .ok (alpha, rank)) : 0 < rank := by
  unfold scalingTerms at h
  split at h
  · cases h
  obtain ⟨positive, hpositive, h⟩ := except_bind_eq_ok.mp h
  obtain ⟨_, _, h⟩ := except_bind_eq_ok.mp h
  obtain ⟨number, _, hnumber⟩ := Option.bind_eq_some_iff.mp (orError_eq_ok.mp hpositive)
  obtain ⟨value, _, hvalue⟩ := Option.bind_eq_some_iff.mp hnumber
  repeat' split at h
  all_goals cases h
  split at hvalue
  · next hpos =>
      cases hvalue
      exact hpos
  · cases hvalue

theorem returns_adapterTarget (key : Text) : Returns (adapterTarget key) := by
  refine (returns_orError fun _ => returned_invalid _).bind fun module _ => ?_
  split
  · exact returns_ok _
  · split
    · exact returns_ok _
    · intro error herror
      cases herror
      exact returned_invalid _

theorem returns_adapterPairs (pairs : Pairs) (entries : List (Text × TensorEntry)) :
    Returns (adapterPairs pairs entries) := by
  induction entries generalizing pairs with
  | nil => exact returns_ok _
  | cons entry entries ih =>
      obtain ⟨key, entry⟩ := entry
      exact (returns_adapterTarget key).bind fun target _ => ih _

/-- Every target is there once, and its factors end in so many bytes. -/
structure PairsValid (fileLen : Nat) (pairs : Pairs) : Prop where
  unique : (pairs.map Prod.fst).Nodup
  a_le : ∀ name factors a, Entries.get name pairs = some factors → factors.a = some a →
    a.stop ≤ fileLen
  b_le : ∀ name factors b, Entries.get name pairs = some factors → factors.b = some b →
    b.stop ≤ fileLen

theorem PairsValid.addFactor {fileLen : Nat} {pairs : Pairs} (h : PairsValid fileLen pairs)
    {target : Text} {isA : Bool} {entry : TensorEntry} (hentry : entry.stop ≤ fileLen) :
    PairsValid fileLen (addFactor pairs target isA entry) := by
  have hold : ∀ a, ((Entries.get target pairs).getD ⟨none, none⟩).a = some a →
      a.stop ≤ fileLen := by
    intro a ha
    cases hfactors : Entries.get target pairs with
    | none =>
        rw [hfactors] at ha
        cases ha
    | some factors =>
        rw [hfactors] at ha
        exact h.a_le target factors a hfactors ha
  have hold' : ∀ b, ((Entries.get target pairs).getD ⟨none, none⟩).b = some b →
      b.stop ≤ fileLen := by
    intro b hb
    cases hfactors : Entries.get target pairs with
    | none =>
        rw [hfactors] at hb
        cases hb
    | some factors =>
        rw [hfactors] at hb
        exact h.b_le target factors b hfactors hb
  refine ⟨Entries.nodup_insert h.unique, ?_, ?_⟩
  · intro name factors a hget ha
    rw [Lora.addFactor, Entries.get_insert] at hget
    split at hget
    · cases hget
      cases isA with
      | true =>
          cases ha
          exact hentry
      | false => exact hold a ha
    · exact h.a_le name factors a hget ha
  · intro name factors b hget hb
    rw [Lora.addFactor, Entries.get_insert] at hget
    split at hget
    · cases hget
      cases isA with
      | true => exact hold' b hb
      | false =>
          cases hb
          exact hentry
    · exact h.b_le name factors b hget hb

theorem adapterPairs_valid {fileLen : Nat} {pairs result : Pairs}
    {entries : List (Text × TensorEntry)} (hpairs : PairsValid fileLen pairs)
    (hentries : ∀ entry ∈ entries, entry.2.stop ≤ fileLen)
    (h : adapterPairs pairs entries = .ok result) : PairsValid fileLen result := by
  induction entries generalizing pairs with
  | nil =>
      cases h
      exact hpairs
  | cons entry entries ih =>
      obtain ⟨key, entry⟩ := entry
      obtain ⟨hentry, hrest⟩ := List.forall_mem_cons.mp hentries
      obtain ⟨⟨target, isA⟩, _, h⟩ := except_bind_eq_ok.mp h
      exact ih (hpairs.addFactor hentry) hrest h

/-- No arithmetic at all. -/
def bare : Arithmetic Unit where
  zero := ()
  add := fun _ _ => ()
  mul := fun _ _ => ()
  fromLeBytes := fun _ _ _ _ => ()
  bf16ToF32 := fun _ => ()
  f32ToBf16 := fun _ => 0
  scaling := fun _ _ _ _ => ()

variable {ops : Arithmetic F} {reader : JsonReader} {input : MergeInput} {scale : F}

theorem returns_readAdapter (ops : Arithmetic F) (reader : JsonReader) (input : MergeInput)
    (scale : F) : Returns (readAdapter ops reader input scale) := by
  refine (returns_orError fun _ => returned_json).bind fun config _ => ?_
  refine ((returns_scalingTerms config).bind fun terms _ => returns_ok _).bind fun terms _ => ?_
  refine (returns_tensorEntries reader input.adapter).bind fun entries _ => ?_
  refine (returns_adapterPairs [] entries).bind fun pairs _ => ?_
  split
  · intro error herror
    cases herror
    exact returned_invalid _
  · exact returns_ok _

/-- What is read of an adapter, but for its scaling, is the same for every arithmetic. -/
theorem readAdapter_eq_ok {adapter : Adapter F} :
    readAdapter ops reader input scale = .ok adapter ↔
      ∃ config alpha entries, reader.fromSlice input.config = some config ∧
        scalingTerms config = .ok (alpha, adapter.rank) ∧
        tensorEntries reader input.adapter = .ok entries ∧
        adapterPairs [] entries = .ok adapter.pairs ∧ adapter.pairs ≠ [] ∧
        adapter.file = input.adapter ∧
        adapter.scaling = ops.scaling scale alpha adapter.rank (flag config "use_rslora") := by
  constructor
  · intro h
    obtain ⟨config, hconfig, h⟩ := except_bind_eq_ok.mp h
    obtain ⟨⟨scaling, rank⟩, hfactor, h⟩ := except_bind_eq_ok.mp h
    obtain ⟨⟨alpha, rank'⟩, hterms, hfactor⟩ := except_bind_eq_ok.mp hfactor
    cases hfactor
    obtain ⟨entries, hentries, h⟩ := except_bind_eq_ok.mp h
    obtain ⟨pairs, hpairs, h⟩ := except_bind_eq_ok.mp h
    split at h
    · cases h
    · next hne =>
        cases h
        exact ⟨config, alpha, entries, orError_eq_ok.mp hconfig, hterms, hentries, hpairs, hne, rfl,
          rfl⟩
  · rintro ⟨config, alpha, entries, hconfig, hterms, hentries, hpairs, hne, hfile, hscaling⟩
    obtain ⟨file, pairs, rank, scaling⟩ := adapter
    dsimp only at hterms hpairs hne hfile hscaling
    subst hfile hscaling
    simp only [readAdapter, hconfig, orError, bind, Except.bind, scalingFactor, hterms, hentries,
      hpairs, hne, if_false]

theorem readAdapter_valid {adapter : Adapter F}
    (h : readAdapter ops reader input scale = .ok adapter) :
    adapter.Valid ∧ (adapter.pairs.map Prod.fst).Nodup := by
  obtain ⟨config, alpha, entries, _, hterms, hentries, hpairs, _, hfile, _⟩ :=
    readAdapter_eq_ok.mp h
  have hnil : PairsValid input.adapter.length [] := ⟨.nil, by simp, by simp⟩
  have hvalid := adapterPairs_valid hnil (tensorEntries_spec hentries).1 hpairs
  rw [← hfile] at hvalid
  exact ⟨⟨scalingTerms_rank_pos hterms, hvalid.a_le, hvalid.b_le⟩, hvalid.unique⟩

/-- The same pairs and the same rank, whatever the arithmetic. -/
theorem readAdapter_bare {adapter : Adapter F}
    (h : readAdapter ops reader input scale = .ok adapter) :
    readAdapter bare reader input () = .ok ⟨input.adapter, adapter.pairs, adapter.rank, ()⟩ := by
  obtain ⟨config, alpha, entries, hconfig, hterms, hentries, hpairs, hne, _, _⟩ :=
    readAdapter_eq_ok.mp h
  exact readAdapter_eq_ok.mpr
    ⟨config, alpha, entries, hconfig, hterms, hentries, hpairs, hne, rfl, rfl⟩

theorem readAdapter_of_bare {pairs : Pairs} {rank : Nat} (ops : Arithmetic F) (scale : F)
    (h : readAdapter bare reader input () = .ok ⟨input.adapter, pairs, rank, ()⟩) :
    ∃ scaling, readAdapter ops reader input scale = .ok ⟨input.adapter, pairs, rank, scaling⟩ := by
  obtain ⟨config, alpha, entries, hconfig, hterms, hentries, hpairs, hne, _, _⟩ :=
    readAdapter_eq_ok.mp h
  exact ⟨ops.scaling scale alpha rank (flag config "use_rslora"), readAdapter_eq_ok.mpr
    ⟨config, alpha, entries, hconfig, hterms, hentries, hpairs, hne, rfl, rfl⟩⟩

end Adapters

section Merging

/-- The bytes of the cells of a target. -/
def Target.Covers (target : Target) (place : Nat) : Prop :=
  target.weight.start ≤ place ∧ place < target.weight.start + 2 * target.count

theorem Target.covers_cell (target : Target) {index : Nat} (hindex : index < target.count) :
    target.Covers (target.weight.start + 2 * index) ∧
      target.Covers (target.weight.start + 2 * index + 1) := by
  unfold Target.Covers
  omega

/-- Two targets share no byte. -/
def Target.Apart (first second : Target) : Prop :=
  ∀ place, ¬ (first.Covers place ∧ second.Covers place)

/-- A file as a complete merge leaves it: each cell of a target is the rounded sum of the old
one and the scaled product of a row and a column, and every other byte is as it was. -/
structure FileMerged (ops : Arithmetic F) (adapter : Adapter F) (reader : JsonReader)
    (file : CheckpointFile) (merged : MergedFile) : Prop where
  path_eq : merged.path = file.path
  length_eq : merged.bytes.length = file.bytes.length
  cells : ∀ target ∈ fileTargets reader adapter.pairs adapter.rank file,
    ∀ row < target.rows, ∀ column < target.columns,
      ∃ old, cell file.bytes (target.weight.start + 2 * (row * target.columns + column)) = some old ∧
        cell merged.bytes (target.weight.start + 2 * (row * target.columns + column)) =
          some (mergedCell ops adapter.scaling
            (dot ops (target.a.values ops adapter.file) (target.b.values ops adapter.file)
              target.columns adapter.rank row column adapter.rank) old)
  others : ∀ place,
    (∀ target ∈ fileTargets reader adapter.pairs adapter.rank file, ¬ target.Covers place) →
      merged.bytes[place]? = file.bytes[place]?

/-- Every pair of the adapter is merged into one target of the base, in the file where it
is. -/
structure Complete (ops : Arithmetic F) (adapter : Adapter F) (reader : JsonReader)
    (files : List CheckpointFile) (merged : List MergedFile) : Prop where
  once : ∀ name ∈ adapter.pairs.map Prod.fst,
    ((files.flatMap (fileTargets reader adapter.pairs adapter.rank)).map Target.name).count name = 1
  files_merged : List.Forall₂ (FileMerged ops adapter reader) files merged

/-- For every arithmetic, a merge returns, and where its loop succeeds it is complete. -/
def MergesSafely (reader : JsonReader) (allocates : Nat → Bool) (input : MergeInput) : Prop :=
  ∀ (F : Type) (ops : Arithmetic F)
    (finish : MergeInput → F → List MergedFile → Except String Unit) (scale : F),
    Returns (mergeLora ops allocates reader finish input scale) ∧
      ∀ adapter merged, readAdapter ops reader input scale = .ok adapter →
        mergeLoop ops allocates reader adapter input.files = .ok merged →
          Complete ops adapter reader input.files merged

/-- No target asks for bytes that are not there, or for a row that is not to be had, before
another one stops the merge; no more targets pass than there are pairs; and where all targets
pass and are as many as the pairs, no two have one name or share a byte. -/
def WellFormed (reader : JsonReader) (allocates : Nat → Bool) (input : MergeInput) : Prop :=
  ∀ pairs rank, readAdapter bare reader input () = .ok ⟨input.adapter, pairs, rank, ()⟩ →
    let visits := input.files.flatMap (fileVisits reader pairs rank)
    (∀ before visit after, visits = before ++ visit :: after →
      (∀ earlier ∈ before, earlier.Passes) → visit.Sound allocates rank) ∧
      (visits.takeWhile fun visit => decide visit.Passes).length ≤ pairs.length ∧
      ((∀ visit ∈ visits, visit.Passes) → visits.length = pairs.length →
        ((input.files.flatMap (fileTargets reader pairs rank)).map Target.name).Nodup ∧
          ∀ file ∈ input.files, (fileTargets reader pairs rank file).Pairwise Target.Apart)

theorem Target.apply_outside {ops : Arithmetic F} {adapter : Adapter F} {target : Target}
    {file : List UInt8} {place : Nat} (h : ¬ target.Covers place) :
    (target.apply ops adapter file)[place]? = file[place]? := by
  apply Cells.getElem?_rewrite
  unfold Target.Covers at h
  omega

theorem applyAll_outside {ops : Arithmetic F} {adapter : Adapter F} {targets : List Target}
    {file : List UInt8} {place : Nat} (h : ∀ target ∈ targets, ¬ target.Covers place) :
    (applyAll ops adapter targets file)[place]? = file[place]? := by
  induction targets generalizing file with
  | nil => rfl
  | cons target targets ih =>
      obtain ⟨hhead, htail⟩ := List.forall_mem_cons.mp h
      exact (ih htail).trans (Target.apply_outside hhead)

/-- The cells of a target are rewritten by no other one. -/
theorem cell_applyAll {ops : Arithmetic F} {adapter : Adapter F} {targets : List Target}
    {file : List UInt8} (hapart : targets.Pairwise Target.Apart) {target : Target}
    (hmem : target ∈ targets) (hfits : target.weight.start + 2 * target.count ≤ file.length)
    {index : Nat} (hindex : index < target.count) :
    cell (applyAll ops adapter targets file) (target.weight.start + 2 * index) =
      (cell file (target.weight.start + 2 * index)).map (target.rewriting ops adapter index) := by
  have hcovers := target.covers_cell hindex
  induction targets generalizing file with
  | nil => cases hmem
  | cons first targets ih =>
      obtain ⟨hfirst, hrest⟩ := List.pairwise_cons.mp hapart
      rcases List.mem_cons.mp hmem with rfl | hmem
      · have houtside : ∀ place, target.Covers place →
            (applyAll ops adapter targets (target.apply ops adapter file))[place]? =
              (target.apply ops adapter file)[place]? := fun place hplace =>
          applyAll_outside fun other hother hcovers => hfirst other hother place ⟨hplace, hcovers⟩
        have hlater : cell (applyAll ops adapter targets (target.apply ops adapter file))
            (target.weight.start + 2 * index) =
              cell (target.apply ops adapter file) (target.weight.start + 2 * index) :=
          Cells.cell_congr (houtside _ hcovers.1) (houtside _ hcovers.2)
        exact hlater.trans (Cells.cell_rewrite hfits hindex)
      · have hbefore : cell (first.apply ops adapter file) (target.weight.start + 2 * index) =
            cell file (target.weight.start + 2 * index) :=
          Cells.cell_congr
            (Target.apply_outside fun h => hfirst target hmem _ ⟨h, hcovers.1⟩)
            (Target.apply_outside fun h => hfirst target hmem _ ⟨h, hcovers.2⟩)
        rw [← hbefore]
        exact ih hrest hmem (by rw [Target.length_apply]; exact hfits)

theorem target?_eq_some {pairs : Pairs} {rank : Nat} {name : Text} {weight : TensorEntry}
    {target : Target} (h : target? pairs rank name weight = some target) :
    target.name = name ∧ target.weight = weight := by
  unfold target? at h
  split at h
  · split at h
    · cases h
      exact ⟨rfl, rfl⟩
    · cases h
  · cases h

theorem mem_fileTargets {reader : JsonReader} {pairs : Pairs} {rank : Nat} {file : CheckpointFile}
    {target : Target} :
    target ∈ fileTargets reader pairs rank file ↔
      Visit.merges target ∈ fileVisits reader pairs rank file := by
  rw [fileTargets, List.mem_filterMap]
  constructor
  · rintro ⟨visit, hmem, hvisit⟩
    cases visit with
    | refused => cases hvisit
    | merges other =>
        cases hvisit
        exact hmem
  · exact fun hmem => ⟨_, hmem, rfl⟩

/-- A target is a weight of the file, and the adapter has a pair for it. -/
theorem fileTargets_spec {reader : JsonReader} {pairs : Pairs} {rank : Nat}
    {file : CheckpointFile} {target : Target} (h : target ∈ fileTargets reader pairs rank file) :
    target.weight.stop ≤ file.bytes.length ∧ target.name ∈ pairs.map Prod.fst := by
  rw [mem_fileTargets, fileVisits] at h
  split at h
  · split at h
    · next entries hentries =>
        obtain ⟨entry, hmem, hentry⟩ := List.mem_map.mp h
        obtain ⟨hmem, hname⟩ := List.mem_filter.mp hmem
        split at hentry
        · next found hfound =>
            cases hentry
            obtain ⟨hnameEq, hweight⟩ := target?_eq_some hfound
            rw [hnameEq, hweight]
            exact ⟨(tensorEntries_spec hentries).1 entry hmem, Entries.get_isSome.mp hname⟩
        · cases hentry
    · rcases List.mem_singleton.mp h
  · cases h

theorem Target.fits {allocates : Nat → Bool} {target : Target} {rank fileLen : Nat}
    (hsound : target.Sound allocates rank)
    (hpasses : target.Passes) (hstop : target.weight.stop ≤ fileLen) :
    target.weight.start + 2 * target.count ≤ fileLen := by
  obtain ⟨horder, hfits⟩ := (hsound.2 hpasses.1).2 hpasses.2
  have hcount := fits_count hfits
  rw [Target.count]
  omega

theorem mod_of_cell {columns row column : Nat} (hcolumn : column < columns) :
    (row * columns + column) / columns = row ∧ (row * columns + column) % columns = column := by
  constructor
  · rw [Nat.mul_comm, Nat.mul_add_div (by omega), Nat.div_eq_of_lt hcolumn, Nat.add_zero]
  · rw [Nat.mul_comm, Nat.mul_add_mod, Nat.mod_eq_of_lt hcolumn]

/-- The cell of a row and a column. -/
theorem cell_lt_count {rows columns row column : Nat} (hrow : row < rows)
    (hcolumn : column < columns) : row * columns + column < rows * columns := by
  calc row * columns + column < row * columns + columns := Nat.add_lt_add_left hcolumn _
    _ = (row + 1) * columns := (Nat.succ_mul _ _).symm
    _ ≤ rows * columns := Nat.mul_le_mul_right _ hrow

theorem fileMerged_of_apart {ops : Arithmetic F} {adapter : Adapter F} {reader : JsonReader}
    {file : CheckpointFile} {merged : MergedFile} (hpath : merged.path = file.path)
    (hbytes : merged.bytes = appliedFile ops adapter reader file)
    (hapart : (fileTargets reader adapter.pairs adapter.rank file).Pairwise Target.Apart)
    (hgood : ∀ target ∈ fileTargets reader adapter.pairs adapter.rank file,
      target.Sound allocates adapter.rank ∧ target.Passes) :
    FileMerged ops adapter reader file merged where
  path_eq := hpath
  length_eq := by rw [hbytes, appliedFile, length_applyAll]
  cells := by
    intro target hmem row hrow column hcolumn
    obtain ⟨hsound, hpasses⟩ := hgood target hmem
    have hfits := Target.fits hsound hpasses (fileTargets_spec hmem).1
    have hindex : row * target.columns + column < target.count := cell_lt_count hrow hcolumn
    obtain ⟨old, hold⟩ := @Cells.cell_exists file.bytes
      (target.weight.start + 2 * (row * target.columns + column)) (by omega)
    obtain ⟨hdiv, hmod⟩ := @mod_of_cell target.columns row column hcolumn
    refine ⟨old, hold, ?_⟩
    rw [hbytes, appliedFile, cell_applyAll hapart hmem hfits hindex, hold, Option.map_some,
      Target.rewriting, mergedAt, hdiv, hmod]
  others := by
    intro place hplace
    rw [hbytes, appliedFile, applyAll_outside hplace]

end Merging

section Overlaps

/-- An arithmetic that rounds to what a function makes of the old cell. -/
def stepping (g : UInt16 → UInt16) : Arithmetic UInt16 where
  zero := 0
  add := fun base _ => base
  mul := fun _ _ => 0
  fromLeBytes := fun _ _ _ _ => 0
  bf16ToF32 := id
  f32ToBf16 := g
  scaling := fun _ _ _ _ => 0

variable {g : UInt16 → UInt16} {adapter : Adapter UInt16} {reader : JsonReader}
  {file : CheckpointFile} {merged : MergedFile}

/-- A cell of a merged file, by its number. -/
theorem FileMerged.cell_eq (h : FileMerged (stepping g) adapter reader file merged)
    {target : Target} (hmem : target ∈ fileTargets reader adapter.pairs adapter.rank file)
    {index : Nat} (hindex : index < target.count) :
    ∃ old, cell file.bytes (target.weight.start + 2 * index) = some old ∧
      cell merged.bytes (target.weight.start + 2 * index) = some (g old) := by
  have hcolumns : 0 < target.columns := by
    apply Nat.pos_of_ne_zero
    intro hzero
    rw [Target.count, hzero, Nat.mul_zero] at hindex
    cases hindex
  obtain ⟨old, hold, hcell⟩ := h.cells target hmem (index / target.columns)
    (Nat.div_lt_of_lt_mul (by rw [Nat.mul_comm]; exact hindex)) (index % target.columns)
    (Nat.mod_lt _ hcolumns)
  rw [Nat.div_add_mod' index target.columns] at hold hcell
  exact ⟨old, hold, hcell⟩

/-- Where two targets share a byte, their cells are aligned: one byte would have to be the low
byte of a cell and the high byte of another, which differ. -/
theorem aligned_of_merged (h : FileMerged (stepping fun _ => 256) adapter reader file merged)
    {first second : Target} (hfirst : first ∈ fileTargets reader adapter.pairs adapter.rank file)
    (hsecond : second ∈ fileTargets reader adapter.pairs adapter.rank file) {place : Nat}
    (hcovers : first.Covers place) (hcovers' : second.Covers place) :
    first.weight.start % 2 = second.weight.start % 2 := by
  have hbyte : ∀ target ∈ fileTargets reader adapter.pairs adapter.rank file,
      target.Covers place →
        merged.bytes[place]? =
          some (if (place - target.weight.start) % 2 = 0 then 0 else 1) := by
    intro target hmem hcovers
    unfold Target.Covers at hcovers
    obtain ⟨old, _, hcell⟩ := h.cell_eq hmem
      (show (place - target.weight.start) / 2 < target.count by omega)
    obtain ⟨hlow, hhigh⟩ := Cells.cell_eq_some.mp hcell
    rcases Nat.mod_two_eq_zero_or_one (place - target.weight.start) with heven | hodd
    · have hplace : target.weight.start + 2 * ((place - target.weight.start) / 2) = place := by
        omega
      rw [heven, if_pos rfl, ← hplace]
      exact hlow
    · have hplace : target.weight.start + 2 * ((place - target.weight.start) / 2) + 1 = place := by
        omega
      rw [hodd, if_neg (by decide), ← hplace]
      exact hhigh
  have hsame := (hbyte first hfirst hcovers).symm.trans (hbyte second hsecond hcovers')
  unfold Target.Covers at hcovers hcovers'
  by_contra hne
  rcases Nat.mod_two_eq_zero_or_one (place - first.weight.start) with heven | hodd
  · rw [if_pos heven, if_neg (by omega)] at hsame
    cases hsame
  · rw [if_neg (by omega), if_pos (by omega)] at hsame
    cases hsame

/-- A target rewrites the cell at a place, or leaves both of its bytes. -/
def Target.Clean (target : Target) (place : Nat) : Prop :=
  (∃ index < target.count, place = target.weight.start + 2 * index) ∨
    ¬ target.Covers place ∧ ¬ target.Covers (place + 1)

/-- A target that shares bytes with another one only where their cells are aligned is clean at
the cells of the other. -/
theorem Target.clean_of_aligned {first target : Target} {index : Nat} (hindex : index < first.count)
    (haligned : ∀ place, first.Covers place → target.Covers place →
      first.weight.start % 2 = target.weight.start % 2) :
    target.Clean (first.weight.start + 2 * index) := by
  by_cases hlow : target.Covers (first.weight.start + 2 * index)
  · have hsame := haligned _ (first.covers_cell hindex).1 hlow
    unfold Target.Covers at hlow
    exact .inl ⟨(first.weight.start + 2 * index - target.weight.start) / 2, by omega, by omega⟩
  · refine .inr ⟨hlow, fun hhigh => hlow ?_⟩
    have hsame := haligned _ (first.covers_cell hindex).2 hhigh
    unfold Target.Covers at hhigh ⊢
    omega

section Cell

variable {place : Nat} {bytes : List UInt8} {targets : List Target}

/-- A property of the cell that rewriting keeps. -/
theorem cell_keeps {S : UInt16 → Prop} (hkeeps : ∀ value, S value → S (g value))
    (hclean : ∀ target ∈ targets, target.Clean place)
    (hfits : ∀ target ∈ targets, target.weight.start + 2 * target.count ≤ bytes.length)
    {value : UInt16} (hcell : cell bytes place = some value) (hvalue : S value) :
    ∃ after, cell (applyAll (stepping g) adapter targets bytes) place = some after ∧ S after := by
  induction targets generalizing bytes value with
  | nil => exact ⟨value, hcell, hvalue⟩
  | cons target targets ih =>
      obtain ⟨hhead, htail⟩ := List.forall_mem_cons.mp hclean
      obtain ⟨hheadFits, htailFits⟩ := List.forall_mem_cons.mp hfits
      have hlength := Target.length_apply (stepping g) adapter target bytes
      have hnext := @ih (target.apply (stepping g) adapter bytes) htail
        (by rw [hlength]; exact htailFits)
      rcases hhead with ⟨index, hindex, rfl⟩ | ⟨hfirst, hsecond⟩
      · have hrewritten : cell (target.apply (stepping g) adapter bytes)
            (target.weight.start + 2 * index) = some (g value) := by
          rw [Target.apply, Cells.cell_rewrite hheadFits hindex, hcell]
          rfl
        exact hnext hrewritten (hkeeps value hvalue)
      · have hsame : cell (target.apply (stepping g) adapter bytes) place = some value := by
          rw [← hcell]
          exact Cells.cell_congr (Target.apply_outside hfirst) (Target.apply_outside hsecond)
        exact hnext hsame hvalue

/-- One of the targets rewrites the cell, and takes one property to another. -/
theorem cell_moves {S T : UInt16 → Prop} (hkeeps : ∀ value, S value → S (g value))
    (hmoves : ∀ value, S value → T (g value)) (hkeeps' : ∀ value, T value → T (g value))
    (hclean : ∀ target ∈ targets, target.Clean place)
    (hfits : ∀ target ∈ targets, target.weight.start + 2 * target.count ≤ bytes.length)
    {target : Target} (hmem : target ∈ targets) (hcovers : target.Covers place)
    {value : UInt16} (hcell : cell bytes place = some value) (hvalue : S value) :
    ∃ after, cell (applyAll (stepping g) adapter targets bytes) place = some after ∧ T after := by
  obtain ⟨before, after, rfl⟩ := List.append_of_mem hmem
  obtain ⟨hcleanBefore, hcleanRest⟩ := List.forall_mem_append.mp hclean
  obtain ⟨hfitsBefore, hfitsRest⟩ := List.forall_mem_append.mp hfits
  obtain ⟨hcleanTarget, hcleanAfter⟩ := List.forall_mem_cons.mp hcleanRest
  obtain ⟨hfitsTarget, hfitsAfter⟩ := List.forall_mem_cons.mp hfitsRest
  obtain ⟨middle, hmiddle, hS⟩ := @cell_keeps g adapter _ _ before S hkeeps hcleanBefore
    hfitsBefore value hcell hvalue
  obtain ⟨index, hindex, rfl⟩ | ⟨hfirst, _⟩ := hcleanTarget
  · have hrewritten : cell (target.apply (stepping g) adapter
        (applyAll (stepping g) adapter before bytes)) (target.weight.start + 2 * index) =
          some (g middle) := by
      rw [Target.apply, Cells.cell_rewrite (by rw [length_applyAll]; exact hfitsTarget) hindex,
        hmiddle]
      rfl
    rw [applyAll_append]
    exact @cell_keeps g adapter _ _ after T hkeeps' hcleanAfter
      (by rw [Target.length_apply, length_applyAll]; exact hfitsAfter) (g middle) hrewritten
      (hmoves middle hS)
  · exact absurd hcovers hfirst

end Cell

/-- A function that tells a cell which was rewritten once from one which was rewritten more
often. -/
def counting (old value : UInt16) : UInt16 := if value = old then old + 1 else old + 2

theorem add_one_ne (old : UInt16) : old + 1 ≠ old := by
  simp

theorem add_two_ne (old : UInt16) : old + 2 ≠ old := by
  simp

theorem counting_ne (old value : UInt16) : counting old value ≠ old := by
  unfold counting
  split
  · exact add_one_ne old
  · exact add_two_ne old

theorem counting_other {old value : UInt16} (h : value ≠ old) : counting old value = old + 2 :=
  if_neg h

theorem counting_self_ne (old : UInt16) : counting old old ≠ old + 2 := by
  simp [counting]

/-- A cell that two targets rewrite is rewritten twice, and some arithmetic tells that from
once. -/
theorem apart_of_merged {pairs : Pairs} {rank : Nat}
    (h : ∀ g : UInt16 → UInt16, ∃ (adapter : Adapter UInt16) (merged : MergedFile),
      adapter.pairs = pairs ∧ adapter.rank = rank ∧
        merged.bytes = appliedFile (stepping g) adapter reader file ∧
        FileMerged (stepping g) adapter reader file merged)
    (hfits : ∀ target ∈ fileTargets reader pairs rank file,
      target.weight.start + 2 * target.count ≤ file.bytes.length) :
    (fileTargets reader pairs rank file).Pairwise Target.Apart := by
  rw [List.pairwise_iff_forall_sublist]
  intro first second hsublist place hplace
  obtain ⟨front, back, hsplit, hfirst, hsecond⟩ := List.cons_sublist_iff.mp hsublist
  have hsecond : second ∈ back := List.singleton_sublist.mp hsecond
  have hmemFirst : first ∈ fileTargets reader pairs rank file := by
    rw [hsplit]
    exact List.mem_append_left _ hfirst
  have hmemSecond : second ∈ fileTargets reader pairs rank file := by
    rw [hsplit]
    exact List.mem_append_right _ hsecond
  have haligned : ∀ target ∈ fileTargets reader pairs rank file,
      ∀ other ∈ fileTargets reader pairs rank file, ∀ place, target.Covers place →
        other.Covers place → target.weight.start % 2 = other.weight.start % 2 := by
    obtain ⟨adapter, merged, rfl, rfl, _, hmerged⟩ := h fun _ => 256
    exact fun target htarget other hother place hcovers hcovers' =>
      aligned_of_merged hmerged htarget hother hcovers hcovers'
  obtain ⟨hcovers, hcovers'⟩ := hplace
  have hsame := haligned first hmemFirst second hmemSecond place hcovers hcovers'
  -- The cell that the shared byte belongs to is a cell of both targets.
  obtain ⟨index, hindex, hlow⟩ : ∃ index < first.count,
      second.Covers (first.weight.start + 2 * index) := by
    unfold Target.Covers at hcovers hcovers' ⊢
    exact ⟨(place - first.weight.start) / 2, by omega, by omega, by omega⟩
  have hclean : ∀ target ∈ fileTargets reader pairs rank file,
      target.Clean (first.weight.start + 2 * index) := fun target htarget =>
    Target.clean_of_aligned hindex fun place => haligned first hmemFirst target htarget place
  obtain ⟨old, hold⟩ := @Cells.cell_exists file.bytes (first.weight.start + 2 * index) (by
    have := hfits first hmemFirst
    omega)
  obtain ⟨adapter, merged, rfl, rfl, hbytes, hmerged⟩ := h (counting old)
  obtain ⟨_, hold', hmergedCell⟩ := hmerged.cell_eq hmemFirst hindex
  obtain rfl := Option.some.inj (hold.symm.trans hold')
  rw [hsplit] at hclean hfits
  obtain ⟨hcleanFront, hcleanBack⟩ := List.forall_mem_append.mp hclean
  obtain ⟨hfitsFront, hfitsBack⟩ := List.forall_mem_append.mp hfits
  obtain ⟨middle, hmiddle, hmoved⟩ := @cell_moves (counting old) adapter _ _ front
    (fun _ => True) (· ≠ old) (fun _ _ => trivial) (fun value _ => counting_ne old value)
    (fun value _ => counting_ne old value) hcleanFront hfitsFront first hfirst
    (first.covers_cell hindex).1 old hold trivial
  obtain ⟨last, hlast, htwice⟩ := @cell_moves (counting old) adapter _ _ back
    (· ≠ old) (· = old + 2) (fun value _ => counting_ne old value) (fun value => counting_other)
    (fun value hvalue => counting_other (by rw [hvalue]; exact add_two_ne old)) hcleanBack
    (by rw [length_applyAll]; exact hfitsBack) second hsecond hlow middle hmiddle hmoved
  rw [hbytes, appliedFile, hsplit, applyAll_append, hlast] at hmergedCell
  cases hmergedCell
  exact counting_self_ne old htwice

end Overlaps

section Main

variable {ops : Arithmetic F} {allocates : Nat → Bool} {reader : JsonReader}
  {adapter : Adapter F} {input : MergeInput} {files : List CheckpointFile}

/-- How the targets of the files end a merge. -/
def filesFate (reader : JsonReader) (allocates : Nat → Bool) (pairs : Pairs) (rank : Nat)
    (files : List CheckpointFile) : Fate :=
  fate allocates rank (files.flatMap (fileVisits reader pairs rank)) pairs.length

theorem mergeLoop_returns_iff (hvalid : adapter.Valid) :
    Returns (mergeLoop ops allocates reader adapter files) ↔
      filesFate reader allocates adapter.pairs adapter.rank files ≠ .panicked ∧
        filesFate reader allocates adapter.pairs adapter.rank files ≠ .underflow := by
  have hmeets := @mergeFiles_meets F ops allocates adapter reader hvalid files adapter.pairs.length
  unfold mergeLoop filesFate
  cases hfate : fate allocates adapter.rank (files.flatMap (fileVisits reader adapter.pairs adapter.rank))
      adapter.pairs.length with
  | panicked =>
      rw [hfate] at hmeets
      have hmeets : mergeFiles ops allocates adapter reader files _ = .error .panicked := hmeets
      rw [hmeets]
      simp [Returns, Returned, bind, Except.bind]
  | underflow =>
      rw [hfate] at hmeets
      have hmeets : mergeFiles ops allocates adapter reader files _ = .error .underflow := hmeets
      rw [hmeets]
      simp [Returns, Returned, bind, Except.bind]
  | refused =>
      rw [hfate] at hmeets
      obtain ⟨error, hmeets, hreturned⟩ := hmeets
      rw [hmeets]
      simpa [Returns, bind, Except.bind] using hreturned
  | done remaining =>
      rw [hfate] at hmeets
      obtain ⟨⟨merged, rest⟩, hmeets, rfl, _⟩ := hmeets
      rw [hmeets]
      have hreturns : Returns (if rest ≠ 0 then
          .error (.invalid "an adapter target is missing from the base") else .ok merged) := by
        split
        · intro error herror
          cases herror
          exact returned_invalid _
        · exact returns_ok _
      simpa [bind, Except.bind] using hreturns

/-- A loop succeeds when all its targets pass and are as many as the pairs, and then it has
rewritten them all. -/
theorem mergeLoop_eq_ok {merged : List MergedFile} (hvalid : adapter.Valid)
    (h : mergeLoop ops allocates reader adapter files = .ok merged) :
    filesFate reader allocates adapter.pairs adapter.rank files = .done 0 ∧
      List.Forall₂ (fun file merged => merged.path = file.path ∧
        merged.bytes = appliedFile ops adapter reader file) files merged := by
  have hmeets := @mergeFiles_meets F ops allocates adapter reader hvalid files adapter.pairs.length
  obtain ⟨⟨others, remaining⟩, hfiles, h⟩ := except_bind_eq_ok.mp h
  dsimp only at h
  split at h
  · cases h
  next hzero =>
  cases h
  unfold filesFate
  cases hfate : fate allocates adapter.rank (files.flatMap (fileVisits reader adapter.pairs adapter.rank))
      adapter.pairs.length with
  | panicked =>
      rw [hfate] at hmeets
      cases hfiles.symm.trans hmeets
  | underflow =>
      rw [hfate] at hmeets
      cases hfiles.symm.trans hmeets
  | refused =>
      rw [hfate] at hmeets
      obtain ⟨error, hmeets, _⟩ := hmeets
      cases hfiles.symm.trans hmeets
  | done rest =>
      rw [hfate] at hmeets
      obtain ⟨result, hmeets, hrest, hforall⟩ := hmeets
      cases hfiles.symm.trans hmeets
      rw [← hrest, not_not.mp hzero]
      exact ⟨rfl, hforall⟩

theorem mergeLoop_of_done (hvalid : adapter.Valid)
    (h : filesFate reader allocates adapter.pairs adapter.rank files = .done 0) :
    ∃ merged, mergeLoop ops allocates reader adapter files = .ok merged := by
  have hmeets := @mergeFiles_meets F ops allocates adapter reader hvalid files adapter.pairs.length
  rw [show fate _ _ _ _ = Fate.done 0 from h] at hmeets
  obtain ⟨⟨merged, remaining⟩, hmeets, rfl, _⟩ := hmeets
  refine ⟨merged, ?_⟩
  rw [mergeLoop, hmeets]
  rfl

theorem mergeLora_returns_iff {finish : MergeInput → F → List MergedFile → Except String Unit}
    {scale : F} :
    Returns (mergeLora ops allocates reader finish input scale) ↔
      ∀ adapter, readAdapter ops reader input scale = .ok adapter →
        Returns (mergeLoop ops allocates reader adapter input.files) := by
  constructor
  · intro h adapter hread error herror
    apply h
    rw [mergeLora, hread]
    simp only [bind, Except.bind, herror]
  · intro h
    refine (returns_readAdapter ops reader input scale).bind fun adapter hread => ?_
    refine (h adapter hread).bind fun merged _ => ?_
    split
    · exact returns_ok _
    · intro error herror
      cases herror
      simp [Returned]

/-- All that passes is a target. -/
theorem length_targets {visits : List Visit} (h : ∀ visit ∈ visits, visit.Passes) :
    (visits.filterMap Visit.target?).length = visits.length := by
  induction visits with
  | nil => rfl
  | cons visit visits ih =>
      obtain ⟨hvisit, hrest⟩ := List.forall_mem_cons.mp h
      cases visit with
      | refused => cases hvisit
      | merges target =>
          simp [Visit.target?, ih hrest]

theorem targets_flatMap (pairs : Pairs) (rank : Nat) :
    files.flatMap (fileTargets reader pairs rank) =
      (files.flatMap (fileVisits reader pairs rank)).filterMap Visit.target? :=
  List.filterMap_flatMap.symm

/-- The targets of a run of which everything is sound and passes. -/
theorem targets_good {pairs : Pairs} {rank : Nat}
    (h : ∀ visit ∈ files.flatMap (fileVisits reader pairs rank),
      visit.Sound allocates rank ∧ visit.Passes)
    {file : CheckpointFile} (hfile : file ∈ files) {target : Target}
    (htarget : target ∈ fileTargets reader pairs rank file) :
    target.Sound allocates rank ∧ target.Passes :=
  h (.merges target) (List.mem_flatMap.mpr ⟨file, hfile, mem_fileTargets.mp htarget⟩)

theorem targets_names {pairs : Pairs} {rank : Nat} {name : Text}
    (h : name ∈ (files.flatMap (fileTargets reader pairs rank)).map Target.name) :
    name ∈ pairs.map Prod.fst := by
  obtain ⟨target, htarget, rfl⟩ := List.mem_map.mp h
  obtain ⟨file, _, htarget⟩ := List.mem_flatMap.mp htarget
  exact (fileTargets_spec htarget).2

theorem MergesSafely.wellFormed (h : MergesSafely reader allocates input) : WellFormed reader allocates input := by
  intro pairs rank hread visits
  have hvalid := (readAdapter_valid hread).1
  have hreturns := mergeLora_returns_iff.mp (h Unit bare (fun _ _ _ => .ok ()) ()).1 _ hread
  obtain ⟨hsound, hcount⟩ := fate_returns_iff.mp ((mergeLoop_returns_iff hvalid).mp hreturns)
  refine ⟨hsound, hcount, fun hpasses hlength => ?_⟩
  have hgood : ∀ visit ∈ visits, visit.Sound allocates rank ∧ visit.Passes := by
    intro visit hvisit
    obtain ⟨before, after, hsplit⟩ := List.append_of_mem hvisit
    refine ⟨hsound before visit after hsplit fun earlier hearlier => hpasses earlier ?_,
      hpasses visit hvisit⟩
    rw [hsplit]
    exact List.mem_append_left _ hearlier
  have hdone : filesFate reader allocates pairs rank input.files = .done 0 :=
    fate_eq_done.mpr ⟨hgood, hlength⟩
  have hmerged : ∀ (F : Type) (ops : Arithmetic F) (scale : F), ∃ adapter merged,
      adapter.pairs = pairs ∧ adapter.rank = rank ∧ adapter.Valid ∧
        mergeLoop ops allocates reader adapter input.files = .ok merged ∧
        Complete ops adapter reader input.files merged := by
    intro F ops scale
    obtain ⟨scaling, hadapter⟩ := readAdapter_of_bare ops scale hread
    have hvalid := (readAdapter_valid hadapter).1
    obtain ⟨merged, hloop⟩ := @mergeLoop_of_done F ops allocates reader _ input.files hvalid hdone
    exact ⟨_, merged, rfl, rfl, hvalid, hloop,
      (h F ops (fun _ _ _ => .ok ()) scale).2 _ merged hadapter hloop⟩
  constructor
  · obtain ⟨adapter, merged, rfl, rfl, _, _, hcomplete⟩ := hmerged Unit bare ()
    rw [List.nodup_iff_count_le_one]
    intro name
    by_cases hname : name ∈ (input.files.flatMap
        (fileTargets reader adapter.pairs adapter.rank)).map Target.name
    · exact (hcomplete.once name (targets_names hname)).le
    · rw [List.count_eq_zero_of_not_mem hname]
      exact Nat.zero_le 1
  · intro file hfile
    refine apart_of_merged (fun g => ?_) fun target htarget => ?_
    · obtain ⟨adapter, merged, hpairs, hrank, hvalid, hloop, hcomplete⟩ :=
        hmerged UInt16 (stepping g) 0
      obtain ⟨hlength, happlied⟩ := List.forall₂_iff_zip.mp (mergeLoop_eq_ok hvalid hloop).2
      obtain ⟨_, hfiles⟩ := List.forall₂_iff_zip.mp hcomplete.files_merged
      rw [← List.map_fst_zip hlength.le] at hfile
      obtain ⟨⟨_, after⟩, hpair, rfl⟩ := List.mem_map.mp hfile
      exact ⟨adapter, after, hpairs, hrank, (happlied hpair).2, hfiles hpair⟩
    · obtain ⟨hsound, hpasses⟩ := targets_good hgood hfile htarget
      exact Target.fits hsound hpasses (fileTargets_spec htarget).1

theorem WellFormed.mergesSafely (h : WellFormed reader allocates input) : MergesSafely reader allocates input := by
  intro F ops finish scale
  refine ⟨mergeLora_returns_iff.mpr fun adapter hread => ?_, fun adapter merged hread hloop => ?_⟩
  · obtain ⟨hsound, hcount, _⟩ := h adapter.pairs adapter.rank (readAdapter_bare hread)
    exact (mergeLoop_returns_iff (readAdapter_valid hread).1).mpr
      (fate_returns_iff.mpr ⟨hsound, hcount⟩)
  · obtain ⟨hvalid, hkeys⟩ := readAdapter_valid hread
    obtain ⟨_, _, hapart⟩ := h adapter.pairs adapter.rank (readAdapter_bare hread)
    obtain ⟨hdone, hforall⟩ := mergeLoop_eq_ok hvalid hloop
    obtain ⟨hgood, hlength⟩ := fate_eq_done.mp hdone
    have hpasses : ∀ visit ∈ input.files.flatMap (fileVisits reader adapter.pairs adapter.rank),
        visit.Passes := fun visit hvisit => (hgood visit hvisit).2
    obtain ⟨hnodup, hapart⟩ := hapart hpasses hlength
    refine ⟨fun name hname => List.count_eq_one_of_mem hnodup ?_, ?_⟩
    · have hsame : (adapter.pairs.map Prod.fst).length ≤ ((input.files.flatMap
          (fileTargets reader adapter.pairs adapter.rank)).map Target.name).length := by
        rw [List.length_map, List.length_map, targets_flatMap, length_targets hpasses]
        exact hlength.ge
      have hperm := (List.subperm_of_subset hnodup fun _ => targets_names).perm_of_length_le hsame
      exact hperm.mem_iff.mpr hname
    · obtain ⟨hlength, happlied⟩ := List.forall₂_iff_zip.mp hforall
      refine List.forall₂_iff_zip.mpr ⟨hlength, fun {file after} hpair => ?_⟩
      have hfile := (List.of_mem_zip hpair).1
      obtain ⟨hpath, hbytes⟩ := happlied hpair
      exact fileMerged_of_apart hpath hbytes (hapart file hfile) fun target =>
        targets_good hgood hfile

/-- A merge is safe and complete for every arithmetic exactly where the tensors are well
formed. -/
theorem mergesSafely_iff (reader : JsonReader) (allocates : Nat → Bool) (input : MergeInput) :
    MergesSafely reader allocates input ↔ WellFormed reader allocates input :=
  ⟨MergesSafely.wellFormed, WellFormed.mergesSafely⟩

section Examples

/-- A reader of the compact forms of some objects. -/
def reading (known : List (List (Text × Json)))
    (hunique : ∀ entries ∈ known, (entries.map Prod.fst).Nodup) : JsonReader where
  fromSlice := fun input =>
    (known.find? fun entries => (Json.object entries).toVec = input).map .object
  header := fun input => known.find? fun entries => (Json.object entries).toVec = input
  header_unique := fun h => hunique _ (List.mem_of_find?_eq_some h)

def described (dtype rows columns start stop : String) : Json :=
  .object [("dtype".toList, .string dtype.toList),
    ("shape".toList, .array [.number rows.toList, .number columns.toList]),
    ("data_offsets".toList, .array [.number start.toList, .number stop.toList])]

/-- A file whose header is of these entries. -/
def stored (entries : List (Text × Json)) (data : List UInt8) : List UInt8 :=
  let header := (Json.object entries).toVec
  [UInt8.ofNat header.length, UInt8.ofNat (header.length / 256), 0, 0, 0, 0, 0, 0] ++ header ++ data

def rankOne : List (Text × Json) :=
  [("peft_type".toList, .string "LORA".toList), ("r".toList, .number ['1']),
    ("lora_alpha".toList, .number ['1'])]

/-- The factors of a module, of which the first ends where it is told to. -/
def moduleFactors (module stop : String) : List (Text × Json) :=
  [(("base_model.model." ++ module ++ ".lora_A.weight").toList, described "F32" "1" "1" "0" stop),
    (("base_model.model." ++ module ++ ".lora_B.weight").toList, described "F32" "1" "1" "0" "4")]

def shortFactors : List (Text × Json) := moduleFactors "q" "0"

def twoFactors : List (Text × Json) := moduleFactors "q" "4" ++ moduleFactors "v" "4"

def baseWeights : List (Text × Json) := [("q.weight".toList, described "BF16" "1" "1" "0" "2")]

def sampleReader : JsonReader := reading [rankOne, baseWeights, shortFactors, twoFactors] (by decide)

def baseFile (name : String) : CheckpointFile := ⟨name.toList, stored baseWeights [0, 0]⟩

/-- A factor with a shape of one number and no byte for it. -/
def shortInput : MergeInput :=
  ⟨(Json.object rankOne).toVec, stored shortFactors [0, 0, 0, 0], [baseFile "model.safetensors"]⟩

/-- Two pairs, and a base that has the target of the first in both of its files and no target
of the second. -/
def repeatedInput : MergeInput :=
  ⟨(Json.object rankOne).toVec, stored twoFactors [0, 0, 0, 0],
    [baseFile "model-1.safetensors", baseFile "model-2.safetensors"]⟩

def twoPairs : Pairs :=
  let factor : TensorEntry := ⟨"F32".toList, [1, 1], 353, 357⟩
  [("q.weight".toList, ⟨some factor, some factor⟩), ("v.weight".toList, ⟨some factor, some factor⟩)]

/-- Whatever is allocated, a slice that is asked of no bytes panics, and a merge that leaves a
pair out succeeds. -/
theorem mergesSafely_fails :
    ¬ MergesSafely sampleReader (fun _ => true) shortInput ∧
      ¬ MergesSafely sampleReader (fun _ => true) repeatedInput := by
  constructor
  · intro h
    have hpanics : mergeLora bare (fun _ => true) sampleReader (fun _ _ _ => .ok ()) shortInput () =
        .error .panicked := by decide +kernel
    exact ((h Unit bare (fun _ _ _ => .ok ()) ()).1 _ hpanics).1 rfl
  · intro h
    have hread : readAdapter bare sampleReader repeatedInput () =
        .ok ⟨repeatedInput.adapter, twoPairs, 1, ()⟩ := by decide +kernel
    have hloop : mergeLoop bare (fun _ => true) sampleReader ⟨repeatedInput.adapter, twoPairs, 1, ()⟩
        repeatedInput.files =
          .ok [⟨"model-1.safetensors".toList, stored baseWeights [0, 0], true⟩,
            ⟨"model-2.safetensors".toList, stored baseWeights [0, 0], true⟩] := by
      decide +kernel
    have honce := ((h Unit bare (fun _ _ _ => .ok ()) ()).2 _ _ hread hloop).once
      "v.weight".toList (by decide)
    have hnone : ((repeatedInput.files.flatMap
        (fileTargets sampleReader twoPairs 1)).map Target.name).count "v.weight".toList = 0 := by
      decide +kernel
    cases hnone.symm.trans honce

end Examples

end Main

end Riley.Lora
