import Riley.Checkpoint.Lora
import Riley.Library.Outcome

/-!
What one merge does. It rewrites the cells of a weight that its shape counts, each by the
product of a row and a column, and it panics where the shape asks for more than the
tensors hold.
-/

namespace Riley.Lora

open Cells (cell rewrite)
open Offsets (slice slice_eq_none slice_eq_some slice_of_le)
open Outcome (except_bind_eq_ok)
open Server (Json)
open Utf8 (Text)

variable {F : Type}

section Products

variable (ops : Arithmetic F) (scaling : F) (a b : List F) (columns rank : Nat)

/-- The first terms of a row of `B` against a column of `A`, added from the first on. -/
def dot (row column : Nat) : Nat → F
  | 0 => ops.zero
  | k + 1 => ops.add (dot row column k)
      (ops.mul (b.getD (row * rank + k) ops.zero) (a.getD (k * columns + column) ops.zero))

/-- How the cell of that number is rewritten. -/
def mergedAt (index : Nat) : UInt16 → UInt16 :=
  mergedCell ops scaling (dot ops a b columns rank (index / columns) (index % columns) rank)

/-- A row is to be had, and a weight and the numbers of its factors suffice for its shape. -/
def Fits (allocates : Nat → Bool) (weightLen rows columns aLen bLen rank : Nat) : Prop :=
  granted allocates (columns * 4) = true ∧
    (rows = 0 ∨ rows * rank ≤ bLen ∧ rank * columns ≤ aLen ∧ rows * columns * 2 ≤ weightLen)

instance (allocates : Nat → Bool) (weightLen rows columns aLen bLen rank : Nat) :
    Decidable (Fits allocates weightLen rows columns aLen bLen rank) :=
  inferInstanceAs (Decidable (_ ∧ _))

variable {ops scaling a b columns rank} {row : Nat} {weight : List UInt8}

theorem deltaRow_eq_some {k : Nat} (ha : k * columns ≤ a.length)
    (hb : row * rank + k ≤ b.length) :
    deltaRow ops a b columns rank row k =
      some ((List.range columns).map fun column => dot ops a b columns rank row column k) := by
  induction k with
  | zero => simp [deltaRow, dot, List.map_const']
  | succ k ih =>
      rw [Nat.succ_mul] at ha
      have hleft : b[row * rank + k]? = some (b.getD (row * rank + k) ops.zero) := by
        rw [List.getElem?_eq_getElem (by omega), List.getD_eq_getElem _ _ (by omega)]
      have hright := @slice_of_le F a (k * columns) ((k + 1) * columns)
        (by rw [Nat.succ_mul]; omega) (by rw [Nat.succ_mul]; omega)
      rw [deltaRow, ih (by omega) (by omega), hleft, hright]
      simp only [Option.bind_eq_bind, Option.bind_some, Option.some.injEq]
      apply List.ext_getElem
      · simp [Nat.succ_mul]
        omega
      · intro column hfirst hsecond
        have hcolumn : column < columns := by simpa using hsecond
        have hvalue : a.getD (k * columns + column) ops.zero = a[k * columns + column] := by
          rw [List.getD_eq_getElem _ _ (by omega)]
        simp only [List.getElem_zipWith, List.getElem_map, List.getElem_range, List.getElem_take,
          List.getElem_drop, dot, hvalue]

theorem deltaRow_eq_none {k : Nat}
    (h : ¬ ((k + 1) * columns ≤ a.length ∧ row * rank + (k + 1) ≤ b.length)) :
    deltaRow ops a b columns rank row (k + 1) = none := by
  rw [deltaRow]
  cases deltaRow ops a b columns rank row k with
  | none => rfl
  | some delta =>
      by_cases hb : row * rank + k < b.length
      · have hslice : slice a (k * columns) ((k + 1) * columns) = none := by
          rw [slice_eq_none]
          intro hrange
          exact h ⟨hrange.2, by omega⟩
        simp [hslice]
      · simp [List.getElem?_eq_none (Nat.not_lt.mp hb)]

theorem mergeCells_eq_some {start column : Nat} {delta : List F} (hcolumn : column ≤ delta.length)
    (hweight : start + 2 * column ≤ weight.length) :
    mergeCells ops scaling start delta weight column =
      some (rewrite (fun index => mergedCell ops scaling (delta.getD index ops.zero)) start column
        weight) := by
  induction column with
  | zero => rfl
  | succ column ih =>
      have hvalue : delta[column]? = some (delta.getD column ops.zero) := by
        rw [List.getElem?_eq_getElem (by omega), List.getD_eq_getElem _ _ (by omega)]
      rw [mergeCells, ih (by omega) (by omega), rewrite, Nat.mul_comm column 2, hvalue]
      obtain ⟨base, hbase⟩ := @Cells.cell_exists
        (rewrite (fun index => mergedCell ops scaling (delta.getD index ops.zero)) start column
          weight) (start + 2 * column) (by rw [Cells.length_rewrite]; omega)
      simp only [Option.bind_eq_bind, Option.bind_some, hbase]

theorem length_mergeCells {start column : Nat} {delta : List F} {merged : List UInt8}
    (h : mergeCells ops scaling start delta weight column = some merged) :
    merged.length = weight.length := by
  induction column generalizing merged with
  | zero =>
      cases h
      rfl
  | succ column ih =>
      rw [mergeCells] at h
      obtain ⟨before, hbefore, h⟩ := Option.bind_eq_some_iff.mp h
      obtain ⟨value, _, h⟩ := Option.bind_eq_some_iff.mp h
      obtain ⟨base, _, h⟩ := Option.bind_eq_some_iff.mp h
      cases h
      rw [Cells.length_setCell, ih hbefore]

theorem mergeCells_eq_none {start column : Nat} {delta : List F}
    (h : weight.length < start + 2 * (column + 1)) :
    mergeCells ops scaling start delta weight (column + 1) = none := by
  rw [mergeCells]
  cases hbefore : mergeCells ops scaling start delta weight column with
  | none => rfl
  | some before =>
      have hlength := length_mergeCells hbefore
      have hcell : cell before (start + column * 2) = none := by
        cases hcell : cell before (start + column * 2) with
        | none => rfl
        | some value =>
            obtain ⟨_, hsecond⟩ := Cells.cell_eq_some.mp hcell
            obtain ⟨hlt, _⟩ := List.getElem?_eq_some_iff.mp hsecond
            omega
      cases delta[column]? <;> simp [hcell]

theorem mergeRows_eq_some {rows : Nat} (ha : rank * columns ≤ a.length)
    (hb : rows * rank ≤ b.length) (hweight : rows * columns * 2 ≤ weight.length) :
    mergeRows ops scaling a b columns rank weight rows =
      some (rewrite (mergedAt ops scaling a b columns rank) 0 (rows * columns) weight) := by
  induction rows with
  | zero => simp [mergeRows, rewrite]
  | succ rows ih =>
      rw [Nat.succ_mul] at hb hweight
      have hdelta := @deltaRow_eq_some F ops a b columns rank rows rank ha (by omega)
      rw [mergeRows, ih (by omega) (by omega), Nat.succ_mul, Cells.rewrite_add]
      simp only [Option.bind_eq_bind, Option.bind_some, hdelta, List.length_map, List.length_range]
      rw [mergeCells_eq_some (by simp) (by rw [Cells.length_rewrite]; omega), Nat.zero_add,
        Nat.mul_comm 2]
      refine congrArg some (Cells.rewrite_congr fun index hindex => ?_)
      have hdiv : (rows * columns + index) / columns = rows := by
        rw [Nat.mul_comm, Nat.mul_add_div (by omega), Nat.div_eq_of_lt hindex, Nat.add_zero]
      have hmod : (rows * columns + index) % columns = index := by
        rw [Nat.mul_comm, Nat.mul_add_mod, Nat.mod_eq_of_lt hindex]
      have hvalue : ((List.range columns).map fun column =>
          dot ops a b columns rank rows column rank).getD index ops.zero =
            dot ops a b columns rank rows index rank := by
        rw [List.getD_eq_getElem _ _ (by simpa using hindex), List.getElem_map,
          List.getElem_range]
      rw [mergedAt, hdiv, hmod, hvalue]

theorem length_mergeRows {rows : Nat} {merged : List UInt8}
    (h : mergeRows ops scaling a b columns rank weight rows = some merged) :
    merged.length = weight.length := by
  induction rows generalizing merged with
  | zero =>
      cases h
      rfl
  | succ rows ih =>
      rw [mergeRows] at h
      obtain ⟨before, hbefore, h⟩ := Option.bind_eq_some_iff.mp h
      obtain ⟨delta, _, h⟩ := Option.bind_eq_some_iff.mp h
      rw [length_mergeCells h, ih hbefore]

theorem mergeRows_eq_none {rows : Nat} (hrank : 0 < rank)
    (h : ¬ ((rows + 1) * rank ≤ b.length ∧ rank * columns ≤ a.length ∧
      (rows + 1) * columns * 2 ≤ weight.length)) :
    mergeRows ops scaling a b columns rank weight (rows + 1) = none := by
  obtain ⟨before, rfl⟩ : ∃ before, rank = before + 1 := ⟨rank - 1, by omega⟩
  rw [mergeRows]
  cases hbefore : mergeRows ops scaling a b columns (before + 1) weight rows with
  | none => rfl
  | some merged =>
      have hlength := length_mergeRows hbefore
      rw [Nat.succ_mul, Nat.succ_mul rows columns] at h
      by_cases hfactors : (before + 1) * columns ≤ a.length ∧
          rows * (before + 1) + (before + 1) ≤ b.length
      · have hweight : merged.length < rows * columns * 2 + 2 * columns := by omega
        obtain ⟨last, rfl⟩ : ∃ last, columns = last + 1 := by
          refine ⟨columns - 1, ?_⟩
          rcases Nat.eq_zero_or_pos columns with rfl | hpos
          · omega
          · omega
        simp only [Option.bind_eq_bind, Option.bind_some,
          deltaRow_eq_some hfactors.1 hfactors.2, List.length_map, List.length_range]
        exact mergeCells_eq_none hweight
      · simp only [Option.bind_eq_bind, Option.bind_some, deltaRow_eq_none hfactors,
          Option.bind_none]

/-- A merge rewrites the cells of the shape, if all that it asks for is there. -/
theorem mergeInto_eq {allocates : Nat → Bool} {rows : Nat} (hrank : 0 < rank) :
    mergeInto ops allocates weight rows columns a b rank scaling =
      if Fits allocates weight.length rows columns a.length b.length rank then
        some (rewrite (mergedAt ops scaling a b columns rank) 0 (rows * columns) weight)
      else none := by
  by_cases hfits : Fits allocates weight.length rows columns a.length b.length rank
  · rw [if_pos hfits, mergeInto, if_pos hfits.1]
    rcases hfits.2 with rfl | ⟨hb, ha, hweight⟩
    · simp [mergeRows, rewrite]
    · exact mergeRows_eq_some ha hb hweight
  · rw [if_neg hfits, mergeInto]
    split
    · next hgranted =>
        cases rows with
        | zero => exact absurd ⟨hgranted, .inl rfl⟩ hfits
        | succ rows => exact mergeRows_eq_none hrank fun h => hfits ⟨hgranted, .inr h⟩
    · rfl

end Products

section Values

variable (ops : Arithmetic F)

/-- A type that the factors may have. -/
def Readable (dtype : Text) : Prop := dtype = "F32".toList ∨ dtype = "BF16".toList

instance (dtype : Text) : Decidable (Readable dtype) := inferInstanceAs (Decidable (_ ∨ _))

namespace TensorEntry

/-- The bytes of a tensor, whose places are in order. -/
def bytes (entry : TensorEntry) (file : List UInt8) : List UInt8 :=
  (file.drop entry.start).take (entry.stop - entry.start)

def values (entry : TensorEntry) (file : List UInt8) : List F :=
  if entry.dtype = "F32".toList then floats ops (entry.bytes file) else halves ops (entry.bytes file)

/-- How many numbers the bytes of a tensor hold, whatever its shape says. -/
def valueCount (entry : TensorEntry) : Nat :=
  (entry.stop - entry.start) / if entry.dtype = "F32".toList then 4 else 2

end TensorEntry

theorem length_floats (bytes : List UInt8) : (floats ops bytes).length = bytes.length / 4 := by
  fun_induction floats ops bytes with
  | case1 first second third fourth rest ih =>
      simp only [List.length_cons, ih]
      omega
  | case2 bytes hshort =>
      rcases bytes with _ | ⟨first, _ | ⟨second, _ | ⟨third, _ | ⟨fourth, rest⟩⟩⟩⟩
      · rfl
      · simp
      · simp
      · simp
      · exact absurd rfl (hshort first second third fourth rest)

theorem length_halves (bytes : List UInt8) : (halves ops bytes).length = bytes.length / 2 := by
  fun_induction halves ops bytes with
  | case1 first second rest ih =>
      simp only [List.length_cons, ih]
      omega
  | case2 bytes hshort =>
      rcases bytes with _ | ⟨first, _ | ⟨second, rest⟩⟩
      · rfl
      · simp
      · exact absurd rfl (hshort first second rest)

theorem length_values {entry : TensorEntry} {file : List UInt8} (hstop : entry.stop ≤ file.length) :
    (entry.values ops file).length = entry.valueCount := by
  have hbytes : (entry.bytes file).length = entry.stop - entry.start := by
    rw [TensorEntry.bytes, List.length_take, List.length_drop]
    omega
  unfold TensorEntry.values TensorEntry.valueCount
  split
  · rw [length_floats, hbytes]
  · rw [length_halves, hbytes]

theorem toF32_of_readable {entry : TensorEntry} (h : Readable entry.dtype) (file : List UInt8) :
    toF32 ops (entry.bytes file) entry.dtype = .ok (entry.values ops file) := by
  unfold toF32 TensorEntry.values
  split
  · rfl
  · next hother => rw [if_pos (h.resolve_left hother)]

theorem toF32_of_not_readable {dtype : Text} (h : ¬ Readable dtype) (bytes : List UInt8) :
    ∃ message, toF32 ops bytes dtype = .error (.invalid message) := by
  rw [Readable, not_or] at h
  rw [toF32, if_neg h.1, if_neg h.2]
  exact ⟨_, rfl⟩

end Values

section Targets

/-- A weight with the factors that are for it, whose shapes agree. -/
structure Target where
  name : Text
  a : TensorEntry
  b : TensorEntry
  weight : TensorEntry
  rows : Nat
  columns : Nat

/-- The target of an entry, if it passes what is checked before its bytes are taken. -/
def target? (pairs : Pairs) (rank : Nat) (name : Text) (weight : TensorEntry) : Option Target :=
  match Entries.get name pairs, weight.shape with
  | some ⟨some a, some b⟩, [rows, columns] =>
      if weight.dtype = "BF16".toList ∧ a.shape = [rank, columns] ∧ b.shape = [rows, rank] then
        some ⟨name, a, b, weight, rows, columns⟩
      else none
  | _, _ => none

namespace Target

/-- The tensors begin before they end, and hold what their shapes ask for. The later ones
count where the types of the earlier ones can be read. -/
def Sound (target : Target) (allocates : Nat → Bool) (rank : Nat) : Prop :=
  target.a.start ≤ target.a.stop ∧
    (Readable target.a.dtype → target.b.start ≤ target.b.stop ∧
      (Readable target.b.dtype → target.weight.start ≤ target.weight.stop ∧
        Fits allocates (target.weight.stop - target.weight.start) target.rows target.columns
          target.a.valueCount target.b.valueCount rank))

instance (target : Target) (allocates : Nat → Bool) (rank : Nat) :
    Decidable (target.Sound allocates rank) :=
  inferInstanceAs (Decidable (_ ∧ _))

/-- The types of both factors can be read. -/
def Passes (target : Target) : Prop := Readable target.a.dtype ∧ Readable target.b.dtype

instance (target : Target) : Decidable target.Passes := inferInstanceAs (Decidable (_ ∧ _))

/-- The cells of a target. -/
def count (target : Target) : Nat := target.rows * target.columns

variable (ops : Arithmetic F) (adapter : Adapter F)

/-- How the cell of that number is rewritten. -/
def rewriting (target : Target) : Nat → UInt16 → UInt16 :=
  mergedAt ops adapter.scaling (target.a.values ops adapter.file)
    (target.b.values ops adapter.file) target.columns adapter.rank

def apply (target : Target) (file : List UInt8) : List UInt8 :=
  rewrite (target.rewriting ops adapter) target.weight.start target.count file

@[simp] theorem length_apply (target : Target) (file : List UInt8) :
    (target.apply ops adapter file).length = file.length := Cells.length_rewrite _ _ _ _

end Target

variable {ops : Arithmetic F} {allocates : Nat → Bool} {adapter : Adapter F}

theorem slice_entry {entry : TensorEntry} {file : List UInt8} (horder : entry.start ≤ entry.stop)
    (hstop : entry.stop ≤ file.length) :
    slice file entry.start entry.stop = some (entry.bytes file) := slice_of_le horder hstop

theorem slice_entry_none {entry : TensorEntry} {file : List UInt8}
    (horder : ¬ entry.start ≤ entry.stop) : slice file entry.start entry.stop = none :=
  slice_eq_none.mpr fun h => horder h.1

theorem putSlice_rewrite {f : Nat → UInt16 → UInt16} {file part : List UInt8}
    {start stop count : Nat} (hslice : slice file start stop = some part)
    (hcount : 2 * count ≤ part.length) :
    putSlice file start (rewrite f 0 count part) = rewrite f start count file := by
  obtain ⟨before, after, rfl, rfl, _⟩ := slice_eq_some.mp hslice
  rw [← Cells.rewrite_append f hcount, putSlice, Cells.length_rewrite, List.append_assoc before,
    List.take_left, ← List.drop_drop, List.drop_left, List.drop_left]

theorem fits_count {weightLen rows columns aLen bLen rank : Nat}
    (h : Fits allocates weightLen rows columns aLen bLen rank) :
    2 * (rows * columns) ≤ weightLen := by
  rcases h.2 with rfl | ⟨_, _, hweight⟩
  · simp
  · omega

/-- The slices and the numbers of a target, one after another. -/
theorem mergePair_target (hrank : 0 < adapter.rank) {name : Text} {a b weight : TensorEntry}
    {rows columns : Nat} {file : List UInt8} (ha : a.stop ≤ adapter.file.length)
    (hb : b.stop ≤ adapter.file.length) (hweight : weight.stop ≤ file.length) :
    let target : Target := ⟨name, a, b, weight, rows, columns⟩
    let merging : Except LoraError (List UInt8) := do
      let aBytes ← orError (slice adapter.file a.start a.stop) .panicked
      let aValues ← toF32 ops aBytes a.dtype
      let bBytes ← orError (slice adapter.file b.start b.stop) .panicked
      let bValues ← toF32 ops bBytes b.dtype
      let weightBytes ← orError (slice file weight.start weight.stop) .panicked
      let merged ← orError
        (mergeInto ops allocates weightBytes rows columns aValues bValues adapter.rank adapter.scaling)
        .panicked
      .ok (putSlice file weight.start merged)
    if ¬ target.Sound allocates adapter.rank then merging = .error .panicked
    else if ¬ target.Passes then ∃ message, merging = .error (.invalid message)
    else merging = .ok (target.apply ops adapter file) := by
  intro target merging
  by_cases haOrder : a.start ≤ a.stop
  · have haSlice := slice_entry haOrder ha
    by_cases haReads : Readable a.dtype
    · have haValues := toF32_of_readable ops haReads adapter.file
      by_cases hbOrder : b.start ≤ b.stop
      · have hbSlice := slice_entry hbOrder hb
        by_cases hbReads : Readable b.dtype
        · have hbValues := toF32_of_readable ops hbReads adapter.file
          have hpasses : target.Passes := ⟨haReads, hbReads⟩
          by_cases horder : weight.start ≤ weight.stop
          · have hslice := slice_entry horder hweight
            have hlength : (weight.bytes file).length = weight.stop - weight.start := by
              rw [TensorEntry.bytes, List.length_take, List.length_drop]
              omega
            have hinto := @mergeInto_eq F ops adapter.scaling (a.values ops adapter.file)
              (b.values ops adapter.file) columns adapter.rank (weight.bytes file) allocates rows
              hrank
            rw [length_values ops ha, length_values ops hb, hlength] at hinto
            by_cases hfits : Fits allocates (weight.stop - weight.start) rows columns a.valueCount
                b.valueCount adapter.rank
            · have hsound : target.Sound allocates adapter.rank :=
                ⟨haOrder, fun _ => ⟨hbOrder, fun _ => ⟨horder, hfits⟩⟩⟩
              have hput := putSlice_rewrite (f := target.rewriting ops adapter) hslice
                (by rw [hlength]; exact fits_count hfits)
              rw [if_pos hfits] at hinto
              rw [if_neg (not_not.mpr hsound), if_neg (not_not.mpr hpasses), Target.apply,
                Target.count, ← hput]
              simp only [merging, haSlice, haValues, hbSlice, hbValues, hslice, hinto, orError, bind,
                Except.bind, target, Target.rewriting]
            · have hunsound : ¬ target.Sound allocates adapter.rank := fun h =>
                hfits ((h.2 haReads).2 hbReads).2
              rw [if_neg hfits] at hinto
              rw [if_pos hunsound]
              simp only [merging, haSlice, haValues, hbSlice, hbValues, hslice, hinto, orError, bind,
                Except.bind]
          · have hunsound : ¬ target.Sound allocates adapter.rank := fun h =>
              horder ((h.2 haReads).2 hbReads).1
            rw [if_pos hunsound]
            simp only [merging, haSlice, haValues, hbSlice, hbValues, slice_entry_none horder,
              orError, bind, Except.bind]
        · have hsound : target.Sound allocates adapter.rank :=
            ⟨haOrder, fun _ => ⟨hbOrder, fun h => absurd h hbReads⟩⟩
          obtain ⟨message, hmessage⟩ := toF32_of_not_readable ops hbReads (b.bytes adapter.file)
          rw [if_neg (not_not.mpr hsound), if_pos fun h => hbReads h.2]
          refine ⟨message, ?_⟩
          simp only [merging, haSlice, haValues, hbSlice, hmessage, orError, bind, Except.bind]
      · have hunsound : ¬ target.Sound allocates adapter.rank := fun h => hbOrder (h.2 haReads).1
        rw [if_pos hunsound]
        simp only [merging, haSlice, haValues, slice_entry_none hbOrder, orError, bind, Except.bind]
    · have hsound : target.Sound allocates adapter.rank := ⟨haOrder, fun h => absurd h haReads⟩
      obtain ⟨message, hmessage⟩ := toF32_of_not_readable ops haReads (a.bytes adapter.file)
      rw [if_neg (not_not.mpr hsound), if_pos fun h => haReads h.1]
      refine ⟨message, ?_⟩
      simp only [merging, haSlice, hmessage, orError, bind, Except.bind]
  · have hunsound : ¬ target.Sound allocates adapter.rank := fun h => haOrder h.1
    rw [if_pos hunsound]
    simp only [merging, slice_entry_none haOrder, orError, bind, Except.bind]

/-- A target whose factors are read from the adapter panics, is refused or is merged. -/
theorem mergePair_spec (hrank : 0 < adapter.rank) {name : Text} {a b weight : TensorEntry}
    {file : List UInt8} (ha : a.stop ≤ adapter.file.length) (hb : b.stop ≤ adapter.file.length)
    (hweight : weight.stop ≤ file.length)
    (hpair : Entries.get name adapter.pairs = some ⟨some a, some b⟩) :
    match target? adapter.pairs adapter.rank name weight with
    | none => ∃ message, mergePair ops allocates adapter a b weight file = .error (.invalid message)
    | some target =>
        if ¬ target.Sound allocates adapter.rank then
          mergePair ops allocates adapter a b weight file = .error .panicked
        else if ¬ target.Passes then
          ∃ message, mergePair ops allocates adapter a b weight file = .error (.invalid message)
        else mergePair ops allocates adapter a b weight file = .ok (target.apply ops adapter file) := by
  unfold target? mergePair
  rw [hpair]
  rcases weight.shape with _ | ⟨rows, _ | ⟨columns, _ | ⟨_, _⟩⟩⟩
  · exact ⟨_, rfl⟩
  · exact ⟨_, rfl⟩
  · dsimp only
    by_cases hdtype : weight.dtype = "BF16".toList
    · by_cases hshapes : a.shape = [adapter.rank, columns] ∧ b.shape = [rows, adapter.rank]
      · have hagree : ¬ (a.shape ≠ [adapter.rank, columns] ∨ b.shape ≠ [rows, adapter.rank]) := by
          rw [not_or, not_not, not_not]
          exact hshapes
        rw [if_pos ⟨hdtype, hshapes⟩, if_neg (not_not.mpr hdtype), if_neg hagree]
        exact mergePair_target hrank ha hb hweight
      · have hdisagree : a.shape ≠ [adapter.rank, columns] ∨ b.shape ≠ [rows, adapter.rank] :=
          not_and_or.mp hshapes
        rw [if_neg fun h => hshapes h.2, if_neg (not_not.mpr hdtype), if_pos hdisagree]
        exact ⟨_, rfl⟩
    · rw [if_neg fun h => hdtype h.1, if_pos hdtype]
      exact ⟨_, rfl⟩
  · exact ⟨_, rfl⟩

end Targets

end Riley.Lora
