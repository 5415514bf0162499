import Mathlib.Tactic.Common
import Mathlib.Tactic.Ring

/-!
Numbers of a fixed width as bytes, the least significant byte first, and rows of them.
-/

namespace Riley.LittleEndian

/-- The bytes of a number, of which no more than `width` are kept. -/
def toBytes : Nat → Nat → List UInt8
  | 0, _ => []
  | width + 1, value => UInt8.ofNat (value % 256) :: toBytes width (value / 256)

def ofBytes : List UInt8 → Nat
  | [] => 0
  | byte :: rest => byte.toNat + 256 * ofBytes rest

/-- So many numbers of a width, read one behind the other. -/
def readAll (width : Nat) : Nat → List UInt8 → List Nat
  | 0, _ => []
  | count + 1, bytes => ofBytes (bytes.take width) :: readAll width count (bytes.drop width)

@[simp] theorem length_toBytes (width value : Nat) : (toBytes width value).length = width := by
  induction width generalizing value with
  | zero => rfl
  | succ width ih => simp [toBytes, ih]

theorem ofBytes_toBytes {width value : Nat} (h : value < 256 ^ width) :
    ofBytes (toBytes width value) = value := by
  induction width generalizing value with
  | zero =>
      rw [Nat.pow_zero] at h
      obtain rfl : value = 0 := by omega
      rfl
  | succ width ih =>
      have hbyte : (UInt8.ofNat (value % 256)).toNat = value % 256 :=
        UInt8.toNat_ofNat_of_lt' (Nat.mod_lt _ (by decide))
      have hrest : value / 256 < 256 ^ width := by
        rw [Nat.pow_succ] at h
        exact Nat.div_lt_of_lt_mul (by rwa [Nat.mul_comm] at h)
      rw [toBytes, ofBytes, hbyte, ih hrest]
      omega

variable {α : Type}

theorem length_flatMap_toBytes (width : Nat) (toNat : α → Nat) (values : List α) :
    (values.flatMap fun value => toBytes width (toNat value)).length = values.length * width := by
  induction values with
  | nil => simp
  | cons value rest ih =>
      rw [List.flatMap_cons, List.length_append, ih, length_toBytes, List.length_cons,
        Nat.succ_mul, Nat.add_comm]

/-- Numbers that fit their width are read back. -/
theorem readAll_flatMap (width : Nat) (toNat : α → Nat) (values : List α) (hwidth : 0 < width)
    (h : ∀ value ∈ values, toNat value < 256 ^ width) :
    readAll width ((values.flatMap fun value => toBytes width (toNat value)).length / width)
      (values.flatMap fun value => toBytes width (toNat value)) = values.map toNat := by
  rw [length_flatMap_toBytes, Nat.mul_div_cancel _ hwidth]
  induction values with
  | nil => rfl
  | cons value rest ih =>
      have hrest := ih fun other hmem => h other (List.mem_cons_of_mem _ hmem)
      have htake : ∀ bytes, (toBytes width (toNat value) ++ bytes).take width =
          toBytes width (toNat value) := fun bytes => List.take_left' (length_toBytes _ _)
      have hdrop : ∀ bytes, (toBytes width (toNat value) ++ bytes).drop width = bytes :=
        fun bytes => List.drop_left' (length_toBytes _ _)
      rw [List.flatMap_cons, List.length_cons, readAll, htake, hdrop,
        ofBytes_toBytes (h value List.mem_cons_self), hrest, List.map_cons]

end Riley.LittleEndian
