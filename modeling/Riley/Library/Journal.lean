import Mathlib.Data.List.Induction
import Mathlib.Data.Multiset.MapFold
import Mathlib.Tactic.Common

/-!
Journals. Strands with a key each grow by one item at a time, and a journal gets one stamp for
each: the key, the position of the item and the item. As long as no two strands have the same
key, the stamps of a key are the items of its strand, in order.
-/

namespace Riley.Journal

structure Strand (κ α : Type) where
  key : κ
  items : List α

structure Stamp (κ α : Type) where
  key : κ
  index : Nat
  item : α

variable {κ α : Type}

/-- The stamps of an strand that grew from nothing. -/
def Strand.stamps (strand : Strand κ α) : List (Stamp κ α) :=
  strand.items.zipIdx.map fun numbered => ⟨strand.key, numbered.2, numbered.1⟩

theorem stamps_append (key : κ) (items : List α) (item : α) :
    Strand.stamps ⟨key, items ++ [item]⟩ = Strand.stamps ⟨key, items⟩ ++ [⟨key, items.length, item⟩] := by
  simp [Strand.stamps, List.zipIdx_append]

/-- How some strands grew, and the stamps for it. -/
inductive Grows : List (Stamp κ α) → Multiset (Strand κ α) → Multiset (Strand κ α) → Prop
  | refl (strands : Multiset (Strand κ α)) : Grows [] strands strands
  | push {stamps : List (Stamp κ α)} {strands rest : Multiset (Strand κ α)} {key : κ}
      {items : List α} {item : α} :
      Grows stamps strands (⟨key, items⟩ ::ₘ rest) →
      Grows (stamps ++ [⟨key, items.length, item⟩]) strands (⟨key, items ++ [item]⟩ ::ₘ rest)

variable {stamps later : List (Stamp κ α)} {strands middle grown : Multiset (Strand κ α)}

theorem Grows.trans (h : Grows stamps strands middle) (h' : Grows later middle grown) :
    Grows (stamps ++ later) strands grown := by
  induction h' with
  | refl => rwa [List.append_nil]
  | push _ ih =>
      rw [← List.append_assoc]
      exact .push (ih h)

/-- One more item of an strand among others. -/
theorem Grows.single {rest : Multiset (Strand κ α)} {key : κ} {items : List α} (item : α) :
    Grows [⟨key, items.length, item⟩] (⟨key, items⟩ ::ₘ rest) (⟨key, items ++ [item]⟩ ::ₘ rest) :=
  Grows.push (.refl _)

/-- Strands that are not looked at stay. -/
theorem Grows.beside (h : Grows stamps strands grown) (others : Multiset (Strand κ α)) :
    Grows stamps (strands + others) (grown + others) := by
  induction h with
  | refl => exact .refl _
  | push _ ih =>
      rw [Multiset.cons_add] at ih ⊢
      exact ih.push

theorem Grows.keys (h : Grows stamps strands grown) :
    grown.map Strand.key = strands.map Strand.key := by
  induction h with
  | refl => rfl
  | push _ ih => rw [← ih, Multiset.map_cons, Multiset.map_cons]

variable [DecidableEq κ]

/-- The journal tells of every strand how it grew, and of nothing else. -/
structure Tells (journal : List (Stamp κ α)) (strands : Multiset (Strand κ α)) : Prop where
  keys : (strands.map Strand.key).Nodup
  stamps : ∀ strand ∈ strands, journal.filter (·.key = strand.key) = strand.stamps
  known : ∀ stamp ∈ journal, stamp.key ∈ strands.map Strand.key

theorem Tells.nil : Tells ([] : List (Stamp κ α)) 0 where
  keys := Multiset.nodup_zero
  stamps := fun _ hstrand => absurd hstrand (Multiset.notMem_zero _)
  known := List.forall_mem_nil _

variable {journal : List (Stamp κ α)}

/-- A new strand begins with no items. -/
theorem Tells.open (h : Tells journal strands) {key : κ} (hnew : key ∉ strands.map Strand.key) :
    Tells journal (⟨key, []⟩ ::ₘ strands) where
  keys := by
    rw [Multiset.map_cons, Multiset.nodup_cons]
    exact ⟨hnew, h.keys⟩
  stamps := by
    intro strand hstrand
    rcases Multiset.mem_cons.mp hstrand with rfl | hstrand
    · change _ = []
      rw [List.filter_eq_nil_iff]
      intro stamp hstamp hkey
      have hknown := h.known stamp hstamp
      rw [of_decide_eq_true hkey] at hknown
      exact hnew hknown
    · exact h.stamps strand hstrand
  known := by
    intro stamp hstamp
    rw [Multiset.map_cons]
    exact Multiset.mem_cons_of_mem (h.known stamp hstamp)

/-- Several new strands begin at once. -/
theorem Tells.openAll (h : Tells journal strands) {keys : List κ}
    (hnew : ((keys : Multiset κ) + strands.map Strand.key).Nodup) :
    Tells journal ((keys.map fun key => ⟨key, []⟩ : List (Strand κ α)) + strands) := by
  induction keys with
  | nil =>
      change Tells journal (0 + strands)
      rwa [Multiset.zero_add]
  | cons key rest ih =>
      rw [← Multiset.cons_coe, Multiset.cons_add, Multiset.nodup_cons] at hnew
      rw [List.map_cons, ← Multiset.cons_coe, Multiset.cons_add]
      apply (ih hnew.2).open
      rw [Multiset.map_add, Multiset.map_coe, List.map_map]
      have hkeys : (Strand.key ∘ fun key : κ => (⟨key, []⟩ : Strand κ α)) = id := rfl
      rw [hkeys, List.map_id]
      exact hnew.1

theorem Tells.push {rest : Multiset (Strand κ α)} {key : κ} {items : List α}
    (h : Tells journal (⟨key, items⟩ ::ₘ rest)) (item : α) :
    Tells (journal ++ [⟨key, items.length, item⟩]) (⟨key, items ++ [item]⟩ ::ₘ rest) where
  keys := by
    have hkeys := h.keys
    rw [Multiset.map_cons] at hkeys ⊢
    exact hkeys
  stamps := by
    intro strand hstrand
    rw [List.filter_append]
    rcases Multiset.mem_cons.mp hstrand with rfl | hother
    · have hbefore := h.stamps ⟨key, items⟩ (Multiset.mem_cons_self _ _)
      rw [hbefore, stamps_append]
      simp
    · have hkeys := h.keys
      rw [Multiset.map_cons, Multiset.nodup_cons] at hkeys
      have hne : key ≠ strand.key := by
        rintro rfl
        have hmem := Multiset.mem_map_of_mem Strand.key hother
        exact hkeys.1 hmem
      rw [h.stamps strand (Multiset.mem_cons_of_mem hother)]
      simp [hne]
  known := by
    intro stamp hstamp
    rw [Multiset.map_cons]
    rcases List.mem_append.mp hstamp with hold | hlast
    · have hknown := h.known stamp hold
      rwa [Multiset.map_cons] at hknown
    · rw [List.mem_singleton.mp hlast]
      exact Multiset.mem_cons_self _ _

/-- A journal that is kept goes on telling. -/
theorem Tells.grow (h : Tells journal strands) (hgrows : Grows stamps strands grown) :
    Tells (journal ++ stamps) grown := by
  induction hgrows with
  | refl => rwa [List.append_nil]
  | push _ ih =>
      rw [← List.append_assoc]
      exact (ih h).push _

end Riley.Journal
