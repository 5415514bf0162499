import Mathlib.Data.List.Induction
import Mathlib.Tactic.Common

/-!
A map kept as the list of its entries, in the order in which their keys came in.
Writing to a key that is there keeps its place, and taking an entry out moves the
last one there.
-/

namespace Riley.Entries

variable {κ β : Type*} [DecidableEq κ]

def get (key : κ) (entries : List (κ × β)) : Option β :=
  (entries.find? (·.1 = key)).map Prod.snd

def insert (key : κ) (value : β) : List (κ × β) → List (κ × β)
  | [] => [(key, value)]
  | entry :: rest =>
      if entry.1 = key then (key, value) :: rest else entry :: insert key value rest

/-- The map of pairs that are written one after another. -/
def collect (pairs : List (κ × β)) : List (κ × β) :=
  pairs.foldl (fun entries pair => insert pair.1 pair.2 entries) []

def swapRemove (key : κ) : List (κ × β) → List (κ × β)
  | [] => []
  | entry :: rest =>
      if entry.1 = key then
        match rest.getLast? with
        | none => []
        | some last => last :: rest.dropLast
      else entry :: swapRemove key rest

section Reading

@[simp] theorem get_nil (key : κ) : get key ([] : List (κ × β)) = none := rfl

theorem get_cons (key : κ) (entry : κ × β) (rest : List (κ × β)) :
    get key (entry :: rest) = if entry.1 = key then some entry.2 else get key rest := by
  unfold get
  by_cases h : entry.1 = key
  · rw [List.find?_cons_of_pos (by simpa using h), if_pos h]
    rfl
  · rw [List.find?_cons_of_neg (by simpa using h), if_neg h]

theorem get_insert (key other : κ) (value : β) (entries : List (κ × β)) :
    get other (insert key value entries) =
      if key = other then some value else get other entries := by
  induction entries with
  | nil => exact get_cons other (key, value) []
  | cons entry rest ih =>
      by_cases hentry : entry.1 = key
      · simp only [insert, hentry, if_true, get_cons]
        split <;> rfl
      · simp only [insert, hentry, if_false, get_cons, ih]
        split
        · next hother =>
            rw [if_neg (fun heq => hentry (hother.trans heq.symm))]
        · rfl

@[simp] theorem get_insert_self (key : κ) (value : β) (entries : List (κ × β)) :
    get key (insert key value entries) = some value := by
  rw [get_insert, if_pos rfl]

theorem get_insert_of_ne {key other : κ} (h : key ≠ other) (value : β)
    (entries : List (κ × β)) : get other (insert key value entries) = get other entries := by
  rw [get_insert, if_neg h]

theorem get_append (key : κ) (first second : List (κ × β)) :
    get key (first ++ second) = (get key first).or (get key second) := by
  unfold get
  rw [List.find?_append]
  cases first.find? (·.1 = key) <;> rfl

theorem get_eq_none {key : κ} {entries : List (κ × β)} (h : key ∉ entries.map Prod.fst) :
    get key entries = none := by
  unfold get
  rw [Option.map_eq_none_iff, List.find?_eq_none]
  intro entry hmem hkey
  apply h
  rw [← of_decide_eq_true hkey]
  exact List.mem_map_of_mem hmem

theorem get_isSome {key : κ} {entries : List (κ × β)} :
    (get key entries).isSome = true ↔ key ∈ entries.map Prod.fst := by
  induction entries with
  | nil => simp
  | cons entry rest ih =>
      rw [get_cons, List.map_cons, List.mem_cons]
      by_cases h : entry.1 = key
      · simp [h]
      · simp [h, ih, Ne.symm h]

/-- A key that is written is new or was there. -/
theorem mem_keys_insert {key other : κ} {value : β} {entries : List (κ × β)} :
    other ∈ (insert key value entries).map Prod.fst ↔
      other = key ∨ other ∈ entries.map Prod.fst := by
  rw [← get_isSome, ← get_isSome, get_insert]
  by_cases h : key = other
  · simp [h]
  · simp [h, Ne.symm h]

theorem nodup_insert {key : κ} {value : β} {entries : List (κ × β)}
    (h : (entries.map Prod.fst).Nodup) : ((insert key value entries).map Prod.fst).Nodup := by
  induction entries with
  | nil => simp [insert]
  | cons entry rest ih =>
      obtain ⟨hnew, hrest⟩ := List.nodup_cons.mp h
      rw [insert]
      split
      · next hkey =>
          subst hkey
          exact List.nodup_cons.mpr ⟨hnew, hrest⟩
      · next hkey =>
          refine List.nodup_cons.mpr ⟨fun hmem => ?_, ih hrest⟩
          rcases mem_keys_insert.mp hmem with heq | hmem
          · exact hkey heq
          · exact hnew hmem

/-- Taking an entry out leaves the others, wherever they are now. -/
theorem get_swapRemove {key other : κ} {entries : List (κ × β)}
    (hkeys : (entries.map Prod.fst).Nodup) (hother : other ≠ key) :
    get other (swapRemove key entries) = get other entries := by
  induction entries with
  | nil => rfl
  | cons entry rest ih =>
      obtain ⟨-, hrest⟩ := List.nodup_cons.mp hkeys
      simp only [swapRemove]
      split
      · next hentry =>
          rw [get_cons other entry, if_neg (fun heq => hother (heq.symm.trans hentry))]
          split
          · next hlast => rw [List.getLast?_eq_none_iff.mp hlast]
          · next last hlast =>
              obtain ⟨before, rfl⟩ := List.getLast?_eq_some_iff.mp hlast
              rw [List.map_append] at hrest
              have hfresh : last.1 ∉ before.map Prod.fst := fun hmem =>
                (List.nodup_append.mp hrest).2.2 _ hmem _ List.mem_cons_self rfl
              rw [List.dropLast_concat, get_append, get_cons, get_cons]
              split
              · next heq => rw [← heq, get_eq_none hfresh, Option.none_or]
              · rw [get_nil, Option.or_none]
      · rw [get_cons, get_cons, ih hrest]

end Reading

section Collecting

theorem collect_snoc (pairs : List (κ × β)) (pair : κ × β) :
    collect (pairs ++ [pair]) = insert pair.1 pair.2 (collect pairs) := by
  unfold collect
  rw [List.foldl_append]
  rfl

theorem get_collect {pairs : List (κ × β)} {pair : κ × β} (hmem : pair ∈ pairs) :
    ∃ value, get pair.1 (collect pairs) = some value ∧ (pair.1, value) ∈ pairs := by
  induction pairs using List.reverseRecOn with
  | nil => cases hmem
  | append_singleton pairs last ih =>
      rw [collect_snoc]
      by_cases heq : last.1 = pair.1
      · refine ⟨last.2, ?_, ?_⟩
        · rw [get_insert, if_pos heq]
        · rw [← heq]
          exact List.mem_append_right _ List.mem_cons_self
      · have hin : pair ∈ pairs := by
          rcases List.mem_append.mp hmem with hin | hlast
          · exact hin
          · rw [List.mem_singleton.mp hlast] at heq
            exact absurd rfl heq
        obtain ⟨value, hget, hvalue⟩ := ih hin
        refine ⟨value, ?_, List.mem_append_left _ hvalue⟩
        rw [get_insert_of_ne heq, hget]

/-- Every pair keeps its value if and only if no key comes with two values. -/
theorem get_collect_iff (pairs : List (κ × β)) :
    (∀ pair ∈ pairs, get pair.1 (collect pairs) = some pair.2) ↔
      ∀ pair ∈ pairs, ∀ other ∈ pairs, pair.1 = other.1 → pair.2 = other.2 := by
  constructor
  · intro h pair hpair other hother heq
    have hvalue := h pair hpair
    rw [heq, h other hother] at hvalue
    exact (Option.some.inj hvalue).symm
  · intro h pair hpair
    obtain ⟨value, hget, hvalue⟩ := get_collect hpair
    rw [hget, h pair hpair (pair.1, value) hvalue rfl]

end Collecting

end Riley.Entries
