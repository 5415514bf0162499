import Mathlib.Computability.Language
import Riley.Library.Derivation

/-!
The languages of forms. Concatenating forms multiplies their languages, and an
element that may come back once more, after a form, derives the star of that
form. Counted repetitions put a separator before every item but the first.
-/

namespace Riley.Derivation

open Computability

variable {ε τ : Type*}

/-- The words that a form derives. -/
def words (consumes : ε → τ → Prop) (expands : ε → List ε → Prop) (form : List ε) :
    Language τ :=
  Set.ofPred (Derives consumes expands form)

section Forms

variable {consumes : ε → τ → Prop} {expands : ε → List ε → Prop}

theorem mem_words {form : List ε} {word : List τ} :
    word ∈ words consumes expands form ↔ Derives consumes expands form word := Iff.rfl

@[simp] theorem words_nil : words consumes expands [] = 1 := by
  ext word
  exact derives_nil

@[simp] theorem words_append (first second : List ε) :
    words consumes expands (first ++ second) =
      words consumes expands first * words consumes expands second := by
  ext word
  rw [Language.mem_mul, mem_words]
  constructor
  · intro h
    obtain ⟨left, right, rfl, hleft, hright⟩ := h.split
    exact ⟨left, hleft, right, hright, rfl⟩
  · rintro ⟨left, hleft, right, hright, rfl⟩
    exact Derives.append hleft hright

theorem words_cons (element : ε) (rest : List ε) :
    words consumes expands (element :: rest) =
      words consumes expands [element] * words consumes expands rest :=
  words_append [element] rest

/-- What an element that never consumes derives. -/
theorem mem_words_body {element : ε} {word : List τ}
    (hsilent : ∀ token, ¬ consumes element token) :
    word ∈ words consumes expands [element] ↔
      ∃ body, expands element body ∧ word ∈ words consumes expands body := by
  rw [mem_words, derives_body hsilent]
  simp only [List.append_nil, mem_words]

/-- The words in front of an element that comes back after `form` or ends as `base`. -/
theorem Derives.loop {element : ε} {form base : List ε}
    (hsilent : ∀ token, ¬ consumes element token)
    (hbodies : ∀ body, expands element body → body = form ++ [element] ∨ body = base)
    (mid : List ε) {word : List τ} (h : Derives consumes expands (mid ++ [element]) word) :
    word ∈ words consumes expands mid *
      ((words consumes expands form)∗ * words consumes expands base) := by
  generalize hwhole : mid ++ [element] = whole at h
  induction h generalizing mid with
  | nil => simp at hwhole
  | @consume head token rest word hconsumes hrest ih =>
      cases mid with
      | nil =>
          obtain ⟨rfl, rfl⟩ := List.cons.inj hwhole
          exact absurd hconsumes (hsilent token)
      | cons first mid =>
          obtain ⟨rfl, htail⟩ := List.cons.inj hwhole
          rw [words_cons, mul_assoc]
          exact Language.mem_mul.mpr
            ⟨[token], Derives.consume hconsumes Derives.nil, word, ih mid htail, rfl⟩
  | @expand head body rest word hexpands hbody ih =>
      cases mid with
      | nil =>
          obtain ⟨rfl, rfl⟩ := List.cons.inj hwhole
          rw [words_nil, one_mul]
          rcases hbodies body hexpands with rfl | rfl
          · have hmore := ih form (List.append_nil _).symm
            have hle : words consumes expands form * (words consumes expands form)∗ *
                words consumes expands base ≤
                (words consumes expands form)∗ * words consumes expands base :=
              mul_le_mul' mul_kstar_le_kstar le_rfl
            rw [← mul_assoc] at hmore
            exact hle hmore
          · rw [List.append_nil] at hbody
            exact Language.mem_mul.mpr
              ⟨[], Language.nil_mem_kstar _, word, hbody, List.nil_append _⟩
      | cons first mid =>
          obtain ⟨rfl, htail⟩ := List.cons.inj hwhole
          have hmore := ih (body ++ mid)
            ((List.append_assoc _ _ _).trans (congrArg (body ++ ·) htail))
          rw [words_append, mul_assoc] at hmore
          obtain ⟨left, hleft, right, hright, rfl⟩ := Language.mem_mul.mp hmore
          rw [words_cons, mul_assoc]
          refine Language.mem_mul.mpr ⟨left, ?_, right, hright, rfl⟩
          refine Derives.expand hexpands ?_
          rwa [List.append_nil]

/-- An element that comes back after `form` or ends as `base`. -/
theorem words_loop {element : ε} {form base : List ε}
    (hsilent : ∀ token, ¬ consumes element token)
    (hbodies : ∀ body, expands element body ↔ body = form ++ [element] ∨ body = base) :
    words consumes expands [element] =
      (words consumes expands form)∗ * words consumes expands base := by
  apply le_antisymm
  · intro word hword
    have hloop := Derives.loop hsilent (fun body => (hbodies body).mp) [] hword
    rwa [words_nil, one_mul] at hloop
  · apply kstar_mul_le
    · intro word hword
      exact (mem_words_body hsilent).mpr ⟨base, (hbodies base).mpr (Or.inr rfl), hword⟩
    · intro word hword
      rw [← words_append] at hword
      exact (mem_words_body hsilent).mpr ⟨_, (hbodies _).mpr (Or.inl rfl), hword⟩

end Forms

section Counted

variable (item lead : Language τ) (minimum : Nat) (maximum : Option Nat)

/-- So many more items are within the bounds when there are `count` already. -/
def Within (count more : Nat) : Prop :=
  minimum ≤ count + more ∧ ∀ most ∈ maximum, count + more ≤ most

/-- What may follow the items when there are `count` already. -/
def followed (count : Nat) : Language τ :=
  Set.ofPred fun word => ∃ more, Within minimum maximum count more ∧ word ∈ (lead * item) ^ more

/-- So many items, with the lead between them. -/
def joined : Nat → Language τ
  | 0 => 1
  | more + 1 => item * (lead * item) ^ more

/-- Items with the lead between them, as many as the bounds allow. -/
def repeated : Language τ :=
  Set.ofPred fun word => ∃ count, Within minimum maximum 0 count ∧ word ∈ joined item lead count

variable {item lead minimum maximum}

theorem mem_followed {count : Nat} {word : List τ} :
    word ∈ followed item lead minimum maximum count ↔
      ∃ more, Within minimum maximum count more ∧ word ∈ (lead * item) ^ more := Iff.rfl

theorem mem_repeated {word : List τ} :
    word ∈ repeated item lead minimum maximum ↔
      ∃ count, Within minimum maximum 0 count ∧ word ∈ joined item lead count := Iff.rfl

/-- One more item, or an end where there are enough. -/
theorem mem_followed_step {count : Nat} {word : List τ} :
    word ∈ followed item lead minimum maximum count ↔
      Within minimum maximum count 0 ∧ word = [] ∨
        word ∈ lead * item * followed item lead minimum maximum (count + 1) := by
  rw [mem_followed]
  constructor
  · rintro ⟨more, ⟨hleast, hmost⟩, hword⟩
    cases more with
    | zero =>
        rw [pow_zero] at hword
        exact Or.inl ⟨⟨hleast, hmost⟩, hword⟩
    | succ more =>
        rw [pow_succ'] at hword
        obtain ⟨left, hleft, right, hright, rfl⟩ := Language.mem_mul.mp hword
        refine Or.inr (Language.mem_mul.mpr ⟨left, hleft, right, ⟨more, ⟨?_, ?_⟩, hright⟩, rfl⟩)
        · omega
        · intro most hm
          have := hmost most hm
          omega
  · rintro (⟨hwithin, rfl⟩ | hword)
    · exact ⟨0, hwithin, by rw [pow_zero]; exact Language.nil_mem_one⟩
    · obtain ⟨left, hleft, right, ⟨more, ⟨hleast, hmost⟩, hright⟩, rfl⟩ := Language.mem_mul.mp hword
      refine ⟨more + 1, ⟨by omega, ?_⟩, ?_⟩
      · intro most hm
        have := hmost most hm
        omega
      · rw [pow_succ']
        exact Language.mem_mul.mpr ⟨left, hleft, right, hright, rfl⟩

/-- Without an upper bound enough items are followed by any number of them. -/
theorem followed_unbounded {count : Nat} (hcount : minimum ≤ count) :
    followed item lead minimum none count = (lead * item)∗ := by
  ext word
  rw [mem_followed, Language.kstar_eq_iSup_pow, Language.mem_iSup]
  constructor
  · rintro ⟨more, _, hword⟩
    exact ⟨more, hword⟩
  · rintro ⟨more, hword⟩
    exact ⟨more, ⟨by omega, nofun⟩, hword⟩

/-- Nothing follows as many items as there may be. -/
theorem followed_full {most : Nat} (hmost : minimum ≤ most) :
    followed item lead minimum (some most) most = 1 := by
  ext word
  rw [mem_followed]
  constructor
  · rintro ⟨more, ⟨_, hbound⟩, hword⟩
    have hnone : more = 0 := by
      have := hbound most rfl
      omega
    rwa [hnone, pow_zero] at hword
  · intro hword
    refine ⟨0, ⟨by omega, ?_⟩, by rwa [pow_zero]⟩
    intro bound hbound
    rw [← Option.some.inj hbound, Nat.add_zero]

/-- No item where that is enough, or a first one and what may follow it. -/
theorem mem_repeated_step {word : List τ} :
    word ∈ repeated item lead minimum maximum ↔
      Within minimum maximum 0 0 ∧ word = [] ∨
        word ∈ item * followed item lead minimum maximum 1 := by
  rw [mem_repeated]
  constructor
  · rintro ⟨count, hwithin, hword⟩
    cases count with
    | zero => exact Or.inl ⟨hwithin, hword⟩
    | succ more =>
        obtain ⟨left, hleft, right, hright, rfl⟩ := Language.mem_mul.mp hword
        refine Or.inr (Language.mem_mul.mpr ⟨left, hleft, right, ⟨more, ?_, hright⟩, rfl⟩)
        unfold Within at hwithin ⊢
        rwa [Nat.zero_add, Nat.add_comm more 1] at hwithin
  · rintro (⟨hwithin, rfl⟩ | hword)
    · exact ⟨0, hwithin, Language.nil_mem_one⟩
    · obtain ⟨left, hleft, right, ⟨more, hwithin, hright⟩, rfl⟩ := Language.mem_mul.mp hword
      refine ⟨more + 1, ?_, Language.mem_mul.mpr ⟨left, hleft, right, hright, rfl⟩⟩
      unfold Within at hwithin ⊢
      rwa [Nat.zero_add, Nat.add_comm more 1]

/-- Without bounds and without a lead, the star. -/
theorem repeated_star : repeated item 1 0 none = item∗ := by
  ext word
  have hstar : word ∈ item∗ ↔ word = [] ∨ word ∈ item * item∗ := by
    conv_lhs => rw [← Language.one_add_self_mul_kstar_eq_kstar item]
    exact Language.mem_add _ _ _
  rw [mem_repeated_step, followed_unbounded (Nat.zero_le 1), one_mul, hstar]
  exact or_congr_left ⟨And.right, fun hword => ⟨⟨le_rfl, nofun⟩, hword⟩⟩

/-- Without a lead, a power. -/
theorem joined_one (count : Nat) : joined item 1 count = item ^ count := by
  cases count with
  | zero => rw [pow_zero]; rfl
  | succ more =>
      unfold joined
      rw [one_mul, pow_succ']

end Counted

end Riley.Derivation
