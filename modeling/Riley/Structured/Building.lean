import Riley.Constraint.LeftRecursion
import Riley.Structured.Texts

/-!
What the calls of the compiler build, told by the final table of rules. A call
adds rules of its own and, at most, alternatives to one rule that its caller
keeps open; whatever is added later, the rules it added stay as they are.
-/

namespace Riley.Structured

open Computability Riley.Derivation Outcome
open Constraint (ByteClass GrammarElement Rules Rewrites)
open Utf8 (Text)

section Classes

theorem getLsbD_foldl_set (values : List Nat) (bits : BitVec 256) {place : Nat}
    (hplace : place < 256) :
    (values.foldl (fun bits value => bits ||| 1#256 <<< value) bits).getLsbD place =
      (bits.getLsbD place || decide (place ∈ values)) := by
  induction values generalizing bits with
  | nil => simp
  | cons value rest ih =>
      have hone : (1#256 <<< value).getLsbD place = decide (place = value) := by
        rw [BitVec.getLsbD_shiftLeft, BitVec.getLsbD_one]
        by_cases hsame : place = value
        · simp [hsame, hsame ▸ hplace]
        · have : place < value ∨ 0 < place - value := by omega
          rcases this with h | h
          · simp [h, hsame]
          · simp [Nat.ne_of_gt h, hsame]
      rw [List.foldl_cons, ih, BitVec.getLsbD_or, hone, Bool.or_assoc]
      simp only [List.mem_cons, Bool.decide_or]

@[simp] theorem contains_range (first last : Nat) (byte : UInt8) :
    (ByteClass.range first last).contains byte = true ↔
      first ≤ byte.toNat ∧ byte.toNat ≤ last := by
  unfold ByteClass.range ByteClass.contains
  rw [getLsbD_foldl_set _ _ byte.toNat_lt, BitVec.getLsbD_zero, Bool.false_or, decide_eq_true_eq,
    List.mem_range'_1]
  omega

@[simp] theorem contains_byte (value : Nat) (byte : UInt8) :
    (ByteClass.byte value).contains byte = true ↔ byte.toNat = value := by
  unfold ByteClass.byte
  rw [contains_range]
  omega

@[simp] theorem contains_union (left right : ByteClass) (byte : UInt8) :
    (left.union right).contains byte = true ↔
      left.contains byte = true ∨ right.contains byte = true := by
  simp [ByteClass.union, ByteClass.contains]

end Classes

section Languages

/-- The byte strings of a sequence of elements among these rules. -/
def language (rules : Rules) (form : List GrammarElement) : Language UInt8 :=
  words GrammarElement.Consumes (Rewrites rules) form

/-- The byte strings of any of some alternatives. -/
def choice (rules : Rules) (bodies : List (List GrammarElement)) : Language UInt8 :=
  (bodies.map (language rules)).sum

variable {rules : Rules}

theorem not_consumes_rule (id : Nat) (byte : UInt8) :
    ¬ GrammarElement.Consumes (.rule id) byte := by
  rintro ⟨_, heq, _⟩
  cases heq

theorem rewrites_rule {id : Nat} {body : List GrammarElement} :
    Rewrites rules (.rule id) body ↔ body ∈ rules.getD id [] := by
  constructor
  · rintro ⟨_, heq, hbody⟩
    cases heq
    exact hbody
  · exact fun hbody => ⟨id, rfl, hbody⟩

@[simp] theorem language_nil : language rules [] = 1 := words_nil

@[simp] theorem language_append (first second : List GrammarElement) :
    language rules (first ++ second) = language rules first * language rules second :=
  words_append first second

theorem language_cons (element : GrammarElement) (rest : List GrammarElement) :
    language rules (element :: rest) = language rules [element] * language rules rest :=
  words_cons element rest

@[simp] theorem choice_nil : choice rules [] = 0 := rfl

@[simp] theorem choice_cons (body : List GrammarElement) (rest : List (List GrammarElement)) :
    choice rules (body :: rest) = language rules body + choice rules rest := List.sum_cons

@[simp] theorem choice_append (first second : List (List GrammarElement)) :
    choice rules (first ++ second) = choice rules first + choice rules second := by
  unfold choice
  rw [List.map_append, List.sum_append]

theorem mem_choice {bodies : List (List GrammarElement)} {word : List UInt8} :
    word ∈ choice rules bodies ↔ ∃ body ∈ bodies, word ∈ language rules body := by
  induction bodies with
  | nil => simp [Language.notMem_zero]
  | cons body rest ih => rw [choice_cons, Language.mem_add, ih, List.exists_mem_cons_iff]

/-- Alternatives that are added part by part. -/
theorem mem_choice_flatten {γ : Type} {items : List γ} {parts : List (List (List GrammarElement))}
    {texts : γ → Language UInt8} {word : List UInt8}
    (h : List.Forall₂ (fun item part => choice rules part = texts item) items parts) :
    word ∈ choice rules parts.flatten ↔ ∃ item ∈ items, word ∈ texts item := by
  induction h with
  | nil => simp [Language.notMem_zero]
  | cons hpart _ ih =>
      rw [List.flatten_cons, choice_append, Language.mem_add, hpart, ih, List.exists_mem_cons_iff]

theorem language_rule (id : Nat) :
    language rules [.rule id] = choice rules (rules.getD id []) := by
  ext word
  unfold language
  rw [mem_choice, mem_words_body (not_consumes_rule id)]
  simp only [rewrites_rule]
  rfl

theorem language_bytes (byteClass : ByteClass) :
    language rules [.bytes byteClass] =
      Set.ofPred fun word => ∃ byte, word = [byte] ∧ byteClass.contains byte = true := by
  ext word
  unfold language
  rw [mem_words, derives_token]
  · simp only [derives_nil]
    constructor
    · rintro ⟨byte, _, rfl, ⟨_, heq, hcontains⟩, rfl⟩
      cases heq
      exact ⟨byte, rfl, hcontains⟩
    · rintro ⟨byte, rfl, hcontains⟩
      exact ⟨byte, [], rfl, ⟨byteClass, rfl, hcontains⟩, rfl⟩
  · rintro body ⟨_, heq, _⟩
    cases heq

/-- A rule that comes back after `form` or ends as `base`. -/
theorem language_loop {id : Nat} (form base : List GrammarElement)
    (h : ∀ body, body ∈ rules.getD id [] ↔ body = form ++ [.rule id] ∨ body = base) :
    language rules [.rule id] = (language rules form)∗ * language rules base :=
  words_loop (not_consumes_rule id) fun body => rewrites_rule.trans (h body)

@[simp] theorem language_class (first last : Nat) :
    language rules [class_ first last] = oneByte fun byte => first ≤ byte ∧ byte ≤ last := by
  unfold class_
  rw [language_bytes]
  simp only [contains_range]
  rfl

theorem language_text (text : Text) : language rules (bytes text) = exactly text := by
  unfold bytes exactly
  generalize Utf8.encode text = encoded
  induction encoded with
  | nil =>
      rw [List.map_nil, language_nil]
      rfl
  | cons byte rest ih =>
      rw [List.map_cons, language_cons, ih, language_bytes]
      ext word
      constructor
      · intro hword
        obtain ⟨_, ⟨other, rfl, hother⟩, _, rfl, rfl⟩ := Language.mem_mul.mp hword
        rw [contains_byte, UInt8.toNat_inj] at hother
        rw [hother]
        rfl
      · rintro rfl
        exact Language.mem_mul.mpr
          ⟨[byte], ⟨byte, rfl, (contains_byte _ _).mpr rfl⟩, rest, rfl, rfl⟩

end Languages

section Calls

abbrev Bodies := List (List GrammarElement)

/-- The shared rules mean in the final table what they are for. -/
def Sharing (rules : Rules) (common : Shared → Option Nat) : Prop :=
  ∀ kind id texts, common kind = some id → kind.texts = some texts →
    language rules [.rule id] = texts

/-- The rules made since `before` stand in the final table as `now` has them. -/
def Holds (rules : Rules) (before now : SchemaCompiler) : Prop :=
  ∀ id, before.ruleCount ≤ id → id < now.ruleCount → rules.getD id [] = now.bodies id

/-- What became of the rules of `before`: alternatives are added to the open one only. -/
def Added (opened : Option Nat) (added : Bodies) (before now : SchemaCompiler) : Prop :=
  (opened = none → added = []) ∧
    ∀ id < before.ruleCount,
      now.bodies id = before.bodies id ++ if opened = some id then added else []

/-- A call built what `fact` says, as long as rules have identifiers of their own. -/
structure Built (opened : Option Nat) (fact : Rules → Bodies → Prop)
    (before now : SchemaCompiler) : Prop where
  count : before.ruleCount ≤ now.ruleCount
  facts : now.ruleCount ≤ u32Max → ∃ added, Added opened added before now ∧
    ∀ rules, Holds rules before now → Sharing rules before.common →
      Sharing rules now.common ∧ fact rules added

/-- Every result of the call comes with its fact about the final table. -/
def Builds {α : Type} (opened : Option Nat) (action : Compile α)
    (fact : α → Rules → Bodies → Prop) (err : SchemaError → Prop) : Prop :=
  ∀ before, (∀ id ∈ opened, id < before.ruleCount) →
    wp action (fun a now => Built opened (fact a) before now) (fun e _ => err e) before

variable {α β : Type} {opened : Option Nat} {fact : α → Rules → Bodies → Prop}
  {err : SchemaError → Prop} {before now after : SchemaCompiler}

theorem Built.mono {fact fact' : Rules → Bodies → Prop} (h : Built opened fact before now)
    (hfact : ∀ rules added, fact rules added → fact' rules added) :
    Built opened fact' before now := by
  refine ⟨h.count, fun hsmall => ?_⟩
  obtain ⟨added, hadded, hrules⟩ := h.facts hsmall
  exact ⟨added, hadded, fun rules hholds hsharing =>
    ⟨(hrules rules hholds hsharing).1, hfact rules added (hrules rules hholds hsharing).2⟩⟩

/-- What two calls in a row build. -/
theorem Built.trans {first second : Rules → Bodies → Prop}
    (hfirst : Built opened first before now) (hsecond : Built opened second now after)
    (hopened : ∀ id ∈ opened, id < before.ruleCount) :
    Built opened
      (fun rules added => ∃ left right, added = left ++ right ∧ first rules left ∧
        second rules right) before after := by
  refine ⟨hfirst.count.trans hsecond.count, fun hsmall => ?_⟩
  obtain ⟨left, ⟨hleft, hkept⟩, hrules⟩ := hfirst.facts (hsecond.count.trans hsmall)
  obtain ⟨right, ⟨hright, hkept'⟩, hrules'⟩ := hsecond.facts hsmall
  refine ⟨left ++ right, ⟨?_, ?_⟩, ?_⟩
  · intro hnone
    rw [hleft hnone, hright hnone, List.append_nil]
  · intro id hid
    rw [hkept' id (Nat.lt_of_lt_of_le hid hfirst.count), hkept id hid, List.append_assoc]
    split
    · rfl
    · rw [List.append_nil]
  · intro rules hholds hsharing
    have hholdsFirst : Holds rules before now := by
      intro id hid hlt
      have hother : opened ≠ some id := by
        intro hsame
        have := hopened id hsame
        omega
      rw [hholds id hid (Nat.lt_of_lt_of_le hlt hsecond.count), hkept' id hlt, if_neg hother,
        List.append_nil]
    have hholdsSecond : Holds rules now after := fun id hid hlt =>
      hholds id (hfirst.count.trans hid) hlt
    obtain ⟨hnow, hfact⟩ := hrules rules hholdsFirst hsharing
    obtain ⟨hafter, hfact'⟩ := hrules' rules hholdsSecond hnow
    exact ⟨hafter, left, right, rfl, hfact, hfact'⟩

/-- What a call builds stays built when it is made with a rule open. -/
theorem Built.frame {fact : Rules → Bodies → Prop} (h : Built none fact before now) :
    Built opened (fun rules added => added = [] ∧ fact rules []) before now := by
  refine ⟨h.count, fun hsmall => ?_⟩
  obtain ⟨added, ⟨hnone, hkept⟩, hrules⟩ := h.facts hsmall
  obtain rfl := hnone rfl
  refine ⟨[], ⟨fun _ => rfl, ?_⟩, fun rules hholds hsharing => ?_⟩
  · intro id hid
    rw [hkept id hid]
    simp
  · obtain ⟨hnow, hfact⟩ := hrules rules hholds hsharing
    exact ⟨hnow, rfl, hfact⟩

theorem Built.of_same {fact : Rules → Bodies → Prop} (hbuilder : now.builder = before.builder)
    (hcommon : now.common = before.common) (hfact : ∀ rules, fact rules []) :
    Built opened fact before now := by
  refine ⟨Nat.le_of_eq (congrArg (·.rules.length) hbuilder).symm, fun _ => ?_⟩
  refine ⟨[], ⟨fun _ => rfl, ?_⟩, ?_⟩
  · intro id _
    rw [ite_self, List.append_nil]
    exact congrArg (·.rules.getD id []) hbuilder
  · intro rules _ hsharing
    rw [hcommon]
    exact ⟨hsharing, hfact rules⟩

section Rules

theorem Builds.mono {fact' : α → Rules → Bodies → Prop} {err' : SchemaError → Prop}
    {action : Compile α} (h : Builds opened action fact err)
    (hfact : ∀ a rules added, fact a rules added → fact' a rules added)
    (herr : ∀ e, err e → err' e) : Builds opened action fact' err' :=
  fun before hopened =>
    wp_mono (h before hopened) (fun a _ hbuilt => hbuilt.mono (hfact a)) (fun e _ => herr e)

theorem Builds.weaken {fact' : α → Rules → Bodies → Prop} {action : Compile α}
    (h : Builds opened action fact err)
    (hfact : ∀ a rules added, fact a rules added → fact' a rules added) :
    Builds opened action fact' err :=
  h.mono hfact fun _ => id

theorem Builds.frame {action : Compile α} (h : Builds none action fact err) :
    Builds opened action (fun a rules added => added = [] ∧ fact a rules []) err :=
  fun before _ => wp_ok_mono (h before nofun) fun _ _ hbuilt => hbuilt.frame

theorem builds_pure (a : α) (hfact : ∀ rules, fact a rules []) :
    Builds opened (pure a) fact err :=
  fun _ _ => Built.of_same rfl rfl hfact

theorem builds_return (a : α) :
    Builds opened (pure a) (fun b _ added => b = a ∧ added = []) err :=
  builds_pure a fun _ => ⟨rfl, rfl⟩

theorem builds_seq {action : Compile α} {next : α → Compile β}
    {then_ : α → β → Rules → Bodies → Prop} (h : Builds opened action fact err)
    (hnext : ∀ a, Builds opened (next a) (then_ a) err) :
    Builds opened (action >>= next)
      (fun b rules added => ∃ a left right, added = left ++ right ∧ fact a rules left ∧
        then_ a b rules right) err := by
  intro before hopened
  apply wp_call (h before hopened)
  · intro a now hbuilt
    have hopened' : ∀ id ∈ opened, id < now.ruleCount := fun id hid =>
      Nat.lt_of_lt_of_le (hopened id hid) hbuilt.count
    apply wp_ok_mono (hnext a now hopened')
    intro b after hbuilt'
    exact (hbuilt.trans hbuilt' hopened).mono fun rules added h => ⟨a, h⟩
  · exact fun e _ he => he

theorem builds_ite {condition : Prop} [Decidable condition] {yes no : Compile α}
    (hyes : condition → Builds opened yes fact err)
    (hno : ¬ condition → Builds opened no fact err) :
    Builds opened (if condition then yes else no) fact err := by
  split
  · exact hyes ‹_›
  · exact hno ‹_›

theorem builds_runIf {condition : Prop} [Decidable condition] {action : Compile Unit}
    {fact : Unit → Rules → Bodies → Prop} (h : condition → Builds opened action fact err) :
    Builds opened (runIf condition action)
      (fun _ rules added => condition ∧ fact () rules added ∨ ¬ condition ∧ added = []) err := by
  unfold runIf
  apply builds_ite
  · exact fun hc => (h hc).weaken fun _ _ _ hfact => Or.inl ⟨hc, hfact⟩
  · exact fun hc => builds_pure () fun _ => Or.inr ⟨hc, rfl⟩

/-- A pass over a list adds what each item adds. -/
theorem builds_forEach {γ : Type} {body : γ → Compile Unit} {each : γ → Rules → Bodies → Prop}
    (items : List γ) (h : ∀ item ∈ items, Builds opened (body item) (fun _ => each item) err) :
    Builds opened (forEach items body)
      (fun _ rules added => ∃ parts, added = parts.flatten ∧
        List.Forall₂ (fun item part => each item rules part) items parts) err := by
  induction items with
  | nil => exact builds_pure () fun _ => ⟨[], rfl, .nil⟩
  | cons item rest ih =>
      have hrest := ih fun other hother => h other (List.mem_cons_of_mem _ hother)
      apply (builds_seq (h item List.mem_cons_self) fun _ => hrest).weaken
      rintro _ rules added ⟨_, left, _, rfl, hleft, parts, rfl, hparts⟩
      exact ⟨left :: parts, rfl, .cons hleft hparts⟩

theorem builds_alternative (id : Nat) (elements : List GrammarElement) :
    Builds (some id) (alternative id elements) (fun _ _ added => added = [elements]) err := by
  intro before hopened
  have hid := hopened id rfl
  show Built (some id) _ before
    { before with builder := before.builder.alternative id elements }
  have hcount : ({ before with builder := before.builder.alternative id elements } :
      SchemaCompiler).ruleCount = before.ruleCount := List.length_modify _ _ _
  refine ⟨Nat.le_of_eq hcount.symm, fun _ => ⟨[elements], ⟨nofun, ?_⟩, ?_⟩⟩
  · intro other hother
    unfold SchemaCompiler.bodies Constraint.GrammarBuilder.alternative
    rw [List.getD_eq_getElem?_getD, List.getD_eq_getElem?_getD, List.getElem?_modify]
    by_cases hsame : id = other
    · subst hsame
      have hlt : id < before.builder.rules.length := hid
      simp [hlt]
    · simp [hsame]
  · exact fun rules _ hsharing => ⟨hsharing, rfl⟩

section Steps

variable {each : β → Rules → Bodies → Prop}

theorem Builds.after_alternative {id : Nat} {elements : List GrammarElement}
    {next : Unit → Compile β} (h : Builds (some id) (next ()) each err) :
    Builds (some id) (alternative id elements >>= next)
      (fun b rules added => ∃ rest, added = elements :: rest ∧ each b rules rest) err := by
  apply (builds_seq (builds_alternative id elements) fun _ => h).weaken
  rintro b rules added ⟨_, _, rest, rfl, rfl, hrest⟩
  exact ⟨rest, rfl, hrest⟩

/-- A call that opens no rule of its caller. -/
theorem Builds.after_call {action : Compile α} {next : α → Compile β}
    {then_ : α → β → Rules → Bodies → Prop} (h : Builds none action fact err)
    (hnext : ∀ a, Builds opened (next a) (then_ a) err) :
    Builds opened (action >>= next)
      (fun b rules added => ∃ a, fact a rules [] ∧ then_ a b rules added) err := by
  apply (builds_seq h.frame hnext).weaken
  rintro b rules added ⟨a, _, right, rfl, ⟨rfl, hfact⟩, hthen⟩
  exact ⟨a, hfact, hthen⟩

theorem Builds.after_check {condition : Prop} [Decidable condition] {e : SchemaError}
    {next : Unit → Compile β} (herr : condition → err e)
    (hnext : ¬ condition → Builds opened (next ()) each err) :
    Builds opened (rejectIf condition e >>= next) each err :=
  fun before hopened => wp_check herr fun hpass => hnext hpass before hopened

theorem Builds.after_runIf {condition : Prop} [Decidable condition] {action : Compile Unit}
    {fact : Unit → Rules → Bodies → Prop} {next : Unit → Compile β}
    (h : condition → Builds opened action fact err) (hnext : Builds opened (next ()) each err) :
    Builds opened (runIf condition action >>= next)
      (fun b rules added => ∃ left right, added = left ++ right ∧
        (condition ∧ fact () rules left ∨ ¬ condition ∧ left = []) ∧ each b rules right) err := by
  apply (builds_seq (builds_runIf h) fun _ => hnext).weaken
  rintro b rules added ⟨_, left, right, hadded, hleft, hright⟩
  exact ⟨left, right, hadded, hleft, hright⟩

end Steps

theorem bodies_rule (compiler : SchemaCompiler) (id : Nat) :
    ({ compiler with builder := compiler.builder.rule.2 } : SchemaCompiler).bodies id =
      compiler.bodies id := by
  unfold SchemaCompiler.bodies Constraint.GrammarBuilder.rule
  rw [List.getD_eq_getElem?_getD, List.getD_eq_getElem?_getD, List.getElem?_append]
  split
  · rfl
  next hle =>
    rw [List.getElem?_eq_none (Nat.le_of_not_lt hle)]
    cases id - compiler.builder.rules.length <;> rfl

/-- A new rule has the alternatives that are added to it while it is open. -/
theorem Builds.open_rule {next : Nat → Compile α} {each : Nat → α → Rules → Bodies → Prop}
    (h : ∀ id, Builds (some id) (next id) (each id) err) :
    Builds none (rule >>= next)
      (fun a rules _ => ∃ id, each id a rules (rules.getD id [])) err := by
  intro before _
  let id := before.builder.rule.1
  let start : SchemaCompiler := { before with builder := before.builder.rule.2 }
  have hcount : start.ruleCount = before.ruleCount + 1 := by
    show (before.builder.rules ++ [[]]).length = _
    rw [List.length_append]
    rfl
  have hid : id = min before.ruleCount u32Max := rfl
  have hopened : ∀ other ∈ some id, other < start.ruleCount := by
    intro other hother
    rw [← Option.some.inj hother, hcount]
    omega
  show wp (next id) _ _ start
  apply wp_ok_mono (h id start hopened)
  intro a now hbuilt
  have hle := hbuilt.count
  refine ⟨by omega, fun hsmall => ?_⟩
  have hsame : id = before.ruleCount := by omega
  obtain ⟨added, ⟨_, hkept⟩, hrules⟩ := hbuilt.facts hsmall
  refine ⟨[], ⟨fun _ => rfl, ?_⟩, ?_⟩
  · intro other hother
    rw [hkept other (by omega), if_neg, if_neg nofun]
    · exact congrArg (· ++ []) (bodies_rule before other)
    · intro heq
      have := Option.some.inj heq
      omega
  · intro rules hholds hsharing
    have hholds' : Holds rules start now := fun other hother hlt => hholds other (by omega) hlt
    obtain ⟨hnow, hfact⟩ := hrules rules hholds' hsharing
    refine ⟨hnow, id, ?_⟩
    have hempty : before.bodies id = [] := by
      unfold SchemaCompiler.bodies
      rw [List.getD_eq_getElem?_getD, List.getElem?_eq_none (Nat.le_of_eq hsame.symm)]
      rfl
    have hfinal : rules.getD id [] = added := by
      rw [hholds id (by omega) (by omega), hkept id (by omega), if_pos rfl]
      exact (congrArg (· ++ added) ((bodies_rule before id).trans hempty)).trans
        (List.nil_append added)
    rwa [hfinal]

theorem builds_newRule {body : Nat → Compile Unit} {each : Nat → Unit → Rules → Bodies → Prop}
    (h : ∀ id, Builds (some id) (body id) (each id) err) :
    Builds none (newRule body) (fun id rules _ => each id () rules (rules.getD id [])) err := by
  have hreturn : ∀ id, Builds (some id) (body id >>= fun _ => pure id)
      (fun result rules added => result = id ∧ each id () rules added) err := by
    intro id
    apply (builds_seq (h id) fun _ => builds_return id).weaken
    rintro _ rules added ⟨_, left, _, rfl, hleft, rfl, rfl⟩
    rw [List.append_nil]
    exact ⟨rfl, hleft⟩
  apply (Builds.open_rule hreturn).weaken
  rintro _ rules added ⟨id, rfl, hbody⟩
  exact hbody

/-- The rule of a kind keeps its meaning, whether it is built or found. -/
theorem builds_shared {kind : Shared} {texts : Language UInt8} {build : Compile Nat}
    (htexts : kind.texts = some texts)
    (h : Builds none build (fun id rules _ => language rules [.rule id] = texts) err) :
    Builds none (shared kind build) (fun id rules _ => language rules [.rule id] = texts) err := by
  intro before _
  unfold shared
  apply wp_read
  cases hfound : before.common kind with
  | some id =>
      refine ⟨le_rfl, fun _ => ⟨[], ⟨fun _ => rfl, ?_⟩, ?_⟩⟩
      · intro other _
        rw [if_neg nofun, List.append_nil]
      · exact fun rules _ hsharing => ⟨hsharing, hsharing kind id texts hfound htexts⟩
  | none =>
      apply wp_call (h before nofun)
      · intro id now hbuilt
        apply wp_write
        refine ⟨hbuilt.count, fun hsmall => ?_⟩
        obtain ⟨added, hadded, hrules⟩ := hbuilt.facts hsmall
        refine ⟨added, hadded, fun rules hholds hsharing => ?_⟩
        obtain ⟨hnow, hmeans⟩ := hrules rules hholds hsharing
        refine ⟨?_, hmeans⟩
        intro other otherId otherTexts hother hothers
        have hcases : (if other = kind then some id else now.common other) = some otherId := hother
        split at hcases
        next hsame =>
          subst hsame
          rw [← Option.some.inj hcases, hmeans, Option.some.inj (htexts.symm.trans hothers)]
        · exact hnow other otherId otherTexts hcases hothers
      · exact fun _ _ he => he

end Rules

/-- What was compiled from `before` to `now` stands in the final table as it was left: each
rule has an identifier of its own, and the shared rules mean what they are for. -/
structure Compiled (rules : Rules) (before now : SchemaCompiler) : Prop where
  small : now.ruleCount ≤ u32Max
  holds : Holds rules before now
  sharing : Sharing rules before.common

theorem Builds.compiled {action : Compile α} (h : Builds none action fact err) {a : α}
    (hrun : action before = .ok a now) {rules : Rules} (hg : Compiled rules before now) :
    fact a rules [] := by
  obtain ⟨added, ⟨hnone, _⟩, hrules⟩ := ((wp_elim (h before nofun)).1 a now hrun).facts hg.small
  obtain rfl := hnone rfl
  exact (hrules rules hg.holds hg.sharing).2

theorem yields_iff {g : Constraint.Grammar} {form : List GrammarElement} {word : List UInt8} :
    g.Yields form word ↔ word ∈ language g.rules form := Iff.rfl

/-- A compiler that has built nothing yet. -/
theorem compiled_new {root : Server.Json} (hsmall : now.ruleCount ≤ u32Max) :
    Compiled now.builder.rules (SchemaCompiler.new root) now where
  small := hsmall
  holds := fun _ _ _ => rfl
  sharing := nofun

/-- Whether a call from scratch leaves the rules of a grammar that begins with its result. -/
def compiles (action : Compile Nat) (root : Server.Json) : Bool :=
  match action (SchemaCompiler.new root) with
  | .ok id now =>
      decide (Constraint.checkRules now.builder.rules id = .ok ()) && decide (now.ruleCount ≤ u32Max)
  | .error _ _ => false

theorem exists_compiled {action : Compile Nat} {root : Server.Json}
    (h : compiles action root = true) :
    ∃ (id : Nat) (now : SchemaCompiler) (g : Constraint.Grammar),
      action (SchemaCompiler.new root) = .ok id now ∧
      Compiled g.rules (SchemaCompiler.new root) now := by
  unfold compiles at h
  split at h
  · next id now hrun =>
      obtain ⟨hcheck, hsmall⟩ := Bool.and_eq_true_iff.mp h
      exact ⟨id, now, ⟨now.builder.rules, id, of_decide_eq_true hcheck⟩, hrun,
        compiled_new (of_decide_eq_true hsmall)⟩
  · cases h

end Calls

end Riley.Structured
