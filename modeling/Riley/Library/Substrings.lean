import Riley.Library.Search

/-!
One pattern in a text: where it first occurs, the parts that it separates, and the
end of a text that may be its beginning.
-/

namespace Riley.Substrings

variable {α : Type} [DecidableEq α]

/-- Where the pattern first occurs. -/
def find (pattern : List α) : List α → Option Nat
  | [] => if pattern = [] then some 0 else none
  | c :: rest =>
      if pattern <+: c :: rest then some 0 else (find pattern rest).map (· + 1)

/-- The text before and after the first occurrence. -/
def splitOnce (pattern text : List α) : Option (List α × List α) :=
  (find pattern text).map fun start => (text.take start, text.drop (start + pattern.length))

def splitWithin (pattern : List α) : Nat → List α → List (List α)
  | 0, text => [text]
  | fuel + 1, text =>
      match splitOnce pattern text with
      | none => [text]
      | some (first, rest) => first :: splitWithin pattern fuel rest

/-- The parts of a text between the occurrences of a separator. -/
def split (pattern text : List α) : List (List α) := splitWithin pattern text.length text

def stripPrefix (pattern text : List α) : Option (List α) :=
  if pattern <+: text then some (text.drop pattern.length) else none

def stripSuffix (pattern text : List α) : Option (List α) :=
  if pattern <:+ text then some (text.take (text.length - pattern.length)) else none

/-- The length of the longest end of a text that begins the pattern and is not all of it. -/
def openSuffix (pattern text : List α) : Nat :=
  ((List.range' 1 (pattern.length - 1)).reverse.find? fun length =>
    pattern.take length <:+ text).getD 0

section Find

variable {pattern : List α}

theorem find_eq_some {text : List α} {start : Nat} :
    find pattern text = some start ↔
      start ≤ text.length ∧ pattern <+: text.drop start ∧
        ∀ earlier < start, ¬ pattern <+: text.drop earlier := by
  induction text generalizing start with
  | nil =>
      cases start with
      | zero => simp [find]
      | succ start => simp [find]
  | cons c rest ih =>
      simp only [find]
      split
      · next hbegins =>
          constructor
          · intro h
            cases h
            exact ⟨Nat.zero_le _, hbegins, fun earlier hlt => absurd hlt (Nat.not_lt_zero _)⟩
          · rintro ⟨-, -, hnone⟩
            cases start with
            | zero => rfl
            | succ start => exact absurd hbegins (hnone 0 (Nat.succ_pos _))
      · next hbegins =>
          constructor
          · intro h
            obtain ⟨index, hindex, rfl⟩ := Option.map_eq_some_iff.mp h
            obtain ⟨hle, hfound, hnone⟩ := ih.mp hindex
            refine ⟨Nat.succ_le_succ hle, hfound, ?_⟩
            intro earlier hlt
            cases earlier with
            | zero => exact hbegins
            | succ earlier => exact hnone earlier (Nat.lt_of_succ_lt_succ hlt)
          · rintro ⟨hle, hfound, hnone⟩
            cases start with
            | zero => exact absurd hfound hbegins
            | succ start =>
                apply Option.map_eq_some_iff.mpr
                refine ⟨start, ih.mpr ⟨Nat.le_of_succ_le_succ hle, hfound, ?_⟩, rfl⟩
                intro earlier hlt
                exact hnone (earlier + 1) (Nat.succ_lt_succ hlt)

theorem find_eq_none {text : List α} :
    find pattern text = none ↔ ∀ start ≤ text.length, ¬ pattern <+: text.drop start := by
  constructor
  · intro hnone start
    -- Otherwise there is a first place where it occurs.
    induction start using Nat.strongRecOn with
    | ind start ih =>
        intro hle hfound
        have hfind : find pattern text = some start :=
          find_eq_some.mpr ⟨hle, hfound, fun earlier hlt => ih earlier hlt (by omega)⟩
        rw [hnone] at hfind
        cases hfind
  · intro h
    cases hfind : find pattern text with
    | none => rfl
    | some start =>
        obtain ⟨hle, hfound, _⟩ := find_eq_some.mp hfind
        exact absurd hfound (h start hle)

/-- The first occurrence stays the first when the text goes on. -/
theorem find_append {text : List α} {start : Nat} (h : find pattern text = some start)
    (more : List α) : find pattern (text ++ more) = some start := by
  obtain ⟨hle, hfound, hnone⟩ := find_eq_some.mp h
  apply find_eq_some.mpr
  refine ⟨?_, ?_, ?_⟩
  · rw [List.length_append]
    omega
  · rw [List.drop_append_of_le_length hle]
    exact hfound.trans (List.prefix_append _ _)
  · intro earlier hlt hearlier
    apply hnone earlier hlt
    have hlength := hfound.length_le
    apply List.prefix_of_prefix_length_le hearlier
    · rw [List.drop_append_of_le_length (by omega)]
      exact List.prefix_append _ _
    · rw [List.length_drop] at hlength ⊢
      omega

/-- Behind a lead where no occurrence begins, the search finds the first of the whole. -/
theorem find_behind {lead text : List α}
    (hlead : ∀ start < lead.length, ¬ pattern <+: (lead ++ text).drop start) :
    find pattern (lead ++ text) = (find pattern text).map (lead.length + ·) := by
  have hdrop : ∀ start, (lead ++ text).drop (lead.length + start) = text.drop start := by
    intro start
    rw [← List.drop_drop, List.drop_left]
  cases hfind : find pattern text with
  | none =>
      apply find_eq_none.mpr
      intro start hle hfound
      rcases Nat.lt_or_ge start lead.length with hlt | hge
      · exact hlead start hlt hfound
      · obtain ⟨behind, rfl⟩ := Nat.exists_eq_add_of_le hge
        rw [hdrop] at hfound
        rw [List.length_append] at hle
        exact find_eq_none.mp hfind behind (by omega) hfound
  | some start =>
      obtain ⟨hle, hfound, hnone⟩ := find_eq_some.mp hfind
      rw [Option.map_some]
      apply find_eq_some.mpr
      refine ⟨?_, ?_, ?_⟩
      · rw [List.length_append]
        omega
      · rw [hdrop]
        exact hfound
      · intro earlier hlt hearlier
        rcases Nat.lt_or_ge earlier lead.length with hbefore | hge
        · exact hlead earlier hbefore hearlier
        · obtain ⟨behind, rfl⟩ := Nat.exists_eq_add_of_le hge
          rw [hdrop] at hearlier
          exact hnone behind (by omega) hearlier

end Find

section Parts

variable {pattern : List α}

theorem stripPrefix_append (text : List α) : stripPrefix pattern (pattern ++ text) = some text := by
  rw [stripPrefix, if_pos (List.prefix_append _ _), List.drop_left]

theorem stripSuffix_append (text : List α) : stripSuffix pattern (text ++ pattern) = some text := by
  rw [stripSuffix, if_pos (List.suffix_append _ _), List.length_append, Nat.add_sub_cancel,
    List.take_left]

theorem stripPrefix_eq_some {text rest : List α} :
    stripPrefix pattern text = some rest ↔ text = pattern ++ rest := by
  constructor
  · intro h
    unfold stripPrefix at h
    split at h
    · next hbegins =>
        obtain ⟨rest', rfl⟩ := hbegins
        rw [List.drop_left] at h
        rw [Option.some.inj h]
    · cases h
  · rintro rfl
    exact stripPrefix_append rest

/-- A text begins with its first part. -/
theorem split_head (pattern text : List α) :
    ∃ first rest, split pattern text = first :: rest ∧ first <+: text := by
  unfold split
  cases text.length with
  | zero => exact ⟨text, [], rfl, List.prefix_rfl⟩
  | succ fuel =>
      rw [splitWithin, splitOnce]
      cases find pattern text with
      | none => exact ⟨text, [], rfl, List.prefix_rfl⟩
      | some start => exact ⟨_, _, rfl, List.take_prefix _ _⟩

end Parts

section Joins

variable {c : α} {cs : List α}

omit [DecidableEq α] in
/-- A pattern begins nowhere in a lead that its first item is not in. -/
theorem not_begins_of_not_mem {lead : List α} (hlead : c ∉ lead) (text : List α) {start : Nat}
    (hstart : start < lead.length) : ¬ c :: cs <+: (lead ++ text).drop start := by
  intro hbegins
  rw [List.drop_append_of_le_length (Nat.le_of_lt hstart), List.drop_eq_getElem_cons hstart,
    List.cons_append, List.cons_prefix_cons] at hbegins
  exact hlead (hbegins.1 ▸ List.getElem_mem hstart)

theorem find_eq_none_of_not_mem {text : List α} (h : c ∉ text) : find (c :: cs) text = none := by
  apply find_eq_none.mpr
  intro start hle hfound
  rcases Nat.lt_or_ge start text.length with hlt | hge
  · have hbegins : ¬ c :: cs <+: (text ++ []).drop start := not_begins_of_not_mem h [] hlt
    rw [List.append_nil] at hbegins
    exact hbegins hfound
  · rw [List.drop_eq_nil_of_le hge] at hfound
    cases List.prefix_nil.mp hfound

theorem splitOnce_eq_none_of_not_mem {text : List α} (h : c ∉ text) :
    splitOnce (c :: cs) text = none := by
  rw [splitOnce, find_eq_none_of_not_mem h, Option.map_none]

theorem splitOnce_append {lead : List α} (hlead : c ∉ lead) (text : List α) :
    splitOnce (c :: cs) (lead ++ (c :: cs) ++ text) = some (lead, text) := by
  have hfind : find (c :: cs) (lead ++ ((c :: cs) ++ text)) = some lead.length := by
    rw [find_behind fun start hstart => not_begins_of_not_mem hlead _ hstart,
      find_eq_some.mpr ⟨Nat.zero_le _, List.prefix_append _ _, fun _ h => absurd h (Nat.not_lt_zero _)⟩,
      Option.map_some, Nat.add_zero]
  rw [splitOnce, List.append_assoc, hfind, Option.map_some, List.take_left, ← List.drop_drop,
    List.drop_left, List.drop_left]

/-- What is split in two is put together again with the pattern between. -/
theorem append_of_splitOnce {pattern text first rest : List α}
    (h : splitOnce pattern text = some (first, rest)) : text = first ++ pattern ++ rest := by
  obtain ⟨start, hstart, hparts⟩ := Option.map_eq_some_iff.mp h
  cases hparts
  obtain ⟨_, ⟨after, hafter⟩, _⟩ := find_eq_some.mp hstart
  rw [← List.drop_drop, ← hafter, List.drop_left, List.append_assoc, hafter, List.take_append_drop]

theorem join_splitWithin (pattern : List α) (fuel : Nat) (text : List α) :
    splitWithin pattern fuel text ≠ [] ∧
      pattern.intercalate (splitWithin pattern fuel text) = text := by
  induction fuel generalizing text with
  | zero => exact ⟨List.cons_ne_nil _ _, List.intercalate_singleton⟩
  | succ fuel ih =>
      rw [splitWithin]
      cases hsplit : splitOnce pattern text with
      | none => exact ⟨List.cons_ne_nil _ _, List.intercalate_singleton⟩
      | some parts =>
          obtain ⟨first, rest⟩ := parts
          obtain ⟨hne, hjoin⟩ := ih rest
          refine ⟨List.cons_ne_nil _ _, ?_⟩
          dsimp only
          rw [List.intercalate_cons_of_ne_nil hne, hjoin, ← append_of_splitOnce hsplit]

/-- The parts of a text, joined by what separates them, are the text. -/
theorem join_split (pattern text : List α) :
    split pattern text ≠ [] ∧ pattern.intercalate (split pattern text) = text :=
  join_splitWithin pattern text.length text

theorem splitWithin_join {parts : List (List α)} (hne : parts ≠ [])
    (hparts : ∀ part ∈ parts, c ∉ part) {fuel : Nat}
    (hfuel : ((c :: cs).intercalate parts).length ≤ fuel) :
    splitWithin (c :: cs) fuel ((c :: cs).intercalate parts) = parts := by
  induction parts generalizing fuel with
  | nil => exact absurd rfl hne
  | cons part parts ih =>
      obtain ⟨hpart, hrest⟩ := List.forall_mem_cons.mp hparts
      cases parts with
      | nil =>
          rw [List.intercalate_singleton]
          cases fuel with
          | zero => rfl
          | succ fuel => rw [splitWithin, splitOnce_eq_none_of_not_mem hpart]
      | cons second parts =>
          have hcons : second :: parts ≠ [] := List.cons_ne_nil _ _
          rw [List.intercalate_cons_of_ne_nil hcons] at hfuel ⊢
          simp only [List.length_append, List.length_cons] at hfuel
          obtain ⟨fuel, rfl⟩ := Nat.exists_eq_add_of_le' (show 1 ≤ fuel by omega)
          rw [splitWithin, splitOnce_append hpart]
          dsimp only
          rw [ih hcons hrest (by omega)]

/-- Parts in which no separator begins are found again. -/
theorem split_join {parts : List (List α)} (hne : parts ≠ []) (hparts : ∀ part ∈ parts, c ∉ part) :
    split (c :: cs) ((c :: cs).intercalate parts) = parts :=
  splitWithin_join hne hparts (Nat.le_refl _)

omit [DecidableEq α] in
/-- Lines that all end alike. -/
theorem intercalate_append {pattern : List α} {parts : List (List α)} (hne : parts ≠ []) :
    pattern.intercalate parts ++ pattern = parts.flatMap (· ++ pattern) := by
  induction parts with
  | nil => exact absurd rfl hne
  | cons part parts ih =>
      cases parts with
      | nil => simp
      | cons second parts =>
          have hcons : second :: parts ≠ [] := List.cons_ne_nil _ _
          rw [List.intercalate_cons_of_ne_nil hcons, List.append_assoc, ih hcons]
          simp only [List.flatMap_cons]

end Joins

section Lines

variable {first second : α}

/-- The empty line behind lines that are not empty is where two ends of lines first meet. -/
theorem find_emptyLine (hends : first ≠ second) {lines : List (List α)} (hne : lines ≠ [])
    (hlines : ∀ line ∈ lines, line ≠ [] ∧ first ∉ line) (rest : List α) :
    find [first, second, first, second]
      (lines.flatMap (· ++ [first, second]) ++ ([first, second] ++ rest)) =
        some ((lines.flatMap (· ++ [first, second])).length - 2) := by
  induction lines with
  | nil => exact absurd rfl hne
  | cons line lines ih =>
      obtain ⟨⟨_, hline⟩, hrest⟩ := List.forall_mem_cons.mp hlines
      cases lines with
      | nil =>
          have htext : [line].flatMap (· ++ [first, second]) ++ ([first, second] ++ rest) =
              line ++ ([first, second, first, second] ++ rest) := by simp
          rw [htext, find_behind fun start hstart => not_begins_of_not_mem hline _ hstart,
            find_eq_some.mpr
              ⟨Nat.zero_le _, List.prefix_append _ _, fun _ h => absurd h (Nat.not_lt_zero _)⟩]
          simp
      | cons next lines =>
          obtain ⟨⟨hnext, hnext'⟩, _⟩ := List.forall_mem_cons.mp hrest
          obtain ⟨head, tail, rfl⟩ := List.exists_cons_of_ne_nil hnext
          have hhead : head ≠ first := fun h => hnext' (h ▸ List.mem_cons_self)
          -- No end of a line meets another one before the next line begins.
          have hlead : ∀ more, ∀ start < (line ++ [first, second]).length,
              ¬ [first, second, first, second] <+:
                (line ++ [first, second] ++ head :: more).drop start := by
            intro more start hstart hbegins
            rw [List.append_assoc] at hbegins
            rcases Nat.lt_or_ge start line.length with hlt | hge
            · exact not_begins_of_not_mem hline _ hlt hbegins
            · obtain ⟨behind, rfl⟩ := Nat.exists_eq_add_of_le hge
              rw [← List.drop_drop, List.drop_left] at hbegins
              rw [List.length_append, List.length_cons, List.length_singleton] at hstart
              obtain rfl | rfl : behind = 0 ∨ behind = 1 := by omega
              · simp [List.cons_prefix_cons, hhead.symm] at hbegins
              · simp [List.cons_prefix_cons, hends] at hbegins
          have htail := ih (List.cons_ne_nil _ _) hrest
          rw [List.flatMap_cons, List.append_assoc _ _ ([first, second] ++ rest)]
          have hbegin : ((head :: tail) :: lines).flatMap (· ++ [first, second]) ++
              ([first, second] ++ rest) = head :: (tail ++ [first, second] ++
                lines.flatMap (· ++ [first, second]) ++ ([first, second] ++ rest)) := by simp
          rw [hbegin] at htail ⊢
          rw [find_behind (hlead _), htail, Option.map_some]
          simp only [List.length_append, List.length_cons, List.flatMap_cons, List.length_nil,
            Option.some.injEq]
          omega

end Lines

section OpenSuffix

variable {pattern text : List α}

theorem openSuffix_spec (pattern text : List α) :
    openSuffix pattern text = 0 ∨ openSuffix pattern text < pattern.length ∧
      pattern.take (openSuffix pattern text) <:+ text := by
  unfold openSuffix
  cases hfind : (List.range' 1 (pattern.length - 1)).reverse.find? fun length =>
      pattern.take length <:+ text with
  | none => exact .inl rfl
  | some length =>
      have hmem := List.mem_of_find?_eq_some hfind
      rw [List.mem_reverse, List.mem_range'_1] at hmem
      have hends : pattern.take length <:+ text := by simpa using List.find?_some hfind
      rw [Option.getD_some]
      exact .inr ⟨by omega, hends⟩

theorem openSuffix_le : openSuffix pattern text ≤ text.length := by
  rcases openSuffix_spec pattern text with hzero | ⟨hshort, hends⟩
  · rw [hzero]
    exact Nat.zero_le _
  · have hle := hends.length_le
    rw [List.length_take] at hle
    omega

theorem le_openSuffix {length : Nat} (hshort : length < pattern.length)
    (hends : pattern.take length <:+ text) : length ≤ openSuffix pattern text := by
  unfold openSuffix
  rcases Nat.eq_zero_or_pos length with rfl | hpos
  · exact Nat.zero_le _
  · have hmem : length ∈ (List.range' 1 (pattern.length - 1)).reverse := by
      rw [List.mem_reverse, List.mem_range'_1]
      omega
    cases hfind : (List.range' 1 (pattern.length - 1)).reverse.find? fun length =>
        pattern.take length <:+ text with
    | none =>
        have hmiss := List.find?_eq_none.mp hfind length hmem
        exact absurd (decide_eq_true hends) hmiss
    | some longest =>
        apply Search.find?_greatest _ hfind hmem (decide_eq_true hends)
        rw [List.pairwise_reverse]
        exact List.pairwise_lt_range'

/-- The end of a text that is open is open in itself. -/
theorem openSuffix_drop (pattern text : List α) :
    openSuffix pattern (text.drop (text.length - openSuffix pattern text)) =
      openSuffix pattern text := by
  have hle : openSuffix pattern text ≤ text.length := openSuffix_le
  have hlength : (text.drop (text.length - openSuffix pattern text)).length =
      openSuffix pattern text := by
    rw [List.length_drop, Nat.sub_sub_self hle]
  apply Nat.le_antisymm
  · calc openSuffix pattern (text.drop (text.length - openSuffix pattern text))
        ≤ (text.drop (text.length - openSuffix pattern text)).length := openSuffix_le
      _ = openSuffix pattern text := hlength
  · rcases openSuffix_spec pattern text with hzero | ⟨hshort, hends⟩
    · rw [hzero]
      exact Nat.zero_le _
    · apply le_openSuffix hshort
      apply List.suffix_of_suffix_length_le hends (List.drop_suffix _ _)
      rw [hlength, List.length_take]
      exact Nat.min_le_left _ _

/-- Before the end that is open, no occurrence begins, however the text goes on. -/
theorem not_begins_before (hnone : find pattern text = none) {start : Nat}
    (hstart : start < text.length - openSuffix pattern text) (more : List α) :
    ¬ pattern <+: (text ++ more).drop start := by
  intro hbegins
  rw [List.drop_append_of_le_length (by omega)] at hbegins
  rcases Nat.lt_or_ge (text.drop start).length pattern.length with hshort | hlong
  · have hopens : text.drop start <+: pattern :=
      List.prefix_of_prefix_length_le (List.prefix_append _ _) hbegins (Nat.le_of_lt hshort)
    have hends : pattern.take (text.drop start).length <:+ text := by
      rw [← List.prefix_iff_eq_take.mp hopens]
      exact List.drop_suffix _ _
    have hle := le_openSuffix hshort hends
    rw [List.length_drop] at hle
    omega
  · apply find_eq_none.mp hnone start (by omega)
    exact List.prefix_of_prefix_length_le hbegins (List.prefix_append _ _) hlong

end OpenSuffix

end Riley.Substrings
