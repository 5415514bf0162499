import Riley.Server.Chat

/-!
The filter of a stream against the parser of a whole text. Whatever way a text
comes in, the filter ends with the calls that the parser reads in the text, or
with all of the text shown or held.
-/

namespace Riley.Server

open Utf8 (Text)
open Substrings

section Trimming

theorem trimStart_append {first : Text} (hne : trimStart first ≠ []) (second : Text) :
    trimStart (first ++ second) = trimStart first ++ second := by
  unfold trimStart at *
  rw [List.dropWhile_append, if_neg]
  simpa using hne

theorem trim_prefix (text : Text) : trim text <+: trimStart text := List.rdropWhile_prefix _ _

/-- What is left of a trimmed text begins as the text does. -/
theorem head_trim {text : Text} {c : Char} (h : (trimStart (trim text)).head? = some c) :
    (trimStart text).head? = some c := by
  have hbegins := trim_prefix text
  cases htrim : trim text with
  | nil =>
      rw [htrim] at h
      cases h
  | cons first rest =>
      rw [htrim] at h hbegins
      obtain ⟨more, hmore⟩ := hbegins
      have hwhole : first :: rest ++ more = text.dropWhile isWhitespace := hmore
      have hfirst := List.head?_dropWhile_not isWhitespace text
      rw [← hwhole] at hfirst
      rw [trimStart, List.dropWhile_cons_of_neg (Bool.eq_false_iff.mp hfirst)] at h
      rw [← hmore]
      exact h

end Trimming

/-- An object is written with a brace in front. -/
def JsonLibrary.ObjectsOpen (json : JsonLibrary) : Prop :=
  ∀ text entries, json.fromStr text = some (.object entries) →
    (trimStart text).head? = some '{'

/-- A text that may still become a call: nothing, a part of the tag, or a call. -/
def MayCall (start : Text) : Prop :=
  start = [] ∨ start <+: pythonTag ∨ pythonTag <+: start ∨ start.head? = some '{'

/-- A text that is taken for a call. -/
def OpensCall (start : Text) : Prop :=
  start.head? = some '{' ∨ pythonTag <+: start ∧ start ≠ pythonTag

section Opening

variable {start : Text}

theorem OpensCall.ne_nil (h : OpensCall start) : start ≠ [] := by
  rintro rfl
  rcases h with h | ⟨h, -⟩
  · cases h
  · cases List.prefix_nil.mp h

theorem OpensCall.append (h : OpensCall start) (more : Text) : OpensCall (start ++ more) := by
  have hne := h.ne_nil
  rcases h with h | ⟨h, hlong⟩
  · left
    rw [List.head?_append_of_ne_nil _ hne]
    exact h
  · right
    refine ⟨h.trans (List.prefix_append _ _), fun heq => hlong ?_⟩
    exact (heq ▸ List.prefix_append start more).eq_of_length_le h.length_le

theorem MayCall.of_append {more : Text} (h : MayCall (start ++ more)) : MayCall start := by
  by_cases hne : start = []
  · exact .inl hne
  · rcases h with h | h | h | h
    · exact absurd (List.append_eq_nil_iff.mp h).1 hne
    · exact .inr (.inl ((List.prefix_append _ _).trans h))
    · rcases List.prefix_or_prefix_of_prefix (List.prefix_append start more) h with h | h
      · exact .inr (.inl h)
      · exact .inr (.inr (.inl h))
    · rw [List.head?_append_of_ne_nil _ hne] at h
      exact .inr (.inr (.inr h))

theorem OpensCall.mayCall (h : OpensCall start) : MayCall start := by
  rcases h with h | ⟨h, -⟩
  · exact .inr (.inr (.inr h))
  · exact .inr (.inr (.inl h))

/-- Of what may become a call, that is taken for one which is no part of the tag. -/
theorem MayCall.opens_iff (h : MayCall start) :
    OpensCall start ↔ start ≠ [] ∧ ¬ start <+: pythonTag := by
  constructor
  · intro hopens
    refine ⟨hopens.ne_nil, fun hpart => ?_⟩
    rcases hopens with hhead | ⟨htag, hlong⟩
    · have hne : start ≠ [] := by
        rintro rfl
        cases hhead
      obtain ⟨more, hmore⟩ := hpart
      have hfirst : pythonTag.head? = start.head? := by
        rw [← hmore, List.head?_append_of_ne_nil _ hne]
      rw [hhead] at hfirst
      exact absurd hfirst (by decide)
    · exact hlong (hpart.eq_of_length_le htag.length_le)
  · rintro ⟨hne, hpart⟩
    rcases h with h | h | h | h
    · exact absurd h hne
    · exact absurd h hpart
    · exact .inr ⟨h, fun heq => hpart (heq ▸ List.prefix_rfl)⟩
    · exact .inl h

end Opening

section Reading

variable {json : JsonLibrary}

theorem readCall_opens (hjson : json.ObjectsOpen) {body : Text} {call : ToolCall}
    (h : readCall json body = some call) : (trimStart body).head? = some '{' := by
  obtain ⟨value, hvalue, h⟩ := Option.bind_eq_some_iff.mp h
  obtain ⟨name, hname, -⟩ := Option.bind_eq_some_iff.mp h
  cases value with
  | object entries => exact head_trim (hjson _ _ hvalue)
  | null | bool | number | string | array => cases hname

/-- The calls of a bare text are read behind a brace, or behind the tag. -/
theorem parse_opens (hjson : json.ObjectsOpen) {text : Text} {parsed : Text × List ToolCall}
    (h : parseToolCalls json .llamaJson text = some parsed) : OpensCall (trimStart text) := by
  obtain ⟨calls, hcalls, -⟩ := Option.bind_eq_some_iff.mp h
  generalize hbody : (stripPrefix pythonTag (trim text)).getD (trim text) = body at hcalls
  obtain ⟨first, rest, hsplit, hfirst⟩ := split_head callSeparator body
  rw [hsplit, List.mapM_cons] at hcalls
  obtain ⟨call, hcall, -⟩ := Option.bind_eq_some_iff.mp hcalls
  have hopens := readCall_opens hjson hcall
  have hne : trimStart first ≠ [] := by
    intro hnil
    rw [hnil] at hopens
    cases hopens
  obtain ⟨more, rfl⟩ := hfirst
  cases hstrip : stripPrefix pythonTag (trim text) with
  | none =>
      rw [hstrip, Option.getD_none] at hbody
      left
      apply head_trim
      rw [hbody, trimStart_append hne, List.head?_append_of_ne_nil _ hne]
      exact hopens
  | some behind =>
      rw [hstrip, Option.getD_some] at hbody
      subst hbody
      have htrim := stripPrefix_eq_some.mp hstrip
      have hbegins := trim_prefix text
      right
      refine ⟨?_, fun heq => ?_⟩
      · apply List.IsPrefix.trans _ hbegins
        rw [htrim]
        exact List.prefix_append _ _
      · rw [htrim, heq] at hbegins
        have hlength := hbegins.length_le
        rw [List.length_append] at hlength
        have hempty : first ++ more = [] := List.eq_nil_of_length_eq_zero (by omega)
        rw [(List.append_eq_nil_iff.mp hempty).1] at hne
        exact hne rfl

theorem hermesCalls_extends {fuel : Nat} {rest : Text} {calls found : List ToolCall}
    (h : hermesCalls json fuel rest calls = some found) : calls <+: found := by
  induction fuel generalizing rest calls with
  | zero =>
      cases h
      exact List.prefix_rfl
  | succ fuel ih =>
      rw [hermesCalls] at h
      split at h
      · cases h
        exact List.prefix_rfl
      · split at h
        · split at h
          · next hempty =>
              rw [hempty]
              exact List.nil_prefix
          · cases h
            exact List.prefix_rfl
        · obtain ⟨call, -, h⟩ := Option.bind_eq_some_iff.mp h
          exact (List.prefix_append _ _).trans (ih h)

/-- A text that is parsed has a call. -/
theorem parse_calls_ne_nil {style : ToolStyle} {text content : Text} {calls : List ToolCall}
    (h : parseToolCalls json style text = some (content, calls)) : calls ≠ [] := by
  cases style with
  | hermes =>
      obtain ⟨first, hfirst, h⟩ := Option.bind_eq_some_iff.mp h
      obtain ⟨found, hfound, h⟩ := Option.bind_eq_some_iff.mp h
      cases h
      obtain ⟨-, hbegins, -⟩ := find_eq_some.mp hfirst
      have hzero : find hermesOpen (text.drop first) = some 0 :=
        find_eq_some.mpr ⟨Nat.zero_le _, hbegins, fun earlier hlt => absurd hlt (Nat.not_lt_zero _)⟩
      rw [hermesCalls, splitOnce, hzero] at hfound
      simp only [Option.map_some] at hfound
      split at hfound
      · obtain ⟨call, -, hcall⟩ := Option.bind_eq_some_iff.mp hfound
        cases hcall
        exact List.cons_ne_nil _ _
      · obtain ⟨call, -, hmore⟩ := Option.bind_eq_some_iff.mp hfound
        have hextends := hermesCalls_extends hmore
        rintro rfl
        cases List.prefix_nil.mp hextends
  | llamaJson =>
      obtain ⟨found, hfound, h⟩ := Option.bind_eq_some_iff.mp h
      cases h
      generalize (stripPrefix pythonTag (trim text)).getD (trim text) = body at hfound
      obtain ⟨first, rest, hsplit, -⟩ := split_head callSeparator body
      rw [hsplit, List.mapM_cons] at hfound
      obtain ⟨call, -, hfound⟩ := Option.bind_eq_some_iff.mp hfound
      obtain ⟨more, -, hfound⟩ := Option.bind_eq_some_iff.mp hfound
      cases hfound
      exact List.cons_ne_nil _ _

end Reading

/-- Where a filter stands behind the text seen, and what it has shown of it. -/
inductive Streamed : Text → ToolStreamFilter → Text → Prop
  /-- No tag has been found, and none begins in what was shown. -/
  | searching {shown held : Text} {contentSeen : Bool}
      (hnone : find hermesOpen held = none)
      (hopen : openSuffix hermesOpen held = held.length)
      (hshown : ∀ more, ∀ start < shown.length, ¬ hermesOpen <+: (shown ++ (held ++ more)).drop start) :
      Streamed (shown ++ held) ⟨.hermes, held, false, contentSeen⟩ shown
  | tagged {shown held : Text} {contentSeen : Bool}
      (hfind : find hermesOpen (shown ++ held) = some shown.length) :
      Streamed (shown ++ held) ⟨.hermes, held, true, contentSeen⟩ shown
  | waiting {seen : Text} (hmay : MayCall (trimStart seen)) (hnot : ¬ OpensCall (trimStart seen)) :
      Streamed seen ⟨.llamaJson, seen, false, false⟩ []
  | opened {seen : Text} (hopens : OpensCall (trimStart seen)) :
      Streamed seen ⟨.llamaJson, seen, true, false⟩ []
  | plain {seen : Text} (hnot : ¬ MayCall (trimStart seen)) :
      Streamed seen ⟨.llamaJson, [], false, true⟩ seen

section Filter

theorem streamed_new (style : ToolStyle) : Streamed [] (.new style) [] := by
  cases style with
  | hermes =>
      have h : Streamed ([] ++ []) ⟨.hermes, [], false, false⟩ [] := by
        apply Streamed.searching
        · rfl
        · rfl
        · intro more start hlt
          cases hlt
      exact h
  | llamaJson =>
      apply Streamed.waiting
      · exact .inl rfl
      · exact fun h => h.ne_nil rfl

/-- A search that takes up what was held finds the tag of the whole, or shows what no
tag can begin in. -/
theorem Streamed.search {shown held : Text} {contentSeen : Bool}
    (hshown : ∀ more, ∀ start < shown.length,
      ¬ hermesOpen <+: (shown ++ (held ++ more)).drop start) :
    Streamed (shown ++ held)
      (ToolStreamFilter.push ⟨.hermes, held, false, contentSeen⟩ []).1
      (shown ++ (ToolStreamFilter.push ⟨.hermes, held, false, contentSeen⟩ []).2) := by
  simp only [ToolStreamFilter.push, List.append_nil, Bool.false_eq_true, if_false]
  cases hfind : find hermesOpen held with
  | some start =>
      simp only [ToolStreamFilter.showFirst]
      have hle := (find_eq_some.mp hfind).1
      have hwhole : shown ++ held = shown ++ held.take start ++ held.drop start := by
        rw [List.append_assoc, List.take_append_drop]
      rw [hwhole]
      apply Streamed.tagged
      rw [← hwhole, find_behind, hfind, Option.map_some, List.length_append, List.length_take,
        Nat.min_eq_left hle]
      intro earlier hlt
      have hnone := hshown [] earlier hlt
      rwa [List.append_nil] at hnone
  | none =>
      simp only [ToolStreamFilter.showFirst]
      generalize hkept : held.length - openSuffix hermesOpen held = count
      have hopens := openSuffix_drop hermesOpen held
      have hle : openSuffix hermesOpen held ≤ held.length := openSuffix_le
      rw [hkept] at hopens
      have hwhole : shown ++ held = shown ++ held.take count ++ held.drop count := by
        rw [List.append_assoc, List.take_append_drop]
      rw [hwhole]
      apply Streamed.searching
      · apply find_eq_none.mpr
        intro start hstart hbegins
        rw [List.drop_drop] at hbegins
        rw [List.length_drop] at hstart
        exact find_eq_none.mp hfind (count + start) (by omega) hbegins
      · rw [hopens, List.length_drop]
        omega
      · intro more start hlt
        rw [List.length_append, List.length_take] at hlt
        rw [List.append_assoc, ← List.append_assoc (held.take count), List.take_append_drop]
        rcases Nat.lt_or_ge start shown.length with hbefore | hge
        · exact hshown more start hbefore
        · obtain ⟨behind, rfl⟩ := Nat.exists_eq_add_of_le hge
          rw [← List.drop_drop, List.drop_left]
          exact not_begins_before hfind (by omega) more

theorem push_held (filter : ToolStreamFilter) (text : Text) :
    filter.push text = ToolStreamFilter.push { filter with held := filter.held ++ text } [] := by
  simp only [ToolStreamFilter.push, List.append_nil]

theorem push_style (filter : ToolStreamFilter) (text : Text) :
    (filter.push text).1.style = filter.style := by
  simp only [ToolStreamFilter.push]
  split
  · rfl
  · split
    · split <;> rfl
    · split
      · rfl
      · split <;> rfl

/-- One more piece of text leaves the filter where it must stand. -/
theorem Streamed.push {seen shown : Text} {filter : ToolStreamFilter}
    (h : Streamed seen filter shown) (text : Text) :
    Streamed (seen ++ text) (filter.push text).1 (shown ++ (filter.push text).2) := by
  cases h with
  | @searching shown held contentSeen hnone hopen hshown =>
      rw [push_held, List.append_assoc]
      apply Streamed.search
      intro more start hlt
      rw [List.append_assoc]
      exact hshown (text ++ more) start hlt
  | @tagged shown held contentSeen hfind =>
      simp only [ToolStreamFilter.push, if_true, List.append_nil]
      rw [List.append_assoc]
      apply Streamed.tagged
      rw [← List.append_assoc]
      exact find_append hfind text
  | waiting hmay hnot =>
      simp only [ToolStreamFilter.push, Bool.false_eq_true, if_false, List.nil_append]
      split
      · next hmore =>
          have hmore : MayCall (trimStart (seen ++ text)) := hmore
          have hiff := hmore.opens_iff
          cases hflag : !(trimStart (seen ++ text)).isEmpty &&
              !decide (trimStart (seen ++ text) <+: pythonTag) with
          | true =>
              apply Streamed.opened
              apply hiff.mpr
              simpa using hflag
          | false =>
              apply Streamed.waiting hmore
              intro hopens
              obtain ⟨hne, hpart⟩ := hiff.mp hopens
              simp [hne, hpart] at hflag
      · next hplain => exact Streamed.plain hplain
  | opened hopens =>
      simp only [ToolStreamFilter.push, if_true, List.append_nil]
      apply Streamed.opened
      rw [trimStart_append hopens.ne_nil]
      exact hopens.append text
  | plain hnot =>
      simp only [ToolStreamFilter.push, Bool.false_eq_true, if_false, if_true, List.nil_append]
      apply Streamed.plain
      intro hmay
      have hne : trimStart seen ≠ [] := fun hnil => hnot (.inl hnil)
      rw [trimStart_append hne] at hmay
      exact hnot hmay.of_append

/-- The end of a stream brings no text, and nothing more is shown for it. -/
theorem Streamed.push_nil {seen shown : Text} {filter : ToolStreamFilter}
    (h : Streamed seen filter shown) : (filter.push []).2 = [] := by
  cases h with
  | searching hnone hopen hshown =>
      simp [ToolStreamFilter.push, ToolStreamFilter.showFirst, hnone, hopen]
  | tagged hfind => simp [ToolStreamFilter.push]
  | waiting hmay hnot =>
      simp only [ToolStreamFilter.push, List.append_nil, Bool.false_eq_true, if_false]
      unfold MayCall at hmay
      rw [if_pos hmay]
  | opened hopens => simp [ToolStreamFilter.push]
  | plain hnot => simp [ToolStreamFilter.push]

variable {json : JsonLibrary}

theorem parse_tagged (json : JsonLibrary) {shown held : Text}
    (hfind : find hermesOpen (shown ++ held) = some shown.length) :
    parseToolCalls json .hermes (shown ++ held) =
      (hermesCalls json (held.length + 1) held []).map fun calls => (trimEnd shown, calls) := by
  simp only [parseToolCalls, hfind]
  rw [Option.bind_eq_bind, Option.bind_some, List.drop_left, List.take_left]
  cases hermesCalls json (held.length + 1) held [] <;> rfl

theorem parse_untagged {text : Text} (hfind : find hermesOpen text = none) :
    parseToolCalls json .hermes text = none := by
  simp only [parseToolCalls, hfind]
  rfl

/-- At the end the filter has the calls of the text, or the part that was not shown. -/
theorem Streamed.finish (hjson : json.ObjectsOpen) {seen shown : Text} {filter : ToolStreamFilter}
    (h : Streamed seen filter shown) :
    (∃ calls, parseToolCalls json filter.style seen = some (trimEnd shown, calls) ∧
      (filter.finish json).2 = .ok calls) ∨
    (∃ held, parseToolCalls json filter.style seen = none ∧
      (filter.finish json).2 = .error held ∧ shown ++ held = seen) := by
  cases h with
  | @searching shown held contentSeen hnone hopen hshown =>
      right
      have hwhole : find hermesOpen (shown ++ held) = none := by
        rw [find_behind, hnone]
        · rfl
        · intro start hlt
          have hbegins := hshown [] start hlt
          rwa [List.append_nil] at hbegins
      refine ⟨held, parse_untagged hwhole, ?_, rfl⟩
      simp [ToolStreamFilter.finish, parse_untagged hnone]
  | @tagged shown held contentSeen hfind =>
      have hbegins := (find_eq_some.mp hfind).2.1
      rw [List.drop_left] at hbegins
      have hheld : find hermesOpen ([] ++ held) = some ([] : Text).length :=
        find_eq_some.mpr ⟨Nat.zero_le _, hbegins, fun earlier hlt => absurd hlt (Nat.not_lt_zero _)⟩
      have hseen := parse_tagged json hfind
      have hrest := parse_tagged json hheld
      rw [List.nil_append] at hrest
      cases hcalls : hermesCalls json (held.length + 1) held [] with
      | none =>
          right
          rw [hcalls] at hseen hrest
          refine ⟨held, hseen, ?_, rfl⟩
          simp [ToolStreamFilter.finish, hrest]
      | some calls =>
          left
          rw [hcalls] at hseen hrest
          refine ⟨calls, hseen, ?_⟩
          simp [ToolStreamFilter.finish, hrest]
  | waiting hmay hnot =>
      right
      have hnone : parseToolCalls json .llamaJson seen = none :=
        Option.eq_none_iff_forall_ne_some.mpr fun parsed h => hnot (parse_opens hjson h)
      refine ⟨seen, hnone, ?_, rfl⟩
      simp [ToolStreamFilter.finish, hnone]
  | opened hopens =>
      cases hparse : parseToolCalls json .llamaJson seen with
      | none =>
          right
          refine ⟨seen, rfl, ?_, rfl⟩
          simp [ToolStreamFilter.finish, hparse]
      | some parsed =>
          left
          obtain ⟨calls, -, hcontent⟩ := Option.bind_eq_some_iff.mp hparse
          cases hcontent
          refine ⟨calls, rfl, ?_⟩
          simp [ToolStreamFilter.finish, hparse]
  | plain hnot =>
      right
      have hnone : parseToolCalls json .llamaJson seen = none :=
        Option.eq_none_iff_forall_ne_some.mpr fun parsed h =>
          hnot (parse_opens hjson h).mayCall
      have hempty : parseToolCalls json .llamaJson [] = none :=
        Option.eq_none_iff_forall_ne_some.mpr fun parsed h => (parse_opens hjson h).ne_nil rfl
      refine ⟨[], hnone, ?_, List.append_nil _⟩
      simp [ToolStreamFilter.finish, hempty]

end Filter

end Riley.Server
