import Mathlib
import Riley.Library.Outcome
import Riley.Server.Http

/-!
What the head of a request is: a request line and header fields, each on a line of its own, and
an empty line. A head is parsed exactly when it is one that the server takes.
-/

namespace Riley.Http

open Outcome (except_bind_eq_ok)
open Utf8 (Text encode)

/-- A header field as it is written, before and behind its colon. -/
structure Field where
  name : Text
  raw : Text
  deriving DecidableEq, Repr

namespace Field

def line (field : Field) : Text := field.name ++ ':' :: field.raw

/-- The name without its case. -/
def key (field : Field) : Text := field.name.map Char.toLower

def value (field : Field) : Text := trimBlanks field.raw

structure Formed (field : Field) : Prop where
  name_ne : field.name ≠ []
  name_bytes : ∀ c ∈ field.name, isHeaderNameByte c = true
  raw_printable : ∀ c ∈ field.raw, isControl c = false

instance (field : Field) : Decidable field.Formed :=
  decidable_of_iff
    (field.name ≠ [] ∧ field.name.all isHeaderNameByte = true ∧
      field.raw.all (fun c => !isControl c) = true)
    ⟨fun ⟨hne, hname, hraw⟩ => ⟨hne, by simpa using hname, by simpa using hraw⟩,
      fun h => ⟨h.name_ne, by simpa using h.name_bytes, by simpa using h.raw_printable⟩⟩

end Field

section Fields

/-- How often a name occurs in any case. -/
def occurs (name : String) (fields : List Field) : Nat := (fields.map Field.key).count name.toList

/-- The value of the first field of that name. -/
def valueOf (name : String) (fields : List Field) : Option Text :=
  (fields.find? fun field => field.key = name.toList).map Field.value

def decimal (value : Text) : Option Nat :=
  if value ≠ [] ∧ value.all Char.isDigit then some (Numerals.value value) else none

def declaredLength (fields : List Field) : Option Nat :=
  (valueOf "content-length" fields).bind decimal

/-- The names of which a request has one at most. -/
def single : List String := ["host", "content-length", "authorization", "content-type"]

/-- The names of which a request has none. -/
def framing : List String := ["transfer-encoding", "trailer", "upgrade", "expect"]

variable {fields : List Field} {field : Field} {name : String}

theorem occurs_snoc (name : String) (fields : List Field) (field : Field) :
    occurs name (fields ++ [field]) =
      occurs name fields + if field.key = name.toList then 1 else 0 := by
  simp [occurs, List.count_append, List.count_singleton]

theorem valueOf_snoc_other (h : field.key ≠ name.toList) :
    valueOf name (fields ++ [field]) = valueOf name fields := by
  simp [valueOf, List.find?_append, h]

theorem valueOf_eq_none : valueOf name fields = none ↔ occurs name fields = 0 := by
  simp [valueOf, occurs, List.count_eq_zero, List.find?_eq_none]

theorem valueOf_snoc_same (hkey : field.key = name.toList) (h : occurs name fields = 0) :
    valueOf name (fields ++ [field]) = some field.value := by
  have hnone := valueOf_eq_none.mpr h
  rw [valueOf, Option.map_eq_none_iff] at hnone
  simp [valueOf, List.find?_append, hkey, hnone]

/-- Fields that the server has taken so far. -/
structure Allowed (fields : List Field) : Prop where
  unique : ∀ name ∈ single, occurs name fields ≤ 1
  unframed : ∀ name ∈ framing, occurs name fields = 0
  host_ne : valueOf "host" fields ≠ some []
  length_fits : ∀ value, valueOf "content-length" fields = some value →
    ∃ length, decimal value = some length ∧ length ≤ usizeMax

/-- A field that may come next. -/
structure Fresh (fields : List Field) (field : Field) : Prop where
  once : ∀ name ∈ single, field.key = name.toList → occurs name fields = 0
  unframed : ∀ name ∈ framing, field.key ≠ name.toList
  host_ne : field.key = "host".toList → field.value ≠ []
  length_fits : field.key = "content-length".toList →
    ∃ length, decimal field.value = some length ∧ length ≤ usizeMax

theorem Allowed.nil : Allowed [] :=
  ⟨fun _ _ => Nat.zero_le 1, fun _ _ => rfl, fun h => (nomatch h), fun _ h => (nomatch h)⟩

theorem Allowed.snoc (h : Allowed fields) : Allowed (fields ++ [field]) ↔ Fresh fields field := by
  constructor
  · intro hsnoc
    have honce : ∀ name ∈ single, field.key = name.toList → occurs name fields = 0 := by
      intro name hname hkey
      have hle := hsnoc.unique name hname
      rw [occurs_snoc, if_pos hkey] at hle
      omega
    refine ⟨honce, ?_, ?_, ?_⟩
    · intro name hname hkey
      have hzero := hsnoc.unframed name hname
      rw [occurs_snoc, if_pos hkey] at hzero
      cases hzero
    · intro hkey hempty
      apply hsnoc.host_ne
      rw [valueOf_snoc_same hkey (honce "host" (by simp [single]) hkey), hempty]
    · intro hkey
      exact hsnoc.length_fits _
        (valueOf_snoc_same hkey (honce "content-length" (by simp [single]) hkey))
  · intro hfresh
    refine ⟨?_, ?_, ?_, ?_⟩
    · intro name hname
      rw [occurs_snoc]
      split
      · next hkey => rw [hfresh.once name hname hkey]
      · exact h.unique name hname
    · intro name hname
      rw [occurs_snoc, if_neg (hfresh.unframed name hname)]
      exact h.unframed name hname
    · by_cases hkey : field.key = "host".toList
      · rw [valueOf_snoc_same hkey (hfresh.once "host" (by simp [single]) hkey)]
        simpa using hfresh.host_ne hkey
      · rw [valueOf_snoc_other hkey]
        exact h.host_ne
    · by_cases hkey : field.key = "content-length".toList
      · rw [valueOf_snoc_same hkey (hfresh.once "content-length" (by simp [single]) hkey)]
        intro value hvalue
        cases hvalue
        exact hfresh.length_fits hkey
      · rw [valueOf_snoc_other hkey]
        exact h.length_fits

/-- What the server keeps of the fields. -/
def stateOf (fields : List Field) : HeadState :=
  ⟨⟨declaredLength fields, (valueOf "content-type" fields).any isJsonContentType,
    valueOf "authorization" fields⟩, (valueOf "host" fields).isSome,
    (valueOf "content-type" fields).isSome⟩

theorem eqIgnoreAsciiCase_iff (hlower : name.toList.map Char.toLower = name.toList) :
    eqIgnoreAsciiCase field.name name = true ↔ field.key = name.toList := by
  rw [eqIgnoreAsciiCase, decide_eq_true_eq, hlower, Field.key]

theorem parseDecimalUsize_eq_ok {value : Text} {length : Nat} :
    parseDecimalUsize value = .ok length ↔ decimal value = some length ∧ length ≤ usizeMax := by
  unfold parseDecimalUsize decimal
  by_cases hdigits : value.all Char.isDigit = true
  · by_cases hempty : value = []
    · simp [hempty]
    · by_cases hle : Numerals.value value ≤ usizeMax
      · simp only [hdigits, hempty, hle, ne_eq, not_false_eq_true, and_self, if_true,
          Except.ok.injEq, Option.some.injEq]
        constructor
        · rintro rfl
          exact ⟨rfl, hle⟩
        · exact fun h => h.1
      · simp only [hdigits, hempty, hle, ne_eq, not_false_eq_true, and_false, and_self, if_true,
          if_false, reduceCtorEq, Option.some.injEq, false_iff]
        rintro ⟨rfl, hle'⟩
        exact hle hle'
  · simp [hdigits]

theorem fresh_iff (hkey : field.key = name.toList) :
    Fresh fields field ↔
      (name ∈ single → occurs name fields = 0) ∧ name ∉ framing ∧
        (name = "host" → field.value ≠ []) ∧
        (name = "content-length" →
          ∃ length, decimal field.value = some length ∧ length ≤ usizeMax) := by
  have hsame : ∀ other : String, field.key = other.toList ↔ name = other := by
    intro other
    rw [hkey, String.toList_inj]
  constructor
  · intro h
    exact ⟨fun hmem => h.once name hmem hkey, fun hmem => h.unframed name hmem hkey,
      fun heq => h.host_ne ((hsame _).mpr heq), fun heq => h.length_fits ((hsame _).mpr heq)⟩
  · rintro ⟨honce, hunframed, hhost, hlength⟩
    refine ⟨?_, ?_, fun heq => hhost ((hsame _).mp heq), fun heq => hlength ((hsame _).mp heq)⟩
    · intro other hmem heq
      obtain rfl := (hsame other).mp heq
      exact honce hmem
    · intro other hmem heq
      obtain rfl := (hsame other).mp heq
      exact hunframed hmem

/-- A field whose name means nothing to the server. -/
theorem fresh_of_unknown (h : ∀ name ∈ single ++ framing, field.key ≠ name.toList) :
    Fresh fields field where
  once := fun name hmem hkey => absurd hkey (h name (List.mem_append_left _ hmem))
  unframed := fun name hmem => h name (List.mem_append_right _ hmem)
  host_ne := fun hkey => absurd hkey (h "host" (by simp [single]))
  length_fits := fun hkey => absurd hkey (h "content-length" (by simp [single]))

theorem isSome_valueOf : (valueOf name fields).isSome = true ↔ occurs name fields ≠ 0 := by
  rw [ne_eq, ← valueOf_eq_none, Option.isSome_iff_ne_none]

/-- Names that differ leave each other's values. -/
theorem valueOf_snoc_key {other : String} (hkey : field.key = other.toList) (hne : other ≠ name) :
    valueOf name (fields ++ [field]) = valueOf name fields :=
  valueOf_snoc_other fun h => hne (String.toList_inj.mp (hkey.symm.trans h))

theorem isSome_declaredLength (h : Allowed fields) :
    (declaredLength fields).isSome = true ↔ occurs "content-length" fields ≠ 0 := by
  rw [← isSome_valueOf, declaredLength]
  cases hvalue : valueOf "content-length" fields with
  | none => simp
  | some value =>
      obtain ⟨length, hlength, _⟩ := h.length_fits value hvalue
      simp [hlength]

/-- The state after a header, where it is one that may come next. -/
theorem takeHeader_eq_ok (h : Allowed fields) {state : HeadState} :
    takeHeader (stateOf fields) field.name field.value = .ok state ↔
      Allowed (fields ++ [field]) ∧ state = stateOf (fields ++ [field]) := by
  have hname : ∀ name : String, name.toList.map Char.toLower = name.toList →
      (eqIgnoreAsciiCase field.name name = true ↔ field.key = name.toList) :=
    fun name => eqIgnoreAsciiCase_iff
  have hhost := hname "host" rfl
  have hlength := hname "content-length" rfl
  have hauthorization := hname "authorization" rfl
  have htype := hname "content-type" rfl
  rw [h.snoc]
  unfold takeHeader
  by_cases hkey : field.key = "host".toList
  · rw [if_pos (hhost.mpr hkey), fresh_iff hkey]
    by_cases hzero : occurs "host" fields = 0
    · by_cases hempty : field.value = []
      · simp [hempty]
      · have hseen : (stateOf fields).hostSeen = false := by
          simp [stateOf, valueOf_eq_none.mpr hzero]
        have hstate : stateOf (fields ++ [field]) = { stateOf fields with hostSeen := true } := by
          simp [stateOf, declaredLength, valueOf_snoc_key hkey, valueOf_snoc_same hkey hzero]
        simp [hseen, hempty, hzero, framing, hstate, eq_comm]
    · have hseen : (stateOf fields).hostSeen = true := isSome_valueOf.mpr hzero
      simp [hseen, hzero, single]
  have hnotHost := hkey
  clear hkey
  rw [if_neg (hhost.not.mpr hnotHost)]
  by_cases hkey : field.key = "content-length".toList
  · rw [if_pos (hlength.mpr hkey), fresh_iff hkey]
    by_cases hzero : occurs "content-length" fields = 0
    · have hseen : (stateOf fields).parsed.contentLength.isSome = false := by
        simp [stateOf, declaredLength, valueOf_eq_none.mpr hzero]
      have hstate : ∀ length, decimal field.value = some length →
          stateOf (fields ++ [field]) = { stateOf fields with
            parsed := { (stateOf fields).parsed with contentLength := some length } } := by
        intro length hdecimal
        simp [stateOf, declaredLength, valueOf_snoc_key hkey, valueOf_snoc_same hkey hzero,
          hdecimal]
      by_cases hempty : field.value = []
      · simp [hempty, decimal]
      · simp only [hseen, hempty, Bool.false_eq_true, or_self, if_false, except_bind_eq_ok,
          parseDecimalUsize_eq_ok]
        constructor
        · rintro ⟨length, ⟨hdecimal, hle⟩, heq⟩
          cases heq
          exact ⟨by simp [framing, hzero, hdecimal, hle], (hstate length hdecimal).symm⟩
        · rintro ⟨hfresh, rfl⟩
          obtain ⟨length, hdecimal, hle⟩ := hfresh.2.2.2 trivial
          exact ⟨length, ⟨hdecimal, hle⟩, by rw [hstate length hdecimal]⟩
    · have hseen : (stateOf fields).parsed.contentLength.isSome = true :=
        (isSome_declaredLength h).mpr hzero
      simp [hseen, hzero, single]
  have hnotLength := hkey
  clear hkey
  rw [if_neg (hlength.not.mpr hnotLength)]
  by_cases hkey : field.key = "authorization".toList
  · rw [if_pos (hauthorization.mpr hkey), fresh_iff hkey]
    by_cases hzero : occurs "authorization" fields = 0
    · have hseen : (stateOf fields).parsed.authorization.isSome = false := by
        simp [stateOf, valueOf_eq_none.mpr hzero]
      have hstate : stateOf (fields ++ [field]) = { stateOf fields with
          parsed := { (stateOf fields).parsed with authorization := some field.value } } := by
        simp [stateOf, declaredLength, valueOf_snoc_key hkey, valueOf_snoc_same hkey hzero]
      simp only [hseen, hstate, hzero, Bool.false_eq_true, if_false, Except.ok.injEq]
      constructor
      · rintro rfl
        exact ⟨by simp [framing], rfl⟩
      · exact fun hnext => hnext.2.symm
    · have hseen : (stateOf fields).parsed.authorization.isSome = true :=
        isSome_valueOf.mpr hzero
      simp [hseen, hzero, single]
  have hnotAuthorization := hkey
  clear hkey
  rw [if_neg (hauthorization.not.mpr hnotAuthorization)]
  by_cases hkey : field.key = "content-type".toList
  · rw [if_pos (htype.mpr hkey), fresh_iff hkey]
    by_cases hzero : occurs "content-type" fields = 0
    · have hseen : (stateOf fields).contentTypeSeen = false := by
        simp [stateOf, valueOf_eq_none.mpr hzero]
      have hstate : stateOf (fields ++ [field]) = { stateOf fields with
          parsed := { (stateOf fields).parsed with
            contentTypeJson := isJsonContentType field.value }
          contentTypeSeen := true } := by
        simp [stateOf, declaredLength, valueOf_snoc_key hkey, valueOf_snoc_same hkey hzero]
      simp only [hseen, hstate, hzero, Bool.false_eq_true, if_false, Except.ok.injEq]
      constructor
      · rintro rfl
        exact ⟨by simp [framing], rfl⟩
      · exact fun hnext => hnext.2.symm
    · have hseen : (stateOf fields).contentTypeSeen = true := isSome_valueOf.mpr hzero
      simp [hseen, hzero, single]
  rw [if_neg (htype.not.mpr hkey)]
  have hsame : stateOf (fields ++ [field]) = stateOf fields := by
    simp only [stateOf, declaredLength, valueOf_snoc_other hnotHost,
      valueOf_snoc_other hnotLength, valueOf_snoc_other hnotAuthorization, valueOf_snoc_other hkey]
  have hframing : (eqIgnoreAsciiCase field.name "transfer-encoding" ||
      eqIgnoreAsciiCase field.name "trailer" || eqIgnoreAsciiCase field.name "upgrade" ||
        eqIgnoreAsciiCase field.name "expect") = true ↔
          ∃ name ∈ framing, field.key = name.toList := by
    simp [hname "transfer-encoding" rfl, hname "trailer" rfl, hname "upgrade" rfl,
      hname "expect" rfl, framing, or_assoc]
  by_cases hframed : ∃ name ∈ framing, field.key = name.toList
  · rw [if_pos (hframing.mpr hframed)]
    obtain ⟨name, hmem, heq⟩ := hframed
    simp only [reduceCtorEq, false_iff, not_and]
    exact fun hfresh => absurd heq (hfresh.unframed name hmem)
  · rw [if_neg (hframing.not.mpr hframed), hsame]
    have hfresh : Fresh fields field := by
      apply fresh_of_unknown
      intro name hmem heq
      rcases List.mem_append.mp hmem with hsingle | hmem
      · simp only [single, List.mem_cons, List.not_mem_nil, or_false] at hsingle
        rcases hsingle with rfl | rfl | rfl | rfl
        · exact hnotHost heq
        · exact hnotLength heq
        · exact hnotAuthorization heq
        · exact hkey heq
      · exact hframed ⟨name, hmem, heq⟩
    simp [hfresh, eq_comm]

/-- What is allowed was so before the last fields came. -/
theorem Allowed.of_append {more : List Field} (h : Allowed (fields ++ more)) : Allowed fields := by
  have hle : ∀ name, occurs name fields ≤ occurs name (fields ++ more) := by
    intro name
    rw [occurs, occurs, List.map_append, List.count_append]
    exact Nat.le_add_right _ _
  have hvalue : ∀ name value, valueOf name fields = some value →
      valueOf name (fields ++ more) = some value := by
    intro name value hvalue
    obtain ⟨field, hfield, rfl⟩ := Option.map_eq_some_iff.mp hvalue
    simp [valueOf, List.find?_append, hfield]
  exact ⟨fun name hname => (hle name).trans (h.unique name hname),
    fun name hname => Nat.le_zero.mp ((hle name).trans (h.unframed name hname).le),
    fun hempty => h.host_ne (hvalue _ _ hempty),
    fun value hlength => h.length_fits value (hvalue _ _ hlength)⟩

end Fields

section Lines

variable {limits : HttpLimits} {fields : List Field} {field : Field} {state : HeadState}

theorem mem_dropWhile_or {p : Char → Bool} {c : Char} {text : Text} (h : c ∈ text) :
    p c = true ∨ c ∈ text.dropWhile p := by
  rw [← @List.takeWhile_append_dropWhile _ p text] at h
  exact (List.mem_append.mp h).imp_left fun hmem => List.mem_takeWhile_imp hmem

theorem mem_trimBlanks_or {c : Char} {text : Text} (h : c ∈ text) :
    isBlank c = true ∨ c ∈ trimBlanks text := by
  rcases mem_dropWhile_or (p := isBlank) h with hblank | hmem
  · exact .inl hblank
  · rcases mem_dropWhile_or (p := isBlank) (List.mem_reverse.mpr hmem) with hblank | hmem
    · exact .inl hblank
    · exact .inr (List.mem_reverse.mpr hmem)

theorem mem_of_mem_trimBlanks {c : Char} {text : Text} (h : c ∈ trimBlanks text) : c ∈ text := by
  have hmem := (List.dropWhile_sublist _).mem (List.mem_reverse.mp h)
  exact (List.dropWhile_sublist _).mem (List.mem_reverse.mp hmem)

theorem not_control_iff {c : Char} : isControl c = false ↔ 32 ≤ c.toNat ∧ c.toNat ≠ 127 := by
  simp [isControl]

theorem printable_iff {c : Char} : (c = '\t' || ' ' ≤ c) = true ↔ c = '\t' ∨ 32 ≤ c.toNat := by
  rw [Bool.or_eq_true, decide_eq_true_eq, decide_eq_true_eq]
  rfl

/-- What a test of every character of a text says. -/
theorem forall_of_all {p : Char → Prop} [DecidablePred p] {text : Text}
    (h : (text.all fun c => decide (p c)) = true) : ∀ c ∈ text, p c := by
  simpa using h

theorem version_printable : ∀ c ∈ "HTTP/1.1".toList, isControl c = false :=
  forall_of_all (by decide)

theorem mark_printable : ∀ c ∈ "!#$%&'*+-.^_\x60|~".toList, isControl c = false :=
  forall_of_all (by decide)

theorem not_blank_of_name {c : Char} (h : isHeaderNameByte c = true) : isBlank c = false := by
  by_contra hblank
  rw [Bool.not_eq_false, isBlank, Bool.or_eq_true, decide_eq_true_eq, decide_eq_true_eq] at hblank
  rcases hblank with rfl | rfl
  · revert h
    decide
  · revert h
    decide

theorem name_printable {c : Char} (h : isHeaderNameByte c = true) : isControl c = false := by
  rw [isHeaderNameByte, Bool.or_eq_true, decide_eq_true_eq] at h
  rcases h with halphanum | hmark
  · rw [not_control_iff]
    simp only [Char.isAlphanum, Char.isAlpha, Char.isUpper, Char.isLower, Char.isDigit,
      Bool.or_eq_true, Bool.and_eq_true, decide_eq_true_eq, UInt32.le_iff_toNat_le, ge_iff_le]
      at halphanum
    have hval : c.toNat = c.val.toNat := rfl
    simp only [UInt32.reduceToNat, Char.reduceVal] at halphanum
    omega
  · exact mark_printable c hmark

theorem Field.Formed.line_printable (h : field.Formed) {c : Char} (hc : c ∈ field.line) :
    isControl c = false := by
  rcases List.mem_append.mp hc with hname | hvalue
  · exact name_printable (h.name_bytes c hname)
  · rcases List.mem_cons.mp hvalue with rfl | hvalue
    · rfl
    · exact h.raw_printable c hvalue

theorem encode_of_textOr {bytes : List UInt8} {error : HttpReadError} {text : Text}
    (h : textOr bytes error = .ok text) : encode text = bytes := by
  unfold textOr at h
  split at h
  · next hok =>
      cases h
      exact Utf8.encode_of_fromUtf8 hok
  · cases h

theorem textOr_encode (text : Text) (error : HttpReadError) :
    textOr (encode text) error = .ok text := by
  rw [textOr, Utf8.fromUtf8_encode]

theorem colon_not_mem_name (h : field.Formed) : ':' ∉ field.name := by
  intro hmem
  have hbyte := h.name_bytes _ hmem
  revert hbyte
  decide

theorem splitOnce_line (h : field.Formed) :
    Substrings.splitOnce [':'] field.line = some (field.name, field.raw) := by
  have hjoin := @Substrings.splitOnce_append _ _ ':' [] _ (colon_not_mem_name h) field.raw
  rw [List.append_assoc] at hjoin
  exact hjoin

/-- A line is a field that may come next. -/
theorem headerField_eq_ok (h : Allowed fields) {index : Nat} {line : Text}
    (hline : ∀ c ∈ line, isControl c = true → c = '\r' ∨ c = '\n') :
    headerField limits index (stateOf fields) line = .ok state ↔
      index < limits.maximumHeaderFields ∧ ∃ field : Field, field.Formed ∧ line = field.line ∧
        Allowed (fields ++ [field]) ∧ state = stateOf (fields ++ [field]) := by
  unfold headerField
  by_cases hindex : limits.maximumHeaderFields ≤ index
  · rw [if_pos hindex]
    simp only [reduceCtorEq, false_iff]
    rintro ⟨hlt, _⟩
    omega
  rw [if_neg hindex]
  have hlt : index < limits.maximumHeaderFields := Nat.lt_of_not_le hindex
  constructor
  · intro hok
    split at hok
    · cases hok
    next hbegins =>
    split at hok
    · cases hok
    next name rawValue hsplit =>
    split at hok
    · cases hok
    next hname =>
    dsimp only at hok
    split at hok
    · cases hok
    next hvalue =>
    have hwhole := Substrings.append_of_splitOnce hsplit
    simp only [Bool.or_eq_true, List.isEmpty_iff, Bool.not_eq_true', not_or, Bool.not_eq_false]
      at hname
    simp only [Bool.not_eq_true', Bool.not_eq_false] at hvalue
    refine ⟨hlt, ⟨name, rawValue⟩, ⟨hname.1.1, List.all_eq_true.mp hname.2, ?_⟩, ?_,
      (@takeHeader_eq_ok _ ⟨name, rawValue⟩ h _).mp hok⟩
    · intro c hmem
      by_contra hcontrol
      rw [Bool.not_eq_false] at hcontrol
      have hend := hline c (by rw [hwhole]; exact List.mem_append_right _ hmem) hcontrol
      rcases mem_trimBlanks_or hmem with hblank | htrim
      · rcases hend with rfl | rfl
        · cases hblank
        · cases hblank
      · have hprintable := printable_iff.mp (List.all_eq_true.mp hvalue c htrim)
        rcases hend with rfl | rfl
        · revert hprintable
          decide
        · revert hprintable
          decide
    · rw [hwhole]
      simp [Field.line]
  · rintro ⟨_, field, hformed, rfl, hallowed⟩
    obtain ⟨first, rest, hname⟩ := List.exists_cons_of_ne_nil hformed.name_ne
    have hfirst : isBlank first = false :=
      not_blank_of_name (hformed.name_bytes first (by rw [hname]; exact List.mem_cons_self))
    have hbegins : (field.line.isEmpty || field.line.head?.any isBlank) = false := by
      simp [Field.line, hname, hfirst]
    have hsplit := splitOnce_line hformed
    have hlast : field.name.getLast?.any isBlank = false := by
      cases hget : field.name.getLast? with
      | none => rfl
      | some last =>
          exact not_blank_of_name (hformed.name_bytes last (List.mem_of_getLast? hget))
    have hall : field.name.all isHeaderNameByte = true := List.all_eq_true.mpr hformed.name_bytes
    have hvalue : (field.value.all fun c => c = '\t' || ' ' ≤ c) = true := by
      apply List.all_eq_true.mpr
      intro c hmem
      exact printable_iff.mpr
        (.inr (not_control_iff.mp (hformed.raw_printable c (mem_of_mem_trimBlanks hmem))).1)
    have htake := (takeHeader_eq_ok h).mpr hallowed
    rw [Field.value] at hvalue htake
    simp only [hbegins, hsplit, hlast, hall, hvalue, hformed.name_ne, List.isEmpty_iff,
      Bool.false_eq_true, if_false, Bool.or_false, Bool.not_true]
    exact htake

/-- The lines are fields that may all come. -/
theorem headerFields_eq_ok {before : List Field} {lines : List Text} (h : Allowed before)
    (hbefore : before.length ≤ limits.maximumHeaderFields)
    (hlines : ∀ line ∈ lines, ∀ c ∈ line, isControl c = true → c = '\r' ∨ c = '\n') :
    headerFields limits before.length (stateOf before) lines = .ok state ↔
      ∃ fields : List Field, (∀ field ∈ fields, field.Formed) ∧ lines = fields.map Field.line ∧
        before.length + fields.length ≤ limits.maximumHeaderFields ∧
        Allowed (before ++ fields) ∧ state = stateOf (before ++ fields) := by
  induction lines generalizing before with
  | nil =>
      constructor
      · intro hok
        cases hok
        exact ⟨[], by simp, rfl, hbefore, by simpa using h, by simp⟩
      · rintro ⟨fields, _, hnil, _, _, rfl⟩
        obtain rfl := List.map_eq_nil_iff.mp hnil.symm
        simp [headerFields]
  | cons line lines ih =>
      obtain ⟨hline, hrest⟩ := List.forall_mem_cons.mp hlines
      rw [headerFields, except_bind_eq_ok]
      constructor
      · rintro ⟨next, hnext, hok⟩
        obtain ⟨hlt, field, hformed, rfl, hallowed, rfl⟩ := (headerField_eq_ok h hline).mp hnext
        have hlength : (before ++ [field]).length = before.length + 1 := by simp
        rw [← hlength] at hok
        obtain ⟨fields, hfields, rfl, hle, hall, rfl⟩ :=
          (ih hallowed (by rw [hlength]; exact hlt) hrest).mp hok
        have hsnoc : before ++ field :: fields = (before ++ [field]) ++ fields := by simp
        rw [hlength] at hle
        refine ⟨field :: fields, List.forall_mem_cons.mpr ⟨hformed, hfields⟩, rfl, ?_, ?_, ?_⟩
        · rw [List.length_cons]
          omega
        · rw [hsnoc]
          exact hall
        · rw [hsnoc]
      · rintro ⟨fields, hfields, hmap, hle, hall, hstate⟩
        obtain ⟨field, fields, rfl⟩ := List.exists_cons_of_ne_nil
          (show fields ≠ [] by rintro rfl; cases hmap)
        obtain ⟨hhead, htail⟩ := List.cons.inj hmap
        obtain ⟨hformed, hfields⟩ := List.forall_mem_cons.mp hfields
        rw [List.length_cons] at hle
        have hsnoc : before ++ field :: fields = (before ++ [field]) ++ fields := by simp
        rw [hsnoc] at hall hstate
        have hlength : (before ++ [field]).length = before.length + 1 := by simp
        refine ⟨_, (headerField_eq_ok h hline).mpr
          ⟨by omega, field, hformed, hhead, hall.of_append, rfl⟩, ?_⟩
        rw [← hlength]
        exact (ih hall.of_append (by omega) hrest).mpr
          ⟨fields, hfields, htail, by omega, hall, hstate⟩

end Lines

section Heads

def HttpMethod.token : HttpMethod → Text
  | .get => "GET".toList
  | .post => "POST".toList

def CRLF : Text := ['\r', '\n']

def firstLine (method target : Text) : Text := method ++ ' ' :: target ++ ' ' :: "HTTP/1.1".toList

def headLines (method target : Text) (fields : List Field) : List Text :=
  firstLine method target :: fields.map Field.line

/-- The head of a request, up to the end of its empty line. -/
def headText (method target : Text) (fields : List Field) : Text :=
  (headLines method target fields).flatMap (· ++ CRLF) ++ CRLF

/-- A target in origin form. -/
structure IsTarget (limits : HttpLimits) (target : Text) : Prop where
  begins : target.head? = some '/'
  graphic : ∀ c ∈ target, isAsciiGraphic c = true
  length_le : (encode target).length ≤ limits.maximumTargetBytes

/-- A head that the server takes. -/
structure Taken (limits : HttpLimits) (target : Text) (fields : List Field) : Prop where
  target_ok : IsTarget limits target
  formed : ∀ field ∈ fields, field.Formed
  fields_le : fields.length ≤ limits.maximumHeaderFields
  allowed : Allowed fields
  host : occurs "host" fields ≠ 0

variable {limits : HttpLimits} {target : Text} {fields : List Field} {method : HttpMethod}

theorem graphic_iff {c : Char} : isAsciiGraphic c = true ↔ 33 ≤ c.toNat ∧ c.toNat ≤ 126 := by
  simp [isAsciiGraphic]

theorem IsTarget.not_space (h : IsTarget limits target) : ' ' ∉ target := by
  intro hmem
  have hgraphic := graphic_iff.mp (h.graphic _ hmem)
  revert hgraphic
  decide

theorem methodOf_eq_ok {rawMethod : Text} :
    methodOf rawMethod = .ok method ↔ rawMethod = method.token := by
  unfold methodOf
  constructor
  · intro h
    split at h
    · next hget =>
        cases h
        exact hget
    · split at h
      · next hpost =>
          cases h
          exact hpost
      · cases h
  · rintro rfl
    cases method <;> rfl

theorem requestLine_eq_ok {line : Text} :
    requestLine limits line = .ok (method, target) ↔
      line = firstLine method.token target ∧ IsTarget limits target := by
  constructor
  · intro h
    obtain ⟨_, hjoin⟩ := Substrings.join_split [' '] line
    unfold requestLine at h
    generalize Substrings.split [' '] line = parts at h hjoin
    dsimp only at h
    split at h
    · cases h
    next hparts =>
    obtain ⟨hfour, hmethod, htarget, hversion⟩ : parts[3]? = none ∧ parts[0]?.getD [] ≠ [] ∧
        parts[1]?.getD [] ≠ [] ∧ parts[2]?.getD [] = "HTTP/1.1".toList := by
      simpa [not_or] using hparts
    obtain ⟨rawMethod, rawTarget, rfl⟩ :
        ∃ rawMethod rawTarget, parts = [rawMethod, rawTarget, "HTTP/1.1".toList] := by
      rcases parts with _ | ⟨first, _ | ⟨second, _ | ⟨third, _ | ⟨fourth, rest⟩⟩⟩⟩
      · exact absurd rfl hmethod
      · exact absurd rfl htarget
      · cases hversion
      · exact ⟨first, second, by rw [← hversion]; rfl⟩
      · cases hfour
    obtain ⟨other, hother, h⟩ := except_bind_eq_ok.mp h
    split at h
    · cases h
    next hok =>
    cases h
    obtain ⟨hbegins, hlength, hgraphic⟩ : rawTarget.head? = some '/' ∧
        (encode rawTarget).length ≤ limits.maximumTargetBytes ∧
          rawTarget.all isAsciiGraphic = true := by
      simpa [not_or] using hok
    have htoken : rawMethod = method.token := methodOf_eq_ok.mp hother
    refine ⟨?_, hbegins, List.all_eq_true.mp hgraphic, hlength⟩
    rw [← hjoin, htoken]
    simp [firstLine, List.intercalate_cons_cons]
  · rintro ⟨rfl, htarget⟩
    have hparts : Substrings.split [' '] (firstLine method.token target) =
        [method.token, target, "HTTP/1.1".toList] := by
      have hjoin := @Substrings.split_join _ _ ' ' [] [method.token, target, "HTTP/1.1".toList]
        (List.cons_ne_nil _ _) (by
          intro part hmem
          simp only [List.mem_cons, List.not_mem_nil, or_false] at hmem
          rcases hmem with rfl | rfl | rfl
          · cases method <;> decide
          · exact htarget.not_space
          · decide)
      rw [← hjoin]
      congr 1
      simp [firstLine, List.intercalate_cons_cons]
    have hne : target ≠ [] := by
      rintro rfl
      cases htarget.begins
    have hall : target.all isAsciiGraphic = true := List.all_eq_true.mpr htarget.graphic
    have hle := Nat.not_lt.mpr htarget.length_le
    unfold requestLine
    rw [hparts]
    have htoken : method.token ≠ [] := by cases method <;> decide
    simp [methodOf_eq_ok.mpr rfl, htoken, hne, htarget.begins, hall, hle, bind, Except.bind]

theorem headText_eq (method target : Text) (fields : List Field) :
    headText method target fields =
      CRLF.intercalate (headLines method target fields) ++ CRLF ++ CRLF := by
  have hne : headLines method target fields ≠ [] := List.cons_ne_nil _ _
  rw [headText, Substrings.intercalate_append hne]

theorem headLines_ne {method target line : Text}
    (hline : line ∈ headLines method target fields) : line ≠ [] := by
  rcases List.mem_cons.mp hline with rfl | hfield
  · simp [firstLine]
  · obtain ⟨field, _, rfl⟩ := List.mem_map.mp hfield
    simp [Field.line]

theorem encode_ends : encode (CRLF ++ CRLF) = HEADER_TERMINATOR := by decide

theorem encode_headText (method target : Text) (fields : List Field) :
    encode (headText method target fields) =
      encode (CRLF.intercalate (headLines method target fields)) ++ HEADER_TERMINATOR := by
  rw [headText_eq, List.append_assoc, Utf8.encode_append, encode_ends]

theorem terminator_le (method target : Text) (fields : List Field) :
    HEADER_TERMINATOR.length ≤ (encode (headText method target fields)).length := by
  rw [encode_headText, List.length_append]
  exact Nat.le_add_left _ _

/-- A line of a head that is taken has no control character. -/
theorem token_printable (method : HttpMethod) :
    ∀ c ∈ method.token, isControl c = false ∧ c ≠ ' ' := by
  cases method <;> exact forall_of_all (by decide)

theorem headLines_printable (htarget : IsTarget limits target)
    (hformed : ∀ field ∈ fields, field.Formed) {line : Text}
    (hline : line ∈ headLines method.token target fields) {c : Char} (hc : c ∈ line) :
    isControl c = false := by
  rcases List.mem_cons.mp hline with rfl | hfield
  · simp only [firstLine, List.mem_append, List.mem_cons] at hc
    rcases hc with (hmethod | rfl | hgraphic) | rfl | hversion
    · exact (token_printable method c hmethod).1
    · rfl
    · have hbounds := graphic_iff.mp (htarget.graphic c hgraphic)
      exact not_control_iff.mpr ⟨by omega, by omega⟩
    · rfl
    · exact version_printable c hversion
  · obtain ⟨field, hmem, rfl⟩ := List.mem_map.mp hfield
    exact (hformed field hmem).line_printable hc

theorem return_not_mem {line : Text} (h : ∀ c ∈ line, isControl c = false) : '\r' ∉ line := by
  intro hmem
  cases h _ hmem

/-- A head is parsed when it is one that the server takes. -/
theorem parseHead_eq_ok {before : List UInt8} {headers : ParsedHeaders} :
    parseHead (before ++ HEADER_TERMINATOR) limits = .ok (method, target, headers) ↔
      ∃ fields, before ++ HEADER_TERMINATOR = encode (headText method.token target fields) ∧
        Taken limits target fields ∧ headers = (stateOf fields).parsed := by
  have hstop : checkedSub (before ++ HEADER_TERMINATOR).length HEADER_TERMINATOR.length =
      some before.length := by
    rw [checkedSub_eq_some, List.length_append]
    omega
  constructor
  · intro h
    obtain ⟨text, htext, h⟩ := except_bind_eq_ok.mp h
    split at h
    · cases h
    next hcontrol =>
    obtain ⟨stop, hstop', h⟩ := except_bind_eq_ok.mp h
    rw [hstop] at hstop'
    cases hstop'
    rw [List.take_left] at h
    obtain ⟨lines, hlines, h⟩ := except_bind_eq_ok.mp h
    have hencode := encode_of_textOr htext
    have hbefore := encode_of_textOr hlines
    have hwhole : text = lines ++ (CRLF ++ CRLF) := by
      apply Utf8.encode_injective
      rw [Utf8.encode_append, encode_ends, hencode, hbefore]
    obtain ⟨hne, hjoin⟩ := Substrings.join_split CRLF lines
    have hsplit : Substrings.split ['\r', '\n'] lines = Substrings.split CRLF lines := rfl
    rw [hsplit] at h
    generalize Substrings.split CRLF lines = parts at h hne hjoin
    cases parts with
    | nil => exact absurd rfl hne
    | cons line rest =>
        obtain ⟨⟨method', target'⟩, hrequest, h⟩ := except_bind_eq_ok.mp h
        obtain ⟨state, hstate, h⟩ := except_bind_eq_ok.mp h
        split at h
        case isFalse => cases h
        next hhost =>
        cases h
        obtain ⟨rfl, htarget⟩ := requestLine_eq_ok.mp hrequest
        have hends : ∀ part ∈ rest, ∀ c ∈ part, isControl c = true → c = '\r' ∨ c = '\n' := by
          intro part hpart c hc hctl
          have hmem : c ∈ text := by
            rw [hwhole, ← hjoin, ← List.append_assoc, Substrings.intercalate_append hne]
            exact List.mem_append_left _ (List.mem_flatMap.mpr
              ⟨part, List.mem_cons_of_mem _ hpart, List.mem_append_left _ hc⟩)
          by_contra hother
          rw [not_or] at hother
          exact hcontrol (List.any_eq_true.mpr ⟨c, hmem, by simp [hctl, hother]⟩)
        have hinit : headerFields limits 0 (stateOf []) rest = .ok state := hstate
        obtain ⟨fields, hformed, rfl, hle, hallowed, rfl⟩ :=
          (headerFields_eq_ok Allowed.nil (Nat.zero_le _) hends).mp hinit
        rw [List.nil_append] at hallowed hhost
        rw [List.length_nil, Nat.zero_add] at hle
        refine ⟨fields, ?_, ⟨htarget, hformed, hle, hallowed, isSome_valueOf.mp hhost⟩, rfl⟩
        rw [← hencode, hwhole, ← hjoin, headText_eq, headLines, List.append_assoc]
  · rintro ⟨fields, hencode, ⟨htarget, hformed, hle, hallowed, hhost⟩, rfl⟩
    have hprintable : ∀ line ∈ headLines method.token target fields, ∀ c ∈ line,
        isControl c = false := fun line hline c hc =>
      headLines_printable htarget hformed hline hc
    have hlines : before = encode (CRLF.intercalate (headLines method.token target fields)) := by
      rw [encode_headText] at hencode
      exact List.append_cancel_right hencode
    have hcontrol : ((headText method.token target fields).any fun c =>
        isControl c && c ≠ '\r' && c ≠ '\n') = false := by
      rw [List.any_eq_false]
      have hends : ∀ c ∈ CRLF, ¬ (isControl c && c ≠ '\r' && c ≠ '\n') = true :=
        forall_of_all (by decide)
      intro c hc
      rcases List.mem_append.mp hc with hc | hend
      · obtain ⟨line, hline, hc⟩ := List.mem_flatMap.mp hc
        rcases List.mem_append.mp hc with hc | hend
        · simp [hprintable line hline c hc]
        · exact hends c hend
      · exact hends c hend
    have hsplit := @Substrings.split_join _ _ '\r' ['\n'] _ (List.cons_ne_nil _ _)
      fun line hline => return_not_mem (hprintable line hline)
    have hrequest := (@requestLine_eq_ok limits target method _).mpr ⟨rfl, htarget⟩
    have hfields : headerFields limits 0 (stateOf []) (fields.map Field.line) =
        .ok (stateOf fields) :=
      (headerFields_eq_ok Allowed.nil (Nat.zero_le _)
        (by
          intro line hline c hc hctl
          have hfalse := hprintable line (List.mem_cons_of_mem _ hline) c hc
          rw [hctl] at hfalse
          cases hfalse)).mpr
        ⟨fields, hformed, rfl, by simpa using hle, hallowed, rfl⟩
    have hseen : (stateOf fields).hostSeen = true := isSome_valueOf.mpr hhost
    have htext : ∀ error, textOr (before ++ HEADER_TERMINATOR) error =
        .ok (headText method.token target fields) := by
      intro error
      rw [hencode, textOr_encode]
    unfold parseHead
    rw [htext]
    simp only [bind, Except.bind, hcontrol, Bool.false_eq_true, if_false, hstop, orError,
      List.take_left]
    rw [hlines, textOr_encode]
    have hsplit' : Substrings.split ['\r', '\n']
        (CRLF.intercalate (headLines method.token target fields)) =
          firstLine method.token target :: fields.map Field.line := hsplit
    have hfields' : headerFields limits 0 ⟨⟨none, false, none⟩, false, false⟩
        (fields.map Field.line) = .ok (stateOf fields) := hfields
    simp only [hsplit', hrequest, hfields', hseen, if_true]

end Heads

end Riley.Http
