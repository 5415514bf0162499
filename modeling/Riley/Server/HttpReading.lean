import Riley.Server.HttpSpec

/-!
Reading a request, however the reader splits the connection. Where nothing follows the body
that the head declares, the outcome is a function of the bytes alone.
-/

namespace Riley.Http

open Offsets (slice)
open Outcome (except_bind_eq_ok)
open Utf8 (Text encode)

section Panics

/-- A computation that does not panic. -/
def Ordinary {α : Type} (result : Except HttpReadError α) : Prop := result ≠ .error .panicked

theorem ordinary_ok {α : Type} (value : α) : Ordinary (.ok value) := by
  simp [Ordinary]

theorem Ordinary.bind {α β : Type} {result : Except HttpReadError α}
    {next : α → Except HttpReadError β} (h : Ordinary result)
    (hnext : ∀ value, result = .ok value → Ordinary (next value)) : Ordinary (result >>= next) := by
  cases result with
  | ok value => exact hnext value rfl
  | error error =>
      intro hpanicked
      cases hpanicked
      exact h rfl

theorem ordinary_orError {α : Type} {value : Option α} {error : HttpReadError}
    (h : error ≠ .panicked) : Ordinary (orError value error) := by
  cases value <;> simp [Ordinary, orError, h]

theorem orError_eq_ok {α : Type} {value : Option α} {error : HttpReadError} {result : α} :
    orError value error = .ok result ↔ value = some result := by
  cases value <;> simp [orError]

theorem ordinary_bodyLength (method : HttpMethod) (headers : ParsedHeaders) :
    Ordinary (bodyLength method headers) := by
  unfold bodyLength Ordinary
  split <;> simp

theorem ordinary_textOr {bytes : List UInt8} {error : HttpReadError} (h : error ≠ .panicked) :
    Ordinary (textOr bytes error) := by
  unfold textOr Ordinary
  split <;> simp [h]

theorem ordinary_takeHeader (state : HeadState) (name value : Text) :
    Ordinary (takeHeader state name value) := by
  have hdecimal : Ordinary (parseDecimalUsize value) := by
    unfold parseDecimalUsize Ordinary
    repeat' split
    all_goals simp
  unfold takeHeader
  split
  · unfold Ordinary
    split <;> simp
  split
  · split
    · simp [Ordinary]
    · exact hdecimal.bind fun length _ => ordinary_ok _
  unfold Ordinary
  repeat' split
  all_goals simp

theorem ordinary_headerField (limits : HttpLimits) (index : Nat) (state : HeadState)
    (line : Text) : Ordinary (headerField limits index state line) := by
  unfold headerField
  split
  · simp [Ordinary]
  split
  · simp [Ordinary]
  split
  · simp [Ordinary]
  split
  · simp [Ordinary]
  dsimp only
  split
  · simp [Ordinary]
  · exact ordinary_takeHeader _ _ _

theorem ordinary_headerFields (limits : HttpLimits) (index : Nat) (state : HeadState)
    (lines : List Text) : Ordinary (headerFields limits index state lines) := by
  induction lines generalizing index state with
  | nil => exact ordinary_ok _
  | cons line lines ih =>
      exact (ordinary_headerField limits index state line).bind fun next _ => ih _ _

theorem ordinary_requestLine (limits : HttpLimits) (line : Text) :
    Ordinary (requestLine limits line) := by
  have hmethod : ∀ rawMethod, Ordinary (methodOf rawMethod) := by
    intro rawMethod
    unfold methodOf Ordinary
    repeat' split
    all_goals simp
  unfold requestLine
  dsimp only
  split
  · simp [Ordinary]
  · refine (hmethod _).bind fun method _ => ?_
    unfold Ordinary
    split <;> simp

/-- The bytes before the end of a head are a text where the head is one. -/
theorem ordinary_parseHead (before : List UInt8) (limits : HttpLimits) :
    Ordinary (parseHead (before ++ HEADER_TERMINATOR) limits) := by
  refine (ordinary_textOr (by simp)).bind fun text htext => ?_
  split
  · simp [Ordinary]
  have hstop : checkedSub (before ++ HEADER_TERMINATOR).length HEADER_TERMINATOR.length =
      some before.length := by
    rw [checkedSub_eq_some, List.length_append]
    omega
  have hbyte : (13 : UInt8).IsUTF8FirstByte := by decide
  obtain ⟨lines, _, _, hlines, _⟩ := Utf8.encode_cut hbyte (encode_of_textOr htext)
  rw [hstop]
  refine (ordinary_ok before.length).bind fun stop heq => ?_
  cases heq
  rw [List.take_left, ← hlines, textOr_encode]
  refine (ordinary_ok lines).bind fun _ _ => ?_
  split
  · simp [Ordinary]
  · refine (ordinary_requestLine _ _).bind fun request _ => ?_
    refine (ordinary_headerFields _ _ _ _).bind fun state _ => ?_
    unfold Ordinary
    split <;> simp

end Panics

section Reading

variable {limits : HttpLimits} {splits : Splits} {bytes unread stream : List UInt8}

theorem read_append (splits : Splits) (given bound : Nat) (unread : List UInt8) :
    (read splits given bound unread).1 ++ (read splits given bound unread).2 = unread := by
  rw [read, List.splitAt_eq]
  exact List.take_append_drop _ _

theorem read_le (splits : Splits) (given bound : Nat) (unread : List UInt8) :
    (read splits given bound unread).1.length ≤ bound := by
  rw [read, List.splitAt_eq, List.length_take]
  omega

/-- A read of nothing is at the end of the stream. -/
theorem read_eq_nil {given bound : Nat} (hbound : 0 < bound)
    (h : (read splits given bound unread).1 = []) : unread = [] := by
  rw [read, List.splitAt_eq, List.take_eq_nil_iff] at h
  exact h.resolve_left (by omega)

/-- What the search for the end of the head comes to, read by read. -/
theorem readHead_spec (hstream : bytes ++ unread = stream)
    (hle : bytes.length ≤ limits.maximumHeaderBytes) :
    match Substrings.find HEADER_TERMINATOR (stream.take limits.maximumHeaderBytes) with
    | some offset => ∃ bytes' unread', readHead limits splits bytes unread =
        .ok (offset + HEADER_TERMINATOR.length, bytes', unread') ∧ bytes' ++ unread' = stream ∧
          offset + HEADER_TERMINATOR.length ≤ bytes'.length
    | none => readHead limits splits bytes unread =
        .error (if limits.maximumHeaderBytes ≤ stream.length then
          .headerTooLarge limits.maximumHeaderBytes else .unexpectedEof "headers") := by
  have hprefix : ∃ more, stream.take limits.maximumHeaderBytes = bytes ++ more := by
    rw [← hstream, List.take_append, List.take_of_length_le hle]
    exact ⟨_, rfl⟩
  fun_induction readHead limits splits bytes unread with
  | case1 bytes unread offset hfind stop hlarge =>
      obtain ⟨_, hbegins, _⟩ := Substrings.find_eq_some.mp hfind
      have hlength := hbegins.length_le
      rw [List.length_drop] at hlength
      have hpos : 0 < HEADER_TERMINATOR.length := by decide
      omega
  | case2 bytes unread offset hfind stop hfits =>
      obtain ⟨more, hmore⟩ := hprefix
      rw [hmore, Substrings.find_append hfind more]
      obtain ⟨_, hbegins, _⟩ := Substrings.find_eq_some.mp hfind
      have hlength := hbegins.length_le
      rw [List.length_drop] at hlength
      have hpos : 0 < HEADER_TERMINATOR.length := by decide
      exact ⟨bytes, unread, rfl, hstream, by omega⟩
  | case3 bytes unread hfind hfull =>
      have htake : stream.take limits.maximumHeaderBytes = bytes := by
        rw [← hstream, ← Nat.le_antisymm hle hfull, List.take_left]
      have hlong : limits.maximumHeaderBytes ≤ stream.length := by
        rw [← hstream, List.length_append]
        omega
      rw [htake, hfind, if_pos hlong]
  | case4 bytes unread hfind hmore hnone =>
      have hlt := checkedSub_eq_none.mp hnone
      omega
  | case5 bytes unread hfind hmore remainingHeader hsub next hnil =>
      obtain ⟨_, rfl⟩ := checkedSub_eq_some.mp hsub
      have hchunk : 0 < READ_CHUNK_BYTES := by decide
      have hend := read_eq_nil (by omega) hnil
      subst hend
      rw [List.append_nil] at hstream
      subst hstream
      rw [List.take_of_length_le hle, hfind, if_neg hmore]
  | case6 bytes unread hfind hmore remainingHeader hsub next hne ih =>
      obtain ⟨_, rfl⟩ := checkedSub_eq_some.mp hsub
      have hread : next.1 ++ next.2 = unread := read_append splits _ _ unread
      have hbound : next.1.length ≤ min (limits.maximumHeaderBytes - bytes.length)
          READ_CHUNK_BYTES := read_le splits _ _ unread
      have hnext : bytes ++ next.1 ++ next.2 = stream := by
        rw [List.append_assoc, hread, hstream]
      have hnextLe : (bytes ++ next.1).length ≤ limits.maximumHeaderBytes := by
        rw [List.length_append]
        omega
      refine ih hnext hnextLe ?_
      rw [← hnext, List.take_append, List.take_of_length_le hnextLe]
      exact ⟨_, rfl⟩

/-- The body is read as far as it is declared, or as far as it came with the head. -/
theorem readBody_eq (hstream : bytes ++ unread = stream) (requestLen : Nat) :
    readBody splits requestLen bytes unread =
      if requestLen ≤ stream.length then .ok (stream.take (max requestLen bytes.length))
      else .error (.unexpectedEof "body") := by
  fun_induction readBody splits requestLen bytes unread with
  | case1 bytes unread hshort hnone =>
      have hlt := checkedSub_eq_none.mp hnone
      omega
  | case2 bytes unread hshort remaining hsub next hnil =>
      obtain ⟨_, rfl⟩ := checkedSub_eq_some.mp hsub
      have hchunk : 0 < READ_CHUNK_BYTES := by decide
      have hend := read_eq_nil (by omega) hnil
      subst hend
      rw [List.append_nil] at hstream
      subst hstream
      rw [if_neg (by omega)]
  | case3 bytes unread hshort remaining hsub next hne ih =>
      obtain ⟨_, rfl⟩ := checkedSub_eq_some.mp hsub
      have hread : next.1 ++ next.2 = unread := read_append splits _ _ unread
      have hbound : next.1.length ≤ min (requestLen - bytes.length) READ_CHUNK_BYTES :=
        read_le splits _ _ unread
      have hnext : bytes ++ next.1 ++ next.2 = stream := by
        rw [List.append_assoc, hread, hstream]
      have hlength : (bytes ++ next.1).length ≤ requestLen := by
        rw [List.length_append]
        omega
      rw [ih hnext, Nat.max_eq_left hlength, Nat.max_eq_left (Nat.le_of_lt hshort)]
  | case4 bytes unread hlong =>
      have hle : bytes.length ≤ stream.length := by
        rw [← hstream, List.length_append]
        omega
      rw [if_pos (by omega), Nat.max_eq_right (by omega), ← hstream, List.take_left]

end Reading

section Requests

variable {limits : HttpLimits} {stream : List UInt8} {method target : Text} {fields : List Field}

/-- A request line of a method, a target and the version, and well-formed header fields: one
host, at most one length, type and authorization, and nothing that frames the body otherwise. -/
structure IsHead (method target : Text) (fields : List Field) : Prop where
  method_ne : method ≠ []
  method_printable : ∀ c ∈ method, isControl c = false ∧ c ≠ ' '
  target_ne : target ≠ []
  target_printable : ∀ c ∈ target, isControl c = false ∧ c ≠ ' '
  formed : ∀ field ∈ fields, field.Formed
  host : occurs "host" fields = 1
  unique : ∀ name ∈ single, occurs name fields ≤ 1
  unframed : ∀ name ∈ framing, occurs name fields = 0
  length_decimal : ∀ value, valueOf "content-length" fields = some value →
    (decimal value).isSome = true

instance (method target : Text) (fields : List Field) : Decidable (IsHead method target fields) :=
  decidable_of_iff
    ((method ≠ [] ∧ (method.all fun c => decide (isControl c = false ∧ c ≠ ' ')) = true) ∧
      (target ≠ [] ∧ (target.all fun c => decide (isControl c = false ∧ c ≠ ' ')) = true) ∧
      (∀ field ∈ fields, field.Formed) ∧ occurs "host" fields = 1 ∧
      (∀ name ∈ single, occurs name fields ≤ 1) ∧ (∀ name ∈ framing, occurs name fields = 0) ∧
      (valueOf "content-length" fields).all (fun value => (decimal value).isSome) = true)
    ⟨fun ⟨⟨hmethod, hmethod'⟩, ⟨htarget, htarget'⟩, hformed, hhost, hunique, hunframed, hlength⟩ =>
      ⟨hmethod, forall_of_all hmethod', htarget, forall_of_all htarget', hformed, hhost, hunique,
        hunframed, fun _ hvalue => (Option.all_eq_true _ _).mp hlength _ hvalue⟩,
      fun h => ⟨⟨h.method_ne, by simpa using h.method_printable⟩,
        ⟨h.target_ne, by simpa using h.target_printable⟩, h.formed, h.host, h.unique, h.unframed,
        (Option.all_eq_true _ _).mpr h.length_decimal⟩⟩

/-- No byte follows the body that the head of a stream declares. -/
def NothingFollows (stream : List UInt8) : Prop :=
  ∀ method target fields body, IsHead method target fields →
    stream = encode (headText method target fields) ++ body →
      body.length ≤ (declaredLength fields).getD 0

/-- A stream is a head and the body that the head declares, both within the limits. -/
structure Framed (limits : HttpLimits) (stream : List UInt8) (method target : Text)
    (fields : List Field) (body : List UInt8) : Prop where
  isHead : IsHead method target fields
  stream_eq : stream = encode (headText method target fields) ++ body
  header_le : (encode (headText method target fields)).length ≤ limits.maximumHeaderBytes
  body_length : body.length = (declaredLength fields).getD 0
  body_le : body.length ≤ limits.maximumBodyBytes

instance (limits : HttpLimits) (stream : List UInt8) (method target : Text) (fields : List Field)
    (body : List UInt8) : Decidable (Framed limits stream method target fields body) :=
  decidable_of_iff
    (IsHead method target fields ∧ stream = encode (headText method target fields) ++ body ∧
      (encode (headText method target fields)).length ≤ limits.maximumHeaderBytes ∧
      body.length = (declaredLength fields).getD 0 ∧ body.length ≤ limits.maximumBodyBytes)
    ⟨fun ⟨hhead, hstream, hheader, hlength, hbody⟩ => ⟨hhead, hstream, hheader, hlength, hbody⟩,
      fun h => ⟨h.isHead, h.stream_eq, h.header_le, h.body_length, h.body_le⟩⟩

/-- What else the server asks of a request. -/
structure Served (limits : HttpLimits) (method : HttpMethod) (target : Text)
    (fields : List Field) : Prop where
  target_ok : IsTarget limits target
  fields_le : fields.length ≤ limits.maximumHeaderFields
  host_ne : valueOf "host" fields ≠ some []
  get_empty : method = .get → (declaredLength fields).getD 0 = 0
  post_length : method = .post → (declaredLength fields).isSome = true
  post_json : method = .post →
    ∃ value, valueOf "content-type" fields = some value ∧ isJsonContentType value = true

theorem Taken.isHead {method : HttpMethod} (h : Taken limits target fields) :
    IsHead method.token target fields where
  method_ne := by cases method <;> decide
  method_printable := token_printable method
  target_ne := by
    rintro rfl
    cases h.target_ok.begins
  target_printable := by
    intro c hc
    have hbounds := graphic_iff.mp (h.target_ok.graphic c hc)
    refine ⟨not_control_iff.mpr ⟨by omega, by omega⟩, ?_⟩
    rintro rfl
    exact absurd hbounds.1 (by decide)
  formed := h.formed
  host := Nat.le_antisymm (h.allowed.unique "host" (by simp [single]))
    (Nat.pos_of_ne_zero h.host)
  unique := h.allowed.unique
  unframed := h.allowed.unframed
  length_decimal := by
    intro value hvalue
    obtain ⟨length, hlength, _⟩ := h.allowed.length_fits value hvalue
    rw [hlength]
    rfl

theorem IsHead.printable (h : IsHead method target fields) {line : Text}
    (hline : line ∈ headLines method target fields) {c : Char} (hc : c ∈ line) :
    isControl c = false := by
  rcases List.mem_cons.mp hline with rfl | hfield
  · simp only [firstLine, List.mem_append, List.mem_cons] at hc
    rcases hc with (hmethod | rfl | htarget) | rfl | hversion
    · exact (h.method_printable c hmethod).1
    · rfl
    · exact (h.target_printable c htarget).1
    · rfl
    · exact version_printable c hversion
  · obtain ⟨field, hmem, rfl⟩ := List.mem_map.mp hfield
    exact (h.formed field hmem).line_printable hc

theorem encode_lines (lines : List Text) :
    encode (lines.flatMap (· ++ CRLF)) = (lines.map encode).flatMap (· ++ [13, 10]) := by
  have hends : encode CRLF = [13, 10] := by decide
  induction lines with
  | nil => rfl
  | cons line lines ih =>
      rw [List.flatMap_cons, List.map_cons, List.flatMap_cons, Utf8.encode_append,
        Utf8.encode_append, hends, ih]

/-- The head of a stream ends where its first empty line does. -/
theorem IsHead.find_eq (h : IsHead method target fields) (body : List UInt8) :
    Substrings.find HEADER_TERMINATOR (encode (headText method target fields) ++ body) =
      some ((encode (headText method target fields)).length - HEADER_TERMINATOR.length) := by
  have hends : encode CRLF = [13, 10] := by decide
  have hfind := @Substrings.find_emptyLine _ _ (13 : UInt8) 10 (by decide)
    ((headLines method target fields).map encode) (by simp [headLines])
    (by
      intro bytes hbytes
      obtain ⟨line, hline, rfl⟩ := List.mem_map.mp hbytes
      constructor
      · rw [ne_eq, Utf8.encode_eq_nil]
        exact headLines_ne hline
      · intro hmem
        have hreturn := Utf8.mem_of_mem_encode (c := '\r') (by decide) hmem
        exact return_not_mem (fun c hc => h.printable hline hc) hreturn)
    body
  have hlength : HEADER_TERMINATOR.length = 4 := rfl
  rw [← encode_lines] at hfind
  rw [headText, Utf8.encode_append, hends, List.append_assoc, List.length_append, hlength,
    List.length_cons, List.length_singleton, Nat.add_sub_add_right _ 2 2]
  exact hfind

end Requests

section Unambiguous

variable {method target method' target' : Text} {fields fields' : List Field}
  {body body' : List UInt8}

theorem line_injective {field field' : Field} (h : field.Formed) (h' : field'.Formed)
    (heq : field.line = field'.line) : field = field' := by
  have hparts := splitOnce_line h
  rw [heq, splitOnce_line h'] at hparts
  obtain ⟨name, raw⟩ := field
  cases hparts
  rfl

theorem lines_injective (h : ∀ field ∈ fields, field.Formed) (h' : ∀ field ∈ fields', field.Formed)
    (heq : fields.map Field.line = fields'.map Field.line) : fields = fields' := by
  induction fields generalizing fields' with
  | nil => exact (List.map_eq_nil_iff.mp heq.symm).symm
  | cons field fields ih =>
      cases fields' with
      | nil => cases heq
      | cons field' fields' =>
          obtain ⟨hhead, htail⟩ := List.cons.inj heq
          obtain ⟨hfield, hfields⟩ := List.forall_mem_cons.mp h
          obtain ⟨hfield', hfields'⟩ := List.forall_mem_cons.mp h'
          rw [line_injective hfield hfield' hhead, ih hfields hfields' htail]

theorem IsHead.split_firstLine (h : IsHead method target fields) :
    Substrings.split [' '] (firstLine method target) = [method, target, "HTTP/1.1".toList] := by
  have hjoin := @Substrings.split_join _ _ ' ' [] [method, target, "HTTP/1.1".toList]
    (List.cons_ne_nil _ _) (by
      intro part hmem
      simp only [List.mem_cons, List.not_mem_nil, or_false] at hmem
      rcases hmem with rfl | rfl | rfl
      · exact fun hspace => (h.method_printable _ hspace).2 rfl
      · exact fun hspace => (h.target_printable _ hspace).2 rfl
      · decide)
  rw [← hjoin]
  congr 1
  simp [firstLine, List.intercalate_cons_cons]

/-- The bytes of a stream say in one way what its head is and where its body begins. -/
theorem IsHead.unique_of_append (h : IsHead method target fields)
    (h' : IsHead method' target' fields')
    (heq : encode (headText method target fields) ++ body =
      encode (headText method' target' fields') ++ body') :
    method = method' ∧ target = target' ∧ fields = fields' ∧ body = body' := by
  have hfind := h.find_eq body
  rw [heq, h'.find_eq body', Option.some.injEq] at hfind
  have hlength := terminator_le method target fields
  have hlength' := terminator_le method' target' fields'
  obtain ⟨hhead, hbody⟩ := List.append_inj heq (by omega)
  have htext := Utf8.encode_injective hhead
  rw [headText_eq, headText_eq, List.append_assoc, List.append_assoc] at htext
  have hjoin := List.append_cancel_right htext
  have hlines : headLines method target fields = headLines method' target' fields' := by
    have hsplit := @Substrings.split_join _ _ '\r' ['\n'] (headLines method target fields)
      (List.cons_ne_nil _ _) fun line hline =>
        return_not_mem fun c hc => h.printable hline hc
    have hsplit' := @Substrings.split_join _ _ '\r' ['\n'] (headLines method' target' fields')
      (List.cons_ne_nil _ _) fun line hline =>
        return_not_mem fun c hc => h'.printable hline hc
    rw [← hsplit, ← hsplit']
    exact congrArg _ hjoin
  obtain ⟨hfirst, hrest⟩ := List.cons.inj hlines
  have hparts := h.split_firstLine
  rw [hfirst, h'.split_firstLine] at hparts
  cases hparts
  exact ⟨rfl, rfl, lines_injective h.formed h'.formed hrest, hbody⟩

/-- A stream that is framed ends with its body. -/
theorem Framed.nothingFollows {limits : HttpLimits} {stream : List UInt8}
    (h : Framed limits stream method target fields body) : NothingFollows stream := by
  intro method' target' fields' body' hhead hstream
  obtain ⟨_, _, rfl, rfl⟩ := h.isHead.unique_of_append hhead (h.stream_eq.symm.trans hstream)
  exact h.body_length.le

end Unambiguous

section Outcomes

variable {limits : HttpLimits} {stream : List UInt8}

theorem validate_eq_ok {other : HttpLimits} (h : limits.validate = .ok other) :
    other = limits ∧ limits.maximumHeaderBytes + limits.maximumBodyBytes ≤ usizeMax := by
  unfold HttpLimits.validate at h
  repeat' split at h
  all_goals try cases h
  obtain ⟨total, htotal, h⟩ := except_bind_eq_ok.mp h
  cases h
  refine ⟨rfl, ?_⟩
  cases hsum : checkedAdd usizeMax limits.maximumHeaderBytes limits.maximumBodyBytes with
  | none =>
      rw [hsum] at htotal
      cases htotal
  | some sum => exact (checkedAdd_eq_some.mp hsum).2

/-- What reading comes to where nothing follows the body. -/
def wholeRequest (limits : HttpLimits) (stream : List UInt8) : Except HttpReadError HttpRequest :=
  match Substrings.find HEADER_TERMINATOR (stream.take limits.maximumHeaderBytes) with
  | none => .error (if limits.maximumHeaderBytes ≤ stream.length then
      .headerTooLarge limits.maximumHeaderBytes else .unexpectedEof "headers")
  | some offset => do
      let headerEnd := offset + HEADER_TERMINATOR.length
      let (method, target, headers) ← parseHead (stream.take headerEnd) limits
      let contentLength ← bodyLength method headers
      if method = .post ∧ headers.contentTypeJson = false then .error .unsupportedMediaType
      else if limits.maximumBodyBytes < contentLength then
        .error (.bodyTooLarge limits.maximumBodyBytes contentLength)
      else if stream.length < headerEnd + contentLength then .error (.unexpectedEof "body")
      else .ok ⟨method, target, headers.authorization, stream.drop headerEnd⟩

theorem take_of_find {offset : Nat}
    (h : Substrings.find HEADER_TERMINATOR (stream.take limits.maximumHeaderBytes) = some offset) :
    stream.take (offset + HEADER_TERMINATOR.length) = stream.take offset ++ HEADER_TERMINATOR ∧
      offset + HEADER_TERMINATOR.length ≤ limits.maximumHeaderBytes ∧
        offset + HEADER_TERMINATOR.length ≤ stream.length := by
  obtain ⟨_, ⟨rest, hrest⟩, _⟩ := Substrings.find_eq_some.mp h
  have hlength := congrArg List.length hrest
  rw [List.length_append, List.length_drop, List.length_take] at hlength
  have hpos : 0 < HEADER_TERMINATOR.length := by decide
  refine ⟨?_, by omega, by omega⟩
  have hbegins : HEADER_TERMINATOR <+: (stream.take limits.maximumHeaderBytes).drop offset :=
    ⟨rest, hrest⟩
  rw [List.drop_take] at hbegins
  have hdrop := hbegins.trans (List.take_prefix _ _)
  rw [List.take_add, ← List.prefix_iff_eq_take.mp hdrop]

/-- The length of the body that the source takes from the headers. -/
theorem bodyLength_eq_ok {method : HttpMethod} {headers : ParsedHeaders} {length : Nat} :
    bodyLength method headers = .ok length ↔
      length = headers.contentLength.getD 0 ∧ (method = .get → headers.contentLength.getD 0 = 0) ∧
        (method = .post → headers.contentLength.isSome = true) := by
  obtain ⟨contentLength, json, authorization⟩ := headers
  unfold bodyLength
  rcases method with _ | _ <;> rcases contentLength with _ | _ | value <;>
    simp [eq_comm]

/-- Of a head that is parsed, the fields say how long the body is. -/
theorem parsed_head {offset : Nat} {method : HttpMethod} {target : Text} {headers : ParsedHeaders}
    (hfind : Substrings.find HEADER_TERMINATOR (stream.take limits.maximumHeaderBytes) = some offset)
    (hparse : parseHead (stream.take (offset + HEADER_TERMINATOR.length)) limits =
      .ok (method, target, headers)) :
    ∃ fields, stream = encode (headText method.token target fields) ++
        stream.drop (offset + HEADER_TERMINATOR.length) ∧
      (encode (headText method.token target fields)).length = offset + HEADER_TERMINATOR.length ∧
      Taken limits target fields ∧ headers = (stateOf fields).parsed := by
  obtain ⟨htake, _, hle⟩ := take_of_find hfind
  rw [htake] at hparse
  obtain ⟨fields, hhead, htaken, hheaders⟩ := parseHead_eq_ok.mp hparse
  rw [← htake] at hhead
  refine ⟨fields, ?_, ?_, htaken, hheaders⟩
  · rw [← hhead, List.take_append_drop]
  · rw [← hhead, List.length_take]
    omega

/-- Where nothing follows the body, no read splits the outcome from that of the whole. -/
theorem readRequest_eq (hlimits : limits.validate = .ok limits) (hends : NothingFollows stream)
    (reserve : Nat → Bool) (splits : Splits) :
    readRequest reserve splits limits stream =
      if reserve (limits.maximumHeaderBytes + limits.maximumBodyBytes) = true then
        wholeRequest limits stream
      else .error (.invalidLimits "HTTP request buffer allocation") := by
  obtain ⟨_, hsum⟩ := validate_eq_ok hlimits
  have hcapacity : checkedAdd usizeMax limits.maximumHeaderBytes limits.maximumBodyBytes =
      some (limits.maximumHeaderBytes + limits.maximumBodyBytes) :=
    checkedAdd_eq_some.mpr ⟨rfl, hsum⟩
  unfold readRequest wholeRequest
  simp only [hlimits, hcapacity, orError, bind, Except.bind]
  cases reserve (limits.maximumHeaderBytes + limits.maximumBodyBytes) with
  | false => rfl
  | true =>
  have hread := @readHead_spec limits splits [] stream stream rfl (Nat.zero_le _)
  simp only [Bool.not_true, Bool.false_eq_true, if_false, if_true]
  cases hfind : Substrings.find HEADER_TERMINATOR (stream.take limits.maximumHeaderBytes) with
  | none =>
      rw [hfind] at hread
      dsimp only at hread
      rw [hread]
  | some offset =>
      rw [hfind] at hread
      obtain ⟨bytes, unread, hhead, happend, hle⟩ := hread
      obtain ⟨_, hheader, _⟩ := take_of_find hfind
      have hslice : slice bytes 0 (offset + HEADER_TERMINATOR.length) =
          some (stream.take (offset + HEADER_TERMINATOR.length)) := by
        rw [Offsets.slice_of_le (Nat.zero_le _) hle, List.drop_zero, Nat.sub_zero, ← happend,
          List.take_append_of_le_length hle]
      simp only [hhead, hslice]
      cases hparse : parseHead (stream.take (offset + HEADER_TERMINATOR.length)) limits with
      | error error => rfl
      | ok parsed =>
      obtain ⟨method, target, headers⟩ := parsed
      dsimp only
      cases hlength : bodyLength method headers with
      | error error => rfl
      | ok contentLength =>
      dsimp only
      split
      · rfl
      split
      · rfl
      next hbody =>
      obtain ⟨fields, hstream, hheadLength, htaken, rfl⟩ := parsed_head hfind hparse
      have hdeclared : stream.length ≤ offset + HEADER_TERMINATOR.length + contentLength := by
        have hfollows := hends _ _ _ _ htaken.isHead hstream
        have htotal := congrArg List.length hstream
        rw [List.length_append, hheadLength] at htotal
        obtain ⟨hcontent, _, _⟩ := bodyLength_eq_ok.mp hlength
        have hsame : (stateOf fields).parsed.contentLength = declaredLength fields := rfl
        rw [hsame] at hcontent
        omega
      have hrequest : checkedAdd usizeMax (offset + HEADER_TERMINATOR.length) contentLength =
          some (offset + HEADER_TERMINATOR.length + contentLength) :=
        checkedAdd_eq_some.mpr ⟨rfl, by omega⟩
      have hbytes : bytes.length ≤ stream.length := by
        rw [← happend, List.length_append]
        omega
      simp only [hrequest, readBody_eq happend]
      by_cases hshort : stream.length < offset + HEADER_TERMINATOR.length + contentLength
      · rw [if_neg (by omega), if_pos hshort]
      · have hexact : stream.length = offset + HEADER_TERMINATOR.length + contentLength := by omega
        have hwhole : stream.take (max (offset + HEADER_TERMINATOR.length + contentLength)
            bytes.length) = stream := List.take_of_length_le (by omega)
        have hmoved : slice stream (offset + HEADER_TERMINATOR.length)
            (offset + HEADER_TERMINATOR.length + contentLength) =
              some (stream.drop (offset + HEADER_TERMINATOR.length)) := by
          rw [Offsets.slice_of_le (by omega) (by omega), List.take_of_length_le]
          rw [List.length_drop]
          omega
        have htake : (stream.drop (offset + HEADER_TERMINATOR.length) ++
            stream.drop (stream.drop (offset + HEADER_TERMINATOR.length)).length).take
              contentLength = stream.drop (offset + HEADER_TERMINATOR.length) := by
          have hdrop : (stream.drop (offset + HEADER_TERMINATOR.length)).length =
              contentLength := by
            rw [List.length_drop]
            omega
          rw [List.take_append_of_le_length (by omega), List.take_of_length_le (by omega)]
        simp only [if_pos (show offset + HEADER_TERMINATOR.length + contentLength ≤ stream.length
          by omega), hwhole, if_neg hshort, copyWithin, hmoved, Option.map_some, htake]
        rw [if_neg (by omega)]

/-- The requests of a stream: it is framed as one, and the server takes it. -/
theorem wholeRequest_eq_ok (hlimits : limits.validate = .ok limits) (hends : NothingFollows stream)
    {request : HttpRequest} :
    wholeRequest limits stream = .ok request ↔
      ∃ fields,
        Framed limits stream request.method.token request.target fields request.body ∧
          Served limits request.method request.target fields ∧
          request.authorization = valueOf "authorization" fields := by
  obtain ⟨_, hsum⟩ := validate_eq_ok hlimits
  constructor
  · intro h
    unfold wholeRequest at h
    split at h
    · cases h
    next offset hfind =>
    obtain ⟨⟨method, target, headers⟩, hparse, h⟩ := except_bind_eq_ok.mp h
    obtain ⟨contentLength, hlength, h⟩ := except_bind_eq_ok.mp h
    split at h
    · cases h
    next hjson =>
    split at h
    · cases h
    next hbody =>
    split at h
    · cases h
    next hshort =>
    cases h
    obtain ⟨fields, hstream, hheadLength, htaken, rfl⟩ := parsed_head hfind hparse
    obtain ⟨_, hheader, _⟩ := take_of_find hfind
    obtain ⟨hcontent, hget, hpost⟩ := bodyLength_eq_ok.mp hlength
    have hfollows := hends _ _ _ _ htaken.isHead hstream
    have hsame : (stateOf fields).parsed.contentLength = declaredLength fields := rfl
    have hdropLength := @List.length_drop _ (offset + HEADER_TERMINATOR.length) stream
    rw [hsame] at hcontent hget hpost
    refine ⟨fields, ⟨htaken.isHead, hstream, by dsimp only; omega, by dsimp only; omega,
      by dsimp only; omega⟩,
      ⟨htaken.target_ok, htaken.fields_le, htaken.allowed.host_ne, hget, hpost, ?_⟩, rfl⟩
    intro hpostMethod
    have hany : (stateOf fields).parsed.contentTypeJson = true := by
      by_contra hfalse
      exact hjson ⟨hpostMethod, Bool.eq_false_iff.mpr hfalse⟩
    exact (Option.any_eq_true _ _).mp hany
  · rintro ⟨fields, hframed, hserved, hauthorization⟩
    obtain ⟨method, target, authorization, body⟩ := request
    dsimp only at hframed hserved hauthorization ⊢
    obtain ⟨hhead, hstream, hheader, hbodyLength, hbody⟩ := hframed
    have htaken : Taken limits target fields := by
      refine ⟨hserved.target_ok, hhead.formed, hserved.fields_le,
        ⟨hhead.unique, hhead.unframed, hserved.host_ne, ?_⟩, by rw [hhead.host]; decide⟩
      intro value hvalue
      obtain ⟨length, hdecimal⟩ := Option.isSome_iff_exists.mp (hhead.length_decimal value hvalue)
      refine ⟨length, hdecimal, ?_⟩
      rw [declaredLength, hvalue, Option.bind_some, hdecimal, Option.getD_some] at hbodyLength
      omega
    -- The limit may cut into the body, but not into the head.
    have hfind : Substrings.find HEADER_TERMINATOR (stream.take limits.maximumHeaderBytes) =
        some ((encode (headText method.token target fields)).length -
          HEADER_TERMINATOR.length) := by
      rw [hstream, List.take_append, List.take_of_length_le hheader]
      exact hhead.find_eq _
    have hstop : (encode (headText method.token target fields)).length - HEADER_TERMINATOR.length +
        HEADER_TERMINATOR.length = (encode (headText method.token target fields)).length :=
      Nat.sub_add_cancel (terminator_le _ _ _)
    have hparse : parseHead (encode (headText method.token target fields)) limits =
        .ok (method, target, (stateOf fields).parsed) := by
      have hwhole := encode_headText method.token target fields
      rw [hwhole]
      exact parseHead_eq_ok.mpr ⟨fields, hwhole.symm, htaken, rfl⟩
    have hlength : bodyLength method (stateOf fields).parsed = .ok body.length :=
      bodyLength_eq_ok.mpr ⟨hbodyLength, hserved.get_empty, hserved.post_length⟩
    have hjson : ¬ (method = .post ∧ (stateOf fields).parsed.contentTypeJson = false) := by
      rintro ⟨hpost, hfalse⟩
      have hany : (stateOf fields).parsed.contentTypeJson = true :=
        (Option.any_eq_true _ _).mpr (hserved.post_json hpost)
      rw [hany] at hfalse
      cases hfalse
    unfold wholeRequest
    rw [hfind]
    simp only [hstop]
    rw [hstream, List.take_left, List.drop_left, hparse]
    simp only [bind, Except.bind, hlength]
    rw [if_neg hjson, if_neg (by omega), if_neg (by rw [List.length_append]; omega), hauthorization]
    rfl

/-- A read of a request never panics, however the connection is split. -/
theorem ordinary_readRequest (reserve : Nat → Bool) (splits : Splits) (limits : HttpLimits)
    (stream : List UInt8) : Ordinary (readRequest reserve splits limits stream) := by
  have hvalidate : Ordinary limits.validate := by
    unfold HttpLimits.validate
    split
    · simp [Ordinary]
    split
    · simp [Ordinary]
    split
    · simp [Ordinary]
    split
    · simp [Ordinary]
    exact (ordinary_orError (by simp)).bind fun _ _ => ordinary_ok _
  refine hvalidate.bind fun other hother => ?_
  obtain ⟨rfl, _⟩ := validate_eq_ok hother
  refine (ordinary_orError (by simp)).bind fun total _ => ?_
  split
  · simp [Ordinary]
  have hread := @readHead_spec other splits [] stream stream rfl (Nat.zero_le _)
  cases hfind : Substrings.find HEADER_TERMINATOR (stream.take other.maximumHeaderBytes) with
  | none =>
      rw [hfind] at hread
      dsimp only at hread
      rw [hread]
      unfold Ordinary
      split <;> simp [bind, Except.bind]
  | some offset =>
      rw [hfind] at hread
      obtain ⟨bytes, unread, hhead, happend, hle⟩ := hread
      obtain ⟨htake, _, _⟩ := take_of_find hfind
      rw [hhead]
      refine (ordinary_ok (offset + HEADER_TERMINATOR.length, bytes, unread)).bind ?_
      rintro ⟨_, _, _⟩ heq
      cases heq
      have hslice : slice bytes 0 (offset + HEADER_TERMINATOR.length) =
          some (stream.take offset ++ HEADER_TERMINATOR) := by
        rw [Offsets.slice_of_le (Nat.zero_le _) hle, List.drop_zero, Nat.sub_zero, ← htake,
          ← happend, List.take_append_of_le_length hle]
      dsimp only
      rw [hslice]
      refine (ordinary_ok (stream.take offset ++ HEADER_TERMINATOR)).bind fun head heq => ?_
      cases heq
      refine (ordinary_parseHead _ _).bind fun parsed _ => ?_
      obtain ⟨method, target, headers⟩ := parsed
      refine (ordinary_bodyLength _ _).bind fun contentLength _ => ?_
      split
      · simp [Ordinary]
      split
      · simp [Ordinary]
      refine (ordinary_orError (by simp)).bind fun requestLen hrequest => ?_
      have hrequestLen := checkedAdd_eq_some.mp (orError_eq_ok.mp hrequest)
      have hbody := @readBody_eq splits bytes unread stream happend requestLen
      split at hbody
      · rw [hbody]
        refine (ordinary_ok (stream.take (max requestLen bytes.length))).bind fun final heq => ?_
        cases heq
        split
        · simp [Ordinary]
        next hfits =>
        have hmoved : ∃ moved, copyWithin (stream.take (max requestLen bytes.length))
            (offset + HEADER_TERMINATOR.length) requestLen = some moved := by
          rw [copyWithin, Offsets.slice_of_le (by omega)]
          · exact ⟨_, rfl⟩
          · rw [List.length_take]
            omega
        obtain ⟨moved, hmoved⟩ := hmoved
        rw [hmoved]
        exact (ordinary_ok moved).bind fun _ _ => ordinary_ok _
      · rw [hbody]
        simp [Ordinary, bind, Except.bind]

/-- Reading a request never panics; where nothing follows the body, every way of splitting the
stream comes to one outcome, and that is a request exactly where the stream is framed as one
that the server takes. -/
theorem readRequest_spec (hlimits : limits.validate = .ok limits) (reserve : Nat → Bool) :
    (∀ splits stream, readRequest reserve splits limits stream ≠ .error .panicked) ∧
      ∀ stream, NothingFollows stream →
        ∃ outcome, (∀ splits, readRequest reserve splits limits stream = outcome) ∧
          ∀ request, outcome = .ok request ↔
            reserve (limits.maximumHeaderBytes + limits.maximumBodyBytes) = true ∧
              ∃ fields,
                Framed limits stream request.method.token request.target fields request.body ∧
                  Served limits request.method request.target fields ∧
                  request.authorization = valueOf "authorization" fields := by
  refine ⟨fun splits stream => ordinary_readRequest reserve splits limits stream,
    fun stream hends => ⟨_, fun splits => readRequest_eq hlimits hends reserve splits, ?_⟩⟩
  intro request
  rw [← wholeRequest_eq_ok hlimits hends]
  by_cases hreserve : reserve (limits.maximumHeaderBytes + limits.maximumBodyBytes) = true
  · simp [hreserve]
  · simp [hreserve]

end Outcomes

section Examples

def field (name raw : String) : Field := ⟨name.toList, raw.toList⟩

/-- A stream that is framed as a request, and the error that the server has for it. -/
structure Refusal where
  method : String
  target : String
  fields : List Field
  body : List UInt8
  error : HttpReadError

def Refusal.stream (refusal : Refusal) : List UInt8 :=
  encode (headText refusal.method.toList refusal.target.toList refusal.fields) ++ refusal.body

def postFields : List Field :=
  [field "Host" " a", field "content-length" "2", field "Content-Type" " application/json"]

def postStream : List UInt8 :=
  encode (headText "POST".toList "/v1".toList postFields) ++ [0x7b, 0x7d]

theorem readRequest_spec_post :
    readRequest (fun _ => true) (fun _ _ => 1) .default postStream =
      .ok ⟨.post, "/v1".toList, none, [0x7b, 0x7d]⟩ := by
  have hframed : Framed .default postStream "POST".toList "/v1".toList postFields [0x7b, 0x7d] := by
    decide +kernel
  obtain ⟨outcome, hsame, hiff⟩ := (readRequest_spec HttpLimits.validate_default fun _ => true).2
    postStream hframed.nothingFollows
  rw [hsame]
  refine (hiff _).mpr ⟨rfl, postFields, hframed, ⟨⟨rfl, forall_of_all (by decide), by decide⟩, by decide,
    by decide +kernel, by decide, by decide +kernel, fun _ => ⟨_, rfl, by decide +kernel⟩⟩,
    by decide +kernel⟩

def smallLimits : HttpLimits := ⟨64, 2, 16, 16⟩

/-- Methods, bodies, targets, hosts and numbers of fields that the server does not take. -/
def refusals : List Refusal :=
  [⟨"PUT", "/", [field "Host" "a"], [], .unsupportedMethod⟩,
    ⟨"POST", "/", [field "Host" "a"], [], .lengthRequired⟩,
    ⟨"POST", "/", [field "Host" "a", field "Content-Length" "2"], [0x7b, 0x7d],
      .unsupportedMediaType⟩,
    ⟨"GET", "/", [field "Host" "a", field "Content-Length" "2"], [0x7b, 0x7d],
      .malformed "GET bodies are not accepted"⟩,
    ⟨"GET", "*", [field "Host" "a"], [],
      .malformed "request target must be bounded ASCII origin-form"⟩,
    ⟨"GET", "/", [field "Host" ""], [],
      .malformed "Host must occur exactly once and be non-empty"⟩,
    ⟨"GET", "/", [field "Host" "a", field "a" "", field "b" ""], [], .tooManyHeaders 2⟩]

/-- Not all that is framed is taken, nor anything where the buffer cannot be had. -/
theorem readRequest_refuses :
    (∀ refusal ∈ refusals,
      Framed smallLimits refusal.stream refusal.method.toList refusal.target.toList refusal.fields
        refusal.body ∧
        ∀ splits, readRequest (fun _ => true) splits smallLimits refusal.stream =
          .error refusal.error) ∧
      ∀ splits, readRequest (fun _ => false) splits .default postStream =
        .error (.invalidLimits "HTTP request buffer allocation") := by
  have hframed : ∀ refusal ∈ refusals, Framed smallLimits refusal.stream refusal.method.toList
      refusal.target.toList refusal.fields refusal.body := by decide +kernel
  have hwhole : ∀ refusal ∈ refusals,
      wholeRequest smallLimits refusal.stream = .error refusal.error := by decide +kernel
  have hvalid : smallLimits.validate = .ok smallLimits := rfl
  refine ⟨fun refusal hmem => ⟨hframed refusal hmem, fun splits => ?_⟩, fun splits => rfl⟩
  rw [readRequest_eq hvalid (hframed refusal hmem).nothingFollows]
  exact hwhole refusal hmem

end Examples

end Riley.Http
