import Mathlib.Order.Monotone.Basic
import Riley.Server.HttpReading

/-!
Bytes after a request. They are noticed only where a read of the head brings one of them in: the
reads of the body stop where the body does.
-/

namespace Riley.Http

open Offsets (slice)
open Utf8 (Text encode)

section Arrival

variable {limits : HttpLimits} {splits : Splits} {headerEnd total : Nat}

/-- How many bytes of a stream have come in after so many reads of the head, of which none
follows the end of the head. -/
def arrived (limits : HttpLimits) (splits : Splits) (headerEnd total : Nat) : Nat → Nat
  | 0 => 0
  | reads + 1 =>
      let given := arrived limits splits headerEnd total reads
      if headerEnd ≤ given then given
      else
        let bound := min (limits.maximumHeaderBytes - given) READ_CHUNK_BYTES
        min (given + min (max 1 (splits given bound)) bound) total

/-- A read that begins before the end of the head brings in a byte from behind the request. -/
def Overruns (limits : HttpLimits) (splits : Splits) (headerEnd requestEnd total : Nat) : Prop :=
  ∃ reads, requestEnd < arrived limits splits headerEnd total reads

theorem arrived_le (reads : Nat) : arrived limits splits headerEnd total reads ≤ total := by
  induction reads with
  | zero => exact Nat.zero_le _
  | succ reads ih =>
      simp only [arrived]
      split
      · exact ih
      · exact Nat.min_le_right _ _

theorem arrived_le_succ (reads : Nat) :
    arrived limits splits headerEnd total reads ≤
      arrived limits splits headerEnd total (reads + 1) := by
  have hle := @arrived_le limits splits headerEnd total reads
  simp only [arrived]
  split <;> omega

theorem arrived_mono : Monotone (arrived limits splits headerEnd total) :=
  monotone_nat_of_le_succ arrived_le_succ

/-- Once the head has come in, no read of it follows. -/
theorem arrived_of_le {reads more : Nat}
    (h : headerEnd ≤ arrived limits splits headerEnd total reads) :
    arrived limits splits headerEnd total (reads + more) =
      arrived limits splits headerEnd total reads := by
  induction more with
  | zero => rfl
  | succ more ih => simp [arrived, ih, h]

theorem overruns_iff {reads requestEnd : Nat}
    (h : headerEnd ≤ arrived limits splits headerEnd total reads) :
    Overruns limits splits headerEnd requestEnd total ↔
      requestEnd < arrived limits splits headerEnd total reads := by
  refine ⟨fun ⟨other, hother⟩ => ?_, fun hlt => ⟨reads, hlt⟩⟩
  rcases Nat.le_total other reads with hle | hle
  · exact Nat.lt_of_lt_of_le hother (arrived_mono hle)
  · obtain ⟨more, rfl⟩ := Nat.exists_eq_add_of_le hle
    rwa [arrived_of_le h] at hother

/-- A reader that gives one byte at a time stops at the end of the head. -/
theorem not_overruns_single {requestEnd : Nat} (h : headerEnd ≤ requestEnd) :
    ¬ Overruns limits (fun _ _ => 1) headerEnd requestEnd total := by
  rintro ⟨reads, hreads⟩
  have hle : arrived limits (fun _ _ => 1) headerEnd total reads ≤ headerEnd := by
    clear hreads
    induction reads with
    | zero => exact Nat.zero_le _
    | succ reads ih =>
        simp only [arrived]
        split <;> omega
  omega

end Arrival

section Pipelining

variable {limits : HttpLimits} {splits : Splits} {bytes unread stream framed extra : List UInt8}
  {method : HttpMethod} {target : Text} {fields : List Field} {body : List UInt8}

/-- How much the reads of the head bring in. -/
theorem arrived_of_readHead {headerEnd offset : Nat} {bytes' unread' : List UInt8}
    (hfind : Substrings.find HEADER_TERMINATOR (stream.take headerEnd) = some offset)
    (hstream : bytes ++ unread = stream)
    (hreads : ∃ reads, bytes.length = arrived limits splits headerEnd stream.length reads)
    (hok : readHead limits splits bytes unread = .ok (headerEnd, bytes', unread')) :
    ∃ reads', bytes'.length = arrived limits splits headerEnd stream.length reads' := by
  fun_induction readHead limits splits bytes unread with
  | case1 => cases hok
  | case2 bytes unread _ _ _ =>
      simp only [Except.ok.injEq, Prod.mk.injEq] at hok
      obtain ⟨_, rfl, _⟩ := hok
      exact hreads
  | case3 => cases hok
  | case4 => cases hok
  | case5 => cases hok
  | case6 bytes unread hnone hmore remainingHeader hsub next hne ih =>
      obtain ⟨_, rfl⟩ := checkedSub_eq_some.mp hsub
      -- All of the head has not come in yet: its end would have been found.
      have hshort : bytes.length < headerEnd := by
        by_contra hlong
        rw [Nat.not_lt] at hlong
        have htake : stream.take headerEnd ++ bytes.drop headerEnd = bytes := by
          rw [← hstream, List.take_append_of_le_length hlong, List.take_append_drop]
        have hfound := Substrings.find_append hfind (bytes.drop headerEnd)
        rw [htake, hnone] at hfound
        cases hfound
      have hread : next.1 ++ next.2 = unread := read_append splits _ _ unread
      have hcount : next.1.length = min (min (max 1 (splits bytes.length
          (min (limits.maximumHeaderBytes - bytes.length) READ_CHUNK_BYTES)))
            (min (limits.maximumHeaderBytes - bytes.length) READ_CHUNK_BYTES)) unread.length := by
        simp [next, read]
      have htotal := congrArg List.length hstream
      rw [List.length_append] at htotal
      obtain ⟨reads, hreads⟩ := hreads
      refine ih ?_ ⟨reads + 1, ?_⟩ hok
      · rw [List.append_assoc, hread, hstream]
      · rw [List.length_append, hcount, arrived, ← hreads, if_neg (by omega)]
        dsimp only
        omega

/-- What the source makes of the head of a request that it takes. -/
theorem Framed.parsed (hlimits : limits.validate = .ok limits)
    (h : Framed limits framed method.token target fields body)
    (hserved : Served limits method target fields) :
    parseHead (encode (headText method.token target fields)) limits =
        .ok (method, target, (stateOf fields).parsed) ∧
      bodyLength method (stateOf fields).parsed = .ok body.length ∧
        ¬ (method = .post ∧ (stateOf fields).parsed.contentTypeJson = false) := by
  obtain ⟨hhead, _, _, hbodyLength, hbody⟩ := h
  obtain ⟨_, hsum⟩ := validate_eq_ok hlimits
  have htaken : Taken limits target fields := by
    refine ⟨hserved.target_ok, hhead.formed, hserved.fields_le,
      ⟨hhead.unique, hhead.unframed, hserved.host_ne, ?_⟩, by rw [hhead.host]; decide⟩
    intro value hvalue
    obtain ⟨length, hdecimal⟩ := Option.isSome_iff_exists.mp (hhead.length_decimal value hvalue)
    refine ⟨length, hdecimal, ?_⟩
    rw [declaredLength, hvalue, Option.bind_some, hdecimal, Option.getD_some] at hbodyLength
    omega
  refine ⟨?_, bodyLength_eq_ok.mpr ⟨hbodyLength, hserved.get_empty, hserved.post_length⟩, ?_⟩
  · have hwhole := encode_headText method.token target fields
    rw [hwhole]
    exact parseHead_eq_ok.mpr ⟨fields, hwhole.symm, htaken, rfl⟩
  · rintro ⟨hpost, hfalse⟩
    have hany : (stateOf fields).parsed.contentTypeJson = true :=
      (Option.any_eq_true _ _).mpr (hserved.post_json hpost)
    rw [hany] at hfalse
    cases hfalse

/-- The outcome for a request that bytes follow. -/
theorem readRequest_followed (hlimits : limits.validate = .ok limits) {reserve : Nat → Bool}
    (hreserve : reserve (limits.maximumHeaderBytes + limits.maximumBodyBytes) = true)
    (h : Framed limits framed method.token target fields body)
    (hserved : Served limits method target fields) (splits : Splits) (extra : List UInt8)
    {headerEnd : Nat} (hheaderEnd : (encode (headText method.token target fields)).length =
      headerEnd) :
    (Overruns limits splits headerEnd framed.length (framed ++ extra).length →
      readRequest reserve splits limits (framed ++ extra) =
        .error (.malformed "request pipelining is not accepted")) ∧
    (¬ Overruns limits splits headerEnd framed.length (framed ++ extra).length →
      readRequest reserve splits limits (framed ++ extra) =
        .ok ⟨method, target, valueOf "authorization" fields, body⟩) := by
  obtain ⟨hparse, hlength, hjson⟩ := Framed.parsed hlimits h hserved
  obtain ⟨_, hsum⟩ := validate_eq_ok hlimits
  have hcapacity : checkedAdd usizeMax limits.maximumHeaderBytes limits.maximumBodyBytes =
      some (limits.maximumHeaderBytes + limits.maximumBodyBytes) :=
    checkedAdd_eq_some.mpr ⟨rfl, hsum⟩
  have hterminator := terminator_le method.token target fields
  have hheader := h.header_le
  have hbody := h.body_le
  rw [hheaderEnd] at hterminator hheader
  have hframed : framed.length = headerEnd + body.length := by
    rw [h.stream_eq, List.length_append, hheaderEnd]
  have hstream : framed ++ extra =
      encode (headText method.token target fields) ++ (body ++ extra) := by
    rw [h.stream_eq, List.append_assoc]
  have htakeHead : (framed ++ extra).take headerEnd =
      encode (headText method.token target fields) := by
    rw [hstream, ← hheaderEnd, List.take_left]
  have hfindHead : Substrings.find HEADER_TERMINATOR ((framed ++ extra).take headerEnd) =
      some (headerEnd - HEADER_TERMINATOR.length) := by
    have hfind := h.isHead.find_eq []
    rwa [List.append_nil, hheaderEnd, ← htakeHead] at hfind
  have hfind : Substrings.find HEADER_TERMINATOR
      ((framed ++ extra).take limits.maximumHeaderBytes) =
        some (headerEnd - HEADER_TERMINATOR.length) := by
    rw [hstream, List.take_append, List.take_of_length_le (by omega), ← hheaderEnd]
    exact h.isHead.find_eq _
  have hread := @readHead_spec limits splits [] (framed ++ extra) (framed ++ extra) rfl
    (Nat.zero_le _)
  rw [hfind] at hread
  dsimp only at hread
  rw [Nat.sub_add_cancel hterminator] at hread
  obtain ⟨bytes, unread, hhead, happend, hle⟩ := hread
  obtain ⟨reads, hreads⟩ := arrived_of_readHead hfindHead (List.nil_append _) ⟨0, rfl⟩ hhead
  have hslice : slice bytes 0 headerEnd = some (encode (headText method.token target fields)) := by
    rw [Offsets.slice_of_le (Nat.zero_le _) hle, List.drop_zero, Nat.sub_zero, ← htakeHead,
      ← happend, List.take_append_of_le_length hle]
  have hrequest : checkedAdd usizeMax headerEnd body.length = some framed.length :=
    checkedAdd_eq_some.mpr ⟨hframed.symm, by omega⟩
  have hrun : readRequest reserve splits limits (framed ++ extra) =
      if framed.length < bytes.length then
        .error (.malformed "request pipelining is not accepted")
      else .ok ⟨method, target, valueOf "authorization" fields, body⟩ := by
    have hbytes : bytes.length ≤ (framed ++ extra).length := by
      rw [← happend, List.length_append]
      omega
    have htotal : framed.length ≤ (framed ++ extra).length := by
      rw [List.length_append]
      omega
    have hfinal : ((framed ++ extra).take (max framed.length bytes.length)).length =
        max framed.length bytes.length := by
      rw [List.length_take]
      omega
    unfold readRequest
    simp only [hlimits, hcapacity, hreserve, orError, bind, Except.bind, Bool.not_true,
      Bool.false_eq_true, if_false, hhead, hslice, hparse, hlength, if_neg hjson,
      if_neg (Nat.not_lt.mpr hbody), hrequest, readBody_eq happend, if_pos htotal, hfinal]
    by_cases hlong : framed.length < bytes.length
    · rw [if_pos hlong, if_pos (by omega)]
    · have hwhole : (framed ++ extra).take (max framed.length bytes.length) = framed := by
        rw [Nat.max_eq_left (Nat.not_lt.mp hlong), List.take_left]
      have hmoved : slice framed headerEnd framed.length = some body := by
        rw [Offsets.slice_of_le (by omega) (Nat.le_refl _), h.stream_eq, ← hheaderEnd,
          List.drop_left, List.take_of_length_le]
        rw [List.length_append]
        omega
      rw [if_neg (by omega), if_neg hlong, hwhole, copyWithin, hmoved]
      simp only [Option.map_some, List.take_left]
      rfl
  rw [hrun, overruns_iff (hreads ▸ hle), ← hreads]
  exact ⟨fun hlt => if_pos hlt, fun hge => if_neg hge⟩

/-- A request that bytes follow is rejected exactly where a read of the head brings in one of
them; else it is taken as if nothing followed. Every such stream can be split so that it is. -/
theorem readRequest_pipelined_iff (hlimits : limits.validate = .ok limits) {reserve : Nat → Bool}
    (hreserve : reserve (limits.maximumHeaderBytes + limits.maximumBodyBytes) = true)
    (h : Framed limits framed method.token target fields body)
    (hserved : Served limits method target fields) (extra : List UInt8) :
    (∀ splits,
      (readRequest reserve splits limits (framed ++ extra) =
          .error (.malformed "request pipelining is not accepted") ↔
        Overruns limits splits (encode (headText method.token target fields)).length
          framed.length (framed ++ extra).length) ∧
      (readRequest reserve splits limits (framed ++ extra) =
          .ok ⟨method, target, valueOf "authorization" fields, body⟩ ↔
        ¬ Overruns limits splits (encode (headText method.token target fields)).length
          framed.length (framed ++ extra).length)) ∧
    ∃ splits, readRequest reserve splits limits (framed ++ extra) =
      .ok ⟨method, target, valueOf "authorization" fields, body⟩ := by
  have hrun := fun splits => readRequest_followed hlimits hreserve h hserved splits extra rfl
  refine ⟨fun splits => ⟨⟨fun herror => ?_, (hrun splits).1⟩, fun hok hover => ?_,
    (hrun splits).2⟩, fun _ _ => 1, (hrun _).2 (not_overruns_single ?_)⟩
  · by_contra hnot
    rw [(hrun splits).2 hnot] at herror
    cases herror
  · rw [(hrun splits).1 hover] at hok
    cases hok
  · rw [h.stream_eq, List.length_append]
    exact Nat.le_add_right _ _

theorem framed_post :
    Framed .default postStream HttpMethod.post.token "/v1".toList postFields [0x7b, 0x7d] := by
  decide +kernel

theorem served_post : Served .default .post "/v1".toList postFields :=
  ⟨⟨rfl, forall_of_all (by decide), by decide⟩, by decide, by decide +kernel, by decide,
    by decide +kernel, fun _ => ⟨_, rfl, by decide +kernel⟩⟩

theorem overruns_post : Overruns .default (fun _ bound => bound)
    (encode (headText HttpMethod.post.token "/v1".toList postFields)).length postStream.length
    (postStream ++ [0x47, 0x45, 0x54]).length :=
  ⟨1, by decide +kernel⟩

theorem readRequest_pipelined_iff_post :
    readRequest (fun _ => true) (fun _ bound => bound) .default
        (postStream ++ [0x47, 0x45, 0x54]) =
      .error (.malformed "request pipelining is not accepted") :=
  ((readRequest_pipelined_iff HttpLimits.validate_default rfl framed_post served_post
    [0x47, 0x45, 0x54]).1 _).1.mpr overruns_post

/-- One stream, two ways to split it: what follows the request is noticed or is not. -/
theorem readRequest_smuggles :
    readRequest (fun _ => true) (fun _ bound => bound) .default
        (postStream ++ [0x47, 0x45, 0x54]) =
      .error (.malformed "request pipelining is not accepted") ∧
    readRequest (fun _ => true) (fun _ _ => 1) .default (postStream ++ [0x47, 0x45, 0x54]) =
      .ok ⟨.post, "/v1".toList, none, [0x7b, 0x7d]⟩ := by
  have hrun := @readRequest_followed _ _ _ _ _ _ HttpLimits.validate_default (fun _ => true) rfl
    framed_post served_post
  exact ⟨(hrun _ _ rfl).1 overruns_post, (hrun _ _ rfl).2 (not_overruns_single (by decide +kernel))⟩

end Pipelining

end Riley.Http
