import Riley.Checkpoint.LoraSpec

/-!
Merges of whole checkpoints. The targets that a merge visits say how it ends: at the first
one that asks for bytes that are not there it panics, at the first one that does not pass it
stops with an error, and otherwise it rewrites the cells of every target.
-/

namespace Riley.Lora

open Cells (cell rewrite)
open Outcome (except_bind_eq_ok)
open Server (Json)
open Utf8 (Text)

variable {F : Type}

section Reading

theorem orError_eq_ok {α : Type} {value : Option α} {error : LoraError} {result : α} :
    orError value error = .ok result ↔ value = some result := by
  cases value <;> simp [orError]

/-- An error that the source returns. -/
def Returned (error : LoraError) : Prop := error ≠ .panicked ∧ error ≠ .underflow

/-- A computation that ends in a value or in an error that is returned. -/
def Returns {α : Type} (result : Except LoraError α) : Prop :=
  ∀ error, result = .error error → Returned error

theorem Returns.bind {α β : Type} {result : Except LoraError α} {next : α → Except LoraError β}
    (h : Returns result) (hnext : ∀ value, result = .ok value → Returns (next value)) :
    Returns (result >>= next) := by
  cases result with
  | ok value => exact hnext value rfl
  | error error =>
      intro other hother
      cases hother
      exact h error rfl

theorem returns_ok {α : Type} (value : α) : Returns (.ok value : Except LoraError α) := by
  intro error herror
  cases herror

theorem returns_orError {α : Type} {value : Option α} {error : LoraError}
    (h : value = none → Returned error) : Returns (orError value error) := by
  intro other hother
  cases value with
  | none =>
      cases hother
      exact h rfl
  | some value => cases hother

theorem returned_invalid (message : String) : Returned (.invalid message) := by
  simp [Returned]

theorem returned_json : Returned .json := by
  simp [Returned]

theorem returns_dataOffset (value : Json) (dataStart fileLen index : Nat) :
    Returns (dataOffset value dataStart fileLen index) :=
  returns_orError fun _ => returned_invalid _

theorem returns_tensorEntry (value : Json) (dataStart fileLen : Nat) :
    Returns (tensorEntry value dataStart fileLen) := by
  refine (returns_orError fun _ => returned_invalid _).bind fun shape _ => ?_
  refine (returns_dataOffset _ _ _ _).bind fun start _ => ?_
  exact (returns_dataOffset _ _ _ _).bind fun stop _ => returns_ok _

theorem returns_tensorEntriesFrom (dataStart fileLen : Nat) (entries : List (Text × Json)) :
    Returns (tensorEntriesFrom dataStart fileLen entries) := by
  induction entries with
  | nil => exact returns_ok _
  | cons entry entries ih =>
      obtain ⟨name, value⟩ := entry
      rw [tensorEntriesFrom]
      split
      · exact ih
      · refine (returns_tensorEntry _ _ _).bind fun entry _ => ?_
        exact ih.bind fun others _ => returns_ok _

theorem returns_tensorEntries (reader : JsonReader) (file : List UInt8) :
    Returns (tensorEntries reader file) := by
  refine (returns_orError fun _ => returned_invalid _).bind fun lengthPrefix hprefix => ?_
  refine (returns_orError fun _ => returned_invalid _).bind fun dataStart hstart => ?_
  have hslice : Offsets.slice file SAFETENSORS_HEADER_PREFIX dataStart ≠ none := by
    intro hnone
    obtain ⟨stop, hstop, hfits⟩ := Option.bind_eq_some_iff.mp (orError_eq_ok.mp hstart)
    split at hfits
    · next hle =>
        cases hfits
        obtain ⟨rfl, _⟩ := checkedAdd_eq_some.mp hstop
        exact Offsets.slice_eq_none.mp hnone ⟨Nat.le_add_right _ _, hle⟩
    · cases hfits
  refine (returns_orError fun hnone => absurd hnone hslice).bind fun text _ => ?_
  refine (returns_orError fun _ => returned_json).bind fun header _ => ?_
  exact returns_tensorEntriesFrom _ _ _

theorem dataOffset_le {value : Json} {dataStart fileLen index offset : Nat}
    (h : dataOffset value dataStart fileLen index = .ok offset) : offset ≤ fileLen := by
  have h := orError_eq_ok.mp h
  obtain ⟨array, _, h⟩ := Option.bind_eq_some_iff.mp h
  obtain ⟨number, _, h⟩ := Option.bind_eq_some_iff.mp h
  obtain ⟨first, _, h⟩ := Option.bind_eq_some_iff.mp h
  obtain ⟨sum, _, h⟩ := Option.bind_eq_some_iff.mp h
  split at h
  · next hle =>
      cases h
      exact hle
  · cases h

theorem tensorEntriesFrom_spec {dataStart fileLen : Nat} {header : List (Text × Json)}
    {entries : List (Text × TensorEntry)}
    (h : tensorEntriesFrom dataStart fileLen header = .ok entries) :
    (∀ entry ∈ entries, entry.2.stop ≤ fileLen) ∧
      (entries.map Prod.fst).Sublist (header.map Prod.fst) := by
  induction header generalizing entries with
  | nil =>
      cases h
      simp
  | cons named header ih =>
      obtain ⟨name, value⟩ := named
      rw [tensorEntriesFrom] at h
      split at h
      · obtain ⟨hstops, hsublist⟩ := ih h
        exact ⟨hstops, hsublist.cons _⟩
      · obtain ⟨entry, hentry, h⟩ := except_bind_eq_ok.mp h
        obtain ⟨others, hothers, h⟩ := except_bind_eq_ok.mp h
        cases h
        obtain ⟨hstops, hsublist⟩ := ih hothers
        refine ⟨List.forall_mem_cons.mpr ⟨?_, hstops⟩, hsublist.cons_cons _⟩
        obtain ⟨shape, _, hentry⟩ := except_bind_eq_ok.mp hentry
        obtain ⟨start, _, hentry⟩ := except_bind_eq_ok.mp hentry
        obtain ⟨stop, hstop, hentry⟩ := except_bind_eq_ok.mp hentry
        cases hentry
        exact dataOffset_le hstop

/-- The tensors of a file end in it, each under a name of its own. -/
theorem tensorEntries_spec {reader : JsonReader} {file : List UInt8}
    {entries : List (Text × TensorEntry)} (h : tensorEntries reader file = .ok entries) :
    (∀ entry ∈ entries, entry.2.stop ≤ file.length) ∧ (entries.map Prod.fst).Nodup := by
  obtain ⟨lengthPrefix, _, h⟩ := except_bind_eq_ok.mp h
  obtain ⟨dataStart, _, h⟩ := except_bind_eq_ok.mp h
  obtain ⟨text, _, h⟩ := except_bind_eq_ok.mp h
  obtain ⟨header, hheader, h⟩ := except_bind_eq_ok.mp h
  obtain ⟨hstops, hsublist⟩ := tensorEntriesFrom_spec h
  exact ⟨hstops, (reader.header_unique (orError_eq_ok.mp hheader)).sublist hsublist⟩

end Reading

section Visits

/-- What a merge comes to in a file: a target, or something at which it stops with an
error. -/
inductive Visit
  | refused
  | merges (target : Target)

namespace Visit

def Sound (allocates : Nat → Bool) (rank : Nat) : Visit → Prop
  | .refused => True
  | .merges target => target.Sound allocates rank

def Passes : Visit → Prop
  | .refused => False
  | .merges target => target.Passes

instance (allocates : Nat → Bool) (rank : Nat) :
    (visit : Visit) → Decidable (visit.Sound allocates rank)
  | .refused => inferInstanceAs (Decidable True)
  | .merges target => inferInstanceAs (Decidable (target.Sound allocates rank))

instance : (visit : Visit) → Decidable visit.Passes
  | .refused => inferInstanceAs (Decidable False)
  | .merges target => inferInstanceAs (Decidable target.Passes)

def target? : Visit → Option Target
  | .refused => none
  | .merges target => some target

end Visit

/-- The weights of a file that the adapter has factors for. -/
def entryVisits (pairs : Pairs) (rank : Nat) (entries : List (Text × TensorEntry)) : List Visit :=
  (entries.filter fun entry => (Entries.get entry.1 pairs).isSome).map fun entry =>
    match target? pairs rank entry.1 entry.2 with
    | some target => .merges target
    | none => .refused

def fileVisits (reader : JsonReader) (pairs : Pairs) (rank : Nat) (file : CheckpointFile) :
    List Visit :=
  if isSafetensors file.path then
    match tensorEntries reader file.bytes with
    | .ok entries => entryVisits pairs rank entries
    | .error _ => [.refused]
  else []

/-- The targets of a file. -/
def fileTargets (reader : JsonReader) (pairs : Pairs) (rank : Nat) (file : CheckpointFile) :
    List Target :=
  (fileVisits reader pairs rank file).filterMap Visit.target?

/-- How a run over visits ends, with the targets that remain. -/
inductive Fate
  | panicked
  | underflow
  | refused
  | done (remaining : Nat)
  deriving DecidableEq

def Fate.andThen (next : Nat → Fate) : Fate → Fate
  | .done remaining => next remaining
  | other => other

def fate (allocates : Nat → Bool) (rank : Nat) : List Visit → Nat → Fate
  | [], remaining => .done remaining
  | visit :: rest, remaining =>
      if ¬ visit.Sound allocates rank then .panicked
      else if ¬ visit.Passes then .refused
      else if remaining = 0 then .underflow
      else fate allocates rank rest (remaining - 1)

theorem fate_merges (allocates : Nat → Bool) (rank remaining : Nat) (target : Target) :
    fate allocates rank [.merges target] remaining =
      if ¬ target.Sound allocates rank then .panicked
      else if ¬ target.Passes then .refused
      else if remaining = 0 then .underflow
      else .done (remaining - 1) := rfl

theorem fate_append (allocates : Nat → Bool) (rank : Nat) (first second : List Visit)
    (remaining : Nat) :
    fate allocates rank (first ++ second) remaining =
      (fate allocates rank first remaining).andThen (fate allocates rank second) := by
  induction first generalizing remaining with
  | nil => rfl
  | cons visit first ih =>
      rw [List.cons_append, fate, fate]
      split
      · rfl
      split
      · rfl
      split
      · rfl
      · exact ih _

/-- A result is what a fate says. -/
def Meets {α : Type} (result : Except LoraError α) (good : Nat → α → Prop) : Fate → Prop
  | .panicked => result = .error .panicked
  | .underflow => result = .error .underflow
  | .refused => ∃ error, result = .error error ∧ Returned error
  | .done remaining => ∃ value, result = .ok value ∧ good remaining value

theorem Meets.bind {α β : Type} {result : Except LoraError α} {next : α → Except LoraError β}
    {good : Nat → α → Prop} {good' : Nat → β → Prop} {before : Fate} {after : Nat → Fate}
    (h : Meets result good before)
    (hnext : ∀ remaining value, good remaining value →
      Meets (next value) good' (after remaining)) :
    Meets (result >>= next) good' (before.andThen after) := by
  cases before with
  | panicked =>
      have h : result = .error .panicked := h
      subst h
      rfl
  | underflow =>
      have h : result = .error .underflow := h
      subst h
      rfl
  | refused =>
      obtain ⟨error, rfl, herror⟩ := h
      exact ⟨error, rfl, herror⟩
  | done remaining =>
      obtain ⟨value, rfl, hvalue⟩ := h
      exact hnext remaining value hvalue

/-- What follows is a success of its own. -/
theorem Meets.map {α β : Type} {result : Except LoraError α} {next : α → Except LoraError β}
    {good : Nat → α → Prop} {good' : Nat → β → Prop} {ending : Fate} (h : Meets result good ending)
    (hnext : ∀ remaining value, good remaining value →
      ∃ other, next value = .ok other ∧ good' remaining other) :
    Meets (result >>= next) good' ending := by
  have hbind := @Meets.bind _ _ _ _ _ _ _ Fate.done h hnext
  cases ending <;> exact hbind

/-- No visit is one that panics before another one stops the run, and no more targets pass
than remain. -/
theorem fate_returns_iff {allocates : Nat → Bool} {rank : Nat} {visits : List Visit} {remaining : Nat} :
    fate allocates rank visits remaining ≠ .panicked ∧
        fate allocates rank visits remaining ≠ .underflow ↔
      (∀ before visit after, visits = before ++ visit :: after →
        (∀ earlier ∈ before, earlier.Passes) → visit.Sound allocates rank) ∧
        (visits.takeWhile fun visit => decide visit.Passes).length ≤ remaining := by
  induction visits generalizing remaining with
  | nil => simp [fate]
  | cons visit visits ih =>
      have hhead : (∀ before other after, visit :: visits = before ++ other :: after →
          (∀ earlier ∈ before, earlier.Passes) → other.Sound allocates rank) ↔
            visit.Sound allocates rank ∧ (visit.Passes → ∀ before other after,
              visits = before ++ other :: after →
                (∀ earlier ∈ before, earlier.Passes) → other.Sound allocates rank) := by
        constructor
        · intro h
          refine ⟨h [] visit visits rfl (by simp), fun hpasses before other after heq hbefore => ?_⟩
          exact h (visit :: before) other after (by rw [heq]; rfl)
            (List.forall_mem_cons.mpr ⟨hpasses, hbefore⟩)
        · rintro ⟨hsound, h⟩ before other after heq hbefore
          cases before with
          | nil =>
              cases heq
              exact hsound
          | cons first before =>
              obtain ⟨rfl, hrest⟩ := List.cons.inj heq
              obtain ⟨hpasses, hpass⟩ := List.forall_mem_cons.mp hbefore
              exact h hpasses before other after hrest hpass
      rw [fate, hhead]
      by_cases hsound : visit.Sound allocates rank
      · by_cases hpasses : visit.Passes
        · by_cases hzero : remaining = 0
          · simp [hsound, hpasses, hzero]
          · simp only [hsound, hpasses, hzero, not_true_eq_false, if_false, true_and,
              forall_const, decide_true, List.takeWhile_cons_of_pos, List.length_cons]
            rw [ih]
            have hcount : ∀ count, count + 1 ≤ remaining ↔ count ≤ remaining - 1 := by omega
            rw [hcount]
        · simp [hsound, hpasses]
      · simp [hsound]

/-- A run is done when every visit passes and there are no more of them than targets. -/
theorem fate_eq_done {allocates : Nat → Bool} {rank : Nat} {visits : List Visit}
    {remaining rest : Nat} :
    fate allocates rank visits remaining = .done rest ↔
      (∀ visit ∈ visits, visit.Sound allocates rank ∧ visit.Passes) ∧
        visits.length + rest = remaining := by
  induction visits generalizing remaining with
  | nil => simp [fate, eq_comm]
  | cons visit visits ih =>
      rw [fate, List.forall_mem_cons, List.length_cons]
      by_cases hsound : visit.Sound allocates rank
      · by_cases hpasses : visit.Passes
        · simp only [hsound, hpasses, not_true_eq_false, if_false, true_and]
          by_cases hzero : remaining = 0
          · simp only [hzero, if_true, reduceCtorEq, false_iff]
            omega
          · simp only [hzero, if_false, ih]
            constructor
            · rintro ⟨hall, hcount⟩
              exact ⟨hall, by omega⟩
            · rintro ⟨hall, hcount⟩
              exact ⟨hall, by omega⟩
        · simp [hsound, hpasses]
      · simp [hsound]

end Visits

section Runs

variable {ops : Arithmetic F} {allocates : Nat → Bool} {adapter : Adapter F}
  {reader : JsonReader}

/-- The factors of an adapter are in its file, and its rank is a positive number. -/
structure Adapter.Valid (adapter : Adapter F) : Prop where
  rank_pos : 0 < adapter.rank
  a_le : ∀ name factors a, Entries.get name adapter.pairs = some factors → factors.a = some a →
    a.stop ≤ adapter.file.length
  b_le : ∀ name factors b, Entries.get name adapter.pairs = some factors → factors.b = some b →
    b.stop ≤ adapter.file.length

def applyAll (ops : Arithmetic F) (adapter : Adapter F) (targets : List Target)
    (file : List UInt8) : List UInt8 :=
  targets.foldl (fun file target => target.apply ops adapter file) file

@[simp] theorem length_applyAll (targets : List Target) (file : List UInt8) :
    (applyAll ops adapter targets file).length = file.length := by
  induction targets generalizing file with
  | nil => rfl
  | cons target targets ih =>
      have hrest := ih (target.apply ops adapter file)
      rw [Target.length_apply] at hrest
      exact hrest

/-- One entry that the adapter has factors for. -/
theorem mergeEntry_meets (hvalid : adapter.Valid) {name : Text} {weight : TensorEntry}
    {progress : Progress} (hweight : weight.stop ≤ progress.file.length)
    (hname : (Entries.get name adapter.pairs).isSome = true) :
    Meets (mergeEntry ops allocates adapter name weight progress)
      (fun remaining after => after.remaining = remaining ∧
        after.file = applyAll ops adapter
          ((target? adapter.pairs adapter.rank name weight).toList) progress.file)
      (fate allocates adapter.rank
        [match target? adapter.pairs adapter.rank name weight with
          | some target => .merges target
          | none => .refused] progress.remaining) := by
  obtain ⟨⟨a, b⟩, hfactors⟩ := Option.isSome_iff_exists.mp hname
  unfold mergeEntry
  rw [hfactors]
  cases a with
  | none =>
      have hnone : target? adapter.pairs adapter.rank name weight = none := by
        unfold target?
        rw [hfactors]
      rw [hnone]
      exact ⟨_, rfl, returned_invalid _⟩
  | some a =>
      cases b with
      | none =>
          have hnone : target? adapter.pairs adapter.rank name weight = none := by
            unfold target?
            rw [hfactors]
          rw [hnone]
          exact ⟨_, rfl, returned_invalid _⟩
      | some b =>
          have hspec := @mergePair_spec F ops allocates adapter hvalid.rank_pos name a b weight progress.file
            (hvalid.a_le _ _ _ hfactors rfl) (hvalid.b_le _ _ _ hfactors rfl) hweight hfactors
          cases htarget : target? adapter.pairs adapter.rank name weight with
          | none =>
              rw [htarget] at hspec
              obtain ⟨message, hmessage⟩ := hspec
              dsimp only
              rw [hmessage]
              exact ⟨_, rfl, returned_invalid _⟩
          | some target =>
              rw [htarget] at hspec
              dsimp only at hspec ⊢
              rw [fate_merges]
              split at hspec
              · next hunsound =>
                  rw [hspec, if_pos hunsound]
                  rfl
              next hsound =>
              rw [if_neg hsound]
              split at hspec
              · next hfails =>
                  obtain ⟨message, hmessage⟩ := hspec
                  rw [hmessage, if_pos hfails]
                  exact ⟨_, rfl, returned_invalid _⟩
              next hpasses =>
              rw [hspec, if_neg hpasses]
              by_cases hzero : progress.remaining = 0
              · rw [if_pos hzero, hzero]
                rfl
              · have hsub : checkedSub progress.remaining 1 = some (progress.remaining - 1) :=
                  checkedSub_eq_some.mpr ⟨by omega, rfl⟩
                rw [if_neg hzero, hsub]
                exact ⟨_, rfl, rfl, rfl⟩

theorem applyAll_append (first second : List Target) (file : List UInt8) :
    applyAll ops adapter (first ++ second) file =
      applyAll ops adapter second (applyAll ops adapter first file) :=
  List.foldl_append

theorem mergeEntries_meets (hvalid : adapter.Valid) {entries : List (Text × TensorEntry)}
    {progress : Progress} (hentries : ∀ entry ∈ entries, entry.2.stop ≤ progress.file.length) :
    Meets (mergeEntries ops allocates adapter entries progress)
      (fun remaining after => after.remaining = remaining ∧
        after.file = applyAll ops adapter
          ((entryVisits adapter.pairs adapter.rank entries).filterMap Visit.target?) progress.file)
      (fate allocates adapter.rank (entryVisits adapter.pairs adapter.rank entries) progress.remaining) := by
  induction entries generalizing progress with
  | nil => exact ⟨progress, rfl, rfl, rfl⟩
  | cons entry entries ih =>
      obtain ⟨name, weight⟩ := entry
      obtain ⟨hweight, hrest⟩ := List.forall_mem_cons.mp hentries
      rw [mergeEntries, entryVisits, List.filter_cons]
      cases hname : (Entries.get name adapter.pairs).isSome with
      | false =>
          have habsent : mergeEntry ops allocates adapter name weight progress = .ok progress := by
            rw [mergeEntry, Option.isSome_eq_false_iff.mp hname |> Option.isNone_iff_eq_none.mp]
          rw [habsent]
          exact ih hrest
      | true =>
          rw [if_pos rfl, List.map_cons, ← List.singleton_append, fate_append]
          refine (mergeEntry_meets hvalid hweight hname).bind ?_
          rintro remaining after ⟨rfl, hfile⟩
          have hlength : after.file.length = progress.file.length := by
            rw [hfile, length_applyAll]
          have hnext := @ih after (by rw [hlength]; exact hrest)
          rw [hfile] at hnext
          rw [List.filterMap_append, applyAll_append]
          cases htarget : target? adapter.pairs adapter.rank name weight with
          | none =>
              rw [htarget] at hnext
              exact hnext
          | some target =>
              rw [htarget] at hnext
              exact hnext

/-- The bytes of a file, with its targets rewritten. -/
def appliedFile (ops : Arithmetic F) (adapter : Adapter F) (reader : JsonReader)
    (file : CheckpointFile) : List UInt8 :=
  applyAll ops adapter (fileTargets reader adapter.pairs adapter.rank file) file.bytes

theorem mergeFile_meets (hvalid : adapter.Valid) (file : CheckpointFile) (remaining : Nat) :
    Meets (mergeFile ops allocates adapter reader file remaining)
      (fun remaining merged => merged.2 = remaining ∧ merged.1.path = file.path ∧
        merged.1.bytes = appliedFile ops adapter reader file)
      (fate allocates adapter.rank (fileVisits reader adapter.pairs adapter.rank file) remaining) := by
  unfold mergeFile appliedFile fileTargets fileVisits
  split
  · cases hentries : tensorEntries reader file.bytes with
    | error error =>
        exact ⟨error, rfl, returns_tensorEntries reader file.bytes error hentries⟩
    | ok entries =>
        have hmeets := @mergeEntries_meets F ops allocates adapter hvalid entries
          ⟨file.bytes, false, remaining⟩ (tensorEntries_spec hentries).1
        exact hmeets.map fun remaining progress hprogress =>
          ⟨_, rfl, hprogress.1, rfl, hprogress.2⟩
  · exact ⟨_, rfl, rfl, rfl, rfl⟩

theorem mergeFiles_meets (hvalid : adapter.Valid) (files : List CheckpointFile)
    (remaining : Nat) :
    Meets (mergeFiles ops allocates adapter reader files remaining)
      (fun remaining merged => merged.2 = remaining ∧
        List.Forall₂ (fun file merged => merged.path = file.path ∧
          merged.bytes = appliedFile ops adapter reader file) files merged.1)
      (fate allocates adapter.rank (files.flatMap (fileVisits reader adapter.pairs adapter.rank))
        remaining) := by
  induction files generalizing remaining with
  | nil => exact ⟨_, rfl, rfl, .nil⟩
  | cons file files ih =>
      rw [mergeFiles, List.flatMap_cons, fate_append]
      refine (mergeFile_meets hvalid file remaining).bind ?_
      rintro remaining ⟨merged, rest⟩ ⟨rfl, hpath, hbytes⟩
      refine (ih rest).map ?_
      rintro remaining ⟨others, rest⟩ ⟨rfl, hothers⟩
      exact ⟨_, rfl, rfl, .cons ⟨hpath, hbytes⟩ hothers⟩

end Runs

end Riley.Lora
