import Riley.Checkpoint.PublishRules

/-!
The programs of a publisher, each from what it finds below the destination to what it leaves there:
the files that stand in the stage, and those that are linked.
-/

namespace Riley.Publication

open FileTree (Path Node Tree Sets Creates SameOutside)
open Interleaving (Program Safe Stable ends)

section Reading

variable {ι : Type} {loader : Loader} {i : ι} {world world' : World ι} {α β : Type}

/-- An operation that leaves the tree as it is. -/
def Op.Reads : Op → Prop
  | .symlinkMetadata _ | .openFile _ | .read _ _ | .readToEnd _ _ | .syncAll _ | .syncDirectory _
  | .pathExists _ | .load _ _ => True
  | _ => False

theorem Op.Reads.eq_of_answers {op : Op} (h : op.Reads) {answer : Except Error (Answer op)}
    (hanswers : (semantics loader i).answers op world answer world') : world' = world := by
  obtain ⟨hcredits, hanswer⟩ := hanswers
  apply hcredits.eq
  cases answer with
  | ok value => cases op <;> first | exact h.elim | exact hanswer.1 | exact hanswer
  | error error => cases op <;> first | exact h.elim | exact hanswer.elim | exact hanswer

theorem Op.Reads.not_progress {op : Op} (h : op.Reads) :
    ¬ (semantics loader i).progress op world world' := by
  rintro ⟨hprogress, _⟩
  cases op <;> first | exact h.elim | exact hprogress.elim

/-- A program of such operations, and what its values are. -/
def Reading (value : α → Prop) : Preparation α → Prop
  | .done (.ok result) => value result
  | .done (.error _) => True
  | .perform op next => op.Reads ∧ ∀ answer, Reading value (next answer)

theorem Reading.bind {value : α → Prop} {other : β → Prop} {program : Preparation α}
    {next : α → Preparation β} (h : Reading value program)
    (hnext : ∀ result, value result → Reading other (next result)) :
    Reading other (program >>= next) := by
  induction program with
  | done result =>
      cases result with
      | ok result => exact hnext result h
      | error error => trivial
  | perform op rest ih => exact ⟨h.1, fun answer => ih answer (h.2 answer)⟩

theorem Reading.call (op : Op) (h : op.Reads) : Reading (fun _ => True) (call op) := by
  refine ⟨h, fun answer => ?_⟩
  cases answer with
  | ok value => trivial
  | error error => trivial

theorem reading_checkedPathFrom (current : Path) (path : List Component) :
    Reading (· = path.foldl push current) (checkedPathFrom current path) := by
  have hvisit : ∀ (current : Path) component rest,
      (∀ current, Reading (· = rest.foldl push current) (checkedPathFrom current rest)) →
      Reading (· = rest.foldl push (push current component)) (do
        let fileType : FileType ← call (.symlinkMetadata (push current component))
        if fileType = .symlink then invalid "symlinks are not allowed in checkpoint paths"
        else checkedPathFrom (push current component) rest) := by
    intro current component rest hrest
    refine Reading.bind (Reading.call _ trivial) fun fileType _ => ?_
    split
    · trivial
    · exact hrest _
  induction path generalizing current with
  | nil => exact rfl
  | cons component rest ih =>
      cases component with
      | parentDir => trivial
      | curDir => exact ih current
      | rootDir => exact hvisit current .rootDir rest ih
      | normal name => exact hvisit current (.normal name) rest ih

theorem reading_checkedDirectory (workingDirectory : Path) (path : List Component) :
    Reading (· = (absolute workingDirectory path).foldl push [])
      (checkedDirectory workingDirectory path) := by
  refine (reading_checkedPathFrom [] _).bind ?_
  rintro _ rfl
  refine Reading.bind (Reading.call _ trivial) fun fileType _ => ?_
  split
  · trivial
  · exact rfl

theorem reading_regularFile (workingDirectory : Path) (path : List Component) :
    Reading (·.path = (absolute workingDirectory path).foldl push [])
      (regularFile workingDirectory path) := by
  refine (reading_checkedPathFrom [] _).bind ?_
  rintro _ rfl
  refine Reading.bind (Reading.call _ trivial) fun fileType _ => ?_
  split
  · trivial
  refine Reading.bind (Reading.call _ trivial) fun metadata _ => ?_
  split
  · trivial
  · exact rfl

/-- A path that is checked again stays itself. -/
theorem foldl_push_components (workingDirectory path : Path) :
    (absolute workingDirectory (components path)).foldl push [] = path := by
  have hnormal : ∀ (current : Path), (path.map Component.normal).foldl push current =
      current ++ path := by
    intro current
    induction path generalizing current with
    | nil => simp
    | cons name rest ih => simp [push, ih]
  exact hnormal []

variable {root : Path} {plans : ι → Plan loader}

/-- A program that reads keeps what the others keep. -/
theorem Reading.safe {value : α → Prop} {program : Preparation α} {assertion : World ι → Prop}
    (h : Reading value program) (hstable : Stable (rely root i) assertion)
    (hworld : assertion world) :
    Safe (semantics loader i) (rely root i) (guarantee root plans i)
      (ends (fun result world => value result ∧ assertion world) fun _ => assertion)
      program world := by
  induction program generalizing world with
  | done result =>
      cases result with
      | ok result => exact ⟨h, hworld⟩
      | error error => exact hworld
  | perform op next ih =>
      refine ⟨assertion, hworld, hstable, fun world hworld =>
        ⟨fun world' hprogress => absurd hprogress h.1.not_progress, fun answer world' hanswers => ?_⟩⟩
      have hsame := h.1.eq_of_answers hanswers
      subst hsame
      exact ⟨⟨Credits.refl i _, Or.inl rfl⟩, ih answer (h.2 answer) hworld⟩

end Reading

section Holding

variable {ι : Type} {loader : Loader} {root : Path} {plans : ι → Plan loader} {i : ι}
  {world world' : World ι} {contents linked : String → Option (List UInt8)} {name : String}
  {bytes : List UInt8}

/-- What a publisher holds below its destination before it is published: the files in its stage
and those that are linked. What the transport has there is not told. -/
structure At (root : Path) (i : ι) (contents linked : String → Option (List UInt8))
    (world : World ι) : Prop where
  owns : Owns root i world
  staged : world.tree.below (root ++ [STAGING]) = directoryOf contents
  top : ∀ name, name ≠ STAGING → name ≠ TRANSPORT →
    world.tree.entry (root ++ [name]) = (linked name).map .file
  unpublished : linked PROVENANCE_FILENAME = none

/-- The manifest of a destination is not linked. -/
structure Unpublished (root : Path) (i : ι) (world : World ι) : Prop where
  owns : Owns root i world
  manifest : world.tree.entry (root ++ [PROVENANCE_FILENAME]) = none

theorem At.stable : Stable (rely root i) (At root i contents linked) := by
  intro world world' h hrely
  obtain ⟨howns, hsame⟩ := hrely.1 h.owns
  refine ⟨howns, ?_, fun name hstage htransport => ?_, h.unpublished⟩
  · rw [← h.staged]
    funext rest
    apply hsame
    rw [List.append_assoc]
    exact List.prefix_append _ _
  · rw [hsame _ (List.prefix_append root [name])]
    exact h.top name hstage htransport

theorem Unpublished.stable : Stable (rely root i) (Unpublished root i) := by
  intro world world' h hrely
  obtain ⟨howns, hsame⟩ := hrely.1 h.owns
  refine ⟨howns, ?_⟩
  rw [hsame _ (List.prefix_append root _)]
  exact h.manifest

theorem At.toUnpublished (h : At root i contents linked world) : Unpublished root i world := by
  refine ⟨h.owns, ?_⟩
  rw [h.top _ (by decide) (by decide), h.unpublished]
  rfl

theorem At.entry_staged (h : At root i contents linked world) (name : String) :
    world.tree.entry (root ++ [STAGING] ++ [name]) = (contents name).map .file :=
  congrFun h.staged [name]

theorem At.entry_root (h : At root i contents linked world) :
    world.tree.entry root = some .directory := by
  have hstage := congrFun h.staged []
  rw [FileTree.Tree.below, List.append_nil] at hstage
  apply world.tree.closed root STAGING
  rw [hstage]
  exact Option.some_ne_none _

/-- As long as nothing is published, anything below the destination may change but the manifest. -/
theorem Unpublished.guarantee (h : Unpublished root i world) (hcredits : Credits i world world')
    (houtside : SameOutside root world.tree world'.tree)
    (hmanifest : world'.tree.entry (root ++ [PROVENANCE_FILENAME]) = none) :
    guarantee root plans i world world' :=
  ⟨hcredits, Or.inr (Or.inr ⟨h.owns, houtside, fun hne => absurd h.manifest hne,
    fun hne => absurd hmanifest hne⟩)⟩

theorem At.guarantee (h : At root i contents linked world) (hcredits : Credits i world world')
    (houtside : SameOutside root world.tree world'.tree) {contents' linked'}
    (h' : At root i contents' linked' world') : guarantee root plans i world world' :=
  h.toUnpublished.guarantee hcredits houtside h'.toUnpublished.manifest

theorem At.stage_sets (h : At root i contents linked world) (hcredits : Credits i world world')
    (hsets : Sets (root ++ [STAGING] ++ [name]) (some (.file bytes)) world.tree world'.tree) :
    At root i (Function.update contents name (some bytes)) linked world' := by
  have hroot : world'.tree.entry root = some .directory := by
    rw [hsets.2 root (by simp), h.entry_root]
  refine ⟨hcredits.owns h.owns (by rw [hroot]; exact Option.some_ne_none _), ?_, ?_, h.unpublished⟩
  · funext rest
    have hold := congrFun h.staged rest
    by_cases hrest : rest = [name]
    · subst hrest
      rw [FileTree.Tree.below, hsets.1]
      simp [directoryOf]
    · have hnew : world'.tree.entry (root ++ [STAGING] ++ rest) =
          world.tree.entry (root ++ [STAGING] ++ rest) :=
        hsets.2 _ fun heq => hrest (List.append_cancel_left heq)
      rw [FileTree.Tree.below, hnew]
      refine hold.trans ?_
      match rest, hrest with
      | [], _ => rfl
      | [other], hne =>
          have hother : other ≠ name := fun heq => hne (by rw [heq])
          simp [directoryOf, Function.update_of_ne hother]
      | _ :: _ :: _, _ => rfl
  · intro other hstage htransport
    rw [hsets.2 _ (by simp), h.top other hstage htransport]

theorem At.link_sets (h : At root i contents linked world) (hcredits : Credits i world world')
    (hname : name ≠ STAGING) (hmanifest : name ≠ PROVENANCE_FILENAME)
    (hsets : Sets (root ++ [name]) (some (.file bytes)) world.tree world'.tree) :
    At root i contents (Function.update linked name (some bytes)) world' := by
  have hroot : world'.tree.entry root = some .directory := by
    rw [hsets.2 root (by simp), h.entry_root]
  refine ⟨hcredits.owns h.owns (by rw [hroot]; exact Option.some_ne_none _), ?_, ?_, ?_⟩
  · rw [← h.staged]
    funext rest
    apply hsets.2
    intro heq
    simp only [List.append_assoc, List.cons_append, List.nil_append] at heq
    have hhead := List.append_cancel_left heq
    exact hname (List.cons.inj hhead).1.symm
  · intro other hstage htransport
    by_cases hother : other = name
    · subst hother
      rw [hsets.1]
      simp
    · have hne : root ++ [other] ≠ root ++ [name] := by simpa using hother
      rw [hsets.2 _ hne, h.top other hstage htransport, Function.update_of_ne hother]
  · rw [Function.update_of_ne hmanifest.symm, h.unpublished]

/-- What the transport has may change. -/
theorem At.transport (h : At root i contents linked world) (hcredits : Credits i world world')
    (hsame : SameOutside (root ++ [TRANSPORT]) world.tree world'.tree) :
    At root i contents linked world' := by
  have hroot : world'.tree.entry root = some .directory := by
    rw [hsame root, h.entry_root]
    intro hunder
    have hlength := hunder.length_le
    simp only [List.length_append, List.length_singleton] at hlength
    omega
  refine ⟨hcredits.owns h.owns (by rw [hroot]; exact Option.some_ne_none _), ?_, ?_, h.unpublished⟩
  · rw [← h.staged]
    funext rest
    apply hsame
    intro hunder
    rw [List.append_assoc, List.prefix_append_right_inj] at hunder
    exact absurd (List.cons_prefix_cons.mp hunder).1 (by decide)
  · intro name hstage htransport
    rw [hsame, h.top name hstage htransport]
    rw [List.prefix_append_right_inj]
    simpa using htransport.symm

end Holding

section Operations

variable {ι : Type} {loader : Loader} {root : Path} {plans : ι → Plan loader} {i : ι}
  {world : World ι} {contents linked : String → Option (List UInt8)} {name : String}
  {bytes before : List UInt8} {α : Type}

/-- A program of a publisher that keeps to its guarantee. -/
abbrev SafeFor (root : Path) (plans : ι → Plan loader) (i : ι)
    (post : Except Error α → World ι → Prop) (program : Preparation α) (world : World ι) : Prop :=
  Safe (semantics loader i) (rely root i) (guarantee root plans i) post program world

/-- Below the stage is below the destination. -/
theorem prefix_stage (root : Path) (rest : Path) : root <+: root ++ [STAGING] ++ rest := by
  rw [List.append_assoc]
  exact List.prefix_append _ _

theorem createFile_safe (h : At root i contents linked world) :
    SafeFor root plans i
      (ends (fun _ => At root i (Function.update contents name (some [])) linked)
        fun _ => Unpublished root i)
      (call (.createFile (root ++ [STAGING] ++ [name]))) world := by
  refine Safe.call _ h At.stable (fun _ _ _ hprogress => hprogress.1.elim) ?_
  rintro world answer world' hat ⟨hcredits, hanswer⟩
  cases answer with
  | ok value =>
      have hat' := hat.stage_sets hcredits hanswer.2
      exact ⟨hat.guarantee hcredits (hanswer.2.sameOutside (prefix_stage root _)) hat', hat'⟩
  | error error =>
      obtain rfl := hcredits.eq hanswer
      exact ⟨⟨hcredits, Or.inl rfl⟩, hat.toUnpublished⟩

theorem writeAll_safe (h : At root i contents linked world) (hbefore : contents name = some before) :
    SafeFor root plans i
      (ends (fun _ => At root i (Function.update contents name (some (before ++ bytes))) linked)
        fun _ => Unpublished root i)
      (call (.writeAll (root ++ [STAGING] ++ [name]) bytes)) world := by
  have happends : ∀ {part : List UInt8} {world world' : World ι}, At root i contents linked world →
      Credits i world world' →
      Appends (root ++ [STAGING] ++ [name]) part world.tree world'.tree →
      guarantee root plans i world world' ∧
        At root i (Function.update contents name (some (before ++ part))) linked world' := by
    rintro part world world' hat hcredits ⟨found, hfound, hsets⟩
    rw [hat.entry_staged, hbefore] at hfound
    cases hfound
    have hat' := hat.stage_sets hcredits hsets
    exact ⟨hat.guarantee hcredits (hsets.sameOutside (prefix_stage root _)) hat', hat'⟩
  refine Safe.call _ h At.stable (fun _ _ _ hprogress => hprogress.1.elim) ?_
  rintro world answer world' hat ⟨hcredits, hanswer⟩
  cases answer with
  | ok value => exact happends hat hcredits hanswer
  | error error =>
      rcases hanswer with hsame | ⟨part, _, hpart⟩
      · obtain rfl := hcredits.eq hsame
        exact ⟨⟨hcredits, Or.inl rfl⟩, hat.toUnpublished⟩
      · obtain ⟨hguarantee, hat'⟩ := happends hat hcredits hpart
        exact ⟨hguarantee, hat'.toUnpublished⟩

/-- A file of the stage is linked with what it holds. -/
theorem hardLink_safe (h : At root i contents linked world) (hname : name ≠ STAGING)
    (hmanifest : name ≠ PROVENANCE_FILENAME) :
    SafeFor root plans i
      (ends (fun _ => At root i contents (Function.update linked name (contents name)))
        fun _ => Unpublished root i)
      (call (.hardLink (root ++ [STAGING] ++ [name]) (root ++ [name]))) world := by
  refine Safe.call _ h At.stable (fun _ _ _ hprogress => hprogress.1.elim) ?_
  rintro world answer world' hat ⟨hcredits, hanswer⟩
  cases answer with
  | ok value =>
      obtain ⟨bytes, hfound, _, hsets⟩ := hanswer
      rw [hat.entry_staged] at hfound
      obtain ⟨found, hcontents, hbytes⟩ := Option.map_eq_some_iff.mp hfound
      cases hbytes
      have hat' := hat.link_sets hcredits hname hmanifest hsets
      rw [← hcontents] at hat'
      exact ⟨hat.guarantee hcredits (hsets.sameOutside (List.prefix_append _ _)) hat', hat'⟩
  | error error =>
      obtain rfl := hcredits.eq hanswer
      exact ⟨⟨hcredits, Or.inl rfl⟩, hat.toUnpublished⟩

theorem fetch_safe (h : At root i contents linked world) (entry : ProvenanceFile) :
    SafeFor root plans i
      (ends (fun _ => At root i contents linked) fun _ => Unpublished root i)
      (call (.fetch root entry)) world := by
  refine Safe.call _ h At.stable ?_ ?_
  · rintro world world' hat ⟨hsame, hcredits⟩
    have hat' := hat.transport hcredits hsame
    exact ⟨hat.guarantee hcredits (hsame.mono (List.prefix_append _ _)) hat', hat'⟩
  · rintro world answer world' hat ⟨hcredits, hanswer⟩
    cases answer with
    | ok value =>
        obtain rfl := hcredits.eq hanswer
        exact ⟨⟨hcredits, Or.inl rfl⟩, hat⟩
    | error error =>
        obtain rfl := hcredits.eq hanswer
        exact ⟨⟨hcredits, Or.inl rfl⟩, hat.toUnpublished⟩

theorem removeTransport_safe (h : At root i contents linked world) :
    SafeFor root plans i
      (ends (fun _ => At root i contents linked) fun _ => Unpublished root i)
      (call (.removeDirAll (root ++ [TRANSPORT]))) world := by
  have hsets : ∀ {path : Path} {world world' : World ι}, root ++ [TRANSPORT] <+: path →
      At root i contents linked world → Credits i world world' →
      Sets path none world.tree world'.tree →
      guarantee root plans i world world' ∧ At root i contents linked world' := by
    intro path world world' hpath hat hcredits hsets
    have hsame := hsets.sameOutside hpath
    have hat' := hat.transport hcredits hsame
    exact ⟨hat.guarantee hcredits (hsame.mono (List.prefix_append _ _)) hat', hat'⟩
  refine Safe.call _ h At.stable ?_ ?_
  · rintro world world' hat ⟨⟨path, hpath, _, hpathSets⟩, hcredits⟩
    exact hsets hpath hat hcredits hpathSets
  · rintro world answer world' hat ⟨hcredits, hanswer⟩
    cases answer with
    | ok value => exact hsets (List.prefix_refl _) hat hcredits hanswer.2
    | error error =>
        obtain rfl := hcredits.eq hanswer
        exact ⟨⟨hcredits, Or.inl rfl⟩, hat.toUnpublished⟩

/-- Nothing of a checkpoint that is not published is left where it is rolled back. -/
theorem rollBack_safe (h : Unpublished root i world) :
    SafeFor root plans i (fun _ _ => True) (Transaction.rollBack root) world := by
  refine Safe.call _ h Unpublished.stable ?_ ?_
  · rintro world world' hun ⟨⟨path, hpath, hne, hsets⟩, hcredits⟩
    have hmanifest : world'.tree.entry (root ++ [PROVENANCE_FILENAME]) = none := by
      by_cases heq : root ++ [PROVENANCE_FILENAME] = path
      · rw [heq, hsets.1]
      · rw [hsets.2 _ heq, hun.manifest]
    have hroot : world'.tree.entry root ≠ none := by
      rw [hsets.2 root hne.symm]
      exact world.present root (by rw [hun.owns]; exact Option.some_ne_none _)
    exact ⟨hun.guarantee hcredits (hsets.sameOutside hpath) hmanifest,
      ⟨hcredits.owns hun.owns hroot, hmanifest⟩⟩
  · rintro world answer world' hun ⟨hcredits, hanswer⟩
    cases answer with
    | ok value =>
        have hmanifest := world'.tree.entry_below hanswer.2.1 [PROVENANCE_FILENAME]
        exact ⟨hun.guarantee hcredits (hanswer.2.sameOutside (List.prefix_refl _)) hmanifest,
          trivial⟩
    | error error =>
        obtain rfl := hcredits.eq hanswer
        exact ⟨⟨hcredits, Or.inl rfl⟩, trivial⟩

end Operations

section Copying

variable {ι : Type} {loader : Loader} {root : Path} {plans : ι → Plan loader} {i : ι}
  {world : World ι} {contents linked : String → Option (List UInt8)} {name : String}
  {entry : ProvenanceFile}

/-- What was hashed is what stands in the file. -/
theorem copyFrom_safe (source : Path) {hashed : List UInt8} {count : Nat}
    (h : At root i (Function.update contents name (some hashed)) linked world)
    (hcount : hashed.length = count) :
    SafeFor root plans i
      (ends (fun result world =>
          At root i (Function.update contents name (some result.1)) linked world ∧
            result.1.length = result.2)
        fun _ => Unpublished root i)
      (copyFrom source (root ++ [STAGING] ++ [name]) entry hashed count) world := by
  -- Every round reads at least one byte, of which there is a bounded number.
  induction hfuel : entry.byteLen - count using Nat.strongRecOn
    generalizing hashed count world with
  | ind fuel ih =>
    rw [copyFrom]
    refine Safe.bind (Reading.safe (Reading.call _ trivial) At.stable h) ?_
      fun _ _ hat => hat.toUnpublished
    rintro buffer world ⟨_, hat⟩
    split
    · exact ⟨hat, hcount⟩
    next hlength =>
    split
    · exact hat.toUnpublished
    next hgrew =>
    refine Safe.bind (writeAll_safe hat (Function.update_self _ _ _)) ?_ fun _ _ hun => hun
    rintro _ world hat
    rw [Function.update_idem] at hat
    refine ih (entry.byteLen - (count + buffer.length)) (by omega) hat ?_ rfl
    rw [List.length_append, hcount]

/-- A file that was copied has the length and the digest that are asserted. -/
theorem copyVerified_safe (workingDirectory : Path) (source : List Component)
    (h : At root i contents linked world) :
    SafeFor root plans i
      (ends (fun _ world => ∃ bytes, bytes.length = entry.byteLen ∧
          loader.hexDigest bytes = entry.sha256 ∧
          At root i (Function.update contents name (some bytes)) linked world)
        fun _ => Unpublished root i)
      (copyVerified loader workingDirectory source (root ++ [STAGING] ++ [name]) entry) world := by
  refine Safe.bind (Reading.safe (reading_regularFile _ _) At.stable h) ?_
    fun _ _ hat => hat.toUnpublished
  rintro input world ⟨_, hat⟩
  split
  · exact hat.toUnpublished
  refine Safe.bind (createFile_safe hat) ?_ fun _ _ hun => hun
  rintro _ world hat
  refine Safe.bind (copyFrom_safe input.path hat rfl) ?_ fun _ _ hun => hun
  rintro ⟨hashed, count⟩ world ⟨hat, hcount⟩
  dsimp only at hat hcount ⊢
  by_cases hrejected : count ≠ entry.byteLen ∨ loader.hexDigest hashed ≠ entry.sha256
  · rw [if_pos hrejected]
    exact hat.toUnpublished
  rw [if_neg hrejected]
  obtain ⟨hlength, hdigest⟩ := not_or.mp hrejected
  refine (Reading.safe (Reading.call (.syncAll _) trivial) At.stable hat).imp ?_
  rintro (error | value) world hend
  · exact At.toUnpublished hend
  · exact ⟨hashed, hcount.trans (not_not.mp hlength), not_not.mp hdigest, hend.2⟩

/-- The stage holds these files, checked, and no others. -/
structure Staged (loader : Loader) (entries : List ProvenanceFile)
    (contents : String → Option (List UInt8)) : Prop where
  files : ∀ entry ∈ entries, ∃ bytes, contents entry.path = some bytes ∧
    bytes.length = entry.byteLen ∧ loader.hexDigest bytes = entry.sha256
  only : ∀ name, contents name ≠ none → name ∈ entries.map ProvenanceFile.path

theorem Staged.concat {entries : List ProvenanceFile} {bytes : List UInt8}
    (h : Staged loader entries contents) (hnew : entry.path ∉ entries.map ProvenanceFile.path)
    (hlength : bytes.length = entry.byteLen) (hdigest : loader.hexDigest bytes = entry.sha256) :
    Staged loader (entries ++ [entry]) (Function.update contents entry.path (some bytes)) := by
  constructor
  · intro other hother
    rcases List.mem_append.mp hother with hold | hlast
    · have hne : other.path ≠ entry.path := by
        intro heq
        rw [← heq] at hnew
        exact hnew (List.mem_map_of_mem hold)
      rw [Function.update_of_ne hne]
      exact h.files other hold
    · obtain rfl := List.mem_singleton.mp hlast
      exact ⟨bytes, Function.update_self _ _ _, hlength, hdigest⟩
  · intro name hname
    by_cases heq : name = entry.path
    · simp [heq]
    · rw [Function.update_of_ne heq] at hname
      simp [h.only name hname]

/-- No file of a plan is listed twice. -/
theorem Plan.not_listed (plan : Plan loader) {before after : List ProvenanceFile}
    (h : plan.files = before ++ entry :: after) : entry.path ∉ before.map ProvenanceFile.path := by
  have hdistinct := plan.provenance.distinct
  rw [Plan.files] at h
  rw [h, List.map_append, List.map_cons] at hdistinct
  intro hmem
  exact (List.nodup_append.mp hdistinct).2.2 _ hmem _ List.mem_cons_self rfl

/-- The loop that fills the stage. -/
theorem stageFiles_safe (plan : Plan loader) (workingDirectory : Path)
    (h : At root i (fun _ => none) linked world) :
    SafeFor root plans i
      (ends (fun _ world => ∃ contents, Staged loader plan.files contents ∧
          At root i contents linked world)
        fun _ => Unpublished root i)
      (Program.forEach (stageFile loader workingDirectory ⟨root, root ++ [STAGING]⟩) plan.files)
      world := by
  refine Safe.forEach (fun _ => Unpublished root i) (fun entries world => ∃ contents, Staged loader entries contents ∧
      At root i contents linked world) ?_ (fun _ _ hun => hun) (fun _ hall => hall)
    ⟨_, ⟨fun _ hentry => (List.not_mem_nil hentry).elim, fun _ hname => absurd rfl hname⟩, h⟩
  rintro before entry after hfiles world ⟨contents, hstaged, hat⟩
  refine Safe.bind (fetch_safe hat entry) ?_ fun _ _ hun => hun
  rintro source world hat
  refine (copyVerified_safe workingDirectory source hat).imp ?_
  rintro (error | value) world hend
  · exact hend
  · obtain ⟨bytes, hlength, hdigest, hat⟩ := hend
    exact ⟨_, hstaged.concat (plan.not_listed hfiles) hlength hdigest, hat⟩

end Copying

end Riley.Publication
