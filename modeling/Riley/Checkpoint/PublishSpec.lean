import Riley.Checkpoint.PublishPrograms

/-!
Publishing is all or nothing. Of any number of publishers of one destination, whatever fails and
whoever stops, a manifest is only seen in a checkpoint that is complete, nobody changes what others
have created, and one publisher at most succeeds.
-/

namespace Riley.Publication

open FileTree (Path Node Tree Sets Creates SameOutside)
open Interleaving (AllSafe Config Program Reachable Safe Stable Step ends)

section Verifying

variable {ι : Type} {loader : Loader} {root : Path} {plans : ι → Plan loader} {i : ι}
  {world : World ι} {contents linked : String → Option (List UInt8)} {plan : Plan loader}

/-- The manifest of the stage is read as the plan that it was written from. -/
theorem planRead_safe (workingDirectory : Path) (h : At root i contents linked world)
    (hmanifest : contents PROVENANCE_FILENAME = some plan.bytes) :
    SafeFor root plans i
      (ends (fun result world => result = plan ∧ At root i contents linked world)
        fun _ => Unpublished root i)
      (Plan.read loader workingDirectory (root ++ [STAGING] ++ [PROVENANCE_FILENAME])) world := by
  refine Safe.bind (Reading.safe (reading_regularFile _ _) At.stable h) ?_
    fun _ _ hat => hat.toUnpublished
  rintro input world ⟨hpath, hat⟩
  rw [foldl_push_components] at hpath
  split
  · exact hat.toUnpublished
  have hread : SafeFor root plans i
      (ends (fun result world => result = plan.bytes ∧ At root i contents linked world)
        fun _ => Unpublished root i)
      (call (.readToEnd input.path (MAX_PLAN_BYTES + 1))) world := by
    refine Safe.call _ hat At.stable (fun _ _ _ hprogress => hprogress.1.elim) ?_
    rintro world answer world' hat ⟨hcredits, hanswer⟩
    cases answer with
    | ok bytes =>
        obtain ⟨hsame, whole, hwhole, hbytes⟩ := hanswer
        obtain rfl := hcredits.eq hsame
        rw [hpath, hat.entry_staged, hmanifest] at hwhole
        cases hwhole
        rw [List.take_of_length_le (Nat.le_succ_of_le plan.small)] at hbytes
        exact ⟨⟨hcredits, Or.inl rfl⟩, hbytes, hat⟩
    | error error =>
        obtain rfl := hcredits.eq hanswer
        exact ⟨⟨hcredits, Or.inl rfl⟩, hat.toUnpublished⟩
  refine Safe.bind hread ?_ fun _ _ hun => hun
  rintro _ world ⟨rfl, hat⟩
  rw [plan.fromBytes_bytes]
  exact ⟨rfl, hat⟩

/-- The loader accepts what stands in the stage. -/
theorem verify_safe (workingDirectory : Path) (h : At root i contents linked world)
    (hmanifest : contents PROVENANCE_FILENAME = some plan.bytes) :
    SafeFor root plans i
      (ends (fun _ world => loader.load (directoryOf contents) plan.provenance = true ∧
          At root i contents linked world)
        fun _ => Unpublished root i)
      (verify loader workingDirectory (root ++ [STAGING])) world := by
  refine Safe.bind (Reading.safe (reading_checkedDirectory _ _) At.stable h) ?_
    fun _ _ hat => hat.toUnpublished
  rintro _ world ⟨_, hat⟩
  refine Safe.bind (planRead_safe workingDirectory hat hmanifest) ?_ fun _ _ hun => hun
  rintro found world ⟨hfound, hat⟩
  rw [hfound]
  have hfiles : SafeFor root plans i
      (ends (fun _ => At root i contents linked) fun _ => Unpublished root i)
      (Program.forEach (fun entry => do
        let _ ← regularFile workingDirectory (components (root ++ [STAGING] ++ [entry.path]))
        pure ()) plan.files) world := by
    refine Safe.forEach (fun _ => Unpublished root i) (fun _ => At root i contents linked) ?_
      (fun _ _ hun => hun) (fun _ hat => hat) hat
    rintro before entry after _ world hat
    refine Safe.bind (Reading.safe (reading_regularFile _ _) At.stable hat) ?_
      fun _ _ hat => hat.toUnpublished
    rintro _ world ⟨_, hat⟩
    exact hat
  refine Safe.bind hfiles ?_ fun _ _ hun => hun
  rintro _ world hat
  refine Safe.call _ hat At.stable (fun _ _ _ hprogress => hprogress.1.elim) ?_
  rintro world answer world' hat ⟨hcredits, hanswer⟩
  cases answer with
  | ok value =>
      obtain ⟨hsame, hload⟩ := hanswer
      obtain rfl := hcredits.eq hsame
      rw [hat.staged] at hload
      exact ⟨⟨hcredits, Or.inl rfl⟩, hload, hat⟩
  | error error =>
      obtain rfl := hcredits.eq hanswer
      exact ⟨⟨hcredits, Or.inl rfl⟩, hat.toUnpublished⟩

end Verifying

section Committing

variable {ι : Type} {loader : Loader} {root : Path} {plans : ι → Plan loader} {i : ι}
  {world : World ι} {contents : String → Option (List UInt8)}

theorem clearTransport_safe {linked : String → Option (List UInt8)}
    (h : At root i contents linked world) :
    SafeFor root plans i
      (ends (fun _ => At root i contents linked) fun _ => Unpublished root i)
      (clearTransport (root ++ [TRANSPORT])) world := by
  refine Safe.bind (Reading.safe (Reading.call (.pathExists _) trivial) At.stable h) ?_
    fun _ _ hat => hat.toUnpublished
  rintro found world ⟨_, hat⟩
  split
  · exact removeTransport_safe hat
  · exact hat

/-- The files of these entries, out of a stage. -/
def listed (contents : String → Option (List UInt8)) (entries : List ProvenanceFile) :
    String → Option (List UInt8) := fun name =>
  if name ∈ entries.map ProvenanceFile.path then contents name else none

theorem listed_concat (entries : List ProvenanceFile) (entry : ProvenanceFile) :
    Function.update (listed contents entries) entry.path (contents entry.path) =
      listed contents (entries ++ [entry]) := by
  funext name
  by_cases hname : name = entry.path
  · subst hname
    simp [listed]
  · simp [listed, hname]

/-- The loop that links the files of the stage. -/
theorem linkFiles_safe (plan : Plan loader) (h : At root i contents (fun _ => none) world) :
    SafeFor root plans i
      (ends (fun _ => At root i contents (listed contents plan.files)) fun _ => Unpublished root i)
      (Program.forEach (fun entry =>
        call (.hardLink (root ++ [STAGING] ++ [entry.path]) (root ++ [entry.path]))) plan.files)
      world := by
  refine Safe.forEach (fun _ => Unpublished root i)
    (fun entries => At root i contents (listed contents entries)) ?_ (fun _ _ hun => hun)
    (fun _ hat => hat) h
  rintro before entry after hfiles world hat
  have hentry : entry ∈ plan.files := by simp [hfiles]
  obtain ⟨hmanifest, hstage, _⟩ := allowedPayload_ne (plan.allowed hentry)
  rw [← listed_concat]
  exact hardLink_safe hat hstage hmanifest

/-- What is in the stage, checked and accepted, is a checkpoint once its manifest is linked. -/
theorem At.published {world' : World ι} (h : At root i contents
      (listed contents (plans i).files) world)
    (hfiles : ∀ entry ∈ (plans i).files, ∃ bytes, contents entry.path = some bytes ∧
      bytes.length = entry.byteLen ∧ loader.hexDigest bytes = entry.sha256)
    (honly : ∀ name, contents name ≠ none →
      name = PROVENANCE_FILENAME ∨ name ∈ (plans i).files.map ProvenanceFile.path)
    (hmanifest : contents PROVENANCE_FILENAME = some (plans i).bytes)
    (hload : loader.load (directoryOf contents) (plans i).provenance = true)
    (hsets : Sets (root ++ [PROVENANCE_FILENAME]) (some (.file (plans i).bytes)) world.tree
      world'.tree) :
    Published root (plans i) world'.tree := by
  have hlinked : ∀ name, name ∈ (plans i).files.map ProvenanceFile.path →
      world'.tree.entry (root ++ [name]) = (contents name).map .file := by
    intro name hname
    obtain ⟨entry, hentry, rfl⟩ := List.mem_map.mp hname
    obtain ⟨hne, hstage, htransport⟩ := allowedPayload_ne ((plans i).allowed hentry)
    rw [hsets.2 _ (by simpa using hne), h.top _ hstage htransport, listed, if_pos hname]
  have hroot : world'.tree.entry root = some .directory := by
    rw [hsets.2 root (by simp), h.entry_root]
  have hvisible : visible root (plans i) world'.tree = directoryOf contents := by
    funext path
    match path with
    | [] => exact hroot
    | [name] =>
        simp only [visible, directoryOf]
        by_cases hmem : name ∈ (plans i).files.map ProvenanceFile.path
        · rw [if_pos (Or.inr hmem), hlinked name hmem]
        · by_cases hname : name = PROVENANCE_FILENAME
          · subst hname
            rw [if_pos (Or.inl rfl), hsets.1, hmanifest]
            rfl
          · have hnone : contents name = none := by
              by_contra hne
              exact (honly name hne).elim hname hmem
            rw [if_neg (by simp [hname, hmem]), hnone]
            rfl
    | _ :: _ :: _ => rfl
  refine ⟨hsets.1, fun entry hentry => ?_, ?_⟩
  · obtain ⟨bytes, hbytes, hlength, hdigest⟩ := hfiles entry hentry
    refine ⟨bytes, ?_, hlength, hdigest⟩
    rw [hlinked _ (List.mem_map_of_mem hentry), hbytes]
    rfl
  · rw [hvisible]
    exact hload

/-- Up to the link of the manifest: with the manifest, the checkpoint is complete. -/
theorem commit_safe (workingDirectory : Path)
    (h : At root i (fun _ => none) (fun _ => none) world) :
    SafeFor root plans i
      (ends (fun _ world => Owns root i world ∧ Published root (plans i) world.tree)
        fun _ => Unpublished root i)
      (commit (plans i) workingDirectory ⟨root, root ++ [STAGING]⟩) world := by
  refine Safe.bind (stageFiles_safe (plans i) workingDirectory h) ?_ fun _ _ hun => hun
  rintro _ world ⟨contents, hstaged, hat⟩
  refine Safe.bind (createFile_safe hat) ?_ fun _ _ hun => hun
  rintro _ world hat
  refine Safe.bind (writeAll_safe hat (Function.update_self _ _ _)) ?_ fun _ _ hun => hun
  rintro _ world hat
  rw [Function.update_idem, List.nil_append] at hat
  refine Safe.bind (Reading.safe (Reading.call _ trivial) At.stable hat) ?_
    fun _ _ hat => hat.toUnpublished
  rintro _ world ⟨_, hat⟩
  have hmanifest : Function.update contents PROVENANCE_FILENAME (some (plans i).bytes)
      PROVENANCE_FILENAME = some (plans i).bytes := Function.update_self _ _ _
  refine Safe.bind (verify_safe workingDirectory hat hmanifest) ?_ fun _ _ hun => hun
  rintro _ world ⟨hload, hat⟩
  refine Safe.bind (clearTransport_safe hat) ?_ fun _ _ hun => hun
  rintro _ world hat
  refine Safe.bind (linkFiles_safe (plans i) hat) ?_ fun _ _ hun => hun
  rintro _ world hat
  refine Safe.bind (Reading.safe (Reading.call _ trivial) At.stable hat) ?_
    fun _ _ hat => hat.toUnpublished
  rintro _ world ⟨_, hat⟩
  refine Safe.call _ hat At.stable (fun _ _ _ hprogress => hprogress.1.elim) ?_
  rintro world answer world' hat ⟨hcredits, hanswer⟩
  cases answer with
  | error error =>
      obtain rfl := hcredits.eq hanswer
      exact ⟨⟨hcredits, Or.inl rfl⟩, hat.toUnpublished⟩
  | ok value =>
      obtain ⟨bytes, hfound, _, hsets⟩ := hanswer
      rw [hat.entry_staged, hmanifest] at hfound
      cases hfound
      have hne : ∀ entry ∈ (plans i).files, entry.path ≠ PROVENANCE_FILENAME := fun entry hentry =>
        (allowedPayload_ne ((plans i).allowed hentry)).1
      have hpublished : Published root (plans i) world'.tree := by
        refine hat.published (fun entry hentry => ?_) (fun name hname => ?_) hmanifest hload hsets
        · rw [Function.update_of_ne (hne entry hentry)]
          exact hstaged.files entry hentry
        · by_cases heq : name = PROVENANCE_FILENAME
          · exact Or.inl heq
          · rw [Function.update_of_ne heq] at hname
            exact Or.inr (hstaged.only name hname)
      have howns : Owns root i world' := by
        refine hcredits.owns hat.owns ?_
        rw [hsets.2 root (by simp), hat.entry_root]
        exact Option.some_ne_none _
      refine ⟨⟨hcredits, Or.inr (Or.inr ⟨hat.owns, hsets.sameOutside (List.prefix_append _ _),
        fun hbefore => absurd hat.toUnpublished.manifest hbefore, fun _ => hpublished⟩)⟩,
        howns, hpublished⟩

end Committing

section Publishing

variable {ι : Type} {loader : Loader} {root : Path} {plans : ι → Plan loader} {i : ι}
  {world : World ι}

/-- A destination that was just created. -/
structure Fresh (root : Path) (i : ι) (world : World ι) : Prop where
  owns : Owns root i world
  directory : world.tree.entry root = some .directory
  empty : ∀ name rest, world.tree.entry (root ++ name :: rest) = none

theorem Fresh.stable : Stable (rely root i) (Fresh root i) := by
  intro world world' h hrely
  obtain ⟨howns, hsame⟩ := hrely.1 h.owns
  refine ⟨howns, ?_, fun name rest => ?_⟩
  · rw [hsame root (List.prefix_refl root), h.directory]
  · rw [hsame _ (List.prefix_append root _), h.empty]

theorem not_owns_stable : Stable (rely root i) fun world => ¬ Owns root i world :=
  fun _ _ h hrely howns => h (hrely.2 howns)

/-- A destination is created where there is none, and is empty then. -/
theorem createRoot_safe (h : ¬ Owns root i world) :
    SafeFor root plans i (ends (fun _ => Fresh root i) fun _ _ => True)
      (call (.createDirectory root)) world := by
  refine Safe.call _ h not_owns_stable (fun _ _ _ hprogress => hprogress.1.elim) ?_
  rintro world answer world' _ ⟨hcredits, hanswer⟩
  cases answer with
  | ok value =>
      obtain ⟨habsent, hsets⟩ := hanswer
      refine ⟨⟨hcredits, Or.inr (Or.inl ⟨habsent, hsets⟩)⟩, ?_, hsets.1, fun name rest => ?_⟩
      · rw [Owns, hcredits root, hsets.1, if_neg (Option.some_ne_none _), if_pos habsent]
      · rw [hsets.2 _ (by simp), world.tree.entry_below habsent]
  | error error =>
      obtain rfl := hcredits.eq hanswer
      exact ⟨⟨hcredits, Or.inl rfl⟩, trivial⟩

theorem createStage_safe (h : Fresh root i world) :
    SafeFor root plans i
      (ends (fun _ => At root i (fun _ => none) (fun _ => none)) fun _ => Unpublished root i)
      (call (.createDirectory (root ++ [STAGING]))) world := by
  refine Safe.call _ h Fresh.stable (fun _ _ _ hprogress => hprogress.1.elim) ?_
  rintro world answer world' hfresh ⟨hcredits, hanswer⟩
  have hun : Unpublished root i world := ⟨hfresh.owns, hfresh.empty _ _⟩
  cases answer with
  | ok value =>
      have hsets := hanswer.2
      have hroot : world'.tree.entry root = some .directory := by
        rw [hsets.2 root (by simp), hfresh.directory]
      have hat : At root i (fun _ => none) (fun _ => none) world' := by
        refine ⟨hcredits.owns hfresh.owns (by rw [hroot]; exact Option.some_ne_none _), ?_, ?_, rfl⟩
        · funext rest
          match rest with
          | [] =>
              rw [FileTree.Tree.below, List.append_nil, hsets.1]
              rfl
          | name :: rest =>
              have hnone : directoryOf (fun _ => none) (name :: rest) = none := by
                cases rest <;> rfl
              rw [FileTree.Tree.below, hsets.2 _ (by simp), hnone, List.append_assoc]
              exact hfresh.empty STAGING (name :: rest)
        · intro name hstage _
          rw [hsets.2 _ (by simpa using hstage), hfresh.empty]
          rfl
      exact ⟨hun.guarantee hcredits (hsets.sameOutside (List.prefix_append _ _))
        hat.toUnpublished.manifest, hat⟩
  | error error =>
      obtain rfl := hcredits.eq hanswer
      exact ⟨⟨hcredits, Or.inl rfl⟩, hun⟩

theorem reserve_safe {workingDirectory : Path} {destination : List Component}
    (htarget : ∀ name, fileName destination = some name →
      (absolute workingDirectory (parentOf destination)).foldl push [] ++ [name] = root)
    (h : ¬ Owns root i world) :
    SafeFor root plans i
      (ends (fun transaction world => transaction = ⟨root, root ++ [STAGING]⟩ ∧
          At root i (fun _ => none) (fun _ => none) world)
        fun _ _ => True)
      (Transaction.reserve workingDirectory destination) world := by
  unfold Transaction.reserve
  split
  · trivial
  next name hname =>
  split
  · trivial
  refine Safe.bind (Reading.safe (reading_checkedDirectory _ _) not_owns_stable h) ?_
    fun _ _ _ => trivial
  rintro parent world ⟨rfl, hnot⟩
  rw [htarget name hname]
  refine Safe.bind (createRoot_safe hnot) ?_ fun _ _ _ => trivial
  rintro _ world hfresh
  refine Safe.onError ?_ fun _ _ hun => rollBack_safe hun
  refine Safe.bind (createStage_safe hfresh) ?_ fun _ _ hun => hun
  rintro _ world hat
  refine Safe.bind (Reading.safe (Reading.call _ trivial) At.stable hat) ?_
    fun _ _ hat => hat.toUnpublished
  rintro _ world ⟨_, hat⟩
  exact ⟨rfl, hat⟩

/-- Once a checkpoint is published only its stage changes. -/
theorem guarantee_of_published {world world' : World ι}
    (h : Owns root i world ∧ Published root (plans i) world.tree)
    (hcredits : Credits i world world')
    (hsame : SameOutside (root ++ [STAGING]) world.tree world'.tree) :
    guarantee root plans i world world' ∧
      Owns root i world' ∧ Published root (plans i) world'.tree := by
  have hpublished := h.2.of_sameOutside hsame
  have hroot : world'.tree.entry root = some .directory := by
    apply world'.tree.closed root PROVENANCE_FILENAME
    rw [hpublished.manifest]
    exact Option.some_ne_none _
  have howns := hcredits.owns h.1 (by rw [hroot]; exact Option.some_ne_none _)
  exact ⟨⟨hcredits, Or.inr (Or.inr ⟨h.1, hsame.mono (List.prefix_append _ _), fun _ => hsame,
    fun _ => hpublished⟩)⟩, howns, hpublished⟩

theorem removeStage_safe (h : Owns root i world ∧ Published root (plans i) world.tree) :
    SafeFor root plans i
      (ends (fun _ world => Owns root i world ∧ Published root (plans i) world.tree)
        fun _ _ => True)
      (call (.removeDirAll (root ++ [STAGING]))) world := by
  refine Safe.call _ h stable_published ?_ ?_
  · rintro world world' hworld ⟨⟨path, hpath, _, hsets⟩, hcredits⟩
    exact guarantee_of_published hworld hcredits (hsets.sameOutside hpath)
  · rintro world answer world' hworld ⟨hcredits, hanswer⟩
    cases answer with
    | ok value =>
        exact guarantee_of_published hworld hcredits
          (hanswer.2.sameOutside (List.prefix_refl _))
    | error error =>
        obtain rfl := hcredits.eq hanswer
        exact ⟨⟨hcredits, Or.inl rfl⟩, trivial⟩

theorem publishWith_safe {workingDirectory : Path} {destination : List Component}
    (htarget : ∀ name, fileName destination = some name →
      (absolute workingDirectory (parentOf destination)).foldl push [] ++ [name] = root)
    (h : ¬ Owns root i world) :
    SafeFor root plans i (ended root plans i) (publishWith (plans i) workingDirectory destination)
      world := by
  refine Safe.bind (reserve_safe htarget h) ?_ fun _ _ _ => trivial
  rintro transaction world ⟨rfl, hat⟩
  have hcommit : SafeFor root plans i
      (ends (fun _ world => Owns root i world ∧ Published root (plans i) world.tree)
        fun _ _ => True)
      (Program.onError (Transaction.rollBack root)
        (commit (plans i) workingDirectory ⟨root, root ++ [STAGING]⟩)) world :=
    Safe.onError (commit_safe workingDirectory hat) fun _ _ hun => rollBack_safe hun
  refine Safe.bind hcommit ?_ fun _ _ _ => trivial
  rintro _ world hpublished
  refine Safe.bind (Reading.safe (Reading.call _ trivial) stable_published hpublished) ?_
    fun _ _ _ => trivial
  rintro _ world ⟨_, hpublished⟩
  refine Safe.bind (removeStage_safe hpublished) ?_ fun _ _ _ => trivial
  rintro _ world hpublished
  refine (Reading.safe (Reading.call (.syncDirectory _) trivial) stable_published hpublished).imp ?_
  rintro (error | value) world hend
  · trivial
  · exact hend.2

end Publishing

end Riley.Publication
