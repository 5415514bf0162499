import Riley.Checkpoint.PublishSystem
import Riley.Library.Outcome

/-!
What a publisher guarantees of the tree of files. It changes nothing but below a destination that it
created, and there nothing but the stage once the manifest is linked; and it links the manifest of
a checkpoint that is complete. What it holds under its destination stays as it is while the others
make their steps.
-/

namespace Riley.Publication

open FileTree (Path Node Tree Sets Creates SameOutside)
open Interleaving (Safe Stable Compatible ends)
open Outcome (except_bind_eq_ok)

section Plans

variable {loader : Loader}

theorem allowedPayload_ne {name : String} (h : allowedPayload name = true) :
    name ≠ PROVENANCE_FILENAME ∧ name ≠ STAGING ∧ name ≠ TRANSPORT := by
  have hmanifest : allowedPayload PROVENANCE_FILENAME = false := by decide
  have hstage : allowedPayload STAGING = false := by decide
  have htransport : allowedPayload TRANSPORT = false := by decide
  refine ⟨?_, ?_, ?_⟩
  · rintro rfl
    exact Bool.false_ne_true (hmanifest.symm.trans h)
  · rintro rfl
    exact Bool.false_ne_true (hstage.symm.trans h)
  · rintro rfl
    exact Bool.false_ne_true (htransport.symm.trans h)

theorem checkFiles_eq_ok {files : List ProvenanceFile} (h : checkFiles files = .ok ())
    {entry : ProvenanceFile} (hentry : entry ∈ files) : checkFile entry = .ok () := by
  induction files with
  | nil => cases hentry
  | cons first rest ih =>
      obtain ⟨_, hfirst, hrest⟩ := except_bind_eq_ok.mp h
      rcases List.mem_cons.mp hentry with rfl | hmem
      · exact hfirst
      · exact ih hrest hmem

theorem Plan.allowed (plan : Plan loader) {entry : ProvenanceFile} (h : entry ∈ plan.files) :
    allowedPayload entry.path = true := by
  have hchecked := plan.checked
  have hfiles : checkFiles plan.files = .ok () := by
    unfold checkProvenance at hchecked
    dsimp only at hchecked
    split at hchecked
    · cases hchecked
    split at hchecked
    · cases hchecked
    obtain ⟨_, hfiles, _⟩ := except_bind_eq_ok.mp hchecked
    exact hfiles
  have hentry := checkFiles_eq_ok hfiles h
  unfold checkFile at hentry
  split at hentry
  · cases hentry
  · next hallowed => simpa using hallowed

/-- A plan is what is read of its own bytes. -/
theorem Plan.fromBytes_bytes (plan : Plan loader) : Plan.fromBytes loader plan.bytes = .ok plan := by
  obtain ⟨bytes, provenance, hsmall, hparsed, hchecked⟩ := plan
  unfold Plan.fromBytes
  rw [dif_pos hsmall]
  split
  · next hnone => cases hnone.symm.trans hparsed
  · next found hfound =>
      obtain rfl := Option.some.inj (hfound.symm.trans hparsed)
      split
      · next error herror => cases herror.symm.trans hchecked
      · rfl

end Plans

section Worlds

variable {ι : Type} {i j : ι} {root : Path} {world world' : World ι}

/-- The destination was created by this publisher. -/
def Owns (root : Path) (i : ι) (world : World ι) : Prop := world.creator root = some i

theorem Credits.refl (i : ι) (world : World ι) : Credits i world world := by
  intro path
  by_cases hentry : world.tree.entry path = none
  · rw [if_pos hentry]
    by_contra hcreator
    exact world.present path hcreator hentry
  · rw [if_neg hentry, if_neg hentry]

/-- Where the tree stays, everything does. -/
theorem Credits.eq (h : Credits i world world') (htree : world'.tree = world.tree) :
    world' = world := by
  have hcreator : world'.creator = world.creator := by
    funext path
    rw [h path, htree]
    exact (Credits.refl i world path).symm
  obtain ⟨tree, creator, hpresent⟩ := world
  obtain ⟨tree', creator', hpresent'⟩ := world'
  cases htree
  cases hcreator
  rfl

theorem Credits.owns (h : Credits i world world') (howns : Owns root i world)
    (hentry : world'.tree.entry root ≠ none) : Owns root i world' := by
  have hpresent : world.tree.entry root ≠ none :=
    world.present root (by rw [howns]; exact Option.some_ne_none i)
  rw [Owns, h root, if_neg hentry, if_neg hpresent]
  exact howns

/-- What the others leave to a publisher: its destination, as it is. -/
def rely (root : Path) (i : ι) (world world' : World ι) : Prop :=
  (Owns root i world → Owns root i world' ∧
    ∀ path, root <+: path → world'.tree.entry path = world.tree.entry path) ∧
  (Owns root i world' → Owns root i world)

end Worlds

section Checkpoints

variable {loader : Loader} {root : Path} {plan : Plan loader} {tree tree' : Tree}

/-- A directory with these files. -/
def directoryOf (contents : String → Option (List UInt8)) : Path → Option Node
  | [] => some .directory
  | [name] => (contents name).map .file
  | _ => none

/-- The files of a checkpoint that a plan lists, and its manifest. -/
def visible (root : Path) (plan : Plan loader) (tree : Tree) : Path → Option Node
  | [] => tree.entry root
  | [name] =>
      if name = PROVENANCE_FILENAME ∨ name ∈ plan.files.map ProvenanceFile.path then
        tree.entry (root ++ [name])
      else none
  | _ => none

/-- A checkpoint that is complete: it has the manifest of a plan and every file with the length and
the digest that the plan says, and the loader has accepted exactly these. -/
structure Published (root : Path) (plan : Plan loader) (tree : Tree) : Prop where
  manifest : tree.entry (root ++ [PROVENANCE_FILENAME]) = some (.file plan.bytes)
  files : ∀ entry ∈ plan.files, ∃ bytes, tree.entry (root ++ [entry.path]) = some (.file bytes) ∧
    bytes.length = entry.byteLen ∧ loader.hexDigest bytes = entry.sha256
  accepted : loader.load (visible root plan tree) plan.provenance = true

theorem Published.congr (h : Published root plan tree)
    (hroot : tree'.entry root = tree.entry root)
    (htop : ∀ name, name ≠ STAGING → tree'.entry (root ++ [name]) = tree.entry (root ++ [name])) :
    Published root plan tree' := by
  have hlisted : ∀ name, name = PROVENANCE_FILENAME ∨ name ∈ plan.files.map ProvenanceFile.path →
      tree'.entry (root ++ [name]) = tree.entry (root ++ [name]) := by
    intro name hname
    apply htop
    rcases hname with rfl | hmem
    · decide
    · obtain ⟨entry, hentry, rfl⟩ := List.mem_map.mp hmem
      exact (allowedPayload_ne (plan.allowed hentry)).2.1
  have hvisible : visible root plan tree' = visible root plan tree := by
    funext path
    match path with
    | [] => exact hroot
    | [name] =>
        simp only [visible]
        split
        · next hname => exact hlisted name hname
        · rfl
    | _ :: _ :: _ => rfl
  refine ⟨?_, fun entry hentry => ?_, ?_⟩
  · rw [hlisted _ (Or.inl rfl)]
    exact h.manifest
  · rw [hlisted _ (Or.inr (List.mem_map_of_mem hentry))]
    exact h.files entry hentry
  · rw [hvisible]
    exact h.accepted

theorem Published.of_sameOutside (h : Published root plan tree)
    (hsame : SameOutside (root ++ [STAGING]) tree tree') : Published root plan tree' := by
  refine h.congr (hsame root ?_) fun name hname => hsame _ ?_
  · intro hunder
    have hlength := hunder.length_le
    simp only [List.length_append, List.length_singleton] at hlength
    omega
  · rw [List.prefix_append_right_inj]
    simpa using Ne.symm hname

end Checkpoints

section Guarantees

variable {ι : Type} {loader : Loader} (root : Path) (plans : ι → Plan loader) (i : ι)

/-- A change below a destination that the publisher created. -/
structure Holds (world world' : World ι) : Prop where
  owns : Owns root i world
  outside : SameOutside root world.tree world'.tree
  keeps : world.tree.entry (root ++ [PROVENANCE_FILENAME]) ≠ none →
    SameOutside (root ++ [STAGING]) world.tree world'.tree
  publishes : world'.tree.entry (root ++ [PROVENANCE_FILENAME]) ≠ none →
    Published root (plans i) world'.tree

/-- A publisher changes nothing, creates the destination, or changes one that it created. -/
def guarantee (world world' : World ι) : Prop :=
  Credits i world world' ∧
    (world' = world ∨ Creates root .directory world.tree world'.tree ∨
      Holds root plans i world world')

/-- What holds where a publisher ends. -/
def ended : Except Error Unit → World ι → Prop :=
  ends (fun _ world => Owns root i world ∧ Published root (plans i) world.tree) fun _ _ => True

variable {root plans i} {j : ι} {world world' : World ι}

theorem rely_of_guarantee (hne : i ≠ j) (h : guarantee root plans i world world') :
    rely root j world world' := by
  obtain ⟨hcredits, rfl | ⟨habsent, hcreates⟩ | hholds⟩ := h
  · exact ⟨fun howns => ⟨howns, fun _ _ => rfl⟩, id⟩
  · have hnot : ¬ Owns root j world := fun howns =>
      world.present root (by rw [howns]; exact Option.some_ne_none j) habsent
    refine ⟨fun howns => absurd howns hnot, fun howns => ?_⟩
    rw [Owns, hcredits root, hcreates.1, if_neg (Option.some_ne_none _), if_pos habsent] at howns
    exact absurd (Option.some.inj howns) hne
  · have hnot : ¬ Owns root j world := fun howns =>
      hne (Option.some.inj (hholds.owns.symm.trans howns))
    refine ⟨fun howns => absurd howns hnot, fun howns => ?_⟩
    have hpresent : world'.tree.entry root ≠ none :=
      world'.present root (by rw [howns]; exact Option.some_ne_none j)
    have hmine := hcredits.owns hholds.owns hpresent
    exact absurd (Option.some.inj (hmine.symm.trans howns)) hne

theorem stable_published :
    Stable (rely root i) fun world => Owns root i world ∧ Published root (plans i) world.tree := by
  rintro world world' ⟨howns, hpublished⟩ hrely
  obtain ⟨howns', hsame⟩ := hrely.1 howns
  refine ⟨howns', hpublished.congr (hsame root (List.prefix_refl root)) fun name _ => ?_⟩
  exact hsame _ (List.prefix_append root [name])

variable (root plans) in
/-- Publishers of one destination leave each other what they rely on. -/
theorem compatible : Compatible (rely root) (guarantee root plans) (ended root plans) := by
  refine ⟨fun i j hne world world' => rely_of_guarantee hne,
    fun i world => ⟨Credits.refl i world, Or.inl rfl⟩, fun i result => ?_⟩
  cases result with
  | ok value => exact stable_published
  | error error => exact fun _ _ _ _ => trivial

end Guarantees

end Riley.Publication
