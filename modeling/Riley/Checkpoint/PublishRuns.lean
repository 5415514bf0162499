import Riley.Checkpoint.PublishExecution
import Riley.Checkpoint.PublishSpec

/-!
Publishing is all or nothing. Of any number of publishers of one destination, whatever fails and
whoever stops, a manifest is only seen in a checkpoint that is complete, nobody changes what others
have created, and one publisher at most succeeds.
-/

namespace Riley.Publication

open FileTree (Path Node Tree Sets Creates SameOutside)
open Interleaving (AllSafe Config Program Reachable Step)

section Credits

variable {ι : Type} {i : ι} {root path : Path} {world world' : World ι}

theorem Credits.gone (h : Credits i world world') (hgone : world'.tree.entry path = none) :
    world'.creator path = none := by
  rw [h path, if_pos hgone]

theorem Credits.new (h : Credits i world world') (hnew : world'.tree.entry path ≠ none)
    (hold : world.tree.entry path = none) : world'.creator path = some i := by
  rw [h path, if_neg hnew, if_pos hold]

theorem Credits.stays (h : Credits i world world') (hnew : world'.tree.entry path ≠ none)
    (hold : world.tree.entry path ≠ none) : world'.creator path = world.creator path := by
  rw [h path, if_neg hnew, if_neg hold]

theorem World.entry_of_creator {j : ι} (h : world.creator path = some j) :
    world.tree.entry path ≠ none :=
  world.present path (by rw [h]; exact Option.some_ne_none j)

end Credits

section Invariant

variable {ι : Type} {loader : Loader} {root path : Path} {plans : ι → Plan loader} {i : ι}
  {before : Tree} {world world' : World ι}

/-- What holds of the tree in every state. All that publishers have created is below a destination
of one of them, and all below it is its own; what no publisher has created is what was there
before; and a destination of a publisher that has a manifest is a complete checkpoint. -/
structure Sound (root : Path) (plans : ι → Plan loader) (before : Tree) (world : World ι) :
    Prop where
  below : ∀ path i, world.creator path = some i → root <+: path ∧ Owns root i world
  owned : ∀ path i, Owns root i world → root <+: path → world.tree.entry path ≠ none →
    world.creator path = some i
  published : ∀ i, Owns root i world →
    world.tree.entry (root ++ [PROVENANCE_FILENAME]) ≠ none → Published root (plans i) world.tree
  kept : ∀ path, world.creator path = none → world.tree.entry path = before.entry path
  old : ∀ path, before.entry path ≠ none → world.creator path = none

/-- What stands below a path has the path above it. -/
theorem root_entry {tree : Tree} (hunder : root <+: path) (h : tree.entry path ≠ none) :
    tree.entry root ≠ none := by
  obtain ⟨rest, rfl⟩ := hunder
  intro habsent
  exact h (tree.entry_below habsent rest)

theorem Sound.creates (h : Sound root plans before world) (hcredits : Credits i world world')
    (habsent : world.tree.entry root = none)
    (hsets : Sets root (some .directory) world.tree world'.tree) :
    Sound root plans before world' := by
  -- Nothing was created before by anybody.
  have hnobody : ∀ path, world.creator path = none := by
    intro path
    by_contra hne
    obtain ⟨j, hj⟩ := Option.ne_none_iff_exists'.mp hne
    exact World.entry_of_creator (h.below path j hj).2 habsent
  have hroot : world'.creator root = some i :=
    hcredits.new (by rw [hsets.1]; exact Option.some_ne_none _) habsent
  have hother : ∀ path, path ≠ root → world'.creator path = none := by
    intro path hne
    have hsame := hsets.2 path hne
    by_cases hentry : world.tree.entry path = none
    · exact hcredits.gone (hsame.trans hentry)
    · rw [hcredits.stays (by rw [hsame]; exact hentry) hentry, hnobody]
  have hinside : ∀ path, root <+: path → world'.tree.entry path ≠ none → path = root := by
    intro path hunder hentry
    by_contra hne
    rw [hsets.2 path hne] at hentry
    exact root_entry hunder hentry habsent
  refine ⟨?_, ?_, ?_, ?_, ?_⟩
  · intro path j hj
    by_cases hne : path = root
    · subst hne
      exact ⟨List.prefix_refl _, hj⟩
    · cases (hother path hne).symm.trans hj
  · intro path j howns hunder hentry
    rw [hinside path hunder hentry]
    exact howns
  · intro j _ hmanifest
    have heq := hinside _ (List.prefix_append root _) hmanifest
    simp at heq
  · intro path hnone
    have hne : path ≠ root := by
      rintro rfl
      cases hroot.symm.trans hnone
    rw [hsets.2 path hne, h.kept path (hnobody path)]
  · intro path hbefore
    apply hother
    rintro rfl
    rw [← h.kept _ (hnobody _)] at hbefore
    exact hbefore habsent

theorem Sound.holds (h : Sound root plans before world) (hcredits : Credits i world world')
    (hholds : Holds root plans i world world') : Sound root plans before world' := by
  have howns := hholds.owns
  have hroot := World.entry_of_creator howns
  -- What was there before is not below the destination.
  have hbefore : ∀ path, before.entry path ≠ none →
      ¬ root <+: path ∧ world.tree.entry path ≠ none := by
    intro path hpath
    have hnone := h.old path hpath
    have hentry : world.tree.entry path ≠ none := by
      rw [h.kept path hnone]
      exact hpath
    refine ⟨fun hunder => ?_, hentry⟩
    cases hnone.symm.trans (h.owned path i howns hunder hentry)
  have hmine : ∀ j, Owns root j world' → j = i := by
    intro j hj
    have hstays := hcredits.stays (World.entry_of_creator hj) hroot
    exact Option.some.inj (hj.symm.trans (hstays.trans howns))
  refine ⟨?_, ?_, ?_, ?_, ?_⟩
  · intro path j hj
    have hentry' := World.entry_of_creator hj
    have hunder : root <+: path ∧ j = i := by
      by_cases hentry : world.tree.entry path = none
      · refine ⟨?_, Option.some.inj (hj.symm.trans (hcredits.new hentry' hentry))⟩
        by_contra hunder
        rw [hholds.outside path hunder] at hentry'
        exact hentry' hentry
      · rw [hcredits.stays hentry' hentry] at hj
        obtain ⟨hunder, hj⟩ := h.below path j hj
        exact ⟨hunder, Option.some.inj (hj.symm.trans howns)⟩
    obtain ⟨hunder, rfl⟩ := hunder
    exact ⟨hunder, hcredits.owns howns (root_entry hunder hentry')⟩
  · intro path j hj hunder hentry'
    rw [hmine j hj]
    by_cases hentry : world.tree.entry path = none
    · exact hcredits.new hentry' hentry
    · rw [hcredits.stays hentry' hentry]
      exact h.owned path i howns hunder hentry
  · intro j hj hmanifest
    rw [hmine j hj]
    exact hholds.publishes hmanifest
  · intro path hnone
    by_cases hunder : root <+: path
    · have hgone : world'.tree.entry path = none := by
        by_contra hentry'
        by_cases hentry : world.tree.entry path = none
        · cases hnone.symm.trans (hcredits.new hentry' hentry)
        · rw [hcredits.stays hentry' hentry, h.owned path i howns hunder hentry] at hnone
          cases hnone
      by_contra hne
      rw [hgone] at hne
      exact (hbefore path (Ne.symm hne)).1 hunder
    · have hcreator : world.creator path = none := by
        by_contra hne
        obtain ⟨j, hj⟩ := Option.ne_none_iff_exists'.mp hne
        exact hunder (h.below path j hj).1
      rw [hholds.outside path hunder, h.kept path hcreator]
  · intro path hpath
    obtain ⟨hunder, hentry⟩ := hbefore path hpath
    have hsame := hholds.outside path hunder
    rw [hcredits.stays (by rw [hsame]; exact hentry) hentry]
    exact h.old path hpath

theorem Sound.step (h : Sound root plans before world)
    (hguarantee : guarantee root plans i world world') : Sound root plans before world' := by
  obtain ⟨hcredits, rfl | ⟨habsent, hsets⟩ | hholds⟩ := hguarantee
  · exact h
  · exact h.creates hcredits habsent hsets
  · exact h.holds hcredits hholds

theorem sound_start (root : Path) (plans : ι → Plan loader) (before : Tree) :
    Sound root plans before ⟨before, fun _ => none, fun _ h => absurd rfl h⟩ := by
  refine ⟨?_, ?_, ?_, fun _ _ => rfl, fun _ _ => rfl⟩
  · intro path i hcreator
    cases hcreator
  · intro path i howns
    cases howns
  · intro i howns
    cases howns

end Invariant

section Runs

variable {ι : Type} {loader : Loader} {root : Path} {requests : ι → Request loader} {before : Tree}
  {config config' : Config ι Op Answer Error Unit (World ι)} {i : ι}

/-- The plans of the publishers. -/
def plansOf (requests : ι → Request loader) (i : ι) : Plan loader := (requests i).plan

theorem allSafe_start (htarget : ∀ i target, (requests i).target = some target → target = root) :
    AllSafe (semantics loader) (rely root) (guarantee root (plansOf requests))
      (ended root (plansOf requests)) (start requests before) := by
  rintro i program hprogram
  obtain rfl := Option.some.inj hprogram
  refine publishWith_safe (fun name hname => htarget i _ ?_) fun howns => nomatch howns
  rw [Request.target, hname]
  rfl

theorem sound_of_reachable
    (htarget : ∀ i target, (requests i).target = some target → target = root)
    (hreachable : Reachable (semantics loader) (start requests before) config) :
    Sound root (plansOf requests) before config.state :=
  (allSafe_start htarget).invariant (compatible root (plansOf requests))
    (sound_start root (plansOf requests) before) (fun _ _ _ hguarantee h => h.step hguarantee)
    hreachable

theorem guarantee_of_step (htarget : ∀ i target, (requests i).target = some target → target = root)
    (hreachable : Reachable (semantics loader) (start requests before) config)
    (hstep : Step (semantics loader) i config config') :
    guarantee root (plansOf requests) i config.state config'.state :=
  (((allSafe_start htarget).reachable (compatible root (plansOf requests)) hreachable).step
    (compatible root (plansOf requests)) hstep).1

/-- A step changes what stands somewhere only below a destination of the one who makes it. -/
theorem Sound.of_changed {plans : ι → Plan loader} {world world' : World ι}
    (h : Sound root plans before world) (hguarantee : guarantee root plans i world world')
    {path : Path} (hentry : world.tree.entry path ≠ none)
    (hchanged : world'.tree.entry path ≠ world.tree.entry path) :
    world.creator path = some i ∧ root <+: path ∧ Owns root i world := by
  obtain ⟨hcredits, rfl | ⟨habsent, hsets⟩ | hholds⟩ := hguarantee
  · exact absurd rfl hchanged
  · have hne : path ≠ root := by
      rintro rfl
      exact hentry habsent
    exact absurd (hsets.2 path hne) hchanged
  · have hunder : root <+: path := by
      by_contra hunder
      exact hchanged (hholds.outside path hunder)
    exact ⟨h.owned path i hholds.owns hunder hentry, hunder, hholds.owns⟩

/-- Once a publisher has linked its manifest, its steps change nothing but its stage. -/
theorem Sound.of_linked {plans : ι → Plan loader} {world world' : World ι}
    (h : Sound root plans before world) (hguarantee : guarantee root plans i world world')
    (hlinked : world.creator (root ++ [PROVENANCE_FILENAME]) = some i) {path : Path}
    (hpath : ¬ root ++ [STAGING] <+: path) :
    world'.tree.entry path = world.tree.entry path := by
  have hmanifest := World.entry_of_creator hlinked
  obtain ⟨hcredits, rfl | ⟨habsent, hsets⟩ | hholds⟩ := hguarantee
  · rfl
  · exact absurd habsent (root_entry (List.prefix_append root _) hmanifest)
  · exact hholds.keeps hmanifest path hpath

/-- Who has succeeded has published. -/
theorem published_of_done (htarget : ∀ i target, (requests i).target = some target → target = root)
    (hreachable : Reachable (semantics loader) (start requests before) config)
    (hdone : config.programs i = some (.done (.ok ()))) :
    Owns root i config.state ∧ Published root (requests i).plan config.state.tree :=
  (allSafe_start htarget).reachable (compatible root (plansOf requests)) hreachable i _ hdone

/-- In every state of every run of any publishers of one destination: a manifest that is there was
there before, with all of its directory, or was linked by a publisher, and then the checkpoint is
complete and accepted; what was there before is there; no step changes what another has created,
and after the link of its manifest a publisher changes nothing but its stage; and one publisher at
most succeeds, having published. -/
theorem publishWith_allOrNothing (root : Path) (requests : ι → Request loader)
    (htarget : ∀ i target, (requests i).target = some target → target = root) (before : Tree)
    (config : Config ι Op Answer Error Unit (World ι))
    (hreachable : Reachable (semantics loader) (start requests before) config) :
    (config.state.tree.entry (root ++ [PROVENANCE_FILENAME]) ≠ none →
      (∀ path, root <+: path → config.state.tree.entry path = before.entry path) ∨
        ∃ i, config.state.creator (root ++ [PROVENANCE_FILENAME]) = some i ∧
          Published root (requests i).plan config.state.tree) ∧
    (∀ path, before.entry path ≠ none →
      config.state.tree.entry path = before.entry path ∧ config.state.creator path = none) ∧
    (∀ i config', Step (semantics loader) i config config' →
      (∀ path, config.state.tree.entry path ≠ none →
        config'.state.tree.entry path ≠ config.state.tree.entry path →
        config.state.creator path = some i ∧ root <+: path ∧ Owns root i config.state) ∧
      (config.state.creator (root ++ [PROVENANCE_FILENAME]) = some i →
        ∀ path, ¬ root ++ [STAGING] <+: path →
          config'.state.tree.entry path = config.state.tree.entry path)) ∧
    (∀ i, config.programs i = some (.done (.ok ())) →
      config.state.creator (root ++ [PROVENANCE_FILENAME]) = some i ∧
        Published root (requests i).plan config.state.tree) ∧
    ∀ i j, config.programs i = some (.done (.ok ())) →
      config.programs j = some (.done (.ok ())) → i = j := by
  have hsound := sound_of_reachable htarget hreachable
  refine ⟨fun hmanifest => ?_, fun path hpath => ?_, fun i config' hstep => ?_, fun i hdone => ?_,
    fun i j hi hj => ?_⟩
  · cases hcreator : config.state.creator root with
    | none =>
        refine Or.inl fun path hunder => hsound.kept path ?_
        by_contra hne
        obtain ⟨i, hi⟩ := Option.ne_none_iff_exists'.mp hne
        cases hcreator.symm.trans (hsound.below path i hi).2
    | some i =>
        exact Or.inr ⟨i, hsound.owned _ i hcreator (List.prefix_append root _) hmanifest,
          hsound.published i hcreator hmanifest⟩
  · exact ⟨hsound.kept path (hsound.old path hpath), hsound.old path hpath⟩
  · have hguarantee := guarantee_of_step htarget hreachable hstep
    exact ⟨fun path => hsound.of_changed hguarantee, fun hlinked path =>
      hsound.of_linked hguarantee hlinked⟩
  · obtain ⟨howns, hpublished⟩ := published_of_done htarget hreachable hdone
    have hmanifest : config.state.tree.entry (root ++ [PROVENANCE_FILENAME]) ≠ none := by
      rw [hpublished.manifest]
      exact Option.some_ne_none _
    exact ⟨hsound.owned _ i howns (List.prefix_append root _) hmanifest, hpublished⟩
  · have hfirst := (published_of_done htarget hreachable hi).1
    have hsecond := (published_of_done htarget hreachable hj).1
    exact Option.some.inj (hfirst.symm.trans hsecond)

end Runs

section Sample

/-- A small plan, and a loader that knows no other. -/
def sampleProvenance : Provenance where
  sourceModel := "fixture/tiny-llama"
  sourceRevision := "1111111111111111111111111111111111111111"
  files := [⟨"config.json", 2, "0"⟩, ⟨"model.safetensors", 2, "0"⟩, ⟨"tokenizer.json", 2, "0"⟩]
  distinct := by decide

def sampleLoader : Loader where
  parse _ := some sampleProvenance
  hexDigest bytes := if bytes = [1, 2] then "0" else "1"
  load tree _ := tree ["model.safetensors"] = some (.file [1, 2])

def samplePlan : Plan sampleLoader := ⟨[], sampleProvenance, by decide, rfl, by decide⟩

def sampleRequest : Request sampleLoader := ⟨samplePlan, [], [.rootDir, .normal "ready"]⟩

/-- One file, which is the source of all files of the plan. -/
def sampleDisk : Disk := ⟨[([], .directory), (["source"], .file [1, 2])], by decide⟩

def publishedNodes : Nodes :=
  [(["ready", "riley-checkpoint.json"], .file []), (["ready", "tokenizer.json"], .file [1, 2]),
    (["ready", "model.safetensors"], .file [1, 2]), (["ready", "config.json"], .file [1, 2]),
    (["ready"], .directory), ([], .directory), (["source"], .file [1, 2])]

/-- The first of two publishers has finished, and the second cannot change what stands there. -/
theorem publishWith_allOrNothing_ready :
    ∃ config, Reachable (semantics sampleLoader)
        (start (fun _ : Bool => sampleRequest) sampleDisk.tree) config ∧
      config.programs false = some (.done (.ok ())) ∧
      config.state.tree.entry = nodeAt publishedNodes ∧
      config.state.creator ["ready", PROVENANCE_FILENAME] = some false ∧
      Published ["ready"] samplePlan config.state.tree ∧
      config.programs true ≠ some (.done (.ok ())) ∧
      ∀ config', Step (semantics sampleLoader) true config config' → ∀ path,
        config.state.tree.entry path ≠ none →
          config'.state.tree.entry path = config.state.tree.entry path := by
  have hrun : (execute sampleLoader (fun _ => [.rootDir, .normal "source"])
      (publishWith samplePlan [] [.rootDir, .normal "ready"]) 0 sampleDisk).map
        (fun execution => execution.2.nodes) = some publishedNodes := by
    decide +kernel
  obtain ⟨⟨⟨⟩, disk⟩, hexecute, hnodes⟩ := Option.map_eq_some_iff.mp hrun
  obtain ⟨config, hreachable, hdisk, hdone⟩ :=
    reachable_execute (.start : Reachable (semantics sampleLoader)
      (start (fun _ : Bool => sampleRequest) sampleDisk.tree) _) rfl rfl hexecute
  have htarget : ∀ (i : Bool) target, sampleRequest.target = some target → target = ["ready"] := by
    intro _ target h
    exact (Option.some.inj h).symm
  obtain ⟨_, _, hkeeps, hpublished, hone⟩ := publishWith_allOrNothing ["ready"]
    (fun _ : Bool => sampleRequest) htarget sampleDisk.tree config hreachable
  obtain ⟨hlinked, hcomplete⟩ := hpublished false hdone
  refine ⟨config, hreachable, hdone, ?_, hlinked, hcomplete, fun hsecond => ?_, ?_⟩
  · rw [hdisk, ← hnodes]
    rfl
  · exact absurd (hone false true hdone hsecond) (by decide)
  · intro config' hstep path hentry
    by_contra hchanged
    obtain ⟨_, _, hsecond⟩ := (hkeeps true config' hstep).1 path hentry hchanged
    have hfirst := (published_of_done htarget hreachable hdone).1
    exact absurd (Option.some.inj (hfirst.symm.trans hsecond)) (by decide)

end Sample

end Riley.Publication
