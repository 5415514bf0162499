import Mathlib.Data.List.GetD
import Mathlib.Data.List.Induction
import Mathlib.Data.List.Nodup
import Mathlib.Logic.Function.Basic
import Riley.Library.Cutting
import Riley.Tokenizer.AddedTrie

/-!
What the trie of the added tokens finds: every node spells the bytes on its way
from the root, a token ends exactly at the node of its content, and the search of
a text stops at the first place where a content begins, with the longest one.
-/

namespace Riley.Tokenizer

open Utf8 (Text)

namespace AddedTrie

/-- The bytes on the way to every node, for the contents with an id in `index`. -/
structure Spells (trie : AddedTrie) (paths : List Bytes) (index : Text → Option Nat) : Prop where
  length_eq : paths.length = trie.nodes.length
  root : paths[0]? = some []
  nodup : paths.Nodup
  closed : ∀ spelled byte, spelled ++ [byte] ∈ paths → spelled ∈ paths
  edges : ∀ node spelled byte child, paths[node]? = some spelled →
    (trie.child node byte = some child ↔ paths[child]? = some (spelled ++ [byte]))
  ends : ∀ node spelled id, paths[node]? = some spelled →
    (trie.terminal node = some id ↔
      ∃ content, spelled = Utf8.encode content ∧ index content = some id)
  held : ∀ content, (index content).isSome → Utf8.encode content ∈ paths

theorem spells_root : Spells ⟨[emptyNode]⟩ [[]] fun _ => none where
  length_eq := rfl
  root := rfl
  nodup := List.nodup_singleton []
  closed := by
    intro spelled byte h
    exact absurd (List.mem_singleton.mp h) (List.append_ne_nil_of_right_ne_nil spelled (List.cons_ne_nil byte []))
  edges := by
    intro node spelled byte child hnode
    have hnone : (⟨[emptyNode]⟩ : AddedTrie).child node byte = none := by
      cases node <;> rfl
    constructor
    · intro h
      rw [hnone] at h
      cases h
    · intro h
      have hmem := List.mem_singleton.mp (List.mem_of_getElem? h)
      exact absurd hmem (List.append_ne_nil_of_right_ne_nil spelled (List.cons_ne_nil byte []))
  ends := by
    intro node spelled id hnode
    have hnone : (⟨[emptyNode]⟩ : AddedTrie).terminal node = none := by
      cases node <;> rfl
    constructor
    · intro h
      rw [hnone] at h
      cases h
    · rintro ⟨content, _, h⟩
      cases h
  held := by
    intro content h
    cases h

variable {trie : AddedTrie} {paths : List Bytes} {index : Text → Option Nat}

section Descend

variable {node : Nat} {byte : UInt8}

theorem child_addChild (hnode : node < trie.nodes.length) (other : Nat) (byte' : UInt8) :
    (trie.addChild node byte).child other byte' =
      if other = node ∧ byte' = byte then some trie.nodes.length else trie.child other byte' := by
  unfold child addChild
  rw [List.getD_eq_getElem?_getD, List.getD_eq_getElem?_getD, List.getElem?_modify]
  rcases Nat.lt_trichotomy other trie.nodes.length with hlt | heq | hgt
  · rw [List.getElem?_append_left hlt, List.getElem?_eq_getElem hlt]
    by_cases hother : node = other
    · subst hother
      by_cases hbyte : byte' = byte
      · simp [hbyte]
      · simp [List.lookup_cons, beq_false_of_ne hbyte, hbyte]
    · simp [hother, Ne.symm hother]
  · subst heq
    have hne : node ≠ trie.nodes.length := Nat.ne_of_lt hnode
    simp [hne, hne.symm]
  · have hne : node ≠ other := Nat.ne_of_lt (Nat.lt_trans hnode hgt)
    rw [List.getElem?_eq_none (by rw [List.length_append]; exact hgt),
      List.getElem?_eq_none (Nat.le_of_lt hgt)]
    simp [hne.symm]

theorem terminal_addChild (other : Nat) :
    (trie.addChild node byte).terminal other = trie.terminal other := by
  unfold terminal addChild
  rw [List.getD_eq_getElem?_getD, List.getD_eq_getElem?_getD, List.getElem?_modify]
  rcases Nat.lt_trichotomy other trie.nodes.length with hlt | heq | hgt
  · rw [List.getElem?_append_left hlt, List.getElem?_eq_getElem hlt]
    by_cases hother : node = other <;> simp [hother]
  · subst heq
    by_cases hother : node = trie.nodes.length <;> simp [hother, emptyNode]
  · rw [List.getElem?_eq_none (by rw [List.length_append]; exact hgt),
      List.getElem?_eq_none (Nat.le_of_lt hgt)]
    rfl

theorem Spells.node_lt (h : Spells trie paths index) {spelled : Bytes}
    (hnode : paths[node]? = some spelled) : node < trie.nodes.length := by
  rw [← h.length_eq]
  exact (List.getElem?_eq_some_iff.mp hnode).choose

theorem Spells.ne_nil (h : Spells trie paths index) : trie.nodes ≠ [] := by
  intro hnil
  have hlt := h.node_lt h.root
  rw [hnil] at hlt
  exact absurd hlt (Nat.not_lt_zero 0)

theorem Spells.node_unique (h : Spells trie paths index) {other : Nat} {spelled : Bytes}
    (hnode : paths[node]? = some spelled) (hother : paths[other]? = some spelled) :
    node = other := by
  have hlt := (List.getElem?_eq_some_iff.mp hnode).choose
  exact (List.getElem?_inj hlt h.nodup).mp (hnode.trans hother.symm)

/-- One more node keeps what the trie spells. -/
theorem Spells.addChild (h : Spells trie paths index) {spelled : Bytes}
    (hnode : paths[node]? = some spelled) (hfree : trie.child node byte = none) :
    Spells (trie.addChild node byte) (paths ++ [spelled ++ [byte]]) index := by
  have hnew : spelled ++ [byte] ∉ paths := by
    intro hmem
    obtain ⟨child, hchild⟩ := List.mem_iff_getElem?.mp hmem
    rw [(h.edges node spelled byte child hnode).mpr hchild] at hfree
    cases hfree
  have hlt := h.node_lt hnode
  have hlast : (paths ++ [spelled ++ [byte]])[trie.nodes.length]? = some (spelled ++ [byte]) := by
    rw [← h.length_eq, List.getElem?_concat_length]
  have hnodup : (paths ++ [spelled ++ [byte]]).Nodup := by
    rw [← List.concat_eq_append]
    exact h.nodup.concat hnew
  have hclosed : ∀ spelled' byte', spelled' ++ [byte'] ∈ paths ++ [spelled ++ [byte]] →
      spelled' ∈ paths := by
    intro spelled' byte' hmem
    rcases List.mem_append.mp hmem with hmem | hmem
    · exact h.closed spelled' byte' hmem
    · have heq := List.append_inj' (List.mem_singleton.mp hmem) rfl
      rw [heq.1]
      exact List.mem_of_getElem? hnode
  -- A node is an old one, or the new one at the end.
  have hcases : ∀ {other : Nat} {spelled' : Bytes},
      (paths ++ [spelled ++ [byte]])[other]? = some spelled' →
        paths[other]? = some spelled' ∨
          other = trie.nodes.length ∧ spelled' = spelled ++ [byte] := by
    intro other spelled' hother
    rcases Nat.lt_or_ge other paths.length with hold | hge
    · rw [List.getElem?_append_left hold] at hother
      exact .inl hother
    · have hle : other < (paths ++ [spelled ++ [byte]]).length :=
        (List.getElem?_eq_some_iff.mp hother).choose
      rw [List.length_append, List.length_singleton] at hle
      obtain rfl : other = paths.length := by omega
      rw [List.getElem?_concat_length] at hother
      exact .inr ⟨h.length_eq, (Option.some.inj hother).symm⟩
  apply Spells.mk
  · simp [AddedTrie.addChild, h.length_eq]
  · rw [List.getElem?_append_left (Nat.lt_of_le_of_lt (Nat.zero_le _)
      (List.getElem?_eq_some_iff.mp hnode).choose), h.root]
  · exact hnodup
  · intro spelled' byte' hmem
    exact List.mem_append_left _ (hclosed spelled' byte' hmem)
  · intro other spelled' byte' child hother
    rw [child_addChild hlt]
    rcases hcases hother with hold | ⟨rfl, rfl⟩
    · split
      · next heq =>
          obtain ⟨rfl, rfl⟩ := heq
          obtain rfl := Option.some.inj (hold.symm.trans hnode)
          rw [← hlast]
          constructor
          · intro hchild
            rw [Option.some.inj hchild]
          · intro hchild
            have hend : trie.nodes.length < (paths ++ [spelled' ++ [byte']]).length := by
              rw [List.length_append, h.length_eq, List.length_singleton]
              exact Nat.lt_succ_self _
            rw [(List.getElem?_inj hend hnodup).mp hchild.symm]
      · next hne =>
          rw [h.edges other spelled' byte' child hold]
          constructor
          · intro hchild
            rw [List.getElem?_append_left (List.getElem?_eq_some_iff.mp hchild).choose, hchild]
          · intro hchild
            rcases hcases hchild with hchild | ⟨_, heq⟩
            · exact hchild
            · obtain ⟨rfl, hbyte⟩ := List.append_inj' heq rfl
              cases hbyte
              exact absurd ⟨h.node_unique hold hnode, rfl⟩ hne
    · rw [if_neg (fun heq => Nat.ne_of_gt hlt heq.1)]
      have hnone : trie.child trie.nodes.length byte' = none := by
        unfold AddedTrie.child
        rw [List.getD_eq_default _ _ (Nat.le_refl _)]
        rfl
      rw [hnone]
      constructor
      · intro hchild
        cases hchild
      · intro hchild
        exact absurd (hclosed _ byte' (List.mem_of_getElem? hchild)) hnew
  · intro other spelled' id hother
    rw [terminal_addChild]
    rcases hcases hother with hold | ⟨rfl, rfl⟩
    · exact h.ends other spelled' id hold
    · have hnone : trie.terminal trie.nodes.length = none := by
        unfold terminal
        rw [List.getD_eq_default _ _ (Nat.le_refl _)]
        rfl
      rw [hnone]
      constructor
      · intro hterminal
        cases hterminal
      · rintro ⟨content, hcontent, hindex⟩
        apply absurd _ hnew
        rw [hcontent]
        apply h.held
        rw [hindex]
        rfl
  · intro content hindex
    exact List.mem_append_left _ (h.held content hindex)

/-- Going down along bytes ends at the node that spells them. -/
theorem Spells.descend (h : Spells trie paths index) {spelled : Bytes}
    (hnode : paths[node]? = some spelled) (bytes : Bytes) :
    ∃ paths', Spells (trie.descend node bytes).2 paths' index ∧
      paths'[(trie.descend node bytes).1]? = some (spelled ++ bytes) := by
  induction bytes generalizing trie paths node spelled with
  | nil => exact ⟨paths, h, by rw [List.append_nil]; exact hnode⟩
  | cons byte rest ih =>
      unfold AddedTrie.descend
      have happend : spelled ++ byte :: rest = (spelled ++ [byte]) ++ rest := by
        rw [List.append_assoc]
        rfl
      rw [happend]
      cases hchild : trie.child node byte with
      | some child => exact ih h ((h.edges node spelled byte child hnode).mp hchild)
      | none =>
          apply ih (h.addChild hnode hchild)
          rw [← h.length_eq, List.getElem?_concat_length]

end Descend

section Insert

variable {node id : Nat}

theorem child_setTerminal (other : Nat) (byte : UInt8) :
    (trie.setTerminal node id).child other byte = trie.child other byte := by
  unfold child setTerminal
  rw [List.getD_eq_getElem?_getD, List.getD_eq_getElem?_getD, List.getElem?_modify]
  by_cases hother : node = other <;> cases trie.nodes[other]? <;> simp [hother]

theorem terminal_setTerminal (hnode : node < trie.nodes.length) (other : Nat) :
    (trie.setTerminal node id).terminal other =
      if other = node then some id else trie.terminal other := by
  unfold terminal setTerminal
  rw [List.getD_eq_getElem?_getD, List.getD_eq_getElem?_getD, List.getElem?_modify]
  by_cases hother : node = other
  · subst hother
    rw [List.getElem?_eq_getElem hnode]
    simp
  · simp [hother, Ne.symm hother]

/-- A content that ends nowhere yet gets its id. -/
theorem Spells.setTerminal (h : Spells trie paths index) (id : Nat) {content : Text}
    (hnode : paths[node]? = some (Utf8.encode content)) (hfree : trie.terminal node = none) :
    index content = none ∧
      Spells (trie.setTerminal node id) paths (Function.update index content (some id)) := by
  constructor
  · cases hindex : index content with
    | none => rfl
    | some other =>
        rw [(h.ends node _ other hnode).mpr ⟨content, rfl, hindex⟩] at hfree
        cases hfree
  apply Spells.mk
  · rw [h.length_eq, AddedTrie.setTerminal, List.length_modify]
  · exact h.root
  · exact h.nodup
  · exact h.closed
  · intro other spelled byte child hother
    rw [child_setTerminal]
    exact h.edges other spelled byte child hother
  · intro other spelled id' hother
    rw [terminal_setTerminal (h.node_lt hnode)]
    split
    · next heq =>
        subst heq
        obtain rfl := Option.some.inj (hother.symm.trans hnode)
        constructor
        · intro hid
          exact ⟨content, rfl, by rw [Function.update_self, hid]⟩
        · rintro ⟨other, hsame, hid⟩
          rw [Utf8.encode_injective hsame.symm, Function.update_self] at hid
          exact hid
    · next hne =>
        rw [h.ends other spelled id' hother]
        apply exists_congr
        intro word
        apply and_congr_right
        intro hword
        have hdiffers : word ≠ content := by
          rintro rfl
          rw [hword] at hother
          exact hne (h.node_unique hother hnode)
        rw [Function.update_of_ne hdiffers]
  · intro word hword
    by_cases heq : word = content
    · rw [heq]
      exact List.mem_of_getElem? hnode
    · rw [Function.update_of_ne heq] at hword
      exact h.held word hword

/-- A trie that holds exactly the contents with an id. -/
def Holds (trie : AddedTrie) (index : Text → Option Nat) : Prop :=
  trie.nodes = [] ∧ index = (fun _ => none) ∨ ∃ paths, Spells trie paths index

theorem Holds.insert {trie' : AddedTrie} {content : Text} (h : Holds trie index)
    (hinsert : trie.insert (Utf8.encode content) id = some trie') :
    index content = none ∧ Holds trie' (Function.update index content (some id)) := by
  have hrooted : ∃ paths,
      Spells (if trie.nodes = [] then ⟨[emptyNode]⟩ else trie) paths index := by
    rcases h with ⟨hnil, rfl⟩ | ⟨paths, h⟩
    · rw [if_pos hnil]
      exact ⟨[[]], spells_root⟩
    · rw [if_neg h.ne_nil]
      exact ⟨paths, h⟩
  obtain ⟨paths, hrooted⟩ := hrooted
  obtain ⟨paths', hspells, hend⟩ := hrooted.descend hrooted.root (Utf8.encode content)
  simp only [AddedTrie.insert] at hinsert
  generalize (if trie.nodes = [] then (⟨[emptyNode]⟩ : AddedTrie) else trie) = rooted at *
  split at hinsert
  · cases hinsert
  · next hfree =>
      cases hinsert
      rw [List.nil_append] at hend
      rw [Bool.not_eq_true, Option.isSome_eq_false_iff, Option.isNone_iff_eq_none] at hfree
      obtain ⟨hnone, hspells'⟩ := hspells.setTerminal id hend hfree
      exact ⟨hnone, .inr ⟨paths', hspells'⟩⟩

end Insert

section Longest

/-- The longest content that a byte string begins with, by its length and id. -/
structure Best (index : Text → Option Nat) (bytes : Bytes) (best : Option (Nat × Nat)) :
    Prop where
  found : ∀ length id, best = some (length, id) → ∃ content,
    Utf8.encode content <+: bytes ∧ (Utf8.encode content).length = length ∧
      index content = some id
  most : ∀ content id, Utf8.encode content <+: bytes → index content = some id →
    ∃ length id', best = some (length, id') ∧ (Utf8.encode content).length ≤ length

theorem Spells.mem_of_prefix (h : Spells trie paths index) {shorter longer : Bytes}
    (hlonger : longer ∈ paths) (hbegins : shorter <+: longer) : shorter ∈ paths := by
  obtain ⟨rest, rfl⟩ := hbegins
  induction rest using List.reverseRecOn with
  | nil =>
      rw [List.append_nil] at hlonger
      exact hlonger
  | append_singleton rest byte ih =>
      rw [← List.append_assoc] at hlonger
      exact ih (h.closed _ byte hlonger)

/-- One byte further, the content that ends there is the longest, if one does. -/
theorem Spells.best_step (h : Spells trie paths index) {spelled : Bytes} {byte : UInt8}
    {child : Nat} {best : Option (Nat × Nat)} (hbest : Best index spelled best)
    (hchild : paths[child]? = some (spelled ++ [byte])) :
    Best index (spelled ++ [byte])
      (((trie.terminal child).map fun id => (spelled.length + 1, id)).or best) := by
  have hlength : (spelled ++ [byte]).length = spelled.length + 1 := List.length_append
  cases hterminal : trie.terminal child with
  | some id =>
      obtain ⟨content, hcontent, hindex⟩ := (h.ends child _ id hchild).mp hterminal
      apply Best.mk
      · intro length id' heq
        cases heq
        exact ⟨content, hcontent ▸ List.prefix_rfl, by rw [← hcontent, hlength], hindex⟩
      · intro other id' hbegins _
        refine ⟨_, _, rfl, ?_⟩
        rw [← hlength]
        exact hbegins.length_le
  | none =>
      rw [Option.map_none, Option.none_or]
      apply Best.mk
      · intro length id heq
        obtain ⟨content, hbegins, hrest⟩ := hbest.found length id heq
        exact ⟨content, hbegins.trans (List.prefix_append _ _), hrest⟩
      · intro content id hbegins hindex
        rcases List.prefix_concat_iff.mp hbegins with heq | hbegins
        · rw [(h.ends child _ id hchild).mpr ⟨content, heq.symm, hindex⟩] at hterminal
          cases hterminal
        · exact hbest.most content id hbegins hindex

theorem Spells.longestFrom (h : Spells trie paths index) {node : Nat} {spelled : Bytes}
    {best : Option (Nat × Nat)} (hnode : paths[node]? = some spelled)
    (hbest : Best index spelled best) (bytes : Bytes) :
    Best index (spelled ++ bytes) (trie.longestFrom node spelled.length best bytes) := by
  induction bytes generalizing node spelled best with
  | nil =>
      rw [List.append_nil]
      exact hbest
  | cons byte rest ih =>
      have happend : spelled ++ byte :: rest = (spelled ++ [byte]) ++ rest := by
        rw [List.append_assoc]
        rfl
      unfold AddedTrie.longestFrom
      cases hchild : trie.child node byte with
      | none =>
          -- Nothing longer is in the trie.
          apply Best.mk
          · intro length id heq
            obtain ⟨content, hbegins, hrest⟩ := hbest.found length id heq
            exact ⟨content, hbegins.trans (List.prefix_append _ _), hrest⟩
          · intro content id hbegins hindex
            apply hbest.most content id _ hindex
            rcases Nat.lt_or_ge spelled.length (Utf8.encode content).length with hlt | hge
            · exfalso
              have hlonger : spelled ++ [byte] <+: Utf8.encode content := by
                apply List.prefix_of_prefix_length_le _ hbegins
                · rw [List.length_append]
                  exact hlt
                · rw [happend]
                  exact List.prefix_append _ _
              have hmem := h.mem_of_prefix (h.held content (by rw [hindex]; rfl)) hlonger
              obtain ⟨child, hget⟩ := List.mem_iff_getElem?.mp hmem
              rw [(h.edges node spelled byte child hnode).mpr hget] at hchild
              cases hchild
            · exact List.prefix_of_prefix_length_le hbegins (List.prefix_append _ _) hge
      | some child =>
          have hget := (h.edges node spelled byte child hnode).mp hchild
          have hrest := ih hget (h.best_step hbest hget)
          rw [List.length_append] at hrest
          rw [happend]
          exact hrest

theorem Spells.longestAt (h : Spells trie paths index) (hempty : index [] = none)
    (bytes : Bytes) : Best index bytes (trie.longestAt bytes) := by
  apply h.longestFrom h.root
  apply Best.mk
  · intro length id heq
    cases heq
  · intro content id hbegins hindex
    rw [Utf8.encode_eq_nil.mp (List.prefix_nil.mp hbegins), hempty] at hindex
    cases hindex

end Longest

section Match

variable {words : List Text}

/-- The longest content in bytes is the longest one in characters. -/
theorem Best.longestOf {input : Text} {best : Option (Nat × Nat)}
    (h : Best index (Utf8.encode input) best)
    (hwords : ∀ word, word ∈ words ↔ (index word).isSome) :
    best = (Cutting.longest words input).bind fun word =>
      (index word).map fun id => ((Utf8.encode word).length, id) := by
  have hspec := Cutting.longest_spec words input
  cases hlongest : Cutting.longest words input with
  | none =>
      cases best with
      | none => rfl
      | some found =>
          obtain ⟨length, id⟩ := found
          obtain ⟨content, hbegins, _, hindex⟩ := h.found length id rfl
          obtain ⟨_, hsome, _⟩ := hspec.most content
            ((hwords content).mpr (by rw [hindex]; rfl)) (Utf8.encode_prefix_encode.mp hbegins)
          rw [hlongest] at hsome
          cases hsome
  | some word =>
      obtain ⟨hmem, hbegins⟩ := hspec.found word hlongest
      obtain ⟨id, hindex⟩ := Option.isSome_iff_exists.mp ((hwords word).mp hmem)
      obtain ⟨length, id', rfl, hle⟩ :=
        h.most word id (Utf8.encode_prefix_encode.mpr hbegins) hindex
      obtain ⟨content, hcontent, hlength, hindex'⟩ := h.found length id' rfl
      obtain ⟨_, hsome, hlonger⟩ := hspec.most content
        ((hwords content).mpr (by rw [hindex']; rfl)) (Utf8.encode_prefix_encode.mp hcontent)
      rw [hlongest] at hsome
      obtain rfl := Option.some.inj hsome
      obtain rfl : content = word := by
        have hcharacters := Utf8.encode_prefix_encode.mp hcontent
        have hsub := List.prefix_of_prefix_length_le hcharacters hbegins hlonger
        apply hsub.eq_of_length_le
        have hbytes := List.prefix_of_prefix_length_le
          (Utf8.encode_prefix_encode.mpr hbegins) hcontent (by rw [hlength]; exact hle)
        exact (Utf8.encode_prefix_encode.mp hbytes).length_le
      rw [Option.bind_some, hindex, ← hlength]
      rw [hindex] at hindex'
      cases hindex'
      rfl

theorem Spells.nextMatchFrom (h : Spells trie paths index) (hempty : index [] = none)
    (hwords : ∀ word, word ∈ words ↔ (index word).isSome) (relative : Nat) (input : Text) :
    trie.nextMatchFrom relative input =
      (Cutting.firstWord words input).bind fun (before, word, _) =>
        (index word).map fun id => (relative + before.length, (Utf8.encode word).length, id) := by
  induction input generalizing relative with
  | nil => rfl
  | cons character rest ih =>
      have hlongest := (h.longestAt hempty (Utf8.encode (character :: rest))).longestOf hwords
      unfold AddedTrie.nextMatchFrom Cutting.firstWord
      rw [hlongest]
      cases hword : Cutting.longest words (character :: rest) with
      | none =>
          simp only [Option.bind_none, ih]
          cases Cutting.firstWord words rest with
          | none => rfl
          | some found =>
              simp only [Option.bind_some, Option.map_some, List.length_cons]
              rw [Nat.add_right_comm, Nat.add_assoc]
      | some word =>
          obtain ⟨hmem, _⟩ := (Cutting.longest_spec words _).found word hword
          obtain ⟨id, hindex⟩ := Option.isSome_iff_exists.mp ((hwords word).mp hmem)
          simp only [Option.bind_some, hindex, Option.map_some]
          rfl

/-- The next match is the first word of the dictionary of contents. -/
theorem Holds.nextMatch (h : Holds trie index) (hempty : index [] = none)
    (hwords : ∀ word, word ∈ words ↔ (index word).isSome) (input : Text) :
    trie.nextMatch input = (Cutting.firstWord words input).bind fun (before, word, _) =>
      (index word).map fun id => (before.length, (Utf8.encode word).length, id) := by
  unfold AddedTrie.nextMatch
  rcases h with ⟨hnil, rfl⟩ | ⟨paths, h⟩
  · rw [if_pos hnil]
    cases hfirst : Cutting.firstWord words input with
    | none => rfl
    | some found => rfl
  · rw [if_neg h.ne_nil, h.nextMatchFrom hempty hwords]
    simp only [Nat.zero_add]

end Match

end AddedTrie

end Riley.Tokenizer
