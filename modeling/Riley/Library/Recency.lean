import Mathlib.Data.List.Chain
import Mathlib.Data.List.Nodup
import Mathlib.Data.Option.Basic
import Mathlib.Logic.Function.Basic

/-!
A recency list kept as a ring of links. `none` is the header of the ring: its
successor is the oldest member and its predecessor the newest, so the ends of
the list need no case of their own.
-/

namespace Riley.Recency

variable {κ : Type}

structure LinkRing (κ : Type) where
  next : Option κ → Option κ
  prev : Option κ → Option κ

namespace LinkRing

section Operations

variable [DecidableEq κ]

def unlink (ring : LinkRing κ) (a : κ) : LinkRing κ where
  next := Function.update ring.next (ring.prev (some a)) (ring.next (some a))
  prev := Function.update ring.prev (ring.next (some a)) (ring.prev (some a))

def linkNewest (ring : LinkRing κ) (a : κ) : LinkRing κ where
  next := Function.update (Function.update ring.next (some a) none) (ring.prev none) (some a)
  prev := Function.update (Function.update ring.prev (some a) (ring.prev none)) none (some a)

end Operations

def Linked (ring : LinkRing κ) (nodes : List (Option κ)) : Prop :=
  nodes.IsChain fun x y => ring.next x = y ∧ ring.prev y = x

/-- The members from the header back to the header. -/
def circuit (order : List κ) : List (Option κ) :=
  none :: (order.map some ++ [none])

/-- The ring visits exactly `order`, oldest first. -/
structure Represents (ring : LinkRing κ) (order : List κ) : Prop where
  nodup : order.Nodup
  linked : ring.Linked (circuit order)

/-- Links read `next` of every node but the last and `prev` of every node but
the first. -/
theorem Linked.congr {ring ring' : LinkRing κ} {nodes : List (Option κ)}
    (h : ring.Linked nodes) (hnext : ∀ x ∈ nodes.dropLast, ring'.next x = ring.next x)
    (hprev : ∀ y ∈ nodes.tail, ring'.prev y = ring.prev y) : ring'.Linked nodes := by
  unfold Linked at *
  induction nodes with
  | nil => exact List.isChain_nil
  | cons x rest ih =>
      cases rest with
      | nil => exact List.isChain_singleton x
      | cons y rest =>
          rw [List.isChain_cons_cons] at h ⊢
          rw [List.dropLast_cons_cons] at hnext
          refine ⟨⟨?_, ?_⟩, ih h.2 ?_ ?_⟩
          · rw [hnext x List.mem_cons_self]
            exact h.1.1
          · rw [hprev y List.mem_cons_self]
            exact h.1.2
          · exact fun z hz => hnext z (List.mem_cons_of_mem _ hz)
          · exact fun z hz => hprev z (List.mem_cons_of_mem _ hz)

/-- The neighbours of a member, and the circuit without it. -/
theorem circuit_split (front back : List κ) (a : κ) :
    ∃ left p n right, circuit (front ++ a :: back) = left ++ p :: some a :: n :: right ∧
      circuit (front ++ back) = left ++ p :: n :: right ∧
      left ++ [p] = none :: front.map some ∧ n :: right = back.map some ++ [none] := by
  obtain ⟨left, p, hleft⟩ : ∃ left p, left ++ [p] = none :: front.map some :=
    ⟨_, _, List.dropLast_append_getLast (List.cons_ne_nil _ _)⟩
  obtain ⟨n, right, hright⟩ : ∃ n right, n :: right = back.map some ++ [none] := by
    cases back with
    | nil => exact ⟨none, [], rfl⟩
    | cons b rest => exact ⟨some b, rest.map some ++ [none], rfl⟩
  refine ⟨left, p, n, right, ?_, ?_, hleft, hright⟩
  · calc circuit (front ++ a :: back)
        = (none :: front.map some) ++ some a :: (back.map some ++ [none]) := by
          simp [circuit]
      _ = left ++ p :: some a :: n :: right := by rw [← hleft, ← hright]; simp
  · calc circuit (front ++ back)
        = (none :: front.map some) ++ (back.map some ++ [none]) := by simp [circuit]
      _ = left ++ p :: n :: right := by rw [← hleft, ← hright]; simp

theorem nodup_sources {order : List κ} (h : order.Nodup) :
    (none :: order.map some : List (Option κ)).Nodup := by
  rw [List.nodup_cons]
  exact ⟨by simp, h.map (Option.some_injective κ)⟩

theorem nodup_targets {order : List κ} (h : order.Nodup) :
    (order.map some ++ [none] : List (Option κ)).Nodup := by
  rw [List.nodup_append]
  refine ⟨h.map (Option.some_injective κ), List.nodup_singleton _, ?_⟩
  rintro x hx y hy rfl
  simp_all

/-- Only the links of the members and of the header count. -/
theorem Represents.congr {ring ring' : LinkRing κ} {order : List κ}
    (h : ring.Represents order)
    (hnext : ∀ x ∈ none :: order.map some, ring'.next x = ring.next x)
    (hprev : ∀ x ∈ none :: order.map some, ring'.prev x = ring.prev x) :
    ring'.Represents order := by
  refine ⟨h.nodup, h.linked.congr ?_ ?_⟩
  · intro x hx
    refine hnext x ?_
    rwa [circuit, ← List.cons_append, List.dropLast_concat] at hx
  · intro y hy
    refine hprev y ?_
    rw [circuit, List.tail_cons] at hy
    rcases List.mem_append.mp hy with hy | hy
    · exact List.mem_cons_of_mem _ hy
    · rw [List.mem_singleton.mp hy]
      exact List.mem_cons_self

section Members

variable {ring : LinkRing κ} {front back : List κ} {a : κ}

theorem Represents.next_eq (h : ring.Represents (front ++ a :: back)) :
    ring.next (some a) = (back.head?.map some).getD none := by
  obtain ⟨left, p, n, right, hcircuit, _, _, hright⟩ := circuit_split front back a
  have hlinked := h.linked
  rw [hcircuit, Linked, List.isChain_append_cons_cons, List.isChain_cons_cons] at hlinked
  rw [hlinked.2.2.1.1]
  cases back with
  | nil => simp_all
  | cons b rest => simp_all

/-- The neighbours of a member are members or the header. -/
theorem Represents.neighbours (h : ring.Represents (front ++ a :: back)) :
    (∀ b, ring.next (some a) = some b → b ∈ front ++ a :: back) ∧
    (∀ b, ring.prev (some a) = some b → b ∈ front ++ a :: back) := by
  obtain ⟨left, p, n, right, hcircuit, _, hleft, hright⟩ := circuit_split front back a
  have hlinked := h.linked
  rw [hcircuit, Linked, List.isChain_append_cons_cons, List.isChain_cons_cons] at hlinked
  obtain ⟨_, ⟨_, hprev⟩, ⟨hnext, _⟩, _⟩ := hlinked
  rw [hnext, hprev]
  constructor
  · rintro b rfl
    have hmem : some b ∈ back.map some ++ [none] := by
      rw [← hright]
      exact List.mem_cons_self
    have hback : b ∈ back := by simpa using hmem
    simp [hback]
  · rintro b rfl
    have hmem : some b ∈ none :: front.map some := by
      rw [← hleft]
      simp
    have hfront : b ∈ front := by simpa using hmem
    simp [hfront]

theorem Represents.newest_mem {order : List κ} (h : ring.Represents order) {b : κ}
    (hb : ring.prev none = some b) : b ∈ order := by
  obtain ⟨left, p, hleft⟩ : ∃ left p, left ++ [p] = none :: order.map some :=
    ⟨_, _, List.dropLast_append_getLast (List.cons_ne_nil _ _)⟩
  have hcircuit : circuit order = left ++ p :: none :: [] := by
    calc circuit order = (none :: order.map some) ++ [none] := rfl
      _ = left ++ p :: none :: [] := by rw [← hleft]; simp
  have hlinked := h.linked
  rw [hcircuit, Linked, List.isChain_append_cons_cons] at hlinked
  obtain ⟨_, ⟨_, hprev⟩, _⟩ := hlinked
  rw [hb] at hprev
  subst hprev
  have hmem : some b ∈ none :: order.map some := by
    rw [← hleft]
    simp
  simpa using hmem

theorem Represents.oldest_eq {order : List κ} (h : ring.Represents order) :
    ring.next none = order.head? := by
  have hlinked := h.linked
  cases order with
  | nil =>
      simp only [Linked, circuit, List.map_nil, List.nil_append, List.isChain_cons_cons]
        at hlinked
      exact hlinked.1.1
  | cons b rest =>
      simp only [Linked, circuit, List.map_cons, List.cons_append, List.isChain_cons_cons]
        at hlinked
      exact hlinked.1.1

variable [DecidableEq κ]

/-- Unlinking takes the member out of the order. -/
theorem Represents.unlink (h : ring.Represents (front ++ a :: back)) :
    (ring.unlink a).Represents (front ++ back) := by
  obtain ⟨left, p, n, right, hcircuit, hrest, hleft, hright⟩ := circuit_split front back a
  have hnodup : (front ++ back).Nodup :=
    h.nodup.sublist (List.Sublist.append_left (List.sublist_cons_self a back) front)
  have hlinked := h.linked
  rw [hcircuit, Linked, List.isChain_append_cons_cons, List.isChain_cons_cons] at hlinked
  obtain ⟨hbefore, ⟨_, hprev⟩, ⟨hnext, _⟩, hafter⟩ := hlinked
  refine ⟨hnodup, ?_⟩
  have hsources : (left ++ [p] ++ back.map some).Nodup := by
    rw [hleft]
    simpa using nodup_sources hnodup
  have htargets : (front.map some ++ (n :: right)).Nodup := by
    rw [hright]
    simpa using nodup_targets hnodup
  rw [hrest, Linked, List.isChain_append_cons_cons]
  have hfront : (left ++ [p]).tail = front.map some := by rw [hleft]; rfl
  have hback : (n :: right).dropLast = back.map some := by rw [hright]; simp
  refine ⟨?_, ⟨?_, ?_⟩, ?_⟩
  · refine @Linked.congr _ _ (ring.unlink a) _ hbefore ?_ ?_
    · intro x hx
      rw [List.dropLast_concat] at hx
      refine Function.update_of_ne ?_ _ _
      rintro rfl
      rw [hprev] at hx
      rw [List.append_assoc, List.nodup_append] at hsources
      exact hsources.2.2 _ hx _ (by simp) rfl
    · intro y hy
      rw [hfront] at hy
      refine Function.update_of_ne ?_ _ _
      rintro rfl
      rw [hnext] at hy
      rw [List.nodup_append] at htargets
      exact htargets.2.2 _ hy _ List.mem_cons_self rfl
  · simp [LinkRing.unlink, hprev, hnext]
  · simp [LinkRing.unlink, hprev, hnext]
  · refine @Linked.congr _ _ (ring.unlink a) _ hafter ?_ ?_
    · intro x hx
      rw [hback] at hx
      refine Function.update_of_ne ?_ _ _
      rintro rfl
      rw [hprev] at hx
      rw [List.nodup_append] at hsources
      exact hsources.2.2 _ (by simp) _ hx rfl
    · intro y hy
      refine Function.update_of_ne ?_ _ _
      rintro rfl
      rw [hnext] at hy
      rw [List.nodup_append] at htargets
      exact (List.nodup_cons.mp htargets.2.1).1 hy

/-- A member linked as the newest goes to the end of the order. -/
theorem Represents.linkNewest {order : List κ} (h : ring.Represents order)
    (ha : a ∉ order) : (ring.linkNewest a).Represents (order ++ [a]) := by
  have hnodup : (order ++ [a]).Nodup := by
    rw [List.nodup_append]
    refine ⟨h.nodup, List.nodup_singleton a, ?_⟩
    rintro x hx y hy rfl
    exact ha (List.mem_singleton.mp hy ▸ hx)
  obtain ⟨left, p, hleft⟩ : ∃ left p, left ++ [p] = none :: order.map some :=
    ⟨_, _, List.dropLast_append_getLast (List.cons_ne_nil _ _)⟩
  have hcircuit : circuit order = left ++ p :: none :: [] := by
    calc circuit order = (none :: order.map some) ++ [none] := rfl
      _ = left ++ p :: none :: [] := by rw [← hleft]; simp
  have hextended : circuit (order ++ [a]) = left ++ p :: some a :: none :: [] := by
    calc circuit (order ++ [a]) = (none :: order.map some) ++ [some a, none] := by
          simp [circuit]
      _ = left ++ p :: some a :: none :: [] := by rw [← hleft]; simp
  have hlinked := h.linked
  rw [hcircuit, Linked, List.isChain_append_cons_cons] at hlinked
  obtain ⟨hbefore, ⟨_, hprev⟩, _⟩ := hlinked
  have hsources : (left ++ [p]).Nodup := by
    rw [hleft]
    exact nodup_sources h.nodup
  have hmembers : ∀ x, x ∈ left ++ [p] → x ≠ some a := by
    rintro x hx rfl
    rw [hleft] at hx
    simp [ha] at hx
  refine ⟨hnodup, ?_⟩
  rw [hextended, Linked, List.isChain_append_cons_cons, List.isChain_cons_cons]
  have hpa := hmembers p (by simp)
  refine ⟨?_, ⟨?_, ?_⟩, ⟨?_, ?_⟩, List.isChain_singleton _⟩
  · refine @Linked.congr _ _ (ring.linkNewest a) _ hbefore ?_ ?_
    · intro x hx
      rw [List.dropLast_concat] at hx
      have hxp : x ≠ p := by
        rintro rfl
        rw [List.nodup_append] at hsources
        exact hsources.2.2 _ hx _ (List.mem_singleton_self _) rfl
      simp [LinkRing.linkNewest, hprev, hxp, hmembers x (by simp [hx])]
    · intro y hy
      rw [hleft, List.tail_cons] at hy
      have hya : y ≠ some a := by
        rintro rfl
        simp [ha] at hy
      have hynone : y ≠ none := by
        rintro rfl
        simp at hy
      simp [LinkRing.linkNewest, hya, hynone]
  · simp [LinkRing.linkNewest, hprev]
  · simp [LinkRing.linkNewest, hprev]
  · simp [LinkRing.linkNewest, hprev, hpa.symm]
  · simp [LinkRing.linkNewest]

end Members

/-- An empty ring is its own neighbour. -/
theorem represents_nil {ring : LinkRing κ} (hnext : ring.next none = none)
    (hprev : ring.prev none = none) : ring.Represents [] :=
  ⟨List.nodup_nil, List.isChain_cons_cons.mpr ⟨⟨hnext, hprev⟩, List.isChain_singleton _⟩⟩

end LinkRing

end Riley.Recency
