import Mathlib.Logic.Relation
import Mathlib.Tactic
import GrammarForge.DepthFirst

set_option autoImplicit false

/-!
# Depth-first search finds exactly what is reachable

The search is bounded by a depth. The bound is never felt: it is at least the number of nodes
that have not been seen, and every level of the search sees one more of them.

## Main definitions

* `Visited.WellFormed` — the two halves of a search state agree.
* `Visited.Has`, `Visited.unseen` — what has been seen, and how much has not.

## Main results

* `visit_spec` — a search from one node adds nodes reachable from it, and whatever it adds has
  all its successors seen.
* `mem_depthFirst` — the order of a search lists the nodes reachable from its roots.
-/

namespace GrammarForge

namespace Visited

/-- A search state over `n` nodes in which the marks and the order tell the same. -/
structure WellFormed (n : Nat) (v : Visited) : Prop where
  size_seen : v.seen.size = n
  mem_order : ∀ i, i ∈ v.order.toList ↔ v.seen[i]? = some true

/-- Whether a node has been seen. -/
def Has (v : Visited) (i : Nat) : Prop := i ∈ v.order.toList

/-- The number of nodes that have not been seen. -/
def unseen (v : Visited) : Nat := v.seen.toList.count false

/-- A search that has seen nothing. -/
lemma wellFormed_empty (n : Nat) : (empty n).WellFormed n where
  size_seen := by simp [empty]
  mem_order i := by simp [empty, Array.getElem?_replicate]

/-- Before a search has begun nothing has been seen. -/
lemma unseen_empty (n : Nat) : (empty n).unseen = n := by
  simp [empty, unseen]

variable {n : Nat} {v : Visited} {s : Nat}

/-- There is something to do at a node exactly if it is a node that has not been seen. -/
lemma isDone_eq_false_iff (h : v.WellFormed n) : v.isDone s = false ↔ s < n ∧ ¬ v.Has s := by
  rw [Has, h.mem_order, isDone, Array.getD_eq_getD_getElem?, ← h.size_seen]
  by_cases hs : s < v.seen.size
  · rw [Array.getElem?_eq_getElem hs]
    simp [hs]
  · rw [Array.getElem?_eq_none (by omega)]
    simp [hs]

/-- Marking keeps a search state well formed. -/
lemma WellFormed.mark (h : v.WellFormed n) (hs : s < n) : (v.mark s).WellFormed n where
  size_seen := by simp [Visited.mark, h.size_seen]
  mem_order i := by
    have hsize : s < v.seen.size := by rw [h.size_seen]; exact hs
    rw [Visited.mark, Array.getElem?_setIfInBounds]
    by_cases hi : s = i
    · subst hi
      simp [hsize]
    · rw [if_neg hi, ← h.mem_order, Array.toList_push, List.mem_append, List.mem_singleton]
      exact ⟨fun h' => h'.resolve_right (Ne.symm hi), Or.inl⟩

/-- Marking a place adds this place to those that have been seen. -/
lemma has_mark {i : Nat} : (v.mark s).Has i ↔ v.Has i ∨ i = s := by
  rw [Has, mark, Array.toList_push, List.mem_append, List.mem_singleton, Has]

/-- Marking a new node leaves one less unseen. -/
lemma unseen_mark (h : v.WellFormed n) (hs : s < n) (hnew : ¬ v.Has s) :
    (v.mark s).unseen + 1 = v.unseen := by
  have hsize : s < v.seen.toList.length := by rw [Array.length_toList, h.size_seen]; exact hs
  have hfalse : v.seen.toList[s] = false := by
    rw [Has, h.mem_order, Array.getElem?_eq_getElem (by simpa using hsize)] at hnew
    simpa using hnew
  have hmem : false ∈ v.seen.toList := hfalse ▸ List.getElem_mem hsize
  have hpos : 0 < v.seen.toList.count false := List.count_pos_iff.mpr hmem
  rw [unseen, mark, Array.toList_setIfInBounds, List.count_set hsize, hfalse, unseen]
  simpa using Nat.sub_add_cancel hpos

/-- When everything has been seen, there is nothing to do anywhere. -/
lemma isDone_of_unseen (h : v.WellFormed n) (h0 : v.unseen = 0) : v.isDone s = true := by
  by_contra hdone
  obtain ⟨hs, hnew⟩ := (isDone_eq_false_iff h).mp (by simpa using hdone)
  have := unseen_mark h hs hnew
  omega

end Visited

open Visited

/-- **What a stretch of a search does** to a search state: nothing is forgotten, every node
that was added has all its successors seen, and is reachable from one of the given sources. -/
structure Extends (n : Nat) (succ : Nat → List Nat) (sources : List Nat) (v v' : Visited) :
    Prop where
  wellFormed : v'.WellFormed n
  unseen_le : v'.unseen ≤ v.unseen
  mono : ∀ i, v.Has i → v'.Has i
  closed : ∀ i, v'.Has i → v.Has i ∨ ∀ j ∈ succ i, j < n → v'.Has j
  reachable : ∀ i, v'.Has i → v.Has i ∨
    ∃ s ∈ sources, s < n ∧ Relation.ReflTransGen (fun i j => j ∈ succ i ∧ j < n) s i
  sources_seen : ∀ s ∈ sources, s < n → v'.Has s

variable {n : Nat} {succ : Nat → List Nat}

/-- A search from no source does nothing. -/
lemma Extends.refl {v : Visited} (h : v.WellFormed n) : Extends n succ [] v v where
  wellFormed := h
  unseen_le := le_rfl
  mono _ hi := hi
  closed _ hi := Or.inl hi
  reachable _ hi := Or.inl hi
  sources_seen _ hs := absurd hs List.not_mem_nil

/-- Two stretches of a search in a row.

**Proof sketch.** What the first stretch has seen the second one keeps. A place seen in the first
stretch has its successors seen then, or it is the first source, from where the second stretch goes on.
-/
lemma Extends.cons {s : Nat} {ss : List Nat} {v v' v'' : Visited}
    (h₁ : Extends n succ [s] v v') (h₂ : Extends n succ ss v' v'') :
    Extends n succ (s :: ss) v v'' where
  wellFormed := h₂.wellFormed
  unseen_le := h₂.unseen_le.trans h₁.unseen_le
  mono i hi := h₂.mono i (h₁.mono i hi)
  closed i hi := by
    rcases h₂.closed i hi with h | h
    · rcases h₁.closed i h with h | h
      · exact Or.inl h
      · exact Or.inr fun j hj hjn => h₂.mono j (h j hj hjn)
    · exact Or.inr h
  reachable i hi := by
    rcases h₂.reachable i hi with h | ⟨t, ht, hp⟩
    · rcases h₁.reachable i h with h | ⟨t, ht, hp⟩
      · exact Or.inl h
      · exact Or.inr ⟨t, by simp_all, hp⟩
    · exact Or.inr ⟨t, List.mem_cons_of_mem _ ht, hp⟩
  sources_seen t ht htn := by
    rcases List.mem_cons.mp ht with rfl | ht
    · exact h₂.mono _ (h₁.sources_seen _ (List.mem_singleton_self _) htn)
    · exact h₂.sources_seen t ht htn

/-- Searches from several nodes, given what a search from one node does. -/
lemma foldl_visit_spec {depth : Nat}
    (hvisit : ∀ v s, v.WellFormed n → v.unseen ≤ depth → Extends n succ [s] v (visit succ depth v s))
    (ss : List Nat) : ∀ v : Visited, v.WellFormed n → v.unseen ≤ depth →
      Extends n succ ss v (ss.foldl (visit succ depth) v) := by
  induction ss with
  | nil => exact fun v hv _ => Extends.refl hv
  | cons s ss ih =>
    intro v hv hd
    have h₁ := hvisit v s hv hd
    exact h₁.cons (ih _ h₁.wellFormed (h₁.unseen_le.trans hd))

/-- **A search from one node**, if the depth is at least the number of unseen nodes.

**Proof sketch.** Induction on the depth. A node that is done needs no search. Another one is
marked, which leaves one unseen node less, so the searches from its successors have depth
enough; together they see all successors, which is what the mark owes. -/
lemma visit_spec (depth : Nat) : ∀ (v : Visited) (s : Nat), v.WellFormed n → v.unseen ≤ depth →
    Extends n succ [s] v (visit succ depth v s) := by
  -- a node that is done has been seen already, or is no node
  have hdone : ∀ (v : Visited) (s : Nat), v.WellFormed n → v.isDone s = true →
      Extends n succ [s] v v := by
    intro v s hv hd
    refine { Extends.refl hv with sources_seen := ?_, reachable := fun i hi => Or.inl hi }
    intro t ht htn
    obtain rfl := List.mem_singleton.mp ht
    by_contra hnew
    rw [(isDone_eq_false_iff hv).mpr ⟨htn, hnew⟩] at hd
    exact absurd hd (by simp)
  induction depth with
  | zero =>
    intro v s hv hd
    exact hdone v s hv (isDone_of_unseen hv (by omega))
  | succ depth ih =>
    intro v s hv hd
    rw [visit]
    split_ifs with h
    · exact hdone v s hv h
    · obtain ⟨hs, hnew⟩ := (isDone_eq_false_iff hv).mp (by simpa using h)
      have hle := unseen_mark hv hs hnew
      have hrest := foldl_visit_spec ih (succ s) (v.mark s) (hv.mark hs) (by omega)
      have hseen := hrest.mono s (has_mark.mpr (Or.inr rfl))
      refine ⟨hrest.wellFormed, hrest.unseen_le.trans (by omega), ?_, ?_, ?_, ?_⟩
      · exact fun i hi => hrest.mono i (has_mark.mpr (Or.inl hi))
      · intro i hi
        rcases hrest.closed i hi with h | h
        · rcases has_mark.mp h with h | rfl
          · exact Or.inl h
          · exact Or.inr hrest.sources_seen
        · exact Or.inr h
      · intro i hi
        rcases hrest.reachable i hi with h | ⟨t, ht, htn, hp⟩
        · rcases has_mark.mp h with h | rfl
          · exact Or.inl h
          · exact Or.inr ⟨i, List.mem_singleton_self _, hs, .refl⟩
        · exact Or.inr ⟨s, List.mem_singleton_self _, hs, .head ⟨ht, htn⟩ hp⟩
      · intro t ht _
        rwa [List.mem_singleton.mp ht]

/-- **Depth-first search finds exactly what is reachable** from its roots by way of nodes.

**Proof sketch.** The search from all roots extends the empty state. So what it has seen is
reachable; and since it had seen nothing before, all that it has seen has its successors seen,
which by induction along a path puts everything reachable among what has been seen. -/
theorem mem_depthFirst {roots : List Nat} {t : Nat} :
    t ∈ depthFirst n succ roots ↔
      ∃ s ∈ roots, s < n ∧ Relation.ReflTransGen (fun i j => j ∈ succ i ∧ j < n) s t := by
  have hspec : Extends n succ roots (Visited.empty n) (roots.foldl (visit succ n) (Visited.empty n)) :=
    foldl_visit_spec (visit_spec n) roots _ (wellFormed_empty n) (unseen_empty n).le
  have hnone : ∀ i, ¬ (Visited.empty n).Has i := fun i h => by simp [Has, Visited.empty] at h
  constructor
  · intro h
    exact (hspec.reachable t h).resolve_left (hnone t)
  · rintro ⟨s, hs, hsn, hp⟩
    induction hp with
    | refl => exact hspec.sources_seen s hs hsn
    | tail _ hstep ih => exact ((hspec.closed _ ih).resolve_left (hnone _)) _ hstep.1 hstep.2

end GrammarForge
