import Mathlib

/-!
# Depth-First Search for a Cycle through One Node

A depth-first search that starts at a node and asks whether an edge leads back to it keeps the
nodes it has seen. A part of the search that did not come back to the start took the nodes
seen from `seen` to `seen'`: every node it added has all its successors among those seen, and
none of them is the start.

* `Fruitless`: what such a part of the search leaves; parts compose (`Fruitless.trans`).
* `Fruitless.visit`: the visit of one node, from the scan of its successors.
* `Fruitless.not_cycle`: when the whole search was fruitless, no cycle passes through the start.
* `unseen`: the number of nodes not yet seen, which bounds the depth of the search.
-/

namespace CycleSearch

open Relation List

variable {α : Type*} {r : α → α → Prop} {start p : α} {seen seen' seen'' : List α}

/-- The search went from one list of seen nodes to another and did not come back to the start. -/
structure Fruitless (r : α → α → Prop) (start : α) (seen seen' : List α) : Prop where
  grows : seen <+: seen'
  closed : ∀ v ∈ seen', v ∈ seen ∨ ∀ q, r v q → q ∈ seen' ∧ q ≠ start

theorem Fruitless.refl (seen : List α) : Fruitless r start seen seen :=
  ⟨prefix_rfl, fun _ hv => Or.inl hv⟩

/-- One part of the search after another. -/
theorem Fruitless.trans (h : Fruitless r start seen seen')
    (h' : Fruitless r start seen' seen'') : Fruitless r start seen seen'' := by
  refine ⟨h.grows.trans h'.grows, fun v hv => ?_⟩
  rcases h'.closed v hv with hv | hv
  · rcases h.closed v hv with hv | hv
    · exact Or.inl hv
    · exact Or.inr fun q hq => ⟨h'.grows.subset (hv q hq).1, (hv q hq).2⟩
  · exact Or.inr hv

/-- **The visit of a node**: it is marked, then its successors are searched. -/
theorem Fruitless.visit (h : Fruitless r start (seen ++ [p]) seen')
    (hp : ∀ q, r p q → q ∈ seen' ∧ q ≠ start) : Fruitless r start seen seen' := by
  refine ⟨(prefix_append seen [p]).trans h.grows, fun v hv => ?_⟩
  rcases h.closed v hv with hv | hv
  · rcases mem_append.mp hv with hv | hv
    · exact Or.inl hv
    · rw [mem_singleton.mp hv]
      exact Or.inr hp
  · exact Or.inr hv

/-- **A search that never came back to its start leaves no cycle through it.** -/
theorem Fruitless.not_cycle (h : Fruitless r start [] seen') (hs : start ∈ seen') :
    ¬ TransGen r start start := by
  have hstep : ∀ v ∈ seen', ∀ q, r v q → q ∈ seen' ∧ q ≠ start := by
    intro v hv
    exact (h.closed v hv).resolve_left not_mem_nil
  have hall : ∀ q, TransGen r start q → q ∈ seen' ∧ q ≠ start := by
    intro q hq
    induction hq with
    | single hq => exact hstep start hs _ hq
    | tail _ hq ih => exact hstep _ ih.1 _ hq
  exact fun hcycle => (hall start hcycle).2 rfl

section Depth

variable [DecidableEq α] {all : List α}

/-- The nodes that were not seen yet. -/
def unseen (all seen : List α) : ℕ := (all.filter (· ∉ seen)).length

/-- The nodes not seen get fewer. -/
theorem unseen_anti (h : seen ⊆ seen') : unseen all seen' ≤ unseen all seen := by
  refine List.Sublist.length_le (monotone_filter_right all fun v hv => ?_)
  have hv : v ∉ seen' := by simpa using hv
  simpa using fun hs => hv (h hs)

/-- The visit of a node makes them fewer by one. -/
theorem unseen_visit_lt (hp : p ∈ all) (hs : p ∉ seen) :
    unseen all (seen ++ [p]) < unseen all seen := by
  have hsub : all.filter (· ∉ seen ++ [p]) = (all.filter (· ∉ seen)).filter (· ≠ p) := by
    simp [and_comm]
  unfold unseen
  rw [hsub]
  exact length_filter_lt_length_iff_exists.mpr ⟨p, by simp [hp, hs], by simp⟩

end Depth

end CycleSearch
