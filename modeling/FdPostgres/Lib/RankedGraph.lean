import Mathlib

/-!
# Graphs with Ranks

A graph has ranks if the nodes can be numbered such that every edge leads to a higher number. Such
a graph has no cycle, and an edge that closes none can be added.

* `HasRanks.add`: **an edge whose end does not lead back to its start can be added.**
* `reach_of_supported`: **in a graph with ranks, nodes that are supported step by step can be
  reached from the root.**
-/

namespace RankedGraph

open Relation

variable {α : Type*} {r s : α → α → Prop}

/-- The nodes can be numbered such that every edge leads to a higher number. -/
def HasRanks (r : α → α → Prop) : Prop := ∃ rank : α → ℕ, ∀ a b, r a b → rank a < rank b

theorem HasRanks.mono (h : HasRanks r) (hsub : ∀ a b, s a b → r a b) : HasRanks s := by
  obtain ⟨rank, hrank⟩ := h
  exact ⟨rank, fun a b hab => hrank a b (hsub a b hab)⟩

open Classical in
/-- **An edge whose end does not lead back to its start can be added.** -/
theorem HasRanks.add (h : HasRanks r) {g e : α} (hback : ¬ ReflTransGen r e g)
    (hs : ∀ a b, s a b → r a b ∨ a = g ∧ b = e) : HasRanks s := by
  obtain ⟨rank, hrank⟩ := h
  -- everything behind the new edge is moved up
  refine ⟨fun a => if ReflTransGen r e a then rank a + rank g + 1 else rank a, fun a b hab => ?_⟩
  dsimp only
  rcases hs a b hab with hr | ⟨rfl, rfl⟩
  · have hlt := hrank a b hr
    by_cases ha : ReflTransGen r e a
    · rw [if_pos ha, if_pos (ha.tail hr)]
      omega
    · rw [if_neg ha]
      split
      · omega
      · exact hlt
  · rw [if_neg hback, if_pos ReflTransGen.refl]
    omega

/-- **In a graph with ranks, nodes that are supported step by step can be reached from the root.**
Edges to the root need not have ranks. -/
theorem reach_of_supported {root : α} (h : HasRanks fun a b => r a b ∧ b ≠ root)
    {S : α → Prop} (hS : ∀ x, S x → x = root ∨ ∃ y, S y ∧ r y x) {x : α} (hx : S x) :
    ReflTransGen r root x := by
  obtain ⟨rank, hrank⟩ := h
  induction hn : rank x using Nat.strongRecOn generalizing x with
  | _ n ih =>
    by_cases hroot : x = root
    · rw [hroot]
    obtain ⟨y, hy, hyx⟩ := (hS x hx).resolve_left hroot
    exact (ih _ (hn ▸ hrank y x ⟨hyx, hroot⟩) hy rfl).tail hyx

end RankedGraph
