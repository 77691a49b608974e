import Mathlib.Data.List.Basic

/-!
# Counting the Uniform Groups of a Sorted List

A list that is sorted by a first comparison falls into groups of elements that the comparison does
not tell apart. One pass over the list that compares neighbours counts the elements of the groups
whose elements agree in a second comparison as well.

* `Supports`: whatever agrees with an element in the first comparison agrees with it in the second.
* `count_eq`: **the pass counts the elements with that property.**
-/

namespace GroupScan

open Std

variable {α : Type} (first last : α → α → Ordering)

/-- The elements of `l` in the group of `r` agree with `r` in the last comparison. -/
def Supports (l : List α) (r : α) : Prop := ∀ r' ∈ l, first r r' = .eq → last r r' = .eq

instance (l : List α) : DecidablePred (Supports first last l) := fun r =>
  inferInstanceAs (Decidable (∀ r' ∈ l, first r r' = .eq → last r r' = .eq))

/-- The pass from the element behind `prev` on, in a group with `size` elements and a number of
violations so far. -/
def scan : α → List α → ℕ → ℕ → ℕ → ℕ
  | _, [], size, violations, supporting => if violations = 0 then supporting + size else supporting
  | prev, x :: rest, size, violations, supporting =>
      if first prev x ≠ .eq then
        scan x rest 1 0 (if violations = 0 then supporting + size else supporting)
      else
        scan x rest (size + 1) (if last prev x ≠ .eq then violations + 1 else violations) supporting

/-- The pass over a list. -/
def count : List α → ℕ
  | [] => 0
  | x :: rest => scan first last x rest 1 0 0

variable [TransCmp first] [TransCmp last] {g rest : List α} {prev : α}

/-- A group with nothing of it behind it counts as a whole or not at all. -/
theorem countP_append (hprev : prev ∈ g) (hg : ∀ a ∈ g, first prev a = .eq)
    (hrest : ∀ b ∈ rest, first prev b ≠ .eq) :
    (g ++ rest).countP (Supports first last (g ++ rest)) =
      (if ∀ a ∈ g, last prev a = .eq then g.length else 0) +
        rest.countP (Supports first last rest) := by
  have hsame : ∀ a ∈ g, Supports first last (g ++ rest) a ↔ ∀ a' ∈ g, last prev a' = .eq := by
    intro a ha
    have hne : ∀ b ∈ rest, first a b ≠ .eq := fun b hb h =>
      hrest b hb (TransCmp.eq_trans (hg a ha) h)
    constructor
    · intro h a' ha'
      have hto : ∀ c ∈ g, last a c = .eq := fun c hc =>
        h c (List.mem_append_left _ hc) (TransCmp.eq_trans (OrientedCmp.eq_symm (hg a ha))
          (hg c hc))
      exact TransCmp.eq_trans (OrientedCmp.eq_symm (hto prev hprev)) (hto a' ha')
    · intro h c hc hac
      rcases List.mem_append.mp hc with hc | hc
      · exact TransCmp.eq_trans (OrientedCmp.eq_symm (h a ha)) (h c hc)
      · exact absurd hac (hne c hc)
  have hother : ∀ b ∈ rest, Supports first last (g ++ rest) b ↔ Supports first last rest b := by
    intro b hb
    refine ⟨fun h c hc => h c (List.mem_append_right _ hc), fun h c hc hbc => ?_⟩
    rcases List.mem_append.mp hc with hc | hc
    · exact absurd (TransCmp.eq_trans (hg c hc) (OrientedCmp.eq_symm hbc)) (hrest b hb)
    · exact h c hc hbc
  rw [List.countP_append]
  congr 1
  · split
    · rename_i h
      exact List.countP_eq_length.mpr fun a ha => by simpa using (hsame a ha).mpr h
    · rename_i h
      exact List.countP_eq_zero.mpr fun a ha => by simpa using mt (hsame a ha).mp h
  · exact List.countP_congr fun b hb => by simpa using hother b hb

/-- **The pass counts what supports**, from a group `g` on. -/
theorem scan_eq (g rest : List α) (prev : α) (violations supporting : ℕ)
    (hsorted : (g ++ rest).Pairwise fun a b => (first a b).isLE) (hprev : prev ∈ g)
    (hg : ∀ a ∈ g, first prev a = .eq)
    (hviolations : violations = 0 ↔ ∀ a ∈ g, last prev a = .eq) :
    scan first last prev rest g.length violations supporting =
      supporting + (g ++ rest).countP (Supports first last (g ++ rest)) := by
  induction rest generalizing g prev violations supporting with
  | nil =>
      rw [scan, countP_append first last hprev hg (by simp)]
      simp only [← hviolations]
      split <;> rfl
  | cons x rest ih =>
      by_cases hx : first prev x = .eq
      · -- The element joins the group.
        have hfirst : ∀ a ∈ g ++ [x], first x a = .eq := List.forall_mem_append.mpr
          ⟨fun a ha => TransCmp.eq_trans (OrientedCmp.eq_symm hx) (hg a ha),
            by simp [ReflCmp.compare_self]⟩
        have hmore := ih (g ++ [x]) x (if last prev x ≠ .eq then violations + 1 else violations)
          supporting (by simpa using hsorted) (by simp) hfirst (by
            split
            · rename_i hlast
              exact ⟨fun h => absurd h (by omega), fun h => absurd
                (OrientedCmp.eq_symm (h prev (List.mem_append_left _ hprev))) hlast⟩
            · rename_i hlast
              rw [not_not] at hlast
              rw [hviolations]
              refine ⟨fun h => List.forall_mem_append.mpr ⟨fun a ha =>
                TransCmp.eq_trans (OrientedCmp.eq_symm hlast) (h a ha),
                  by simp [ReflCmp.compare_self]⟩, fun h a ha =>
                TransCmp.eq_trans hlast (h a (List.mem_append_left _ ha))⟩)
        rw [scan, if_neg (not_not.mpr hx)]
        simpa using hmore
      · -- The group ends, since the rest is greater.
        obtain ⟨-, hrest, hle⟩ := List.pairwise_append.mp hsorted
        have hlt : first prev x = .lt := by
          have := hle prev hprev x List.mem_cons_self
          cases h : first prev x <;> simp_all
        have hne : ∀ b ∈ x :: rest, first prev b ≠ .eq :=
          List.forall_mem_cons.mpr ⟨hx, fun b hb => by
            rw [TransCmp.lt_of_lt_of_isLE hlt ((List.pairwise_cons.mp hrest).1 b hb)]
            decide⟩
        rw [scan, if_pos hx, countP_append first last hprev hg hne]
        refine (ih [x] x 0 _ hrest (by simp) (by simp [ReflCmp.compare_self])
          (by simp [ReflCmp.compare_self])).trans ?_
        simp only [← hviolations, List.singleton_append]
        split <;> omega

/-- **The pass counts the elements that support.** -/
theorem count_eq {l : List α} (hsorted : l.Pairwise fun a b => (first a b).isLE) :
    count first last l = l.countP (Supports first last l) := by
  cases l with
  | nil => rfl
  | cons x rest =>
      have h := scan_eq first last [x] rest x 0 0 hsorted (by simp)
        (by simp [ReflCmp.compare_self]) (by simp [ReflCmp.compare_self])
      rwa [Nat.zero_add] at h

end GroupScan
