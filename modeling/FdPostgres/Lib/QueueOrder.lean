import Mathlib

/-!
# The Order of Two Members of a Queue

A queue is a list without duplicates. `Ahead l a b` says that `a` stands before `b` in it.

* `Ahead.asymm`, `ahead_or_ahead`: the members of a queue are totally ordered.
* `exists_last`: of the members with a property one is the last.
* `mem_takeWhile_iff`: the members ahead of `b` are those a scan sees before it meets `b`.
* `Ahead.erase`, `Ahead.of_concat`: the order after one member left the queue, and in front of
  one that was put behind it.
-/

namespace QueueOrder

open List

variable {α : Type*}

/-- The first element stands before the second one. -/
def Ahead (l : List α) (a b : α) : Prop := [a, b].Sublist l

variable {l : List α} {a b x : α}

theorem Ahead.left_mem (h : Ahead l a b) : a ∈ l := h.subset (by simp)

theorem Ahead.right_mem (h : Ahead l a b) : b ∈ l := h.subset (by simp)

theorem Ahead.ne (h : Ahead l a b) (hl : l.Nodup) : a ≠ b := by
  have hab : [a, b].Nodup := hl.sublist h
  simpa using hab

/-- The order in a queue with a new head. -/
theorem ahead_cons_iff : Ahead (x :: l) a b ↔ Ahead l a b ∨ (a = x ∧ b ∈ l) := by
  constructor
  · intro h
    rcases sublist_cons_iff.mp h with h | ⟨r, hr, h⟩
    · exact .inl h
    · injection hr with h₁ h₂
      subst h₁ h₂
      exact .inr ⟨rfl, singleton_sublist.mp h⟩
  · rintro (h | ⟨rfl, h⟩)
    · exact h.trans (sublist_cons_self x l)
    · exact (singleton_sublist.mpr h).cons_cons a

/-- **Two members do not stand before each other.** -/
theorem Ahead.asymm (hl : l.Nodup) (h : Ahead l a b) : ¬ Ahead l b a := by
  induction l with
  | nil => exact absurd h.left_mem (not_mem_nil)
  | cons x l ih =>
    obtain ⟨hx, hl⟩ := nodup_cons.mp hl
    intro h'
    rcases ahead_cons_iff.mp h with hab | ⟨hax, hb⟩
    · rcases ahead_cons_iff.mp h' with hba | ⟨hbx, -⟩
      · exact ih hl hab hba
      · exact hx (hbx ▸ hab.right_mem)
    · rcases ahead_cons_iff.mp h' with hba | ⟨hbx, -⟩
      · exact hx (hax ▸ hba.right_mem)
      · exact hx (hbx ▸ hb)

/-- **Of two members one stands before the other.** -/
theorem ahead_or_ahead (ha : a ∈ l) (hb : b ∈ l) (hab : a ≠ b) : Ahead l a b ∨ Ahead l b a := by
  induction l with
  | nil => cases ha
  | cons x l ih =>
    simp only [ahead_cons_iff]
    rcases mem_cons.mp ha with hax | hal
    · have hbl : b ∈ l := (mem_cons.mp hb).resolve_left (hax ▸ hab.symm)
      exact .inl (.inr ⟨hax, hbl⟩)
    · rcases mem_cons.mp hb with hbx | hbl
      · exact .inr (.inr ⟨hbx, hal⟩)
      · rcases ih hal hbl with h | h
        · exact .inl (.inl h)
        · exact .inr (.inl h)

/-- **Of the members with a property one is the last.** -/
theorem exists_last {P : α → Prop} (ha : a ∈ l) (hP : P a) :
    ∃ z ∈ l, P z ∧ ∀ y ∈ l, P y → y = z ∨ Ahead l y z := by
  induction l generalizing a with
  | nil => cases ha
  | cons x l ih =>
    by_cases hex : ∃ y ∈ l, P y
    · obtain ⟨y, hy, hPy⟩ := hex
      obtain ⟨z, hz, hPz, hlast⟩ := ih hy hPy
      refine ⟨z, mem_cons_of_mem x hz, hPz, fun y hy hPy => ?_⟩
      rw [ahead_cons_iff]
      rcases mem_cons.mp hy with hyx | hy
      · exact .inr (.inr ⟨hyx, hz⟩)
      · exact (hlast y hy hPy).imp_right .inl
    · have hax : a = x := (mem_cons.mp ha).resolve_right fun h => hex ⟨a, h, hP⟩
      refine ⟨x, mem_cons_self, hax ▸ hP, fun y hy hPy => ?_⟩
      exact .inl ((mem_cons.mp hy).resolve_right fun h => hex ⟨y, h, hPy⟩)

/-- **The scan up to a member meets exactly those ahead of it.** -/
theorem mem_takeWhile_iff [DecidableEq α] (hl : l.Nodup) (hb : b ∈ l) :
    a ∈ l.takeWhile (· != b) ↔ Ahead l a b := by
  induction l with
  | nil => cases hb
  | cons x l ih =>
    obtain ⟨hx, hl⟩ := nodup_cons.mp hl
    rw [ahead_cons_iff]
    by_cases hxb : x = b
    · subst hxb
      have hno : ¬ (Ahead l a x ∨ (a = x ∧ x ∈ l)) := by
        rintro (h | ⟨-, h⟩)
        · exact hx h.right_mem
        · exact hx h
      simp [hno]
    · have hbl : b ∈ l := (mem_cons.mp hb).resolve_left (Ne.symm hxb)
      rw [takeWhile_cons_of_pos (by simpa using hxb), mem_cons, ih hl hbl]
      constructor
      · rintro (h | h)
        · exact .inr ⟨h, hbl⟩
        · exact .inl h
      · rintro (h | ⟨h, -⟩)
        · exact .inr h
        · exact .inl h

/-- The order is kept when another member leaves. -/
theorem Ahead.erase [DecidableEq α] (hl : l.Nodup) (h : Ahead l a b) (ha : a ≠ x) (hb : b ≠ x) :
    Ahead (l.erase x) a b := by
  have hf := List.Sublist.filter (· != x) h
  rw [filter_cons_of_pos (by simpa using ha), filter_cons_of_pos (by simpa using hb)] at hf
  rw [hl.erase_eq_filter]
  exact hf

/-- The order is kept when a member is put behind the queue. -/
theorem Ahead.concat (h : Ahead l a b) : Ahead (l ++ [x]) a b := h.trans (sublist_append_left l [x])

/-- All members stand before the one put behind the queue. -/
theorem ahead_concat_self (h : a ∈ l) : Ahead (l ++ [x]) a x :=
  (singleton_sublist.mpr h).append (List.Sublist.refl [x])

/-- The order among the members in front of the last one. -/
theorem Ahead.of_concat (hl : (l ++ [x]).Nodup) (h : Ahead (l ++ [x]) a b) (hb : b ≠ x) :
    Ahead l a b := by
  have hbl : b ∈ l := by
    have hmem := h.right_mem
    rw [mem_append, mem_singleton] at hmem
    exact hmem.resolve_right hb
  have hax : a ≠ x := by
    rintro rfl
    exact h.asymm hl (ahead_concat_self hbl)
  have hal : a ∈ l := by
    have hmem := h.left_mem
    rw [mem_append, mem_singleton] at hmem
    exact hmem.resolve_right hax
  rcases ahead_or_ahead hal hbl (h.ne hl) with h' | h'
  · exact h'
  · exact absurd h'.concat (h.asymm hl)

end QueueOrder
