import Mathlib

/-!
# Two Kinds of Items Allocated in Alternating Batches

A file is extended in rounds. Round `i` first adds a batch of items of a first kind and then
a batch of items of a second kind. Two cumulative counts describe the rounds: `a i` items of
the first kind and `b i` of the second exist at the end of round `i`. Items are numbered
within their kind, and every item takes the next position of the file, starting from
position 1.

* `Layout` is a pair of cumulative counts that do not decrease up to a last round.
* `Layout.FirstAt x y` says that item `x` of the first kind, counted from zero, is at
  position `y`; `Layout.SecondAt n y` the same for item `n` of the second kind, counted from
  one.

## Main results

* `Layout.firstAt_inj`, `Layout.secondAt_inj`, `Layout.firstAt_ne_secondAt`: no two items
  share a position.
* `Layout.exists_item`: every position up to the end of the file is taken.
* `Layout.firstAt_mem_Icc`, `Layout.secondAt_mem_Icc`: no item is outside the file.
-/

namespace Interleaving

/-- The count at the end of the round before, zero before the first round. -/
def before (f : ℕ → ℕ) (i : ℕ) : ℕ :=
  if i = 0 then 0 else f (i - 1)

/-- Cumulative counts of two kinds of items over the rounds `0 .. last`. -/
structure Layout where
  a : ℕ → ℕ
  b : ℕ → ℕ
  last : ℕ
  a_le : ∀ i, i < last → a i ≤ a (i + 1)
  b_le : ∀ i, i < last → b i ≤ b (i + 1)

variable {f : ℕ → ℕ} {i j last x : ℕ}

section Steps

variable (h : ∀ i, i < last → f i ≤ f (i + 1))

include h

/-- A count that does not decrease from one round to the next does not decrease at all. -/
theorem le_of_step_le (hij : i ≤ j) (hj : j ≤ last) : f i ≤ f j := by
  induction j with
  | zero => rw [Nat.le_zero.mp hij]
  | succ j ih =>
    rcases lt_or_ge i (j + 1) with hlt | hge
    · exact (ih (by omega) (by omega)).trans (h j (by omega))
    · rw [le_antisymm hij hge]

/-- The count before a round is at most the count at the end of an earlier-or-equal one. -/
theorem le_before_of_lt (hij : i < j) (hj : j ≤ last) : f i ≤ before f j := by
  rw [before, if_neg (by omega)]
  exact le_of_step_le h (by omega) (by omega)

/-- The count before a round is at most the count at its end. -/
theorem before_le (hi : i ≤ last) : before f i ≤ f i := by
  rw [before]
  split
  · omega
  · exact le_of_step_le h (by omega) hi

/-- The count before a round does not decrease either. -/
theorem before_mono (hij : i ≤ j) (hj : j ≤ last) : before f i ≤ before f j := by
  rcases lt_or_ge i j with hlt | hge
  · exact (before_le h (by omega)).trans (le_before_of_lt h hlt hj)
  · rw [le_antisymm hij hge]

end Steps

/-- A number below the count at the end of the last round belongs to the batch of exactly one
round. -/
theorem exists_round : ∀ {last : ℕ}, x < f last → ∃ i ≤ last, before f i ≤ x ∧ x < f i
  | 0, h => ⟨0, le_rfl, by simp [before], h⟩
  | last + 1, h => by
      by_cases hx : x < f last
      · obtain ⟨i, hi, hb, hlt⟩ := exists_round hx
        exact ⟨i, by omega, hb, hlt⟩
      · exact ⟨last + 1, le_rfl, by simp only [before]; simpa using hx, h⟩

namespace Layout

variable (L : Layout)

/-- The number of positions in the file. -/
def size : ℕ :=
  L.a L.last + L.b L.last

/-- Item `x` of the first kind is at position `y`. -/
def FirstAt (x y : ℕ) : Prop :=
  ∃ i ≤ L.last, before L.a i ≤ x ∧ x < L.a i ∧ y = x + before L.b i + 1

/-- Item `n` of the second kind is at position `y`. -/
def SecondAt (n y : ℕ) : Prop :=
  ∃ i ≤ L.last, before L.b i < n ∧ n ≤ L.b i ∧ y = L.a i + n

variable {L} {y n y' x' : ℕ}

/-- Positions of the first kind are as far apart as their items, or farther. -/
theorem firstAt_add_le (h : L.FirstAt x y) (h' : L.FirstAt x' y') (hle : x ≤ x') :
    y + (x' - x) ≤ y' := by
  obtain ⟨i, hi, hb, hlt, hy⟩ := h
  obtain ⟨j, hj, hb', hlt', hy'⟩ := h'
  rcases lt_or_ge j i with hij | hij
  · have := le_before_of_lt L.a_le hij hi
    omega
  · have := before_mono L.b_le hij hj
    omega

/-- Positions of the second kind are as far apart as their items, or farther. -/
theorem secondAt_add_le {n' : ℕ} (h : L.SecondAt n y) (h' : L.SecondAt n' y') (hle : n ≤ n') :
    y + (n' - n) ≤ y' := by
  obtain ⟨i, hi, hlt, hb, hy⟩ := h
  obtain ⟨j, hj, hlt', hb', hy'⟩ := h'
  rcases lt_or_ge j i with hij | hij
  · have := le_before_of_lt L.b_le hij hi
    omega
  · have := le_of_step_le L.a_le hij hj
    omega

/-- Two items of the first kind with one position are the same. -/
theorem firstAt_inj (h : L.FirstAt x y) (h' : L.FirstAt x' y) : x = x' := by
  have := firstAt_add_le h h'
  have := firstAt_add_le h' h
  omega

/-- Two items of the second kind with one position are the same. -/
theorem secondAt_inj {n' : ℕ} (h : L.SecondAt n y) (h' : L.SecondAt n' y) : n = n' := by
  have := secondAt_add_le h h'
  have := secondAt_add_le h' h
  omega

/-- An item of the first kind has one position. -/
theorem firstAt_fun (h : L.FirstAt x y) (h' : L.FirstAt x y') : y = y' := by
  have := firstAt_add_le h h' le_rfl
  have := firstAt_add_le h' h le_rfl
  omega

/-- An item of the second kind has one position. -/
theorem secondAt_fun (h : L.SecondAt n y) (h' : L.SecondAt n y') : y = y' := by
  have := secondAt_add_le h h' le_rfl
  have := secondAt_add_le h' h le_rfl
  omega

/-- An item of the first kind is not where an item of the second kind would be: in no round
does its position fall into the second batch. -/
theorem firstAt_not_in_second (h : L.FirstAt x y) (hi : i ≤ L.last) :
    ¬ (L.a i + before L.b i < y ∧ y ≤ L.a i + L.b i) := by
  obtain ⟨j, hj, hle, hlt, hy⟩ := h
  rcases lt_or_ge i j with hij | hij
  · have h1 := le_before_of_lt L.a_le hij hj
    have h2 := le_before_of_lt L.b_le hij hj
    omega
  · have h1 := le_of_step_le L.a_le hij hi
    have h2 := before_mono L.b_le hij hi
    omega

/-- Items of different kinds have different positions. -/
theorem firstAt_ne_secondAt (h : L.FirstAt x y) (h' : L.SecondAt n y') : y ≠ y' := by
  rintro rfl
  obtain ⟨i, hi, hlt, hle, hy⟩ := h'
  exact firstAt_not_in_second h hi ⟨by omega, by omega⟩

/-- Every position of the file is taken by an item. -/
theorem exists_item (hpos : 1 ≤ y) (hy : y ≤ L.size) :
    (∃ x, L.FirstAt x y) ∨ ∃ n, L.SecondAt n y := by
  have hend : y - 1 < L.a L.last + L.b L.last := by
    simp only [size] at hy
    omega
  obtain ⟨i, hi, hb, hlt⟩ := exists_round (f := fun i => L.a i + L.b i) hend
  have hsum : before (fun i => L.a i + L.b i) i = before L.a i + before L.b i := by
    simp only [before]
    split <;> rfl
  by_cases hfirst : y ≤ L.a i + before L.b i
  · exact .inl ⟨y - 1 - before L.b i, i, hi, by omega, by omega, by omega⟩
  · exact .inr ⟨y - L.a i, i, hi, by omega, by omega, by omega⟩

/-- An item of the first kind is inside the file and was counted. -/
theorem firstAt_mem_Icc (h : L.FirstAt x y) : x < L.a L.last ∧ y ∈ Set.Icc 1 L.size := by
  obtain ⟨i, hi, hle, hlt, hy⟩ := h
  have h1 := le_of_step_le L.a_le hi le_rfl
  have h2 := (before_mono L.b_le hi le_rfl).trans (before_le L.b_le le_rfl)
  exact ⟨by omega, by omega, by simp only [size]; omega⟩

/-- An item of the second kind is inside the file and was counted. -/
theorem secondAt_mem_Icc (h : L.SecondAt n y) : 1 ≤ n ∧ n ≤ L.b L.last ∧ y ∈ Set.Icc 1 L.size := by
  obtain ⟨i, hi, hlt, hle, hy⟩ := h
  have h1 := le_of_step_le L.a_le hi le_rfl
  have h2 := le_of_step_le L.b_le hi le_rfl
  exact ⟨by omega, by omega, by omega, by simp only [size]; omega⟩

end Layout

end Interleaving
