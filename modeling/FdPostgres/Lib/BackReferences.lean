import Mathlib

/-!
# Lists Told by Back References

A list can be told item by item: an item is either the next element itself, or says that the next
elements repeat those a given distance before. The repeated part may run into its own copy, so
`copy 5 1` after a single element tells the same element five times more.

* `Repeats S m off len`: the `len` elements of `S` from `m` on repeat those `off` before.
* `Item`, `Item.Fits`, `Tells`: items, and a list of items that tells `S` from one place to
  another.
* `doublingCopy` carries out a back reference with copies that never overlap: each time the whole
  distance is copied, which doubles the distance. **It gives the elements that the reference
  stands for** (`doublingCopy_take`).

Reads outside a list give the default `d`.
-/

namespace BackReferences

open List

variable {α : Type*} (d : α)

/-! ### Repetitions -/

/-- From place `m` on, the list repeats for `len` elements what stands `off` before. -/
structure Repeats (S : List α) (m off len : ℕ) : Prop where
  off_pos : 1 ≤ off
  off_le : off ≤ m
  end_le : m + len ≤ S.length
  same : ∀ i < len, S.getD (m + i) d = S.getD (m + i - off) d

variable {d} {S : List α} {m off len n : ℕ}

theorem Repeats.mono (h : Repeats d S m off len) (hn : n ≤ len) : Repeats d S m off n :=
  ⟨h.off_pos, h.off_le, by have := h.end_le; omega, fun i hi => h.same i (by omega)⟩

/-- **The rest of a repetition has twice the distance** once the distance itself is done. -/
theorem Repeats.double (h : Repeats d S m off len) (hoff : off ≤ len) :
    Repeats d S (m + off) (off + off) (len - off) where
  off_pos := by have := h.off_pos; omega
  off_le := by have := h.off_le; omega
  end_le := by have := h.end_le; omega
  same := by
    intro i hi
    have hfar := h.same (off + i) (by omega)
    have hnear := h.same i (by omega)
    rw [show m + (off + i) = m + off + i by omega,
      show m + off + i - off = m + i by omega, hnear] at hfar
    rw [hfar, show m + off + i - (off + off) = m + i - off by omega]

/-! ### Copying -/

variable (d)

/-- The `n` elements that start `off` before the end of a list. -/
def copyBack (out : List α) (off n : ℕ) : List α :=
  (range n).map fun i => out.getD (out.length - off + i) d

/-- Append `len` elements from `off` before the end, in copies that do not overlap: `off` elements
at a time, with the distance doubled each time. -/
def doublingCopy : ℕ → ℕ → ℕ → List α → List α
  | 0, _, _, out => out
  | fuel + 1, off, len, out =>
      if off < len then doublingCopy fuel (off + off) (len - off) (out ++ copyBack d out off off)
      else out ++ copyBack d out off len

variable {d}

/-- One element more of a list. -/
theorem take_append_getD {m : ℕ} (h : m < S.length) :
    S.take m ++ [S.getD m d] = S.take (m + 1) := by
  rw [take_add_one, getElem?_eq_getElem h, getD_eq_getElem S d h]
  rfl

/-- A copy that does not overlap gives the next elements of a repetition. -/
theorem take_append_copyBack (h : Repeats d S m off len) (hn : n ≤ len) (hoff : n ≤ off) :
    S.take m ++ copyBack d (S.take m) off n = S.take (m + n) := by
  have hend := h.end_le
  have hle := h.off_le
  have hlen : (S.take m).length = m := by
    rw [length_take]
    omega
  induction n with
  | zero => simp [copyBack]
  | succ n ih =>
    have hprev := ih (by omega) (by omega)
    rw [copyBack, range_succ, map_append, ← append_assoc]
    rw [copyBack] at hprev
    rw [hprev, hlen]
    have hread : (S.take m).getD (m - off + n) d = S.getD (m + n) d := by
      rw [h.same n (by omega), show m + n - off = m - off + n by omega]
      simp only [getD_eq_getElem?_getD]
      rw [getElem?_take_of_lt (by omega)]
    rw [map_singleton, hread]
    exact take_append_getD (by omega)

/-- **A back reference carried out by doubling** gives the elements it stands for. -/
theorem doublingCopy_take {fuel : ℕ} (h : Repeats d S m off len) (hfuel : len < fuel) :
    doublingCopy d fuel off len (S.take m) = S.take (m + len) := by
  induction fuel generalizing m off len with
  | zero => omega
  | succ fuel ih =>
    rw [doublingCopy]
    by_cases hoff : off < len
    · have hpos := h.off_pos
      rw [if_pos hoff, take_append_copyBack h (Nat.le_of_lt hoff) (Nat.le_refl _),
        ih (h.double (Nat.le_of_lt hoff)) (by omega)]
      congr 1
      omega
    · rw [if_neg hoff]
      exact take_append_copyBack h (Nat.le_refl _) (by omega)

/-- The loop comes to its end. -/
theorem length_doublingCopy {fuel : ℕ} (hoff : 0 < off) (hfuel : len < fuel) :
    (doublingCopy d fuel off len S).length = S.length + len := by
  induction fuel generalizing off len S with
  | zero => omega
  | succ fuel ih =>
    rw [doublingCopy]
    split_ifs
    · rw [ih (by omega) (by omega)]
      simp only [copyBack, length_append, length_map, length_range]
      omega
    · simp [copyBack]

/-- What was there stays. -/
theorem prefix_doublingCopy {fuel : ℕ} : S <+: doublingCopy d fuel off len S := by
  induction fuel generalizing off len S with
  | zero => exact prefix_rfl
  | succ fuel ih =>
    rw [doublingCopy]
    split_ifs
    · exact (prefix_append ..).trans ih
    · exact prefix_append ..

/-- What is told at one place: the next element, or that the next `len` elements repeat those `off`
before. -/
inductive Item (α : Type*) where
  | literal (a : α)
  | copy (len off : ℕ)
  deriving DecidableEq

/-- How many elements an item tells. -/
def Item.size : Item α → ℕ
  | .literal _ => 1
  | .copy len _ => len

variable (d)

/-- What an item tells is what the list has from a place on. -/
def Item.Fits (S : List α) (m : ℕ) : Item α → Prop
  | .literal a => m < S.length ∧ S.getD m d = a
  | .copy len off => Repeats d S m off len

/-- The items tell the elements of the list from one place to another. -/
def Tells (S : List α) : ℕ → List (Item α) → ℕ → Prop
  | m, [], n => m = n
  | m, item :: l, n => item.Fits d S m ∧ Tells S (m + item.size) l n

variable {d} {item : Item α} {l : List (Item α)} {n : ℕ}

/-- Items do not tell backwards. -/
theorem Tells.le (h : Tells d S m l n) : m ≤ n := by
  induction l generalizing m with
  | nil => exact Nat.le_of_eq h
  | cons item l ih => exact Nat.le_trans (Nat.le_add_right ..) (ih h.2)

/-- Items in two parts. -/
theorem Tells.split {l' : List (Item α)} (h : Tells d S m (l ++ l') n) :
    ∃ mid, Tells d S m l mid ∧ Tells d S mid l' n := by
  induction l generalizing m with
  | nil => exact ⟨m, rfl, h⟩
  | cons item l ih =>
    obtain ⟨mid, hl, hl'⟩ := ih h.2
    exact ⟨mid, ⟨h.1, hl⟩, hl'⟩

/-- One item more. -/
theorem Tells.concat (h : Tells d S m l n) (hitem : item.Fits d S n) :
    Tells d S m (l ++ [item]) (n + item.size) := by
  induction l generalizing m with
  | nil =>
    obtain rfl : m = n := h
    exact ⟨hitem, rfl⟩
  | cons first l ih => exact ⟨h.1, ih h.2⟩

end BackReferences
