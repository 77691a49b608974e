import Mathlib

/-!
# Ascending Choices

The ways to choose numbers below a bound, as a recursion over nested loops finds them: each loop
starts behind the number of the loop around it and stores its number in a buffer that all loops
share.

* `ascending`: the choices, as ascending lists in the order in which they are found.
  `mem_ascending`, `pairwise_ascending`, `length_ascending`: **they are all choices, in
  lexicographic order, and there are as many as the binomial coefficient says.**
* `forAscending`: the recursion, with an action on the filled buffer. `forAscending_eq`: **it
  carries out the action for each choice in turn.**
* `addRow`: append to an array that grows under a check of its new length.
  `foldlM_addRow`: **all rows are appended, or the outcome is that of a check that fails.**
-/

namespace Combinations

open List

/-! ### The choices -/

/-- The ascending lists of `k` numbers from `start` up to `n`. -/
def ascending (n : ℕ) : ℕ → ℕ → List (List ℕ)
  | 0, _ => [[]]
  | k + 1, start =>
      (range' start (n - start)).flatMap fun i => (ascending n k (i + 1)).map (i :: ·)

variable {n : ℕ}

/-- **All ascending lists** are found. -/
theorem mem_ascending {k start : ℕ} {l : List ℕ} :
    l ∈ ascending n k start ↔
      l.length = k ∧ l.Pairwise (· < ·) ∧ ∀ x ∈ l, start ≤ x ∧ x < n := by
  induction k generalizing start l with
  | zero =>
    rw [ascending, mem_singleton, length_eq_zero_iff]
    exact ⟨fun h => by simp [h], fun h => h.1⟩
  | succ k ih =>
    simp only [ascending, mem_flatMap, mem_map, ih, mem_range'_1]
    constructor
    · rintro ⟨i, hi, l, ⟨hlen, hasc, hl⟩, rfl⟩
      refine ⟨congrArg (· + 1) hlen, pairwise_cons.mpr ⟨fun x hx => (hl x hx).1, hasc⟩,
        forall_mem_cons.mpr ⟨by omega, fun x hx => ?_⟩⟩
      have := hl x hx
      omega
    · rintro ⟨hlen, hasc, hl⟩
      cases l with
      | nil => cases hlen
      | cons i l =>
        rw [pairwise_cons] at hasc
        rw [forall_mem_cons] at hl
        exact ⟨i, by omega, l, ⟨Nat.succ.inj hlen, hasc.2, fun x hx =>
          ⟨hasc.1 x hx, (hl.2 x hx).2⟩⟩, rfl⟩

/-- **In lexicographic order.** -/
theorem pairwise_ascending (k start : ℕ) : (ascending n k start).Pairwise (· < ·) := by
  induction k generalizing start with
  | zero => exact pairwise_singleton _ _
  | succ k ih =>
    rw [ascending, pairwise_flatMap]
    refine ⟨fun i _ => pairwise_map.mpr ((ih (i + 1)).imp fun h =>
      cons_lt_cons_iff.mpr (.inr ⟨rfl, h⟩)), (pairwise_lt_range' 1).imp fun {i j} hij => ?_⟩
    simp only [mem_map]
    rintro _ ⟨l, -, rfl⟩ _ ⟨l', -, rfl⟩
    exact cons_lt_cons_iff.mpr (.inl hij)

/-- The first number is `start` or it is greater. -/
theorem ascending_succ {k start : ℕ} (h : start < n) :
    ascending n (k + 1) start =
      (ascending n k (start + 1)).map (start :: ·) ++ ascending n (k + 1) (start + 1) := by
  obtain ⟨m, hm⟩ : ∃ m, n - start = m + 1 := ⟨n - start - 1, by omega⟩
  rw [ascending, hm, range'_succ, flatMap_cons, ascending, show n - (start + 1) = m by omega]

/-- **As many as the binomial coefficient.** -/
theorem length_ascending (k start : ℕ) : (ascending n k start).length = (n - start).choose k := by
  induction k generalizing start with
  | zero => simp [ascending]
  | succ k ih =>
    induction hm : n - start generalizing start with
    | zero => simp [ascending, hm]
    | succ m ihm =>
      rw [ascending_succ (by omega), length_append, length_map, ih,
        ihm (start + 1) (by omega), show n - (start + 1) = m by omega, Nat.choose_succ_succ]

/-! ### The recursion -/

section Recursion

variable {σ ε : Type} (leaf : List ℕ → σ → Except ε (List ℕ × σ))

/-- The loops from `index` on, with numbers from `start` on. -/
def forAscending (n : ℕ) : ℕ → ℕ → ℕ → List ℕ → σ → Except ε (List ℕ × σ)
  | 0, _, _, current, s => leaf current s
  | depth + 1, index, start, current, s =>
      (range' start (n - start)).foldlM (fun (r : List ℕ × σ) i =>
        forAscending n depth (index + 1) (i + 1) (r.1.set index i) r.2) (current, s)

variable (act : σ → List ℕ → Except ε σ) {size filled : ℕ}

/-- **The action is carried out for each choice**, if at a filled buffer it does not depend on the
places behind the choice and keeps the choice. -/
theorem forAscending_eq (n : ℕ) (hleaf : ∀ current s, current.length = size → ∃ current',
      current'.length = size ∧ current'.take filled = current.take filled ∧
        leaf current s = (act s (current.take filled)).map (current', ·))
    (hsize : filled ≤ size) (depth index start : ℕ) (current : List ℕ) (s : σ)
    (hdepth : index + depth = filled) (hcur : current.length = size) :
    ∃ current', current'.length = size ∧ current'.take index = current.take index ∧
      forAscending leaf n depth index start current s =
        (((ascending n depth start).map (current.take index ++ ·)).foldlM act s).map
          (current', ·) := by
  induction depth generalizing index start current s with
  | zero =>
    obtain ⟨current', hlen, htake, heq⟩ := hleaf current s hcur
    rw [show index = filled by omega]
    refine ⟨current', hlen, htake, ?_⟩
    simp only [forAscending, heq, ascending, map_cons, append_nil, foldlM_cons]
    cases act s (current.take filled) <;> rfl
  | succ depth ih =>
    simp only [forAscending, ascending]
    generalize range' start (n - start) = is
    induction is generalizing current s with
    | nil => exact ⟨current, hcur, rfl, rfl⟩
    | cons i is ihis =>
      -- The loop around keeps the buffer before its own place.
      obtain ⟨current₁, hlen, htake, heq⟩ := ih (index + 1) (i + 1) (current.set index i) s
        (by omega) (by simpa using hcur)
      have hset : (current.set index i).take (index + 1) = current.take index ++ [i] := by
        rw [take_add_one, take_set_of_le le_rfl,
          getElem?_set_self (show index < current.length by omega)]
        rfl
      have hindex : current₁.take index = current.take index := by
        have := congrArg (take index) (htake.trans hset)
        rwa [take_take, min_eq_left (by omega), take_left' (by simp; omega)] at this
      simp only [foldlM_cons, flatMap_cons, map_append, foldlM_append, heq,
        hset, map_map, Function.comp_def, append_assoc, singleton_append]
      cases hfirst : ((ascending n depth (i + 1)).map
          fun l => current.take index ++ i :: l).foldlM act s with
      | error e => exact ⟨current, hcur, rfl, rfl⟩
      | ok s₁ =>
        obtain ⟨current', hlen', htake', heq'⟩ := ihis current₁ s₁ hlen
        refine ⟨current', hlen', htake'.trans hindex, ?_⟩
        rw [hindex] at heq'
        exact heq'

end Recursion

/-! ### Rows of an array -/

variable {α β σ ε : Type}

/-- Append a row to an array, if the check admits the new number of rows. -/
def addRow (check : ℕ → Except ε Unit) (rows : List α) (row : α) : Except ε (List α) := do
  check (rows.length + 1)
  pure (rows ++ [row])

/-- **Rows are appended one after the other**, up to a check that fails. -/
theorem foldlM_addRow (check : ℕ → Except ε Unit) (l rows : List α) :
    (l.foldlM (addRow check) rows = .ok (rows ++ l) ∧
      ∀ i, rows.length < i → i ≤ rows.length + l.length → check i = .ok ()) ∨
    ∃ i e, rows.length < i ∧ i ≤ rows.length + l.length ∧ check i = .error e ∧
      l.foldlM (addRow check) rows = .error e := by
  induction l generalizing rows with
  | nil =>
    refine .inl ⟨by simp [pure, Except.pure], fun i hi hle => ?_⟩
    rw [length_nil] at hle
    omega
  | cons row l ih =>
    simp only [foldlM_cons, addRow]
    cases hcheck : check (rows.length + 1) with
    | error e => exact .inr ⟨_, e, Nat.lt_succ_self _, by simp, hcheck, rfl⟩
    | ok _ =>
      have hlen : (rows ++ [row]).length = rows.length + 1 := by simp
      have hcons : (row :: l).length = l.length + 1 := rfl
      rcases ih (rows ++ [row]) with ⟨hfold, hall⟩ | ⟨i, e, hi, hle, he, hfold⟩
      · refine .inl ⟨hfold.trans (by simp), fun i hi hle => ?_⟩
        rcases Nat.lt_or_eq_of_le (Nat.succ_le_of_lt hi) with hlt | rfl
        · exact hall i (by omega) (by omega)
        · exact hcheck
      · exact .inr ⟨i, e, by omega, by omega, he, hfold⟩

/-- All checks succeed. -/
theorem foldlM_addRow_ok {check : ℕ → Except ε Unit} {l rows : List α}
    (h : ∀ i, rows.length < i → i ≤ rows.length + l.length → check i = .ok ()) :
    l.foldlM (addRow check) rows = .ok (rows ++ l) := by
  rcases foldlM_addRow check l rows with ⟨hfold, -⟩ | ⟨i, e, hi, hle, he, -⟩
  · exact hfold
  · rw [h i hi hle] at he
    cases he

/-- Loops over lists that are found one after the other. -/
theorem foldlM_bind (act : σ → β → Except ε σ) (find : α → Except ε (List β))
    (f : α → List β) {l : List α} (h : ∀ a ∈ l, find a = .ok (f a)) (s : σ) :
    l.foldlM (fun s a => (find a).bind (·.foldlM act s)) s = (l.flatMap f).foldlM act s := by
  induction l generalizing s with
  | nil => rfl
  | cons a l ih =>
    rw [forall_mem_cons] at h
    rw [foldlM_cons, flatMap_cons, foldlM_append, h.1]
    exact bind_congr fun s => ih h.2 s

end Combinations
