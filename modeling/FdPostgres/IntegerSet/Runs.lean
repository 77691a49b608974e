import FdPostgres.IntegerSet.Iteration

/-!
# Runs of an Integer Set

A set is used through its calls only: values are added in increasing order, refused values change
nothing, and iterations may begin at any time and be given up midway.

* `IntsetRun`: the states that the calls reach, with the values added so far.
* `IsSet`: the set answers as the set of these values does.
* `IntsetRun.reached`: every state reached holds exactly the values added.
* `intset_is_set`: a state reached with fewer than `2 ^ 64` values is a set.
-/

namespace FdPostgres

open List

/-- **The states that the calls of a set reach**, with the values added so far. -/
inductive IntsetRun : List ℕ → IntegerSet → Prop where
  | create : IntsetRun [] intset_create
  | add {l : List ℕ} {s s' : IntegerSet} {x : ℕ} (hrun : IntsetRun l s) (hx : x < 2 ^ 64)
      (horder : ∀ y ∈ l, y < x) (hadd : intset_add_member s x = (.ok (), s')) :
      IntsetRun (l ++ [x]) s'
  | refused {l : List ℕ} {s s' : IntegerSet} {x : ℕ} {e : IntsetError} (hrun : IntsetRun l s)
      (hx : x < 2 ^ 64) (hadd : intset_add_member s x = (.error e, s')) : IntsetRun l s'
  | begin_iterate {l : List ℕ} {s : IntegerSet} (hrun : IntsetRun l s) :
      IntsetRun l (intset_begin_iterate s)
  | iterate_next {l : List ℕ} {s : IntegerSet} (hrun : IntsetRun l s)
      (hactive : s.iter_active = true) : IntsetRun l (intset_iterate_next s).2

/-- The set answers as the set of the values `l` does. -/
structure IsSet (l : List ℕ) (s : IntegerSet) : Prop where
  members : ∀ x < 2 ^ 64, intset_is_member s x = decide (x ∈ l)
  entries : intset_num_entries s = l.length
  iteration : drain (l.length + 1) (intset_begin_iterate s) =
    l.map (fun v => some (true, v)) ++ [some (false, 0)]
  accepts : s.iter_active = false → ∀ x < 2 ^ 64, (∀ y ∈ l, y < x) →
    ∃ s', intset_add_member s x = (.ok (), s')
  refuses : ∀ x < 2 ^ 64, (∃ y ∈ l, x ≤ y) → ∃ e, intset_add_member s x = (.error e, s)

/-! ### What the states reached hold -/

/-- The contents of a state reached, and the state of its iteration. -/
def Reached (l : List ℕ) (s : IntegerSet) : Prop :=
  ∃ items, Contents s l items ∧ (s.iter_active = true → IterOk s items)

section Steps

variable {l : List ℕ} {s s' : IntegerSet} {x : ℕ}

/-- A set that is being iterated over takes no values. -/
theorem add_member_iterating (hact : s.iter_active = true) (x : ℕ) :
    intset_add_member s x = (.error .iterationInProgress, s) := by
  rw [intset_add_member, if_pos hact]

/-- Adding a value in order. -/
theorem Reached.add (h : Reached l s) (hx : x < 2 ^ 64) (horder : ∀ y ∈ l, y < x)
    (hadd : intset_add_member s x = (.ok (), s')) : Reached (l ++ [x]) s' := by
  obtain ⟨items, hcont, -⟩ := h
  cases hact : s.iter_active with
  | true =>
    rw [add_member_iterating hact] at hadd
    exact absurd (congrArg Prod.fst hadd) (by simp)
  | false =>
    obtain ⟨s₁, items', heq, hcont', hact'⟩ := hcont.add_member hact hx horder
    obtain rfl : s₁ = s' := congrArg Prod.snd (heq.symm.trans hadd)
    exact ⟨items', hcont', fun htrue => absurd (hact'.symm.trans htrue) (by simp)⟩

/-- A refused value: only values in order reach the buffer, and these are taken. -/
theorem Reached.refused (h : Reached l s) {e : IntsetError}
    (hadd : intset_add_member s x = (.error e, s')) : s' = s := by
  obtain ⟨items, hcont, -⟩ := h
  rw [intset_add_member] at hadd
  split at hadd
  · exact (congrArg Prod.snd hadd).symm
  · split at hadd
    · exact (congrArg Prod.snd hadd).symm
    · split at hadd
      · case isTrue hfull =>
          obtain ⟨s₁, items', hflush, -, -, -⟩ := hcont.flush hfull
          rw [hflush] at hadd
          exact absurd (congrArg Prod.fst hadd) (by simp)
      · exact absurd (congrArg Prod.fst hadd) (by simp)

theorem Reached.begin_iterate (h : Reached l s) : Reached l (intset_begin_iterate s) := by
  obtain ⟨items, hcont, -⟩ := h
  exact ⟨items, hcont.congr rfl, fun _ => hcont.begin_iterate.1⟩

/-- A step of an iteration. -/
theorem Reached.iterate_next (h : Reached l s) (hact : s.iter_active = true) :
    Reached l (intset_iterate_next s).2 := by
  obtain ⟨items, hcont, hiter⟩ := h
  obtain ⟨hpart, hans⟩ := (hiter hact).iterate_next_answer hcont
  refine ⟨items, hcont.congr hpart, fun htrue => ?_⟩
  rcases hans with ⟨-, -, hfalse⟩ | ⟨v, -, -, hok⟩
  · exact absurd (hfalse.symm.trans htrue) (by simp)
  · exact hok

end Steps

variable {s : IntegerSet} {l : List ℕ}

/-- **Every state reached holds exactly the values added.** -/
theorem IntsetRun.reached (h : IntsetRun l s) : Reached l s := by
  induction h with
  | create => exact ⟨[], contents_create, fun htrue => absurd htrue (by simp [intset_create])⟩
  | add hrun hx horder hadd ih => exact ih.add hx horder hadd
  | refused hrun hx hadd ih => exact (ih.refused hadd).symm ▸ ih
  | begin_iterate hrun ih => exact ih.begin_iterate
  | iterate_next hrun hact ih => exact ih.iterate_next hact

/-! ### The set of the values added -/

/-- A state reached with fewer than `2 ^ 64` values is a set. -/
theorem Reached.isSet (h : Reached l s) (hlen : l.length < 2 ^ 64) : IsSet l s := by
  obtain ⟨items, hcont, -⟩ := h
  refine ⟨fun x hx => hcont.is_member hx, ?_, hcont.drain, fun hact x hx horder => ?_,
    fun x _ hle => ?_⟩
  · rw [intset_num_entries, hcont.entries, Nat.mod_eq_of_lt hlen]
  · obtain ⟨s', -, heq, -, -⟩ := hcont.add_member hact hx horder
    exact ⟨s', heq⟩
  · obtain ⟨y, hy, hxy⟩ := hle
    exact ⟨_, hcont.out_of_order hlen hy hxy⟩

/-- **An integer set is a set**: every state that the calls reach answers as the set of the values
added does. An item of a leaf takes 16 bytes for at most 241 values, so that no memory holds all
`2 ^ 64` values, with which the number of entries would wrap around. -/
theorem intset_is_set {l : List ℕ} {s : IntegerSet} (h : IntsetRun l s)
    (hlen : l.length < 2 ^ 64) : IsSet l s :=
  h.reached.isSet hlen

/-- The values from zero on can be added up to the last one. -/
theorem exists_run_range (n : ℕ) (hn : n ≤ 2 ^ 64) :
    ∃ s, IntsetRun (range n) s ∧ s.iter_active = false := by
  induction n with
  | zero => exact ⟨intset_create, .create, rfl⟩
  | succ n ih =>
    obtain ⟨s, hrun, hact⟩ := ih (Nat.le_of_succ_le hn)
    obtain ⟨items, hcont, -⟩ := hrun.reached
    have horder : ∀ y ∈ range n, y < n := fun y hy => mem_range.mp hy
    obtain ⟨s', -, heq, -, hact'⟩ := hcont.add_member hact hn horder
    rw [range_succ]
    exact ⟨s', hrun.add hn horder heq, hact'⟩

/-- A set of a hundred thousand values, in many leaves of the tree, that refuses a value again and
is read in part. -/
theorem intset_is_set_range : ∃ s, IntsetRun (range 100000) s ∧ IsSet (range 100000) s := by
  obtain ⟨s, hrun, hact⟩ := exists_run_range 100000 (by decide)
  have hlen : (range 100000).length < 2 ^ 64 := by rw [length_range]; decide
  obtain ⟨e, hrefused⟩ := (intset_is_set hrun hlen).refuses 7 (by decide) ⟨8, by simp, by decide⟩
  have hnext := ((hrun.refused (by decide) hrefused).begin_iterate).iterate_next rfl
  exact ⟨_, hnext, intset_is_set hnext hlen⟩

end FdPostgres
