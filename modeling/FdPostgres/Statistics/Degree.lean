import FdPostgres.Lib.GroupScan
import FdPostgres.Statistics.Serialize

/-!
# The Degree of a Functional Dependency

`dependency_degree` measures on a sample of rows how far some columns determine another one: it
sorts the sample by all of them, goes over it once and counts the rows of the groups with a single
value in the last column. Rows with a value that is too wide are left out of the sorted items, but
not out of the number of rows that the count is divided by.

The values of a column are of any type; a comparator is a function to `Ordering`, and `NULL` is
`none`. The sort is any one that sorts (`Qsort`), since the order of equal items is not determined.

* `dependency_degree_exact`: **the count is the number of rows that support the dependency**; the
  degree is 1 exactly if no row was left out and the dependency holds, and it does not depend on the
  order of the sample or on the sort.
-/

namespace FdPostgres

namespace Statistics

open GroupScan

variable {δ : Type}

/-- `StatsBuildData`: for each row of the sample the values of the columns by index, the attribute
numbers, and for each column whether its type is variable in length and how it is compared. -/
structure StatsBuildData (δ : Type) where
  rows : List (ℕ → Option δ)
  attnums : List AttrNumber
  varlena : ℕ → Bool
  comparator : ℕ → δ → δ → Ordering
  toast_raw_datum_size : δ → ℕ
  detoast : δ → δ

def WIDTH_THRESHOLD : ℕ := 1024

/-- `SortItem`: the values of the columns to sort by. -/
abbrev SortItem (δ : Type) := List (Option δ)

/-- Nulls come last. -/
def ApplySortComparator (comparator : δ → δ → Ordering) : Option δ → Option δ → Ordering
  | none, none => .eq
  | none, some _ => .gt
  | some _, none => .lt
  | some a, some b => comparator a b

def multi_sort_compare_dim (ssup : ℕ → δ → δ → Ordering) (dim : ℕ) (a b : SortItem δ) : Ordering :=
  ApplySortComparator (ssup dim) (a.getD dim none) (b.getD dim none)

/-- The dimensions from `start` on, the first difference counts. -/
def multi_sort_compare_dims (ssup : ℕ → δ → δ → Ordering) (start : ℕ) :
    ℕ → SortItem δ → SortItem δ → Ordering
  | 0 => fun _ _ => .eq
  | dims + 1 => compareLex (multi_sort_compare_dim ssup start)
      (multi_sort_compare_dims ssup (start + 1) dims)

/-- The item of a row, `none` if one of its values is too wide. The column of an attribute is the
first one with its number. -/
def loadItem (data : StatsBuildData δ) (attnums : List AttrNumber) (row : ℕ → Option δ) :
    Option (SortItem δ) :=
  attnums.mapM fun attnum =>
    let idx := data.attnums.idxOf attnum
    match row idx with
    | none => some none
    | some value =>
        if data.varlena idx then
          if WIDTH_THRESHOLD < data.toast_raw_datum_size value then none
          else some (some (data.detoast value))
        else some (some value)

/-- The rows that are not too wide. -/
def keptItems (data : StatsBuildData δ) (attnums : List AttrNumber) : List (SortItem δ) :=
  data.rows.filterMap (loadItem data attnums)

/-- `qsort_interruptible`: a way to sort by a comparator. -/
structure Qsort (α : Type) where
  sort : (α → α → Ordering) → List α → List α
  perm (cmp : α → α → Ordering) (l : List α) : (sort cmp l).Perm l
  sorted (cmp : α → α → Ordering) [Std.TransCmp cmp] (l : List α) :
    (sort cmp l).Pairwise fun a b => (cmp a b).isLE

/-- The bytes for the items, their values and the flags for nulls. -/
def itemsRequest (numrows numattrs : ℕ) : ℕ := numrows * 24 + numrows * numattrs * (8 + 1)

/-- The number of bytes is kept in an `int`; nothing is known of the memory if it does not fit. -/
def build_sorted_items (qsort : Qsort (SortItem δ)) (data : StatsBuildData δ)
    (ssup : ℕ → δ → δ → Ordering) (attnums : List AttrNumber) :
    Except MemoryError (List (SortItem δ)) :=
  let len := itemsRequest data.rows.length attnums.length
  if len < 2 ^ 31 then do
    palloc len
    return qsort.sort (multi_sort_compare_dims ssup 0 attnums.length) (keptItems data attnums)
  else .error .undefined

section Dependency

variable (data : StatsBuildData δ) (dependency : List ℕ)

/-- The attributes of a dependency, the implied one last. -/
def attnums_dep : List AttrNumber := dependency.map fun i => data.attnums.getD i 0#16

/-- The comparators of the columns of a dependency. -/
def sortSupport (dim : ℕ) : δ → δ → Ordering := data.comparator (dependency.getD dim 0)

/-- The rows of the sample that are kept, by the columns of a dependency. -/
def keptFor : List (SortItem δ) := keptItems data (attnums_dep data dependency)

/-- The loop over the sorted items: groups by all columns but the last, with neighbours compared. -/
def n_supporting_rows (items : List (SortItem δ)) : ℕ :=
  count (multi_sort_compare_dims (sortSupport data dependency) 0 (dependency.length - 1))
    (multi_sort_compare_dim (sortSupport data dependency) (dependency.length - 1)) items

/-- The supporting rows by all rows, `none` for the quotient that is not a number. -/
def dependency_degree (qsort : Qsort (SortItem δ)) : Except MemoryError (Option ℚ) := do
  let items ← build_sorted_items qsort data (sortSupport data dependency)
    (attnums_dep data dependency)
  return if data.rows.length = 0 then none
    else some (n_supporting_rows data dependency items / data.rows.length)

/-- Two items agree in a column. -/
abbrev AgreeIn (dim : ℕ) (r r' : SortItem δ) : Prop :=
  multi_sort_compare_dim (sortSupport data dependency) dim r r' = .eq

/-- Among the items, those that agree with `r` in the first columns agree with it in the last. -/
abbrev SupportsDependency (items : List (SortItem δ)) (r : SortItem δ) : Prop :=
  ∀ r' ∈ items, (∀ dim < dependency.length - 1, AgreeIn data dependency dim r r') →
    AgreeIn data dependency (dependency.length - 1) r r'

end Dependency

/-! ### Comparators -/

section Comparators

open Std

instance (comparator : δ → δ → Ordering) [TransCmp comparator] :
    TransCmp (ApplySortComparator comparator) where
  eq_swap {a b} := by
    cases a <;> cases b <;> first | rfl | exact ‹TransCmp comparator›.eq_swap
  isLE_trans {a b c} hab hbc := by
    cases a <;> cases b <;> cases c <;>
      first | rfl | contradiction | exact ‹TransCmp comparator›.isLE_trans hab hbc

variable (ssup : ℕ → δ → δ → Ordering)

instance [∀ dim, TransCmp (ssup dim)] (dim : ℕ) : TransCmp (multi_sort_compare_dim ssup dim) where
  eq_swap := (inferInstance : TransCmp (ApplySortComparator (ssup dim))).eq_swap
  isLE_trans := (inferInstance : TransCmp (ApplySortComparator (ssup dim))).isLE_trans

instance [∀ dim, TransCmp (ssup dim)] (start dims : ℕ) :
    TransCmp (multi_sort_compare_dims ssup start dims) := by
  induction dims generalizing start with
  | zero => exact { eq_swap := rfl, isLE_trans := fun _ _ => rfl }
  | succ dims ih =>
      have := ih (start + 1)
      exact inferInstanceAs (TransCmp (compareLex _ _))

variable {ssup}

/-- Items are equal in some dimensions if they agree in each of them. -/
theorem multi_sort_compare_dims_eq {start dims : ℕ} {a b : SortItem δ} :
    multi_sort_compare_dims ssup start dims a b = .eq ↔
      ∀ dim < dims, multi_sort_compare_dim ssup (start + dim) a b = .eq := by
  induction dims generalizing start with
  | zero => simp [multi_sort_compare_dims]
  | succ dims ih =>
      rw [multi_sort_compare_dims, compareLex, Ordering.then_eq_eq, ih, Nat.forall_lt_succ_left']
      simp only [Nat.add_zero, Nat.add_right_comm _ 1, ← Nat.add_assoc]

/-- Items in order are in order by the first dimensions. -/
theorem multi_sort_compare_dims_isLE {start dims : ℕ} {a b : SortItem δ}
    (h : (multi_sort_compare_dims ssup start (dims + 1) a b).isLE) :
    (multi_sort_compare_dims ssup start dims a b).isLE := by
  induction dims generalizing start with
  | zero => rfl
  | succ dims ih =>
      rw [multi_sort_compare_dims, compareLex] at h ⊢
      cases hdim : multi_sort_compare_dim ssup start a b with
      | lt => rfl
      | eq =>
          rw [hdim] at h
          exact ih h
      | gt =>
          rw [hdim] at h
          cases h

end Comparators

/-! ### The count -/

section Count

variable (data : StatsBuildData δ) (dependency : List ℕ)

/-- The number of rows that are kept and support the dependency. -/
def supportingRows : ℕ := (keptFor data dependency).countP
  (SupportsDependency data dependency (keptFor data dependency))

/-- All rows support a dependency exactly if none was left out and it holds for all. -/
theorem supportingRows_eq_length : supportingRows data dependency = data.rows.length ↔
    (keptFor data dependency).length = data.rows.length ∧
      ∀ r ∈ keptFor data dependency,
        SupportsDependency data dependency (keptFor data dependency) r := by
  have hle : (keptFor data dependency).length ≤ data.rows.length := List.length_filterMap_le _ _
  rw [supportingRows]
  generalize keptFor data dependency = kept at hle ⊢
  have hall : kept.countP (SupportsDependency data dependency kept) = kept.length ↔
      ∀ r ∈ kept, SupportsDependency data dependency kept r := by
    simp only [List.countP_eq_length, decide_eq_true_eq]
  have hcountle : kept.countP (SupportsDependency data dependency kept) ≤ kept.length :=
    List.countP_le_length
  rw [← hall]
  omega

/-- The order of the sample does not matter. -/
theorem supportingRows_perm {rows : List (ℕ → Option δ)} (hrows : rows.Perm data.rows) :
    supportingRows { data with rows := rows } dependency = supportingRows data dependency := by
  have hperm : (keptFor { data with rows := rows } dependency).Perm (keptFor data dependency) :=
    hrows.filterMap _
  refine (List.countP_congr fun r _ => ?_).trans (hperm.countP_eq _)
  simp only [decide_eq_true_eq]
  exact forall_congr' fun r' => imp_congr_left hperm.mem_iff

variable [∀ column, Std.TransCmp (data.comparator column)]

instance (dim : ℕ) : Std.TransCmp (sortSupport data dependency dim) :=
  inferInstanceAs (Std.TransCmp (data.comparator _))

/-- The loop over sorted items counts the rows that support the dependency. -/
theorem n_supporting_rows_eq (hk : 0 < dependency.length) {items : List (SortItem δ)}
    (hperm : items.Perm (keptFor data dependency))
    (hsorted : items.Pairwise fun a b =>
      (multi_sort_compare_dims (sortSupport data dependency) 0 dependency.length a b).isLE) :
    n_supporting_rows data dependency items = supportingRows data dependency := by
  rw [show dependency.length = dependency.length - 1 + 1 by omega] at hsorted
  rw [n_supporting_rows, count_eq _ _ (hsorted.imp multi_sort_compare_dims_isLE), supportingRows,
    ← hperm.countP_eq]
  refine List.countP_congr fun r _ => ?_
  simp only [decide_eq_true_eq, Supports, multi_sort_compare_dims_eq, Nat.zero_add, hperm.mem_iff]

variable (hk : 2 ≤ dependency.length) (hrows : data.rows ≠ [])
  (hsize : itemsRequest data.rows.length dependency.length ≤ MaxAllocSize)

include hk hrows hsize

/-- The memory is granted, and the items are counted as they should be. -/
theorem sorted_items_counted (qsort : Qsort (SortItem δ)) : ∃ items,
    build_sorted_items qsort data (sortSupport data dependency) (attnums_dep data dependency) =
        .ok items ∧
      n_supporting_rows data dependency items = supportingRows data dependency ∧
      dependency_degree data dependency qsort =
        .ok (some (supportingRows data dependency / data.rows.length)) := by
  have hlength : (attnums_dep data dependency).length = dependency.length := List.length_map ..
  have hint : itemsRequest data.rows.length dependency.length < 2 ^ 31 :=
    lt_of_le_of_lt hsize (by decide)
  have hne : data.rows.length ≠ 0 := mt List.length_eq_zero_iff.mp hrows
  have hitems : build_sorted_items qsort data (sortSupport data dependency)
      (attnums_dep data dependency) = .ok (qsort.sort
        (multi_sort_compare_dims (sortSupport data dependency) 0 dependency.length)
        (keptFor data dependency)) := by
    simp only [build_sorted_items, hlength, if_pos hint, palloc_of_le hsize]
    rfl
  have hcount := n_supporting_rows_eq data dependency (by omega) (qsort.perm ..)
    (qsort.sorted _ (keptFor data dependency))
  refine ⟨_, hitems, hcount, ?_⟩
  rw [dependency_degree, hitems]
  simp only [bind, Except.bind, pure, Except.pure, if_neg hne, hcount]

/-- **The degree counts exactly the rows that support the dependency.** For a sample that is not
empty and whose items fit into a request for memory, the degree is the part of the rows that are
kept and support the dependency. It is 1 exactly if no row was left out and the dependency holds,
and it is the same for every order of the sample and every way to sort it. -/
theorem dependency_degree_exact (qsort : Qsort (SortItem δ)) :
    (∃ items, build_sorted_items qsort data (sortSupport data dependency)
        (attnums_dep data dependency) = .ok items ∧
      n_supporting_rows data dependency items = (keptFor data dependency).countP
        (SupportsDependency data dependency (keptFor data dependency)) ∧
      dependency_degree data dependency qsort =
        .ok (some (n_supporting_rows data dependency items / data.rows.length))) ∧
      (dependency_degree data dependency qsort = .ok (some 1) ↔
        (keptFor data dependency).length = data.rows.length ∧
          ∀ r ∈ keptFor data dependency,
            SupportsDependency data dependency (keptFor data dependency) r) ∧
      ∀ rows qsort', rows.Perm data.rows →
        dependency_degree { data with rows := rows } dependency qsort' =
          dependency_degree data dependency qsort := by
  obtain ⟨items, hitems, hcount, hdegree⟩ :=
    sorted_items_counted data dependency hk hrows hsize qsort
  refine ⟨⟨items, hitems, hcount, by rw [hdegree, hcount]⟩, ?_, ?_⟩
  · have hpos : (data.rows.length : ℚ) ≠ 0 := by simpa using hrows
    rw [hdegree, ← supportingRows_eq_length]
    simp only [Except.ok.injEq, Option.some.injEq, div_eq_one_iff_eq hpos, Nat.cast_inj]
  · intro rows qsort' hperm
    have hne : rows ≠ [] := by
      rintro rfl
      exact hrows (List.nil_perm.mp hperm)
    have hsize' : itemsRequest rows.length dependency.length ≤ MaxAllocSize := by
      rwa [hperm.length_eq]
    obtain ⟨-, -, -, hdegree'⟩ :=
      sorted_items_counted { data with rows := rows } dependency hk hne hsize' qsort'
    rw [hdegree, hdegree', supportingRows_perm data dependency hperm, hperm.length_eq]

end Count

/-- Merge sort is a way to sort. -/
def mergeQsort (α : Type) : Qsort α where
  sort cmp l := l.mergeSort fun a b => (cmp a b).isLE
  perm cmp l := List.mergeSort_perm l _
  sorted cmp _ l := by
    refine List.pairwise_mergeSort ?_ ?_ l
    · exact fun a b c => Std.TransCmp.isLE_trans
    · intro a b
      have hswap : cmp b a = (cmp a b).swap := Std.OrientedCmp.eq_swap
      rw [hswap]
      cases cmp a b <;> rfl

/-- Four rows with two columns: the second determines the first, but not the other way round. -/
def fourRows : StatsBuildData ℕ where
  rows := [[some 1, some 10], [some 2, some 20], [some 1, some 10], [some 2, none]].map
    fun row column => row.getD column none
  attnums := [3#16, 5#16]
  varlena _ := false
  comparator _ := compare
  toast_raw_datum_size := id
  detoast := id

instance (column : ℕ) : Std.TransCmp (fourRows.comparator column) :=
  inferInstanceAs (Std.TransCmp (compare : ℕ → ℕ → Ordering))

/-- Half of the rows support the one dependency, and all the other one, also in another order. -/
theorem dependency_degree_exact_four :
    dependency_degree fourRows [0, 1] (mergeQsort _) = .ok (some (2 / 4)) ∧
      dependency_degree fourRows [1, 0] (mergeQsort _) = .ok (some 1) ∧
      dependency_degree { fourRows with rows := fourRows.rows.reverse } [1, 0] (mergeQsort _) =
        .ok (some 1) := by
  have hrows : fourRows.rows ≠ [] := List.cons_ne_nil _ _
  obtain ⟨⟨items, -, hcount, hdegree⟩, -⟩ :=
    dependency_degree_exact fourRows [0, 1] (by decide) hrows (by decide) (mergeQsort _)
  obtain ⟨-, hone, horder⟩ :=
    dependency_degree_exact fourRows [1, 0] (by decide) hrows (by decide) (mergeQsort _)
  have hholds : dependency_degree fourRows [1, 0] (mergeQsort _) = .ok (some 1) :=
    hone.mpr ⟨by decide, by decide⟩
  refine ⟨?_, hholds, (horder _ _ (List.reverse_perm _)).trans hholds⟩
  have htwo : n_supporting_rows fourRows [0, 1] items = 2 := hcount.trans (by decide)
  rw [hdegree, htwo]
  rfl

end Statistics

end FdPostgres
