import FdPostgres.AddTrigger
import Mathlib

/-!
# What the Installed Trigger Enforces

The trigger generated by `add_trigger` is meant to let a row operation through exactly
when the relation still satisfies the dependency afterwards. This module states the
dependency as a property of the stored rows, runs row operations under the trigger, and
determines exactly which operations are decided as intended.

* `Satisfies` is the dependency `lhs -> rhs`: rows that agree on the left agree on the
  right.
* `RowOp` is a single-row `INSERT` or `UPDATE`; `execRowOp` runs it under the trigger and
  `rowOpTrace` lists the states and operations of a whole run. The check query sees the
  relation before the operation, and a raised error leaves the relation as it was.
* `Conflicts` says that some other stored row agrees with the new row on the left and not
  on the right.

## Reading of NULL

Whether two rows agree on a column whose value is NULL is a matter of convention, so the
dependency is stated over a reading for each side (`NullReading`): NULL agrees with
nothing (SQL `=`), or NULL agrees with NULL (`IS NOT DISTINCT FROM`). The results hold
under every combination.

## Main results

* `execRowOp_rejected`: **every** row operation on the relation is rejected, because the
  generated function contains no `RETURN`.
* `satisfies_apply_iff`: an operation keeps the dependency exactly when it conflicts with
  no stored row.
* `fd_trigger_decides_iff_conflicts`: along every run the relation keeps satisfying the
  dependency, and the trigger decides an operation as intended exactly when that
  operation conflicts with a stored row.
-/

namespace FdPostgres

open List

/-! ### Row operations -/

section RowOps

variable {V : Type}

/-- A single-row operation: store a new row, or replace the stored row at a position. -/
inductive RowOp (V : Type) where
  | insert (new : Row V)
  | update (pos : Nat) (new : Row V)

/-- The row that an operation stores, the `NEW` of the trigger. -/
def RowOp.new : RowOp V → Row V
  | .insert new => new
  | .update _ new => new

/-- An operation addresses the relation: an update replaces a row that is there. -/
def RowOp.Valid (rows : List (Row V)) : RowOp V → Prop
  | .insert _ => True
  | .update pos _ => pos < rows.length

/-- The relation after an operation that is let through. -/
def RowOp.apply (rows : List (Row V)) : RowOp V → List (Row V)
  | .insert new => rows ++ [new]
  | .update pos new => rows.set pos new

/-- The stored rows that stay next to the new one. -/
def RowOp.others (rows : List (Row V)) : RowOp V → List (Row V)
  | .insert _ => rows
  | .update pos _ => rows.eraseIdx pos

/-- The stored rows after an operation are the new row and the others, up to order. -/
theorem apply_perm_new_cons_others {rows : List (Row V)}
    {op : RowOp V} (hv : op.Valid rows) : (op.apply rows).Perm (op.new :: op.others rows) := by
  cases op with
  | insert new => exact perm_append_singleton new rows
  | update pos new => exact set_perm_cons_eraseIdx hv new

/-- The others are stored rows. -/
theorem others_sublist (rows : List (Row V)) (op : RowOp V) : (op.others rows).Sublist rows := by
  cases op with
  | insert new => exact List.Sublist.refl rows
  | update pos new => exact eraseIdx_sublist rows pos

end RowOps

/-! ### The dependency -/

/-- When two column values count as equal in the meaning of a dependency. -/
inductive NullReading where
  /-- NULL agrees with nothing, as under SQL `=`. -/
  | sqlEquality
  /-- NULL agrees with NULL, as under `IS NOT DISTINCT FROM`. -/
  | notDistinct
  deriving Repr, DecidableEq

section Dependency

variable {V : Type} [DecidableEq V]

/-- Agreement of two column values under a reading. -/
def NullReading.agree (m : NullReading) (a b : Option V) : Prop :=
  match m with
  | .sqlEquality => sqlEq a b = some true
  | .notDistinct => a = b

/-- Two rows agree on a column list when they agree on each of its columns. -/
def AgreeOn (m : NullReading) (cols : List String) (r s : Row V) : Prop :=
  ∀ col ∈ cols, m.agree (r col) (s col)

variable (ml mr : NullReading) (fd : FdSpec)

/-- A pair of rows respects the dependency: agreement on the left gives agreement on the
right. -/
def Respects (r s : Row V) : Prop :=
  AgreeOn ml fd.lhs r s → AgreeOn mr fd.rhs r s

/-- **The dependency `lhs -> rhs`**: every two stored rows respect it. -/
def Satisfies (rows : List (Row V)) : Prop :=
  rows.Pairwise (Respects ml mr fd)

/-- SQL equality is symmetric. -/
theorem sqlEq_comm (a b : Option V) : sqlEq a b = sqlEq b a := by
  cases a with
  | none => cases b <;> rfl
  | some x =>
    cases b with
    | none => rfl
    | some y => simp only [sqlEq, eq_comm]

/-- Agreement on a column list is symmetric. -/
theorem AgreeOn.symm {m : NullReading} {cols : List String} {r s : Row V}
    (h : AgreeOn m cols r s) : AgreeOn m cols s r := by
  intro col hcol
  have hagree := h col hcol
  cases m with
  | sqlEquality => exact (sqlEq_comm (s col) (r col)).trans hagree
  | notDistinct => exact Eq.symm hagree

theorem Respects.symm {ml mr : NullReading} {fd : FdSpec} {r s : Row V}
    (h : Respects ml mr fd r s) : Respects ml mr fd s r :=
  fun hl => (h hl.symm).symm

/-- An operation **conflicts** with a stored row: another row agrees with the new one on
the left-hand columns and not on the right-hand columns. -/
def Conflicts (rows : List (Row V)) (op : RowOp V) : Prop :=
  ∃ r ∈ op.others rows, AgreeOn ml fd.lhs op.new r ∧ ¬ AgreeOn mr fd.rhs op.new r

/-- **What keeps the dependency.** On a relation that satisfies it, an operation keeps the
dependency exactly when it conflicts with no stored row. -/
theorem satisfies_apply_iff {ml mr : NullReading} {fd : FdSpec} {rows : List (Row V)}
    {op : RowOp V} (hv : op.Valid rows) (hs : Satisfies ml mr fd rows) :
    Satisfies ml mr fd (op.apply rows) ↔ ¬ Conflicts ml mr fd rows op := by
  have hoth : (op.others rows).Pairwise (Respects ml mr fd) :=
    hs.sublist (others_sublist rows op)
  have hperm : Satisfies ml mr fd (op.apply rows) ↔
      (op.new :: op.others rows).Pairwise (Respects ml mr fd) :=
    (apply_perm_new_cons_others hv).pairwise_iff Respects.symm
  rw [hperm, pairwise_cons]
  constructor
  · rintro ⟨hnew, -⟩ ⟨r, hr, hl, hnr⟩
    exact hnr (hnew r hr hl)
  · intro hc
    refine ⟨fun r hr hl => ?_, hoth⟩
    by_contra hnr
    exact hc ⟨r, hr, hl, hnr⟩

/-! ### Running operations under the trigger -/

variable (fd : FdSpec) (rest : Snapshot V) (rows : List (Row V))

/-- The relations of a session as the check query sees them: the relation of the
dependency holds `rows`, and `rest` gives the others. -/
def snapshotOf : Snapshot V :=
  fun name => if name = fd.relation then rows else rest name

variable (op : RowOp V)

/-- The trigger call for an operation. A dependency with an empty column list has no check
function: its `WHERE` clause or its `COUNT` call is empty, and the function cannot be
created. -/
def fireTrigger : Option (Except PlError (Row V)) :=
  match fd.lhs, fd.rhs with
  | col :: cols, _ :: _ =>
      some (plpgsql_exec_trigger (snapshotOf fd rest rows) op.new (fdCheck fd col cols).body)
  | _, _ => none

/-- One row operation under the trigger: an error rejects it, and a returned row is the
one that is stored. Without a trigger the operation goes through. -/
def execRowOp : Except PlError (List (Row V)) :=
  match fireTrigger fd rest rows op with
  | none => .ok (op.apply rows)
  | some (.error e) => .error e
  | some (.ok new) =>
      match op with
      | .insert _ => .ok ((RowOp.insert new).apply rows)
      | .update pos _ => .ok ((RowOp.update pos new).apply rows)

/-- An operation is let through when it raises no error. -/
def LetThrough : Prop :=
  ∃ rows', execRowOp fd rest rows op = .ok rows'

/-- The relation after an operation: a rejected operation leaves it as it was. -/
def stepRowOp : List (Row V) :=
  match execRowOp fd rest rows op with
  | .ok rows' => rows'
  | .error _ => rows

/-- A run of operations: each operation with the relation it meets. -/
def rowOpTrace (fd : FdSpec) (rest : Snapshot V) :
    List (Row V) → List (RowOp V) → List (List (Row V) × RowOp V)
  | _, [] => []
  | rows, op :: ops => (rows, op) :: rowOpTrace fd rest (stepRowOp fd rest rows op) ops

section Rejected

variable {fd} (hl : fd.lhs ≠ []) (hr : fd.rhs ≠ [])

include hl hr

/-- **Every operation is rejected**: the trigger function ends without `RETURN` on every
path, so each call of it raises an error. -/
theorem execRowOp_rejected : ∃ e, execRowOp fd rest rows op = .error e := by
  obtain ⟨col, cols, hcols⟩ : ∃ col cols, fd.lhs = col :: cols := exists_cons_of_ne_nil hl
  obtain ⟨tgt, tgts, htgts⟩ : ∃ tgt tgts, fd.rhs = tgt :: tgts := exists_cons_of_ne_nil hr
  obtain ⟨e, he⟩ := plpgsql_exec_trigger_error_of_no_return (snapshotOf fd rest rows)
    op.new (fdCheck_has_no_return fd col cols)
  refine ⟨e, ?_⟩
  have hfire : fireTrigger fd rest rows op = some (.error e) := by
    rw [fireTrigger, hcols, htgts, ← he]
  rw [execRowOp, hfire]

/-- No operation is let through. -/
theorem not_letThrough : ¬ LetThrough fd rest rows op := by
  rintro ⟨rows', hok⟩
  obtain ⟨e, he⟩ := execRowOp_rejected rest rows op hl hr
  rw [he] at hok
  cases hok

/-- A rejected operation leaves the relation as it was. -/
theorem stepRowOp_eq_self : stepRowOp fd rest rows op = rows := by
  obtain ⟨e, he⟩ := execRowOp_rejected rest rows op hl hr
  rw [stepRowOp, he]

/-- Along a run, every operation meets the initial relation. -/
theorem rowOpTrace_eq_map (ops : List (RowOp V)) :
    rowOpTrace fd rest rows ops = ops.map fun op => (rows, op) := by
  induction ops with
  | nil => rfl
  | cons op ops ih =>
    rw [rowOpTrace, stepRowOp_eq_self rest rows op hl hr, ih, map_cons]

end Rejected

/-- **The trigger is exact on conflicting operations only.** Along every run that starts
from a relation satisfying the dependency, the relation keeps satisfying it, and an
operation is let through if and only if it keeps the dependency — the intended decision —
exactly when it conflicts with a stored row. -/
theorem fd_trigger_decides_iff_conflicts (ml mr : NullReading) (fd : FdSpec)
    (hl : fd.lhs ≠ []) (hr : fd.rhs ≠ []) (rest : Snapshot V) (rows : List (Row V))
    (ops : List (RowOp V)) (hs : Satisfies ml mr fd rows)
    (hv : ∀ p ∈ rowOpTrace fd rest rows ops, p.2.Valid p.1) :
    ∀ p ∈ rowOpTrace fd rest rows ops,
      Satisfies ml mr fd p.1 ∧ ((LetThrough fd rest p.1 p.2 ↔ Satisfies ml mr fd (p.2.apply p.1)) ↔
        Conflicts ml mr fd p.1 p.2) := by
  intro p hp
  have hmem := hp
  rw [rowOpTrace_eq_map rest rows hl hr] at hmem
  obtain ⟨op, -, rfl⟩ := mem_map.mp hmem
  refine ⟨hs, ?_⟩
  rw [satisfies_apply_iff (hv _ hp) hs]
  have hrej := not_letThrough rest rows op hl hr
  constructor
  · intro hdec
    by_contra hc
    exact hrej (hdec.mpr hc)
  · intro hc
    exact ⟨fun h => absurd h hrej, fun h => absurd hc h⟩

end Dependency

/-- The dependency `A -> C` on `rel`, registered as `fd1`. -/
def fdExample : FdSpec where
  fd_id := "fd1"
  relation := "rel"
  lhs := ["A"]
  rhs := ["C"]

/-- A row with the given values of `A` and `C`. -/
def rowAC (a c : Nat) : Row Nat :=
  fun col => if col = "A" then some a else if col = "C" then some c else none

/-- A run with a conflicting insert: the trigger decides it as intended. -/
theorem fd_trigger_decides_conflicting_insert :
    Satisfies .sqlEquality .sqlEquality fdExample [rowAC 1 1] ∧
    ((LetThrough fdExample (fun _ => []) [rowAC 1 1] (.insert (rowAC 1 2)) ↔
        Satisfies .sqlEquality .sqlEquality fdExample
          ((RowOp.insert (rowAC 1 2)).apply [rowAC 1 1])) ↔
      Conflicts .sqlEquality .sqlEquality fdExample [rowAC 1 1] (.insert (rowAC 1 2))) := by
  refine fd_trigger_decides_iff_conflicts .sqlEquality .sqlEquality fdExample (by decide)
    (by decide) (fun _ => []) [rowAC 1 1] [.insert (rowAC 1 2)]
    (pairwise_singleton _ _) ?_ ([rowAC 1 1], .insert (rowAC 1 2)) mem_cons_self
  intro p hp
  obtain rfl : p = ([rowAC 1 1], .insert (rowAC 1 2)) := mem_singleton.mp hp
  exact trivial

/-- The first row of an empty relation keeps every dependency and is rejected. -/
theorem fd_trigger_rejects_first_row :
    Satisfies .sqlEquality .sqlEquality fdExample ([] : List (Row Nat)) ∧
    ¬ (LetThrough fdExample (fun _ => []) [] (.insert (rowAC 1 1)) ↔
      Satisfies .sqlEquality .sqlEquality fdExample ((RowOp.insert (rowAC 1 1)).apply [])) := by
  refine ⟨List.Pairwise.nil, fun h => ?_⟩
  exact not_letThrough _ _ _ (by decide) (by decide) (h.mpr (pairwise_singleton _ _))

end FdPostgres
