import FdPostgres.Lib.Outcome
import Mathlib

/-!
# Row Triggers Written in plpgsql

The functional-dependency extension never checks a row itself: it generates the text of
a plpgsql trigger function and lets the server run it. This module defines the fragment
of plpgsql that the generated text uses, together with the way `plpgsql_exec_trigger`
calls a trigger function and interprets its outcome.

* `Stmt` is the statement language: `SELECT COUNT(DISTINCT ...) INTO cnt`, `IF cnt > n`,
  `RAISE EXCEPTION`, and `RETURN NEW`.
* `exec_stmt` / `exec_stmts` run statements over a snapshot of the relations. A statement
  ends normally, returns from the function, or raises an error.
* `plpgsql_exec_trigger` runs a whole body. A body that ends without `RETURN` raises
  `control reached end of trigger procedure without RETURN`.

## Null convention

A column value is an `Option`, with `none` for NULL. Comparisons are three-valued
(`sqlEq`, `sqlAnd`), a `WHERE` clause keeps the rows on which it is true, and
`COUNT(DISTINCT e)` ignores the rows on which `e` is NULL.

## Main results

* `exec_stmts_no_return`: a body in which no `RETURN` occurs never returns.
* `plpgsql_exec_trigger_error_of_no_return`: hence every call of such a body raises.
-/

namespace FdPostgres

/-- A row, read through the column references of a query: the value of each referenced
column, with `none` for NULL. -/
abbrev Row (V : Type) := String → Option V

/-- The relations visible to a query, by the name that a `FROM` clause uses. -/
abbrev Snapshot (V : Type) := String → List (Row V)

/-! ### Three-valued conditions -/

/-- SQL `=`: unknown as soon as one side is NULL. -/
def sqlEq {V : Type} [DecidableEq V] : Option V → Option V → Option Bool
  | some a, some b => some (decide (a = b))
  | _, _ => none

/-- SQL `AND`: false dominates, then unknown. -/
def sqlAnd : Option Bool → Option Bool → Option Bool
  | some false, _ => some false
  | _, some false => some false
  | some true, some true => some true
  | _, _ => none

/-- A `WHERE` clause of the generated function: comparisons `col=NEW.col` joined by
`AND`. -/
inductive Qual where
  | eqNew (col : String)
  | and (left right : Qual)
  deriving Repr, DecidableEq

/-- The value of a clause on a stored row `r` while the trigger runs for `new`. -/
def Qual.eval {V : Type} [DecidableEq V] (new r : Row V) : Qual → Option Bool
  | .eqNew col => sqlEq (r col) (new col)
  | .and left right => sqlAnd (left.eval new r) (right.eval new r)

/-! ### Statements -/

/-- The statements of a trigger function that declares one variable `cnt integer`. -/
inductive Stmt where
  | selectCountInto (args : List String) (rel : String) (qual : Qual)
  | ifCntGt (bound : Int) (body : List Stmt)
  | raiseException (msg : String)
  | returnNew

/-- The errors a trigger call can raise. -/
inductive PlError where
  /-- `RAISE EXCEPTION` with its message. -/
  | raised (msg : String)
  /-- `function count(...) does not exist`, with the number of arguments. -/
  | undefinedFunction (nargs : Nat)
  /-- `integer out of range`: a count that does not fit the variable. -/
  | integerOutOfRange
  /-- `control reached end of trigger procedure without RETURN`. -/
  | noReturnStatement
  deriving Repr, DecidableEq

/-- How a statement ends when it raises nothing: `PLPGSQL_RC_OK` or
`PLPGSQL_RC_RETURN`. -/
inductive Rc where
  | ok
  | ret
  deriving Repr, DecidableEq

section Exec

variable {V : Type} [DecidableEq V]

/-- The value of `COUNT(DISTINCT args)` over the selected rows. The catalog has `count`
with no argument and with one argument of any type; every other call is rejected when
the query is analyzed. -/
def countDistinct (args : List String) (rows : List (Row V)) : Except PlError Nat :=
  match args with
  | [col] => .ok (rows.filterMap (· col)).dedup.length
  | _ => .error (.undefinedFunction args.length)

/-- Assignment of a `bigint` count to the variable `cnt integer`. -/
def assignCnt (n : Nat) : Except PlError (Option Int) :=
  if n < 2 ^ 31 then .ok (some (n : Int)) else .error .integerOutOfRange

/-- The test `cnt > bound`; a NULL variable does not satisfy it. -/
def cntGt (cnt : Option Int) (bound : Int) : Bool :=
  match cnt with
  | some c => decide (bound < c)
  | none => false

mutual

/-- Run one statement for the new row `new`, over the relations `db`, with the current
value of the variable. -/
def exec_stmt (db : Snapshot V) (new : Row V) :
    Stmt → Option Int → Except PlError (Rc × Option Int)
  | .selectCountInto args rel qual, _ => do
      let n ← countDistinct args ((db rel).filter fun r => qual.eval new r = some true)
      let cnt ← assignCnt n
      pure (.ok, cnt)
  | .ifCntGt bound body, cnt =>
      if cntGt cnt bound then exec_stmts db new body cnt else pure (.ok, cnt)
  | .raiseException msg, _ => .error (.raised msg)
  | .returnNew, cnt => pure (.ret, cnt)

/-- Run a statement list: stop at the first `RETURN` or error. -/
def exec_stmts (db : Snapshot V) (new : Row V) :
    List Stmt → Option Int → Except PlError (Rc × Option Int)
  | [], cnt => pure (.ok, cnt)
  | s :: rest, cnt =>
      match exec_stmt db new s cnt with
      | .error e => .error e
      | .ok (.ret, cnt') => pure (.ret, cnt')
      | .ok (.ok, cnt') => exec_stmts db new rest cnt'

end

/-- Call a row trigger function: run its body with `cnt` unset. A body that ends without
`RETURN` raises an error, and a `RETURN NEW` hands back the row to store. -/
def plpgsql_exec_trigger (db : Snapshot V) (new : Row V) (body : List Stmt) :
    Except PlError (Row V) :=
  match exec_stmts db new body none with
  | .error e => .error e
  | .ok (.ret, _) => .ok new
  | .ok (.ok, _) => .error .noReturnStatement

end Exec

/-! ### Bodies without `RETURN` -/

mutual

/-- Whether a statement contains a `RETURN`. -/
def Stmt.hasReturn : Stmt → Bool
  | .selectCountInto _ _ _ => false
  | .ifCntGt _ body => stmtsHaveReturn body
  | .raiseException _ => false
  | .returnNew => true

/-- Whether a statement list contains a `RETURN`. -/
def stmtsHaveReturn : List Stmt → Bool
  | [] => false
  | s :: rest => s.hasReturn || stmtsHaveReturn rest

end

section NoReturn

variable {V : Type} [DecidableEq V]

mutual

/-- A statement that contains no `RETURN` never ends by returning. -/
theorem exec_stmt_no_return (db : Snapshot V) (new : Row V) :
    ∀ (s : Stmt) (cnt cnt' : Option Int), s.hasReturn = false →
      exec_stmt db new s cnt ≠ .ok (.ret, cnt')
  | .selectCountInto args rel qual, cnt, cnt', _ => by
      intro h
      simp only [exec_stmt, Except.bind_eq_ok_iff, Except.pure_eq_ok_iff] at h
      obtain ⟨n, -, c, -, hrc⟩ := h
      cases hrc
  | .ifCntGt bound body, cnt, cnt', hs => by
      intro h
      simp only [exec_stmt] at h
      split at h
      · exact exec_stmts_no_return db new body cnt cnt' (by simpa [Stmt.hasReturn] using hs) h
      · simp [pure, Except.pure] at h
  | .raiseException msg, cnt, cnt', _ => by
      intro h
      simp [exec_stmt] at h
  | .returnNew, cnt, cnt', hs => by
      simp [Stmt.hasReturn] at hs

/-- A statement list that contains no `RETURN` never ends by returning. -/
theorem exec_stmts_no_return (db : Snapshot V) (new : Row V) :
    ∀ (ss : List Stmt) (cnt cnt' : Option Int), stmtsHaveReturn ss = false →
      exec_stmts db new ss cnt ≠ .ok (.ret, cnt')
  | [], cnt, cnt', _ => by
      simp [exec_stmts, pure, Except.pure]
  | s :: rest, cnt, cnt', hs => by
      intro h
      simp only [stmtsHaveReturn, Bool.or_eq_false_iff] at hs
      simp only [exec_stmts] at h
      rcases hx : exec_stmt db new s cnt with e | ⟨rc, c⟩
      · rw [hx] at h
        cases h
      · rw [hx] at h
        cases rc with
        | ok => exact exec_stmts_no_return db new rest c cnt' hs.2 h
        | ret => exact exec_stmt_no_return db new s cnt c hs.1 hx

end

/-- **No `RETURN`, no row.** A trigger function whose body contains no `RETURN` raises an
error on every call, whatever the relations and the new row are. -/
theorem plpgsql_exec_trigger_error_of_no_return (db : Snapshot V) (new : Row V)
    {body : List Stmt} (hb : stmtsHaveReturn body = false) :
    ∃ e, plpgsql_exec_trigger db new body = .error e := by
  unfold plpgsql_exec_trigger
  rcases hx : exec_stmts db new body none with e | ⟨rc, c⟩
  · exact ⟨e, rfl⟩
  · cases rc with
    | ok => exact ⟨.noReturnStatement, rfl⟩
    | ret => exact absurd hx (exec_stmts_no_return db new body none c hb)

end NoReturn

end FdPostgres
