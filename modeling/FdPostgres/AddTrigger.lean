import FdPostgres.Plpgsql

/-!
# The Generated Check of a Functional Dependency

`add_trigger` turns a registered dependency `lhs -> rhs` on a relation into the text of a
trigger function and of a `BEFORE INSERT OR UPDATE ... FOR EACH ROW` trigger. This module
models the text generator and identifies the text with the program it is the concrete
syntax of.

* `add_trigger_command` is the text handed to the server, built as the source builds it:
  buffers filled by `append` loops and one format string. The buffer `L` of the source is
  filled and never used, so it has no counterpart here.
* `fdCheck` and `fdTrigger` are the function and the trigger the text denotes.

## Main results

* `add_trigger_command_eq_render`: the text is exactly the rendering of the two.
* `fdCheck_has_no_return`: the generated function contains no `RETURN`.
-/

namespace FdPostgres

/-! ### The text generator -/

/-- The arguments of `add_trigger`: the identifier of the dependency, the relation, and
the two column lists. -/
structure FdSpec where
  fd_id : String
  relation : String
  lhs : List String
  rhs : List String
  deriving Repr, DecidableEq

/-- A text as the chunks it is written in; its content is their concatenation. -/
abbrev Text := List String

/-- One of the `append` loops of `add_trigger`: write `f col` for every column, and `sep`
after each column but the last. -/
def appendLoop (sep : String) (f : String → Text) : List String → Text
  | [] => []
  | [col] => f col
  | col :: next :: rest => f col ++ sep :: appendLoop sep f (next :: rest)

/-- The buffer `R`: the right-hand columns separated by commas. -/
def rhsText (rhs : List String) : Text :=
  appendLoop "," (fun col => [col]) rhs

/-- The buffer `cond`: the comparisons `col=NEW.col` separated by ` AND `. -/
def condText (lhs : List String) : Text :=
  appendLoop " AND " (fun col => [col, "=NEW.", col]) lhs

variable (fd : FdSpec)

/-- The command of `add_trigger`: its format string with the seven `%s` filled in. The
continuation lines of the source put their leading tabs into the text. -/
def add_trigger_command : Text :=
  ["CREATE FUNCTION ", fd.fd_id, "_check", "() RETURNS TRIGGER language plpgsql \t\t\t",
    "as $$\t\t\tdeclare \t\t\t\tcnt integer;\t\t\tbegin\t\t\t\t",
    "SELECT COUNT(DISTINCT "] ++ rhsText fd.rhs ++
  [")  \t\t\t\tINTO cnt\t\t\t\tFROM ", fd.relation, " \t\t\t\tWHERE "] ++
  condText fd.lhs ++
  [" ;\t\t\t\t", "if cnt > ", "1", " THEN \t\t\t\t",
    "RAISE EXCEPTION '", "Functional dependency fd1 failed", "'; \t\t\t\t",
    "END IF;\t\t\t", "end;\t\t\t$$ ;\t\t\t",
    "CREATE TRIGGER ", "trigg_", fd.fd_id, " BEFORE INSERT OR UPDATE ON ", fd.relation,
    " \t\t\tFOR EACH ROW \t\t\tEXECUTE FUNCTION ", fd.fd_id, "_check", "();"]

/-! ### The program the text denotes -/

/-- The `WHERE` clause that a non-empty list of compared columns denotes. -/
def qualOf (col : String) : List String → Qual
  | [] => .eqNew col
  | next :: rest => .and (.eqNew col) (qualOf next rest)

/-- A trigger function without arguments, declaring `cnt integer`. Its name is kept in the
chunks it is written in. -/
structure TriggerFunction where
  name : Text
  body : List Stmt

/-- A `BEFORE INSERT OR UPDATE ... FOR EACH ROW` trigger. -/
structure RowTrigger where
  name : Text
  relation : String
  function : Text
  deriving Repr, DecidableEq

variable (col : String) (cols : List String)

/-- The check function generated for a dependency whose left-hand columns are
`col :: cols`. -/
def fdCheck : TriggerFunction where
  name := [fd.fd_id, "_check"]
  body := [ .selectCountInto fd.rhs fd.relation (qualOf col cols),
      .ifCntGt 1 [.raiseException "Functional dependency fd1 failed"] ]

/-- The trigger generated for a dependency. -/
def fdTrigger : RowTrigger where
  name := ["trigg_", fd.fd_id]
  relation := fd.relation
  function := [fd.fd_id, "_check"]

/-- The concrete syntax of a `WHERE` clause. -/
def Qual.render : Qual → Text
  | .eqNew col => [col, "=NEW.", col]
  | .and left right => left.render ++ " AND " :: right.render

mutual

/-- The concrete syntax of a statement, in the layout of the source. -/
def Stmt.render : Stmt → Text
  | .selectCountInto args rel qual =>
      "SELECT COUNT(DISTINCT " :: appendLoop "," (fun col => [col]) args ++
      [")  \t\t\t\tINTO cnt\t\t\t\tFROM ", rel, " \t\t\t\tWHERE "] ++ qual.render ++
      [" ;\t\t\t\t"]
  | .ifCntGt bound body =>
      ["if cnt > ", toString bound, " THEN \t\t\t\t"] ++ renderStmts body ++
      ["END IF;\t\t\t"]
  | .raiseException msg => ["RAISE EXCEPTION '", msg, "'; \t\t\t\t"]
  | .returnNew => ["RETURN NEW;\t\t\t"]

/-- The concrete syntax of a statement list. -/
def renderStmts : List Stmt → Text
  | [] => []
  | s :: rest => s.render ++ renderStmts rest

end

/-- The concrete syntax of a `CREATE FUNCTION` command. -/
def TriggerFunction.render (f : TriggerFunction) : Text :=
  "CREATE FUNCTION " :: f.name ++
  ["() RETURNS TRIGGER language plpgsql \t\t\t",
    "as $$\t\t\tdeclare \t\t\t\tcnt integer;\t\t\tbegin\t\t\t\t"] ++
  renderStmts f.body ++ ["end;\t\t\t$$ ;\t\t\t"]

/-- The concrete syntax of a `CREATE TRIGGER` command. -/
def RowTrigger.render (t : RowTrigger) : Text :=
  "CREATE TRIGGER " :: t.name ++
  [" BEFORE INSERT OR UPDATE ON ", t.relation,
    " \t\t\tFOR EACH ROW \t\t\tEXECUTE FUNCTION "] ++ t.function ++ ["();"]

/-- The condition loop writes the clause that the column list denotes. -/
theorem condText_eq_render : condText (col :: cols) = (qualOf col cols).render := by
  induction cols generalizing col with
  | nil => rfl
  | cons next rest ih =>
    have hstep : condText (col :: next :: rest) =
        [col, "=NEW.", col] ++ " AND " :: condText (next :: rest) := rfl
    rw [hstep, ih next]
    rfl

/-- **The text is the program.** The command built by `add_trigger` is the concrete
syntax of the check function followed by that of the trigger. -/
theorem add_trigger_command_eq_render (hl : fd.lhs = col :: cols) :
    add_trigger_command fd = (fdCheck fd col cols).render ++ (fdTrigger fd).render := by
  have hone : toString (1 : Int) = "1" := rfl
  rw [add_trigger_command, hl, condText_eq_render]
  simp [TriggerFunction.render, RowTrigger.render, fdCheck, fdTrigger, renderStmts, Stmt.render,
    rhsText, hone]

/-- The generated function contains no `RETURN`: its last statement is the `END IF`. -/
theorem fdCheck_has_no_return : stmtsHaveReturn (fdCheck fd col cols).body = false :=
  rfl

end FdPostgres
