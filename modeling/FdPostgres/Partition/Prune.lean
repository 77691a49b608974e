import FdPostgres.Partition.Bounds
import Mathlib

/-!
# Partition Pruning

The planner turns the conditions on a partition key into a list of steps. A base step looks up the
values of some conditions among the bounds; a combine step takes the union or the intersection of
the results of steps before it. The result of a step is a set of offsets of bounds, with flags for
the null-accepting and the default partition; `get_matching_partitions` translates the result of the
last step into partitions.

The default partition of a range partitioned table can be asked for in two ways: by the flag, and by
an offset whose index is -1.

* `PartitionPruneStep`, `PruneStepResult`: steps and their results.
* `get_matching_hash_bounds`, `get_matching_list_bounds`, `get_matching_range_bounds`: base steps.
* `perform_pruning_combine_step`, `get_matching_partitions`.

A result of `none` stands for an error or an assertion that fails.
-/

namespace FdPostgres.Partition

open Finset

/-! ### Steps -/

inductive StrategyNumber where
  | InvalidStrategy
  | BTLess
  | BTLessEqual
  | BTEqual
  | BTGreaterEqual
  | BTGreater
  | HTEqual
  deriving Repr, DecidableEq

/-- `PartitionPruneStepOp`, with the expressions evaluated: `none` is a null. -/
structure PartitionPruneStepOp (δ : Type) where
  opstrategy : StrategyNumber
  exprs : List (Option δ)
  cmpfns : ℕ → δ → δ → ℤ
  nullkeys : List ℕ

inductive PartitionPruneCombineOp where
  | UNION
  | INTERSECT
  deriving Repr, DecidableEq

/-- `PartitionPruneStep`. The `step_id` of a step is its position in the list of steps. -/
inductive PartitionPruneStep (δ : Type) where
  | StepOp (opstep : PartitionPruneStepOp δ)
  | StepCombine (combineOp : PartitionPruneCombineOp) (source_stepids : List ℕ)

structure PruneStepResult where
  bound_offsets : Finset ℕ
  scan_default : Bool
  scan_null : Bool
  deriving DecidableEq

/-- The parts of `PartitionPruneContext` that do not change. -/
structure PartitionPruneContext (δ : Type) where
  key : PartitionKey δ
  boundinfo : PartitionBoundInfo δ
  nparts : ℕ

variable {δ : Type}

/-- Nothing matches. -/
def noMatch : PruneStepResult := ⟨∅, false, false⟩

/-! ### Base steps -/

/-- `get_matching_hash_bounds`. The values of the columns without a condition are missing. -/
def get_matching_hash_bounds (context : PartitionPruneContext δ) (values : List (Option δ))
    (nvalues : ℕ) (nullkeys : List ℕ) : PruneStepResult :=
  let boundinfo := context.boundinfo
  if nvalues + nullkeys.dedup.length = context.key.partnatts then
    let offset := context.key.compute_partition_hash_value values % boundinfo.nindexes
    if boundinfo.index offset ≥ 0 then ⟨{offset}, false, false⟩ else noMatch
  else ⟨range boundinfo.nindexes, false, false⟩

variable (boundinfo : PartitionBoundInfo δ)

/-- The flag for the default partition alone, if there is one. -/
def onlyDefault : PruneStepResult :=
  ⟨∅, partition_bound_has_default boundinfo, false⟩

def get_matching_list_bounds (context : PartitionPruneContext δ) (opstrategy : StrategyNumber)
    (values : List δ) (partsupfunc : ℕ → δ → δ → ℤ) (nullkeys : List ℕ) :
    Option PruneStepResult :=
  let boundinfo := context.boundinfo
  let has_default := partition_bound_has_default boundinfo
  let ndatums := boundinfo.ndatums
  if nullkeys ≠ [] then
    if partition_bound_accepts_nulls boundinfo then some ⟨∅, false, true⟩
    else some (onlyDefault boundinfo)
  else if ndatums = 0 then some (onlyDefault boundinfo)
  else
    match values with
    | [] => some ⟨range ndatums, has_default, false⟩
    | value :: _ =>
        match partition_list_bsearch partsupfunc boundinfo value with
        | (off, is_equal) =>
            match opstrategy with
            | .InvalidStrategy =>
                if off ≥ 0 ∧ is_equal then
                  some ⟨(range ndatums).erase off.toNat, has_default, false⟩
                else some ⟨range ndatums, has_default, false⟩
            | .BTEqual =>
                if off ≥ 0 ∧ is_equal then some ⟨{off.toNat}, false, false⟩
                else some (onlyDefault boundinfo)
            | .BTGreaterEqual =>
                let minoff := if off ≥ 0 then (if is_equal then off else off + 1) else 0
                some ⟨Finset.Ico minoff.toNat ndatums, has_default, false⟩
            | .BTGreater =>
                let minoff := if off ≥ 0 then off + 1 else 0
                some ⟨Finset.Ico minoff.toNat ndatums, has_default, false⟩
            | .BTLessEqual => some ⟨range (off + 1).toNat, has_default, false⟩
            | .BTLess =>
                let maxoff := if off ≥ 0 ∧ is_equal then off - 1 else off
                some ⟨range (maxoff + 1).toNat, has_default, false⟩
            | .HTEqual => none

/-- The loop that goes down over bounds with the same prefix. -/
def prefixDown (same : ℕ → Bool) : ℕ → ℕ
  | 0 => 0
  | off + 1 => if same off then prefixDown same off else off + 1

/-- The loop that goes up over bounds with the same prefix. -/
def prefixUp (same : ℕ → Bool) (ndatums : ℕ) : ℕ → ℕ → ℕ
  | 0, off => off
  | fuel + 1, off =>
      if off < ndatums - 1 ∧ same (off + 1) then prefixUp same ndatums fuel (off + 1) else off

/-- The loop that goes up or down, as long as it has not reached the first or the last bound. -/
def prefixInside (same : ℕ → Bool) (ndatums : ℕ) (down : Bool) : ℕ → ℕ → ℕ
  | 0, off => off
  | fuel + 1, off =>
      if off ≥ 1 ∧ off < ndatums - 1 then
        let nextoff := if down then off - 1 else off + 1
        if same nextoff then prefixInside same ndatums down fuel nextoff else off
      else off

/-- The offsets between `minoff` and `maxoff` at the end of `get_matching_range_bounds`, without
those at the ends that only stand for an infinite bound. -/
def rangeOffsets [DecidableEq δ] (nvalues minoff maxoff : ℕ) : Finset ℕ :=
  let minoff :=
    if minoff < boundinfo.ndatums ∧ boundinfo.index minoff < 0 ∧
        (boundinfo.datum minoff).getD (nvalues - 1) .MAXVALUE = .MINVALUE then minoff + 1
    else minoff
  let maxoff :=
    if maxoff ≥ 1 ∧ boundinfo.index maxoff < 0 ∧
        (boundinfo.datum (maxoff - 1)).getD (nvalues - 1) .MINVALUE = .MAXVALUE then maxoff - 1
    else maxoff
  Finset.Icc minoff maxoff

def get_matching_range_bounds [DecidableEq δ] (context : PartitionPruneContext δ)
    (opstrategy : StrategyNumber) (values : List δ) (partsupfunc : ℕ → δ → δ → ℤ)
    (nullkeys : List ℕ) : Option PruneStepResult :=
  let boundinfo := context.boundinfo
  let has_default := partition_bound_has_default boundinfo
  let ndatums := boundinfo.ndatums
  let nvalues := values.length
  let partial_key := decide (nvalues < context.key.partnatts)
  if ndatums = 0 ∨ nullkeys ≠ [] then some (onlyDefault boundinfo)
  else if nvalues = 0 then
    let minoff := if boundinfo.index 0 < 0 then 1 else 0
    let maxoff := if boundinfo.index ndatums < 0 then ndatums - 1 else ndatums
    if boundinfo.index minoff ≥ 0 ∧ boundinfo.index maxoff ≥ 0 then
      some ⟨Finset.Icc minoff maxoff, has_default, false⟩
    else none
  else
    let scan_default := partial_key && has_default
    let same := fun i =>
      partition_rbound_datum_cmp partsupfunc (boundinfo.datum i) values == 0
    match partition_range_datum_bsearch partsupfunc boundinfo values with
    | (off, is_equal) =>
        let matched := decide (off ≥ 0) && is_equal && partial_key
        let next := (off + 1).toNat
        match opstrategy with
        | .BTEqual =>
            if matched then
              let low := prefixDown same off.toNat
              let minoff :=
                if (boundinfo.datum low).getD nvalues .MAXVALUE = .MINVALUE then low + 1 else low
              let maxoff := prefixUp same ndatums ndatums off.toNat + 1
              some ⟨Finset.Icc minoff maxoff, scan_default, false⟩
            else some ⟨{next}, scan_default, false⟩
        | .BTGreaterEqual =>
            let minoff :=
              if matched then prefixInside same ndatums true ndatums off.toNat else next
            some ⟨rangeOffsets boundinfo nvalues minoff ndatums, scan_default, false⟩
        | .BTGreater =>
            let minoff :=
              if matched then prefixInside same ndatums false ndatums off.toNat + 1 else next
            some ⟨rangeOffsets boundinfo nvalues minoff ndatums, scan_default, false⟩
        | .BTLessEqual =>
            let maxoff :=
              if matched then prefixInside same ndatums false ndatums off.toNat + 1 else next
            some ⟨rangeOffsets boundinfo nvalues 0 maxoff, scan_default, false⟩
        | .BTLess =>
            let maxoff :=
              if matched then prefixInside same ndatums true ndatums off.toNat
              else if off ≥ 0 ∧ is_equal then off.toNat
              else next
            some ⟨rangeOffsets boundinfo nvalues 0 maxoff, scan_default, false⟩
        | _ => none

/-- The loop of `perform_pruning_base_step` that assigns the values to the columns from `keyno` on:
the values, with `none` for a column without one, and whether one of them is null. -/
def lookupKey (strategy : PartitionStrategy) (partnatts : ℕ) (nullkeys : List ℕ) :
    ℕ → ℕ → ℕ → List (Option δ) → List (Option δ) × Bool
  | 0, _, _, _ => ([], false)
  | fuel + 1, keyno, nvalues, exprs =>
      if keyno ≥ partnatts then ([], false)
      else if nullkeys.contains keyno then
        match lookupKey strategy partnatts nullkeys fuel (keyno + 1) nvalues exprs with
        | (values, isnull) => (none :: values, isnull)
      else if keyno > nvalues ∧ strategy = .RANGE then ([], false)
      else
        match exprs with
        | [] =>
            match lookupKey strategy partnatts nullkeys fuel (keyno + 1) nvalues [] with
            | (values, isnull) => (none :: values, isnull)
        | none :: _ => ([], true)
        | some datum :: exprs =>
            match lookupKey strategy partnatts nullkeys fuel (keyno + 1) (nvalues + 1) exprs with
            | (values, isnull) => (some datum :: values, isnull)

def perform_pruning_base_step [DecidableEq δ] (context : PartitionPruneContext δ)
    (opstep : PartitionPruneStepOp δ) : Option PruneStepResult :=
  match lookupKey context.boundinfo.strategy context.key.partnatts opstep.nullkeys
      (context.key.partnatts + 1) 0 0 opstep.exprs with
  | (values, isnull) =>
      if isnull then some noMatch
      else
        match context.boundinfo.strategy with
        | .HASH =>
            some (get_matching_hash_bounds context values (values.filterMap id).length
              opstep.nullkeys)
        | .LIST =>
            get_matching_list_bounds context opstep.opstrategy (values.filterMap id) opstep.cmpfns
              opstep.nullkeys
        | .RANGE =>
            get_matching_range_bounds context opstep.opstrategy (values.filterMap id) opstep.cmpfns
              opstep.nullkeys

/-! ### Combine steps -/

/-- The result of a combine step without source steps: no pruning. -/
def allMatch : PruneStepResult where
  bound_offsets := range boundinfo.nindexes
  scan_default := partition_bound_has_default boundinfo
  scan_null := partition_bound_accepts_nulls boundinfo

/-- The union of two results. -/
def unionResult (result step_result : PruneStepResult) : PruneStepResult where
  bound_offsets := result.bound_offsets ∪ step_result.bound_offsets
  scan_default := result.scan_default || step_result.scan_default
  scan_null := result.scan_null || step_result.scan_null

/-- The intersection of two results. -/
def intersectResult (result step_result : PruneStepResult) : PruneStepResult where
  bound_offsets := result.bound_offsets ∩ step_result.bound_offsets
  scan_default := result.scan_default && step_result.scan_default
  scan_null := result.scan_null && step_result.scan_null

/-- `perform_pruning_combine_step`, given the results of the steps before. -/
def perform_pruning_combine_step (combineOp : PartitionPruneCombineOp) (source_stepids : List ℕ)
    (step_results : List PruneStepResult) : Option PruneStepResult :=
  match source_stepids.mapM (fun step_id => step_results[step_id]?) with
  | none => none
  | some [] => some (allMatch boundinfo)
  | some (first :: rest) =>
      match combineOp with
      | .UNION => some ((first :: rest).foldl unionResult noMatch)
      | .INTERSECT => some (rest.foldl intersectResult first)

/-- A step, given the results of the steps before. -/
def performStep [DecidableEq δ] (context : PartitionPruneContext δ)
    (step_results : List PruneStepResult) : PartitionPruneStep δ → Option PruneStepResult
  | .StepOp opstep => perform_pruning_base_step context opstep
  | .StepCombine combineOp source_stepids =>
      perform_pruning_combine_step context.boundinfo combineOp source_stepids step_results

/-- The loop of `get_matching_partitions` over the steps: their results in order. -/
def performSteps [DecidableEq δ] (context : PartitionPruneContext δ) :
    List (PartitionPruneStep δ) → List PruneStepResult → Option (List PruneStepResult)
  | [], results => some results
  | step :: steps, results =>
      match performStep context results step with
      | none => none
      | some result => performSteps context steps (results ++ [result])

/-- The partitions of a result, `none` if it names an offset or a partition that is not there. An
offset without a partition asks for the default one. -/
def resultPartitions (final_result : PruneStepResult) : Option (Finset ℤ) :=
  if (∀ i ∈ final_result.bound_offsets, i < boundinfo.nindexes) ∧
      (final_result.scan_null = true → partition_bound_accepts_nulls boundinfo = true) ∧
      (final_result.scan_default = true → partition_bound_has_default boundinfo = true) then
    let found := final_result.bound_offsets.image boundinfo.index
    let scan_default := final_result.scan_default ||
      (decide (∃ partindex ∈ found, partindex < 0) && partition_bound_has_default boundinfo)
    some (found.filter (0 ≤ ·) ∪ (if final_result.scan_null then {boundinfo.null_index} else ∅) ∪
      if scan_default then {boundinfo.default_index} else ∅)
  else none

def get_matching_partitions [DecidableEq δ] (context : PartitionPruneContext δ)
    (pruning_steps : List (PartitionPruneStep δ)) : Option (Finset ℤ) :=
  if pruning_steps = [] then some ((range context.nparts).image Int.ofNat)
  else
    match performSteps context pruning_steps [] with
    | none => none
    | some results =>
        match results.getLast? with
        | none => none
        | some final_result => resultPartitions context.boundinfo final_result

end FdPostgres.Partition
