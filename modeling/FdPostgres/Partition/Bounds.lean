import Mathlib

/-!
# Bounds of Partitioned Tables

`PartitionBoundInfo` is what a partitioned table knows about its partitions: bound datums in
ascending order, and an array `indexes` that says which partition belongs to a datum. In a range
partitioned table, the index at an offset is that of the partition below the bound, and -1 where no
partition covers the keys below it; there is one more index than there are bounds. In a list
partitioned table, each listed value has its index. In a hash partitioned table, there is an index
for each remainder of the greatest modulus.

* `PartitionBoundInfo`, `PartitionKey`: the bounds, and how keys are compared and hashed.
* `partition_bsearch`: the loop of `partition_list_bsearch` and `partition_range_datum_bsearch`.
* `get_partition_for_tuple`: the partition a row goes to.
-/

namespace FdPostgres.Partition

/-- `PARTITION_STRATEGY_HASH`, `PARTITION_STRATEGY_LIST`, `PARTITION_STRATEGY_RANGE`. -/
inductive PartitionStrategy where
  | HASH
  | LIST
  | RANGE
  deriving Repr, DecidableEq

/-- A bound datum with its `PartitionRangeDatumKind`: only `PARTITION_RANGE_DATUM_VALUE` has a
value. -/
inductive PartitionRangeDatum (δ : Type) where
  | MINVALUE
  | VALUE (value : δ)
  | MAXVALUE
  deriving Repr, DecidableEq

/-- `PartitionBoundInfoData`. The bounds of hash partitions, pairs of a modulus and a remainder, are
left out: `indexes` has what is needed to find a partition. -/
structure PartitionBoundInfo (δ : Type) where
  strategy : PartitionStrategy
  datums : List (List (PartitionRangeDatum δ))
  indexes : List ℤ
  null_index : ℤ
  default_index : ℤ

variable {δ : Type} (boundinfo : PartitionBoundInfo δ)

def PartitionBoundInfo.ndatums : ℕ := boundinfo.datums.length

def PartitionBoundInfo.nindexes : ℕ := boundinfo.indexes.length

/-- An entry of `indexes`. -/
def PartitionBoundInfo.index (i : ℕ) : ℤ :=
  boundinfo.indexes.getD i (-1)

/-- The datums of the bound at an offset. -/
def PartitionBoundInfo.datum (i : ℕ) : List (PartitionRangeDatum δ) :=
  boundinfo.datums.getD i []

def partition_bound_accepts_nulls : Bool :=
  decide (boundinfo.null_index ≠ -1)

def partition_bound_has_default : Bool :=
  decide (boundinfo.default_index ≠ -1)

/-- The parts of `PartitionKey` that are used to find a partition: the number of columns, the
comparison functions of the columns, and `compute_partition_hash_value`. -/
structure PartitionKey (δ : Type) where
  partnatts : ℕ
  partsupfunc : ℕ → δ → δ → ℤ
  compute_partition_hash_value : List (Option δ) → ℕ

/-- The loop of `partition_rbound_datum_cmp`, from a column on, with the last comparison. -/
def rboundDatumLoop (partsupfunc : ℕ → δ → δ → ℤ) :
    ℕ → ℤ → List (PartitionRangeDatum δ) → List δ → ℤ
  | i, _, rb :: rb_datums, value :: tuple_datums =>
      match rb with
      | .MINVALUE => -1
      | .MAXVALUE => 1
      | .VALUE rb =>
          let cmpval := partsupfunc i rb value
          if cmpval ≠ 0 then cmpval
          else rboundDatumLoop partsupfunc (i + 1) cmpval rb_datums tuple_datums
  | _, cmpval, _, _ => cmpval

variable (partsupfunc : ℕ → δ → δ → ℤ)

def partition_rbound_datum_cmp (rb_datums : List (PartitionRangeDatum δ)) (tuple_datums : List δ) :
    ℤ :=
  rboundDatumLoop partsupfunc 0 (-1) rb_datums tuple_datums

/-- The loop of the binary searches over the bounds: the offset of the greatest bound that does not
compare as greater, or -1, and whether it is equal. -/
def bsearchLoop (cmp : ℕ → ℤ) : ℕ → ℤ → ℤ → Bool → ℤ × Bool
  | 0, lo, _, is_equal => (lo, is_equal)
  | fuel + 1, lo, hi, is_equal =>
      if lo < hi then
        let mid := (lo + hi + 1) / 2
        let cmpval := cmp mid.toNat
        if cmpval = 0 then (mid, true)
        else if cmpval < 0 then bsearchLoop cmp fuel mid hi false
        else bsearchLoop cmp fuel lo (mid - 1) is_equal
      else (lo, is_equal)

/-- A binary search over all bounds. -/
def partition_bsearch (cmp : ℕ → ℤ) : ℤ × Bool :=
  bsearchLoop cmp (boundinfo.ndatums + 1) (-1) (boundinfo.ndatums - 1) false

def partition_range_datum_bsearch (boundinfo : PartitionBoundInfo δ) (values : List δ) : ℤ × Bool :=
  partition_bsearch boundinfo fun mid =>
    partition_rbound_datum_cmp partsupfunc (boundinfo.datum mid) values

/-- `partition_list_bsearch`. A list bound has one datum, and it is a value. -/
def partition_list_bsearch (boundinfo : PartitionBoundInfo δ) (value : δ) : ℤ × Bool :=
  partition_bsearch boundinfo fun mid =>
    match boundinfo.datum mid with
    | .VALUE datum :: _ => partsupfunc 0 datum value
    | _ => -1

/-- `get_partition_for_tuple`, for the values of the key columns of a row. -/
def get_partition_for_tuple (key : PartitionKey δ) (boundinfo : PartitionBoundInfo δ)
    (values : List (Option δ)) : ℤ :=
  let part_index : ℤ :=
    match boundinfo.strategy with
    | .HASH => boundinfo.index (key.compute_partition_hash_value values % boundinfo.nindexes)
    | .LIST =>
        match values with
        | some value :: _ =>
            match partition_list_bsearch key.partsupfunc boundinfo value with
            | (bound_offset, equal) =>
                if bound_offset ≥ 0 ∧ equal then boundinfo.index bound_offset.toNat else -1
        | _ => if partition_bound_accepts_nulls boundinfo then boundinfo.null_index else -1
    | .RANGE =>
        if values.any Option.isNone then -1
        else
          match partition_range_datum_bsearch key.partsupfunc boundinfo (values.filterMap id) with
          | (bound_offset, _) => boundinfo.index (bound_offset + 1).toNat
  if part_index < 0 then boundinfo.default_index else part_index

end FdPostgres.Partition
