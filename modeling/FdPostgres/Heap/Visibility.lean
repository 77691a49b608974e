import FdPostgres.Heap.Tuple

/-!
# Visibility of Tuples

The decision procedures of `heapam_visibility.c`. They read the hint bits of a header and may set
them, so each returns the header it leaves behind.

* `HeapTupleSatisfiesMVCC`: a snapshot sees a tuple. Its part for the inserter either returns or
  leaves the question to its part for the deleter.
* `HeapTupleSatisfiesVacuumHorizon`, `HeapTupleSatisfiesVacuum`: what vacuum may do with a tuple.
* `HeapTupleIsSurelyDead`, `HeapTupleHeaderIsOnlyLocked`: shortcuts over the same bits.

Setting a hint also marks the buffer as dirty, which is left out.
-/

namespace FdPostgres

/-! ### Snapshots -/

section Mvcc

variable (b : XactView) (snapshot : SnapshotData) (tuple : HeapTupleHeader)

/-- `HeapTupleSatisfiesMVCC` for a tuple inserted by the current transaction. -/
def mvccOwnInsert : Bool × HeapTupleHeader :=
  if HeapTupleHeaderGetCmin b tuple ≥ snapshot.curcid then (false, tuple)
  else if has tuple.t_infomask HEAP_XMAX_INVALID then (true, tuple)
  else if HEAP_XMAX_IS_LOCKED_ONLY tuple.t_infomask then (true, tuple)
  else if has tuple.t_infomask HEAP_XMAX_IS_MULTI then
    if !TransactionIdIsCurrentTransactionId b (HeapTupleGetUpdateXid b tuple) then (true, tuple)
    else (decide (HeapTupleHeaderGetCmax b tuple ≥ snapshot.curcid), tuple)
  else if !TransactionIdIsCurrentTransactionId b tuple.t_xmax then
    (true, SetHintBits b tuple HEAP_XMAX_INVALID InvalidTransactionId)
  else (decide (HeapTupleHeaderGetCmax b tuple ≥ snapshot.curcid), tuple)

/-- The first part of `HeapTupleSatisfiesMVCC`: an answer, or the header of a tuple whose inserter
has committed. -/
def mvccInserter : (Bool × HeapTupleHeader) ⊕ HeapTupleHeader :=
  if !HeapTupleHeaderXminCommitted tuple then
    if HeapTupleHeaderXminInvalid tuple then .inl (false, tuple)
    else if has tuple.t_infomask HEAP_MOVED_OFF then
      let xvac := HeapTupleHeaderGetXvac tuple
      if TransactionIdIsCurrentTransactionId b xvac then .inl (false, tuple)
      else if !XidInMVCCSnapshot b xvac snapshot then
        if TransactionIdDidCommit b xvac then
          .inl (false, SetHintBits b tuple HEAP_XMIN_INVALID InvalidTransactionId)
        else .inr (SetHintBits b tuple HEAP_XMIN_COMMITTED InvalidTransactionId)
      else .inr tuple
    else if has tuple.t_infomask HEAP_MOVED_IN then
      let xvac := HeapTupleHeaderGetXvac tuple
      if !TransactionIdIsCurrentTransactionId b xvac then
        if XidInMVCCSnapshot b xvac snapshot then .inl (false, tuple)
        else if TransactionIdDidCommit b xvac then
          .inr (SetHintBits b tuple HEAP_XMIN_COMMITTED InvalidTransactionId)
        else .inl (false, SetHintBits b tuple HEAP_XMIN_INVALID InvalidTransactionId)
      else .inr tuple
    else if TransactionIdIsCurrentTransactionId b tuple.t_xmin then
      .inl (mvccOwnInsert b snapshot tuple)
    else if XidInMVCCSnapshot b tuple.t_xmin snapshot then .inl (false, tuple)
    else if TransactionIdDidCommit b tuple.t_xmin then
      .inr (SetHintBits b tuple HEAP_XMIN_COMMITTED tuple.t_xmin)
    else .inl (false, SetHintBits b tuple HEAP_XMIN_INVALID InvalidTransactionId)
  else if !HeapTupleHeaderXminFrozen tuple && XidInMVCCSnapshot b tuple.t_xmin snapshot then
    .inl (false, tuple)
  else .inr tuple

/-- The second part of `HeapTupleSatisfiesMVCC`: the inserter has committed. -/
def mvccDeleter : Bool × HeapTupleHeader :=
  if has tuple.t_infomask HEAP_XMAX_INVALID then (true, tuple)
  else if HEAP_XMAX_IS_LOCKED_ONLY tuple.t_infomask then (true, tuple)
  else if has tuple.t_infomask HEAP_XMAX_IS_MULTI then
    let xmax := HeapTupleGetUpdateXid b tuple
    if TransactionIdIsCurrentTransactionId b xmax then
      (decide (HeapTupleHeaderGetCmax b tuple ≥ snapshot.curcid), tuple)
    else if XidInMVCCSnapshot b xmax snapshot then (true, tuple)
    else if TransactionIdDidCommit b xmax then (false, tuple)
    else (true, tuple)
  else if !has tuple.t_infomask HEAP_XMAX_COMMITTED then
    if TransactionIdIsCurrentTransactionId b tuple.t_xmax then
      (decide (HeapTupleHeaderGetCmax b tuple ≥ snapshot.curcid), tuple)
    else if XidInMVCCSnapshot b tuple.t_xmax snapshot then (true, tuple)
    else if !TransactionIdDidCommit b tuple.t_xmax then
      (true, SetHintBits b tuple HEAP_XMAX_INVALID InvalidTransactionId)
    else (false, SetHintBits b tuple HEAP_XMAX_COMMITTED tuple.t_xmax)
  else if XidInMVCCSnapshot b tuple.t_xmax snapshot then (true, tuple)
  else (false, tuple)

def HeapTupleSatisfiesMVCC : Bool × HeapTupleHeader :=
  match mvccInserter b snapshot tuple with
  | .inl r => r
  | .inr tuple => mvccDeleter b snapshot tuple

end Mvcc

/-! ### Vacuum -/

inductive HTSV_Result where
  | DEAD
  | LIVE
  | RECENTLY_DEAD
  | INSERT_IN_PROGRESS
  | DELETE_IN_PROGRESS
  deriving Repr, DecidableEq

/-- What `HeapTupleSatisfiesVacuumHorizon` leaves: its result, the transaction after which the
tuple is dead, and the header. -/
structure VacuumVerdict where
  result : HTSV_Result
  dead_after : ℕ
  tuple : HeapTupleHeader
  deriving Repr, DecidableEq

section Vacuum

variable (b : XactView) (tuple : HeapTupleHeader)

def HeapTupleHeaderIsOnlyLocked : Bool :=
  if has tuple.t_infomask HEAP_XMAX_INVALID then true
  else if has tuple.t_infomask HEAP_XMAX_LOCK_ONLY then true
  else if !TransactionIdIsValid tuple.t_xmax then true
  else if !has tuple.t_infomask HEAP_XMAX_IS_MULTI then false
  else
    let xmax := HeapTupleGetUpdateXid b tuple
    if TransactionIdIsCurrentTransactionId b xmax then false
    else if TransactionIdIsInProgress b xmax then false
    else if TransactionIdDidCommit b xmax then false
    else true

/-- A verdict without a horizon. -/
def verdict (result : HTSV_Result) (tuple : HeapTupleHeader) : VacuumVerdict :=
  ⟨result, InvalidTransactionId, tuple⟩

/-- The first part of `HeapTupleSatisfiesVacuumHorizon`: a verdict, or the header of a tuple whose
inserter has committed. -/
def vacuumInserter : VacuumVerdict ⊕ HeapTupleHeader :=
  if !HeapTupleHeaderXminCommitted tuple then
    if HeapTupleHeaderXminInvalid tuple then .inl (verdict .DEAD tuple)
    else if has tuple.t_infomask HEAP_MOVED_OFF then
      let xvac := HeapTupleHeaderGetXvac tuple
      if TransactionIdIsCurrentTransactionId b xvac then .inl (verdict .DELETE_IN_PROGRESS tuple)
      else if TransactionIdIsInProgress b xvac then .inl (verdict .DELETE_IN_PROGRESS tuple)
      else if TransactionIdDidCommit b xvac then
        .inl (verdict .DEAD (SetHintBits b tuple HEAP_XMIN_INVALID InvalidTransactionId))
      else .inr (SetHintBits b tuple HEAP_XMIN_COMMITTED InvalidTransactionId)
    else if has tuple.t_infomask HEAP_MOVED_IN then
      let xvac := HeapTupleHeaderGetXvac tuple
      if TransactionIdIsCurrentTransactionId b xvac then .inl (verdict .INSERT_IN_PROGRESS tuple)
      else if TransactionIdIsInProgress b xvac then .inl (verdict .INSERT_IN_PROGRESS tuple)
      else if TransactionIdDidCommit b xvac then
        .inr (SetHintBits b tuple HEAP_XMIN_COMMITTED InvalidTransactionId)
      else .inl (verdict .DEAD (SetHintBits b tuple HEAP_XMIN_INVALID InvalidTransactionId))
    else if TransactionIdIsCurrentTransactionId b tuple.t_xmin then
      if has tuple.t_infomask HEAP_XMAX_INVALID then .inl (verdict .INSERT_IN_PROGRESS tuple)
      else if HEAP_XMAX_IS_LOCKED_ONLY tuple.t_infomask || HeapTupleHeaderIsOnlyLocked b tuple then
        .inl (verdict .INSERT_IN_PROGRESS tuple)
      else if TransactionIdIsCurrentTransactionId b (HeapTupleHeaderGetUpdateXid b tuple) then
        .inl (verdict .DELETE_IN_PROGRESS tuple)
      else .inl (verdict .INSERT_IN_PROGRESS tuple)
    else if TransactionIdIsInProgress b tuple.t_xmin then
      .inl (verdict .INSERT_IN_PROGRESS tuple)
    else if TransactionIdDidCommit b tuple.t_xmin then
      .inr (SetHintBits b tuple HEAP_XMIN_COMMITTED tuple.t_xmin)
    else .inl (verdict .DEAD (SetHintBits b tuple HEAP_XMIN_INVALID InvalidTransactionId))
  else .inr tuple

/-- The second part of `HeapTupleSatisfiesVacuumHorizon`: the inserter has committed. -/
def vacuumDeleter : VacuumVerdict :=
  if has tuple.t_infomask HEAP_XMAX_INVALID then verdict .LIVE tuple
  else if HEAP_XMAX_IS_LOCKED_ONLY tuple.t_infomask then
    if !has tuple.t_infomask HEAP_XMAX_COMMITTED then
      if has tuple.t_infomask HEAP_XMAX_IS_MULTI then
        if !HEAP_LOCKED_UPGRADED tuple.t_infomask && MultiXactIdIsRunning b tuple.t_xmax true then
          verdict .LIVE tuple
        else verdict .LIVE (SetHintBits b tuple HEAP_XMAX_INVALID InvalidTransactionId)
      else if TransactionIdIsInProgress b tuple.t_xmax then verdict .LIVE tuple
      else verdict .LIVE (SetHintBits b tuple HEAP_XMAX_INVALID InvalidTransactionId)
    else verdict .LIVE tuple
  else if has tuple.t_infomask HEAP_XMAX_IS_MULTI then
    let xmax := HeapTupleGetUpdateXid b tuple
    if TransactionIdIsInProgress b xmax then verdict .DELETE_IN_PROGRESS tuple
    else if TransactionIdDidCommit b xmax then ⟨.RECENTLY_DEAD, xmax, tuple⟩
    else if !MultiXactIdIsRunning b tuple.t_xmax false then
      verdict .LIVE (SetHintBits b tuple HEAP_XMAX_INVALID InvalidTransactionId)
    else verdict .LIVE tuple
  else if !has tuple.t_infomask HEAP_XMAX_COMMITTED then
    if TransactionIdIsInProgress b tuple.t_xmax then verdict .DELETE_IN_PROGRESS tuple
    else if TransactionIdDidCommit b tuple.t_xmax then
      ⟨.RECENTLY_DEAD, tuple.t_xmax, SetHintBits b tuple HEAP_XMAX_COMMITTED tuple.t_xmax⟩
    else verdict .LIVE (SetHintBits b tuple HEAP_XMAX_INVALID InvalidTransactionId)
  else ⟨.RECENTLY_DEAD, tuple.t_xmax, tuple⟩

def HeapTupleSatisfiesVacuumHorizon : VacuumVerdict :=
  match vacuumInserter b tuple with
  | .inl v => v
  | .inr tuple => vacuumDeleter b tuple

def HeapTupleSatisfiesVacuum (OldestXmin : ℕ) : HTSV_Result × HeapTupleHeader :=
  let v := HeapTupleSatisfiesVacuumHorizon b tuple
  if v.result = .RECENTLY_DEAD then
    (if TransactionIdPrecedes v.dead_after OldestXmin then .DEAD else .RECENTLY_DEAD, v.tuple)
  else (v.result, v.tuple)

/-- `HeapTupleIsSurelyDead`, with `GlobalVisTestIsRemovableXid` for its horizon. -/
def HeapTupleIsSurelyDead (tuple : HeapTupleHeader) (isRemovable : ℕ → Bool) : Bool :=
  if !HeapTupleHeaderXminCommitted tuple then HeapTupleHeaderXminInvalid tuple
  else if has tuple.t_infomask HEAP_XMAX_INVALID then false
  else if HEAP_XMAX_IS_LOCKED_ONLY tuple.t_infomask then false
  else if has tuple.t_infomask HEAP_XMAX_IS_MULTI then false
  else if !has tuple.t_infomask HEAP_XMAX_COMMITTED then false
  else isRemovable tuple.t_xmax

end Vacuum

end FdPostgres
