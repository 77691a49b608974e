import FdPostgres.Multixact.State

/-!
# Tuple Headers and Transactions

The parts of a heap tuple header that decide who sees the tuple: the inserting and the deleting
transaction, the command, and the bits of `t_infomask`. Some bits say what the fields mean (the
deleter is a multixact, or only a locker), others are hints about the outcome of the transactions.

* `HeapTupleHeader` and the macros of `htup_details.h` over its bits.
* `XactView`: what a backend is told about transactions. The outcomes, its own transactions, the
  members of multixacts, and whether a commit is safely on disk.
* `SnapshotData`, `XidInMVCCSnapshot`: a snapshot, and the transactions it takes for running.
* `has_or`, `xminInvalid_eq`, `xminFrozen_eq`, `lockedOnly_eq`: the macros bit by bit.
-/

namespace FdPostgres

open BitVec

/-! ### Bits -/

/-- A bit of a mask is set. -/
def has (infomask mask : BitVec 16) : Bool := infomask &&& mask != 0#16

def HEAP_XMAX_KEYSHR_LOCK : BitVec 16 := 0x0010#16

def HEAP_COMBOCID : BitVec 16 := 0x0020#16

def HEAP_XMAX_EXCL_LOCK : BitVec 16 := 0x0040#16

def HEAP_XMAX_LOCK_ONLY : BitVec 16 := 0x0080#16

def HEAP_XMAX_SHR_LOCK : BitVec 16 := HEAP_XMAX_EXCL_LOCK ||| HEAP_XMAX_KEYSHR_LOCK

def HEAP_LOCK_MASK : BitVec 16 :=
  HEAP_XMAX_SHR_LOCK ||| HEAP_XMAX_EXCL_LOCK ||| HEAP_XMAX_KEYSHR_LOCK

def HEAP_XMIN_COMMITTED : BitVec 16 := 0x0100#16

def HEAP_XMIN_INVALID : BitVec 16 := 0x0200#16

def HEAP_XMIN_FROZEN : BitVec 16 := HEAP_XMIN_COMMITTED ||| HEAP_XMIN_INVALID

def HEAP_XMAX_COMMITTED : BitVec 16 := 0x0400#16

def HEAP_XMAX_INVALID : BitVec 16 := 0x0800#16

def HEAP_XMAX_IS_MULTI : BitVec 16 := 0x1000#16

def HEAP_MOVED_OFF : BitVec 16 := 0x4000#16

def HEAP_MOVED_IN : BitVec 16 := 0x8000#16

def HEAP_MOVED : BitVec 16 := HEAP_MOVED_OFF ||| HEAP_MOVED_IN

def HEAP_XMAX_IS_LOCKED_ONLY (infomask : BitVec 16) : Bool :=
  has infomask HEAP_XMAX_LOCK_ONLY ||
    infomask &&& (HEAP_XMAX_IS_MULTI ||| HEAP_LOCK_MASK) == HEAP_XMAX_EXCL_LOCK

def HEAP_LOCKED_UPGRADED (infomask : BitVec 16) : Bool :=
  has infomask HEAP_XMAX_IS_MULTI && has infomask HEAP_XMAX_LOCK_ONLY &&
    infomask &&& (HEAP_XMAX_EXCL_LOCK ||| HEAP_XMAX_KEYSHR_LOCK) == 0#16

/-! ### Headers -/

/-- `HeapTupleHeaderData`: `t_field3` is the command id, or the transaction of an old-style vacuum
for a tuple that was moved. -/
structure HeapTupleHeader where
  t_xmin : ℕ
  t_xmax : ℕ
  t_field3 : ℕ
  t_infomask : BitVec 16
  deriving Repr, DecidableEq

variable (tuple : HeapTupleHeader)

def HeapTupleHeaderXminCommitted : Bool :=
  has tuple.t_infomask HEAP_XMIN_COMMITTED

def HeapTupleHeaderXminInvalid : Bool :=
  tuple.t_infomask &&& (HEAP_XMIN_COMMITTED ||| HEAP_XMIN_INVALID) == HEAP_XMIN_INVALID

def HeapTupleHeaderXminFrozen : Bool :=
  tuple.t_infomask &&& HEAP_XMIN_FROZEN == HEAP_XMIN_FROZEN

def HeapTupleHeaderGetXvac : ℕ :=
  if has tuple.t_infomask HEAP_MOVED then tuple.t_field3 else InvalidTransactionId

/-! ### Transactions -/

def BootstrapTransactionId : ℕ := 1

def TransactionIdIsValid (xid : ℕ) : Bool := xid != InvalidTransactionId

/-- The outcome of a transaction. -/
inductive XidState where
  | inProgress
  | committed
  | aborted
  deriving Repr, DecidableEq

/-- What a backend is told while it looks at a tuple. -/
structure XactView where
  /-- The outcomes of the transactions; a subtransaction has that of its parent once it is done. -/
  state : ℕ → XidState
  /-- The live transactions of the backend itself. -/
  current : ℕ → Bool
  /-- `SubTransGetTopmostTransaction`. -/
  topmost : ℕ → ℕ
  /-- `GetMultiXactIdMembers`, for a caller that asks for locks only or not. -/
  members : ℕ → Bool → List MultiXactMember
  /-- The commit of a transaction is on disk before the page can be, so a hint may be set. -/
  mayHint : ℕ → Bool
  /-- `GetRealCmin` and `GetRealCmax` of a combo command id. -/
  realCmin : ℕ → ℕ
  realCmax : ℕ → ℕ

section Calls

variable (b : XactView)

def TransactionIdDidCommit (xid : ℕ) : Bool :=
  if TransactionIdIsNormal xid then b.state xid == .committed
  else xid == BootstrapTransactionId || xid == FrozenTransactionId

def TransactionIdIsInProgress (xid : ℕ) : Bool :=
  TransactionIdIsNormal xid && b.state xid == .inProgress

def TransactionIdIsCurrentTransactionId (xid : ℕ) : Bool :=
  TransactionIdIsNormal xid && b.current xid

variable (tuple : HeapTupleHeader)

def HeapTupleHeaderGetCmin : ℕ :=
  if has tuple.t_infomask HEAP_COMBOCID then b.realCmin tuple.t_field3 else tuple.t_field3

def HeapTupleHeaderGetCmax : ℕ :=
  if has tuple.t_infomask HEAP_COMBOCID then b.realCmax tuple.t_field3 else tuple.t_field3

def ISUPDATE_from_mxstatus (status : MultiXactStatus) : Bool :=
  decide (MultiXactStatus.ForUpdate.code < status.code)

/-- `MultiXactIdGetUpdateXid`: the first member that is an updater. -/
def MultiXactIdGetUpdateXid (xmax : ℕ) : ℕ :=
  match (b.members xmax false).find? fun m => ISUPDATE_from_mxstatus m.status with
  | some m => m.xid
  | none => InvalidTransactionId

def HeapTupleGetUpdateXid : ℕ := MultiXactIdGetUpdateXid b tuple.t_xmax

def HeapTupleHeaderGetUpdateXid : ℕ :=
  if !has tuple.t_infomask HEAP_XMAX_INVALID && has tuple.t_infomask HEAP_XMAX_IS_MULTI &&
      !has tuple.t_infomask HEAP_XMAX_LOCK_ONLY then HeapTupleGetUpdateXid b tuple
  else tuple.t_xmax

def MultiXactIdIsRunning (multi : ℕ) (isLockOnly : Bool) : Bool :=
  (b.members multi isLockOnly).any fun m =>
    TransactionIdIsCurrentTransactionId b m.xid || TransactionIdIsInProgress b m.xid

/-- `SetHintBits`: for a transaction that committed, only if its commit is safely on disk. -/
def SetHintBits (infomask : BitVec 16) (xid : ℕ) : HeapTupleHeader :=
  if TransactionIdIsValid xid && !b.mayHint xid then tuple
  else { tuple with t_infomask := tuple.t_infomask ||| infomask }

end Calls

/-! ### Snapshots -/

/-- `SnapshotData` of an MVCC snapshot. -/
structure SnapshotData where
  xmin : ℕ
  xmax : ℕ
  xip : List ℕ
  subxip : List ℕ
  suboverflowed : Bool
  takenDuringRecovery : Bool
  curcid : ℕ

def TransactionIdFollowsOrEquals (id1 id2 : ℕ) : Bool :=
  if !TransactionIdIsNormal id1 || !TransactionIdIsNormal id2 then decide (id1 ≥ id2)
  else decide (Word32.toInt (Word32.sub id1 id2) ≥ 0)

def XidInMVCCSnapshot (b : XactView) (xid : ℕ) (snapshot : SnapshotData) : Bool :=
  if TransactionIdPrecedes xid snapshot.xmin then false
  else if TransactionIdFollowsOrEquals xid snapshot.xmax then true
  else if !snapshot.takenDuringRecovery then
    if !snapshot.suboverflowed then snapshot.subxip.contains xid || snapshot.xip.contains xid
    else if TransactionIdPrecedes (b.topmost xid) snapshot.xmin then false
    else snapshot.xip.contains (b.topmost xid)
  else if snapshot.suboverflowed then
    if TransactionIdPrecedes (b.topmost xid) snapshot.xmin then false
    else snapshot.subxip.contains (b.topmost xid)
  else snapshot.subxip.contains xid

/-! ### The macros bit by bit -/

section Bits

variable (infomask : BitVec 16)

/-- A bit of two masks together. -/
theorem has_or (infomask' mask : BitVec 16) :
    has (infomask ||| infomask') mask = (has infomask mask || has infomask' mask) := by
  have hdistrib : (infomask ||| infomask') &&& mask = infomask &&& mask ||| infomask' &&& mask := by
    ext i hi
    simp [Bool.and_or_distrib_right]
  simp only [has, hdistrib]
  by_cases h : infomask &&& mask = 0#16
  · simp [h]
  · by_cases h' : infomask' &&& mask = 0#16
    · simp [h']
    · have hne : ¬ (infomask &&& mask ||| infomask' &&& mask = 0#16) := fun heq =>
        h (or_eq_zero_iff.mp heq).1
      rw [bne_iff_ne.mpr hne, bne_iff_ne.mpr h]
      rfl

/-- What remains under a single bit. -/
theorem and_bit {mask : BitVec 16} {k : ℕ} (hmask : mask = twoPow 16 k) :
    infomask &&& mask = if has infomask mask then mask else 0#16 := by
  split_ifs with h
  · rw [hmask, and_twoPow, if_pos]
    by_contra hbit
    rw [has, bne_iff_ne, hmask, and_twoPow, if_neg hbit] at h
    exact h rfl
  · by_contra hne
    exact h (bne_iff_ne.mpr hne)

/-- The inserter is marked as aborted. -/
theorem xminInvalid_eq : HeapTupleHeaderXminInvalid tuple =
    (!has tuple.t_infomask HEAP_XMIN_COMMITTED && has tuple.t_infomask HEAP_XMIN_INVALID) := by
  have hcomm : HEAP_XMIN_COMMITTED = twoPow 16 8 := rfl
  have hinval : HEAP_XMIN_INVALID = twoPow 16 9 := rfl
  rw [HeapTupleHeaderXminInvalid, and_or_distrib_left, and_bit _ hcomm, and_bit _ hinval]
  cases has tuple.t_infomask HEAP_XMIN_COMMITTED <;>
    cases has tuple.t_infomask HEAP_XMIN_INVALID <;> decide

/-- The tuple is frozen. -/
theorem xminFrozen_eq : HeapTupleHeaderXminFrozen tuple =
    (has tuple.t_infomask HEAP_XMIN_COMMITTED && has tuple.t_infomask HEAP_XMIN_INVALID) := by
  have hcomm : HEAP_XMIN_COMMITTED = twoPow 16 8 := rfl
  have hinval : HEAP_XMIN_INVALID = twoPow 16 9 := rfl
  rw [HeapTupleHeaderXminFrozen, HEAP_XMIN_FROZEN, and_or_distrib_left, and_bit _ hcomm,
    and_bit _ hinval]
  cases has tuple.t_infomask HEAP_XMIN_COMMITTED <;>
    cases has tuple.t_infomask HEAP_XMIN_INVALID <;> decide

/-- The deleter is only a locker. -/
theorem lockedOnly_eq : HEAP_XMAX_IS_LOCKED_ONLY infomask = (has infomask HEAP_XMAX_LOCK_ONLY ||
      (!has infomask HEAP_XMAX_IS_MULTI && has infomask HEAP_XMAX_EXCL_LOCK &&
        !has infomask HEAP_XMAX_KEYSHR_LOCK)) := by
  have hmulti : HEAP_XMAX_IS_MULTI = twoPow 16 12 := rfl
  have hexcl : HEAP_XMAX_EXCL_LOCK = twoPow 16 6 := rfl
  have hkeyshr : HEAP_XMAX_KEYSHR_LOCK = twoPow 16 4 := rfl
  have hlocks : HEAP_LOCK_MASK = HEAP_XMAX_EXCL_LOCK ||| HEAP_XMAX_KEYSHR_LOCK := rfl
  rw [HEAP_XMAX_IS_LOCKED_ONLY, hlocks, and_or_distrib_left, and_or_distrib_left, and_bit _ hmulti,
    and_bit _ hexcl, and_bit _ hkeyshr]
  cases has infomask HEAP_XMAX_IS_MULTI <;> cases has infomask HEAP_XMAX_EXCL_LOCK <;>
    cases has infomask HEAP_XMAX_KEYSHR_LOCK <;> cases has infomask HEAP_XMAX_LOCK_ONLY <;> decide

end Bits

end FdPostgres
