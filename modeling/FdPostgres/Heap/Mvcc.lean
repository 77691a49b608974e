import FdPostgres.Heap.Visibility

/-!
# Visibility does not Depend on Hint Bits

A snapshot sees a tuple if it sees its inserter and does not see its deleter. The procedure of
`HeapTupleSatisfiesMVCC` takes about thirty branches to say so, because it prefers the hint bits to
looking up outcomes and sets the bits that it has found to be right.

* `inserterVisible`, `deleterVisible`: what it means to see a tuple, without any hint.
* `Truthful`: the hints that are set are right.
* `OnlyHints`: headers that differ in hints only.
* `mvcc_right`: the answer, and the header that is left behind.
* `mvcc_independent_of_hints`: both together, and for every later call by any backend.
-/

namespace FdPostgres

/-! ### The meaning -/

section Meaning

variable (b : XactView) (snapshot : SnapshotData) (tuple : HeapTupleHeader)

/-- The transaction that updated or deleted the tuple. -/
def updaterOf : ℕ :=
  if has tuple.t_infomask HEAP_XMAX_IS_MULTI then HeapTupleGetUpdateXid b tuple else tuple.t_xmax

/-- A snapshot sees a transaction other than its own. -/
def xidVisible (xid : ℕ) : Bool :=
  TransactionIdDidCommit b xid && !XidInMVCCSnapshot b xid snapshot

/-- **The inserter is visible**: an earlier command of the own transaction, or the tuple is frozen,
or it has committed and is not running for the snapshot. -/
def inserterVisible : Bool :=
  HeapTupleHeaderXminFrozen tuple ||
    (TransactionIdIsCurrentTransactionId b tuple.t_xmin &&
      decide (HeapTupleHeaderGetCmin b tuple < snapshot.curcid)) ||
    xidVisible b snapshot tuple.t_xmin

/-- **The deleter is visible**: it is valid and not only a locker, and an earlier command of the own
transaction, or it has committed and is not running for the snapshot. -/
def deleterVisible : Bool :=
  !HEAP_XMAX_IS_LOCKED_ONLY tuple.t_infomask && TransactionIdIsValid (updaterOf b tuple) &&
    ((TransactionIdIsCurrentTransactionId b (updaterOf b tuple) &&
        decide (HeapTupleHeaderGetCmax b tuple < snapshot.curcid)) ||
      xidVisible b snapshot (updaterOf b tuple))

/-- A transaction is over and has not committed. -/
def XidAborted (xid : ℕ) : Prop :=
  TransactionIdDidCommit b xid = false ∧ TransactionIdIsInProgress b xid = false

/-- **The hints that are set are right.** -/
structure Truthful : Prop where
  xminCommitted : has tuple.t_infomask HEAP_XMIN_COMMITTED = true →
    has tuple.t_infomask HEAP_XMIN_INVALID = false → TransactionIdDidCommit b tuple.t_xmin = true
  xminInvalid : has tuple.t_infomask HEAP_XMIN_COMMITTED = false →
    has tuple.t_infomask HEAP_XMIN_INVALID = true → XidAborted b tuple.t_xmin
  xmaxCommitted : has tuple.t_infomask HEAP_XMAX_COMMITTED = true →
    has tuple.t_infomask HEAP_XMAX_IS_MULTI = false →
    HEAP_XMAX_IS_LOCKED_ONLY tuple.t_infomask = false →
    TransactionIdDidCommit b tuple.t_xmax = true
  xmaxInvalid : has tuple.t_infomask HEAP_XMAX_INVALID = true →
    HEAP_XMAX_IS_LOCKED_ONLY tuple.t_infomask = false → XidAborted b (updaterOf b tuple)

/-- What a backend is told fits together: its own transactions are running, and a transaction with
the same top transaction as one of them is one of them or was rolled back. -/
structure XactView.Consistent : Prop where
  running : ∀ x, TransactionIdIsCurrentTransactionId b x = true →
    TransactionIdIsInProgress b x = true
  family : ∀ x u, TransactionIdIsCurrentTransactionId b x = true → b.topmost u = b.topmost x →
    TransactionIdIsCurrentTransactionId b u = true ∨ XidAborted b u

/-- A transaction that is running now, and is not an own one, is running for the snapshot. -/
def SnapshotOf : Prop :=
  ∀ x, TransactionIdIsInProgress b x = true → TransactionIdIsCurrentTransactionId b x = true ∨
    XidInMVCCSnapshot b x snapshot = true

/-- A tuple that the own transaction inserted carries only deleters of the same top transaction. -/
def OwnDeleter : Prop :=
  TransactionIdIsCurrentTransactionId b tuple.t_xmin = true →
    HEAP_XMAX_IS_LOCKED_ONLY tuple.t_infomask = false →
    TransactionIdIsValid (updaterOf b tuple) = true →
    b.topmost (updaterOf b tuple) = b.topmost tuple.t_xmin

/-- A later view: transactions that were over keep their outcome, and multixacts their members. -/
structure XactView.Later (b b' : XactView) : Prop where
  outcome : ∀ x, b.state x ≠ .inProgress → b'.state x = b.state x
  members : ∀ multi, b'.members multi false = b.members multi false

end Meaning

/-! ### Transactions -/

section Xids

variable {b b' : XactView} {x : ℕ}

/-- A running transaction has not committed. -/
theorem didCommit_of_inProgress (h : TransactionIdIsInProgress b x = true) :
    TransactionIdDidCommit b x = false := by
  rw [TransactionIdIsInProgress, Bool.and_eq_true, beq_iff_eq] at h
  rw [TransactionIdDidCommit, if_pos h.1, h.2]
  rfl

/-- No transaction has committed under the invalid id. -/
theorem xidAborted_invalid (b : XactView) : XidAborted b InvalidTransactionId := ⟨rfl, rfl⟩

/-- An own transaction has not committed, and was not rolled back. -/
theorem XactView.Consistent.didCommit (hb : b.Consistent)
    (h : TransactionIdIsCurrentTransactionId b x = true) : TransactionIdDidCommit b x = false :=
  didCommit_of_inProgress (hb.running x h)

/-- A transaction that was rolled back is not an own one. -/
theorem XactView.Consistent.not_current (hb : b.Consistent) (h : XidAborted b x) :
    TransactionIdIsCurrentTransactionId b x = false := by
  by_contra hne
  rw [Bool.not_eq_false] at hne
  have hrun := hb.running x hne
  rw [h.2] at hrun
  exact Bool.false_ne_true hrun

/-- A transaction that committed is not an own one. -/
theorem XactView.Consistent.not_current_of_didCommit (hb : b.Consistent)
    (h : TransactionIdDidCommit b x = true) : TransactionIdIsCurrentTransactionId b x = false := by
  by_contra hne
  rw [Bool.not_eq_false] at hne
  rw [hb.didCommit hne] at h
  exact Bool.false_ne_true h

/-- A transaction that is not running for a snapshot and did not commit was rolled back. -/
theorem SnapshotOf.aborted {snapshot : SnapshotData} (h : SnapshotOf b snapshot)
    (hcur : TransactionIdIsCurrentTransactionId b x = false)
    (hsnap : XidInMVCCSnapshot b x snapshot = false)
    (hcom : TransactionIdDidCommit b x = false) : XidAborted b x := by
  refine ⟨hcom, ?_⟩
  by_contra hne
  rw [Bool.not_eq_false] at hne
  rcases h x hne with hc | hs
  · rw [hcur] at hc
    exact Bool.false_ne_true hc
  · rw [hsnap] at hs
    exact Bool.false_ne_true hs

/-- A commit stays. -/
theorem XactView.Later.didCommit (h : b.Later b') (hcom : TransactionIdDidCommit b x = true) :
    TransactionIdDidCommit b' x = true := by
  rw [TransactionIdDidCommit] at hcom ⊢
  by_cases hnorm : TransactionIdIsNormal x = true
  · rw [if_pos hnorm, beq_iff_eq] at hcom ⊢
    rw [h.outcome x (by rw [hcom]; decide), hcom]
  · rw [if_neg hnorm] at hcom ⊢
    exact hcom

/-- A rollback stays. -/
theorem XactView.Later.aborted (h : b.Later b') (habort : XidAborted b x) : XidAborted b' x := by
  obtain ⟨hcom, hrun⟩ := habort
  rw [XidAborted, TransactionIdDidCommit, TransactionIdIsInProgress] at *
  by_cases hnorm : TransactionIdIsNormal x = true
  · simp only [hnorm, Bool.true_and, beq_eq_false_iff_ne] at hcom hrun ⊢
    rw [h.outcome x hrun]
    exact ⟨hcom, hrun⟩
  · simp only [hnorm, Bool.false_and] at hcom ⊢
    exact ⟨hcom, trivial⟩

end Xids

/-! ### Setting hints -/

/-- Headers that differ in hints only. -/
structure OnlyHints (tuple tuple' : HeapTupleHeader) : Prop where
  xmin : tuple'.t_xmin = tuple.t_xmin
  xmax : tuple'.t_xmax = tuple.t_xmax
  field3 : tuple'.t_field3 = tuple.t_field3
  multi : has tuple'.t_infomask HEAP_XMAX_IS_MULTI = has tuple.t_infomask HEAP_XMAX_IS_MULTI
  locked : HEAP_XMAX_IS_LOCKED_ONLY tuple'.t_infomask = HEAP_XMAX_IS_LOCKED_ONLY tuple.t_infomask
  combo : has tuple'.t_infomask HEAP_COMBOCID = has tuple.t_infomask HEAP_COMBOCID
  moved : has tuple'.t_infomask HEAP_MOVED = has tuple.t_infomask HEAP_MOVED
  frozen : HeapTupleHeaderXminFrozen tuple' = HeapTupleHeaderXminFrozen tuple

section Hints

variable {b : XactView} {snapshot : SnapshotData} {tuple tuple' : HeapTupleHeader}

theorem OnlyHints.refl (tuple : HeapTupleHeader) : OnlyHints tuple tuple :=
  ⟨rfl, rfl, rfl, rfl, rfl, rfl, rfl, rfl⟩

/-- Two changes. -/
theorem OnlyHints.trans {tuple'' : HeapTupleHeader} (h : OnlyHints tuple tuple')
    (h' : OnlyHints tuple' tuple'') : OnlyHints tuple tuple'' :=
  ⟨h'.xmin.trans h.xmin, h'.xmax.trans h.xmax, h'.field3.trans h.field3, h'.multi.trans h.multi,
    h'.locked.trans h.locked, h'.combo.trans h.combo, h'.moved.trans h.moved,
    h'.frozen.trans h.frozen⟩

theorem OnlyHints.updaterOf (h : OnlyHints tuple tuple') :
    updaterOf b tuple' = updaterOf b tuple := by
  simp only [FdPostgres.updaterOf, HeapTupleGetUpdateXid, h.multi, h.xmax]

/-- **The meaning is the same.** -/
theorem OnlyHints.visible (h : OnlyHints tuple tuple') :
    inserterVisible b snapshot tuple' = inserterVisible b snapshot tuple ∧
      deleterVisible b snapshot tuple' = deleterVisible b snapshot tuple := by
  constructor
  · have hcmin : HeapTupleHeaderGetCmin b tuple' = HeapTupleHeaderGetCmin b tuple := by
      rw [HeapTupleHeaderGetCmin, HeapTupleHeaderGetCmin, h.combo, h.field3]
    rw [inserterVisible, inserterVisible, hcmin, h.frozen, h.xmin]
  · have hcmax : HeapTupleHeaderGetCmax b tuple' = HeapTupleHeaderGetCmax b tuple := by
      rw [HeapTupleHeaderGetCmax, HeapTupleHeaderGetCmax, h.combo, h.field3]
    rw [deleterVisible, deleterVisible, hcmax, h.updaterOf, h.locked]

variable {mask : BitVec 16}

theorem has_or_of_disjoint {infomask bit : BitVec 16} (h : has mask bit = false) :
    has (infomask ||| mask) bit = has infomask bit := by
  rw [has_or, h, Bool.or_false]

/-- Hints are set, or the header is left. -/
theorem setHintBits_cases (b : XactView) (tuple : HeapTupleHeader) (mask : BitVec 16) (xid : ℕ) :
    SetHintBits b tuple mask xid = tuple ∨
      SetHintBits b tuple mask xid =
        { tuple with t_infomask := tuple.t_infomask ||| mask } := by
  rw [SetHintBits]
  split
  · exact .inl rfl
  · exact .inr rfl

/-- A mask of hints: it says nothing about the meaning of the fields. -/
structure HintMask (mask : BitVec 16) : Prop where
  multi : has mask HEAP_XMAX_IS_MULTI = false
  lockOnly : has mask HEAP_XMAX_LOCK_ONLY = false
  excl : has mask HEAP_XMAX_EXCL_LOCK = false
  keyshr : has mask HEAP_XMAX_KEYSHR_LOCK = false
  combo : has mask HEAP_COMBOCID = false
  moved : has mask HEAP_MOVED = false

/-- A lock stays a lock. -/
theorem HintMask.locked (h : HintMask mask) (infomask : BitVec 16) :
    HEAP_XMAX_IS_LOCKED_ONLY (infomask ||| mask) = HEAP_XMAX_IS_LOCKED_ONLY infomask := by
  rw [lockedOnly_eq, lockedOnly_eq, has_or_of_disjoint h.lockOnly, has_or_of_disjoint h.multi,
    has_or_of_disjoint h.excl, has_or_of_disjoint h.keyshr]

/-- **Setting hints leaves the rest**, unless it makes a tuple frozen. -/
theorem HintMask.onlyHints (h : HintMask mask) (b : XactView) (tuple : HeapTupleHeader) (xid : ℕ)
    (hfroz : HeapTupleHeaderXminFrozen { tuple with t_infomask := tuple.t_infomask ||| mask } =
      HeapTupleHeaderXminFrozen tuple) : OnlyHints tuple (SetHintBits b tuple mask xid) := by
  rcases setHintBits_cases b tuple mask xid with heq | heq
  · rw [heq]
    exact .refl tuple
  · rw [heq]
    exact ⟨rfl, rfl, rfl, has_or_of_disjoint h.multi, h.locked _, has_or_of_disjoint h.combo,
      has_or_of_disjoint h.moved, hfroz⟩

/-- A hint about the inserter, when none is set. -/
theorem onlyHints_xmin (hmask : mask = HEAP_XMIN_COMMITTED ∨ mask = HEAP_XMIN_INVALID)
    (hcomm : has tuple.t_infomask HEAP_XMIN_COMMITTED = false)
    (hinvalid : has tuple.t_infomask HEAP_XMIN_INVALID = false) (xid : ℕ) :
    OnlyHints tuple (SetHintBits b tuple mask xid) := by
  rcases hmask with rfl | rfl
  · refine HintMask.onlyHints ⟨rfl, rfl, rfl, rfl, rfl, rfl⟩ b tuple xid ?_
    have hleft : has (tuple.t_infomask ||| HEAP_XMIN_COMMITTED) HEAP_XMIN_INVALID = false := by
      rw [has_or_of_disjoint rfl, hinvalid]
    rw [xminFrozen_eq, xminFrozen_eq, hleft, hinvalid, Bool.and_false, Bool.and_false]
  · refine HintMask.onlyHints ⟨rfl, rfl, rfl, rfl, rfl, rfl⟩ b tuple xid ?_
    have hleft : has (tuple.t_infomask ||| HEAP_XMIN_INVALID) HEAP_XMIN_COMMITTED = false := by
      rw [has_or_of_disjoint rfl, hcomm]
    rw [xminFrozen_eq, xminFrozen_eq, hleft, hcomm, Bool.false_and, Bool.false_and]

/-- A hint about the deleter. -/
theorem onlyHints_xmax (hmask : mask = HEAP_XMAX_COMMITTED ∨ mask = HEAP_XMAX_INVALID) (xid : ℕ) :
    OnlyHints tuple (SetHintBits b tuple mask xid) := by
  rcases hmask with rfl | rfl
  all_goals
    refine HintMask.onlyHints ⟨rfl, rfl, rfl, rfl, rfl, rfl⟩ b tuple xid ?_
    rw [xminFrozen_eq, xminFrozen_eq, has_or_of_disjoint rfl, has_or_of_disjoint rfl]

/-- **A right hint keeps the hints right.** -/
theorem Truthful.setHintBits (h : Truthful b tuple) {xid : ℕ}
    (honly : OnlyHints tuple (SetHintBits b tuple mask xid))
    (hxminCommitted : has mask HEAP_XMIN_COMMITTED = true →
      TransactionIdDidCommit b tuple.t_xmin = true)
    (hxminInvalid : has mask HEAP_XMIN_INVALID = true → XidAborted b tuple.t_xmin)
    (hxmaxCommitted : has mask HEAP_XMAX_COMMITTED = true →
      TransactionIdDidCommit b tuple.t_xmax = true)
    (hxmaxInvalid : has mask HEAP_XMAX_INVALID = true → XidAborted b (updaterOf b tuple)) :
    Truthful b (SetHintBits b tuple mask xid) := by
  rcases setHintBits_cases b tuple mask xid with heq | heq
  · rw [heq]
    exact h
  · rw [heq] at honly ⊢
    constructor
    · intro hset hclear
      rw [has_or, Bool.or_eq_true] at hset
      rw [has_or, Bool.or_eq_false_iff] at hclear
      rcases hset with hset | hset
      · exact h.xminCommitted hset hclear.1
      · exact hxminCommitted hset
    · intro hclear hset
      rw [has_or, Bool.or_eq_false_iff] at hclear
      rw [has_or, Bool.or_eq_true] at hset
      rcases hset with hset | hset
      · exact h.xminInvalid hclear.1 hset
      · exact hxminInvalid hset
    · intro hset hmulti hlocked
      rw [has_or, Bool.or_eq_true] at hset
      rw [honly.multi] at hmulti
      rw [honly.locked] at hlocked
      rcases hset with hset | hset
      · exact h.xmaxCommitted hset hmulti hlocked
      · exact hxmaxCommitted hset
    · intro hset hlocked
      rw [has_or, Bool.or_eq_true] at hset
      rw [honly.locked] at hlocked
      rw [honly.updaterOf]
      rcases hset with hset | hset
      · exact h.xmaxInvalid hset hlocked
      · exact hxmaxInvalid hset

end Hints

/-! ### The answer -/

/-- An answer that is right, with a header that is left right. -/
structure MvccRight (b : XactView) (snapshot : SnapshotData) (tuple : HeapTupleHeader)
    (r : Bool × HeapTupleHeader) : Prop where
  answer : r.1 = (inserterVisible b snapshot tuple && !deleterVisible b snapshot tuple)
  onlyHints : OnlyHints tuple r.2
  truthful : Truthful b r.2

section Answer

variable {b : XactView} {snapshot : SnapshotData} {tuple : HeapTupleHeader}

/-- Nothing is deleted under a hint that the deleter was rolled back. -/
theorem deleterVisible_of_aborted (hb : b.Consistent) (h : XidAborted b (updaterOf b tuple)) :
    deleterVisible b snapshot tuple = false := by
  rw [deleterVisible, xidVisible, hb.not_current h, h.1, Bool.false_and, Bool.false_and,
    Bool.or_false, Bool.and_false]

theorem deleterVisible_of_locked (h : HEAP_XMAX_IS_LOCKED_ONLY tuple.t_infomask = true) :
    deleterVisible b snapshot tuple = false := by
  rw [deleterVisible, h, Bool.not_true, Bool.false_and, Bool.false_and]

/-- Nothing is deleted under the hint. -/
theorem Truthful.deleterVisible_of_invalid (h : Truthful b tuple) (hb : b.Consistent)
    (hinvalid : has tuple.t_infomask HEAP_XMAX_INVALID = true) :
    deleterVisible b snapshot tuple = false := by
  cases hlocked : HEAP_XMAX_IS_LOCKED_ONLY tuple.t_infomask with
  | true => exact deleterVisible_of_locked hlocked
  | false => exact deleterVisible_of_aborted hb (h.xmaxInvalid hinvalid hlocked)

/-- An own transaction is a valid one. -/
theorem isValid_of_current {x : ℕ} (h : TransactionIdIsCurrentTransactionId b x = true) :
    TransactionIdIsValid x = true := by
  rw [TransactionIdIsCurrentTransactionId, Bool.and_eq_true] at h
  by_contra hnot
  rw [TransactionIdIsValid, bne_iff_ne, not_not] at hnot
  rw [hnot] at h
  cases h.1

/-- A transaction that committed is a valid one. -/
theorem isValid_of_didCommit {x : ℕ} (h : TransactionIdDidCommit b x = true) :
    TransactionIdIsValid x = true := by
  by_contra hnot
  rw [TransactionIdIsValid, bne_iff_ne, not_not] at hnot
  rw [hnot] at h
  exact Bool.false_ne_true h

/-- An own deleter is visible by its command. -/
theorem deleterVisible_of_current (hb : b.Consistent)
    (hlocked : HEAP_XMAX_IS_LOCKED_ONLY tuple.t_infomask = false)
    (h : TransactionIdIsCurrentTransactionId b (updaterOf b tuple) = true) :
    (!deleterVisible b snapshot tuple) =
      decide (HeapTupleHeaderGetCmax b tuple ≥ snapshot.curcid) := by
  rw [deleterVisible, xidVisible, hlocked, isValid_of_current h, h, hb.didCommit h]
  simp only [Bool.not_false, Bool.true_and, Bool.false_and, Bool.or_false]
  rw [← decide_not]
  exact decide_eq_decide.mpr not_lt

/-- Another deleter is visible if it has committed for the snapshot. -/
theorem deleterVisible_of_not_current
    (hlocked : HEAP_XMAX_IS_LOCKED_ONLY tuple.t_infomask = false)
    (h : TransactionIdIsCurrentTransactionId b (updaterOf b tuple) = false) :
    deleterVisible b snapshot tuple = xidVisible b snapshot (updaterOf b tuple) := by
  rw [deleterVisible, hlocked, h]
  cases hvis : xidVisible b snapshot (updaterOf b tuple) with
  | false => exact Bool.and_false _
  | true =>
    rw [xidVisible, Bool.and_eq_true] at hvis
    rw [isValid_of_didCommit hvis.1]
    rfl

/-- The updater of a tuple with a multixact. -/
theorem updaterOf_multi (h : has tuple.t_infomask HEAP_XMAX_IS_MULTI = true) :
    updaterOf b tuple = HeapTupleGetUpdateXid b tuple := by
  rw [updaterOf, h]
  rfl

/-- The updater of a tuple without a multixact. -/
theorem updaterOf_xmax (h : has tuple.t_infomask HEAP_XMAX_IS_MULTI = false) :
    updaterOf b tuple = tuple.t_xmax := by
  rw [updaterOf, h]
  rfl

/-- The inserter is not visible. -/
theorem MvccRight.unseen {r : HeapTupleHeader}
    (hseen : inserterVisible b snapshot tuple = false) (honly : OnlyHints tuple r)
    (htrue : Truthful b r) : MvccRight b snapshot tuple (false, r) :=
  ⟨by rw [hseen, Bool.false_and], honly, htrue⟩

section Deleter

variable (hb : b.Consistent) (htrue : Truthful b tuple)
  (hseen : inserterVisible b snapshot tuple = true)

include htrue hseen

/-- The inserter is visible, and the header is left. -/
theorem MvccRight.seen {answer : Bool} (h : (!deleterVisible b snapshot tuple) = answer) :
    MvccRight b snapshot tuple (answer, tuple) :=
  ⟨by rw [hseen, h, Bool.true_and], .refl tuple, htrue⟩

theorem MvccRight.undeleted (h : deleterVisible b snapshot tuple = false) :
    MvccRight b snapshot tuple (true, tuple) :=
  .seen htrue hseen (by rw [h, Bool.not_false])

include hb

/-- The deleter is marked as rolled back. -/
theorem MvccRight.rolledBack (h : XidAborted b (updaterOf b tuple)) (xid : ℕ) :
    MvccRight b snapshot tuple (true, SetHintBits b tuple HEAP_XMAX_INVALID xid) := by
  have honly : OnlyHints tuple (SetHintBits b tuple HEAP_XMAX_INVALID xid) :=
    onlyHints_xmax (.inr rfl) _
  refine ⟨?_, honly, htrue.setHintBits honly nofun nofun nofun fun _ => h⟩
  rw [hseen, deleterVisible_of_aborted hb h]
  rfl

variable (hlocked : HEAP_XMAX_IS_LOCKED_ONLY tuple.t_infomask = false)

include hlocked

/-- The deleter is an own transaction. -/
theorem MvccRight.ownDeleter
    (h : TransactionIdIsCurrentTransactionId b (updaterOf b tuple) = true) :
    MvccRight b snapshot tuple
      (decide (HeapTupleHeaderGetCmax b tuple ≥ snapshot.curcid), tuple) :=
  .seen htrue hseen (deleterVisible_of_current hb hlocked h)

variable (hinvalid : has tuple.t_infomask HEAP_XMAX_INVALID = false)

include hinvalid

/-- **A deleter that is a multixact**; no hint is set for it. -/
theorem mvccDeleter_multi (hmulti : has tuple.t_infomask HEAP_XMAX_IS_MULTI = true) :
    MvccRight b snapshot tuple (mvccDeleter b snapshot tuple) := by
  simp only [mvccDeleter, hinvalid, hlocked, hmulti, ← updaterOf_multi hmulti]
  cases hown : TransactionIdIsCurrentTransactionId b (updaterOf b tuple) with
  | true => exact .ownDeleter hb htrue hseen hlocked hown
  | false =>
    have hvis : deleterVisible b snapshot tuple = _ :=
      deleterVisible_of_not_current hlocked hown
    rw [xidVisible] at hvis
    cases hrun : XidInMVCCSnapshot b (updaterOf b tuple) snapshot with
    | true =>
      refine .undeleted htrue hseen ?_
      rw [hvis, hrun, Bool.not_true, Bool.and_false]
    | false =>
      cases hcom : TransactionIdDidCommit b (updaterOf b tuple) with
      | true => exact .seen htrue hseen (by rw [hvis, hcom, hrun]; rfl)
      | false => exact .seen htrue hseen (by rw [hvis, hcom]; rfl)

variable (hmulti : has tuple.t_infomask HEAP_XMAX_IS_MULTI = false)

include hmulti

/-- **A deleter that is hinted to have committed.** -/
theorem mvccDeleter_committed (hmark : has tuple.t_infomask HEAP_XMAX_COMMITTED = true) :
    MvccRight b snapshot tuple (mvccDeleter b snapshot tuple) := by
  have hcom := htrue.xmaxCommitted hmark hmulti hlocked
  have hvis : deleterVisible b snapshot tuple = xidVisible b snapshot (updaterOf b tuple) := by
    refine deleterVisible_of_not_current hlocked ?_
    rw [updaterOf_xmax hmulti]
    exact hb.not_current_of_didCommit hcom
  rw [updaterOf_xmax hmulti, xidVisible, hcom] at hvis
  simp only [mvccDeleter, hinvalid, hlocked, hmulti, hmark]
  cases hrun : XidInMVCCSnapshot b tuple.t_xmax snapshot with
  | true | false => exact .seen htrue hseen (by rw [hvis, hrun]; rfl)

/-- **A deleter without a hint**; one is set when its outcome was looked up. -/
theorem mvccDeleter_unmarked (hsnap : SnapshotOf b snapshot)
    (hmark : has tuple.t_infomask HEAP_XMAX_COMMITTED = false) :
    MvccRight b snapshot tuple (mvccDeleter b snapshot tuple) := by
  have hupd := updaterOf_xmax (b := b) hmulti
  simp only [mvccDeleter, hinvalid, hlocked, hmulti, hmark]
  rw [← hupd]
  cases hown : TransactionIdIsCurrentTransactionId b (updaterOf b tuple) with
  | true => exact .ownDeleter hb htrue hseen hlocked hown
  | false =>
    have hvis : deleterVisible b snapshot tuple = _ :=
      deleterVisible_of_not_current hlocked hown
    rw [xidVisible] at hvis
    cases hrun : XidInMVCCSnapshot b (updaterOf b tuple) snapshot with
    | true =>
      refine .undeleted htrue hseen ?_
      rw [hvis, hrun, Bool.not_true, Bool.and_false]
    | false =>
      cases hcom : TransactionIdDidCommit b (updaterOf b tuple) with
      | true =>
        have honly : OnlyHints tuple (SetHintBits b tuple HEAP_XMAX_COMMITTED _) :=
          onlyHints_xmax (.inl rfl) (updaterOf b tuple)
        refine ⟨?_, honly, htrue.setHintBits honly nofun nofun (fun _ => ?_) nofun⟩
        · rw [hseen, hvis, hcom, hrun]
          rfl
        · exact hupd ▸ hcom
      | false =>
        exact .rolledBack hb htrue hseen (hsnap.aborted hown hrun hcom) _

end Deleter

/-- **The own insertion.** -/
theorem mvccOwnInsert_right (hb : b.Consistent) (htrue : Truthful b tuple)
    (hdel : OwnDeleter b tuple)
    (hcomm : has tuple.t_infomask HEAP_XMIN_COMMITTED = false)
    (hcur : TransactionIdIsCurrentTransactionId b tuple.t_xmin = true) :
    MvccRight b snapshot tuple (mvccOwnInsert b snapshot tuple) := by
  have hins : inserterVisible b snapshot tuple =
      decide (HeapTupleHeaderGetCmin b tuple < snapshot.curcid) := by
    rw [inserterVisible, xidVisible, xminFrozen_eq, hcomm, hcur, hb.didCommit hcur,
      Bool.false_and, Bool.false_or, Bool.true_and, Bool.false_and, Bool.or_false]
  rw [mvccOwnInsert]
  by_cases hcmin : HeapTupleHeaderGetCmin b tuple ≥ snapshot.curcid
  · rw [if_pos hcmin]
    exact .unseen (hins.trans (decide_eq_false (not_lt.mpr hcmin))) (.refl tuple) htrue
  · rw [if_neg hcmin]
    have hseen := hins.trans (decide_eq_true (Nat.lt_of_not_le hcmin))
    cases hinvalid : has tuple.t_infomask HEAP_XMAX_INVALID with
    | true => exact .undeleted htrue hseen (htrue.deleterVisible_of_invalid hb hinvalid)
    | false =>
      cases hlocked : HEAP_XMAX_IS_LOCKED_ONLY tuple.t_infomask with
      | true => exact .undeleted htrue hseen (deleterVisible_of_locked hlocked)
      | false =>
        -- a deleter that is not an own transaction was rolled back with its subtransaction
        have hroll : TransactionIdIsCurrentTransactionId b (updaterOf b tuple) = false →
            XidAborted b (updaterOf b tuple) := by
          intro hnot
          cases hvalid : TransactionIdIsValid (updaterOf b tuple) with
          | false =>
            have hzero : updaterOf b tuple = InvalidTransactionId := by
              simpa [TransactionIdIsValid] using hvalid
            rw [hzero]
            exact xidAborted_invalid b
          | true =>
            rcases hb.family _ _ hcur (hdel hcur hlocked hvalid) with hown | ha
            · rw [hnot] at hown
              cases hown
            · exact ha
        cases hmulti : has tuple.t_infomask HEAP_XMAX_IS_MULTI with
        | true =>
          rw [← updaterOf_multi hmulti]
          cases hown : TransactionIdIsCurrentTransactionId b (updaterOf b tuple) with
          | false =>
            exact .undeleted htrue hseen (deleterVisible_of_aborted hb (hroll hown))
          | true => exact .ownDeleter hb htrue hseen hlocked hown
        | false =>
          rw [← updaterOf_xmax hmulti]
          cases hown : TransactionIdIsCurrentTransactionId b (updaterOf b tuple) with
          | false => exact .rolledBack hb htrue hseen (hroll hown) _
          | true => exact .ownDeleter hb htrue hseen hlocked hown

/-- **The deleter of a tuple whose inserter is visible.** -/
theorem mvccDeleter_right (hb : b.Consistent) (hsnap : SnapshotOf b snapshot)
    (htrue : Truthful b tuple) (hseen : inserterVisible b snapshot tuple = true) :
    MvccRight b snapshot tuple (mvccDeleter b snapshot tuple) := by
  cases hinvalid : has tuple.t_infomask HEAP_XMAX_INVALID with
  | true =>
    rw [mvccDeleter, if_pos hinvalid]
    exact .undeleted htrue hseen (htrue.deleterVisible_of_invalid hb hinvalid)
  | false =>
    cases hlocked : HEAP_XMAX_IS_LOCKED_ONLY tuple.t_infomask with
    | true =>
      simp only [mvccDeleter, hinvalid, hlocked]
      exact .undeleted htrue hseen (deleterVisible_of_locked hlocked)
    | false =>
      cases hmulti : has tuple.t_infomask HEAP_XMAX_IS_MULTI with
      | true => exact mvccDeleter_multi hb htrue hseen hlocked hinvalid hmulti
      | false =>
        cases hmark : has tuple.t_infomask HEAP_XMAX_COMMITTED with
        | true => exact mvccDeleter_committed hb htrue hseen hlocked hinvalid hmulti hmark
        | false =>
          exact mvccDeleter_unmarked hb htrue hseen hlocked hinvalid hmulti hsnap hmark

/-- A tuple that was not moved. -/
theorem not_moved (h : has tuple.t_infomask HEAP_MOVED = false) :
    has tuple.t_infomask HEAP_MOVED_OFF = false ∧ has tuple.t_infomask HEAP_MOVED_IN = false := by
  have hor : ∀ mask mask' : BitVec 16, has tuple.t_infomask (mask ||| mask') =
      (has tuple.t_infomask mask || has tuple.t_infomask mask') := by
    intro mask mask'
    have hcomm : ∀ x : BitVec 16, has tuple.t_infomask x = has x tuple.t_infomask := by
      intro x
      rw [has, has, BitVec.and_comm]
    rw [hcomm, hcomm mask, hcomm mask', has_or]
  rw [HEAP_MOVED, hor, Bool.or_eq_false_iff] at h
  exact h

/-- **The inserter whose transaction is neither an own one nor hinted.** -/
theorem mvcc_looked_up (hb : b.Consistent) (hsnap : SnapshotOf b snapshot)
    (htrue : Truthful b tuple) (hmoved : has tuple.t_infomask HEAP_MOVED = false)
    (hcomm : has tuple.t_infomask HEAP_XMIN_COMMITTED = false)
    (hinvalid : has tuple.t_infomask HEAP_XMIN_INVALID = false)
    (hown : TransactionIdIsCurrentTransactionId b tuple.t_xmin = false) :
    MvccRight b snapshot tuple (HeapTupleSatisfiesMVCC b snapshot tuple) := by
  have hxmin : inserterVisible b snapshot tuple = xidVisible b snapshot tuple.t_xmin := by
    rw [inserterVisible, xminFrozen_eq, hcomm, hown, Bool.false_and, Bool.false_and,
      Bool.false_or, Bool.false_or]
  rw [xidVisible] at hxmin
  obtain ⟨hoff, hin⟩ := not_moved hmoved
  simp only [HeapTupleSatisfiesMVCC, mvccInserter, HeapTupleHeaderXminCommitted, xminInvalid_eq,
    hcomm, hinvalid, hoff, hin, hown, Bool.false_eq_true,
    if_false]
  cases hrun : XidInMVCCSnapshot b tuple.t_xmin snapshot with
  | true =>
    rw [hrun, Bool.not_true, Bool.and_false] at hxmin
    exact .unseen hxmin (.refl tuple) htrue
  | false =>
    rw [hrun, Bool.not_false, Bool.and_true] at hxmin
    cases hcom : TransactionIdDidCommit b tuple.t_xmin with
    | true =>
      have honly : OnlyHints tuple (SetHintBits b tuple HEAP_XMIN_COMMITTED tuple.t_xmin) :=
        onlyHints_xmin (.inl rfl) hcomm hinvalid _
      have hright := htrue.setHintBits honly (fun _ => hcom) nofun nofun nofun
      have hseen : inserterVisible b snapshot
          (SetHintBits b tuple HEAP_XMIN_COMMITTED tuple.t_xmin) = true := by
        rw [honly.visible.1, hxmin, hcom]
      have hdel := mvccDeleter_right hb hsnap hright hseen
      refine ⟨?_, honly.trans hdel.onlyHints, hdel.truthful⟩
      have hans := hdel.answer
      rw [honly.visible.1, honly.visible.2] at hans
      exact hans
    | false =>
      have honly : OnlyHints tuple
          (SetHintBits b tuple HEAP_XMIN_INVALID InvalidTransactionId) :=
        onlyHints_xmin (.inr rfl) hcomm hinvalid _
      rw [hcom] at hxmin
      refine .unseen hxmin honly (htrue.setHintBits honly nofun (fun _ => ?_) nofun nofun)
      exact hsnap.aborted hown hrun hcom

/-- **The answer is right, and the hints that are set are right.** -/
theorem mvcc_right (hb : b.Consistent) (hsnap : SnapshotOf b snapshot)
    (hmoved : has tuple.t_infomask HEAP_MOVED = false) (htrue : Truthful b tuple)
    (hdel : OwnDeleter b tuple) :
    MvccRight b snapshot tuple (HeapTupleSatisfiesMVCC b snapshot tuple) := by
  obtain ⟨hoff, hin⟩ := not_moved hmoved
  cases hcomm : has tuple.t_infomask HEAP_XMIN_COMMITTED with
  | true =>
    -- the hint, or the tuple is frozen
    have hxmin : inserterVisible b snapshot tuple = (HeapTupleHeaderXminFrozen tuple ||
        !XidInMVCCSnapshot b tuple.t_xmin snapshot) := by
      rw [inserterVisible, xidVisible]
      cases hfroz : HeapTupleHeaderXminFrozen tuple with
      | true => rw [Bool.true_or, Bool.true_or, Bool.true_or]
      | false =>
        rw [xminFrozen_eq, hcomm] at hfroz
        have hcom := htrue.xminCommitted hcomm hfroz
        rw [hb.not_current_of_didCommit hcom, hcom, Bool.false_and, Bool.false_or,
          Bool.true_and]
    simp only [HeapTupleSatisfiesMVCC, mvccInserter, HeapTupleHeaderXminCommitted, hcomm]
    cases hrun : (!HeapTupleHeaderXminFrozen tuple &&
        XidInMVCCSnapshot b tuple.t_xmin snapshot) with
    | true =>
      rw [Bool.and_eq_true, Bool.not_eq_true'] at hrun
      rw [hrun.1, hrun.2] at hxmin
      exact .unseen hxmin (.refl tuple) htrue
    | false =>
      refine mvccDeleter_right hb hsnap htrue ?_
      rw [hxmin]
      cases hfroz : HeapTupleHeaderXminFrozen tuple with
      | true => rfl
      | false =>
        rw [hfroz, Bool.not_false, Bool.true_and] at hrun
        rw [hrun]
        rfl
  | false =>
    cases hinvalid : has tuple.t_infomask HEAP_XMIN_INVALID with
    | true =>
      have habort := htrue.xminInvalid hcomm hinvalid
      simp only [HeapTupleSatisfiesMVCC, mvccInserter, HeapTupleHeaderXminCommitted,
        xminInvalid_eq, hcomm, hinvalid]
      refine .unseen ?_ (.refl tuple) htrue
      rw [inserterVisible, xidVisible, xminFrozen_eq, hcomm, hb.not_current habort,
        habort.1]
      rfl
    | false =>
      cases hown : TransactionIdIsCurrentTransactionId b tuple.t_xmin with
      | true =>
        simp only [HeapTupleSatisfiesMVCC, mvccInserter, HeapTupleHeaderXminCommitted,
          xminInvalid_eq, hcomm, hinvalid, hoff, hin, hown]
        exact mvccOwnInsert_right hb htrue hdel hcomm hown
      | false => exact mvcc_looked_up hb hsnap htrue hmoved hcomm hinvalid hown

end Answer

/-! ### Later calls -/

section Later

variable {b b' : XactView} {tuple tuple' : HeapTupleHeader}

theorem XactView.Later.updaterOf (h : b.Later b') :
    FdPostgres.updaterOf b' tuple = FdPostgres.updaterOf b tuple := by
  simp only [FdPostgres.updaterOf, HeapTupleGetUpdateXid, MultiXactIdGetUpdateXid, h.members]

/-- **Right hints stay right.** -/
theorem Truthful.later (h : Truthful b tuple) (hlater : b.Later b') : Truthful b' tuple where
  xminCommitted hset hclear := hlater.didCommit (h.xminCommitted hset hclear)
  xminInvalid hclear hset := hlater.aborted (h.xminInvalid hclear hset)
  xmaxCommitted hset hmulti hlocked := hlater.didCommit (h.xmaxCommitted hset hmulti hlocked)
  xmaxInvalid hset hlocked := by
    rw [hlater.updaterOf]
    exact hlater.aborted (h.xmaxInvalid hset hlocked)

/-- What an own tuple carries does not depend on hints. -/
theorem OwnDeleter.onlyHints (h : OwnDeleter b tuple) (honly : OnlyHints tuple tuple') :
    OwnDeleter b tuple' := by
  rw [OwnDeleter, honly.xmin, honly.locked, honly.updaterOf]
  exact h

end Later

/-- **Visibility does not depend on hint bits.** A snapshot sees a tuple exactly if it sees its
inserter and does not see its deleter; the hints that are set are right; and no later call of any
backend is answered differently because of them. -/
theorem mvcc_independent_of_hints (b : XactView) (hb : b.Consistent) (snapshot : SnapshotData)
    (hsnapshot : SnapshotOf b snapshot) (tuple : HeapTupleHeader)
    (hmoved : has tuple.t_infomask HEAP_MOVED = false) (htrue : Truthful b tuple)
    (hdeleter : OwnDeleter b tuple) :
    ((HeapTupleSatisfiesMVCC b snapshot tuple).1 = true ↔
      inserterVisible b snapshot tuple = true ∧ deleterVisible b snapshot tuple = false) ∧
    Truthful b (HeapTupleSatisfiesMVCC b snapshot tuple).2 ∧
    ∀ (b' : XactView) (snapshot' : SnapshotData), b.Later b' → b'.Consistent →
      SnapshotOf b' snapshot' → OwnDeleter b' tuple →
      (HeapTupleSatisfiesMVCC b' snapshot' (HeapTupleSatisfiesMVCC b snapshot tuple).2).1 =
        (HeapTupleSatisfiesMVCC b' snapshot' tuple).1 := by
  have hright := mvcc_right hb hsnapshot hmoved htrue hdeleter
  refine ⟨?_, hright.truthful, fun b' snapshot' hlater hb' hsnap' hdel' => ?_⟩
  · rw [hright.answer, Bool.and_eq_true, Bool.not_eq_true']
  · have hbef := mvcc_right hb' hsnap' hmoved (htrue.later hlater) hdel'
    have hmoved' := hright.onlyHints.moved.trans hmoved
    have hafter := mvcc_right hb' hsnap' hmoved' (hright.truthful.later hlater)
      (hdel'.onlyHints hright.onlyHints)
    rw [hafter.answer, hbef.answer, hright.onlyHints.visible.1, hright.onlyHints.visible.2]

/-- A backend in transaction 300, with transaction 100 committed and 200 running elsewhere. -/
def threeXacts : XactView where
  state x := if x = 100 then .committed else if x = 200 ∨ x = 300 then .inProgress else .aborted
  current x := x == 300
  topmost x := x
  members _ _ := []
  mayHint _ := true
  realCmin c := c
  realCmax c := c

/-- Its snapshot for command 5. -/
def threeXactsSnapshot : SnapshotData where
  xmin := 200
  xmax := 301
  xip := [200]
  subxip := []
  suboverflowed := false
  takenDuringRecovery := false
  curcid := 5

/-- A tuple without hints that transaction 100 inserted and transaction 200 deletes. -/
def threeXactsTuple : HeapTupleHeader := ⟨100, 200, 0, 0#16⟩

/-- `threeXactsTuple` is seen, and its inserter is marked. -/
theorem mvcc_independent_of_hints_three_xacts :
    (HeapTupleSatisfiesMVCC threeXacts threeXactsSnapshot threeXactsTuple) =
        (true, { threeXactsTuple with t_infomask := HEAP_XMIN_COMMITTED }) ∧
      ∀ (b' : XactView) (snapshot' : SnapshotData), threeXacts.Later b' → b'.Consistent →
        SnapshotOf b' snapshot' → OwnDeleter b' threeXactsTuple →
        (HeapTupleSatisfiesMVCC b' snapshot'
            (HeapTupleSatisfiesMVCC threeXacts threeXactsSnapshot threeXactsTuple).2).1 =
          (HeapTupleSatisfiesMVCC b' snapshot' threeXactsTuple).1 := by
  have hcur : ∀ x, TransactionIdIsCurrentTransactionId threeXacts x = true → x = 300 := by
    intro x hx
    rw [TransactionIdIsCurrentTransactionId, Bool.and_eq_true] at hx
    exact beq_iff_eq.mp hx.2
  refine ⟨by decide, (mvcc_independent_of_hints threeXacts ⟨?_, ?_⟩ threeXactsSnapshot ?_
    threeXactsTuple (by decide) ⟨?_, ?_, ?_, ?_⟩ ?_).2.2⟩
  · intro x hx
    rw [hcur x hx]
    decide
  · intro x u hx hu
    have hu' : u = x := hu
    rw [hu']
    exact .inl hx
  · intro x hx
    rw [TransactionIdIsInProgress, Bool.and_eq_true, beq_iff_eq] at hx
    have hrun : x = 200 ∨ x = 300 := by
      by_contra hne
      have hstate : threeXacts.state x ≠ .inProgress := by
        simp only [threeXacts]
        split
        · decide
        · decide
      exact hstate hx.2
    rcases hrun with rfl | rfl
    · exact .inr (by decide)
    · exact .inl (by decide)
  · exact fun h => nomatch h
  · exact fun _ h => nomatch h
  · exact fun h => nomatch h
  · exact fun h => nomatch h
  · exact fun h => absurd (hcur _ h) (by decide)

end FdPostgres
