import FdPostgres.Lib.Word32

/-!
# Transaction Ids and Multixact Ids

The 32-bit ids of `transam.h` and `multixact.h`, and the orders on them. Both kinds of ids wrap
around. The transaction ids below `FirstNormalTransactionId` are special: they precede all normal
ones and are skipped when the counter wraps around; of the multixact ids only zero is skipped.
-/

namespace FdPostgres

def InvalidTransactionId : ℕ := 0

def FrozenTransactionId : ℕ := 2

def FirstNormalTransactionId : ℕ := 3

def TransactionIdIsNormal (xid : ℕ) : Bool := decide (xid ≥ FirstNormalTransactionId)

def TransactionIdPrecedes (id1 id2 : ℕ) : Bool :=
  if !TransactionIdIsNormal id1 || !TransactionIdIsNormal id2 then decide (id1 < id2)
  else Word32.precedes id1 id2

/-- The loop of `TransactionIdRetreat`, which steps over at most the special ids. -/
def retreatLoop : ℕ → ℕ → ℕ
  | 0, dest => dest
  | fuel + 1, dest =>
      let dest := (dest + (2 ^ 32 - 1)) % 2 ^ 32
      if dest < FirstNormalTransactionId then retreatLoop fuel dest else dest

def TransactionIdRetreat (dest : ℕ) : ℕ := retreatLoop (FirstNormalTransactionId + 1) dest

def FirstMultiXactId : ℕ := 1

def MaxMultiXactId : ℕ := 2 ^ 32 - 1

def MultiXactIdPrecedes (multi1 multi2 : ℕ) : Bool := Word32.precedes multi1 multi2

def MultiXactIdPrecedesOrEquals (multi1 multi2 : ℕ) : Bool :=
  decide (Word32.toInt (Word32.sub multi1 multi2) ≤ 0)

def PreviousMultiXactId (xid : ℕ) : ℕ :=
  if xid = FirstMultiXactId then MaxMultiXactId else xid - 1

/-! ### Stepping back -/

/-- Normal transaction ids are compared in circular order. -/
theorem TransactionIdPrecedes_of_normal {id1 id2 : ℕ} (h1 : FirstNormalTransactionId ≤ id1)
    (h2 : FirstNormalTransactionId ≤ id2) :
    TransactionIdPrecedes id1 id2 = Word32.precedes id1 id2 := by
  simp [TransactionIdPrecedes, TransactionIdIsNormal, h1, h2]

/-- The id before a normal one, except the first one. -/
theorem TransactionIdRetreat_of_lt {xid : ℕ} (h : FirstNormalTransactionId < xid)
    (hlt : xid < 2 ^ 32) : TransactionIdRetreat xid = xid - 1 := by
  have hprev : (xid + (2 ^ 32 - 1)) % 2 ^ 32 = xid - 1 := by
    omega
  have hnorm : ¬ xid - 1 < FirstNormalTransactionId := by omega
  simp only [TransactionIdRetreat, retreatLoop, hprev, if_neg hnorm]

/-- The id before the first normal one is the last one. -/
theorem TransactionIdRetreat_first :
    TransactionIdRetreat FirstNormalTransactionId = 2 ^ 32 - 1 := by
  decide

end FdPostgres
