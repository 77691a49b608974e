import FdPostgres.Heap.Tuple
import Mathlib

/-!
# Ids of 32 and 64 Bits

Shared memory holds transaction ids of 32 bits, which wrap around, while the counter behind them has
64 bits. An id in use is the low word of an integer close to the counter, and the order of the ids
is that of the integers. The integers are taken from `ℤ` because stepping back from an early id
leads below zero.

* `TransactionIdAdvance`, `TransactionIdRetreatedBy`, `TransactionIdOlder`,
  `FullTransactionIdNewer`, `FullXidRelativeTo`: the operations of `transam.h` and `procarray.c`.
* `IdOf`: a normal id is the low word of an integer.
* `IdOf.older`, `IdOf.retreatedBy`, `IdOf.advance`, `IdOf.relativeTo`: the operations on the
  integers.
-/

namespace FdPostgres

def XidFromFullTransactionId (x : ℕ) : ℕ := x % 2 ^ 32

def TransactionIdAdvance (dest : ℕ) : ℕ :=
  let dest := (dest + 1) % 2 ^ 32
  if dest < FirstNormalTransactionId then FirstNormalTransactionId else dest

/-- The loop of `TransactionIdRetreatedBy`, which steps over at most the special ids. -/
def retreatedByLoop : ℕ → ℕ → ℕ
  | 0, xid => xid
  | fuel + 1, xid =>
      if xid < FirstNormalTransactionId then retreatedByLoop fuel (Word32.sub xid 1) else xid

def TransactionIdRetreatedBy (xid amount : ℕ) : ℕ :=
  retreatedByLoop (FirstNormalTransactionId + 1) (Word32.sub xid amount)

def TransactionIdOlder (a b : ℕ) : ℕ :=
  if !TransactionIdIsValid a then b
  else if !TransactionIdIsValid b then a
  else if TransactionIdPrecedes a b then a
  else b

def NormalTransactionIdPrecedes (id1 id2 : ℕ) : Bool := Word32.precedes id1 id2

def TransactionIdPrecedesOrEquals (id1 id2 : ℕ) : Bool :=
  if !TransactionIdIsNormal id1 || !TransactionIdIsNormal id2 then decide (id1 ≤ id2)
  else decide (Word32.toInt (Word32.sub id1 id2) ≤ 0)

def FullTransactionIdIsValid (x : ℕ) : Bool := TransactionIdIsValid (XidFromFullTransactionId x)

def FullTransactionIdNewer (a b : ℕ) : ℕ :=
  if !FullTransactionIdIsValid a then b
  else if !FullTransactionIdIsValid b then a
  else if a > b then a
  else b

/-- `FullXidRelativeTo`: the signed difference is added in 64 bits. -/
def FullXidRelativeTo (rel xid : ℕ) : ℕ :=
  (((rel : ℤ) + Word32.toInt (Word32.sub xid (XidFromFullTransactionId rel))) % 2 ^ 64).toNat

/-! ### Ids as low words -/

/-- **A normal id that is the low word of an integer.** -/
structure IdOf (xid : ℕ) (x : ℤ) : Prop where
  normal : FirstNormalTransactionId ≤ xid
  word : x % 2 ^ 32 = xid

namespace IdOf

variable {a b xid : ℕ} {x y : ℤ}

/-- A normal id is valid. -/
theorem valid (h : IdOf xid x) : TransactionIdIsValid xid = true := by
  have hnorm := h.normal
  rw [FirstNormalTransactionId] at hnorm
  simp only [TransactionIdIsValid, InvalidTransactionId, bne_iff_ne]
  omega

theorem lt (h : IdOf xid x) : xid < 2 ^ 32 := by
  have hword := h.word
  omega

section Close

variable (ha : IdOf a x) (hb : IdOf b y) (hlo : -2 ^ 31 ≤ x - y) (hhi : x - y < 2 ^ 31)

include ha hb hlo hhi

/-- **The order of the ids** of close integers. -/
theorem precedes : TransactionIdPrecedes a b = decide (x < y) := by
  rw [TransactionIdPrecedes_of_normal ha.normal hb.normal]
  exact Word32.precedes_of_emod ha.word hb.word hlo hhi

/-- The order of the ids of close integers, for a comparison that takes them to be normal. -/
theorem normalPrecedes : NormalTransactionIdPrecedes a b = decide (x < y) :=
  Word32.precedes_of_emod ha.word hb.word hlo hhi

/-- The order of the ids of close integers, the other way round. -/
theorem followsOrEquals : TransactionIdFollowsOrEquals a b = decide (y ≤ x) := by
  simp only [TransactionIdFollowsOrEquals, TransactionIdIsNormal, ha.normal, hb.normal,
    Word32.toInt_sub_of_emod ha.word hb.word hlo hhi]
  exact decide_eq_decide.mpr (by omega)

/-- The older one of two ids is that of the smaller integer. -/
theorem older : IdOf (TransactionIdOlder a b) (min x y) := by
  simp only [TransactionIdOlder, ha.valid, hb.valid, Bool.not_true, Bool.false_eq_true, if_false,
    ha.precedes hb hlo hhi, decide_eq_true_eq]
  split_ifs with h
  · rw [min_eq_left h.le]
    exact ha
  · rw [min_eq_right (not_lt.mp h)]
    exact hb

end Close

/-- **Stepping back** goes at least as far as asked for, and at most past the special ids. It stays
above zero exactly if there is room for the special ids below. -/
theorem retreatedBy (h : IdOf xid x) (amount : ℕ) :
    ∃ y, IdOf (TransactionIdRetreatedBy xid amount) y ∧ y ≤ x - amount ∧ x - amount - 3 ≤ y ∧
      (0 ≤ y ↔ (amount : ℤ) + 3 ≤ x) := by
  have hword := h.word
  have hsub : ((Word32.sub xid amount : ℕ) : ℤ) = (x - amount) % 2 ^ 32 := by
    simp only [Word32.sub]
    omega
  by_cases hnorm : Word32.sub xid amount < FirstNormalTransactionId
  · -- the loop steps over the special ids to the largest word
    have hloop : TransactionIdRetreatedBy xid amount = 2 ^ 32 - 1 := by
      rw [TransactionIdRetreatedBy]
      rw [FirstNormalTransactionId] at hnorm
      generalize Word32.sub xid amount = w at hnorm
      interval_cases w <;> rfl
    rw [FirstNormalTransactionId] at hnorm
    refine ⟨x - amount - Word32.sub xid amount - 1, ⟨?_, ?_⟩, ?_, ?_, ?_⟩
    · rw [FirstNormalTransactionId]
      omega
    · omega
    · omega
    · omega
    · omega
  · have hloop : TransactionIdRetreatedBy xid amount = Word32.sub xid amount := by
      rw [TransactionIdRetreatedBy, retreatedByLoop, if_neg hnorm]
    rw [FirstNormalTransactionId] at hnorm
    refine ⟨x - amount, ⟨?_, ?_⟩, ?_, ?_, ?_⟩
    · rw [FirstNormalTransactionId]
      omega
    · rw [hloop]
      exact hsub.symm
    · omega
    · omega
    · omega

/-- Nothing is stepped back by zero. -/
theorem retreatedBy_zero (h : IdOf xid x) : TransactionIdRetreatedBy xid 0 = xid := by
  have hsub : Word32.sub xid 0 = xid := by
    have hlt := h.lt
    rw [Word32.sub_of_le (Nat.zero_le _) hlt, Nat.sub_zero]
  rw [TransactionIdRetreatedBy, hsub, retreatedByLoop, if_neg (Nat.not_lt.mpr h.normal)]

/-- The id after the low word of a counter is that of the next number with a normal low word. -/
theorem advance (rel : ℕ) : ∃ y : ℕ, IdOf (TransactionIdAdvance (XidFromFullTransactionId rel)) y ∧
    rel < y ∧ y ≤ rel + 4 ∧ ∀ z, rel < z → FirstNormalTransactionId ≤ z % 2 ^ 32 → y ≤ z := by
  rw [TransactionIdAdvance, XidFromFullTransactionId]
  split_ifs with h
  · rw [FirstNormalTransactionId] at h
    refine ⟨rel + 1 + (3 - (rel % 2 ^ 32 + 1) % 2 ^ 32), ⟨le_rfl, ?_⟩, ?_, ?_, ?_⟩
    · rw [FirstNormalTransactionId]
      omega
    · omega
    · omega
    · rw [FirstNormalTransactionId]
      intro z hlt hz
      omega
  · rw [FirstNormalTransactionId] at h
    refine ⟨rel + 1, ⟨?_, ?_⟩, ?_, ?_, ?_⟩
    · rw [FirstNormalTransactionId]
      omega
    · omega
    · omega
    · omega
    · intro z hlt _
      exact hlt

/-- **The 64-bit id** of a low word close to a counter is the integer, in 64 bits. -/
theorem relativeTo {rel : ℕ} (h : IdOf xid x) (hlo : -2 ^ 31 ≤ x - rel) (hhi : x - rel < 2 ^ 31) :
    FullXidRelativeTo rel xid = (x % 2 ^ 64).toNat := by
  have hrel : (rel : ℤ) % 2 ^ 32 = XidFromFullTransactionId rel := by
    simp only [XidFromFullTransactionId]
    omega
  rw [FullXidRelativeTo, Word32.toInt_sub_of_emod h.word hrel hlo hhi]
  congr 2
  omega

end IdOf

/-! ### The older and the newer id -/

/-- An invalid id does not count for the older one. -/
@[simp] theorem TransactionIdOlder_invalid_right (a : ℕ) :
    TransactionIdOlder a InvalidTransactionId = a := by
  simp only [TransactionIdOlder, TransactionIdIsValid, InvalidTransactionId]
  by_cases h : a = 0
  · simp [h]
  · simp [h]

/-- The newer one of a valid id and another one. -/
theorem FullTransactionIdNewer_left {a : ℕ} (ha : FullTransactionIdIsValid a = true) (b : ℕ) :
    FullTransactionIdNewer a b = if FullTransactionIdIsValid b then max a b else a := by
  simp only [FullTransactionIdNewer, ha]
  by_cases hb : FullTransactionIdIsValid b = true
  · simp only [hb, Bool.not_true, Bool.false_eq_true, if_false, if_true]
    rcases lt_or_ge b a with h | h
    · rw [if_pos h, max_eq_left h.le]
    · rw [if_neg (Nat.not_lt.mpr h), max_eq_right h]
  · simp [hb]

end FdPostgres
