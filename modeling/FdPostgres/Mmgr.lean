import Mathlib

/-!
# Requests for Memory

`palloc` and its variants refuse a request of more than `MaxAllocSize` bytes with an error report.
Whether the system has the memory is not modelled: a request within the limit is granted.
-/

namespace FdPostgres

/-- The largest request: one gigabyte less one byte. -/
def MaxAllocSize : ℕ := 0x3fffffff

/-- What can go wrong with memory: a request that is refused, with its size, or an access outside
what was granted, behind which nothing is known. -/
inductive MemoryError where
  | invalidAlloc (size : ℕ)
  | undefined
  deriving DecidableEq, Repr

/-- A request for a number of bytes. -/
def palloc (size : ℕ) : Except MemoryError Unit :=
  if size ≤ MaxAllocSize then .ok () else .error (.invalidAlloc size)

theorem palloc_of_le {size : ℕ} (h : size ≤ MaxAllocSize) : palloc size = .ok () := if_pos h

theorem palloc_of_lt {size : ℕ} (h : MaxAllocSize < size) :
    palloc size = .error (.invalidAlloc size) := if_neg (Nat.not_le.mpr h)

end FdPostgres
