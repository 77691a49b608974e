import Mathlib

/-!
# Values Packed Back to Back

Words of a fixed number of bytes, the least significant byte first, and lists of values written one
after the other without separators. A reader takes a value from the front of the bytes and returns
the rest; `short` is its outcome where the bytes end too early.

* `Reads`: a reader takes back what a writer wrote, whatever comes behind.
* `reads_word`, `reads_list`: **words and lists are read back**, lists by their length.
-/

namespace Codec

variable {α ε : Type}

/-- A reader. -/
abbrev Reader (ε α : Type) := List UInt8 → Except ε (α × List UInt8)

/-- `read` takes the value `a` from the front of what `write` made of it. -/
def Reads (read : Reader ε α) (write : α → List UInt8) (a : α) : Prop :=
  ∀ rest, read (write a ++ rest) = .ok (a, rest)

/-! ### Words -/

/-- The bytes of a number, `w` of them. -/
def bytesOf : ℕ → ℕ → List UInt8
  | 0, _ => []
  | w + 1, x => UInt8.ofNat x :: bytesOf w (x / 256)

/-- The number that bytes stand for. -/
def valueOf : List UInt8 → ℕ
  | [] => 0
  | b :: bytes => b.toNat + 256 * valueOf bytes

/-- The bytes of a word. -/
def word (w : ℕ) (v : BitVec (8 * w)) : List UInt8 := bytesOf w v.toNat

/-- Take a word of `w` bytes. -/
def readWord (short : ε) (w : ℕ) : Reader ε (BitVec (8 * w)) := fun bytes =>
  if bytes.length < w then .error short
  else .ok (BitVec.ofNat _ (valueOf (bytes.take w)), bytes.drop w)

@[simp] theorem length_bytesOf (w x : ℕ) : (bytesOf w x).length = w := by
  induction w generalizing x with
  | zero => rfl
  | succ w ih => simp [bytesOf, ih]

@[simp] theorem length_word (w : ℕ) (v : BitVec (8 * w)) : (word w v).length = w :=
  length_bytesOf w _

theorem valueOf_bytesOf (w x : ℕ) : valueOf (bytesOf w x) = x % 256 ^ w := by
  induction w generalizing x with
  | zero => simp [bytesOf, valueOf, Nat.mod_one]
  | succ w ih =>
    rw [bytesOf, valueOf, ih, Nat.pow_succ', Nat.mod_mul]
    rfl

/-- **A word is read back.** -/
theorem reads_word (short : ε) (w : ℕ) (v : BitVec (8 * w)) :
    Reads (readWord short w) (word w) v := by
  intro rest
  have hvalue : valueOf (word w v) = v.toNat := by
    rw [word, valueOf_bytesOf, show 256 = 2 ^ 8 from rfl, ← Nat.pow_mul]
    exact Nat.mod_eq_of_lt v.isLt
  rw [readWord, if_neg (by simp), List.take_left' (length_word w v),
    List.drop_left' (length_word w v), hvalue, BitVec.ofNat_toNat, BitVec.setWidth_eq]

/-! ### Lists -/

/-- Take `n` values. -/
def readList (read : Reader ε α) : ℕ → Reader ε (List α)
  | 0, bytes => .ok ([], bytes)
  | n + 1, bytes => do
      let (a, bytes) ← read bytes
      let (l, bytes) ← readList read n bytes
      pure (a :: l, bytes)

/-- **A list is read back**, by its length. -/
theorem reads_list {read : Reader ε α} {write : α → List UInt8} {l : List α}
    (h : ∀ a ∈ l, Reads read write a) : Reads (readList read l.length) (·.flatMap write) l := by
  intro rest
  induction l with
  | nil => rfl
  | cons a l ih =>
    rw [List.forall_mem_cons] at h
    have hfirst := h.1 (l.flatMap write ++ rest)
    rw [← List.append_assoc] at hfirst
    simp only [List.length_cons, readList, List.flatMap_cons, hfirst, bind, Except.bind, ih h.2]
    rfl

end Codec
