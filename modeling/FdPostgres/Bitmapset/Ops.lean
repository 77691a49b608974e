import FdPostgres.Lib.BitWords

/-!
# Bitmapsets

The operations of `nodes/bitmapset.c`. A Bitmapset is an array of 64-bit words; a null
pointer is the empty set. Members are C `int`s, so a set has at most `2 ^ 25` words, and every
operation that allocates a set gives it at least one: both are fields of `Bitmapset`.

Members and results of type `int` are `Int32`, with its wrap-around arithmetic (the server is
compiled with `-fwrapv`). Operations that raise an error return `Except`. Two iteration
functions can read outside the array when they are started from a position that their
contract excludes; `none` stands for that.

* `bms_equal`, `bms_compare`, `bms_subset_compare`, ...: comparisons.
* `bms_union`, `bms_intersect`, ...: operations with a new result.
* `bms_add_member`, `bms_add_range`, ...: operations that recycle their input.
* `bms_next_member`, `bms_prev_member`: iteration.
-/

namespace FdPostgres

open BitWords List

def BITS_PER_BITMAPWORD : ℕ := 64

abbrev bitmapword := BitVec 64

def WORDNUM (x : ℕ) : ℕ := x / BITS_PER_BITMAPWORD

def BITNUM (x : ℕ) : ℕ := x % BITS_PER_BITMAPWORD

/-- `RIGHTMOST_ONE`: the lowest set bit of a word. -/
def RIGHTMOST_ONE (x : bitmapword) : bitmapword := x &&& -x

def HAS_MULTIPLE_ONES (x : bitmapword) : Bool := RIGHTMOST_ONE x != x

/-- `bmw_leftmost_one_pos`, by the count of leading zeros. -/
def bmw_leftmost_one_pos (w : bitmapword) : ℕ := 63 - w.clz.toNat

/-- `bmw_rightmost_one_pos`, by the count of trailing zeros. -/
def bmw_rightmost_one_pos (w : bitmapword) : ℕ := w.ctz.toNat

def bmw_popcount (w : bitmapword) : ℕ := popcount w

/-- The error that the operations with a number raise. -/
inductive BmsError where
  | negativeMember
  deriving Repr, DecidableEq

/-- The text of the error. -/
def BmsError.message : BmsError → String
  | negativeMember => "negative bitmapset member not allowed"

/-- The largest number of words: every `int` has its bit in them. -/
def maxWords : ℕ := 2 ^ 25

/-- `Bitmapset`: an array of at least one word. -/
structure Bitmapset where
  words : List bitmapword
  pos : 1 ≤ words.length
  fits : words.length ≤ maxWords

namespace Bitmapset

variable (a : Bitmapset)

/-- The number of words. -/
def nwords : ℕ := a.words.length

/-- The words of the range `lo .. hi - 1` changed, each by a function of its index. -/
def update (lo hi : ℕ) (f : ℕ → bitmapword → bitmapword) : Bitmapset where
  words := BitWords.update lo hi f a.words
  pos := by rw [length_update]; exact a.pos
  fits := by rw [length_update]; exact a.fits

/-- One word changed. -/
def modify (wordnum : ℕ) (f : bitmapword → bitmapword) : Bitmapset :=
  a.update wordnum (wordnum + 1) (fun _ => f)

/-- A set of zero words (`palloc0`), at least up to a word number. -/
def zeros (wordnum : ℕ) (h : wordnum < maxWords) : Bitmapset where
  words := replicate (wordnum + 1) 0
  pos := by simp
  fits := by simpa using h

/-- A set enlarged by zero words so that it has a word number (`repalloc`). -/
def enlarge (wordnum : ℕ) (h : wordnum < maxWords) : Bitmapset where
  words := a.words ++ replicate (wordnum + 1 - a.nwords) 0
  pos := by
    have := a.pos
    rw [length_append]
    omega
  fits := by
    have := a.fits
    rw [length_append, length_replicate, nwords]
    omega

end Bitmapset

/-- Every `int` has its word number in range. -/
theorem wordnum_lt (x : Int32) : WORDNUM x.toNatClampNeg < maxWords := by
  have hlt := x.toNatClampNeg_lt
  rw [WORDNUM, BITS_PER_BITMAPWORD, maxWords]
  omega

/-! ### Comparisons -/

def bms_is_empty : Option Bitmapset → Bool
  | none => true
  | some a => a.words.all (fun w => w == 0)

/-- `bms_equal`: the common words agree, and the rest of the longer set is zero. -/
def bms_equal : Option Bitmapset → Option Bitmapset → Bool
  | none, none => true
  | none, some b => bms_is_empty (some b)
  | some a, none => bms_is_empty (some a)
  | some a, some b =>
      let shorter := if a.nwords ≤ b.nwords then a else b
      let longer := if a.nwords ≤ b.nwords then b else a
      (range shorter.nwords).all (fun i => word shorter.words i == word longer.words i) &&
        (longer.words.drop shorter.nwords).all (fun w => w == 0)

/-- The loop of `bms_compare` over the words in common, from the highest down. -/
def compareLoop (a b : List bitmapword) : ℕ → ℤ
  | 0 => 0
  | i + 1 =>
      if word a i ≠ word b i then
        if word a i > word b i then 1 else -1
      else compareLoop a b i

def bms_compare : Option Bitmapset → Option Bitmapset → ℤ
  | none, b => if bms_is_empty b then 0 else -1
  | some a, none => if bms_is_empty (some a) then 0 else 1
  | some a, some b =>
      let shortlen := min a.nwords b.nwords
      if (a.words.drop shortlen).any (fun w => w != 0) then 1
      else if (b.words.drop shortlen).any (fun w => w != 0) then -1
      else compareLoop a.words b.words shortlen

def bms_is_subset : Option Bitmapset → Option Bitmapset → Bool
  | none, _ => true
  | some a, none => bms_is_empty (some a)
  | some a, some b =>
      let shortlen := min a.nwords b.nwords
      (range shortlen).all (fun i => word a.words i &&& ~~~ word b.words i == 0) &&
        (a.words.drop shortlen).all (fun w => w == 0)

inductive BMS_Comparison where
  | BMS_EQUAL
  | BMS_SUBSET1
  | BMS_SUBSET2
  | BMS_DIFFERENT
  deriving Repr, DecidableEq

open BMS_Comparison

/-- The status of `bms_subset_compare` after `a` turned out not to be a subset of `b`; `none`
is the early return of `BMS_DIFFERENT`. -/
def notSubset1 (result : BMS_Comparison) : Option BMS_Comparison :=
  if result = BMS_SUBSET1 then none else some BMS_SUBSET2

/-- The status of `bms_subset_compare` after `b` turned out not to be a subset of `a`. -/
def notSubset2 (result : BMS_Comparison) : Option BMS_Comparison :=
  if result = BMS_SUBSET2 then none else some BMS_SUBSET1

/-- One round of `bms_subset_compare` over a pair of words. -/
def subsetCompareWord (aword bword : bitmapword) (result : BMS_Comparison) :
    Option BMS_Comparison :=
  (if aword &&& ~~~ bword ≠ 0 then notSubset1 result else some result).bind fun result =>
    if bword &&& ~~~ aword ≠ 0 then notSubset2 result else some result

/-- The loop of `bms_subset_compare` over the first `n` words. -/
def subsetCompareLoop (a b : List bitmapword) (n : ℕ) : Option BMS_Comparison :=
  (range n).foldlM (fun result i => subsetCompareWord (word a i) (word b i) result)
    BMS_EQUAL

/-- The loops of `bms_subset_compare` over the extra words of one set. -/
def extraWordsLoop (note : BMS_Comparison → Option BMS_Comparison) (ws : List bitmapword)
    (result : BMS_Comparison) : Option BMS_Comparison :=
  ws.foldlM (fun result w => if w ≠ 0 then note result else some result) result

def bms_subset_compare : Option Bitmapset → Option Bitmapset → BMS_Comparison
  | none, none => BMS_EQUAL
  | none, some b => if bms_is_empty (some b) then BMS_EQUAL else BMS_SUBSET1
  | some a, none => if bms_is_empty (some a) then BMS_EQUAL else BMS_SUBSET2
  | some a, some b =>
      let shortlen := min a.nwords b.nwords
      let result := (subsetCompareLoop a.words b.words shortlen).bind fun result =>
        if a.nwords > b.nwords then extraWordsLoop notSubset1 (a.words.drop shortlen) result
        else if a.nwords < b.nwords then
          extraWordsLoop notSubset2 (b.words.drop shortlen) result
        else some result
      result.getD BMS_DIFFERENT

def bms_is_member (x : Int32) (a : Option Bitmapset) : Except BmsError Bool :=
  if x < 0 then .error .negativeMember
  else
    match a with
    | none => .ok false
    | some a =>
        let wordnum := WORDNUM x.toNatClampNeg
        let bitnum := BITNUM x.toNatClampNeg
        if wordnum ≥ a.nwords then .ok false
        else .ok (word a.words wordnum &&& ((1 : bitmapword) <<< bitnum) != 0)

/-- The loop that counts the set bits of some words. -/
def countLoop (ws : List bitmapword) : Int32 :=
  ws.foldl (fun result w => if w ≠ 0 then result + Int32.ofNat (bmw_popcount w) else result) 0

variable (a : Option Bitmapset)

def bms_member_index (x : Int32) : Except BmsError Int32 :=
  match bms_is_member x a, a with
  | .error e, _ => .error e
  | .ok true, some a =>
      let wordnum := WORDNUM x.toNatClampNeg
      let bitnum := BITNUM x.toNatClampNeg
      let mask := ((1 : bitmapword) <<< bitnum) - 1
      .ok (countLoop (a.words.take wordnum) +
        Int32.ofNat (bmw_popcount (word a.words wordnum &&& mask)))
  | .ok _, _ => .ok (-1)

def bms_overlap : Option Bitmapset → Option Bitmapset → Bool
  | some a, some b =>
      (range (min a.nwords b.nwords)).any
        (fun i => word a.words i &&& word b.words i != 0)
  | _, _ => false

def bms_nonempty_difference : Option Bitmapset → Option Bitmapset → Bool
  | none, _ => false
  | some a, none => !bms_is_empty (some a)
  | some a, some b =>
      let shortlen := min a.nwords b.nwords
      (range shortlen).any (fun i => word a.words i &&& ~~~ word b.words i != 0) ||
        (a.words.drop shortlen).any (fun w => w != 0)

def bms_num_members : Option Bitmapset → Int32
  | none => 0
  | some a => countLoop a.words

inductive BMS_Membership where
  | BMS_EMPTY_SET
  | BMS_SINGLETON
  | BMS_MULTIPLE
  deriving Repr, DecidableEq

open BMS_Membership

/-- The loop of `bms_membership`. -/
def membershipLoop : List bitmapword → BMS_Membership → BMS_Membership
  | [], result => result
  | w :: ws, result =>
      if w ≠ 0 then
        if result ≠ BMS_EMPTY_SET ∨ HAS_MULTIPLE_ONES w then BMS_MULTIPLE
        else membershipLoop ws BMS_SINGLETON
      else membershipLoop ws result

def bms_membership : Option Bitmapset → BMS_Membership
  | none => BMS_EMPTY_SET
  | some a => membershipLoop a.words BMS_EMPTY_SET

/-! ### Operations with a new result -/

/-- The loop that joins the words of `other` into `result`, which is at least as long. -/
def orInto (result other : Bitmapset) : Bitmapset :=
  result.update 0 other.nwords (fun i w => w ||| word other.words i)

def bms_union : Option Bitmapset → Option Bitmapset → Option Bitmapset
  | none, b => b
  | some a, none => some a
  | some a, some b => some (if a.nwords ≤ b.nwords then orInto b a else orInto a b)

/-- The loop of `bms_intersect`: all words of `result`, which is at most as long. -/
def andInto (result other : Bitmapset) : Bitmapset :=
  result.update 0 result.nwords (fun i w => w &&& word other.words i)

def bms_intersect : Option Bitmapset → Option Bitmapset → Option Bitmapset
  | some a, some b => some (if a.nwords ≤ b.nwords then andInto a b else andInto b a)
  | _, _ => none

/-- The loop of `bms_difference` and `bms_del_members`. -/
def clearFrom (result b : Bitmapset) : Bitmapset :=
  result.update 0 (min result.nwords b.nwords) (fun i w => w &&& ~~~ word b.words i)

def bms_difference : Option Bitmapset → Option Bitmapset → Option Bitmapset
  | none, _ => none
  | some a, none => some a
  | some a, some b => some (clearFrom a b)

def bms_make_singleton (x : Int32) : Except BmsError Bitmapset :=
  if x < 0 then .error .negativeMember
  else
    let bitnum := BITNUM x.toNatClampNeg
    .ok ((Bitmapset.zeros (WORDNUM x.toNatClampNeg) (wordnum_lt x)).modify
      (WORDNUM x.toNatClampNeg) (fun _ => (1 : bitmapword) <<< bitnum))

/-! ### Operations that recycle their input -/

def bms_add_member (x : Int32) : Except BmsError Bitmapset :=
  if x < 0 then .error .negativeMember
  else
    match a with
    | none => bms_make_singleton x
    | some a =>
        let bitnum := BITNUM x.toNatClampNeg
        .ok ((a.enlarge (WORDNUM x.toNatClampNeg) (wordnum_lt x)).modify
          (WORDNUM x.toNatClampNeg) (fun w => w ||| ((1 : bitmapword) <<< bitnum)))

def bms_del_member (x : Int32) : Except BmsError (Option Bitmapset) :=
  if x < 0 then .error .negativeMember
  else
    match a with
    | none => .ok none
    | some a =>
        let wordnum := WORDNUM x.toNatClampNeg
        let bitnum := BITNUM x.toNatClampNeg
        if wordnum < a.nwords then
          .ok (some (a.modify wordnum (fun w => w &&& ~~~ ((1 : bitmapword) <<< bitnum))))
        else .ok (some a)

def bms_add_members : Option Bitmapset → Option Bitmapset → Option Bitmapset
  | none, b => b
  | some a, none => some a
  | some a, some b => some (if a.nwords < b.nwords then orInto b a else orInto a b)

/-- The set that `bms_add_range` works on: the input, enlarged so that it has a word number. -/
def roomFor (wordnum : ℕ) (h : wordnum < maxWords) : Bitmapset :=
  match a with
  | none => Bitmapset.zeros wordnum h
  | some a => a.enlarge wordnum h

/-- The bits that `bms_add_range` turns on: within one word, or in a first word, the words
between, and a last word. -/
def setRange (a : Bitmapset) (lower upper : ℕ) : Bitmapset :=
  let lwordnum := WORDNUM lower
  let uwordnum := WORDNUM upper
  let lbitnum := BITNUM lower
  let ushiftbits := BITS_PER_BITMAPWORD - (BITNUM upper + 1)
  let lmask : bitmapword := ~~~ (((1 : bitmapword) <<< lbitnum) - 1)
  let umask : bitmapword := (~~~ (0 : bitmapword)) >>> ushiftbits
  if lwordnum = uwordnum then a.modify lwordnum (fun w => w ||| (lmask &&& umask))
  else
    ((a.modify lwordnum (fun w => w ||| lmask)).update (lwordnum + 1) uwordnum
      (fun _ _ => ~~~ (0 : bitmapword))).modify uwordnum (fun w => w ||| umask)

def bms_add_range (lower upper : Int32) : Except BmsError (Option Bitmapset) :=
  if upper < lower then .ok a
  else if lower < 0 then .error .negativeMember
  else
    .ok (some (setRange (roomFor a (WORDNUM upper.toNatClampNeg) (wordnum_lt upper))
      lower.toNatClampNeg upper.toNatClampNeg))

def bms_int_members : Option Bitmapset → Option Bitmapset → Option Bitmapset
  | some a, some b =>
      let shortlen := min a.nwords b.nwords
      some ((a.update 0 shortlen (fun i w => w &&& word b.words i)).update shortlen a.nwords
        (fun _ _ => 0))
  | _, _ => none

def bms_del_members : Option Bitmapset → Option Bitmapset → Option Bitmapset
  | none, _ => none
  | some a, none => some a
  | some a, some b => some (clearFrom a b)

def bms_join : Option Bitmapset → Option Bitmapset → Option Bitmapset
  | none, b => b
  | some a, none => some a
  | some a, some b => some (if a.nwords < b.nwords then orInto b a else orInto a b)

/-! ### Iteration -/

/-- The loop of `bms_next_member`, over the words from `wordnum` on. -/
def nextLoop (ws : List bitmapword) : ℕ → ℕ → bitmapword → Option ℕ
  | 0, _, _ => none
  | fuel + 1, wordnum, mask =>
      let w := word ws wordnum &&& mask
      if w ≠ 0 then some (wordnum * BITS_PER_BITMAPWORD + bmw_rightmost_one_pos w)
      else nextLoop ws fuel (wordnum + 1) (~~~ (0 : bitmapword))

/-- `bms_next_member`. The position after `prevbit` is computed in `int`; when it is negative,
the loop starts in front of the array and the result is undefined. -/
def bms_next_member (prevbit : Int32) : Option Int32 :=
  match a with
  | none => some (-2)
  | some a =>
      let prevbit := prevbit + 1
      if prevbit < 0 then none
      else
        let wordnum := WORDNUM prevbit.toNatClampNeg
        let mask := (~~~ (0 : bitmapword)) <<< BITNUM prevbit.toNatClampNeg
        match nextLoop a.words (a.nwords - wordnum) wordnum mask with
        | some result => some (Int32.ofNat result)
        | none => some (-2)

/-- The loop of `bms_prev_member`, over the words `n - 1` down to 0. -/
def prevLoop (ws : List bitmapword) : ℕ → bitmapword → Option ℕ
  | 0, _ => none
  | wordnum + 1, mask =>
      let w := word ws wordnum &&& mask
      if w ≠ 0 then some (wordnum * BITS_PER_BITMAPWORD + bmw_leftmost_one_pos w)
      else prevLoop ws wordnum (~~~ (0 : bitmapword))

/-- `bms_prev_member`. A start behind the array, or in front of it, is undefined. -/
def bms_prev_member (prevbit : Int32) : Option Int32 :=
  match a with
  | none => some (-2)
  | some a =>
      if prevbit = 0 then some (-2)
      else
        let prevbit := if prevbit = -1
          then Int32.ofNat a.nwords * Int32.ofNat BITS_PER_BITMAPWORD - 1 else prevbit - 1
        let wordnum := WORDNUM prevbit.toNatClampNeg
        if prevbit < 0 ∨ wordnum ≥ a.nwords then none
        else
          let ushiftbits := BITS_PER_BITMAPWORD - (BITNUM prevbit.toNatClampNeg + 1)
          let mask := (~~~ (0 : bitmapword)) >>> ushiftbits
          match prevLoop a.words (wordnum + 1) mask with
          | some result => some (Int32.ofNat result)
          | none => some (-2)

/-- The iteration pattern `x = -1; while ((x = step(x)) >= 0) ...`: the values of `x` in
order, with the one that ends the loop. `none` when a step is undefined or the loop takes more
than `fuel` steps. -/
def iterateFrom (step : Int32 → Option Int32) : ℕ → Int32 → Option (List Int32)
  | 0, _ => none
  | fuel + 1, x =>
      (step x).bind fun y =>
        if 0 ≤ y then (iterateFrom step fuel y).map (y :: ·) else some [y]

/-! ### Hashing -/

/-- The loop of `bms_hash_value`: the last nonzero word among the first `n`. -/
def lastwordLoop (ws : List bitmapword) : ℕ → Option ℕ
  | 0 => none
  | i + 1 => if word ws i ≠ 0 then some i else lastwordLoop ws i

/-- `bms_hash_value`. `hash_any` is the hash of the bytes of some words. -/
def bms_hash_value (hash_any : List bitmapword → BitVec 32) : Option Bitmapset → BitVec 32
  | none => 0
  | some a =>
      match lastwordLoop a.words a.nwords with
      | none => 0
      | some lastword => hash_any (a.words.take (lastword + 1))

end FdPostgres
