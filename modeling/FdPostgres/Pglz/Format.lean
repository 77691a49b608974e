import FdPostgres.Lib.BackReferences

/-!
# The Format of Compressed Data

Compressed data are groups of up to eight items after a control byte, which has a bit for each
item: whether it is a tag. A literal is one byte, a tag two or three: a repetition of 3 to 17 or of
18 to 273 bytes, at an offset below 4096.

* `tagBytes`: the bytes of a tag, as the compressor writes them; `readTag`: how they are read.
* `itemBytes`, `ctrlBits`, `encode`: the bytes of an item, the control byte of a group and the bytes
  of groups.
* `readTag_tagBytes`: **a tag is read back as it was written.**
-/

namespace FdPostgres.Pglz

open BackReferences List Nat

/-! ### Tags -/

/-- The bytes of a tag. -/
def tagBytes (len off : ℕ) : List UInt8 :=
  if len > 17 then
    [UInt8.ofNat ((off &&& 0xf00) >>> 4 ||| 0x0f), UInt8.ofNat (off &&& 0xff),
      UInt8.ofNat (len - 18)]
  else [UInt8.ofNat ((off &&& 0xf00) >>> 4 ||| (len - 3)), UInt8.ofNat (off &&& 0xff)]

/-- The length and the offset of the tag at `sp`, and the place behind it. -/
def readTag (source : List UInt8) (sp : ℕ) : ℕ × ℕ × ℕ :=
  let len := ((source.getD sp 0).toNat &&& 0x0f) + 3
  let off := ((source.getD sp 0).toNat &&& 0xf0) <<< 4 ||| (source.getD (sp + 1) 0).toNat
  if len = 18 then (len + (source.getD (sp + 2) 0).toNat, off, sp + 3)
  else (len, off, sp + 2)

/-- The upper half of a byte. -/
theorem and_high {x : ℕ} (hx : x < 256) : x &&& 0xf0 = x / 16 * 16 := by
  have hdiv : (x &&& 0xf0) / 2 ^ 4 = x / 2 ^ 4 % 2 ^ 4 := by
    rw [and_div_two_pow]
    exact and_two_pow_sub_one_eq_mod _ 4
  have hmod : (x &&& 0xf0) % 2 ^ 4 = 0 := by
    rw [and_mod_two_pow]
    exact and_zero _
  omega

/-- The first byte of a tag has the upper part of the offset above and a code of the length
below. -/
theorem tag_high {off code : ℕ} (hoff : off < 4096) (hcode : code < 16) :
    (UInt8.ofNat ((off &&& 0xf00) >>> 4 ||| code)).toNat = off / 256 * 16 + code := by
  have hhigh : (off &&& 0xf00) >>> 4 = 2 ^ 4 * (off / 256) := by
    rw [shiftRight_and_distrib, show 0xf00 >>> 4 = 0xf0 from rfl,
      and_high (by omega)]
    omega
  rw [hhigh, ← two_pow_add_eq_or_of_lt (by omega), UInt8.toNat_ofNat_of_lt' (by
    simp only [UInt8.size]; omega)]
  omega

/-- The second byte of a tag has the lower part of the offset. -/
theorem tag_low (off : ℕ) : (UInt8.ofNat (off &&& 0xff)).toNat = off % 256 := by
  rw [show (0xff : ℕ) = 2 ^ 8 - 1 from rfl, and_two_pow_sub_one_eq_mod,
    UInt8.toNat_ofNat_of_lt' (by simp only [UInt8.size]; omega)]

/-- The offset from the first two bytes. -/
theorem read_off {b0 b1 : ℕ} (hb0 : b0 < 256) (hb1 : b1 < 256) :
    (b0 &&& 0xf0) <<< 4 ||| b1 = b0 / 16 * 256 + b1 := by
  have hhigh : (b0 &&& 0xf0) <<< 4 = 2 ^ 8 * (b0 / 16) := by
    rw [and_high hb0]
    omega
  rw [hhigh, ← two_pow_add_eq_or_of_lt (by omega)]
  omega

/-- The code of the length from the first byte. -/
theorem read_len (b0 : ℕ) : b0 &&& 0x0f = b0 % 16 := and_two_pow_sub_one_eq_mod b0 4

/-- The bytes at a place of the data. -/
theorem getD_of_drop {source : List UInt8} {sp : ℕ} {l rest : List UInt8}
    (h : source.drop sp = l ++ rest) {i : ℕ} (hi : i < l.length) :
    source.getD (sp + i) 0 = l.getD i 0 := by
  simp only [getD_eq_getElem?_getD]
  rw [← List.getElem?_drop, h, List.getElem?_append_left hi]

/-- **A tag is read back as it was written.** -/
theorem readTag_tagBytes {source rest : List UInt8} {sp len off : ℕ}
    (h : source.drop sp = tagBytes len off ++ rest) (hlen : 3 ≤ len ∧ len ≤ 273)
    (hoff : off < 4096) : readTag source sp = (len, off, sp + (tagBytes len off).length) := by
  by_cases hlong : len > 17
  · rw [tagBytes, if_pos hlong] at h ⊢
    have h0 : source.getD sp 0 = _ := getD_of_drop h (i := 0) (by simp)
    have h1 : source.getD (sp + 1) 0 = _ := getD_of_drop h (by simp)
    have h2 : source.getD (sp + 2) 0 = _ := getD_of_drop h (by simp)
    simp only [getD_cons_zero, getD_cons_succ] at h0 h1 h2
    simp only [readTag, h0, h1, h2, tag_high hoff (show 0x0f < 16 by decide), tag_low, read_len]
    rw [read_off (by omega) (by omega), UInt8.toNat_ofNat_of_lt' (by
      simp only [UInt8.size]; omega), if_pos (by omega)]
    simp only [Prod.mk.injEq, length_cons, length_nil]
    exact ⟨by omega, by omega, trivial⟩
  · rw [tagBytes, if_neg hlong] at h ⊢
    have h0 : source.getD sp 0 = _ := getD_of_drop h (i := 0) (by simp)
    have h1 : source.getD (sp + 1) 0 = _ := getD_of_drop h (by simp)
    simp only [getD_cons_zero, getD_cons_succ] at h0 h1
    simp only [readTag, h0, h1, tag_high hoff (show len - 3 < 16 by omega), tag_low, read_len]
    rw [read_off (by omega) (by omega), if_neg (by omega)]
    simp only [Prod.mk.injEq, length_cons, length_nil]
    exact ⟨by omega, by omega, trivial⟩

/-! ### Groups of items -/

/-- The bytes of an item, apart from its control bit. -/
def itemBytes : Item UInt8 → List UInt8
  | .literal b => [b]
  | .copy len off => tagBytes len off

/-- The control bit of an item. -/
def ctrlBit : Item UInt8 → ℕ
  | .literal _ => 0
  | .copy _ _ => 1

/-- The control bits of a group, the first item lowest. -/
def ctrlBits : List (Item UInt8) → ℕ
  | [] => 0
  | item :: group => ctrlBit item + 2 * ctrlBits group

variable (group : List (Item UInt8))

/-- The bytes of a group. -/
def encodeGroup : List UInt8 :=
  UInt8.ofNat (ctrlBits group) :: group.flatMap itemBytes

/-- The bytes of groups in a row. -/
def encode (groups : List (List (Item UInt8))) : List UInt8 :=
  groups.flatMap encodeGroup

/-- An item that a tag can hold. -/
def Codable : Item UInt8 → Prop
  | .literal _ => True
  | .copy len off => 3 ≤ len ∧ len ≤ 273 ∧ off < 4096

/-- All groups are full, except for the last one, and none is empty. -/
def Grouped : List (List (Item UInt8)) → Prop
  | [] => True
  | [group] => 1 ≤ group.length ∧ group.length ≤ 8
  | group :: groups => group.length = 8 ∧ Grouped groups

/-- An item has one to three bytes, and no more than it tells. -/
theorem itemBytes_length {item : Item UInt8} (h : Codable item) :
    1 ≤ (itemBytes item).length ∧ (itemBytes item).length ≤ 3 ∧
      (itemBytes item).length ≤ item.size := by
  cases item with
  | literal b => simp [itemBytes, Item.size]
  | copy len off =>
    simp only [itemBytes, tagBytes, Item.size]
    obtain ⟨hlow, -, -⟩ := h
    split <;> simp only [length_cons, length_nil] <;> omega

variable (item : Item UInt8)

theorem ctrlBit_le : ctrlBit item ≤ 1 := by
  cases item <;> simp [ctrlBit]

/-- The control bits of a group are as many as its items. -/
theorem ctrlBits_lt : ctrlBits group < 2 ^ group.length := by
  induction group with
  | nil => simp [ctrlBits]
  | cons item group ih =>
    have := ctrlBit_le item
    simp only [ctrlBits, length_cons]
    omega

/-- The control bit of an item at the end of a group. -/
theorem ctrlBits_concat :
    ctrlBits (group ++ [item]) = ctrlBits group + 2 ^ group.length * ctrlBit item := by
  induction group with
  | nil => simp [ctrlBits]
  | cons first group ih =>
    simp only [cons_append, ctrlBits, ih, length_cons, Nat.pow_succ]
    rw [Nat.mul_add, Nat.mul_comm (2 ^ group.length) 2, Nat.mul_assoc, Nat.add_assoc]

/-- The control byte of a group and what is left of it after the first item. -/
theorem ctrl_step {group : List (Item UInt8)} (h : group.length < 8) :
    (UInt8.ofNat (ctrlBits (item :: group)) &&& 1 ≠ 0 ↔ ctrlBit item = 1) ∧
      UInt8.ofNat (ctrlBits (item :: group)) >>> 1 = UInt8.ofNat (ctrlBits group) := by
  have hbit := ctrlBit_le item
  have hlt : ctrlBits (item :: group) < 2 ^ 8 :=
    Nat.lt_of_lt_of_le (ctrlBits_lt _) (Nat.pow_le_pow_right (by omega) (show _ ≤ 8 from h))
  have hnat : (UInt8.ofNat (ctrlBits (item :: group))).toNat = ctrlBit item + 2 * ctrlBits group :=
    UInt8.toNat_ofNat_of_lt' hlt
  constructor
  · rw [ne_eq, ← UInt8.toNat_inj, UInt8.toNat_and, hnat]
    have hone := Nat.and_one_is_mod (ctrlBit item + 2 * ctrlBits group)
    simp only [UInt8.reduceToNat]
    omega
  · simp only [ctrlBits] at hlt
    rw [← UInt8.toNat_inj, UInt8.toNat_shiftRight, hnat,
      UInt8.toNat_ofNat_of_lt' (by simp only [UInt8.size]; omega)]
    simp only [UInt8.reduceToNat, Nat.reduceMod]
    omega

end FdPostgres.Pglz
