import FdPostgres.Lib.Codec
import FdPostgres.Mmgr

/-!
# Extended Statistics as Byte Strings

Functional dependencies and ndistinct coefficients are stored as a `bytea`: a header with a magic
number, a type and the number of items, and then the items back to back, each with a `double`, the
number of its attributes and the attributes. The two formats are one layout with other constants
(`Format`): the number of attributes of an item is an `int16` in the one and an `int` in the other,
and their readers compute another lower bound for the size of the data.

A `bytea` stands for its data part, without the varlena header; a `double` is its 64 bits. The
readers can end in an error report, also that of a refused request for memory, and they can read
behind the data, which is `undefined` and which nothing but that lower bound guards against: the
assertions in the item loop are not compiled in.

* `statistics_roundTrip`: **both formats are read back as written**, to the last byte, if the memory
  for the bytes and for the items can be requested.
* `dependencies_size_check`: **when the bound for dependencies is sound.** It is the size of one
  item with as many attributes as there are items, not the size of that many items.
-/

namespace FdPostgres.Statistics

open Codec List

abbrev AttrNumber := BitVec 16

/-- The constants of a format: magic number and type, the bytes of an attribute count, and the
reader's lower bound for the data of a number of items. In memory there is a place of `slotBytes`
bytes for each item, and `fixedBytes` more bytes are requested with the attributes of an item. -/
structure Format where
  magic : BitVec 32
  type : BitVec 32
  countBytes : ℕ
  minimumSize : ℕ → ℕ
  slotBytes : ℕ
  fixedBytes : ℕ

/-- `MVDependency` or `MVNDistinctItem`: a degree or a coefficient, and attributes. -/
structure StatItem where
  value : BitVec 64
  attributes : List AttrNumber
  deriving DecidableEq

/-- `MVDependencies` or `MVNDistinct`. The number of items is a `uint32`. -/
structure StatList where
  magic : BitVec 32
  type : BitVec 32
  items : List StatItem
  length_lt : items.length < 2 ^ 32
  deriving DecidableEq

def STATS_MAX_DIMENSIONS : ℕ := 8

def SizeOfHeader : ℕ := 3 * 4

def VARHDRSZ : ℕ := 4

namespace Format

variable (f : Format)

/-- `SizeOfItem` for a number of attributes. -/
def SizeOfItem (natts : ℕ) : ℕ := 8 + f.countBytes + natts * 2

/-- `MinSizeOfItems`: the size of a number of items, all with two attributes. -/
def MinSizeOfItems (nitems : ℕ) : ℕ := SizeOfHeader + nitems * f.SizeOfItem 2

/-- The size of the data part of a list. -/
def sizeOfList (s : StatList) : ℕ :=
  SizeOfHeader + (s.items.map fun item => f.SizeOfItem item.attributes.length).sum

/-- The size of a number of items in memory, behind 16 bytes for the fields before them. -/
def structSize (nitems : ℕ) : ℕ := 16 + nitems * f.slotBytes

/-! ### Writing -/

def itemBytes (item : StatItem) : List UInt8 :=
  word 8 item.value ++ (word f.countBytes (BitVec.ofNat _ item.attributes.length) ++
    item.attributes.flatMap (word 2))

/-- The bytes of a header. -/
def headerBytes (magic type nitems : BitVec 32) : List UInt8 :=
  word 4 magic ++ (word 4 type ++ word 4 nitems)

/-- The header and the items are copied into a buffer of the size computed beforehand. A write
behind its end would be undefined. -/
def serialize (s : StatList) : Except MemoryError (List UInt8) := do
  let len := f.sizeOfList s
  palloc (VARHDRSZ + len)
  let out := headerBytes s.magic s.type (BitVec.ofNat 32 s.items.length) ++
    s.items.flatMap f.itemBytes
  if out.length ≤ len then pure (out ++ replicate (len - out.length) 0) else throw .undefined

/-! ### Reading -/

/-- The outcomes of a reader other than a result: its error reports, and what can go wrong with
memory, such as a read behind the data. -/
inductive ReadError where
  | invalidSize (size expected : ℕ)
  | invalidMagic (magic : BitVec 32)
  | invalidType (type : BitVec 32)
  | zeroLength
  | memory (e : MemoryError)
  deriving DecidableEq

def ReadError.undefined : ReadError := .memory .undefined

/-- The part of a reader before its loop: the number of items, and the data behind the header. -/
def readHeader (data : List UInt8) : Except ReadError (ℕ × List UInt8) := do
  if data.length < SizeOfHeader then throw (.invalidSize data.length SizeOfHeader)
  let (magic, tmp) ← readWord .undefined 4 data
  let (type, tmp) ← readWord .undefined 4 tmp
  let (nitems, tmp) ← readWord .undefined 4 tmp
  if magic ≠ f.magic then throw (.invalidMagic magic)
  if type ≠ f.type then throw (.invalidType type)
  if nitems = 0 then throw .zeroLength
  if data.length < f.minimumSize nitems.toNat then
    throw (.invalidSize data.length (f.minimumSize nitems.toNat))
  (palloc (f.structSize nitems.toNat)).mapError .memory
  pure (nitems.toNat, tmp)

/-- What is requested for an item with a number of attributes, in 64 unsigned bits. -/
def itemRequest (count : ℤ) : ℕ := ((f.fixedBytes + 2 * count) % 2 ^ 64).toNat

/-- One turn of the loop. A negative number of attributes is mostly refused as a request for almost
all the memory; small ones that are granted end in a copy of almost all the memory. -/
def readItem : Reader ReadError StatItem := fun tmp => do
  let (value, tmp) ← readWord .undefined 8 tmp
  let (count, tmp) ← readWord .undefined f.countBytes tmp
  (palloc (f.itemRequest count.toInt)).mapError .memory
  if count.msb then throw .undefined
  let (attributes, tmp) ← readList (readWord .undefined 2) count.toNat tmp
  pure (⟨value, attributes⟩, tmp)

/-- The reader, with the data it has not consumed. -/
def deserialize (data : List UInt8) : Except ReadError (StatList × List UInt8) := do
  let (nitems, tmp) ← f.readHeader data
  let (items, tmp) ← readList f.readItem nitems tmp
  -- The test always succeeds: there are as many items as the `uint32` of the header says.
  if h : items.length < 2 ^ 32 then pure (⟨f.magic, f.type, items, h⟩, tmp) else throw .undefined

/-! ### What is written is read -/

@[simp] theorem length_headerBytes (magic type nitems : BitVec 32) :
    (headerBytes magic type nitems).length = SizeOfHeader := by
  simp [headerBytes, SizeOfHeader]

theorem length_itemBytes (item : StatItem) :
    (f.itemBytes item).length = f.SizeOfItem item.attributes.length := by
  simp [itemBytes, SizeOfItem]
  omega

/-- The buffer is filled exactly. -/
theorem serialize_eq {s : StatList} (h : VARHDRSZ + f.sizeOfList s ≤ MaxAllocSize) :
    f.serialize s = .ok (headerBytes s.magic s.type (BitVec.ofNat 32 s.items.length) ++
      s.items.flatMap f.itemBytes) := by
  have hlen : (headerBytes s.magic s.type (BitVec.ofNat 32 s.items.length) ++
      s.items.flatMap f.itemBytes).length = f.sizeOfList s := by
    simp [length_itemBytes, sizeOfList]
  simp only [serialize, palloc_of_le h, hlen, le_refl, if_true, Nat.sub_self, replicate_zero,
    append_nil]
  rfl

/-- The checks behind a header with the right magic number and type. -/
theorem readHeader_headerBytes (nitems : BitVec 32) (rest : List UInt8) :
    f.readHeader (headerBytes f.magic f.type nitems ++ rest) = if nitems = 0 then .error .zeroLength
      else if SizeOfHeader + rest.length < f.minimumSize nitems.toNat then
        .error (.invalidSize (SizeOfHeader + rest.length) (f.minimumSize nitems.toNat))
      else if f.structSize nitems.toNat ≤ MaxAllocSize then .ok (nitems.toNat, rest)
      else .error (.memory (.invalidAlloc (f.structSize nitems.toNat))) := by
  have hwords : headerBytes f.magic f.type nitems ++ rest =
      word 4 f.magic ++ (word 4 f.type ++ (word 4 nitems ++ rest)) := by
    simp [headerBytes]
  have hlen : (headerBytes f.magic f.type nitems ++ rest).length =
      SizeOfHeader + rest.length := by rw [length_append, length_headerBytes]
  rw [readHeader, hlen, if_neg (by omega), hwords]
  simp only [reads_word _ 4 _ _, bind, Except.bind, ne_eq, not_true_eq_false,
    if_false]
  split
  · rfl
  · split
    · rfl
    · by_cases hfits : f.structSize nitems.toNat ≤ MaxAllocSize
      · rw [palloc_of_le hfits, if_pos hfits]
        rfl
      · rw [palloc_of_lt (Nat.not_le.mp hfits), if_neg hfits]
        rfl

/-- **An item is read back** if the number of its attributes fits and their memory is granted. -/
theorem reads_item {item : StatItem} (h : 2 * item.attributes.length < 2 ^ (8 * f.countBytes))
    (hrequest : f.fixedBytes + 2 * item.attributes.length ≤ MaxAllocSize) :
    Reads f.readItem f.itemBytes item := by
  intro rest
  have hcount : (BitVec.ofNat (8 * f.countBytes) item.attributes.length).toNat =
      item.attributes.length := Nat.mod_eq_of_lt (by omega)
  have hmsb : (BitVec.ofNat (8 * f.countBytes) item.attributes.length).msb = false := by
    rwa [BitVec.msb_eq_false_iff_two_mul_lt, hcount]
  have hattributes := reads_list (l := item.attributes)
    (fun a _ => reads_word ReadError.undefined 2 a) rest
  have hgranted : palloc (f.itemRequest (BitVec.ofNat (8 * f.countBytes)
      item.attributes.length).toInt) = .ok () := by
    refine palloc_of_le ?_
    rw [BitVec.toInt_eq_toNat_of_msb hmsb, hcount, itemRequest]
    simp only [MaxAllocSize] at hrequest ⊢
    omega
  simp only [readItem, itemBytes, append_assoc, reads_word _ _ _ _, bind, Except.bind, hmsb, hcount,
    hgranted, Except.mapError]
  rw [if_neg Bool.false_ne_true]
  simp only [hattributes, pure, Except.pure]

/-- The memory for the items and for their bytes can be requested. -/
def Allocatable (s : StatList) : Prop :=
  f.structSize s.items.length ≤ MaxAllocSize ∧ VARHDRSZ + f.sizeOfList s ≤ MaxAllocSize

/-- **Statistics are read back**, if the reader's bound admits them. -/
theorem deserialize_serialize {s : StatList} (hmagic : s.magic = f.magic) (htype : s.type = f.type)
    (hne : s.items ≠ []) (hmem : f.Allocatable s)
    (hcount : ∀ item ∈ s.items, 2 * item.attributes.length < 2 ^ (8 * f.countBytes) ∧
      f.fixedBytes + 2 * item.attributes.length ≤ MaxAllocSize)
    (hsize : f.minimumSize s.items.length ≤ f.sizeOfList s) :
    ∃ data, f.serialize s = .ok data ∧ f.deserialize data = .ok (s, []) := by
  refine ⟨_, f.serialize_eq hmem.2, ?_⟩
  have hnitems : (BitVec.ofNat 32 s.items.length).toNat = s.items.length :=
    Nat.mod_eq_of_lt s.length_lt
  have hzero : BitVec.ofNat 32 s.items.length ≠ 0 := fun h => by
    rw [h] at hnitems
    exact hne (length_eq_zero_iff.mp hnitems.symm)
  have hitems := reads_list (fun item h => f.reads_item (hcount item h).1 (hcount item h).2) []
  rw [append_nil] at hitems
  rw [deserialize, hmagic, htype, readHeader_headerBytes, if_neg hzero, hnitems, if_neg (by
    simp only [length_flatMap, length_itemBytes]
    exact Nat.not_lt.mpr hsize), if_pos hmem.1]
  simp only [bind, Except.bind, hitems, s.length_lt, dif_pos, pure, Except.pure, ← hmagic, ← htype]

end Format

/-! ### The two formats -/

/-- Dependencies. The reader's bound is `SizeOfItem(ndeps)`, computed with an unsigned `1 + ndeps`
of 32 bits. In memory there is a pointer for each dependency. -/
def dependenciesFormat : Format where
  magic := 0xB4549A2C#32
  type := 1#32
  countBytes := 2
  minimumSize ndeps := 8 + 2 * ((1 + ndeps) % 2 ^ 32)
  slotBytes := 8
  fixedBytes := 10

/-- Ndistinct coefficients. In memory there is an `MVNDistinctItem` for each. -/
def ndistinctFormat : Format where
  magic := 0xA352BFA4#32
  type := 1#32
  countBytes := 4
  minimumSize nitems := 12 + nitems * 16
  slotBytes := 24
  fixedBytes := 0

def statext_dependencies_serialize := dependenciesFormat.serialize

def statext_dependencies_deserialize := dependenciesFormat.deserialize

def statext_ndistinct_serialize := ndistinctFormat.serialize

def statext_ndistinct_deserialize := ndistinctFormat.deserialize

/-- Every item of a list has at least two attributes and not more than the maximum. -/
def StatList.Bounded (s : StatList) : Prop :=
  s.items ≠ [] ∧
    ∀ item ∈ s.items, 2 ≤ item.attributes.length ∧ item.attributes.length ≤ STATS_MAX_DIMENSIONS

/-- Items with two attributes are the smallest ones. -/
theorem StatList.Bounded.minSize_le {s : StatList} (h : s.Bounded) (f : Format) :
    f.MinSizeOfItems s.items.length ≤ f.sizeOfList s := by
  have hsum := card_nsmul_le_sum (s.items.map fun item => f.SizeOfItem item.attributes.length)
    (f.SizeOfItem 2) (fun size hsize => by
      obtain ⟨item, hitem, rfl⟩ := mem_map.mp hsize
      have := (h.2 item hitem).1
      simp only [Format.SizeOfItem]
      omega)
  rw [length_map, Nat.nsmul_eq_mul] at hsum
  rw [Format.MinSizeOfItems, Format.sizeOfList]
  omega

/-- **Stored statistics decode to what was stored**: dependencies and ndistinct coefficients pass
every check of their readers, come back as they were and leave no byte over. The statistics are such
that `palloc` grants the memory for their bytes and, as when they were built, for their items. -/
theorem statistics_roundTrip (s : StatList) (hs : s.Bounded) :
    (s.magic = dependenciesFormat.magic → s.type = dependenciesFormat.type →
      dependenciesFormat.Allocatable s → ∃ data, statext_dependencies_serialize s = .ok data ∧
        statext_dependencies_deserialize data = .ok (s, [])) ∧
    (s.magic = ndistinctFormat.magic → s.type = ndistinctFormat.type →
      ndistinctFormat.Allocatable s → ∃ data, statext_ndistinct_serialize s = .ok data ∧
        statext_ndistinct_deserialize data = .ok (s, [])) := by
  constructor
  · intro hmagic htype hmem
    refine dependenciesFormat.deserialize_serialize hmagic htype hs.1 hmem (fun item hitem => ?_) ?_
    · have := (hs.2 item hitem).2
      simp only [STATS_MAX_DIMENSIONS, dependenciesFormat, MaxAllocSize] at *
      omega
    · refine le_trans ?_ (hs.minSize_le dependenciesFormat)
      have := Nat.mod_le (1 + s.items.length) (2 ^ 32)
      simp only [dependenciesFormat, Format.MinSizeOfItems, Format.SizeOfItem, SizeOfHeader]
      omega
  · intro hmagic htype hmem
    refine ndistinctFormat.deserialize_serialize hmagic htype hs.1 hmem (fun item hitem => ?_)
      (hs.minSize_le ndistinctFormat)
    have := (hs.2 item hitem).2
    simp only [STATS_MAX_DIMENSIONS, ndistinctFormat, MaxAllocSize] at *
    omega

/-- Two columns that determine a third one to the degree 1, and a column that determines another one
to the degree 1/2. -/
def twoDependencies : StatList :=
  ⟨dependenciesFormat.magic, 1#32, [⟨0x3FF0000000000000#64, [1#16, 2#16, 3#16]⟩,
    ⟨0x3FE0000000000000#64, [4#16, 2#16]⟩], by decide⟩

theorem statistics_roundTrip_two :
    twoDependencies.Bounded ∧ ∃ data, statext_dependencies_serialize twoDependencies = .ok data ∧
      statext_dependencies_deserialize data = .ok (twoDependencies, []) :=
  have hs : twoDependencies.Bounded := ⟨cons_ne_nil _ _, by decide⟩
  ⟨hs, (statistics_roundTrip twoDependencies hs).1 rfl rfl ⟨by decide, by decide⟩⟩

/-! ### The size check -/

/-- **The size check of the dependencies reader.** Behind a right header with `ndeps` dependencies
it admits data from `SizeOfItem(ndeps)` on, and then requests the memory for `ndeps` pointers. So
what comes to the loop is as long as `ndeps` minimal dependencies exactly if the length is not
between the two sizes or the request is refused, which it is from 134217726 dependencies on. -/
theorem dependencies_size_check (ndeps : BitVec 32) (hn : ndeps ≠ 0) (rest data : List UInt8)
    (hdata : data = Format.headerBytes dependenciesFormat.magic dependenciesFormat.type ndeps ++
      rest) :
    ((∃ r, dependenciesFormat.readHeader data = .ok r) →
        dependenciesFormat.MinSizeOfItems ndeps.toNat ≤ data.length) ↔
      134217726 ≤ ndeps.toNat ∨ ¬ (8 + 2 * ((1 + ndeps.toNat) % 2 ^ 32) ≤ data.length ∧
        data.length < dependenciesFormat.MinSizeOfItems ndeps.toNat) := by
  have hadmits : (∃ r, dependenciesFormat.readHeader data = .ok r) ↔
      8 + 2 * ((1 + ndeps.toNat) % 2 ^ 32) ≤ data.length ∧ ndeps.toNat < 134217726 := by
    have hgranted : dependenciesFormat.structSize ndeps.toNat ≤ MaxAllocSize ↔
        ndeps.toNat < 134217726 := by
      simp only [Format.structSize, dependenciesFormat, MaxAllocSize]
      omega
    change _ ↔ dependenciesFormat.minimumSize ndeps.toNat ≤ data.length ∧ _
    rw [hdata, Format.readHeader_headerBytes, if_neg hn, List.length_append,
      Format.length_headerBytes, ← hgranted]
    split
    · next hshort => simp [Nat.not_le.mpr hshort]
    · next hlong =>
        split
        · next hfits => simp [hfits, Nat.not_lt.mp hlong]
        · next hfits => simp [hfits]
  rw [hadmits]
  omega

/-- Two dependencies with zeros in all their places are long enough. -/
theorem dependencies_size_check_zeros :
    ∃ data r, dependenciesFormat.readHeader data = .ok r ∧
      dependenciesFormat.MinSizeOfItems 2 ≤ data.length :=
  ⟨_, (2, replicate 28 0), by decide,
    (dependencies_size_check 2#32 (by decide) (replicate 28 0) _ rfl).mpr (by decide)
      ⟨(2, replicate 28 0), by decide⟩⟩

/-- A header that announces one dependency, with nothing behind it, is admitted, and the loop then
reads behind the data. -/
theorem dependencies_size_check_short :
    ∃ data, data = Format.headerBytes dependenciesFormat.magic dependenciesFormat.type 1#32 ∧
      dependenciesFormat.readHeader data = .ok (1, []) ∧
      data.length < dependenciesFormat.MinSizeOfItems 1 ∧
      statext_dependencies_deserialize data = .error .undefined :=
  ⟨_, rfl, by decide, by decide, by decide⟩

end FdPostgres.Statistics
