import FdPostgres.Pglz.Decompress
import FdPostgres.Pglz.History

/-!
# Compression

`pglz_compress` goes through its input, writes a tag where it finds a match and a literal where it
does not, and gives up as soon as the output gets too long.

* `Output`: the output buffer with the pending control byte, and `pglz_out_ctrl`,
  `pglz_out_literal`, `pglz_out_tag`.
* `pglz_compress`: with the contents of the history arrays and of the output buffer before the call.
* `compressLoop_spec`: the loop ends, writes what it may, and on success the output is the encoding
  of items that tell the input.
* `compress_roundTrip`: **what was compressed is decompressed to the same bytes**, whole or as a
  prefix.
-/

namespace FdPostgres.Pglz

open Function BackReferences List Nat

/-! ### Strategies -/

def INT_MAX : ℕ := 2147483647

structure PGLZ_Strategy where
  min_input_size : ℤ
  max_input_size : ℤ
  min_comp_rate : ℤ
  first_success_by : ℤ
  match_size_good : ℤ
  match_size_drop : ℤ

def PGLZ_strategy_default : PGLZ_Strategy := ⟨32, INT_MAX, 25, 1024, 128, 10⟩

def PGLZ_strategy_always : PGLZ_Strategy := ⟨0, INT_MAX, 0, INT_MAX, 128, 6⟩

variable (strategy : PGLZ_Strategy)

/-- The match length that is good enough, limited to what is supported. -/
def goodMatch : ℕ :=
  if strategy.match_size_good > PGLZ_MAX_MATCH then PGLZ_MAX_MATCH
  else if strategy.match_size_good < 17 then 17
  else strategy.match_size_good.toNat

/-- By how much that length drops with each entry, in percent. -/
def goodDrop : ℕ :=
  if strategy.match_size_drop < 0 then 0
  else if strategy.match_size_drop > 100 then 100
  else strategy.match_size_drop.toNat

/-- The compression rate that is wanted, in percent. -/
def needRate : ℕ :=
  if strategy.min_comp_rate < 0 then 0
  else if strategy.min_comp_rate > 99 then 99
  else strategy.min_comp_rate.toNat

variable (slen : ℕ)

/-- `result_max`: the size that the strategy allows for the result. -/
def resultMax : ℕ :=
  if slen > INT_MAX / 100 then slen / 100 * (100 - needRate strategy)
  else slen * (100 - needRate strategy) / 100

/-- The number of history lists. -/
def hashSize : ℕ :=
  if slen < 128 then 512
  else if slen < 256 then 1024
  else if slen < 512 then 2048
  else if slen < 1024 then 4096
  else 8192

/-! ### Output -/

/-- The output buffer, the place behind what was written, the place of the current control byte
(`none` is the dummy before the first one), its bits so far and the bit of the next item. -/
structure Output where
  dest : ℕ → UInt8
  bp : ℕ
  ctrlp : Option ℕ
  ctrlb : UInt8
  ctrl : UInt8

namespace Output

/-- `*ctrlp = ctrlb`: the buffer with the control byte in its place. -/
def writeCtrl (o : Output) : ℕ → UInt8 :=
  match o.ctrlp with
  | none => o.dest
  | some p => update o.dest p o.ctrlb

/-- `*bp++ = b`. -/
def put (o : Output) (b : UInt8) : Output :=
  { o with dest := update o.dest o.bp b, bp := o.bp + 1 }

end Output

variable (o : Output)

/-- `pglz_out_ctrl`: a new control byte, if the current one is used up. -/
def pglz_out_ctrl : Output :=
  if o.ctrl &&& 0xff = 0 then
    { dest := o.writeCtrl, bp := o.bp + 1, ctrlp := some o.bp, ctrlb := 0, ctrl := 1 }
  else o

def pglz_out_literal (byte : UInt8) : Output :=
  let o := pglz_out_ctrl o
  let o := o.put byte
  { o with ctrl := o.ctrl <<< 1 }

def pglz_out_tag (len off : ℕ) : Output :=
  let o := pglz_out_ctrl o
  let o := { o with ctrlb := o.ctrlb ||| o.ctrl, ctrl := o.ctrl <<< 1 }
  (tagBytes len off).foldl Output.put o

/-! ### The compressor -/

/-- History entries for the `len` places from `dp` on. -/
def histAddLoop (source : List UInt8) (mask : ℕ) : History → ℕ → ℕ → History
  | h, _, 0 => h
  | h, dp, len + 1 => histAddLoop source mask (pglz_hist_add source mask h dp) (dp + 1) len

/-- The main loop, from the place `dp` on: whether the input was compressed to its end, and the
output. Each round takes at least one byte of the input. -/
def compressLoop (source : List UInt8) (strategy : PGLZ_Strategy) :
    ℕ → ℕ → History → Output → Bool → Option (Bool × Output)
  | 0, _, _, _, _ => none
  | fuel + 1, dp, h, o, found_match =>
      let mask := hashSize source.length - 1
      if dp < source.length then
        if o.bp ≥ resultMax strategy source.length then some (false, o)
        else if !found_match ∧ (o.bp : ℤ) ≥ strategy.first_success_by then some (false, o)
        else
          match pglz_find_match h.chains source dp (goodMatch strategy) (goodDrop strategy)
            mask with
          | none => none
          | some (some (match_len, match_off)) =>
              compressLoop source strategy fuel (dp + match_len)
                (histAddLoop source mask h dp match_len) (pglz_out_tag o match_len match_off) true
          | some none =>
              compressLoop source strategy fuel (dp + 1) (pglz_hist_add source mask h dp)
                (pglz_out_literal o (source.getD dp 0)) found_match
      else some (true, o)

/-- `pglz_compress`: the size of the result, with `none` for -1, and the output buffer. It is given
the output buffer and the history arrays as they are before the call. The outer `none` would be a
call that does not return. -/
def pglz_compress (source : List UInt8) (dest : ℕ → UInt8) (strategy : Option PGLZ_Strategy)
    (hist : HashChains) : Option (Option ℕ × (ℕ → UInt8)) :=
  let strategy := strategy.getD PGLZ_strategy_default
  let slen := source.length
  if strategy.match_size_good ≤ 0 ∨ (slen : ℤ) < strategy.min_input_size ∨
      (slen : ℤ) > strategy.max_input_size then some (none, dest)
  else
    let cleared := { hist with start := fun k => if k < hashSize slen then 0 else hist.start k }
    let h : History := { chains := cleared, hist_next := 1, hist_recycle := false }
    let o : Output := { dest := dest, bp := 0, ctrlp := none, ctrlb := 0, ctrl := 0 }
    match compressLoop source strategy (slen + 1) 0 h o false with
    | none => none
    | some (false, o) => some (none, o.dest)
    | some (true, o) =>
        if o.bp ≥ resultMax strategy slen then some (none, o.writeCtrl)
        else some (some o.bp, o.writeCtrl)

/-- The strategy never allows a result longer than the input. -/
theorem resultMax_le : resultMax strategy slen ≤ slen := by
  have hle : 100 - needRate strategy ≤ 100 := Nat.sub_le ..
  rw [resultMax]
  split
  · calc slen / 100 * (100 - needRate strategy)
        ≤ slen / 100 * 100 := mul_le_mul_left _ hle
      _ ≤ slen := Nat.div_mul_le_self ..
  · exact Nat.div_le_of_le_mul (by rw [mul_comm]; exact Nat.mul_le_mul_right _ hle)

/-! ### What was written -/

namespace Output

/-- The bytes written so far, with the control byte in its place. -/
def bytes : List UInt8 := (range o.bp).map o.writeCtrl

@[simp] theorem bytes_length : o.bytes.length = o.bp := by simp [bytes]

variable {o : Output} {p : ℕ} {items : List (Item UInt8)}

/-- One byte more. -/
theorem bytes_put (hctrlp : o.ctrlp = some p) (hp : p < o.bp) (b : UInt8) :
    (o.put b).bytes = o.bytes ++ [b] := by
  have hkeep : ∀ i ∈ range o.bp, (o.put b).writeCtrl i = o.writeCtrl i := by
    intro i hi
    have hne : i ≠ o.bp := Nat.ne_of_lt (mem_range.mp hi)
    simp only [writeCtrl, put, hctrlp, update_apply]
    rw [if_neg hne]
  have hnew : (o.put b).writeCtrl o.bp = b := by
    simp only [writeCtrl, put, hctrlp]
    rw [update_of_ne (ne_of_gt hp), update_self]
  simp only [bytes]
  rw [show (o.put b).bp = o.bp + 1 from rfl, range_succ, map_append,
    map_congr_left hkeep, map_singleton, hnew]

/-- Several bytes more. -/
theorem bytes_puts (hctrlp : o.ctrlp = some p) (hp : p < o.bp) (l : List UInt8) :
    (l.foldl put o).bytes = o.bytes ++ l := by
  induction l generalizing o with
  | nil => simp
  | cons b l ih =>
    have hstep : (o.put b).ctrlp = some p := hctrlp
    rw [foldl_cons, ih hstep (lt_succ_of_lt hp), bytes_put hctrlp hp, append_assoc]
    rfl

/-- Bytes that are written do not touch the control byte. -/
theorem puts_ctrl (o : Output) (l : List UInt8) :
    (l.foldl put o).ctrlp = o.ctrlp ∧ (l.foldl put o).ctrlb = o.ctrlb ∧
      (l.foldl put o).ctrl = o.ctrl := by
  induction l generalizing o with
  | nil => exact ⟨rfl, rfl, rfl⟩
  | cons b l ih => exact ih (o.put b)

/-- The control byte with other bits. -/
theorem bytes_ctrlb (hctrlp : o.ctrlp = some p) (c ctrl : UInt8) :
    ({ o with ctrlb := c, ctrl := ctrl } : Output).bytes = o.bytes.set p c := by
  refine ext_getElem? fun i => ?_
  simp only [bytes, writeCtrl, hctrlp, getElem?_set, getElem?_map]
  by_cases hi : i < o.bp
  · rw [getElem?_range hi]
    by_cases hpi : p = i
    · subst hpi
      simp [hi]
    · simp [hpi, update_of_ne (Ne.symm hpi)]
  · rw [getElem?_eq_none (by simpa using hi)]
    by_cases hpi : p = i
    · subst hpi
      simp [hi]
    · simp [hpi]

/-- The output is the encoding of full groups and a further one that is not closed. -/
structure Open (o : Output) (full : List (List (Item UInt8))) (cur : List (Item UInt8)) :
    Prop where
  full_len : ∀ group ∈ full, group.length = 8
  cur_len : cur.length ≤ 8
  ctrlp : o.ctrlp = some (encode full).length
  ctrlb : o.ctrlb = UInt8.ofNat (ctrlBits cur)
  ctrl : o.ctrl = UInt8.ofNat (2 ^ cur.length)
  bytes : o.bytes = encode full ++ encodeGroup cur

/-- The output is the encoding of items: of none before the first control byte. -/
def Emitted (o : Output) (items : List (Item UInt8)) : Prop :=
  (items = [] ∧ o.bp = 0 ∧ o.ctrlp = none ∧ o.ctrl = 0) ∨
    ∃ full cur, items = full.flatten ++ cur ∧ cur ≠ [] ∧ o.Open full cur

variable {o : Output} {full : List (List (Item UInt8))} {cur : List (Item UInt8)}

/-- The control byte is before the end of the output. -/
theorem Open.ctrlp_lt (h : o.Open full cur) : (encode full).length < o.bp := by
  have hlen := congrArg length h.bytes
  rw [bytes_length, length_append, encodeGroup, length_cons] at hlen
  omega

/-- **A control byte is there for the next item.** -/
theorem Emitted.out_ctrl (h : o.Emitted items) :
    ∃ full cur, items = full.flatten ++ cur ∧ cur.length < 8 ∧ (pglz_out_ctrl o).Open full cur := by
  have hbits : ∀ n < 8, UInt8.ofNat (2 ^ n) &&& 0xff ≠ 0 := by decide
  -- a new control byte after the output so far
  have hnew : ∀ full, (∀ group ∈ full, group.length = 8) → o.ctrl = 0 → o.bytes = encode full →
      (pglz_out_ctrl o).Open full [] := by
    intro full hfull hctrl hbytes
    have hstep : pglz_out_ctrl o =
        { dest := o.writeCtrl, bp := o.bp + 1, ctrlp := some o.bp, ctrlb := 0, ctrl := 1 } := by
      rw [pglz_out_ctrl, if_pos (by rw [hctrl]; rfl)]
    have hlen : o.bp = (encode full).length := by rw [← bytes_length, hbytes]
    rw [hstep]
    refine ⟨hfull, zero_le _, by rw [hlen], rfl, rfl, ?_⟩
    rw [← hbytes]
    simp only [bytes]
    rw [range_succ, map_append]
    congr 1
    · refine map_congr_left fun i hi => ?_
      exact update_of_ne (Nat.ne_of_lt (mem_range.mp hi)) ..
    · exact congrArg (fun b => [b]) (update_self ..)
  rcases h with ⟨rfl, hbp, -, hctrl⟩ | ⟨full, cur, rfl, -, hopen⟩
  · refine ⟨[], [], rfl, by decide, hnew [] (by simp) hctrl ?_⟩
    simp [bytes, hbp, encode]
  · by_cases hroom : cur.length < 8
    · refine ⟨full, cur, rfl, hroom, ?_⟩
      rw [pglz_out_ctrl, if_neg (by rw [hopen.ctrl]; exact hbits _ hroom)]
      exact hopen
    · have height : cur.length = 8 := Nat.le_antisymm hopen.cur_len (Nat.le_of_not_lt hroom)
      refine ⟨full ++ [cur], [], by simp, by decide, hnew _ ?_ ?_ ?_⟩
      · exact forall_mem_append.mpr ⟨hopen.full_len, forall_mem_singleton.mpr height⟩
      · rw [hopen.ctrl, height]
        rfl
      · rw [hopen.bytes]
        simp [encode]

/-- The control bit of the next item. -/
theorem ctrl_shift {n : ℕ} (h : n < 8) : UInt8.ofNat (2 ^ n) <<< 1 = UInt8.ofNat (2 ^ (n + 1)) := by
  have hbits : ∀ n < 8, UInt8.ofNat (2 ^ n) <<< 1 = UInt8.ofNat (2 ^ (n + 1)) := by decide
  exact hbits n h

/-- **A literal** is one item more. -/
theorem Open.literal (h : o.Open full cur) (hroom : cur.length < 8) (b : UInt8) :
    ({ o.put b with ctrl := o.ctrl <<< 1 } : Output).Open full (cur ++ [.literal b]) where
  full_len := h.full_len
  cur_len := by rwa [length_append, length_singleton]
  ctrlp := h.ctrlp
  ctrlb := by
    rw [ctrlBits_concat, ctrlBit, mul_zero, add_zero]
    exact h.ctrlb
  ctrl := by
    rw [length_append, length_singleton, ← ctrl_shift hroom, ← h.ctrl]
  bytes := by
    have hput : ({ o.put b with ctrl := o.ctrl <<< 1 } : Output).bytes = (o.put b).bytes := rfl
    rw [hput, bytes_put h.ctrlp h.ctrlp_lt, h.bytes]
    simp [encodeGroup, ctrlBits_concat, ctrlBit, itemBytes]

/-- **A tag** is one item more. -/
theorem Open.tag (h : o.Open full cur) (hroom : cur.length < 8) (len off : ℕ) :
    ((tagBytes len off).foldl put
      { o with ctrlb := o.ctrlb ||| o.ctrl, ctrl := o.ctrl <<< 1 }).Open full
        (cur ++ [.copy len off]) := by
  have hor : o.ctrlb ||| o.ctrl = UInt8.ofNat (ctrlBits (cur ++ [.copy len off])) := by
    rw [h.ctrlb, h.ctrl, ← UInt8.ofNat_or, Nat.or_comm, ctrlBits_concat]
    have := Nat.two_pow_add_eq_or_of_lt (ctrlBits_lt cur) 1
    rw [mul_one] at this
    rw [← this, ctrlBit, mul_one, add_comm]
  obtain ⟨hctrlp, hctrlb, hctrl⟩ := puts_ctrl
    { o with ctrlb := o.ctrlb ||| o.ctrl, ctrl := o.ctrl <<< 1 } (tagBytes len off)
  have hlen : (cur ++ [Item.copy len off]).length ≤ 8 := by
    rwa [length_append]
  refine ⟨h.full_len, hlen, hctrlp.trans h.ctrlp, hctrlb.trans hor, ?_, ?_⟩
  · rw [hctrl, length_append, length_singleton, ← ctrl_shift hroom, ← h.ctrl]
  · rw [bytes_puts (o := { o with ctrlb := o.ctrlb ||| o.ctrl, ctrl := o.ctrl <<< 1 }) h.ctrlp
      h.ctrlp_lt, bytes_ctrlb h.ctrlp, h.bytes, hor, encodeGroup, encodeGroup]
    simp [itemBytes]

/-- A literal after the items so far. -/
theorem Emitted.literal (h : o.Emitted items) (b : UInt8) :
    (pglz_out_literal o b).Emitted (items ++ [.literal b]) := by
  obtain ⟨full, cur, rfl, hroom, hopen⟩ := h.out_ctrl
  have hone := hopen.literal hroom b
  exact .inr ⟨full, cur ++ [Item.literal b], append_assoc .., by simp, hone⟩

/-- A tag after the items so far. -/
theorem Emitted.tag (h : o.Emitted items) (len off : ℕ) :
    (pglz_out_tag o len off).Emitted (items ++ [.copy len off]) := by
  obtain ⟨full, cur, rfl, hroom, hopen⟩ := h.out_ctrl
  have hone := hopen.tag hroom len off
  exact .inr ⟨full, cur ++ [Item.copy len off], append_assoc .., by simp, hone⟩

/-- Full groups and a further one. -/
theorem grouped_concat (hfull : ∀ group ∈ full, group.length = 8) (hcur : cur ≠ [])
    (hlen : cur.length ≤ 8) : Grouped (full ++ [cur]) := by
  have hpos : 1 ≤ cur.length := length_pos_iff.mpr hcur
  induction full with
  | nil => exact ⟨hpos, hlen⟩
  | cons group full ih =>
    have hrest := ih fun g hg => hfull g (mem_cons_of_mem _ hg)
    have hgroup := hfull group mem_cons_self
    cases full with
    | nil | cons next full => exact ⟨hgroup, hrest⟩

/-- **The output is a sequence of groups** of the items. -/
theorem Emitted.groups (h : o.Emitted items) :
    ∃ groups, o.bytes = encode groups ∧ Grouped groups ∧ groups.flatten = items := by
  rcases h with ⟨rfl, hbp, -, -⟩ | ⟨full, cur, rfl, hcur, hopen⟩
  · exact ⟨[], by simp [bytes, hbp, encode], trivial, rfl⟩
  · refine ⟨full ++ [cur], ?_, grouped_concat hopen.full_len hcur hopen.cur_len, by simp⟩
    rw [hopen.bytes]
    simp [encode]

/-! ### What was not written -/

/-- Nothing was written from the end of the output on. -/
def Untouched (o : Output) (dest : ℕ → UInt8) : Prop :=
  (∀ p, o.ctrlp = some p → p < o.bp) ∧ ∀ i, o.bp ≤ i → o.dest i = dest i

variable {dest : ℕ → UInt8} (h : o.Untouched dest)

include h

/-- Nor does the control byte touch it. -/
theorem Untouched.writeCtrl : ∀ i, o.bp ≤ i → o.writeCtrl i = dest i := by
  intro i hi
  rw [Output.writeCtrl]
  cases hctrlp : o.ctrlp with
  | none => exact h.2 i hi
  | some p =>
    have := h.1 p hctrlp
    exact (update_of_ne (by omega) ..).trans (h.2 i hi)

/-- A control byte takes at most one byte. -/
theorem Untouched.out_ctrl :
    (pglz_out_ctrl o).Untouched dest ∧ (pglz_out_ctrl o).bp ≤ o.bp + 1 := by
  rw [pglz_out_ctrl]
  split
  · refine ⟨⟨?_, fun i hi => h.writeCtrl i (le_of_succ_le hi)⟩, le_refl _⟩
    intro p hp
    exact Option.some.inj hp ▸ lt_succ_self _
  · exact ⟨h, le_succ _⟩

/-- A byte. -/
theorem Untouched.put (b : UInt8) : (o.put b).Untouched dest := by
  refine ⟨fun p hp => lt_succ_of_lt (h.1 p hp), fun i hi => ?_⟩
  have hlt : o.bp < i := hi
  exact (update_of_ne (ne_of_gt hlt) ..).trans (h.2 i (hlt.le))

/-- Several bytes. -/
theorem Untouched.puts (l : List UInt8) :
    (l.foldl Output.put o).Untouched dest ∧ (l.foldl Output.put o).bp = o.bp + l.length := by
  induction l generalizing o with
  | nil => exact ⟨h, rfl⟩
  | cons b l ih =>
    obtain ⟨hrest, hbp⟩ := ih (h.put b)
    refine ⟨hrest, ?_⟩
    rw [foldl_cons, hbp, length_cons, show (o.put b).bp = o.bp + 1 from rfl]
    omega

/-- A literal takes at most two bytes. -/
theorem Untouched.literal (b : UInt8) :
    (pglz_out_literal o b).Untouched dest ∧ (pglz_out_literal o b).bp ≤ o.bp + 4 := by
  obtain ⟨hctrl, hbp⟩ := h.out_ctrl
  refine ⟨hctrl.put b, ?_⟩
  rw [show (pglz_out_literal o b).bp = (pglz_out_ctrl o).bp + 1 from rfl]
  omega

/-- **A tag takes at most four bytes.** -/
theorem Untouched.tag (len off : ℕ) :
    (pglz_out_tag o len off).Untouched dest ∧ (pglz_out_tag o len off).bp ≤ o.bp + 4 := by
  obtain ⟨hctrl, hbp⟩ := h.out_ctrl
  have hbits : ({ pglz_out_ctrl o with
      ctrlb := (pglz_out_ctrl o).ctrlb ||| (pglz_out_ctrl o).ctrl
      ctrl := (pglz_out_ctrl o).ctrl <<< 1 } : Output).Untouched dest := hctrl
  obtain ⟨hall, hend⟩ := hbits.puts (tagBytes len off)
  refine ⟨hall, ?_⟩
  have hthree : (tagBytes len off).length ≤ 3 := by
    rw [tagBytes]
    split <;> simp
  rw [pglz_out_tag]
  dsimp only at hend ⊢
  omega

end Output

/-! ### The main loop -/

/-- History entries for several places. -/
theorem History.Inv.addLoop {h : History} {hashsz dp : ℕ} (inv : h.Inv hashsz dp)
    (source : List UInt8) {mask : ℕ} (hmask : mask < hashsz) (len : ℕ) :
    (histAddLoop source mask h dp len).Inv hashsz (dp + len) := by
  induction len generalizing h dp with
  | zero => exact inv
  | succ len ih =>
    rw [show dp + (len + 1) = dp + 1 + len by omega]
    exact ih (inv.add source hmask)

/-- The state of the compressor before the place `dp`: the history is sound, and the output is the
encoding of items that tell the input up to there. -/
structure CompressInv (source : List UInt8) (strategy : PGLZ_Strategy) (dest : ℕ → UInt8) (dp : ℕ)
    (h : History) (o : Output) : Prop where
  dp_le : dp ≤ source.length
  history : h.Inv (hashSize source.length) dp
  untouched : o.Untouched dest
  bp_le : o.bp ≤ resultMax strategy source.length + 3
  told : ∃ items, o.Emitted items ∧ (∀ item ∈ items, Codable item) ∧ Tells 0 source 0 items dp

variable {source : List UInt8} {strategy : PGLZ_Strategy} {dest : ℕ → UInt8} {dp : ℕ} {h : History}
  {o : Output}

/-- There are history lists. -/
theorem hashSize_pos : hashSize slen - 1 < hashSize slen := by
  have hpos : 0 < hashSize slen := by
    rw [hashSize]
    repeat' split
    all_goals decide
  omega

/-- One item more in the output and in what it tells. -/
theorem tells_concat {items : List (Item UInt8)} (hcode : ∀ item ∈ items, Codable item)
    (htells : Tells 0 source 0 items dp) {item : Item UInt8} (hitem : Codable item)
    (hfits : item.Fits 0 source dp) :
    (∀ i ∈ items ++ [item], Codable i) ∧ Tells 0 source 0 (items ++ [item]) (dp + item.size) := by
  exact ⟨forall_mem_append.mpr ⟨hcode, forall_mem_singleton.mpr hitem⟩, htells.concat hfits⟩

/-- A round with a match. -/
theorem CompressInv.match (inv : CompressInv source strategy dest dp h o)
    (hbp : o.bp < resultMax strategy source.length) {len off : ℕ} (hlow : 3 ≤ len)
    (hhigh : len ≤ PGLZ_MAX_MATCH) (hoff : off < 0x0fff) (hrep : Repeats 0 source dp off len) :
    CompressInv source strategy dest (dp + len)
      (histAddLoop source (hashSize source.length - 1) h dp len) (pglz_out_tag o len off) := by
  obtain ⟨items, hemit, hcode, htells⟩ := inv.told
  obtain ⟨hunt, hfour⟩ := inv.untouched.tag len off
  have hitem : Codable (.copy len off) := ⟨hlow, hhigh, by omega⟩
  obtain ⟨hcodes, htold⟩ := tells_concat hcode htells hitem hrep
  exact ⟨hrep.end_le, inv.history.addLoop source (hashSize_pos _) len, hunt, by omega,
    items ++ [.copy len off], hemit.tag len off, hcodes, htold⟩

/-- A round without a match. -/
theorem CompressInv.literal (inv : CompressInv source strategy dest dp h o)
    (hbp : o.bp < resultMax strategy source.length) (hdp : dp < source.length) :
    CompressInv source strategy dest (dp + 1)
      (pglz_hist_add source (hashSize source.length - 1) h dp)
      (pglz_out_literal o (source.getD dp 0)) := by
  obtain ⟨items, hemit, hcode, htells⟩ := inv.told
  obtain ⟨hunt, hfour⟩ := inv.untouched.literal (source.getD dp 0)
  have hitem : Codable (.literal (source.getD dp 0)) := trivial
  obtain ⟨hcodes, htold⟩ := tells_concat hcode htells hitem ⟨hdp, rfl⟩
  exact ⟨hdp, inv.history.add source (hashSize_pos _), hunt, by omega,
    items ++ [.literal (source.getD dp 0)], hemit.literal _, hcodes, htold⟩

/-- **The main loop** ends, keeps within its bounds, and on success has told the whole input. -/
theorem compressLoop_spec (inv : CompressInv source strategy dest dp h o) (fuel : ℕ)
    (hfuel : source.length < dp + fuel) (found_match : Bool) :
    ∃ ok o' dp' h', compressLoop source strategy fuel dp h o found_match = some (ok, o') ∧
      CompressInv source strategy dest dp' h' o' ∧ (ok = true → dp' = source.length) := by
  induction fuel generalizing dp h o found_match with
  | zero =>
    have := inv.dp_le
    omega
  | succ fuel ih =>
    rw [compressLoop]
    by_cases hdp : dp < source.length
    · rw [if_pos hdp]
      by_cases hbp : o.bp ≥ resultMax strategy source.length
      · rw [if_pos hbp]
        exact ⟨false, o, dp, h, rfl, inv, by simp⟩
      rw [if_neg hbp]
      by_cases hearly : !found_match ∧ (o.bp : ℤ) ≥ strategy.first_success_by
      · rw [if_pos hearly]
        exact ⟨false, o, dp, h, rfl, inv, by simp⟩
      rw [if_neg hearly]
      obtain ⟨result, hfind, hmatch⟩ := find_match_spec inv.history (hashSize_pos _) source
        inv.dp_le (goodMatch strategy) (goodDrop strategy)
      rw [hfind]
      cases result with
      | none => exact ih (inv.literal (Nat.lt_of_not_le hbp) hdp) (by omega) found_match
      | some found =>
        obtain ⟨len, off⟩ := found
        obtain ⟨hlow, hhigh, hoff, hrep⟩ := hmatch len off rfl
        exact ih (inv.match (Nat.lt_of_not_le hbp) hlow hhigh hoff hrep) (by omega) true
    · rw [if_neg hdp]
      have := inv.dp_le
      exact ⟨true, o, dp, h, rfl, inv, fun _ => by omega⟩

/-! ### Compressing and decompressing -/

/-- The state at the start: the lists are cleared, whatever the arrays held. -/
theorem CompressInv.start (source : List UInt8) (strategy : PGLZ_Strategy) (dest : ℕ → UInt8)
    (hist : HashChains) :
    CompressInv source strategy dest 0
      { chains := { hist with
          start := fun k => if k < hashSize source.length then 0 else hist.start k }
        hist_next := 1, hist_recycle := false }
      { dest := dest, bp := 0, ctrlp := none, ctrlb := 0, ctrl := 0 } where
  dp_le := zero_le _
  history := History.Inv.start fun _ hk => if_pos hk
  untouched := ⟨by simp, fun _ _ => rfl⟩
  bp_le := zero_le _
  told := ⟨[], .inl ⟨rfl, rfl, rfl, rfl⟩, by simp, rfl⟩

/-- **What was compressed is decompressed to the same bytes.** For all contents of the history
arrays and of the output buffer before the call, `pglz_compress` returns and writes at most four
bytes more than the input has. If it succeeds, the result is shorter than the input and than the
strategy allows, decompression gives the input, and the first bytes of the result are enough for a
prefix of it. -/
theorem compress_roundTrip (source : List UInt8) (dest : ℕ → UInt8)
    (strategy : Option PGLZ_Strategy) (hist : HashChains) :
    ∃ result dest', pglz_compress source dest strategy hist = some (result, dest') ∧
      (∀ i, source.length + 4 ≤ i → dest' i = dest i) ∧ ∀ n, result = some n → n < source.length ∧
        n < resultMax (strategy.getD PGLZ_strategy_default) source.length ∧
        pglz_decompress ((range n).map dest') source.length true = some source ∧
        ∀ k ≤ source.length,
          pglz_decompress ((range (pglz_maximum_compressed_size k n)).map dest') k false =
            some (source.take k) := by
  rw [pglz_compress]
  dsimp only
  generalize strategy.getD PGLZ_strategy_default = strategy
  split
  · exact ⟨none, dest, rfl, fun _ _ => rfl, by simp⟩
  obtain ⟨ok, o, dp, h, hloop, inv, hdone⟩ := compressLoop_spec
    (CompressInv.start source strategy dest hist) (source.length + 1) (by omega) false
  have hbp := inv.bp_le
  have hmax := resultMax_le strategy source.length
  rw [hloop]
  cases ok with
  | false => exact ⟨none, o.dest, rfl, fun i hi => inv.untouched.2 i (by omega), by simp⟩
  | true =>
    have hwritten : ∀ i, source.length + 4 ≤ i → o.writeCtrl i = dest i :=
      fun i hi => inv.untouched.writeCtrl i (by omega)
    dsimp only
    split
    · exact ⟨none, o.writeCtrl, rfl, hwritten, by simp⟩
    · refine ⟨some o.bp, o.writeCtrl, rfl, hwritten, ?_⟩
      rintro n ⟨⟩
      obtain ⟨items, hemit, hcode, htells⟩ := inv.told
      obtain ⟨groups, hbytes, hgrp, rfl⟩ := hemit.groups
      rw [hdone rfl] at htells
      have hcodes : ∀ group ∈ groups, ∀ item ∈ group, Codable item :=
        fun group hg item hi => hcode item (mem_flatten.mpr ⟨group, hg, hi⟩)
      refine ⟨by omega, by omega, ?_, fun k hk => ?_⟩
      · have hwhole := decompress_whole htells hcodes hgrp
        rwa [← hbytes] at hwhole
      · have hpart := decompress_prefix htells hcodes hgrp hk
        have hsize : pglz_maximum_compressed_size k o.bp ≤ o.bp := min_le_right ..
        rw [← hbytes, o.bytes_length, Output.bytes, ← map_take, take_range,
          min_eq_left hsize] at hpart
        exact hpart

example : (pglz_compress (replicate 20 7) (fun _ => 0) (some PGLZ_strategy_always)
    ⟨fun _ => 9, fun _ => none, fun _ => none, fun _ => 0, fun _ => 5⟩).map Prod.fst =
      some (some 5) := by decide +kernel

end FdPostgres.Pglz
