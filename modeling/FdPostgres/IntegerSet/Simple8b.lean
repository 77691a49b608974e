import FdPostgres.Lib.PackedDeltas

/-!
# Simple-8b Codewords

The codewords of `integerset.c`: a selector in the four highest bits names a mode, and the
other sixty bits hold the differences of consecutive integers, as many and as wide as the mode
says. Two modes hold runs of consecutive integers and no bits. A difference that does not fit
into sixty bits is marked by `EMPTY_CODEWORD`.

* `simple8b_encode`, `simple8b_decode`, `simple8b_contains`: the functions of the source, on
  numbers below `2 ^ 64`.
* `simple8b_encode_codes`: a codeword decodes to the integers that were encoded, and contains
  exactly these.
-/

namespace FdPostgres

open PackedDeltas List

def SIMPLE8B_MAX_VALUES_PER_CODEWORD : ℕ := 240

/-- `struct simple8b_mode`. -/
structure Simple8bMode where
  bits_per_int : ℕ
  num_ints : ℕ
  deriving Repr, DecidableEq

/-- `simple8b_modes`, with the sentinel. -/
def simple8b_modes : List Simple8bMode :=
  [⟨0, 240⟩, ⟨0, 120⟩, ⟨1, 60⟩, ⟨2, 30⟩, ⟨3, 20⟩, ⟨4, 15⟩, ⟨5, 12⟩, ⟨6, 10⟩, ⟨7, 8⟩, ⟨8, 7⟩,
    ⟨10, 6⟩, ⟨12, 5⟩, ⟨15, 4⟩, ⟨20, 3⟩, ⟨30, 2⟩, ⟨60, 1⟩, ⟨0, 0⟩]

/-- A mode of the table. -/
def modeOf (selector : ℕ) : Simple8bMode :=
  simple8b_modes.getD selector ⟨0, 0⟩

def EMPTY_CODEWORD : ℕ := 0x0FFFFFFFFFFFFFFF

/-- Subtraction of `uint64`. -/
def sub64 (a b : ℕ) : ℕ := (a + 2 ^ 64 - b) % 2 ^ 64

/-! ### Encoding -/

/-- The loop that selects the mode; `i` deltas are accepted so far. -/
def selectLoop (ints : List ℕ) : ℕ → ℕ → ℕ → ℕ → ℕ → ℕ
  | 0, selector, _, _, _ => selector
  | fuel + 1, selector, i, diff, last_val =>
      if diff ≥ 1 <<< (modeOf selector).bits_per_int then
        if i ≥ (modeOf (selector + 1)).num_ints then selector + 1
        else selectLoop ints fuel (selector + 1) i diff last_val
      else if i + 1 ≥ (modeOf selector).num_ints then selector
      else
        selectLoop ints fuel selector (i + 1) (sub64 (sub64 (ints.getD (i + 1) 0) last_val) 1)
          (ints.getD (i + 1) 0)

/-- The loop that shifts the deltas from the last one to the second one into the codeword. -/
def encodeLoop (ints : List ℕ) (bits : ℕ) : ℕ → ℕ → ℕ
  | 0, codeword => codeword
  | i + 1, codeword =>
      encodeLoop ints bits i
        (((codeword ||| sub64 (sub64 (ints.getD (i + 1) 0) (ints.getD i 0)) 1) <<< bits) % 2 ^ 64)

/-- `simple8b_encode`: the codeword, and the number of integers that it holds. -/
def simple8b_encode (ints : List ℕ) (base : ℕ) : ℕ × ℕ :=
  let diff := sub64 (sub64 (ints.getD 0 0) base) 1
  let selector := selectLoop ints (17 + SIMPLE8B_MAX_VALUES_PER_CODEWORD) 0 0 diff (ints.getD 0 0)
  let nints := (modeOf selector).num_ints
  let bits := (modeOf selector).bits_per_int
  if nints = 0 then (EMPTY_CODEWORD, 0)
  else
    let codeword := if bits > 0 then encodeLoop ints bits (nints - 1) 0 ||| diff else 0
    (codeword ||| (selector <<< 60) % 2 ^ 64, nints)

/-! ### Decoding -/

/-- The loop of `simple8b_decode`. -/
def decodeLoop (bits : ℕ) : ℕ → ℕ → ℕ → List ℕ
  | 0, _, _ => []
  | n + 1, codeword, curr_value =>
      let curr_value := (curr_value + (1 + (codeword &&& (2 ^ bits - 1)))) % 2 ^ 64
      curr_value :: decodeLoop bits n (codeword >>> bits) curr_value

def simple8b_decode (codeword base : ℕ) : List ℕ :=
  let mode := modeOf (codeword >>> 60)
  if codeword = EMPTY_CODEWORD then []
  else decodeLoop mode.bits_per_int mode.num_ints codeword base

/-- The loop of `simple8b_contains`. -/
def containsLoop (bits key : ℕ) : ℕ → ℕ → ℕ → Bool
  | 0, _, _ => false
  | n + 1, codeword, curr_value =>
      let curr_value := (curr_value + (1 + (codeword &&& (2 ^ bits - 1)))) % 2 ^ 64
      if curr_value ≥ key then curr_value == key
      else containsLoop bits key n (codeword >>> bits) curr_value

def simple8b_contains (codeword key base : ℕ) : Bool :=
  let mode := modeOf (codeword >>> 60)
  if codeword = EMPTY_CODEWORD then false
  else if mode.bits_per_int = 0 then decide (sub64 key base ≤ mode.num_ints)
  else containsLoop mode.bits_per_int key mode.num_ints codeword base

/-! ### The table of modes -/

/-- What the table gives: the modes get wider and their number of integers gets smaller; every
mode fits into sixty bits. -/
theorem modeOf_facts : ∀ s < 16, 0 < (modeOf s).num_ints ∧ (modeOf s).num_ints ≤ 240 ∧
    (modeOf s).bits_per_int * (modeOf s).num_ints ≤ 60 ∧ ((modeOf s).bits_per_int = 0 → s < 2) ∧
    (s + 1 < 16 → (modeOf s).bits_per_int ≤ (modeOf (s + 1)).bits_per_int) := by
  decide

theorem modeOf_sentinel : (modeOf 16).num_ints = 0 := rfl

theorem sub64_of_le {a b : ℕ} (hle : b ≤ a) (ha : a < 2 ^ 64) : sub64 a b = a - b := by
  rw [sub64]
  omega

/-! ### The deltas of the integers -/

section Encode

variable {ints : List ℕ} {base i : ℕ}

/-- A number of an increasing sequence is behind the one before it. -/
theorem increasing_getD (h : Increasing base ints) (hi : i + 1 < ints.length) :
    ints.getD i 0 < ints.getD (i + 1) 0 := by
  have hpair := (pairwise_cons.mp h).2
  rw [getD_eq_getElem _ _ (by omega), getD_eq_getElem _ _ hi]
  exact pairwise_iff_getElem.mp hpair i (i + 1) (by omega) hi (by omega)

/-- The first number is behind the base. -/
theorem increasing_getD_zero (h : Increasing base ints) (hlen : 0 < ints.length) :
    base < ints.getD 0 0 := by
  rw [getD_eq_getElem _ _ hlen]
  exact (pairwise_cons.mp h).1 _ (getElem_mem hlen)

/-- The deltas by position. -/
theorem deltas_getD_succ (base : ℕ) (ints : List ℕ) (hi : i + 1 < ints.length) :
    (deltas base ints).getD (i + 1) 0 = ints.getD (i + 1) 0 - ints.getD i 0 - 1 := by
  induction ints generalizing base i with
  | nil => cases hi
  | cons x xs ih =>
    cases xs with
    | nil => exact nomatch hi
    | cons y ys =>
      cases i with
      | zero => rfl
      | succ i =>
        have hlen : i + 1 < (y :: ys).length := by simpa using hi
        exact ih x hlen

/-- The integers that are encoded: increasing numbers behind the base, and enough of them. -/
structure Encodable (base : ℕ) (ints : List ℕ) : Prop where
  increasing : Increasing base ints
  lt : ∀ x ∈ ints, x < 2 ^ 64
  length : 240 ≤ ints.length

variable (h : Encodable base ints)

include h

/-- The difference at a position, as the loops compute it. -/
theorem Encodable.diff_succ (hi : i + 1 < ints.length) :
    sub64 (sub64 (ints.getD (i + 1) 0) (ints.getD i 0)) 1 = (deltas base ints).getD (i + 1) 0 := by
  have hlt := increasing_getD h.increasing hi
  have hbound : ints.getD (i + 1) 0 < 2 ^ 64 := by
    rw [getD_eq_getElem _ _ hi]
    exact h.lt _ (getElem_mem hi)
  rw [deltas_getD_succ base ints hi, sub64_of_le (by omega) hbound,
    sub64_of_le (by omega) (by omega)]

/-- The first difference. -/
theorem Encodable.diff_zero :
    sub64 (sub64 (ints.getD 0 0) base) 1 = (deltas base ints).getD 0 0 := by
  have hlen : 0 < ints.length := by have := h.length; omega
  have hlt := increasing_getD_zero h.increasing hlen
  have hbound : ints.getD 0 0 < 2 ^ 64 := by
    rw [getD_eq_getElem _ _ hlen]
    exact h.lt _ (getElem_mem hlen)
  have hdelta : (deltas base ints).getD 0 0 = ints.getD 0 0 - base - 1 := by
    cases ints with
    | nil => cases hlen
    | cons x xs => rfl
  rw [hdelta, sub64_of_le (by omega) hbound, sub64_of_le (by omega) (by omega)]

/-- **The selected mode fits**: the deltas that it takes have its width. -/
theorem Encodable.selectLoop_spec (fuel selector i : ℕ) (hsel : selector < 16)
    (hi : i < (modeOf selector).num_ints)
    (hacc : ∀ j < i, (deltas base ints).getD j 0 < 2 ^ (modeOf selector).bits_per_int)
    (hfuel : (16 - selector) + (240 - i) ≤ fuel) :
    ∃ r ≤ 16, selectLoop ints fuel selector i ((deltas base ints).getD i 0) (ints.getD i 0) = r ∧
      ∀ j < (modeOf r).num_ints, (deltas base ints).getD j 0 < 2 ^ (modeOf r).bits_per_int := by
  induction fuel generalizing selector i with
  | zero =>
    omega
  | succ fuel ih =>
    obtain ⟨hpos, hle, -, -, hmono⟩ := modeOf_facts selector hsel
    rw [selectLoop, Nat.one_shiftLeft]
    by_cases hdiff : (deltas base ints).getD i 0 ≥ 2 ^ (modeOf selector).bits_per_int
    · rw [if_pos hdiff]
      by_cases hlast : selector + 1 < 16
      · have hwider : ∀ j < i,
            (deltas base ints).getD j 0 < 2 ^ (modeOf (selector + 1)).bits_per_int :=
          fun j hj => lt_of_lt_of_le (hacc j hj)
            (Nat.pow_le_pow_right (by decide) (hmono hlast))
        by_cases hfull : i ≥ (modeOf (selector + 1)).num_ints
        · rw [if_pos hfull]
          exact ⟨selector + 1, by omega, rfl, fun j hj => hwider j (by omega)⟩
        · rw [if_neg hfull]
          exact ih (selector + 1) i hlast (by omega) hwider (by omega)
      · obtain rfl : selector = 15 := by omega
        exact ⟨16, le_rfl, rfl, fun j hj => absurd hj (by rw [modeOf_sentinel]; omega)⟩
    · rw [if_neg hdiff]
      have hnext : ∀ j < i + 1,
          (deltas base ints).getD j 0 < 2 ^ (modeOf selector).bits_per_int := by
        intro j hj
        by_cases heq : j = i
        · rw [heq]
          omega
        · exact hacc j (by omega)
      by_cases hfull : i + 1 ≥ (modeOf selector).num_ints
      · rw [if_pos hfull]
        exact ⟨selector, by omega, rfl, fun j hj => hnext j (by omega)⟩
      · have hlen := h.length
        rw [if_neg hfull, h.diff_succ (by omega)]
        exact ih selector (i + 1) hsel (by omega) hnext (by omega)

/-- The loop packs the deltas behind the first one. -/
theorem Encodable.encodeLoop_eq {bits n : ℕ} (hbits : bits * n ≤ 60) (hn : n ≤ ints.length)
    (hfit : ∀ d ∈ (deltas base ints).take n, d < 2 ^ bits) (i : ℕ) (hi : i < n) :
    encodeLoop ints bits i (2 ^ bits * pack bits 0 (((deltas base ints).take n).drop (i + 1))) =
      2 ^ bits * pack bits 0 (((deltas base ints).take n).drop 1) := by
  generalize hds : (deltas base ints).take n = ds at hfit ⊢
  induction i with
  | zero => rfl
  | succ i ih =>
    have hlen : ds.length = n := by
      rw [← hds, length_take, length_deltas]
      omega
    have hget : (deltas base ints).getD (i + 1) 0 = ds[i + 1] := by
      subst hds
      rw [getD_eq_getElem _ _ (by rw [length_deltas]; omega), getElem_take]
    have hdrop : ds.drop (i + 1) = (deltas base ints).getD (i + 1) 0 :: ds.drop (i + 2) := by
      rw [drop_eq_getElem_cons (by omega), hget]
    have hd : (deltas base ints).getD (i + 1) 0 < 2 ^ bits := by
      rw [hget]
      exact hfit _ (getElem_mem _)
    have hpack : pack bits 0 (ds.drop (i + 1)) =
        (deltas base ints).getD (i + 1) 0 + 2 ^ bits * pack bits 0 (ds.drop (i + 2)) := by
      rw [hdrop, pack]
    have hbound : 2 ^ bits * pack bits 0 (ds.drop (i + 1)) < 2 ^ 64 := by
      have hlt : pack bits 0 (ds.drop (i + 1)) < 2 ^ (bits * (ds.drop (i + 1)).length) :=
        pack_lt (fun d hd => hfit d (mem_of_mem_drop hd))
      rw [length_drop, hlen] at hlt
      calc 2 ^ bits * pack bits 0 (ds.drop (i + 1))
          < 2 ^ bits * 2 ^ (bits * (n - (i + 1))) :=
            Nat.mul_lt_mul_of_pos_left hlt (Nat.two_pow_pos _)
        _ = 2 ^ (bits * (n - (i + 1) + 1)) := by
            rw [← pow_add, mul_add, mul_one, add_comm]
        _ ≤ 2 ^ 60 := by
            refine Nat.pow_le_pow_right (by decide) (le_trans ?_ hbits)
            exact Nat.mul_le_mul_left _ (by omega)
        _ < 2 ^ 64 := by decide
    rw [encodeLoop, h.diff_succ (by omega), shifted_or_field _ hd, ← hpack, Nat.shiftLeft_eq,
      mul_comm _ (2 ^ bits), Nat.mod_eq_of_lt hbound]
    exact ih (by omega)

/-- **The codeword**: the deltas of the encoded integers, packed under the selector; or the
mark that nothing was encoded. -/
theorem Encodable.encode_cases :
    simple8b_encode ints base = (EMPTY_CODEWORD, 0) ∨
    ∃ s < 16, (∀ d ∈ (deltas base ints).take (modeOf s).num_ints, d < 2 ^ (modeOf s).bits_per_int) ∧
      simple8b_encode ints base = (pack (modeOf s).bits_per_int
          (s <<< (60 - (modeOf s).bits_per_int * (modeOf s).num_ints))
          ((deltas base ints).take (modeOf s).num_ints), (modeOf s).num_ints) := by
  have hlen := h.length
  obtain ⟨s, hle, hsel, hfit⟩ := h.selectLoop_spec (17 + 240) 0 0 (by decide) (by decide)
    (fun j hj => absurd hj (Nat.not_lt_zero j)) (by decide)
  by_cases hlast : s = 16
  · left
    simp only [simple8b_encode, SIMPLE8B_MAX_VALUES_PER_CODEWORD, h.diff_zero, hsel, hlast,
      modeOf_sentinel, if_true]
  · right
    have hs : s < 16 := by omega
    obtain ⟨hpos, hle240, hbits, -⟩ := modeOf_facts s hs
    generalize hn : (modeOf s).num_ints = n at *
    generalize hb : (modeOf s).bits_per_int = bits at *
    have htake : ((deltas base ints).take n).length = n := by
      rw [length_take, length_deltas]
      omega
    have hfit' : ∀ d ∈ (deltas base ints).take n, d < 2 ^ bits := by
      intro d hd
      obtain ⟨j, hj, rfl⟩ := getElem_of_mem hd
      rw [htake] at hj
      have hget := hfit j hj
      rwa [getD_eq_getElem _ _ (by rw [length_deltas]; omega), ← getElem_take] at hget
    have hcode : (if bits > 0 then encodeLoop ints bits (n - 1) 0 |||
        (deltas base ints).getD 0 0 else 0) = pack bits 0 ((deltas base ints).take n) := by
      by_cases hzero : bits > 0
      · have hloop := h.encodeLoop_eq hbits (by omega) hfit' (n - 1) (by omega)
        have hend : ((deltas base ints).take n).drop (n - 1 + 1) = [] :=
          drop_eq_nil_of_le (by omega)
        have hcons : (deltas base ints).take n =
            (deltas base ints).getD 0 0 :: ((deltas base ints).take n).drop 1 := by
          rw [getD_eq_getElem _ _ (by rw [length_deltas]; omega)]
          have hdrop := drop_eq_getElem_cons (i := 0) (l := (deltas base ints).take n)
            (by omega)
          rwa [getElem_take] at hdrop
        rw [hend, pack, mul_zero] at hloop
        rw [if_pos hzero, hloop, shifted_or_field _ (hfit 0 (by omega))]
        conv_rhs => rw [hcons]
        rw [pack]
      · have hlt := pack_lt hfit'
        obtain rfl : bits = 0 := by omega
        rw [zero_mul] at hlt
        rw [if_neg hzero]
        omega
    refine ⟨s, hs, ?_, ?_⟩
    · rwa [hn, hb]
    · have hshift : (s <<< 60) % 2 ^ 64 = s <<< 60 := by
        omega
      have hor : pack bits 0 ((deltas base ints).take n) ||| s <<< 60 =
          pack bits (s <<< (60 - bits * ((deltas base ints).take n).length))
            ((deltas base ints).take n) :=
        pack_or_shiftLeft hfit' (by rw [htake]; exact hbits)
      rw [htake] at hor
      simp only [simple8b_encode, SIMPLE8B_MAX_VALUES_PER_CODEWORD, h.diff_zero, hsel, hn, hb,
        if_neg (ne_of_gt hpos), hcode, hshift, hor]

end Encode

/-! ### What a codeword holds -/

/-- The decoding loop recovers the numbers from their packed differences. -/
theorem decodeLoop_pack {w base : ℕ} (top : ℕ) {ds : List ℕ} (hfit : ∀ d ∈ ds, d < 2 ^ w)
    (hlt : ∀ x ∈ undelta base ds, x < 2 ^ 64) :
    decodeLoop w ds.length (pack w top ds) base = undelta base ds := by
  induction ds generalizing base with
  | nil => rfl
  | cons d ds ih =>
    have hd := hfit d mem_cons_self
    have hx : (base + (1 + d)) % 2 ^ 64 = base + 1 + d := by
      have := hlt (base + 1 + d) mem_cons_self
      rw [← add_assoc, Nat.mod_eq_of_lt this]
    rw [length_cons, decodeLoop, pack_and_mask top ds hd, pack_shiftRight top ds hd, hx,
      undelta, ih (fun d hd => hfit d (mem_cons_of_mem _ hd))
      (fun x hx => hlt x (mem_cons_of_mem _ hx))]

/-- The containment loop finds exactly the numbers with the packed differences. -/
theorem containsLoop_pack {w base : ℕ} (key top : ℕ) {ds : List ℕ} (hfit : ∀ d ∈ ds, d < 2 ^ w)
    (hlt : ∀ x ∈ undelta base ds, x < 2 ^ 64) :
    containsLoop w key ds.length (pack w top ds) base = true ↔ key ∈ undelta base ds := by
  induction ds generalizing base with
  | nil => simp [containsLoop, undelta]
  | cons d ds ih =>
    have hd := hfit d mem_cons_self
    have hx : (base + (1 + d)) % 2 ^ 64 = base + 1 + d := by
      have := hlt (base + 1 + d) mem_cons_self
      rw [← add_assoc, Nat.mod_eq_of_lt this]
    rw [length_cons, containsLoop, pack_and_mask top ds hd, pack_shiftRight top ds hd, hx,
      undelta, mem_cons]
    split_ifs with hge
    · rw [beq_iff_eq]
      constructor
      · intro heq
        exact .inl heq.symm
      · rintro (heq | hmem)
        · exact heq.symm
        · have := lt_of_mem_undelta hmem
          omega
    · rw [ih (fun d hd => hfit d (mem_cons_of_mem _ hd)) (fun x hx => hlt x (mem_cons_of_mem _ hx))]
      constructor
      · exact .inr
      · rintro (heq | hmem)
        · omega
        · exact hmem

/-- A codeword holds the numbers `vs` behind a base: it decodes to them, and it contains a key
behind the base exactly when it is one of them. -/
structure Codes (codeword base : ℕ) (vs : List ℕ) : Prop where
  decode : simple8b_decode codeword base = vs
  contains : ∀ key, base < key → key < 2 ^ 64 →
    (simple8b_contains codeword key base = true ↔ key ∈ vs)

/-- **A codeword holds the integers that were encoded.** -/
theorem simple8b_encode_codes {ints : List ℕ} {base : ℕ} (h : Encodable base ints) :
    Codes (simple8b_encode ints base).1 base (ints.take (simple8b_encode ints base).2) ∧
      (simple8b_encode ints base).2 ≤ 240 := by
  have hlen := h.length
  rcases h.encode_cases with hempty | ⟨s, hs, hfit, hcode⟩
  · rw [hempty]
    refine ⟨⟨?_, fun key _ _ => ?_⟩, by decide⟩
    · simp [simple8b_decode]
    · simp [simple8b_contains]
  · obtain ⟨hpos, hle240, hbits, hruns, -⟩ := modeOf_facts s hs
    generalize hds : (deltas base ints).take (modeOf s).num_ints = ds at hfit hcode
    have htake : ds.length = (modeOf s).num_ints := by
      rw [← hds, length_take, length_deltas]
      omega
    have hinc : Increasing base (ints.take (modeOf s).num_ints) :=
      h.increasing.sublist ((take_sublist _ _).cons_cons base)
    have hund : undelta base ds = ints.take (modeOf s).num_ints := by
      rw [← hds, ← deltas_take, undelta_deltas hinc]
    have hlt : ∀ x ∈ undelta base ds, x < 2 ^ 64 := by
      rw [hund]
      exact fun x hx => h.lt x (mem_of_mem_take hx)
    have hsel : pack (modeOf s).bits_per_int
        (s <<< (60 - (modeOf s).bits_per_int * (modeOf s).num_ints)) ds >>> 60 = s := by
      rw [← htake] at hbits ⊢
      exact pack_shiftRight_top hfit hbits
    have hne : pack (modeOf s).bits_per_int
        (s <<< (60 - (modeOf s).bits_per_int * (modeOf s).num_ints)) ds ≠ EMPTY_CODEWORD := by
      intro heq
      rw [heq] at hsel
      obtain rfl : s = 0 := hsel.symm
      have hlt' := pack_lt hfit
      rw [Nat.zero_shiftLeft] at heq
      rw [heq] at hlt'
      exact absurd hlt' (by rw [htake]; decide)
    rw [hcode]
    refine ⟨⟨?_, fun key hbase hkey => ?_⟩, hle240⟩
    · have hloop := decodeLoop_pack (s <<< (60 - (modeOf s).bits_per_int *
        (modeOf s).num_ints)) hfit hlt
      rw [htake, hund] at hloop
      simp only [simple8b_decode, hsel, if_neg hne, hloop]
    · simp only [simple8b_contains, hsel, if_neg hne]
      by_cases hzero : (modeOf s).bits_per_int = 0
      · have hrep : ds = List.replicate (modeOf s).num_ints 0 := by
          refine eq_replicate_iff.mpr ⟨htake, fun d hd => ?_⟩
          have := hfit d hd
          rw [hzero] at this
          omega
        rw [if_pos hzero, decide_eq_true_eq, ← hund, hrep, mem_undelta_replicate,
          sub64_of_le (hbase.le) hkey]
        omega
      · have hloop := containsLoop_pack key (s <<< (60 -
          (modeOf s).bits_per_int * (modeOf s).num_ints)) hfit hlt
        rw [htake, hund] at hloop
        rw [if_neg hzero, hloop]

end FdPostgres
