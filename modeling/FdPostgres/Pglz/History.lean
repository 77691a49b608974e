import FdPostgres.Lib.BackReferences
import FdPostgres.Lib.HashChains

/-!
# The History of the Compressor

The compressor looks for earlier places in its input that go on like the current one. It keeps
the last 4096 places in hash chains, by the next four characters, over static arrays that still
hold what an earlier call left there. An entry is recycled after 4096 further places.

* `pglz_hist_idx`, `pglz_hist_add`: the chain of a place, and a new entry.
* `pglz_find_match`: the search along a chain. `none` would be a search that does not end or that
  follows a null link.
* `History.Inv.add`: **the chains stay sound**, whatever the arrays held before.
* `find_match_spec`: **the search ends, and what it finds is a repetition** that fits into a tag.
-/

namespace FdPostgres.Pglz

open BackReferences Nat

def PGLZ_HISTORY_SIZE : ℕ := 4096

def PGLZ_MAX_MATCH : ℕ := 273

/-- `INVALID_ENTRY`: no entry. -/
def INVALID_ENTRY : ℕ := 0

/-- The static arrays `hist_start` and `hist_entries`, with entries for pointers to them and places
in the input for `pos`, and the variables `hist_next` and `hist_recycle`. -/
structure History where
  chains : HashChains
  hist_next : ℕ
  hist_recycle : Bool

/-- A `char`, which is signed, as an `int`. -/
def charInt (c : UInt8) : BitVec 32 := c.toBitVec.signExtend 32

variable (source : List UInt8)

/-- `pglz_hist_idx`: the chain of the place `s`, by the next four characters if there are as
many. -/
def pglz_hist_idx (s mask : ℕ) : ℕ :=
  ((if source.length - s < 4 then charInt (source.getD s 0)
    else charInt (source.getD s 0) <<< 6 ^^^ charInt (source.getD (s + 1) 0) <<< 4 ^^^
      charInt (source.getD (s + 2) 0) <<< 2 ^^^ charInt (source.getD (s + 3) 0)) &&&
    BitVec.ofNat 32 mask).toNat

/-- `pglz_hist_add`: an entry for the place `s`, taken out of its old chain first if it is
recycled. -/
def pglz_hist_add (mask : ℕ) (h : History) (s : ℕ) : History :=
  let hindex := pglz_hist_idx source s mask
  let chains := if h.hist_recycle then h.chains.unlink h.hist_next else h.chains
  let chains := chains.push h.hist_next hindex s
  if h.hist_next + 1 ≥ PGLZ_HISTORY_SIZE + 1 then
    { chains := chains, hist_next := 1, hist_recycle := true }
  else { chains := chains, hist_next := h.hist_next + 1, hist_recycle := h.hist_recycle }

/-- The comparison loop: how far the places `ip` and `hp` go on alike, at most `room`. -/
def matchLoop (source : List UInt8) : ℕ → ℕ → ℕ → ℕ
  | 0, _, _ => 0
  | room + 1, ip, hp =>
      if ip < source.length ∧ source.getD ip 0 = source.getD hp 0 then
        matchLoop source room (ip + 1) (hp + 1) + 1
      else 0

/-- The length of the match at one entry. A long match so far is compared as a whole first. -/
def matchLength (input hp len : ℕ) : ℕ :=
  if len ≥ 16 then
    if ∀ i < len, source.getD (input + i) 0 = source.getD (hp + i) 0 then
      len + matchLoop source (PGLZ_MAX_MATCH - len) (input + len) (hp + len)
    else 0
  else matchLoop source PGLZ_MAX_MATCH input hp

/-- The search loop of `pglz_find_match`, from an entry on, with the best match so far. -/
def findLoop (c : HashChains) (source : List UInt8) (input good_drop : ℕ) :
    ℕ → ℕ → ℕ → ℕ → ℕ → Option (ℕ × ℕ)
  | 0, _, _, _, _ => none
  | fuel + 1, hent, len, off, good_match =>
      if hent = INVALID_ENTRY then some (len, off)
      else
        let hp := c.stamp hent
        let thisoff := input - hp
        if thisoff ≥ 0x0fff then some (len, off)
        else
          let thislen := matchLength source input hp len
          let best := if thislen > len then (thislen, thisoff) else (len, off)
          match c.next hent with
          | none => none
          | some hent =>
              if hent ≠ INVALID_ENTRY then
                if best.1 ≥ good_match then some best
                else findLoop c source input good_drop fuel hent best.1 best.2
                  (good_match - good_match * good_drop / 100)
              else findLoop c source input good_drop fuel hent best.1 best.2 good_match

/-- `pglz_find_match`: the length and the offset of a match, if one of at least three bytes is
found. -/
def pglz_find_match (c : HashChains) (source : List UInt8) (input good_match good_drop mask : ℕ) :
    Option (Option (ℕ × ℕ)) :=
  (findLoop c source input good_drop (PGLZ_HISTORY_SIZE + 1)
    (c.start (pglz_hist_idx source input mask)) 0 0 good_match).map fun best =>
      if best.1 > 2 then some best else none

/-! ### The chains -/

/-- The chain of a place is one of the chains in use. -/
theorem hist_idx_le (s mask : ℕ) : pglz_hist_idx source s mask ≤ mask := by
  exact le_trans and_le_right (mod_le ..)

namespace History

/-- The entries that were filled in this call. -/
def Filled (h : History) (e : ℕ) : Prop :=
  1 ≤ e ∧ (e < h.hist_next ∨ h.hist_recycle = true ∧ e ≤ PGLZ_HISTORY_SIZE)

/-- The history before the place `s` is added: the entries filled in this call are linked, and are
of earlier places. -/
structure Inv (h : History) (hashsz s : ℕ) : Prop where
  next_pos : 1 ≤ h.hist_next
  next_le : h.hist_next ≤ PGLZ_HISTORY_SIZE
  linked : h.chains.Linked h.Filled hashsz
  earlier : ∀ e, h.Filled e → h.chains.stamp e < s

variable {h : History} {hashsz s : ℕ}

/-- The chains before the new entry is put in: that entry is in none of them. -/
theorem Inv.unlinked (inv : h.Inv hashsz s) :
    (if h.hist_recycle then h.chains.unlink h.hist_next else h.chains).Linked
      (fun e => h.Filled e ∧ e ≠ h.hist_next) hashsz := by
  cases hr : h.hist_recycle with
  | true =>
    exact inv.linked.unlink ⟨inv.next_pos, .inr ⟨hr, inv.next_le⟩⟩
  | false =>
    refine inv.linked.congr fun e => ⟨fun he => ⟨he, ?_⟩, fun he => he.1⟩
    rintro rfl
    rcases he.2 with hlt | ⟨hrec, -⟩
    · exact lt_irrefl _ hlt
    · rw [hr] at hrec
      cases hrec

/-- The entries that are filled after one more. -/
theorem filled_add (inv : h.Inv hashsz s) (source : List UInt8) (mask e : ℕ) :
    (h.Filled e ∧ e ≠ h.hist_next ∨ e = h.hist_next) ↔
      (pglz_hist_add source mask h s).Filled e := by
  have hpos := inv.next_pos
  have hle := inv.next_le
  rw [pglz_hist_add]
  by_cases hwrap : h.hist_next + 1 ≥ PGLZ_HISTORY_SIZE + 1
  · rw [if_pos hwrap]
    simp only [Filled]
    cases h.hist_recycle <;> simp <;> omega
  · rw [if_neg hwrap]
    simp only [Filled]
    cases h.hist_recycle <;> simp <;> omega

/-- The chains after one more entry. -/
theorem chains_add (h : History) (source : List UInt8) (mask s : ℕ) :
    (pglz_hist_add source mask h s).chains =
      (if h.hist_recycle then h.chains.unlink h.hist_next else h.chains).push h.hist_next
        (pglz_hist_idx source s mask) s := by
  rw [pglz_hist_add]
  split <;> rfl

/-- **An entry for the next place keeps the history sound.** -/
theorem Inv.add (inv : h.Inv hashsz s) (source : List UInt8) {mask : ℕ} (hmask : mask < hashsz) :
    (pglz_hist_add source mask h s).Inv hashsz (s + 1) := by
  have hpos := inv.next_pos
  have hstamp : (if h.hist_recycle then h.chains.unlink h.hist_next else h.chains).stamp =
      h.chains.stamp := by
    split
    · exact HashChains.unlink_stamp ..
    · rfl
  refine ⟨?_, ?_, ?_, ?_⟩
  · rw [pglz_hist_add]
    split
    · exact le_refl _
    · exact Nat.le_add_left ..
  · have hle := inv.next_le
    rw [pglz_hist_add]
    by_cases hwrap : h.hist_next + 1 ≥ PGLZ_HISTORY_SIZE + 1
    · rw [if_pos hwrap]
      exact le_trans hpos hle
    · rw [if_neg hwrap]
      dsimp only
      omega
  · rw [chains_add]
    refine (inv.unlinked.push (fun he => he.2 rfl) (by omega)
      (lt_of_le_of_lt (hist_idx_le source s mask) hmask) ?_).congr
      (filled_add inv source mask)
    intro e he
    rw [hstamp]
    exact inv.earlier e he.1
  · intro e he
    rw [chains_add]
    rcases (filled_add inv source mask e).mpr he with ⟨hold, hne⟩ | rfl
    · simp only [HashChains.push, Function.update_of_ne hne, hstamp]
      exact Nat.lt_succ_of_lt (inv.earlier e hold)
    · simp only [HashChains.push, Function.update_self]
      exact Nat.lt_succ_self s

/-- The empty history: the chains in use are cleared, the entries are as an earlier call left
them. -/
theorem Inv.start {c : HashChains} (hempty : ∀ k < hashsz, c.start k = 0) :
    (History.mk c 1 false).Inv hashsz 0 := by
  have hnone : ∀ e, ¬ (History.mk c 1 false).Filled e := by
    rintro e ⟨hpos, hlt | ⟨hrec, -⟩⟩
    · exact absurd hlt (not_lt.mpr hpos)
    · cases hrec
  exact ⟨le_refl 1, by simp [PGLZ_HISTORY_SIZE],
    (HashChains.Linked.empty hempty).congr fun e => (iff_of_false id (hnone e)),
    fun e he => absurd he (hnone e)⟩

end History

/-! ### The search -/

/-- The comparison loop finds equal bytes within the input. -/
theorem matchLoop_spec (room ip hp : ℕ) (hip : ip ≤ source.length) :
    matchLoop source room ip hp ≤ room ∧ ip + matchLoop source room ip hp ≤ source.length ∧
      ∀ i < matchLoop source room ip hp, source.getD (ip + i) 0 = source.getD (hp + i) 0 := by
  induction room generalizing ip hp with
  | zero => exact ⟨le_refl _, hip, fun i hi => absurd hi (not_lt_zero i)⟩
  | succ room ih =>
    rw [matchLoop]
    by_cases hmore : ip < source.length ∧ source.getD ip 0 = source.getD hp 0
    · rw [if_pos hmore]
      obtain ⟨hroom, hend, hsame⟩ := ih (ip + 1) (hp + 1) hmore.1
      refine ⟨by omega, by omega, ?_⟩
      intro i hi
      cases i with
      | zero => exact hmore.2
      | succ i =>
        have := hsame i (by omega)
        rwa [show ip + 1 + i = ip + (i + 1) by omega,
          show hp + 1 + i = hp + (i + 1) by omega] at this
    · rw [if_neg hmore]
      exact ⟨zero_le _, hip, fun i hi => absurd hi (not_lt_zero i)⟩

/-- The best match of a search so far: nothing, or a repetition that a tag can hold. -/
def Found (input len off : ℕ) : Prop :=
  len ≤ PGLZ_MAX_MATCH ∧ input + len ≤ source.length ∧
    (len = 0 ∨ off < 0x0fff ∧ Repeats 0 source input off len)

variable {source : List UInt8}

/-- The match at an entry is a repetition of what stands there. -/
theorem matchLength_spec {input hp len off : ℕ} (hbest : Found source input len off)
    (hhp : hp < input) (hfar : input - hp < 0x0fff) :
    Found source input (matchLength source input hp len) (input - hp) := by
  obtain ⟨hmax, hend, -⟩ := hbest
  -- a run of equal bytes from `hp` on is a repetition at the distance of `hp`
  have hrun : ∀ n, n ≤ PGLZ_MAX_MATCH → input + n ≤ source.length →
      (∀ i < n, source.getD (input + i) 0 = source.getD (hp + i) 0) →
      Found source input n (input - hp) := by
    intro n hn hnend hsame
    refine ⟨hn, hnend, .inr ⟨hfar, by omega, by omega, hnend, ?_⟩⟩
    intro i hi
    rw [hsame i hi]
    congr 1
    omega
  rw [matchLength]
  by_cases hlong : len ≥ 16
  · rw [if_pos hlong]
    by_cases hequal : ∀ i < len, source.getD (input + i) 0 = source.getD (hp + i) 0
    · rw [if_pos hequal]
      obtain ⟨hroom, hstop, hsame⟩ :=
        matchLoop_spec source (PGLZ_MAX_MATCH - len) (input + len) (hp + len) hend
      refine hrun _ (by omega) (by omega) ?_
      intro i hi
      by_cases hil : i < len
      · exact hequal i hil
      · have := hsame (i - len) (by omega)
        rwa [show input + len + (i - len) = input + i by omega,
          show hp + len + (i - len) = hp + i by omega] at this
    · rw [if_neg hequal]
      exact ⟨zero_le _, by omega, .inl rfl⟩
  · rw [if_neg hlong]
    obtain ⟨hroom, hstop, hsame⟩ := matchLoop_spec source PGLZ_MAX_MATCH input hp (by omega)
    exact hrun _ hroom hstop hsame

/-- The better one of two matches. -/
theorem Found.better {input len off len' off' : ℕ} (h : Found source input len off)
    (h' : Found source input len' off') :
    Found source input (if len' > len then (len', off') else (len, off)).1
      (if len' > len then (len', off') else (len, off)).2 := by
  split
  · exact h'
  · exact h

/-- The search loop ends: the entries of a chain are of ever earlier places, and it stops at one
that is too far back. -/
theorem findLoop_spec {h : History} {hashsz input : ℕ} (inv : h.Inv hashsz input)
    (source : List UInt8) (good_drop good_match fuel : ℕ) {hent len off : ℕ} (hpos : 0 < fuel)
    (hent_ok : hent ≠ 0 → h.Filled hent ∧ 0x0fff < input - h.chains.stamp hent + fuel)
    (hbest : Found source input len off) :
    ∃ best, findLoop h.chains source input good_drop fuel hent len off good_match = some best ∧
      Found source input best.1 best.2 := by
  induction fuel generalizing hent len off good_match with
  | zero => omega
  | succ fuel ih =>
    rw [findLoop]
    by_cases hnone : hent = INVALID_ENTRY
    · rw [if_pos hnone]
      exact ⟨_, rfl, hbest⟩
    rw [if_neg hnone]
    obtain ⟨hfill, hfuel⟩ := hent_ok hnone
    by_cases hfar : input - h.chains.stamp hent ≥ 0x0fff
    · rw [if_pos hfar]
      exact ⟨_, rfl, hbest⟩
    rw [if_neg hfar]
    have hearl := inv.earlier hent hfill
    have hnew := hbest.better (matchLength_spec hbest hearl (Nat.lt_of_not_le hfar))
    obtain ⟨x, hx, hold⟩ := inv.linked.older hent hfill
    -- the next entry, if there is one, is further back
    have hnext : x ≠ 0 → h.Filled x ∧ 0x0fff < input - h.chains.stamp x + fuel := by
      intro hx0
      obtain ⟨hfx, -, -, hstamp⟩ := hold hx0
      exact ⟨hfx, by omega⟩
    rw [hx]
    dsimp only
    generalize (if matchLength source input (h.chains.stamp hent) len > len then
      (matchLength source input (h.chains.stamp hent) len, input - h.chains.stamp hent)
      else (len, off)) = best at hnew ⊢
    by_cases hend : x ≠ INVALID_ENTRY
    · rw [if_pos hend]
      by_cases hgood : best.1 ≥ good_match
      · rw [if_pos hgood]
        exact ⟨_, rfl, hnew⟩
      · rw [if_neg hgood]
        exact ih _ (by omega) hnext hnew
    · rw [if_neg hend]
      exact ih _ (by omega) hnext hnew

/-- **The search ends, and what it finds is a repetition** of at least three bytes, with a length
and an offset that fit into a tag. -/
theorem find_match_spec {h : History} {hashsz input mask : ℕ} (inv : h.Inv hashsz input)
    (hmask : mask < hashsz) (source : List UInt8) (hinput : input ≤ source.length)
    (good_match good_drop : ℕ) :
    ∃ result, pglz_find_match h.chains source input good_match good_drop mask = some result ∧
      ∀ len off, result = some (len, off) → 3 ≤ len ∧ len ≤ PGLZ_MAX_MATCH ∧ off < 0x0fff ∧
        Repeats 0 source input off len := by
  have hidx := lt_of_le_of_lt (hist_idx_le source input mask) hmask
  have hnoth : Found source input 0 0 := ⟨zero_le _, hinput, .inl rfl⟩
  obtain ⟨best, hloop, hmax, -, hrep⟩ := findLoop_spec inv source good_drop good_match
    (PGLZ_HISTORY_SIZE + 1) (succ_pos _)
    (fun h0 => ⟨(inv.linked.head _ hidx h0).1, by simp only [PGLZ_HISTORY_SIZE]; omega⟩) hnoth
  refine ⟨if best.1 > 2 then some best else none, by rw [pglz_find_match, hloop]; rfl, ?_⟩
  intro len off hres
  by_cases hlong : best.1 > 2
  · rw [if_pos hlong] at hres
    obtain rfl : best = (len, off) := Option.some.inj hres
    rcases hrep with hzero | ⟨hoff, hrep⟩
    · omega
    · exact ⟨hlong, hmax, hoff, hrep⟩
  · rw [if_neg hlong] at hres
    cases hres

end FdPostgres.Pglz
