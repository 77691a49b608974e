import FdPostgres.Fsm.Map

/-!
# Contents of the Free Space Map

What the map says, by logical addresses: each page has slots, and a page that does not exist has
zeroes. Pages are stored in depth-first order, so that different pages have different places, a page
comes before those below it, and its children are in order.

* `FSMAddress.Valid`, `Below`: the pages of the tree, and those below a page.
* `physical_inj`, `below_iff_physical`, `physical_child`: the depth-first order.
* `slotValue`: the contents.
* `FsmMap.Sound`: no page is torn, and nothing is recorded past the last block.
* `setAndSearch_spec`: setting a slot sets that slot and no other.
-/

namespace FdPostgres

open Nat

/-! ### Addresses -/

theorem rootLevel_eq : FSM_ROOT_LEVEL = 2 := rfl

variable (addr : FSMAddress)

/-- The pages of the tree. -/
def FSMAddress.Valid : Prop :=
  addr.level ≤ FSM_ROOT_LEVEL ∧ addr.logpageno < SlotsPerFSMPage ^ (FSM_ROOT_LEVEL - addr.level)

/-- A page is at or below another one. -/
def Below (addr a : FSMAddress) : Prop :=
  a.level ≤ addr.level ∧ a.logpageno / SlotsPerFSMPage ^ (addr.level - a.level) = addr.logpageno

/-- The first heap block below a page. -/
def firstBlock : ℕ := addr.logpageno * SlotsPerFSMPage ^ (addr.level + 1)

/-- The number of pages of a tree with its root on a level. -/
def subtreePages : ℕ → ℕ
  | 0 => 1
  | level + 1 => 1 + SlotsPerFSMPage * subtreePages level

section Addresses

variable {addr a : FSMAddress} {slot slot' : ℕ}

theorem root_valid : FSM_ROOT_ADDRESS.Valid := ⟨le_rfl, by decide⟩

/-- A page is one of the three levels. -/
theorem FSMAddress.Valid.cases (h : addr.Valid) :
    (∃ p < 4069 ^ 2, addr = ⟨0, p⟩) ∨ (∃ p < 4069, addr = ⟨1, p⟩) ∨ addr = ⟨2, 0⟩ := by
  obtain ⟨level, p⟩ := addr
  obtain ⟨hlevel, hp⟩ := h
  rw [rootLevel_eq] at hlevel hp
  rw [slots_eq] at hp
  match level, hlevel with
  | 0, _ => exact .inl ⟨p, hp, rfl⟩
  | 1, _ => exact .inr (.inl ⟨p, by simpa using hp, rfl⟩)
  | 2, _ =>
    have hzero : p = 0 := by simpa using hp
    exact .inr (.inr (by rw [hzero]))

/-- Where a bottom page is stored. -/
theorem physical_bottom {p : ℕ} (h : p < 4069 ^ 2) :
    fsm_logical_to_physical ⟨0, p⟩ = p + p / 4069 + 2 := by
  have hdepth : FSM_TREE_DEPTH = 3 := rfl
  simp only [fsm_logical_to_physical, hdepth, firstLeafBelow, countPages, slots_eq]
  omega

/-- Where a page of the middle level is stored. -/
theorem physical_middle {p : ℕ} (h : p < 4069) : fsm_logical_to_physical ⟨1, p⟩ = p * 4070 + 1 := by
  have hdepth : FSM_TREE_DEPTH = 3 := rfl
  simp only [fsm_logical_to_physical, hdepth, firstLeafBelow, countPages, slots_eq]
  omega

theorem physical_root : fsm_logical_to_physical ⟨2, 0⟩ = 0 := rfl

/-- **Different pages are stored in different places.** -/
theorem physical_inj (h : addr.Valid) (h' : a.Valid)
    (heq : fsm_logical_to_physical addr = fsm_logical_to_physical a) : addr = a := by
  rcases h.cases with ⟨p, hp, rfl⟩ | ⟨p, hp, rfl⟩ | rfl <;>
    rcases h'.cases with ⟨q, hq, rfl⟩ | ⟨q, hq, rfl⟩ | rfl <;>
    simp only [physical_bottom, physical_middle, physical_root, *] at heq ⊢ <;>
    simp only [FSMAddress.mk.injEq, true_and] <;> omega

/-- The children of a page are pages. -/
theorem FSMAddress.Valid.child (h : addr.Valid) (hlevel : 0 < addr.level)
    (hslot : slot < SlotsPerFSMPage) : (fsm_get_child addr slot).Valid := by
  rw [slots_eq] at hslot
  rcases h.cases with ⟨p, hp, rfl⟩ | ⟨p, hp, rfl⟩ | rfl <;>
    simp only [FSMAddress.Valid, fsm_get_child, slots_eq, rootLevel_eq] at hlevel ⊢ <;> omega

/-- The parent of a page is a page. -/
theorem FSMAddress.Valid.parent (h : addr.Valid) (hlevel : addr.level ≠ FSM_ROOT_LEVEL) :
    (fsm_get_parent addr).1.Valid ∧ (fsm_get_parent addr).2 < SlotsPerFSMPage ∧
      0 < (fsm_get_parent addr).1.level ∧
      fsm_get_child (fsm_get_parent addr).1 (fsm_get_parent addr).2 = addr := by
  have hchild : fsm_get_child (fsm_get_parent addr).1 (fsm_get_parent addr).2 = addr := by
    simp [fsm_get_child, fsm_get_parent, Nat.div_add_mod']
  refine ⟨?_, Nat.mod_lt _ (by decide), Nat.succ_pos _, hchild⟩
  rcases h.cases with ⟨p, hp, rfl⟩ | ⟨p, hp, rfl⟩ | rfl <;>
    simp only [FSMAddress.Valid, fsm_get_parent, slots_eq, rootLevel_eq] at hlevel ⊢ <;> omega

/-- The bottom page of a heap block is a page. -/
theorem location_valid {heapblk : ℕ} (h : heapblk ≤ InvalidBlockNumber) :
    (fsm_get_location heapblk).1.Valid ∧ (fsm_get_location heapblk).2 < SlotsPerFSMPage := by
  refine ⟨⟨zero_le _, ?_⟩, mod_lt _ (by decide)⟩
  simp only [fsm_get_location, slots_eq, rootLevel_eq, FSM_BOTTOM_LEVEL, InvalidBlockNumber] at *
  omega

/-- The pages below the slots of a page follow it in the order of the slots. -/
theorem physical_child (h : addr.Valid) (hlevel : 0 < addr.level) (hslot : slot < SlotsPerFSMPage) :
    fsm_logical_to_physical (fsm_get_child addr slot) =
      fsm_logical_to_physical addr + 1 + slot * subtreePages (addr.level - 1) := by
  rw [slots_eq] at hslot
  rcases h.cases with ⟨p, hp, rfl⟩ | ⟨p, hp, rfl⟩ | rfl
  · exact absurd hlevel (lt_irrefl 0)
  · simp only [fsm_get_child, slots_eq, Nat.sub_self, subtreePages]
    rw [physical_bottom (by omega), physical_middle hp]
    omega
  · simp only [fsm_get_child, slots_eq, Nat.reduceSub, subtreePages]
    rw [physical_middle (by omega), physical_root]
    omega

/-- The children of a page are stored in order. -/
theorem physical_child_lt (h : addr.Valid) (hlevel : 0 < addr.level)
    (hslot' : slot' < SlotsPerFSMPage) (hlt : slot < slot') :
    fsm_logical_to_physical (fsm_get_child addr slot) <
      fsm_logical_to_physical (fsm_get_child addr slot') := by
  have hpos : 0 < subtreePages (addr.level - 1) := by cases addr.level - 1 <;> simp [subtreePages]
  rw [physical_child h hlevel hslot', physical_child h hlevel (hlt.trans hslot')]
  exact Nat.add_lt_add_left (Nat.mul_lt_mul_of_pos_right hlt hpos) _

/-- **The pages below a page are stored in one piece**, from that page on. -/
theorem below_iff_physical (h : addr.Valid) (h' : a.Valid) :
    Below addr a ↔ fsm_logical_to_physical addr ≤ fsm_logical_to_physical a ∧
      fsm_logical_to_physical a < fsm_logical_to_physical addr + subtreePages addr.level := by
  rw [Below]
  rcases h.cases with ⟨p, hp, rfl⟩ | ⟨p, hp, rfl⟩ | rfl <;>
    rcases h'.cases with ⟨q, hq, rfl⟩ | ⟨q, hq, rfl⟩ | rfl <;>
    simp only [physical_bottom, physical_middle, physical_root, subtreePages, slots_eq, *] <;> omega

/-- A page is stored before those below it. -/
theorem physical_le_of_below (h : addr.Valid) (h' : a.Valid) (hbelow : Below addr a) :
    fsm_logical_to_physical addr ≤ fsm_logical_to_physical a :=
  ((below_iff_physical h h').mp hbelow).1

theorem Below.refl (addr : FSMAddress) : Below addr addr :=
  ⟨le_rfl, by rw [Nat.sub_self, pow_zero, Nat.div_one]⟩

/-- Only one page of a level is above a page. -/
theorem Below.unique {addr' : FSMAddress} (h : Below addr a) (h' : Below addr' a)
    (hlevel : addr.level = addr'.level) : addr = addr' := by
  obtain ⟨level, p⟩ := addr
  obtain ⟨level', p'⟩ := addr'
  dsimp only at hlevel
  rw [hlevel] at h ⊢
  have hpage : p = p' := h.2.symm.trans h'.2
  rw [hpage]

/-- The powers along a level. -/
theorem below_div {level : ℕ} (x : ℕ) {m : ℕ} (hm : m ≤ level) :
    x / SlotsPerFSMPage ^ (level + 1 - m) =
      x / SlotsPerFSMPage ^ (level - m) / SlotsPerFSMPage := by
  rw [Nat.sub_add_comm hm, pow_succ, Nat.div_div_eq_div_mul]

/-- Below a child of a page. -/
theorem Below.of_child (h : Below (fsm_get_child addr slot) a) (hlevel : 0 < addr.level)
    (hslot : slot < SlotsPerFSMPage) : Below addr a := by
  obtain ⟨level, p⟩ := addr
  obtain ⟨below, rfl⟩ : ∃ below, level = below + 1 := ⟨level - 1, by dsimp only at hlevel; omega⟩
  obtain ⟨hle, hpage⟩ := h
  simp only [fsm_get_child, Nat.add_sub_cancel] at hle hpage
  refine ⟨by dsimp only; omega, ?_⟩
  rw [below_div a.logpageno hle, hpage, add_comm, Nat.add_mul_div_right _ _ (by decide),
    Nat.div_eq_of_lt hslot, zero_add]

/-- **Below a page is below one of its children.** -/
theorem Below.child (h : Below addr a) (hlevel : a.level < addr.level) :
    ∃ slot < SlotsPerFSMPage, Below (fsm_get_child addr slot) a := by
  obtain ⟨level, p⟩ := addr
  dsimp only at hlevel
  obtain ⟨below, rfl⟩ : ∃ below, level = below + 1 := ⟨level - 1, by omega⟩
  obtain ⟨hle, hpage⟩ := h
  dsimp only at hle hpage
  rw [below_div a.logpageno (by omega)] at hpage
  refine ⟨a.logpageno / SlotsPerFSMPage ^ (below - a.level) % SlotsPerFSMPage,
    Nat.mod_lt _ (by decide), by simp only [fsm_get_child]; omega, ?_⟩
  simp only [fsm_get_child, Nat.add_sub_cancel]
  rw [← hpage, Nat.div_add_mod']

/-- The blocks below a page that is below another one. -/
theorem firstBlock_le_of_below (h : Below addr a) : firstBlock addr ≤ firstBlock a := by
  obtain ⟨hlevel, hpage⟩ := h
  obtain ⟨d, hd⟩ := Nat.exists_eq_add_of_le hlevel
  have hsub : addr.level - a.level = d := by omega
  rw [hsub] at hpage
  calc firstBlock addr
      = a.logpageno / SlotsPerFSMPage ^ d * SlotsPerFSMPage ^ d *
          SlotsPerFSMPage ^ (a.level + 1) := by
        rw [firstBlock, ← hpage, mul_assoc, ← pow_add]
        congr 2
        omega
    _ ≤ a.logpageno * SlotsPerFSMPage ^ (a.level + 1) :=
        Nat.mul_le_mul_right _ (Nat.div_mul_le_self _ _)
    _ = firstBlock a := rfl

/-- A child begins after its page does. -/
theorem firstBlock_child (hlevel : 0 < addr.level) (slot : ℕ) :
    firstBlock (fsm_get_child addr slot) =
      (addr.logpageno * SlotsPerFSMPage + slot) * SlotsPerFSMPage ^ addr.level := by
  rw [firstBlock, fsm_get_child]
  rw [Nat.sub_add_cancel hlevel]

end Addresses

/-! ### Slots -/

/-- The contents of a slot; a page that does not exist has zeroes. -/
def slotValue (map : FsmMap) (addr : FSMAddress) (slot : ℕ) : ℕ :=
  match fsm_readbuf map addr with
  | some blkno => fsm_get_avail (map.page blkno) slot
  | none => 0

/-- The maximum of the slots of a page. -/
abbrev pageMax (map : FsmMap) (addr : FSMAddress) : ℕ :=
  (Finset.range SlotsPerFSMPage).sup (slotValue map addr)

/-- The first heap block that a slot stands for. -/
def slotBlock (slot : ℕ) : ℕ :=
  (addr.logpageno * SlotsPerFSMPage + slot) * SlotsPerFSMPage ^ addr.level

/-- **No page is torn, and nothing is recorded past the last block.** -/
structure FsmMap.Sound (map : FsmMap) : Prop where
  notTorn : ∀ blkno < map.nblocks, NotTorn (map.page blkno)
  beyond : ∀ addr : FSMAddress, addr.Valid → ∀ slot < SlotsPerFSMPage,
    InvalidBlockNumber ≤ slotBlock addr slot → slotValue map addr slot = 0

section Slots

variable {map map' : FsmMap} {addr a : FSMAddress} {slot : ℕ}

/-- The slot of a page that exists. -/
theorem slotValue_of_lt (h : fsm_logical_to_physical addr < map.nblocks) :
    slotValue map addr slot =
      fsm_get_avail (map.page (fsm_logical_to_physical addr)) slot := by
  rw [slotValue, fsm_readbuf, if_neg (by omega)]

theorem slotValue_of_le (h : map.nblocks ≤ fsm_logical_to_physical addr) :
    slotValue map addr slot = 0 := by
  rw [slotValue, fsm_readbuf, if_pos h]

/-- The recorded category is a slot of a bottom page. -/
theorem recordedCat_eq (map : FsmMap) (heapBlk : ℕ) :
    recordedCat map heapBlk =
      slotValue map (fsm_get_location heapBlk).1 (fsm_get_location heapBlk).2 := rfl

@[simp]
theorem write_nblocks (blkno : ℕ) (page : FSMPage) :
    (map.write blkno page).nblocks = map.nblocks := rfl

@[simp]
theorem write_page (blkno : ℕ) (page : FSMPage) : (map.write blkno page).page blkno = page :=
  Function.update_self _ _ _

theorem write_page_of_ne {blkno blkno' : ℕ} (h : blkno' ≠ blkno) (page : FSMPage) :
    (map.write blkno page).page blkno' = map.page blkno' :=
  Function.update_of_ne h _ _

/-- **A write changes one page.** -/
theorem slotValue_write (haddr : addr.Valid) (ha : a.Valid)
    (h : fsm_logical_to_physical addr < map.nblocks) (page : FSMPage) :
    slotValue (map.write (fsm_logical_to_physical addr) page) a slot =
      if a = addr then fsm_get_avail page slot else slotValue map a slot := by
  split_ifs with heq
  · rw [heq, slotValue_of_lt (by exact h), write_page]
  · have hne : fsm_logical_to_physical a ≠ fsm_logical_to_physical addr :=
      fun hphys => heq (physical_inj ha haddr hphys)
    by_cases hlt : fsm_logical_to_physical a < map.nblocks
    · rw [slotValue_of_lt hlt, slotValue_of_lt (by exact hlt),
        write_page_of_ne hne]
    · rw [slotValue_of_le (not_lt.mp hlt),
        slotValue_of_le (by exact not_lt.mp hlt)]

variable {page : FSMPage}

/-- A write of the same slots changes nothing. -/
theorem slotValue_write_same (hpage : SameSlots (map.page (fsm_logical_to_physical addr)) page)
    (haddr : addr.Valid) (ha : a.Valid) (h : fsm_logical_to_physical addr < map.nblocks) :
    slotValue (map.write (fsm_logical_to_physical addr) page) a slot = slotValue map a slot := by
  rw [slotValue_write haddr ha h]
  split
  · rename_i heq
    rw [heq, slotValue_of_lt h, hpage]
  · rfl

/-- Extending the map adds zeroes. -/
theorem slotValue_extend (n : ℕ) : slotValue (fsm_extend map n) a slot = slotValue map a slot := by
  by_cases hlt : fsm_logical_to_physical a < map.nblocks
  · have hlt' : fsm_logical_to_physical a < (fsm_extend map n).nblocks :=
      lt_of_lt_of_le hlt (le_max_left _ _)
    rw [slotValue_of_lt hlt, slotValue_of_lt hlt', fsm_extend]
    dsimp only
    rw [if_neg (by omega)]
  · rw [slotValue_of_le (not_lt.mp hlt)]
    by_cases hlt' : fsm_logical_to_physical a < (fsm_extend map n).nblocks
    · rw [slotValue_of_lt hlt', fsm_extend]
      dsimp only
      rw [if_pos]
      · rfl
      · rw [fsm_extend] at hlt'
        dsimp only at hlt'
        omega
    · exact slotValue_of_le (not_lt.mp hlt')

theorem sound_empty : FsmMap.empty.Sound where
  notTorn _ h := absurd h (not_lt_zero _)
  beyond _ _ _ _ _ := slotValue_of_le (zero_le _)

/-- An extended map. -/
theorem FsmMap.Sound.extend (h : map.Sound) (n : ℕ) : (fsm_extend map n).Sound where
  notTorn blkno hlt := by
    rw [fsm_extend] at hlt ⊢
    dsimp only at hlt ⊢
    split
    · exact zero_notTorn
    · exact h.notTorn blkno (by omega)
  beyond addr haddr slot hslot hblock := by
    rw [slotValue_extend]
    exact h.beyond addr haddr slot hslot hblock

section Write

variable (h : map.Sound) (haddr : addr.Valid) (hlt : fsm_logical_to_physical addr < map.nblocks)

include h haddr hlt

/-- A page that is not torn is written. -/
theorem FsmMap.Sound.write (hpage : NotTorn page)
    (hbey : ∀ slot < SlotsPerFSMPage, InvalidBlockNumber ≤ slotBlock addr slot →
      fsm_get_avail page slot = 0) : (map.write (fsm_logical_to_physical addr) page).Sound where
  notTorn blkno hblk := by
    by_cases heq : blkno = fsm_logical_to_physical addr
    · rw [heq, write_page]
      exact hpage
    · rw [write_page_of_ne heq]
      exact h.notTorn blkno hblk
  beyond a ha slot hslot hblock := by
    rw [slotValue_write haddr ha hlt]
    split
    · rename_i heq
      rw [heq] at hblock
      exact hbey slot hslot hblock
    · exact h.beyond a ha slot hslot hblock

/-- A page with the same slots is written. -/
theorem FsmMap.Sound.write_same (hpage : NotTorn page)
    (hsame : SameSlots (map.page (fsm_logical_to_physical addr)) page) :
    (map.write (fsm_logical_to_physical addr) page).Sound := by
  refine h.write haddr hlt hpage fun slot hslot hblock => ?_
  have hzero := h.beyond addr haddr slot hslot hblock
  rw [slotValue_of_lt hlt] at hzero
  rw [hsame slot, hzero]

/-- **A page with one slot set is written**: that slot is set and no other. -/
theorem FsmMap.Sound.write_set (hslot : slot < SlotsPerFSMPage) {value : ℕ}
    (hbey : InvalidBlockNumber ≤ slotBlock addr slot → value = 0) (hpage : NotTorn page)
    (hsame : SameSlots
      (fsm_set_avail (map.page (fsm_logical_to_physical addr)) slot value).2 page) :
    (map.write (fsm_logical_to_physical addr) page).Sound ∧
      ∀ a : FSMAddress, a.Valid → ∀ slot' < SlotsPerFSMPage,
        slotValue (map.write (fsm_logical_to_physical addr) page) a slot' =
          if a = addr ∧ slot' = slot then value else slotValue map a slot' := by
  obtain ⟨-, hslots⟩ := (h.notTorn _ hlt).set_avail hslot value
  constructor
  · refine h.write haddr hlt hpage fun slot' hslot' hblock => ?_
    rw [hsame, hslots]
    split
    · rename_i heq
      rw [heq] at hblock
      exact hbey hblock
    · have hzero := h.beyond addr haddr slot' hslot' hblock
      rw [slotValue_of_lt hlt] at hzero
      exact hzero
  · intro a ha slot' _
    rw [slotValue_write haddr ha hlt]
    by_cases heq : a = addr
    · rw [if_pos heq, hsame, hslots, heq]
      by_cases hs : slot' = slot
      · rw [if_pos hs, if_pos ⟨rfl, hs⟩]
      · rw [if_neg hs, if_neg fun hand => hs hand.2, slotValue_of_lt hlt]
    · rw [if_neg heq, if_neg fun hand => heq hand.1]

end Write

/-- **Setting a slot** sets that slot and no other; the search finds a slot of the page. -/
theorem setAndSearch_spec (h : map.Sound) (haddr : addr.Valid) (hslot : slot < SlotsPerFSMPage)
    (newValue minValue : ℕ) (hbey : InvalidBlockNumber ≤ slotBlock addr slot → newValue = 0) :
    (fsm_set_and_search map addr slot newValue minValue).2.Sound ∧
    (∀ a : FSMAddress, a.Valid → ∀ slot' < SlotsPerFSMPage,
      slotValue (fsm_set_and_search map addr slot newValue minValue).2 a slot' =
        if a = addr ∧ slot' = slot then newValue else slotValue map a slot') ∧
    ∀ found, (fsm_set_and_search map addr slot newValue minValue).1 = some found →
      found < SlotsPerFSMPage ∧
      minValue ≤ slotValue (fsm_set_and_search map addr slot newValue minValue).2 addr found := by
  rw [fsm_set_and_search]
  generalize hext : (if fsm_logical_to_physical addr ≥ map.nblocks then
    fsm_extend map (fsm_logical_to_physical addr + 1) else map) = extended
  have hsound : extended.Sound := by
    rw [← hext]
    split
    · exact h.extend _
    · exact h
  have hlt : fsm_logical_to_physical addr < extended.nblocks := by
    rw [← hext]
    split
    · exact lt_of_lt_of_le (lt_succ_self _) (le_max_right _ _)
    · rename_i hge
      exact not_le.mp hge
  have hvalue : ∀ a slot', slotValue extended a slot' = slotValue map a slot' := by
    intro a slot'
    rw [← hext]
    split
    · exact slotValue_extend _
    · rfl
  obtain ⟨htorn, -⟩ := (hsound.notTorn _ hlt).set_avail hslot newValue
  simp only [← hvalue]
  by_cases hmin : minValue ≠ 0
  · rw [if_pos hmin]
    rcases htorn.search_avail (pos_of_ne_zero hmin) (decide (addr.level = FSM_BOTTOM_LEVEL))
      with ⟨_, heq⟩ | ⟨found, next, hfound, hle, -, heq⟩
    · obtain ⟨hs, hv⟩ := hsound.write_set haddr hlt hslot hbey htorn fun _ => rfl
      rw [heq]
      exact ⟨hs, hv, fun _ hnone => nomatch hnone⟩
    · have hnext : NotTorn { (fsm_set_avail (extended.page (fsm_logical_to_physical addr)) slot
        newValue).2 with fp_next_slot := next } := htorn
      obtain ⟨hs, hv⟩ := hsound.write_set haddr hlt hslot hbey hnext fun _ => rfl
      rw [heq]
      refine ⟨hs, hv, fun found' hsome => ?_⟩
      obtain rfl := Option.some.inj hsome
      refine ⟨hfound, ?_⟩
      rw [slotValue_write haddr haddr hlt, if_pos rfl]
      exact hle
  · obtain ⟨hs, hv⟩ := hsound.write_set haddr hlt hslot hbey htorn fun _ => rfl
    rw [if_neg hmin]
    exact ⟨hs, hv, fun _ hnone => nomatch hnone⟩

end Slots

/-! ### The numbering of the pages -/

section Numbering

variable {addr a : FSMAddress} {slot nblocks : ℕ}

/-- The numbers that are computed on the way fit. -/
theorem countPages_lt {heapblk level : ℕ} (hblk : heapblk < InvalidBlockNumber)
    (hlevel : level ≤ FSM_ROOT_LEVEL) :
    firstLeafBelow level (locationAt heapblk level).1.logpageno < 2 ^ 31 ∧
      countPages FSM_TREE_DEPTH (firstLeafBelow level (locationAt heapblk level).1.logpageno) <
        2 ^ 32 := by
  have hdepth : FSM_TREE_DEPTH = 3 := rfl
  rw [InvalidBlockNumber] at hblk
  match level, hlevel with
  | 0, _ | 1, _ | 2, _ =>
    simp only [hdepth, locationAt, fsm_get_location, fsm_get_parent, firstLeafBelow, countPages,
      slots_eq]
    omega

/-- A page covers a heap block below some number if its first one is. -/
theorem covers_iff : (∃ heapblk < nblocks, Below a (fsm_get_location heapblk).1) ↔
    firstBlock a < nblocks := by
  constructor
  · rintro ⟨heapblk, hlt, hbelow⟩
    refine (firstBlock_le_of_below hbelow).trans_lt (lt_of_le_of_lt ?_ hlt)
    rw [firstBlock, fsm_get_location, FSM_BOTTOM_LEVEL, zero_add]
    exact Nat.div_mul_le_self _ _
  · intro hlt
    refine ⟨firstBlock a, hlt, Nat.zero_le _, ?_⟩
    rw [fsm_get_location, firstBlock, pow_succ, ← mul_assoc]
    rw [Nat.mul_div_cancel _ (by decide)]
    exact Nat.mul_div_cancel _ (Nat.pow_pos (by decide))

/-- The size of a truncated map. -/
theorem truncateRel_nblocks (map : FsmMap) : (truncateRel map nblocks).nblocks =
    min map.nblocks (fsm_logical_to_physical ⟨0, nblocks / 4069⟩ +
      if nblocks % 4069 > 0 then 1 else 0) := by
  rw [truncateRel, FreeSpaceMapPrepareTruncateRel, fsm_readbuf, fsm_get_location, FSM_BOTTOM_LEVEL,
    slots_eq]
  by_cases hpart : nblocks % 4069 > 0
  · rw [if_pos hpart, if_pos hpart]
    by_cases hge : fsm_logical_to_physical ⟨0, nblocks / 4069⟩ ≥ map.nblocks
    · rw [if_pos hge, min_eq_left (by omega)]
    · rw [if_neg hge, min_eq_right (by omega)]
  · rw [if_neg hpart, if_neg hpart, add_zero]
    by_cases hge : map.nblocks ≤ fsm_logical_to_physical ⟨0, nblocks / 4069⟩
    · rw [if_pos hge, min_eq_left (by omega)]
    · rw [if_neg hge, min_eq_right (by omega)]

/-- **What a truncation keeps**: the pages that cover a heap block that is left, and the upper pages
that begin where the heap ends. -/
theorem truncateRel_keeps_iff {map : FsmMap} (hn : nblocks ≤ InvalidBlockNumber) (ha : a.Valid)
    (hlt : fsm_logical_to_physical a < map.nblocks) :
    fsm_logical_to_physical a < (truncateRel map nblocks).nblocks ↔
      firstBlock a < nblocks ∨ firstBlock a = nblocks ∧ 0 < a.level := by
  rw [InvalidBlockNumber] at hn
  rw [truncateRel_nblocks, lt_min_iff, and_iff_right hlt, physical_bottom (by omega), firstBlock,
    slots_eq]
  rcases ha.cases with ⟨q, hq, rfl⟩ | ⟨q, hq, rfl⟩ | rfl <;>
    simp only [physical_bottom, physical_middle, physical_root, *] <;> split <;> omega

end Numbering

/-- **The addresses of the free space map are a numbering.** Locations and heap blocks, and parents
and children, are inverse to each other. Pages of the tree are stored in different places, in
depth-first order: the root first, behind each page the trees of its slots in order, and no other
page among them. The numbers fit in 32 bits. And the new size for a truncation keeps the pages that
cover a heap block that is left and, apart from them, the upper pages that begin exactly where the
heap ends. -/
theorem fsm_addresses_numbered :
    (∀ heapblk < InvalidBlockNumber, fsm_get_heap_blk (fsm_get_location heapblk).1
      (fsm_get_location heapblk).2 = heapblk) ∧
    (∀ addr : FSMAddress, fsm_get_child (fsm_get_parent addr).1 (fsm_get_parent addr).2 = addr ∧
      (0 < addr.level → ∀ slot < SlotsPerFSMPage,
        fsm_get_parent (fsm_get_child addr slot) = (addr, slot))) ∧
    (∀ addr a : FSMAddress, addr.Valid → a.Valid →
      fsm_logical_to_physical addr = fsm_logical_to_physical a → addr = a) ∧
    (fsm_logical_to_physical FSM_ROOT_ADDRESS = 0 ∧ ∀ addr : FSMAddress, addr.Valid →
      (0 < addr.level → ∀ slot < SlotsPerFSMPage,
        fsm_logical_to_physical (fsm_get_child addr slot) =
          fsm_logical_to_physical addr + 1 + slot * subtreePages (addr.level - 1)) ∧
      ∀ a : FSMAddress, a.Valid → (Below addr a ↔
        fsm_logical_to_physical addr ≤ fsm_logical_to_physical a ∧
        fsm_logical_to_physical a < fsm_logical_to_physical addr + subtreePages addr.level)) ∧
    (∀ heapblk < InvalidBlockNumber, ∀ level ≤ FSM_ROOT_LEVEL,
      firstLeafBelow level (locationAt heapblk level).1.logpageno < 2 ^ 31 ∧
      countPages FSM_TREE_DEPTH (firstLeafBelow level (locationAt heapblk level).1.logpageno) <
        2 ^ 32) ∧ ∀ (map : FsmMap) (nblocks : ℕ), nblocks ≤ InvalidBlockNumber →
      ∀ a : FSMAddress, a.Valid → fsm_logical_to_physical a < map.nblocks →
        (fsm_logical_to_physical a < (truncateRel map nblocks).nblocks ↔
          (∃ heapblk < nblocks, Below a (fsm_get_location heapblk).1) ∨
            firstBlock a = nblocks ∧ 0 < a.level) := by
  refine ⟨fun heapblk hblk => ?_, fun addr => ⟨?_, fun hlevel slot hslot => ?_⟩,
    fun _ _ => physical_inj, ⟨rfl, fun addr h => ⟨fun hlevel slot => physical_child h hlevel,
      fun a => below_iff_physical h⟩⟩, fun _ hblk _ => countPages_lt hblk,
    fun map nblocks hn a ha hlt => ?_⟩
  · rw [InvalidBlockNumber] at hblk
    rw [fsm_get_heap_blk, fsm_get_location, Nat.div_add_mod']
    exact Nat.mod_eq_of_lt (by omega)
  · simp [fsm_get_child, fsm_get_parent, Nat.div_add_mod']
  · obtain ⟨level, p⟩ := addr
    have hpred : level - 1 + 1 = level := Nat.sub_add_cancel hlevel
    rw [slots_eq] at hslot
    simp only [fsm_get_child, fsm_get_parent, slots_eq, hpred, Prod.mk.injEq, FSMAddress.mk.injEq,
      true_and]
    omega
  · rw [covers_iff]
    exact truncateRel_keeps_iff hn ha hlt

/-- A heap is truncated to the blocks of the first middle page: the second one covers none of them,
and is kept. -/
theorem fsm_addresses_kept_page : (⟨1, 1⟩ : FSMAddress).Valid ∧
    (∀ heapblk < 4069 ^ 2, ¬ Below ⟨1, 1⟩ (fsm_get_location heapblk).1) ∧
      fsm_logical_to_physical ⟨1, 1⟩ < (truncateRel ⟨5000, fun _ => .zero⟩ (4069 ^ 2)).nblocks := by
  have hvalid : (⟨1, 1⟩ : FSMAddress).Valid := ⟨by decide, by decide⟩
  refine ⟨hvalid, fun heapblk hlt hbelow => ?_, ?_⟩
  · exact absurd (covers_iff.mp ⟨heapblk, hlt, hbelow⟩) (by decide)
  · exact (truncateRel_keeps_iff (by decide) hvalid (by decide)).mpr (.inr (by decide))

end FdPostgres
