import FdPostgres.Fsm.Contents

/-!
# Vacuum of the Free Space Map

`FreeSpaceMapVacuum` walks over the tree and brings the upper pages up to date. It stops looking at
children once one of them is past the end of the file, and leaves alone the slots that no heap block
belongs to.

* `subtreeMax`: the maximum category of the heap blocks below a page.
* `Vacuumed`: what `fsm_vacuum_page` leaves, for any range of blocks.
* `UpToDate`, `vacuum_upToDate`: after a vacuum of the whole map every upper slot is the maximum of
  the categories below it.
-/

namespace FdPostgres

open List Nat

/-! ### The maximum below a page -/

/-- The maximum category of the heap blocks below a page. -/
def subtreeMax (map : FsmMap) (addr : FSMAddress) : ℕ :=
  (Finset.Ico (addr.logpageno * SlotsPerFSMPage ^ (addr.level + 1))
    ((addr.logpageno + 1) * SlotsPerFSMPage ^ (addr.level + 1))).sup (recordedCat map)

/-- Two maps with the same bottom pages. -/
def SameBottom (map map' : FsmMap) : Prop :=
  ∀ a : FSMAddress, a.Valid → a.level = 0 → ∀ slot < SlotsPerFSMPage,
    slotValue map' a slot = slotValue map a slot

section Maximum

variable {map map' : FsmMap} {addr a : FSMAddress} {slot : ℕ}

/-- The bottom page of a block below a page. -/
theorem below_location (haddr : addr.Valid) {b : ℕ}
    (hb : b ∈ Finset.Ico (addr.logpageno * SlotsPerFSMPage ^ (addr.level + 1))
      ((addr.logpageno + 1) * SlotsPerFSMPage ^ (addr.level + 1))) :
    (fsm_get_location b).1.Valid ∧ Below addr (fsm_get_location b).1 := by
  have hpos : 0 < SlotsPerFSMPage ^ (addr.level + 1) := Nat.pow_pos (by decide)
  rw [Finset.mem_Ico, ← Nat.le_div_iff_mul_le hpos, ← Nat.div_lt_iff_lt_mul hpos] at hb
  have hpage : b / SlotsPerFSMPage ^ (addr.level + 1) = addr.logpageno := by omega
  constructor
  · refine ⟨zero_le _, ?_⟩
    rcases haddr.cases with ⟨p, hp, rfl⟩ | ⟨p, hp, rfl⟩ | rfl <;>
      simp only [fsm_get_location, slots_eq, rootLevel_eq, FSM_BOTTOM_LEVEL] at * <;> omega
  · refine ⟨zero_le _, ?_⟩
    rw [← hpage, fsm_get_location, FSM_BOTTOM_LEVEL]
    rw [Nat.sub_zero, Nat.div_div_eq_div_mul, pow_succ, mul_comm SlotsPerFSMPage]

/-- The maximum does not depend on upper pages. -/
theorem SameBottom.subtreeMax (h : SameBottom map map') (haddr : addr.Valid) :
    subtreeMax map' addr = subtreeMax map addr := by
  refine Finset.sup_congr rfl fun b hb => ?_
  exact h _ (below_location haddr hb).1 rfl _ (mod_lt _ (by decide))

/-- A bottom page. -/
theorem subtreeMax_bottom (hlevel : addr.level = 0) : subtreeMax map addr = pageMax map addr := by
  obtain ⟨level, p⟩ := addr
  dsimp only at hlevel
  rw [hlevel, subtreeMax]
  have hblks := MaxTree.sup_blocks (recordedCat map) p SlotsPerFSMPage one_pos
  rw [mul_one] at hblks
  rw [pow_one, hblks]
  refine Finset.sup_congr rfl fun slot hslot => ?_
  rw [Finset.mem_range] at hslot
  rw [mul_one, mul_one, Nat.Ico_succ_singleton, Finset.sup_singleton, recordedCat_eq,
    fsm_get_location, FSM_BOTTOM_LEVEL]
  rw [mul_comm, mul_add_div (by decide), div_eq_of_lt hslot, add_zero,
    mul_add_mod, mod_eq_of_lt hslot]

/-- An upper page. -/
theorem subtreeMax_child (hlevel : 0 < addr.level) :
    subtreeMax map addr =
      (Finset.range SlotsPerFSMPage).sup fun slot => subtreeMax map (fsm_get_child addr slot) := by
  have hblks := MaxTree.sup_blocks (recordedCat map) addr.logpageno SlotsPerFSMPage
    (pow_pos (n := addr.level) (by decide : 0 < SlotsPerFSMPage))
  rw [← pow_succ'] at hblks
  rw [subtreeMax, hblks]
  refine Finset.sup_congr rfl fun slot _ => ?_
  rw [subtreeMax, fsm_get_child]
  rw [Nat.sub_add_cancel hlevel]

/-- Nothing is recorded past the last block. -/
theorem FsmMap.Sound.subtreeMax_beyond (h : map.Sound) (haddr : addr.Valid)
    (hblock : InvalidBlockNumber ≤ firstBlock addr) : subtreeMax map addr = 0 := by
  rw [subtreeMax, ← bot_eq_zero, Finset.sup_eq_bot_iff]
  intro b hb
  refine h.beyond _ (below_location haddr hb).1 _ (mod_lt _ (by decide)) ?_
  have hslot : slotBlock (fsm_get_location b).1 (fsm_get_location b).2 = b := by
    rw [slotBlock, fsm_get_location, FSM_BOTTOM_LEVEL]
    rw [pow_zero, mul_one, div_add_mod']
  rw [hslot]
  exact le_trans hblock (Finset.mem_Ico.mp hb).1

/-- Nothing is recorded below a page that does not exist. -/
theorem subtreeMax_missing (haddr : addr.Valid)
    (hmiss : map.nblocks ≤ fsm_logical_to_physical addr) : subtreeMax map addr = 0 := by
  rw [subtreeMax, ← bot_eq_zero, Finset.sup_eq_bot_iff]
  intro b hb
  obtain ⟨hvalid, hbelow⟩ := below_location haddr hb
  exact slotValue_of_le (le_trans hmiss (physical_le_of_below haddr hvalid hbelow))

end Maximum

/-! ### One page -/

/-- **What `fsm_vacuum_page` leaves**: bottom pages and pages elsewhere as they were, the maximum of
the page, and, for a vacuum of the whole map, upper pages that are up to date. -/
structure Vacuumed (start stop : ℕ) (map : FsmMap) (addr : FSMAddress) (r : ℕ × Bool × FsmMap) :
    Prop where
  sound : r.2.2.Sound
  nblocks : r.2.2.nblocks = map.nblocks
  frame : ∀ a : FSMAddress, a.Valid → a.level = 0 ∨ ¬ Below addr a →
    ∀ slot < SlotsPerFSMPage, slotValue r.2.2 a slot = slotValue map a slot
  max : r.1 = (Finset.range SlotsPerFSMPage).sup (slotValue r.2.2 addr)
  eof : r.2.1 = true ↔ map.nblocks ≤ fsm_logical_to_physical addr
  right : start = 0 → stop = InvalidBlockNumber → firstBlock addr < InvalidBlockNumber →
    ∀ a : FSMAddress, a.Valid → Below addr a → 0 < a.level → ∀ slot < SlotsPerFSMPage,
      slotValue r.2.2 a slot = subtreeMax map (fsm_get_child a slot)

section Page

variable {start stop : ℕ} {map : FsmMap} {addr : FSMAddress} {r : ℕ × Bool × FsmMap}

theorem Vacuumed.sameBottom (h : Vacuumed start stop map addr r) : SameBottom map r.2.2 :=
  fun a ha hlevel => h.frame a ha (.inl hlevel)

/-- **The maximum that is reported** is that of the categories below. -/
theorem Vacuumed.max_eq (h : Vacuumed start stop map addr r) (haddr : addr.Valid)
    (hstart : start = 0) (hstop : stop = InvalidBlockNumber)
    (hblock : firstBlock addr < InvalidBlockNumber) : r.1 = subtreeMax map addr := by
  rw [h.max]
  rcases Nat.eq_zero_or_pos addr.level with hlevel | hlevel
  · rw [subtreeMax_bottom hlevel]
    refine Finset.sup_congr rfl fun slot hslot => ?_
    exact h.frame addr haddr (.inl hlevel) slot (Finset.mem_range.mp hslot)
  · rw [subtreeMax_child hlevel]
    refine Finset.sup_congr rfl fun slot hslot => ?_
    exact h.right hstart hstop hblock addr haddr (.refl addr) hlevel slot
      (Finset.mem_range.mp hslot)

/-- A page past the end. -/
theorem vacuumed_missing (hsound : map.Sound) (haddr : addr.Valid)
    (hmiss : map.nblocks ≤ fsm_logical_to_physical addr) :
    Vacuumed start stop map addr (0, true, map) where
  sound := hsound
  nblocks := rfl
  frame _ _ _ _ _ := rfl
  max := by
    symm
    rw [← bot_eq_zero, Finset.sup_eq_bot_iff]
    exact fun slot _ => slotValue_of_le hmiss
  eof := ⟨fun _ => hmiss, fun _ => rfl⟩
  right _ _ _ a ha hbelow hlevel slot hslot := by
    have hmiss' := le_trans hmiss (physical_le_of_below haddr ha hbelow)
    have hchild := ha.child hlevel hslot
    have hbelow' : Below a (fsm_get_child a slot) := (Below.refl _).of_child hlevel hslot
    rw [slotValue_of_le hmiss', subtreeMax_missing hchild
      (le_trans hmiss' (physical_le_of_below ha hchild hbelow'))]

end Page

/-! ### The slots of a page -/

section Slots

variable {start stop : ℕ} {map : FsmMap} {addr : FSMAddress} {slot value : ℕ}

/-- Setting a slot of a page that exists. -/
theorem setSlot_spec (h : map.Sound) (haddr : addr.Valid)
    (hlt : fsm_logical_to_physical addr < map.nblocks) (hslot : slot < SlotsPerFSMPage)
    (hbey : InvalidBlockNumber ≤ slotBlock addr slot → value = 0) :
    (setSlot (fsm_logical_to_physical addr) slot value map).Sound ∧
    (setSlot (fsm_logical_to_physical addr) slot value map).nblocks = map.nblocks ∧
    ∀ a : FSMAddress, a.Valid → ∀ slot' < SlotsPerFSMPage,
      slotValue (setSlot (fsm_logical_to_physical addr) slot value map) a slot' =
        if a = addr ∧ slot' = slot then value else slotValue map a slot' := by
  rw [setSlot]
  split
  · obtain ⟨htorn, -⟩ := (h.notTorn _ hlt).set_avail hslot value
    obtain ⟨hs, hv⟩ := h.write_set haddr hlt hslot hbey htorn fun _ => rfl
    exact ⟨hs, rfl, hv⟩
  · rename_i hsame
    rw [not_not] at hsame
    refine ⟨h, rfl, fun a _ slot' _ => ?_⟩
    split
    · rename_i heq
      rw [heq.1, heq.2, slotValue_of_lt hlt, hsame]
    · rfl

/-- **What the loop over slots leaves.** -/
structure SlotsVacuumed (start stop : ℕ) (map : FsmMap) (addr : FSMAddress) (slots : List ℕ)
    (map' : FsmMap) : Prop where
  sound : map'.Sound
  nblocks : map'.nblocks = map.nblocks
  frame : ∀ a : FSMAddress, a.Valid →
    a.level = 0 ∨ a ≠ addr ∧ (∀ s ∈ slots, ¬ Below (fsm_get_child addr s) a) →
    ∀ slot < SlotsPerFSMPage, slotValue map' a slot = slotValue map a slot
  others : ∀ slot < SlotsPerFSMPage, slot ∉ slots →
    slotValue map' addr slot = slotValue map addr slot
  right : start = 0 → stop = InvalidBlockNumber → ∀ s ∈ slots,
    firstBlock (fsm_get_child addr s) < InvalidBlockNumber →
    slotValue map' addr s = subtreeMax map (fsm_get_child addr s) ∧
    ∀ a : FSMAddress, a.Valid → Below (fsm_get_child addr s) a → 0 < a.level →
      ∀ slot < SlotsPerFSMPage, slotValue map' a slot = subtreeMax map (fsm_get_child a slot)

/-- A slot stands for the blocks below its child. -/
theorem slotBlock_eq (hlevel : 0 < addr.level) (slot : ℕ) :
    slotBlock addr slot = firstBlock (fsm_get_child addr slot) := by
  rw [slotBlock, firstBlock_child hlevel]

/-- The slots of a page come after its first block. -/
theorem firstBlock_le_slotBlock (addr : FSMAddress) (slot : ℕ) :
    firstBlock addr ≤ slotBlock addr slot := by
  rw [firstBlock, pow_succ', ← mul_assoc]
  exact mul_le_mul_right _ (le_add_right _ _)

/-- The maximum of a page past the last block. -/
theorem Vacuumed.max_beyond {r : ℕ × Bool × FsmMap} (h : Vacuumed start stop map addr r)
    (haddr : addr.Valid) (hblock : InvalidBlockNumber ≤ firstBlock addr) : r.1 = 0 := by
  rw [h.max, ← bot_eq_zero, Finset.sup_eq_bot_iff]
  intro slot hslot
  exact h.sound.beyond addr haddr slot (Finset.mem_range.mp hslot)
    (le_trans hblock (firstBlock_le_slotBlock addr slot))

/-- A child of a page is not the page, nor above it. -/
theorem not_below_child (hlevel : 0 < addr.level) (slot : ℕ) :
    ¬ Below (fsm_get_child addr slot) addr := by
  intro h
  have hle : addr.level ≤ addr.level - 1 := h.1
  omega

/-- **The loop over slots**: one slot, and the rest. -/
theorem vacuumSlots_spec (haddr : addr.Valid) (hlevel : 0 < addr.level)
    {child : ℕ → FsmMap → ℕ × Bool × FsmMap}
    (hchild : ∀ slot < SlotsPerFSMPage, ∀ map : FsmMap, map.Sound →
      Vacuumed start stop map (fsm_get_child addr slot) (child slot map)) :
    ∀ (slots : List ℕ) (eof : Bool) (map : FsmMap), map.Sound →
      fsm_logical_to_physical addr < map.nblocks → (∀ s ∈ slots, s < SlotsPerFSMPage) →
      slots.Pairwise (· < ·) →
      (eof = true → ∀ s ∈ slots, map.nblocks ≤ fsm_logical_to_physical (fsm_get_child addr s)) →
      SlotsVacuumed start stop map addr slots
        (vacuumSlots child (fsm_logical_to_physical addr) slots eof map) := by
  intro slots
  induction slots with
  | nil =>
    intro eof map hsound _ _ _ _
    exact ⟨hsound, rfl, fun _ _ _ _ _ => rfl, fun _ _ _ => rfl,
      fun _ _ s hs => nomatch hs⟩
  | cons s slots ih =>
    intro eof map hsound hlt hslots hsort heof
    have hs : s < SlotsPerFSMPage := hslots s mem_cons_self
    have hvalid := haddr.child hlevel hs
    rw [vacuumSlots]
    generalize hr : (if !eof then child s map else (0, eof, map)) = r
    -- past the end of the file the child is not looked at
    have hvac : Vacuumed start stop map (fsm_get_child addr s) r := by
      cases eof with
      | true =>
        rw [← hr]
        exact vacuumed_missing hsound hvalid (heof rfl s mem_cons_self)
      | false =>
        rw [← hr]
        exact hchild s hs map hsound
    have hlt' : fsm_logical_to_physical addr < r.2.2.nblocks := by
      rw [hvac.nblocks]
      exact hlt
    obtain ⟨hsound₁, hblks₁, hvalue₁⟩ := setSlot_spec hvac.sound haddr hlt' hs
      fun hblock => hvac.max_beyond hvalid (by rwa [← slotBlock_eq hlevel])
    generalize setSlot (fsm_logical_to_physical addr) s r.1 r.2.2 = map₁ at *
    have hsame : SameBottom map map₁ := by
      intro a ha hzero slot hslot
      rw [hvalue₁ a ha slot hslot, if_neg, hvac.frame a ha (.inl hzero) slot hslot]
      rintro ⟨rfl, -⟩
      omega
    rw [hvac.nblocks] at hblks₁
    rw [pairwise_cons] at hsort
    have hrest := ih r.2.1 map₁ hsound₁ (by omega)
      (fun s' hs' => hslots s' (mem_cons_of_mem s hs')) hsort.2 (by
        intro heof' s' hs'
        have hmiss := hvac.eof.mp heof'
        have hnext := physical_child_lt haddr hlevel
          (hslots s' (mem_cons_of_mem s hs')) (hsort.1 s' hs')
        omega)
    have hnotin : s ∉ slots := fun hmem => lt_irrefl s (hsort.1 s hmem)
    refine ⟨hrest.sound, hrest.nblocks.trans hblks₁, ?_, ?_, ?_⟩
    · intro a ha hout slot hslot
      have hout' : a.level = 0 ∨ a ≠ addr ∧ ∀ s' ∈ slots, ¬ Below (fsm_get_child addr s') a :=
        hout.imp_right fun h => ⟨h.1, fun s' hs' => h.2 s' (mem_cons_of_mem s hs')⟩
      have hne : a ≠ addr := by
        rcases hout with hzero | hout
        · rintro rfl
          omega
        · exact hout.1
      rw [hrest.frame a ha hout' slot hslot, hvalue₁ a ha slot hslot, if_neg fun h => hne h.1]
      exact hvac.frame a ha (hout.imp_right fun h => h.2 s mem_cons_self) slot hslot
    · intro slot hslot hmem
      rw [mem_cons, not_or] at hmem
      rw [hrest.others slot hslot hmem.2, hvalue₁ addr haddr slot hslot, if_neg fun h => hmem.1 h.2]
      exact hvac.frame addr haddr (.inr (not_below_child hlevel s)) slot hslot
    · intro hstart hstop s' hs' hblock
      have hvalid' := haddr.child hlevel (hslots s' hs')
      rcases mem_cons.mp hs' with rfl | hmem
      · -- the slot that was set is left alone by the rest
        constructor
        · rw [hrest.others s' hs hnotin, hvalue₁ addr haddr s' hs, if_pos ⟨rfl, rfl⟩]
          exact hvac.max_eq hvalid' hstart hstop hblock
        · intro a ha hbelow hpos slot hslot
          have hne : a ≠ addr := by
            rintro rfl
            exact not_below_child hlevel s' hbelow
          have hout : ∀ t ∈ slots, ¬ Below (fsm_get_child addr t) a := by
            intro t ht hbelow'
            have heq := hbelow.unique hbelow' rfl
            rw [fsm_get_child, fsm_get_child, FSMAddress.mk.injEq] at heq
            have hst : s' = t := by omega
            exact hnotin (hst ▸ ht)
          rw [hrest.frame a ha (.inr ⟨hne, hout⟩) slot hslot, hvalue₁ a ha slot hslot,
            if_neg fun h => hne h.1]
          exact hvac.right hstart hstop hblock a ha hbelow hpos slot hslot
      · obtain ⟨hvalue, hbelow⟩ := hrest.right hstart hstop s' hmem hblock
        refine ⟨hvalue.trans (hsame.subtreeMax hvalid'), fun a ha hb hpos slot hslot => ?_⟩
        rw [hbelow a ha hb hpos slot hslot]
        exact hsame.subtreeMax (ha.child hpos hslot)

end Slots

/-! ### The tree -/

section Tree

variable {start stop : ℕ} {map : FsmMap}

/-- The location of a block on a level. -/
theorem locationAt_eq (heapblk : ℕ) : ∀ level,
    locationAt heapblk level = (⟨level, heapblk / SlotsPerFSMPage ^ (level + 1)⟩,
      heapblk / SlotsPerFSMPage ^ level % SlotsPerFSMPage) := by
  intro level
  induction level with
  | zero =>
    rw [locationAt, fsm_get_location, FSM_BOTTOM_LEVEL, pow_one, pow_zero, Nat.div_one]
  | succ level ih =>
    rw [locationAt, ih, fsm_get_parent]
    rw [Nat.div_div_eq_div_mul, ← pow_succ]

/-- A vacuum of the whole map starts at the first slot. -/
theorem startSlot_zero (addr : FSMAddress) : startSlot 0 addr = 0 := by
  rw [startSlot, locationAt_eq]
  rw [Nat.zero_div, Nat.zero_div]
  split
  · rfl
  · rw [if_neg (Nat.not_lt_zero _)]

variable {addr : FSMAddress} {slot : ℕ}

/-- **A vacuum of the whole map** covers exactly the slots that some heap block belongs to. -/
theorem lt_stopSlotOf_iff (hlevel : 0 < addr.level) (hblock : firstBlock addr < InvalidBlockNumber)
    (hslot : slot < SlotsPerFSMPage) : slot < stopSlotOf InvalidBlockNumber addr ↔
      firstBlock (fsm_get_child addr slot) < InvalidBlockNumber := by
  have hlast : (InvalidBlockNumber + (2 ^ 32 - 1)) % 2 ^ 32 = InvalidBlockNumber - 1 := by decide
  have hpos : 0 < SlotsPerFSMPage ^ addr.level := Nat.pow_pos (by decide)
  rw [stopSlotOf, hlast, locationAt_eq, pow_succ, ← Nat.div_div_eq_div_mul, firstBlock_child hlevel]
  -- the number of the last child that some block belongs to
  have hchild : (addr.logpageno * SlotsPerFSMPage + slot) * SlotsPerFSMPage ^ addr.level <
      InvalidBlockNumber ↔ addr.logpageno * SlotsPerFSMPage + slot ≤
        (InvalidBlockNumber - 1) / SlotsPerFSMPage ^ addr.level := by
    rw [Nat.le_div_iff_mul_le hpos]
    omega
  rw [hchild]
  rw [slots_eq] at *
  dsimp only
  split_ifs <;> omega

/-- No more slots than there are. -/
theorem stopSlotOf_le (stop : ℕ) (addr : FSMAddress) : stopSlotOf stop addr ≤ SlotsPerFSMPage := by
  rw [stopSlotOf, locationAt_eq]
  split
  · exact mod_lt _ (by decide)
  · split
    · exact le_rfl
    · exact zero_le _

/-- **All upper pages below are up to date** when the loop covers the slots that some heap block
belongs to: nothing is recorded in the other ones. -/
theorem SlotsVacuumed.right_below {slots : List ℕ} {map' : FsmMap}
    (h : SlotsVacuumed start stop map addr slots map') (hsound : map.Sound) (hstart : start = 0)
    (hstop : stop = InvalidBlockNumber) (hcover : ∀ s < SlotsPerFSMPage,
      s ∈ slots ↔ firstBlock (fsm_get_child addr s) < InvalidBlockNumber) {a : FSMAddress}
    (ha : a.Valid) (hbelow : Below addr a) (hpos : 0 < a.level) (hslot : slot < SlotsPerFSMPage) :
    slotValue map' a slot = subtreeMax map (fsm_get_child a slot) := by
  -- a slot that no heap block belongs to
  have hzero : InvalidBlockNumber ≤ firstBlock (fsm_get_child a slot) →
      slotValue map' a slot = slotValue map a slot →
      slotValue map' a slot = subtreeMax map (fsm_get_child a slot) := by
    intro hblock hsame
    rw [hsame, hsound.subtreeMax_beyond (ha.child hpos hslot) hblock]
    exact hsound.beyond a ha slot hslot (by rwa [slotBlock_eq hpos])
  by_cases heq : a.level = addr.level
  · obtain rfl : addr = a := (hbelow.unique (.refl a) heq.symm)
    by_cases hmem : slot ∈ slots
    · exact (h.right hstart hstop slot hmem ((hcover slot hslot).mp hmem)).1
    · refine hzero (not_lt.mp fun hlt => hmem ((hcover slot hslot).mpr hlt)) ?_
      exact h.others slot hslot hmem
  · obtain ⟨s, hs, hchild⟩ := hbelow.child (lt_of_le_of_ne hbelow.1 heq)
    by_cases hmem : s ∈ slots
    · exact (h.right hstart hstop s hmem ((hcover s hs).mp hmem)).2 a ha hchild hpos slot hslot
    · have hblock : InvalidBlockNumber ≤ firstBlock (fsm_get_child addr s) :=
        not_lt.mp fun hlt => hmem ((hcover s hs).mpr hlt)
      refine hzero ?_ (h.frame a ha (.inr ⟨?_, fun t ht hbelow' => ?_⟩) slot hslot)
      · rw [← slotBlock_eq hpos]
        exact le_trans hblock (le_trans (firstBlock_le_of_below hchild)
          (firstBlock_le_slotBlock a slot))
      · rintro rfl
        exact heq rfl
      · have hunique := hchild.unique hbelow' rfl
        rw [fsm_get_child, fsm_get_child, FSMAddress.mk.injEq] at hunique
        have hst : s = t := by omega
        exact hmem (hst ▸ ht)

/-- The end of `fsm_vacuum_page`: the maximum is read, and the hint is reset. -/
theorem vacuumed_finish {map' : FsmMap} (haddr : addr.Valid)
    (hlt : fsm_logical_to_physical addr < map.nblocks) (hsound : map'.Sound)
    (hblks : map'.nblocks = map.nblocks)
    (hframe : ∀ a : FSMAddress, a.Valid → a.level = 0 ∨ ¬ Below addr a →
      ∀ slot < SlotsPerFSMPage, slotValue map' a slot = slotValue map a slot)
    (hright : start = 0 → stop = InvalidBlockNumber → firstBlock addr < InvalidBlockNumber →
      ∀ a : FSMAddress, a.Valid → Below addr a → 0 < a.level → ∀ slot < SlotsPerFSMPage,
        slotValue map' a slot = subtreeMax map (fsm_get_child a slot)) :
    Vacuumed start stop map addr
      (fsm_get_max_avail (map'.page (fsm_logical_to_physical addr)), false,
        map'.write (fsm_logical_to_physical addr)
          { map'.page (fsm_logical_to_physical addr) with fp_next_slot := 0 }) := by
  have hlt' : fsm_logical_to_physical addr < map'.nblocks := by
    rw [hblks]
    exact hlt
  have htorn : NotTorn { map'.page (fsm_logical_to_physical addr) with fp_next_slot := 0 } :=
    hsound.notTorn _ hlt'
  have hsame : ∀ a : FSMAddress, a.Valid → ∀ slot,
      slotValue (map'.write (fsm_logical_to_physical addr)
        { map'.page (fsm_logical_to_physical addr) with fp_next_slot := 0 }) a slot =
          slotValue map' a slot :=
    fun a ha slot => slotValue_write_same (fun _ => rfl) haddr ha hlt'
  refine ⟨hsound.write_same haddr hlt' htorn fun _ => rfl, hblks, ?_, ?_, ?_, ?_⟩
  · intro a ha hout slot hslot
    rw [hsame a ha]
    exact hframe a ha hout slot hslot
  · dsimp only
    rw [(hsound.notTorn _ hlt').max_avail]
    refine Finset.sup_congr rfl fun slot _ => ?_
    rw [hsame addr haddr, slotValue_of_lt hlt']
  · refine ⟨fun h => absurd h Bool.false_ne_true, fun h => ?_⟩
    omega
  · intro hstart hstop hblock a ha hbelow hlevel slot hslot
    rw [hsame a ha]
    exact hright hstart hstop hblock a ha hbelow hlevel slot hslot

/-- **Vacuuming a page**, by induction on its level. -/
theorem vacuum_page_spec : ∀ (level logpageno : ℕ) (map : FsmMap), map.Sound →
    (⟨level, logpageno⟩ : FSMAddress).Valid → Vacuumed start stop map ⟨level, logpageno⟩
      (fsm_vacuum_page start stop level logpageno map) := by
  intro level
  induction level with
  | zero =>
    intro logpageno map hsound haddr
    rw [fsm_vacuum_page, fsm_readbuf]
    split_ifs with hge
    · exact vacuumed_missing hsound haddr hge
    · refine vacuumed_finish haddr (not_le.mp hge) hsound rfl (fun _ _ _ _ _ => rfl) ?_
      intro _ _ _ a _ hbelow hlevel
      have hzero : a.level ≤ 0 := hbelow.1
      omega
  | succ below ih =>
    intro logpageno map hsound haddr
    have hlevel : 0 < (⟨below + 1, logpageno⟩ : FSMAddress).level := succ_pos below
    rw [fsm_vacuum_page, fsm_readbuf]
    split_ifs with hge
    · exact vacuumed_missing hsound haddr hge
    · dsimp only
      generalize hslots : List.range' (startSlot start ⟨below + 1, logpageno⟩)
        (stopSlotOf stop ⟨below + 1, logpageno⟩ - startSlot start ⟨below + 1, logpageno⟩) = slots
      have hmem : ∀ s ∈ slots, s < SlotsPerFSMPage := by
        intro s hs
        rw [← hslots, mem_range'_1] at hs
        have hle := stopSlotOf_le stop ⟨below + 1, logpageno⟩
        omega
      have hvac : SlotsVacuumed start stop map ⟨below + 1, logpageno⟩ slots
          (vacuumSlots (fun slot map => fsm_vacuum_page start stop below
            (fsm_get_child ⟨below + 1, logpageno⟩ slot).logpageno map)
            (fsm_logical_to_physical ⟨below + 1, logpageno⟩) slots false map) := by
        refine vacuumSlots_spec haddr hlevel (fun slot hslot map hsound => ?_) slots false map
          hsound (not_le.mp hge) hmem ?_ (by simp)
        · exact ih _ map hsound (haddr.child hlevel hslot)
        · rw [← hslots]
          exact pairwise_lt_range'
      refine vacuumed_finish haddr (not_le.mp hge) hvac.sound hvac.nblocks ?_ ?_
      · intro a ha hout slot hslot
        refine hvac.frame a ha (hout.imp_right fun hnot => ⟨?_, fun s hs hbelow => ?_⟩) slot hslot
        · rintro rfl
          exact hnot (.refl _)
        · exact hnot (hbelow.of_child hlevel (hmem s hs))
      · intro hstart hstop hblock a ha hbelow hpos slot hslot
        refine hvac.right_below hsound hstart hstop (fun s hs => ?_) ha hbelow hpos
          hslot
        rw [← hslots, hstart, hstop, startSlot_zero, mem_range'_1,
          ← lt_stopSlotOf_iff hlevel hblock hs]
        omega

end Tree

/-! ### The map -/

/-- **Every upper slot is the maximum of the categories of the heap blocks below it.** -/
def UpToDate (map : FsmMap) : Prop :=
  ∀ a : FSMAddress, a.Valid → 0 < a.level → ∀ slot < SlotsPerFSMPage,
    slotValue map a slot = subtreeMax map (fsm_get_child a slot)

/-- A vacuum of a range leaves the map sound, and the categories as they were. -/
theorem vacuumRange_spec {map : FsmMap} (h : map.Sound) (start stop : ℕ) :
    (FreeSpaceMapVacuumRange map start stop).Sound ∧
      SameBottom map (FreeSpaceMapVacuumRange map start stop) := by
  rw [FreeSpaceMapVacuumRange]
  split
  · have hvac : Vacuumed start stop map FSM_ROOT_ADDRESS _ := vacuum_page_spec _ _ map h root_valid
    exact ⟨hvac.sound, hvac.sameBottom⟩
  · exact ⟨h, fun _ _ _ _ _ => rfl⟩

/-- **A vacuum of the whole map brings it up to date.** -/
theorem vacuum_upToDate {map : FsmMap} (h : map.Sound) :
    (FreeSpaceMapVacuum map).Sound ∧ SameBottom map (FreeSpaceMapVacuum map) ∧
      UpToDate (FreeSpaceMapVacuum map) := by
  have hvac : Vacuumed 0 InvalidBlockNumber map FSM_ROOT_ADDRESS _ :=
    vacuum_page_spec _ _ map h root_valid
  refine ⟨hvac.sound, hvac.sameBottom, fun a ha hlevel slot hslot => ?_⟩
  have hbelow : Below FSM_ROOT_ADDRESS a := by
    refine ⟨ha.1, ?_⟩
    exact div_eq_of_lt ha.2
  have hright := hvac.right rfl rfl (by decide) a ha hbelow hlevel slot hslot
  exact hright.trans (hvac.sameBottom.subtreeMax (ha.child hlevel hslot)).symm

end FdPostgres
