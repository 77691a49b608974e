import FdPostgres.Fsm.Vacuum

/-!
# Searching the Free Space Map

`fsm_search` walks down from the root along slots that promise enough. A promise that is not kept is
repaired and the walk restarts. It never changes the category of a heap block, and never returns a
block whose category is too low. When the map is up to date no promise is broken, so that it finds a
block exactly if there is one.

* `searchPage_spec`: the search within a page.
* `searchFrom_spec`: any search of a sound map.
* `search_upToDate`: the search of a map that is up to date.
-/

namespace FdPostgres

open Finset Nat

/-! ### One page -/

section Page

variable {map map' : FsmMap} {addr : FSMAddress} {min_cat : ℕ}

/-- Two maps with the same slots. -/
def SameMap (map map' : FsmMap) : Prop :=
  ∀ a : FSMAddress, a.Valid → ∀ slot, slotValue map' a slot = slotValue map a slot

theorem SameMap.sameBottom (h : SameMap map map') : SameBottom map map' :=
  fun a ha _ slot _ => h a ha slot

/-- The maximum of a page is the same. -/
theorem SameMap.sup_eq (h : SameMap map map') (haddr : addr.Valid) :
    pageMax map addr = pageMax map' addr :=
  sup_congr rfl fun slot _ => (h addr haddr slot).symm

/-- A map stays up to date. -/
theorem SameMap.upToDate (h : SameMap map map') (hup : UpToDate map) : UpToDate map' := by
  intro a ha hlevel slot hslot
  rw [h a ha, hup a ha hlevel slot hslot]
  exact (h.sameBottom.subtreeMax (ha.child hlevel hslot)).symm

/-- **The search within a page** finds a slot exactly if there is one, and leaves the slots. -/
theorem searchPage_spec (h : map.Sound) (haddr : addr.Valid) (hmin : 0 < min_cat) :
    ∃ map', map'.Sound ∧ SameMap map map' ∧
      ((∃ slot < SlotsPerFSMPage, min_cat ≤ slotValue map addr slot ∧
          searchPage map min_cat addr = (some slot, 0, map')) ∨ (pageMax map addr < min_cat ∧
          searchPage map min_cat addr = (none, pageMax map addr, map'))) := by
  rw [searchPage, fsm_readbuf]
  split_ifs with hge
  · have hzero : pageMax map addr = 0 := by
      rw [← bot_eq_zero, Finset.sup_eq_bot_iff]
      exact fun slot _ => slotValue_of_le hge
    rw [hzero]
    exact ⟨map, h, fun _ _ _ => rfl, .inr ⟨hmin, rfl⟩⟩
  · have hlt := not_le.mp hge
    have htorn := h.notTorn _ hlt
    have hmax : fsm_get_max_avail (map.page (fsm_logical_to_physical addr)) = pageMax map addr := by
      rw [htorn.max_avail]
      exact sup_congr rfl fun slot _ => (slotValue_of_lt hlt).symm
    -- any page with the same nodes may be written
    have hwrite : ∀ page : FSMPage, NotTorn page →
        SameSlots (map.page (fsm_logical_to_physical addr)) page →
        (map.write (fsm_logical_to_physical addr) page).Sound ∧
          SameMap map (map.write (fsm_logical_to_physical addr) page) := fun page hpage hsame =>
      ⟨h.write_same haddr hlt hpage hsame, fun a ha slot => slotValue_write_same hsame haddr ha hlt⟩
    dsimp only
    rcases htorn.search_avail hmin (decide (addr.level = FSM_BOTTOM_LEVEL))
      with ⟨hless, heq⟩ | ⟨slot, next, hslot, hle, -, heq⟩
    · obtain ⟨hsound, hsame⟩ := hwrite _ htorn fun _ => rfl
      rw [heq, ← hmax]
      exact ⟨_, hsound, hsame, .inr ⟨hless, rfl⟩⟩
    · have hnext : NotTorn { map.page (fsm_logical_to_physical addr) with fp_next_slot := next } :=
        htorn
      obtain ⟨hsound, hsame⟩ := hwrite _ hnext fun _ => rfl
      rw [heq]
      refine ⟨_, hsound, hsame, .inl ⟨slot, hslot, ?_, rfl⟩⟩
      rw [slotValue_of_lt hlt]
      exact hle

/-- A slot was found. -/
theorem searchPage_some {slot unused : ℕ} (h : map.Sound) (haddr : addr.Valid) (hmin : 0 < min_cat)
    (hpage : searchPage map min_cat addr = (some slot, unused, map')) :
    map'.Sound ∧ SameMap map map' ∧ slot < SlotsPerFSMPage ∧ min_cat ≤ slotValue map addr slot := by
  obtain ⟨map₁, hsound, hsame, ⟨slot', hslot, hle, heq⟩ | ⟨_, heq⟩⟩ := searchPage_spec h haddr hmin
  · rw [hpage, Prod.mk.injEq, Option.some.injEq] at heq
    obtain ⟨rfl, -, rfl⟩ := heq
    exact ⟨hsound, hsame, hslot, hle⟩
  · rw [hpage, Prod.mk.injEq] at heq
    cases heq.1

end Page

/-! ### The search -/

section Search

variable {map : FsmMap} {addr : FSMAddress} {min_cat : ℕ}

/-- The block of a slot of a bottom page with something recorded. -/
theorem heapBlk_spec (h : map.Sound) (haddr : addr.Valid) (hlevel : addr.level = FSM_BOTTOM_LEVEL)
    {slot : ℕ} (hslot : slot < SlotsPerFSMPage) (hpos : 0 < slotValue map addr slot) :
    fsm_get_heap_blk addr slot < InvalidBlockNumber ∧
      recordedCat map (fsm_get_heap_blk addr slot) = slotValue map addr slot := by
  obtain ⟨level, p⟩ := addr
  have hzero : level = 0 := hlevel
  subst hzero
  have hlt : p * SlotsPerFSMPage + slot < InvalidBlockNumber := by
    by_contra hge
    have hnone := h.beyond ⟨0, p⟩ haddr slot hslot (by
      rw [slotBlock, pow_zero, mul_one]
      exact not_lt.mp hge)
    omega
  have hblk : fsm_get_heap_blk ⟨0, p⟩ slot = p * SlotsPerFSMPage + slot := by
    exact mod_eq_of_lt (lt_of_lt_of_le hlt (sub_le _ _))
  rw [hblk]
  refine ⟨hlt, ?_⟩
  rw [recordedCat_eq, fsm_get_location, FSM_BOTTOM_LEVEL]
  rw [mul_comm, mul_add_div (by decide), div_eq_of_lt hslot, add_zero,
    mul_add_mod, mod_eq_of_lt hslot]

variable {map' : FsmMap}

/-- The categories are those of the bottom pages. -/
theorem SameBottom.recordedCat (h : SameBottom map map') {heapBlk : ℕ}
    (hblk : heapBlk ≤ InvalidBlockNumber) : recordedCat map' heapBlk = recordedCat map heapBlk :=
  h _ (location_valid hblk).1 rfl _ (location_valid hblk).2

theorem SameBottom.trans {map'' : FsmMap} (h : SameBottom map map') (h' : SameBottom map' map'') :
    SameBottom map map'' :=
  fun a ha hlevel slot hslot => (h' a ha hlevel slot hslot).trans (h a ha hlevel slot hslot)

/-- **Repairing a promise** leaves the map sound, and the categories as they were. -/
theorem repair_spec (h : map.Sound) (haddr : addr.Valid) (hlevel : addr.level ≠ FSM_ROOT_LEVEL) :
    (fsm_set_and_search map (fsm_get_parent addr).1 (fsm_get_parent addr).2
      (pageMax map addr) 0).2.Sound ∧
    SameBottom map (fsm_set_and_search map (fsm_get_parent addr).1 (fsm_get_parent addr).2
      (pageMax map addr) 0).2 := by
  obtain ⟨hvalid, hslot, hpos, hchild⟩ := haddr.parent hlevel
  obtain ⟨hsound, hvalue, -⟩ := setAndSearch_spec h hvalid hslot (pageMax map addr) 0 (by
    intro hblock
    rw [slotBlock_eq hpos, hchild] at hblock
    rw [← bot_eq_zero, Finset.sup_eq_bot_iff]
    intro slot hslot
    exact h.beyond addr haddr slot (mem_range.mp hslot)
      (le_trans hblock (firstBlock_le_slotBlock addr slot)))
  refine ⟨hsound, fun a ha hzero slot hslot => ?_⟩
  rw [hvalue a ha slot hslot, if_neg]
  rintro ⟨rfl, -⟩
  omega

/-- What a search gives: no block, or one with enough. -/
structure Searched (map : FsmMap) (min_cat : ℕ) (r : ℕ × FsmMap) : Prop where
  sound : r.2.Sound
  sameBottom : SameBottom map r.2
  enough : r.1 = InvalidBlockNumber ∨ r.1 < InvalidBlockNumber ∧ min_cat ≤ recordedCat map r.1

/-- A search that went on from a map with the same bottom pages. -/
theorem Searched.of_sameBottom {r : ℕ × FsmMap} (h : Searched map' min_cat r)
    (hsame : SameBottom map map') : Searched map min_cat r := by
  refine ⟨h.sound, hsame.trans h.sameBottom, h.enough.imp_right fun hr => ⟨hr.1, ?_⟩⟩
  rw [← hsame.recordedCat hr.1.le]
  exact hr.2

/-- What a page promises in a map that is up to date. -/
theorem UpToDate.pageMax_eq (hup : UpToDate map) (haddr : addr.Valid) :
    subtreeMax map addr = pageMax map addr := by
  rcases Nat.eq_zero_or_pos addr.level with hlevel | hlevel
  · exact subtreeMax_bottom hlevel
  · rw [subtreeMax_child hlevel]
    refine sup_congr rfl fun slot hslot => ?_
    exact (hup addr haddr hlevel slot (mem_range.mp hslot)).symm

/-- **No slot was found**: a map that is up to date did not promise enough, and the promise that was
made by another one is repaired. -/
theorem searchPage_none {max_avail : ℕ} (h : map.Sound) (haddr : addr.Valid) (hmin : 0 < min_cat)
    (hpage : searchPage map min_cat addr = (none, max_avail, map')) :
    map'.Sound ∧ SameBottom map map' ∧ (UpToDate map → ¬ min_cat ≤ subtreeMax map addr) ∧
      (addr.level ≠ FSM_ROOT_LEVEL → (fsm_set_and_search map' (fsm_get_parent addr).1
          (fsm_get_parent addr).2 max_avail 0).2.Sound ∧
        SameBottom map (fsm_set_and_search map' (fsm_get_parent addr).1
          (fsm_get_parent addr).2 max_avail 0).2) := by
  obtain ⟨map₁, hsound, hsame, ⟨_, _, _, heq⟩ | ⟨hlt, heq⟩⟩ := searchPage_spec h haddr hmin
  · rw [hpage, Prod.mk.injEq] at heq
    cases heq.1
  · rw [hpage, Prod.mk.injEq, Prod.mk.injEq] at heq
    obtain ⟨-, hmax, rfl⟩ := heq
    refine ⟨hsound, hsame.sameBottom, fun hup => ?_, fun hlevel => ?_⟩
    · rw [hup.pageMax_eq haddr]
      exact not_le.mpr hlt
    · obtain ⟨hsound', hsame'⟩ := repair_spec hsound haddr hlevel
      rw [← hsame.sup_eq haddr, ← hmax] at hsound' hsame'
      exact ⟨hsound', hsame.sameBottom.trans hsame'⟩

/-- **Any search of a sound map**, however stale its upper pages are. One that is up to date and
promises enough is searched with success. -/
theorem searchFrom_spec (hmin : 0 < min_cat) (restarts : ℕ) (h : map.Sound) (haddr : addr.Valid) :
    Searched map min_cat (searchFrom min_cat map restarts addr) ∧
      (UpToDate map → min_cat ≤ subtreeMax map addr →
        (searchFrom min_cat map restarts addr).1 ≠ InvalidBlockNumber) := by
  induction map, restarts, addr using searchFrom.induct min_cat with
  | case1 map restarts addr slot unused map₁ hpage hbottom =>
    obtain ⟨hsound, hsame, hslot, hle⟩ := searchPage_some h haddr hmin hpage
    rw [searchFrom, hpage]
    dsimp only
    rw [dif_pos hbottom]
    obtain ⟨hlt, hcat⟩ := heapBlk_spec h haddr hbottom hslot (by omega)
    exact ⟨⟨hsound, hsame.sameBottom, .inr ⟨hlt, by rw [hcat]; exact hle⟩⟩, fun _ _ => hlt.ne⟩
  | case2 map restarts addr slot unused map₁ hpage hbottom ih =>
    obtain ⟨hsound, hsame, hslot, hfound⟩ := searchPage_some h haddr hmin hpage
    have hlevel := pos_of_ne_zero hbottom
    have hchild := haddr.child hlevel hslot
    rw [searchFrom, hpage]
    dsimp only
    rw [dif_neg hbottom]
    obtain ⟨hsearched, hsucc⟩ := ih hsound hchild
    refine ⟨hsearched.of_sameBottom hsame.sameBottom, fun hup _ => ?_⟩
    refine hsucc (hsame.upToDate hup) ?_
    rw [hsame.sameBottom.subtreeMax hchild, ← hup addr haddr hlevel slot hslot]
    exact hfound
  | case3 map restarts addr max_avail map₁ hpage hroot =>
    obtain ⟨hsound, hsame, hmiss, -⟩ := searchPage_none h haddr hmin hpage
    rw [searchFrom, hpage]
    dsimp only
    rw [if_pos hroot]
    exact ⟨⟨hsound, hsame, .inl rfl⟩, fun hup hle => absurd hle (hmiss hup)⟩
  | case4 map restarts addr max_avail map₁ hpage hroot hrest =>
    obtain ⟨-, -, hmiss, hrepair⟩ := searchPage_none h haddr hmin hpage
    obtain ⟨hsound, hsame⟩ := hrepair hroot
    rw [searchFrom, hpage]
    dsimp only
    rw [if_neg hroot, dif_pos hrest]
    exact ⟨⟨hsound, hsame, .inl rfl⟩, fun hup hle => absurd hle (hmiss hup)⟩
  | case5 map restarts addr max_avail map₁ hpage hroot parent map₂ hrest ih =>
    obtain ⟨-, -, hmiss, hrepair⟩ := searchPage_none h haddr hmin hpage
    obtain ⟨hsound, hsame⟩ := hrepair hroot
    rw [searchFrom, hpage]
    dsimp only
    rw [if_neg hroot, dif_neg hrest]
    exact ⟨(ih hsound root_valid).1.of_sameBottom hsame, fun hup hle => absurd hle (hmiss hup)⟩

/-- **A map that is up to date is searched exactly.** -/
theorem search_upToDate (hmin : 0 < min_cat) (h : map.Sound) (hup : UpToDate map) :
    ((fsm_search map min_cat).1 = InvalidBlockNumber ↔
      ∀ heapBlk < InvalidBlockNumber, recordedCat map heapBlk < min_cat) ∧
    ((fsm_search map min_cat).1 ≠ InvalidBlockNumber →
      (fsm_search map min_cat).1 < InvalidBlockNumber ∧
      min_cat ≤ recordedCat map (fsm_search map min_cat).1) := by
  obtain ⟨hspec, hsucc⟩ := searchFrom_spec hmin 0 h root_valid
  refine ⟨⟨fun hinval heapBlk hblk => ?_, fun hnone => ?_⟩, fun hne => ?_⟩
  · by_contra hge
    refine hsucc hup ?_ hinval
    refine le_trans (not_lt.mp hge) (le_sup ?_)
    rw [mem_Ico]
    refine ⟨zero_le _, lt_of_lt_of_le hblk ?_⟩
    decide
  · rcases hspec.enough with heq | ⟨hlt, hle⟩
    · exact heq
    · exact absurd hle (not_le.mpr (hnone _ hlt))
  · rcases hspec.enough with heq | hfound
    · exact absurd heq hne
    · exact hfound

end Search

end FdPostgres
