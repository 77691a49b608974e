import FdPostgres.Fsm.Search

/-!
# The Free Space Map Finds What Is Recorded

Calls of a single caller, in any order: recording the space of blocks, searching, vacuuming all or a
part of the map, and truncating the relation. The map stays sound, and says of each block what was
recorded for it last.

* `needed_to_cat`: categories are rounded down when recorded and up when requested.
* `truncateRel_spec`: a truncation clears the categories of the blocks that are gone.
* `FsmEvent`, `fsmRun`, `FsmInv`: the calls, with the space that was last recorded.
* `fsm_finds_recorded_space`: what the map finds after a vacuum, and what it returns after any
  calls.
-/

namespace FdPostgres

open Function List

/-! ### Categories -/

/-- **A request has a category**, and a block whose space has at least that category has enough
space. -/
theorem needed_to_cat {s : ℕ} (hpos : 0 < s) (hmax : s ≤ MaxFSMRequestSize) :
    ∃ min_cat, fsm_space_needed_to_cat s = .ok min_cat ∧ 0 < min_cat ∧
      ∀ f, min_cat ≤ fsm_space_avail_to_cat f → s ≤ f := by
  have hsize : MaxFSMRequestSize = 8160 := by decide
  have hstep : FSM_CAT_STEP = 32 := by decide
  have hcat : ¬ (s + 32 - 1) / 32 > 255 := by omega
  refine ⟨(s + 32 - 1) / 32, ?_, by omega, fun f hle => ?_⟩
  · rw [fsm_space_needed_to_cat, hstep, if_neg (by omega), if_neg (by omega)]
    dsimp only
    rw [if_neg hcat]
  · rw [fsm_space_avail_to_cat, hstep] at hle
    split at hle
    · omega
    · dsimp only at hle
      split at hle
      · omega
      · omega

/-! ### Truncation -/

section Truncation

variable {map : FsmMap}

/-- Bottom pages are stored in order. -/
theorem physical_bottom_lt_iff {p q : ℕ} (hp : p < 4069 ^ 2) (hq : q < 4069 ^ 2) :
    fsm_logical_to_physical ⟨0, p⟩ < fsm_logical_to_physical ⟨0, q⟩ ↔ p < q := by
  rw [physical_bottom hp, physical_bottom hq]
  omega

/-- The slots of a shorter file. -/
theorem slotValue_shorter {n : ℕ} (hn : n ≤ map.nblocks) (a : FSMAddress) (slot : ℕ) :
    slotValue { map with nblocks := n } a slot =
      if fsm_logical_to_physical a < n then slotValue map a slot else 0 := by
  split
  · rename_i hlt
    have hlt' : fsm_logical_to_physical a < map.nblocks := lt_of_lt_of_le hlt hn
    rw [slotValue_of_lt hlt']
    exact slotValue_of_lt hlt
  · rename_i hge
    exact slotValue_of_le (not_lt.mp hge)

/-- A shorter file is sound. -/
theorem FsmMap.Sound.shorter (h : map.Sound) {n : ℕ} (hn : n ≤ map.nblocks) :
    ({ map with nblocks := n } : FsmMap).Sound where
  notTorn blkno hlt := h.notTorn blkno (lt_of_lt_of_le hlt hn)
  beyond addr haddr slot hslot hblock := by
    rw [slotValue_shorter hn]
    split
    · exact h.beyond addr haddr slot hslot hblock
    · rfl

/-- The category of a block in a shorter file. -/
theorem recordedCat_shorter {n heapBlk p : ℕ} (hn : n ≤ map.nblocks)
    (hblk : heapBlk < InvalidBlockNumber)
    (hfile : ∀ q < 4069 ^ 2, fsm_logical_to_physical ⟨0, q⟩ < n ↔ q < p) :
    recordedCat { map with nblocks := n } heapBlk =
      if heapBlk / SlotsPerFSMPage < p then recordedCat map heapBlk else 0 := by
  have hq : heapBlk / SlotsPerFSMPage < 4069 ^ 2 := by
    rw [slots_eq]
    rw [InvalidBlockNumber] at hblk
    omega
  rw [recordedCat_eq, slotValue_shorter hn]
  exact if_congr (hfile _ hq) rfl rfl

/-- A page of which a part remains is the last one of the file. -/
theorem FsmMap.Sound.truncatePart (h : map.Sound) {nblocks p : ℕ}
    (hn : nblocks ≤ InvalidBlockNumber)
    (hp : p = fsm_logical_to_physical ⟨0, nblocks / 4069⟩) (hlt : p < map.nblocks) {map' : FsmMap}
    (hmap' : map' = map.write p (fsm_truncate_avail (map.page p) (nblocks % 4069)).2) :
    ({ map' with nblocks := p + 1 } : FsmMap).Sound ∧
      ∀ heapBlk < InvalidBlockNumber, recordedCat { map' with nblocks := p + 1 } heapBlk =
        if heapBlk < nblocks then recordedCat map heapBlk else 0 := by
  subst hp
  have haddr : (⟨0, nblocks / 4069⟩ : FSMAddress).Valid := (location_valid hn).1
  obtain ⟨htorn, hslots⟩ := (h.notTorn _ hlt).truncate_avail (nblocks % 4069)
  have hsound : map'.Sound := by
    rw [hmap']
    refine h.write haddr hlt htorn fun slot hslot hblock => ?_
    have hzero := h.beyond _ haddr slot hslot hblock
    rw [slotValue_of_lt hlt] at hzero
    rw [hslots slot hslot, hzero, ite_self]
  have hshort : fsm_logical_to_physical ⟨0, nblocks / 4069⟩ + 1 ≤ map'.nblocks := by
    rw [hmap', write_nblocks]
    exact hlt
  have hfile : ∀ q < 4069 ^ 2, fsm_logical_to_physical ⟨0, q⟩ <
      fsm_logical_to_physical ⟨0, nblocks / 4069⟩ + 1 ↔ q < nblocks / 4069 + 1 := by
    intro q hq
    rw [InvalidBlockNumber] at hn
    rw [physical_bottom hq, physical_bottom (by omega)]
    omega
  refine ⟨hsound.shorter hshort, fun heapBlk hblk => ?_⟩
  obtain ⟨haddr', hslot'⟩ := location_valid hblk.le
  rw [recordedCat_shorter hshort hblk hfile, recordedCat_eq, hmap',
    slotValue_write haddr haddr' hlt, hslots _ hslot', recordedCat_eq map, slots_eq]
  by_cases hpage : (fsm_get_location heapBlk).1 = ⟨0, nblocks / 4069⟩
  · -- on the page that is cleared in part
    have hq : heapBlk / 4069 = nblocks / 4069 := congrArg FSMAddress.logpageno hpage
    have hr : (fsm_get_location heapBlk).2 = heapBlk % 4069 := rfl
    rw [if_pos hpage, if_pos (by omega), hpage, slotValue_of_lt hlt, hr]
    by_cases hblk' : heapBlk < nblocks
    · rw [if_pos hblk', if_neg (by omega)]
    · rw [if_neg hblk', if_pos (by omega)]
  · have hq : heapBlk / 4069 ≠ nblocks / 4069 := by
      intro heq
      apply hpage
      rw [fsm_get_location, FSM_BOTTOM_LEVEL, slots_eq, heq]
    rw [if_neg hpage]
    exact if_congr (by omega) rfl rfl

/-- **A truncation** clears the categories of the blocks that are gone. -/
theorem truncateRel_spec (h : map.Sound) {nblocks : ℕ} (hn : nblocks ≤ InvalidBlockNumber) :
    (truncateRel map nblocks).Sound ∧
      ∀ heapBlk < InvalidBlockNumber, recordedCat (truncateRel map nblocks) heapBlk =
        if heapBlk < nblocks then recordedCat map heapBlk else 0 := by
  have hp : nblocks / 4069 < 4069 ^ 2 := by
    rw [InvalidBlockNumber] at hn
    omega
  -- a file that ends before the page of the first removed block has none of them
  have hmiss : map.nblocks ≤ fsm_logical_to_physical ⟨0, nblocks / 4069⟩ →
      ∀ heapBlk < InvalidBlockNumber, recordedCat map heapBlk =
        if heapBlk < nblocks then recordedCat map heapBlk else 0 := by
    intro hge heapBlk hblk
    split
    · rfl
    · refine slotValue_of_le (le_trans hge ?_)
      rw [InvalidBlockNumber] at hblk
      rw [fsm_get_location, FSM_BOTTOM_LEVEL, slots_eq, physical_bottom hp,
        physical_bottom (by omega)]
      omega
  rw [truncateRel, FreeSpaceMapPrepareTruncateRel, fsm_readbuf, fsm_get_location, FSM_BOTTOM_LEVEL,
    slots_eq]
  by_cases hpart : nblocks % 4069 > 0
  · rw [if_pos hpart]
    by_cases hge : fsm_logical_to_physical ⟨0, nblocks / 4069⟩ ≥ map.nblocks
    · rw [if_pos hge]
      exact ⟨h, hmiss hge⟩
    · rw [if_neg hge]
      exact h.truncatePart hn rfl (not_le.mp hge) rfl
  · rw [if_neg hpart]
    by_cases hge : map.nblocks ≤ fsm_logical_to_physical ⟨0, nblocks / 4069⟩
    · rw [if_pos hge]
      exact ⟨h, hmiss hge⟩
    · rw [if_neg hge]
      refine ⟨h.shorter (not_le.mp hge).le, fun heapBlk hblk => ?_⟩
      rw [recordedCat_shorter (not_le.mp hge).le hblk fun q hq => physical_bottom_lt_iff hq hp]
      refine if_congr ?_ rfl rfl
      rw [slots_eq]
      omega

end Truncation

/-! ### Runs -/

/-- A call of the interface: by an insertion, by vacuum, or when the relation is truncated. -/
inductive FsmEvent where
  | record (heapBlk spaceAvail : ℕ)
  | recordAndGet (oldPage oldSpaceAvail spaceNeeded : ℕ)
  | get (spaceNeeded : ℕ)
  | vacuumRange (start stop : ℕ)
  | vacuum
  | truncate (nblocks : ℕ)

/-- The map of a relation, and the space that was last recorded for each block. -/
structure FsmSystem where
  map : FsmMap
  recorded : ℕ → Option ℕ

/-- The blocks that are named exist. -/
def FsmEvent.Valid : FsmEvent → Prop
  | .record heapBlk _ => heapBlk < InvalidBlockNumber
  | .recordAndGet oldPage _ _ => oldPage < InvalidBlockNumber
  | .truncate nblocks => nblocks ≤ InvalidBlockNumber
  | _ => True

/-- One call; one that fails changes nothing. -/
def fsmStep (s : FsmSystem) : FsmEvent → FsmSystem
  | .record heapBlk spaceAvail =>
      ⟨RecordPageWithFreeSpace s.map heapBlk spaceAvail,
        update s.recorded heapBlk (some spaceAvail)⟩
  | .recordAndGet oldPage oldSpaceAvail spaceNeeded =>
      match RecordAndGetPageWithFreeSpace s.map oldPage oldSpaceAvail spaceNeeded with
      | .ok r => ⟨r.2, update s.recorded oldPage (some oldSpaceAvail)⟩
      | .error _ => s
  | .get spaceNeeded =>
      match GetPageWithFreeSpace s.map spaceNeeded with
      | .ok r => { s with map := r.2 }
      | .error _ => s
  | .vacuumRange start stop => { s with map := FreeSpaceMapVacuumRange s.map start stop }
  | .vacuum => { s with map := FreeSpaceMapVacuum s.map }
  | .truncate nblocks =>
      ⟨truncateRel s.map nblocks, fun b => if b < nblocks then s.recorded b else none⟩

/-- Calls, from an empty map. -/
def fsmRun (events : List FsmEvent) : FsmSystem := events.foldl fsmStep ⟨.empty, fun _ => none⟩

/-- **The map is sound and says what was recorded last.** -/
structure FsmInv (s : FsmSystem) : Prop where
  sound : s.map.Sound
  recorded : ∀ heapBlk < InvalidBlockNumber, recordedCat s.map heapBlk =
    ((s.recorded heapBlk).map fsm_space_avail_to_cat).getD 0

section Runs

variable {s : FsmSystem}

theorem FsmInv.sameBottom (h : FsmInv s) {map : FsmMap} (hsound : map.Sound)
    (hsame : SameBottom s.map map) : FsmInv { s with map := map } :=
  ⟨hsound, fun heapBlk hblk => by rw [hsame.recordedCat hblk.le]; exact h.recorded heapBlk hblk⟩

/-- A category is recorded. -/
theorem FsmInv.set (h : FsmInv s) {heapBlk : ℕ} (hblk : heapBlk < InvalidBlockNumber)
    (spaceAvail minValue : ℕ) :
    FsmInv ⟨(fsm_set_and_search s.map (fsm_get_location heapBlk).1 (fsm_get_location heapBlk).2
      (fsm_space_avail_to_cat spaceAvail) minValue).2,
      update s.recorded heapBlk (some spaceAvail)⟩ := by
  obtain ⟨haddr, hslot⟩ := location_valid hblk.le
  have hblock : slotBlock (fsm_get_location heapBlk).1 (fsm_get_location heapBlk).2 = heapBlk := by
    rw [slotBlock, fsm_get_location, FSM_BOTTOM_LEVEL]
    rw [pow_zero, mul_one, Nat.div_add_mod']
  obtain ⟨hsound, hvalue, -⟩ := setAndSearch_spec h.sound haddr hslot
    (fsm_space_avail_to_cat spaceAvail) minValue (by omega)
  refine ⟨hsound, fun b hb => ?_⟩
  obtain ⟨haddr', hslot'⟩ := location_valid hb.le
  rw [recordedCat_eq, hvalue _ haddr' _ hslot']
  dsimp only
  by_cases heq : b = heapBlk
  · rw [heq, if_pos ⟨rfl, rfl⟩, update_self]
    rfl
  · rw [update_of_ne heq, ← h.recorded b hb, if_neg]
    · rfl
    · rintro ⟨hpage, hslot⟩
      have hq : b / 4069 = heapBlk / 4069 := congrArg FSMAddress.logpageno hpage
      have hr : b % 4069 = heapBlk % 4069 := hslot
      omega

/-- No request has the lowest category. -/
theorem needed_pos {needed cat : ℕ} (h : fsm_space_needed_to_cat needed = .ok cat) : 0 < cat := by
  have hstep : FSM_CAT_STEP = 32 := by decide
  rw [fsm_space_needed_to_cat, hstep] at h
  split at h
  · cases h
  · split at h
    · obtain rfl := Except.ok.inj h
      decide
    · obtain rfl := Except.ok.inj h
      split
      · decide
      · omega

/-- **One call keeps the invariant.** -/
theorem FsmInv.step (h : FsmInv s) {e : FsmEvent} (he : e.Valid) : FsmInv (fsmStep s e) := by
  cases e with
  | record heapBlk spaceAvail => exact h.set he spaceAvail 0
  | recordAndGet oldPage oldSpaceAvail spaceNeeded =>
    cases hneed : fsm_space_needed_to_cat spaceNeeded with
    | error msg =>
      rw [fsmStep, RecordAndGetPageWithFreeSpace, hneed]
      exact h
    | ok cat =>
      have hset := h.set he oldSpaceAvail cat
      simp only [fsmStep, RecordAndGetPageWithFreeSpace, hneed, bind, Except.bind]
      generalize fsm_set_and_search s.map (fsm_get_location oldPage).1
        (fsm_get_location oldPage).2 (fsm_space_avail_to_cat oldSpaceAvail) cat = r at hset ⊢
      cases hslot : r.1 with
      | some search_slot => exact hset
      | none =>
        have hsea := (searchFrom_spec (needed_pos hneed) 0 hset.sound root_valid).1
        exact hset.sameBottom hsea.sound hsea.sameBottom
  | get spaceNeeded =>
    rw [fsmStep, GetPageWithFreeSpace]
    cases hneed : fsm_space_needed_to_cat spaceNeeded with
    | error msg => exact h
    | ok cat =>
      have hsea := (searchFrom_spec (needed_pos hneed) 0 h.sound root_valid).1
      exact h.sameBottom hsea.sound hsea.sameBottom
  | vacuumRange start stop =>
    obtain ⟨hsound, hsame⟩ := vacuumRange_spec h.sound start stop
    exact h.sameBottom hsound hsame
  | vacuum =>
    obtain ⟨hsound, hsame, -⟩ := vacuum_upToDate h.sound
    exact h.sameBottom hsound hsame
  | truncate nblocks =>
    obtain ⟨hsound, hcat⟩ := truncateRel_spec h.sound he
    refine ⟨hsound, fun heapBlk hblk => ?_⟩
    rw [fsmStep, hcat heapBlk hblk]
    dsimp only
    split
    · exact h.recorded heapBlk hblk
    · rfl

/-- **Any calls keep the invariant.** -/
theorem fsmRun_inv {events : List FsmEvent} (h : ∀ e ∈ events, e.Valid) :
    FsmInv (fsmRun events) := by
  have hstart : FsmInv ⟨.empty, fun _ => none⟩ := ⟨sound_empty, fun heapBlk _ => by
      rw [recordedCat_eq]
      exact slotValue_of_le (Nat.zero_le _)⟩
  have hrun : ∀ (events : List FsmEvent) (s : FsmSystem), FsmInv s → (∀ e ∈ events, e.Valid) →
      FsmInv (events.foldl fsmStep s) := by
    intro events
    induction events with
    | nil => exact fun s hs _ => hs
    | cons e events ih =>
      intro s hs hvalid
      exact ih _ (hs.step (hvalid e mem_cons_self))
        fun e' he' => hvalid e' (mem_cons_of_mem e he')
  exact hrun events _ hstart h

end Runs

/-- **The free space map finds space that is recorded and never overstates it.** After a vacuum of a
map without torn pages, every upper slot is the maximum of the categories below it, and a search
finds no block exactly if none has the category that the request needs, and otherwise one that has.
And after any calls of a single caller the map has no torn page, and each block that it returns was
last recorded with as much space as was requested. -/
theorem fsm_finds_recorded_space (s : ℕ) (hpos : 0 < s) (hmax : s ≤ MaxFSMRequestSize) :
    ∃ min_cat, fsm_space_needed_to_cat s = .ok min_cat ∧
    (∀ map : FsmMap, map.Sound → UpToDate (FreeSpaceMapVacuum map) ∧
      (∀ heapBlk < InvalidBlockNumber,
        recordedCat (FreeSpaceMapVacuum map) heapBlk = recordedCat map heapBlk) ∧
      ∃ blk map', GetPageWithFreeSpace (FreeSpaceMapVacuum map) s = .ok (blk, map') ∧
        (blk = InvalidBlockNumber ↔
          ∀ heapBlk < InvalidBlockNumber, recordedCat map heapBlk < min_cat) ∧
        (blk ≠ InvalidBlockNumber → blk < InvalidBlockNumber ∧ min_cat ≤ recordedCat map blk)) ∧
    ∀ events : List FsmEvent, (∀ e ∈ events, e.Valid) → (fsmRun events).map.Sound ∧
      ∀ blk map', GetPageWithFreeSpace (fsmRun events).map s = .ok (blk, map') →
        blk ≠ InvalidBlockNumber → ∃ f, (fsmRun events).recorded blk = some f ∧ s ≤ f := by
  obtain ⟨min_cat, hcat, hmin, henough⟩ := needed_to_cat hpos hmax
  refine ⟨min_cat, hcat, fun map hsound => ?_, fun events hevents => ?_⟩
  · obtain ⟨hsound', hsame, hup⟩ := vacuum_upToDate hsound
    obtain ⟨hnone, hfound⟩ := search_upToDate hmin hsound' hup
    have hrecd : ∀ heapBlk < InvalidBlockNumber,
        recordedCat (FreeSpaceMapVacuum map) heapBlk = recordedCat map heapBlk :=
      fun heapBlk hblk => hsame.recordedCat hblk.le
    refine ⟨hup, hrecd, (fsm_search (FreeSpaceMapVacuum map) min_cat).1,
      (fsm_search (FreeSpaceMapVacuum map) min_cat).2, ?_, ?_, ?_⟩
    · rw [GetPageWithFreeSpace, hcat]
      rfl
    · rw [hnone]
      refine forall₂_congr fun heapBlk hblk => ?_
      rw [hrecd heapBlk hblk]
    · intro hne
      obtain ⟨hlt, hle⟩ := hfound hne
      rw [hrecd _ hlt] at hle
      exact ⟨hlt, hle⟩
  · have hinv := fsmRun_inv hevents
    refine ⟨hinv.sound, fun blk map' hget hne => ?_⟩
    rw [GetPageWithFreeSpace, hcat] at hget
    have hsea := (searchFrom_spec hmin 0 hinv.sound root_valid).1
    have hres : fsm_search (fsmRun events).map min_cat = (blk, map') := Except.ok.inj hget
    rw [← fsm_search, hres] at hsea
    rcases hsea.enough with hinval | ⟨hlt, hle⟩
    · exact absurd hinval hne
    · rw [hinv.recorded blk hlt] at hle
      cases hf : (fsmRun events).recorded blk with
      | none =>
        rw [hf] at hle
        exact absurd hle (not_le.mpr hmin)
      | some f =>
        rw [hf] at hle
        exact ⟨f, rfl, henough f hle⟩

/-- Block 5 was recorded with 2000 bytes, and is found for a request of 1000 bytes. -/
theorem fsm_finds_recorded_space_five : ∃ map', GetPageWithFreeSpace
    (fsmRun [.record 5 2000, .vacuum]).map 1000 = .ok (5, map') := by
  obtain ⟨min_cat, hcat, hvacuum, hruns⟩ := fsm_finds_recorded_space 1000 (by decide) (by decide)
  have hrecord : ∀ e ∈ [FsmEvent.record 5 2000], e.Valid := by
    intro e he
    rw [mem_singleton.mp he]
    exact (by decide : 5 < InvalidBlockNumber)
  have hboth : ∀ e ∈ [FsmEvent.record 5 2000, .vacuum], e.Valid := forall_mem_cons.mpr
    ⟨(by decide : 5 < InvalidBlockNumber), forall_mem_singleton.mpr trivial⟩
  have hinv := fsmRun_inv hrecord
  obtain ⟨-, -, blk, map', hget, hnone, -⟩ := hvacuum _ hinv.sound
  have hfive : recordedCat (fsmRun [.record 5 2000]).map 5 = 62 := hinv.recorded 5 (by decide)
  have hmin : min_cat = 32 := (Except.ok.inj hcat).symm
  have hne : blk ≠ InvalidBlockNumber := by
    intro hblk
    have hlt := hnone.mp hblk 5 (by decide)
    omega
  have hmap : FreeSpaceMapVacuum (fsmRun [.record 5 2000]).map =
      (fsmRun [.record 5 2000, .vacuum]).map := by
    simp only [fsmRun, foldl_cons, foldl_nil, fsmStep]
  rw [hmap] at hget
  obtain ⟨f, hf, -⟩ := (hruns [.record 5 2000, .vacuum] hboth).2 blk map' hget hne
  have hblk : blk = 5 := by
    by_contra hother
    have hunrec : (fsmRun [.record 5 2000, .vacuum]).recorded blk = none :=
      update_of_ne hother _ _
    rw [hunrec] at hf
    cases hf
  rw [hblk] at hget
  exact ⟨map', hget⟩

end FdPostgres
