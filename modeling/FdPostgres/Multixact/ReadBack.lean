import FdPostgres.Multixact.Members
import FdPostgres.Multixact.Offsets

/-!
# Members are Read Back as Written

The members of a multixact are those between its start and the start of the next one, or the next
offset when it is the last one. While multixacts are created, limited and removed, a multixact that
is kept and recorded is read back exactly, if the one after it is recorded as well.

* `ReadsBack`: what the reader returns.
* `OffsetsInv`, `MembersInv`, `ReadInv`: the entries, the slots, and both with the limits.
* `ReadInv.readsBack`: the invariant makes members readable.
* `ReadInv.handOut_ok`, `ReadInv.handOut_error`, `ReadInv.record`, `ReadInv.setIdLimit`,
  `ReadInv.truncate`: what each kind of step keeps. A reservation that is refused while the counter
  of the ids is at zero does not keep it.
-/

namespace FdPostgres

open WrapCounter List Option

/-! ### The property -/

/-- One more than the members that fit in memory that is allocated at once: less than a gigabyte of
eight bytes each. -/
def memberArrayLimit : ℕ := 2 ^ 30 / 8

/-- Members that can be recorded: some transactions, all valid, that fit in memory. -/
structure ValidMembers (members : List MultiXactMember) : Prop where
  nonempty : members ≠ []
  small : members.length < memberArrayLimit
  valid : ∀ m ∈ members, m.xid ≠ InvalidTransactionId

instance (members : List MultiXactMember) : Decidable (ValidMembers members) :=
  decidable_of_iff (members ≠ [] ∧ members.length < memberArrayLimit ∧
      ∀ m ∈ members, m.xid ≠ InvalidTransactionId)
    ⟨fun h => ⟨h.1, h.2.1, h.2.2⟩, fun h => ⟨h.nonempty, h.small, h.valid⟩⟩

/-- **Members are read back as written**: of every multixact that is recorded and not older than the
oldest one, if the one after it is recorded as well or not yet allocated. -/
def ReadsBack (s : MxSystem) : Prop :=
  ∀ i c, s.oldest ≤ i → s.log[i]? = some c → c.recorded = true →
    (∀ c', s.log[i + 1]? = some c' → c'.recorded = true) →
    GetMultiXactIdMembers s.mx c.alloc.multi = .members (c.members.map MultiXactMember.raw)

/-- The state before the first step: the limits were set for an id from which the next one is within
them, and the entry of the next id is there unless its page is to be zeroed. -/
structure ReadStart (env : MultiXactEnv) (s : MxSystem) : Prop where
  space : SpaceStart s
  limits : ∃ o, (0 < o ∧ o < 2 ^ 32) ∧ IdLimits env s.mx.state o ∧
    Word32.sub s.mx.state.nextMXact o ≤ idRoom
  entry : ¬ FirstOnPage s.mx.state.nextMXact → offsetEntry s.mx.offsets s.mx.state.nextMXact ≠ none

/-! ### The invariants -/

/-- The entries of the positions in use. -/
structure OffsetsInv (r : ℕ) (s : MxSystem) : Prop where
  entries : ∀ i c, s.oldest ≤ i → s.log[i]? = some c →
    ∃ o, offsetEntry s.mx.offsets (nth (r + i)) = some o ∧ (c.recorded = true → o = c.alloc.offset)
  next : ¬ FirstOnPage (nth (r + s.log.length)) →
    offsetEntry s.mx.offsets (nth (r + s.log.length)) ≠ none

/-- The slots of the positions in use; slot zero is empty if it was skipped. -/
structure MembersInv (w : ℕ) (s : MxSystem) : Prop where
  stored : ∀ i c, s.oldest ≤ i → s.log[i]? = some c → c.recorded = true →
    ∀ x m, c.members[x]? = some m →
      memberAt s.mx.members ((c.alloc.offset + x) % 2 ^ 32) = some m.raw
  holes : ∀ i, s.oldest ≤ i → i < s.log.length → slotAt w s.allocs i % 2 ^ 32 = 0 →
    ∃ status, memberAt s.mx.members 0 = some (0, status)

/-- What is known of a creation: its number of members, and that they are valid. -/
structure CreationOk (c : Creation) : Prop where
  nmembers : c.alloc.nmembers = c.members.length
  members : ValidMembers c.members

/-- The invariant of the runs, while a number of backends that have passed the check of the limits
have not taken their ids. -/
structure ReadInv (env : MultiXactEnv) (r w n : ℕ) (s : MxSystem) : Prop where
  space : SpaceInv r w s
  creations : ∀ c ∈ s.log, CreationOk c
  room : IdRoom env r n s
  /-- The counter is one past the last id. -/
  counter : ∀ i c, s.log[i]? = some c → i + 1 = s.log.length →
    s.mx.state.nextMXact = (c.alloc.multi + 1) % 2 ^ 32
  offsets : OffsetsInv r s
  members : MembersInv w s

/-- The number of backends matters for the room of the ids only. -/
theorem ReadInv.withRoom {env : MultiXactEnv} {r w n n' : ℕ} {s : MxSystem}
    (h : ReadInv env r w n s) (hroom : IdRoom env r n' s) : ReadInv env r w n' s :=
  ⟨h.space, h.creations, hroom, h.counter, h.offsets, h.members⟩

/-- An entry of a longer list. -/
theorem getElem?_concat_cases {α : Type*} {l : List α} {a b : α} {i : ℕ}
    (h : (l ++ [a])[i]? = some b) : i < l.length ∧ l[i]? = some b ∨ i = l.length ∧ b = a := by
  rcases lt_or_ge i l.length with hlt | hge
  · rw [getElem?_append_left hlt] at h
    exact .inl ⟨hlt, h⟩
  · rw [getElem?_append_right hge, getElem?_singleton, ite_none_right_eq_some] at h
    exact .inr ⟨by omega, (some.inj h.2).symm⟩

section Frames

variable {r w : ℕ} {s s' : MxSystem}

/-- The entries in use are all that matters. -/
theorem OffsetsInv.frame (h : OffsetsInv r s) (hlog : s'.log = s.log) (hle : s.oldest ≤ s'.oldest)
    (hkept : ∀ t, s'.oldest ≤ t → t < s.log.length →
      offsetEntry s'.mx.offsets (nth (r + t)) = offsetEntry s.mx.offsets (nth (r + t)))
    (hnext : ¬ FirstOnPage (nth (r + s.log.length)) →
      offsetEntry s'.mx.offsets (nth (r + s.log.length)) ≠ none) : OffsetsInv r s' := by
  constructor
  · intro i c hi hget
    rw [hlog] at hget
    rw [hkept i hi (List.getElem?_eq_some_iff.mp hget).1]
    exact h.entries i c (le_trans hle hi) hget
  · rw [hlog]
    exact hnext

/-- The first slot of a position. -/
theorem SpaceInv.slotAt_lt (h : SpaceInv r w s) {i : ℕ} (hi : i < s.log.length) :
    slotAt w s.allocs i < slotAt w s.allocs s.log.length := by
  have hle := h.ledger.add_le_slotAt h.nonempty (hi.le)
    (le_of_eq s.length_allocs.symm)
  omega

/-- The slots in use are all that matters. -/
theorem MembersInv.frame (h : MembersInv w s) (hspace : SpaceInv r w s)
    (hcreations : ∀ c ∈ s.log, CreationOk c) (hlog : s'.log = s.log) (hle : s.oldest ≤ s'.oldest)
    (hkept : ∀ X, slotAt w s.allocs s'.oldest ≤ X → X < slotAt w s.allocs s.log.length →
      memberAt s'.mx.members (X % 2 ^ 32) = memberAt s.mx.members (X % 2 ^ 32)) :
    MembersInv w s' := by
  have halloc : s'.allocs = s.allocs := by
    rw [MxSystem.allocs, hlog]
    rfl
  constructor
  · intro i c hi hget hrec x m hx
    rw [hlog] at hget
    have hmem : c ∈ s.log.drop s'.oldest := mem_iff_getElem?.mpr ⟨i - s'.oldest, by
        rw [getElem?_drop, Nat.add_sub_cancel' hi]
        exact hget⟩
    have hlt : x < c.alloc.nmembers := by
      rw [(hcreations c (mem_of_getElem? hget)).nmembers]
      exact (List.getElem?_eq_some_iff.mp hx).1
    obtain ⟨X, hX, hlow, hhigh⟩ := hspace.slot_of_mem hmem hlt
    rw [hX, hkept X hlow hhigh, ← hX]
    exact h.stored i c (le_trans hle hi) hget hrec x m hx
  · intro i hi hlt hzero
    rw [hlog] at hlt
    rw [halloc] at hzero
    have hslot := hkept (slotAt w s.allocs i) (slotAt_mono hi) (hspace.slotAt_lt hlt)
    rw [hzero] at hslot
    rw [hslot]
    exact h.holes i (le_trans hle hi) hlt hzero

end Frames

/-! ### Reading -/

section Reading

variable {env : MultiXactEnv} {r w n : ℕ} {s : MxSystem} {i : ℕ}

/-- **An id in use is not before the oldest one, and before the counter.** -/
theorem ReadInv.precedes (h : ReadInv env r w n s) (hi : s.oldest ≤ i) (hlt : i < s.log.length) :
    MultiXactIdPrecedes (nth (r + i)) s.mx.state.oldestMultiXactId = false ∧
      MultiXactIdPrecedes (nth (r + i)) s.mx.state.nextMXact = true := by
  have hroom := h.room.length_le
  rw [idSpan_eq] at hroom
  constructor
  · obtain ⟨d, rfl⟩ : ∃ d, i = s.oldest + d := ⟨i - s.oldest, by omega⟩
    obtain ⟨e, hlow, hhigh, hzero, hid⟩ := nth_add (r + s.oldest) (d := d) (by omega)
    rw [← Bool.not_eq_true, MultiXactIdPrecedes, Word32.precedes_iff, h.space.oldestMulti,
      ← add_assoc, hid]
    generalize nth (r + s.oldest) = a
    have hsub : Word32.sub a ((a + e) % 2 ^ 32) = 0 ∨ 2 ^ 31 < Word32.sub a ((a + e) % 2 ^ 32) := by
      simp only [Word32.sub]
      omega
    omega
  · obtain ⟨d, hd⟩ : ∃ d, s.log.length = i + d := ⟨s.log.length - i, by omega⟩
    obtain ⟨e, hlow, hhigh, -, hid⟩ := nth_add (r + i) (d := d) (by omega)
    have hnext := h.space.counters.nextMXact
    rw [MxSystem.length_allocs, hd, ← add_assoc, hid] at hnext
    rw [MultiXactIdPrecedes, Word32.precedes_iff]
    have hpos := nth_pos (r + i)
    have hword := nth_lt (r + i)
    generalize nth (r + i) = a at hpos hword hnext
    generalize s.mx.state.nextMXact = b at hnext
    -- the counter is the next id, or zero when the next id is one
    have hb : b = (a + e) % 2 ^ 32 ∨ b = 0 ∧ (a + e) % 2 ^ 32 = 1 := by
      rw [skip] at hnext
      by_cases hzero : b = 0
      · rw [if_pos hzero] at hnext
        exact .inr ⟨hzero, hnext.symm⟩
      · rw [if_neg hzero] at hnext
        exact .inl hnext
    have hsub : Word32.sub b a = e ∨ Word32.sub b a = e - 1 ∧ 2 ≤ e := by
      rcases hb with hb | ⟨hb, hone⟩
      · simp only [Word32.sub]
        omega
      · simp only [Word32.sub]
        omega
    omega

/-- The length between two offsets. -/
theorem readRange_eq {ctl : Slru} {v n : ℕ} {l : List (ℕ × ℕ)} (hlen : l.length < 2 ^ 31)
    (hread : readMembers ctl (v % 2 ^ 32) l.length = .ok (l.filter fun u => u.1 ≠ 0))
    (hn : n = v + l.length) :
    readRange ctl (v % 2 ^ 32) (n % 2 ^ 32) = .members (l.filter fun u => u.1 ≠ 0) := by
  have hsub : Word32.sub (n % 2 ^ 32) (v % 2 ^ 32) = l.length := by
    simp only [Word32.sub]
    omega
  have hint : (Word32.toInt l.length).toNat = l.length := by
    rw [Word32.toInt, if_pos hlen]
    rfl
  rw [readRange, hsub, hint, hread]

/-- Valid members are all kept. -/
theorem CreationOk.filter_raw {c : Creation} (h : CreationOk c) :
    (c.members.map MultiXactMember.raw).filter (fun u => u.1 ≠ 0) =
      c.members.map MultiXactMember.raw := by
  rw [filter_eq_self]
  intro u hu
  obtain ⟨m, hm, rfl⟩ := mem_map.mp hu
  exact decide_eq_true (h.members.valid m hm)

theorem CreationOk.lt_half {c : Creation} (h : CreationOk c) : c.members.length + 1 < 2 ^ 31 :=
  lt_of_le_of_lt h.members.small (by decide)

section Recorded

variable (h : ReadInv env r w n s) {c : Creation} (hi : s.oldest ≤ i) (hget : s.log[i]? = some c)
  (hrec : c.recorded = true)

include h hi hget hrec

/-- A recorded creation is stored from its start on. -/
theorem ReadInv.stored_raw {v : ℕ} (hoff : c.alloc.offset = v % 2 ^ 32) (x : ℕ) (u : ℕ × ℕ)
    (hx : (c.members.map MultiXactMember.raw)[x]? = some u) :
    memberAt s.mx.members ((v % 2 ^ 32 + x) % 2 ^ 32) = some u := by
  rw [getElem?_map, map_eq_some_iff] at hx
  obtain ⟨m, hm, rfl⟩ := hx
  rw [← hoff]
  exact h.members.stored i c hi hget hrec x m hm

/-- **The members of the last multixact** are read up to the next offset. -/
theorem ReadInv.readRange_last (hlast : i + 1 = s.log.length) :
    readRange s.mx.members c.alloc.offset s.mx.state.nextOffset =
      .members (c.members.map MultiXactMember.raw) := by
  have hok := h.creations c (mem_of_getElem? hget)
  have halloc := MxSystem.allocs_get hget
  obtain ⟨v, -, hoff, hend⟩ := (h.space.ledger.get halloc).2.exists_start
  have hsmall := hok.lt_half
  have hnext : s.mx.state.nextOffset =
      (v + (c.members.map MultiXactMember.raw).length) % 2 ^ 32 := by
    rw [h.space.counters.nextOffset, ← slotAt_length, MxSystem.length_allocs, ← hlast,
      slotAt_succ halloc, ← hend, hok.nmembers, length_map]
  have hread := readMembers_ok (c.members.map MultiXactMember.raw) s.mx.members
    (Nat.mod_lt v (Nat.two_pow_pos 32)) (h.stored_raw hi hget hrec hoff)
  rw [hoff, hnext, readRange_eq (by rw [length_map]; omega) hread rfl, hok.filter_raw]

/-- **The members of a multixact before another one** are read up to its start; slot zero may be
in between. -/
theorem ReadInv.readRange_next {c' : Creation} (hget' : s.log[i + 1]? = some c') :
    readRange s.mx.members c.alloc.offset c'.alloc.offset =
      .members (c.members.map MultiXactMember.raw) := by
  have hok := h.creations c (mem_of_getElem? hget)
  have halloc := MxSystem.allocs_get hget
  have halloc' := MxSystem.allocs_get hget'
  obtain ⟨v, -, hoff, hend⟩ := (h.space.ledger.get halloc).2.exists_start
  have hstart := (h.space.ledger.get halloc').2.offset
  rw [slotAt_succ halloc, ← hend, hok.nmembers, startOffset] at hstart
  have hsmall := hok.lt_half
  have hstor := h.stored_raw hi hget hrec hoff
  by_cases hzero : (v + c.members.length) % 2 ^ 32 = 0
  · -- the next multixact starts past slot zero, which is read as well and holds no transaction
    rw [if_pos hzero] at hstart
    obtain ⟨status, hhole⟩ := h.members.holes (i + 1) (by omega)
      (List.getElem?_eq_some_iff.mp hget').1
      (by rw [slotAt_succ halloc, ← hend, hok.nmembers]; exact hzero)
    have hread := readMembers_ok (c.members.map MultiXactMember.raw ++ [(0, status)]) s.mx.members
      (Nat.mod_lt v (Nat.two_pow_pos 32)) (fun x u hx => by
        rcases getElem?_concat_cases hx with ⟨-, hx⟩ | ⟨rfl, rfl⟩
        · exact hstor x u hx
        · rw [length_map, Nat.mod_add_mod, hzero]
          exact hhole)
    have hlen : (c.members.map MultiXactMember.raw ++ [(0, status)]).length =
        c.members.length + 1 := by
      rw [length_append, length_map, length_singleton]
    have hfilt : (c.members.map MultiXactMember.raw ++ [(0, status)]).filter (fun u => u.1 ≠ 0) =
        c.members.map MultiXactMember.raw := by
      rw [filter_append, hok.filter_raw, filter_cons_of_neg (by simp), filter_nil, append_nil]
    have hone : c'.alloc.offset = (v + (c.members.length + 1)) % 2 ^ 32 := by omega
    rw [hoff, hone, readRange_eq (by rw [hlen]; omega) hread (by rw [hlen]), hfilt]
  · rw [if_neg hzero] at hstart
    have hread := readMembers_ok (c.members.map MultiXactMember.raw) s.mx.members
      (Nat.mod_lt v (Nat.two_pow_pos 32)) hstor
    rw [hoff, hstart, readRange_eq (by rw [length_map]; omega) hread
      (by rw [length_map]), hok.filter_raw]

end Recorded

/-- **The invariant makes members readable.** -/
theorem ReadInv.readsBack (h : ReadInv env r w n s) : ReadsBack s := by
  intro i c hi hget hrec hsucc
  have hlt := (List.getElem?_eq_some_iff.mp hget).1
  have hid := (h.space.ledger.get (MxSystem.allocs_get hget)).1
  obtain ⟨hold, hnew⟩ := h.precedes hi hlt
  obtain ⟨o, hentry, ho⟩ := h.offsets.entries i c hi hget
  obtain rfl := ho hrec
  rw [GetMultiXactIdMembers]
  simp only [hid, hold, hnew, hentry, Bool.false_eq_true]
  by_cases hlast : i + 1 = s.log.length
  · have hctr := h.counter i c hget hlast
    rw [hid] at hctr
    rw [if_pos hctr]
    exact h.readRange_last hi hget hrec hlast
  · obtain ⟨c', hget'⟩ : ∃ c', s.log[i + 1]? = some c' := ⟨_, getElem?_eq_getElem (by omega)⟩
    have hskip : (if (nth (r + i) + 1) % 2 ^ 32 < FirstMultiXactId then FirstMultiXactId
        else (nth (r + i) + 1) % 2 ^ 32) = nth (r + (i + 1)) := by
      rw [← add_assoc, ← skip_succ, skip, FirstMultiXactId]
      by_cases hzero : (nth (r + i) + 1) % 2 ^ 32 = 0
      · rw [if_pos hzero, if_pos (by omega)]
      · rw [if_neg hzero, if_neg (by omega)]
    have hne : s.mx.state.nextMXact ≠ (nth (r + i) + 1) % 2 ^ 32 := by
      intro heq
      have hnext := h.space.counters.nextMXact
      rw [heq, skip_succ, MxSystem.length_allocs, add_assoc] at hnext
      have hpositions := h.space.positions_lt
      exact nth_ne_nth (by omega) (by omega) hnext
    obtain ⟨o', hentry', ho'⟩ := h.offsets.entries (i + 1) c' (by omega) hget'
    obtain rfl := ho' (hsucc c' hget')
    have hnonzero := (h.space.ledger.get (MxSystem.allocs_get hget')).2.offset_ne_zero
    rw [if_neg hne, hskip, hentry']
    dsimp only
    rw [if_neg hnonzero]
    exact h.readRange_next hi hget hrec hget'

end Reading

/-! ### Allocation -/

section Allocate

variable {env : MultiXactEnv} {r w n : ℕ} {s : MxSystem} {nmembers : ℕ} {a : NewMultiXact}
  {mx' mx : Multixact}

/-- The offsets area after a reservation, refused or not. -/
theorem reserve_offsets {result : ℕ} {res : Except MultiXactError NewMultiXact}
    (h : reserve mx result nmembers = (res, mx')) :
    mx'.offsets = ExtendMultiXactOffset mx.offsets result := by
  simp only [reserve] at h
  split at h
  · rw [← (Prod.mk.inj h).2]
  · rw [← (Prod.mk.inj h).2]

/-- What an allocation does to the ids. -/
theorem SpaceInv.reserveNext_ids (h : SpaceInv r w s)
    (hresv : reserveNext s.mx nmembers = (.ok a, mx')) :
    a.multi = nth (r + s.log.length) ∧
      mx'.offsets = ExtendMultiXactOffset s.mx.offsets (nth (r + s.log.length)) ∧
      mx'.state.nextMXact = (nth (r + s.log.length) + 1) % 2 ^ 32 ∧
      mx'.state.multiVacLimit = s.mx.state.multiVacLimit ∧
      mx'.state.multiStopLimit = s.mx.state.multiStopLimit := by
  have hnext : (fixNextMXact s.mx.state).nextMXact = nth (r + s.log.length) := by
    rw [h.counters.fix.2, MxSystem.length_allocs]
  obtain ⟨rfl, hstate⟩ := reserve_ok hresv
  refine ⟨hnext, ?_, ?_, ?_, ?_⟩
  · rw [reserve_offsets hresv, hnext]
  · rw [hstate, hnext]
  · rw [hstate, fixNextMXact_eq]
  · rw [hstate, fixNextMXact_eq]

section Kept

variable (h : SpaceInv r w s) (hsmall : nmembers < 2 ^ 31)
  (hresv : reserveNext s.mx nmembers = (.ok a, mx')) {X : ℕ}
  (hlow : slotAt w s.allocs s.oldest ≤ X) (hhigh : X < slotAt w s.allocs s.log.length)

include h hsmall hresv hlow hhigh

/-- **No page with a slot in use is entered by an allocation.** -/
theorem SpaceInv.not_startsIn :
    ¬ StartsIn (slotAt w s.allocs s.log.length) a.slots (slotPage X) := by
  rintro ⟨Y, hle, hlt, hfirst, hpage⟩
  obtain ⟨-, -, hroom, -⟩ := h.reserveNext_ok hsmall hresv
  obtain ⟨L, hL, hstop, hLlt⟩ := h.limit
  have hend := hroom L (le_trans hL (slotAt_mono h.oldest_le)) hstop hLlt
  have hround := stopSlot_le L
  rw [FirstOfPage, membersPerPage_eq] at hfirst
  simp only [slotPage, MXOffsetToMemberPage, membersPerPage_eq] at hpage
  -- the slot in use is on the page after its first slot, but it comes a round earlier
  omega

/-- The slots in use are left by an allocation. -/
theorem SpaceInv.memberAt_kept :
    memberAt mx'.members (X % 2 ^ 32) = memberAt s.mx.members (X % 2 ^ 32) := by
  obtain ⟨-, -, -, hmems⟩ := h.reserveNext_ok hsmall hresv
  rw [hmems]
  exact memberAt_congr (extendMember_other (h.not_startsIn hsmall hresv hlow hhigh))

end Kept

/-- A slot zero that is skipped is empty. -/
theorem SpaceInv.hole (h : SpaceInv r w s) (hpos : 0 < nmembers) (hsmall : nmembers < 2 ^ 31)
    (hresv : reserveNext s.mx nmembers = (.ok a, mx'))
    (hzero : slotAt w s.allocs s.log.length % 2 ^ 32 = 0) :
    ∃ status, memberAt mx'.members 0 = some (0, status) := by
  obtain ⟨-, hslots, -, hmems⟩ := h.reserveNext_ok hsmall hresv
  have hle := (slotsTaken_le (slotAt w s.allocs s.log.length % 2 ^ 32) nmembers).1
  have hin : StartsIn (slotAt w s.allocs s.log.length) a.slots (MXOffsetToMemberPage 0) := by
    refine ⟨_, le_rfl, by omega, ?_, ?_⟩
    · rw [FirstOfPage, hzero]
      rfl
    · rw [slotPage, hzero]
  refine ⟨0, ?_⟩
  rw [memberAt, hmems, extendMember_first hin]
  rfl

/-- The entries with another position. -/
theorem OffsetsInv.append (h : OffsetsInv r s) {c : Creation} (hc : c.recorded = false)
    (hentry : offsetEntry s.mx.offsets (nth (r + s.log.length)) ≠ none) :
    OffsetsInv r { s with log := s.log ++ [c] } := by
  constructor
  · intro i c' hi hget
    rcases getElem?_concat_cases hget with ⟨-, hget⟩ | ⟨rfl, rfl⟩
    · exact h.entries i c' hi hget
    · obtain ⟨o, ho⟩ := ne_none_iff_exists'.mp hentry
      refine ⟨o, ho, fun hrec => ?_⟩
      rw [hc] at hrec
      cases hrec
  · intro hfirst
    rw [length_append] at hfirst ⊢
    exact offsetEntry_succ hentry hfirst

/-- The slots with another position. -/
theorem MembersInv.append (h : MembersInv w s) {c : Creation} (hc : c.recorded = false)
    (hhole : slotAt w s.allocs s.log.length % 2 ^ 32 = 0 →
      ∃ status, memberAt s.mx.members 0 = some (0, status)) :
    MembersInv w { s with log := s.log ++ [c] } := by
  constructor
  · intro i c' hi hget hrec x m hx
    rcases getElem?_concat_cases hget with ⟨-, hget⟩ | ⟨rfl, rfl⟩
    · exact h.stored i c' hi hget hrec x m hx
    · rw [hc] at hrec
      cases hrec
  · intro i hi hlt hzero
    rw [length_append, length_singleton] at hlt
    have hslot : slotAt w (MxSystem.allocs { s with log := s.log ++ [c] }) i =
        slotAt w s.allocs i := by
      rw [MxSystem.allocs, map_append]
      exact slotAt_append (by rw [length_map]; omega) _
    rw [hslot] at hzero
    rcases lt_or_ge i s.log.length with hlt' | hge
    · exact h.holes i hi hlt' hzero
    · obtain rfl : i = s.log.length := by omega
      exact hhole hzero

/-- **A reservation that is not refused keeps the invariant**, if there is room for the ids of
those that have passed the check. -/
theorem ReadInv.handOut_ok (h : ReadInv env r w n s) {members : List MultiXactMember}
    (hvalid : ValidMembers members) {n' : ℕ}
    (hspan : ∃ l ≤ r + s.oldest, IdLimits env s.mx.state (nth l) ∧
      r + s.log.length + 1 + n' ≤ l + idSpan)
    (hresv : reserveNext s.mx members.length = (.ok a, mx')) :
    ReadInv env r w n' (s.handOut members (.ok a, mx')) := by
  have hlimit : memberArrayLimit = 134217728 := rfl
  have hsmall := hvalid.small
  have hword : members.length < 2 ^ 31 := by omega
  have hpos : 0 < members.length := length_pos_iff.mpr hvalid.nonempty
  have hroom := h.room.length_le
  obtain ⟨hmulti, hoffs, hnext, hvac, hstop⟩ := h.space.reserveNext_ids hresv
  have hnew : offsetEntry mx'.offsets (nth (r + s.log.length)) ≠ none := by
    rw [hoffs]
    exact extendOffset_ne_none h.offsets.next
  have hent : OffsetsInv r { s with mx := mx' } := by
    refine h.offsets.frame rfl le_rfl (fun t ht hlt => ?_) (fun _ => hnew)
    rw [hoffs]
    exact extendOffset_kept hlt (le_trans hroom (Nat.add_le_add_right ht _))
  have hslots : MembersInv w { s with mx := mx' } := h.members.frame h.space h.creations rfl le_rfl
      (fun X hlow hhigh => h.space.memberAt_kept hword hresv hlow hhigh)
  rw [MxSystem.handOut]
  constructor
  case space => exact h.space.allocate_ok members hvalid.nonempty hword hresv
  case creations =>
    intro c hc
    rw [mem_append, mem_singleton] at hc
    rcases hc with hc | rfl
    · exact h.creations c hc
    · exact ⟨rfl, hvalid⟩
  case room =>
    obtain ⟨l, hl, hlims, hlen⟩ := hspan
    refine ⟨l, hl, ⟨hvac.trans hlims.vac, hstop.trans hlims.stop⟩, ?_⟩
    rw [length_append]
    exact hlen
  case counter =>
    intro i c hget hlast
    rw [length_append, length_singleton] at hlast
    rcases getElem?_concat_cases hget with ⟨hlt, -⟩ | ⟨-, rfl⟩
    · omega
    · rw [hmulti, hnext]
  case offsets => exact hent.append rfl hnew
  case members => exact hslots.append rfl (fun hzero => h.space.hole hpos hword hresv hzero)

/-- **A refused reservation keeps the invariant**, if the counter is not at zero. -/
theorem ReadInv.handOut_error (h : ReadInv env r w n s) {members : List MultiXactMember}
    {e : MultiXactError} (hctr : s.mx.state.nextMXact ≠ 0)
    (hresv : reserveNext s.mx members.length = (.error e, mx')) :
    ReadInv env r w n (s.handOut members (.error e, mx')) := by
  have hroom := h.room.length_le
  have hoffs := reserve_offsets hresv
  obtain ⟨hstate, hmems⟩ := reserve_error hresv
  rw [h.space.counters.fix.2, MxSystem.length_allocs] at hoffs
  rw [fixNextMXact_of_ne hctr] at hstate
  rw [MxSystem.handOut]
  constructor
  case space => exact h.space.fixed (reserve_error hresv).1 hmems
  case creations => exact h.creations
  case room =>
    obtain ⟨l, hl, hlims, hlen⟩ := h.room
    refine ⟨l, hl, ?_, hlen⟩
    rw [hstate]
    exact hlims
  case counter =>
    rw [hstate]
    exact h.counter
  case offsets =>
    refine h.offsets.frame rfl le_rfl (fun t ht hlt => ?_) (fun hfirst => ?_)
    · rw [hoffs]
      exact extendOffset_kept hlt (le_trans hroom (Nat.add_le_add_right ht _))
    · rw [hoffs]
      exact extendOffset_ne_none h.offsets.next
  case members =>
    refine h.members.frame h.space h.creations rfl le_rfl (fun X _ _ => ?_)
    rw [hmems]

end Allocate

/-! ### Recording -/

section Record

variable {env : MultiXactEnv} {r w n : ℕ} {s : MxSystem} {i : ℕ} {c : Creation}

/-- Slots in use are different as words. -/
theorem SpaceInv.slot_ne (h : SpaceInv r w s) {X Y : ℕ} (hXY : X < Y)
    (hX : slotAt w s.allocs s.oldest ≤ X) (hY : Y < slotAt w s.allocs s.log.length) :
    X % 2 ^ 32 ≠ Y % 2 ^ 32 := by
  have hlt := h.lt_stopSlot le_rfl
  have hstop := stopSlot_le (slotAt w s.allocs s.oldest)
  omega

/-- The slots of a creation, not wrapped around, from its start on. -/
theorem SpaceInv.exists_slots (h : SpaceInv r w s) (hget : s.log[i]? = some c) :
    ∃ v, slotAt w s.allocs i ≤ v ∧ c.alloc.offset = v % 2 ^ 32 ∧
      v + c.alloc.nmembers = slotAt w s.allocs (i + 1) ∧
      (slotAt w s.allocs i % 2 ^ 32 = 0 → v = slotAt w s.allocs i + 1) := by
  have halloc := MxSystem.allocs_get hget
  have hat := (h.ledger.get halloc).2
  rw [slotAt_succ halloc, hat.offset, hat.slots, startOffset, slotsTaken]
  by_cases hzero : slotAt w s.allocs i % 2 ^ 32 = 0
  · rw [if_pos hzero, if_pos hzero]
    exact ⟨slotAt w s.allocs i + 1, by omega, by omega, by omega, fun _ => rfl⟩
  · rw [if_neg hzero, if_neg hzero]
    exact ⟨slotAt w s.allocs i, le_rfl, rfl, rfl, fun h => absurd h hzero⟩

/-- **Recording a creation in use succeeds**: its entry and its slots are written, and no other
slot or entry. -/
theorem ReadInv.recordNewMultiXact (h : ReadInv env r w n s) (hi : s.oldest ≤ i)
    (hget : s.log[i]? = some c) :
    ∃ mx', RecordNewMultiXact s.mx c.alloc.multi c.alloc.offset c.members = (.ok (), mx') ∧
      mx'.state = s.mx.state ∧ (∀ multi, offsetEntry mx'.offsets multi =
        if multi = nth (r + i) then some c.alloc.offset else offsetEntry s.mx.offsets multi) ∧
      (∀ x m, c.members[x]? = some m →
        memberAt mx'.members ((c.alloc.offset + x) % 2 ^ 32) = some m.raw) ∧
      ∀ q, (∀ x < c.members.length, (c.alloc.offset + x) % 2 ^ 32 ≠ q) →
        memberAt mx'.members q = memberAt s.mx.members q := by
  have hid := (h.space.ledger.get (MxSystem.allocs_get hget)).1
  have hok := h.creations c (mem_of_getElem? hget)
  have hlt := (List.getElem?_eq_some_iff.mp hget).1
  have hsmall := hok.lt_half
  obtain ⟨o, hentry, -⟩ := h.offsets.entries i c hi hget
  rw [← hid, offsetEntry, map_eq_some_iff] at hentry
  obtain ⟨page, hpage, -⟩ := hentry
  obtain ⟨v, hv, hoff, hend, -⟩ := h.space.exists_slots hget
  have hlow : slotAt w s.allocs s.oldest ≤ slotAt w s.allocs i := slotAt_mono hi
  have hhigh : slotAt w s.allocs (i + 1) ≤ slotAt w s.allocs s.log.length := slotAt_mono hlt
  rw [hok.nmembers] at hend
  have hpages : ∀ x < c.members.length,
      s.mx.members.pages (MXOffsetToMemberPage ((c.alloc.offset + x) % 2 ^ 32)) ≠ none := by
    intro x hx
    rw [hoff, Nat.mod_add_mod]
    exact h.space.pages (v + x) (by omega) (by omega)
  obtain ⟨hrec, hstor, hother⟩ := recordMembers_ok c.members s.mx.members
    (by rw [hoff]; exact Nat.mod_lt _ (Nat.two_pow_pos 32)) (by omega) hpages
  refine ⟨{ s.mx with
      offsets := s.mx.offsets.setPage (MultiXactIdToOffsetPage c.alloc.multi)
        (Function.update page (MultiXactIdToOffsetEntry c.alloc.multi) c.alloc.offset)
      members := (recordMembers s.mx.members c.alloc.offset c.members).2 },
    ?_, rfl, fun multi => ?_, hstor, hother⟩
  · simp only [RecordNewMultiXact, hpage]
    rw [hrec]
  · rw [← hid]
    exact offsetEntry_set hpage

/-- A history in which a creation is recorded. -/
theorem getElem?_set_recorded {log : List Creation} (hget : log[i]? = some c) {j : ℕ}
    {c' : Creation} (hget' : (log.set i { c with recorded := true })[j]? = some c') :
    j = i ∧ c' = { c with recorded := true } ∨ j ≠ i ∧ log[j]? = some c' := by
  have hlt := (List.getElem?_eq_some_iff.mp hget).1
  by_cases hji : j = i
  · subst hji
    rw [getElem?_set_self hlt] at hget'
    exact .inl ⟨rfl, (some.inj hget').symm⟩
  · rw [getElem?_set_ne (Ne.symm hji)] at hget'
    exact .inr ⟨hji, hget'⟩

/-- Recording a creation leaves the slots of the others, and the slots that are skipped. -/
theorem SpaceInv.slots_apart (h : SpaceInv r w s) (hi : s.oldest ≤ i) (hget : s.log[i]? = some c)
    {X : ℕ} (hlow : slotAt w s.allocs s.oldest ≤ X) (hhigh : X < slotAt w s.allocs s.log.length)
    {v : ℕ} (hoff : c.alloc.offset = v % 2 ^ 32)
    (hend : v + c.alloc.nmembers = slotAt w s.allocs (i + 1))
    (hv : slotAt w s.allocs i ≤ v) (hout : X < v ∨ slotAt w s.allocs (i + 1) ≤ X) :
    ∀ x < c.alloc.nmembers, (c.alloc.offset + x) % 2 ^ 32 ≠ X % 2 ^ 32 := by
  intro x hx
  have hlt := (List.getElem?_eq_some_iff.mp hget).1
  have hfrom : slotAt w s.allocs s.oldest ≤ slotAt w s.allocs i := slotAt_mono hi
  have hto : slotAt w s.allocs (i + 1) ≤ slotAt w s.allocs s.log.length := slotAt_mono hlt
  rw [hoff, Nat.mod_add_mod]
  rcases hout with hbef | hafter
  · exact (h.slot_ne (by omega) hlow (by omega)).symm
  · exact h.slot_ne (by omega) (by omega) hhigh

/-- The slots after a creation is recorded. -/
theorem ReadInv.record_members (h : ReadInv env r w n s) (hi : s.oldest ≤ i)
    (hget : s.log[i]? = some c) {mx' : Multixact} (hstor : ∀ x m, c.members[x]? = some m →
      memberAt mx'.members ((c.alloc.offset + x) % 2 ^ 32) = some m.raw)
    (hother : ∀ q, (∀ x < c.members.length, (c.alloc.offset + x) % 2 ^ 32 ≠ q) →
      memberAt mx'.members q = memberAt s.mx.members q) :
    MembersInv w { s with mx := mx', log := s.log.set i { c with recorded := true } } := by
  have hok := h.creations c (mem_of_getElem? hget)
  obtain ⟨v, hv, hoff, hend, hskip⟩ := h.space.exists_slots hget
  rw [← hok.nmembers] at hother
  constructor
  · intro j c' hj hget' hrec x m hx
    rcases getElem?_set_recorded hget hget' with ⟨rfl, rfl⟩ | ⟨hne, hget''⟩
    · exact hstor x m hx
    · have hok' := h.creations c' (mem_of_getElem? hget'')
      obtain ⟨v', hv', hoff', hend', -⟩ := h.space.exists_slots hget''
      have hxlt : x < c'.alloc.nmembers := by
        rw [hok'.nmembers]
        exact (List.getElem?_eq_some_iff.mp hx).1
      have hlt' := (List.getElem?_eq_some_iff.mp hget'').1
      have hfrom : slotAt w s.allocs s.oldest ≤ slotAt w s.allocs j := slotAt_mono hj
      have hto : slotAt w s.allocs (j + 1) ≤ slotAt w s.allocs s.log.length := slotAt_mono hlt'
      have hout : v' + x < v ∨ slotAt w s.allocs (i + 1) ≤ v' + x := by
        rcases Nat.lt_or_gt_of_ne hne with hbef | hafter
        · have hle : slotAt w s.allocs (j + 1) ≤ slotAt w s.allocs i := slotAt_mono hbef
          exact .inl (by omega)
        · have hle : slotAt w s.allocs (i + 1) ≤ slotAt w s.allocs j := slotAt_mono hafter
          exact .inr (by omega)
      have hslot : (c'.alloc.offset + x) % 2 ^ 32 = (v' + x) % 2 ^ 32 := by
        rw [hoff', Nat.mod_add_mod]
      have hapart := h.space.slots_apart hi hget (by omega) (by omega) hoff hend
        hv hout
      rw [hslot, hother _ hapart, ← hslot]
      exact h.members.stored j c' hj hget'' hrec x m hx
  · intro j hj hlt hzero
    rw [length_set] at hlt
    change slotAt w ((s.log.set i { c with recorded := true }).map Creation.alloc) j % 2 ^ 32 = 0
      at hzero
    rw [MxSystem.allocs_recorded hget] at hzero
    have hto := h.space.slotAt_lt hlt
    have hout : slotAt w s.allocs j < v ∨ slotAt w s.allocs (i + 1) ≤ slotAt w s.allocs j := by
      rcases lt_trichotomy j i with hbef | rfl | hafter
      · have hle := h.space.ledger.add_le_slotAt h.space.nonempty (hbef.le)
          (by rw [MxSystem.length_allocs]; exact le_of_lt (List.getElem?_eq_some_iff.mp hget).1)
        exact .inl (by omega)
      · exact .inl (by omega)
      · exact .inr (slotAt_mono hafter)
    have hapart := h.space.slots_apart hi hget (slotAt_mono hj) hto hoff hend hv hout
    rw [hzero] at hapart
    rw [hother 0 hapart]
    exact h.members.holes j hj hlt hzero

/-- **Recording keeps the invariant.** -/
theorem ReadInv.record (h : ReadInv env r w n s) (hi : s.oldest ≤ i) :
    ReadInv env r w n (s.record i) := by
  have hspace := h.space.record i
  rw [MxSystem.record] at hspace ⊢
  cases hget : s.log[i]? with
  | none => exact h
  | some c =>
    obtain ⟨mx', hrec, hstate, hent, hstor, hother⟩ := h.recordNewMultiXact hi hget
    rw [hget] at hspace
    dsimp only at hspace ⊢
    rw [hrec] at hspace ⊢
    constructor
    case space => exact hspace
    case creations =>
      intro c' hc'
      obtain ⟨j, hj⟩ := getElem?_of_mem hc'
      rcases getElem?_set_recorded hget hj with ⟨-, rfl⟩ | ⟨-, hget'⟩
      · have hok := h.creations c (mem_of_getElem? hget)
        exact ⟨hok.nmembers, hok.members⟩
      · exact h.creations c' (mem_of_getElem? hget')
    case room =>
      obtain ⟨l, hl, hlims, hlen⟩ := h.room
      refine ⟨l, hl, ?_, ?_⟩
      · rw [hstate]
        exact hlims
      · rw [length_set]
        exact hlen
    case counter =>
      intro j c' hj hlast
      rw [length_set] at hlast
      rw [hstate]
      rcases getElem?_set_recorded hget hj with ⟨rfl, rfl⟩ | ⟨-, hget'⟩
      · exact h.counter j c hget hlast
      · exact h.counter j c' hget' hlast
    case offsets =>
      constructor
      · intro j c' hj hget'
        rw [hent]
        rcases getElem?_set_recorded hget hget' with ⟨rfl, rfl⟩ | ⟨hne, hget''⟩
        · rw [if_pos rfl]
          exact ⟨_, rfl, fun _ => rfl⟩
        · have hlt := (List.getElem?_eq_some_iff.mp hget).1
          have hlt' := (List.getElem?_eq_some_iff.mp hget'').1
          have hpositions := h.space.positions_lt
          have hkept : s.oldest ≤ j := hj
          have hid : nth (r + j) ≠ nth (r + i) := by
            rcases Nat.lt_or_gt_of_ne hne with hbef | hafter
            · exact nth_ne_nth hbef (by omega)
            · exact (nth_ne_nth hafter (by omega)).symm
          rw [if_neg hid]
          exact h.offsets.entries j c' hj hget''
      · intro hfirst
        rw [length_set] at hfirst ⊢
        rw [hent]
        split
        · exact some_ne_none _
        · exact h.offsets.next hfirst
    case members => exact h.record_members hi hget hstor hother

end Record

/-! ### Limits and truncation -/

section Limits

variable {env : MultiXactEnv} {r w n : ℕ} {s : MxSystem} {i : ℕ}

/-- Setting the limit of the offsets leaves the rest. -/
theorem setOffsetVacuumLimit_frame (mx : Multixact) :
    (SetOffsetVacuumLimit mx).offsets = mx.offsets ∧
      (SetOffsetVacuumLimit mx).members = mx.members ∧
      (SetOffsetVacuumLimit mx).state.nextMXact = mx.state.nextMXact ∧
      (SetOffsetVacuumLimit mx).state.multiVacLimit = mx.state.multiVacLimit ∧
      (SetOffsetVacuumLimit mx).state.multiStopLimit = mx.state.multiStopLimit := by
  rw [SetOffsetVacuumLimit]
  split
  · exact ⟨rfl, rfl, rfl, rfl, rfl⟩
  · split
    · exact ⟨rfl, rfl, rfl, rfl, rfl⟩
    · exact ⟨rfl, rfl, rfl, rfl, rfl⟩

/-- A later oldest position, with the areas left. -/
theorem ReadInv.setOldest (h : ReadInv env r w n s) {mx' : Multixact} (hle : s.oldest ≤ i)
    (hi : i ≤ s.log.length) (hspace : SpaceInv r w { s with mx := mx', oldest := i })
    (hroom : IdRoom env r n { s with mx := mx', oldest := i })
    (hnext : mx'.state.nextMXact = s.mx.state.nextMXact)
    (hoffs : ∀ t, i ≤ t → t ≤ s.log.length →
      offsetEntry mx'.offsets (nth (r + t)) = offsetEntry s.mx.offsets (nth (r + t)))
    (hmems : ∀ X, slotAt w s.allocs i ≤ X → X < slotAt w s.allocs s.log.length →
      memberAt mx'.members (X % 2 ^ 32) = memberAt s.mx.members (X % 2 ^ 32)) :
    ReadInv env r w n { s with mx := mx', oldest := i } where
  space := hspace
  creations := h.creations
  room := hroom
  counter := by
    rw [hnext]
    exact h.counter
  offsets := by
    refine h.offsets.frame rfl hle (fun t ht hlt => hoffs t ht (hlt.le))
      (fun hfirst => ?_)
    rw [hoffs _ hi le_rfl]
    exact h.offsets.next hfirst
  members := h.members.frame h.space h.creations rfl hle hmems

/-- Setting the limit of the offsets keeps the invariant. -/
theorem ReadInv.setOffsetLimit (h : ReadInv env r w n s) (hfound : OffsetFound s s.oldest) :
    ReadInv env r w n { s with mx := SetOffsetVacuumLimit s.mx } := by
  obtain ⟨hoffs, hmems, hnext, hvac, hstop⟩ := setOffsetVacuumLimit_frame s.mx
  refine h.setOldest le_rfl h.space.oldest_le (h.space.setOffsetLimit hfound) ?_ hnext
    (fun t _ _ => by rw [hoffs]) (fun X _ _ => by rw [hmems])
  obtain ⟨l, hl, hlims, hlen⟩ := h.room
  exact ⟨l, hl, ⟨hvac.trans hlims.vac, hstop.trans hlims.stop⟩, hlen⟩

/-- **Setting the limits of the ids keeps the invariant.** -/
theorem ReadInv.setIdLimit (h : ReadInv env r w n s) (hle : s.oldest ≤ i) (hi : i ≤ s.log.length)
    (hfound : OffsetFound s i) :
    ReadInv env r w n { s with mx := SetMultiXactIdLimit env s.mx (s.idAt i), oldest := i } := by
  have hspace : SpaceInv r w
      { s with mx := SetMultiXactIdLimit env s.mx (s.idAt i), oldest := i } :=
    h.space.setIdLimit hle hi hfound
  have hid := h.space.ledger.idAt h.space.counters hi
  rw [SetMultiXactIdLimit] at hspace ⊢
  generalize hmx : ({ s.mx with state := _ } : Multixact) = mx' at hspace ⊢
  obtain ⟨hoffs, hmems, hnext, hvac, hstop⟩ := setOffsetVacuumLimit_frame mx'
  subst hmx
  refine h.setOldest hle hi hspace ?_ hnext (fun t _ _ => by rw [hoffs])
    (fun X _ _ => by rw [hmems])
  obtain ⟨l, hl, -, hlen⟩ := h.room
  refine ⟨r + i, le_rfl, ⟨hvac.trans ?_, hstop.trans ?_⟩, ?_⟩
  · rw [hid]
  · rw [hid]
  · exact le_trans hlen (Nat.add_le_add_right (by omega) _)

/-- **Truncation keeps the invariant.** -/
theorem ReadInv.truncate (h : ReadInv env r w n s) (hle : s.oldest ≤ i) (hi : i ≤ s.log.length)
    (hold : OffsetFound s s.oldest) (hnew : OffsetFound s i) (dir : List ℕ) :
    ReadInv env r w n (s.truncate i dir) := by
  have hspace := h.space.truncate hle hi hold hnew dir
  have hid := h.space.ledger.idAt h.space.counters hi
  have hroom := h.room.length_le
  obtain ⟨mx', heq, hcase⟩ := h.space.truncateMultiXact hle hi hold hnew dir
  rw [MxSystem.truncate, heq] at hspace ⊢
  dsimp only at hspace ⊢
  rcases hcase with rfl | ⟨hstate, hoffs, hpages⟩
  · rw [h.space.oldest_left hle hi]
    exact h
  · have hmulti : mx'.state.oldestMultiXactId = s.idAt i := by rw [hstate]
    rw [if_pos hmulti] at hspace ⊢
    refine h.setOldest hle hi hspace ?_ ?_ (fun t ht htn => ?_) (fun X hlow hhigh => ?_)
    · obtain ⟨l, hl, hlims, hlen⟩ := h.room
      refine ⟨l, le_trans hl (Nat.add_le_add_left hle r), ?_, hlen⟩
      rw [hstate]
      exact ⟨hlims.vac, hlims.stop⟩
    · rw [hstate]
    · rw [hoffs, hid]
      exact performOffsetsTruncation_kept ht (by omega)
    · exact memberAt_congr (hpages X hlow (hhigh.le))

end Limits

/-- Before the first step, no backend has passed the check. -/
theorem ReadStart.inv {env : MultiXactEnv} {s : MxSystem} (h : ReadStart env s) :
    ∃ r w, ReadInv env r w 0 s := by
  obtain ⟨o, ho, hlims, hroom⟩ := h.limits
  obtain ⟨l, r, hle, rfl, hnext, hdist⟩ := exists_nth_after ho h.space.nextMXact
  obtain ⟨w, hspace⟩ := h.space.inv hnext
  have hnone : ∀ (i : ℕ) c, s.log[i]? ≠ some c := by
    rw [h.space.log]
    simp
  refine ⟨r, w, hspace, ?_, ⟨l, ?_, hlims, ?_⟩, fun i c hget => absurd hget (hnone i c),
    ⟨fun i c _ hget => absurd hget (hnone i c), ?_⟩,
    ⟨fun i c _ hget => absurd hget (hnone i c), ?_⟩⟩
  · rw [h.space.log]
    intro c hc
    cases hc
  · rw [h.space.oldest]
    exact hle
  · rw [h.space.log, length_nil, idSpan]
    omega
  · rw [h.space.log, length_nil, add_zero, ← hnext]
    exact h.entry
  · intro i _ hlt
    rw [h.space.log] at hlt
    exact absurd hlt (Nat.not_lt_zero i)

end FdPostgres
