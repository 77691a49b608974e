import FdPostgres.Multixact.Space

/-!
# Entries of the Offsets Area, and the Limits of the Ids

The start of the members of a multixact is stored under its id. A page of the area is zeroed when
its first id is allocated, and old segments are removed by truncation; the limits of the ids keep
the multixacts in use within half of the circle, so neither touches an entry in use. A backend that
has passed the check of the limits may take its id later, when others have taken theirs: the limit
to stop at leaves far more ids than there are backends.

* `IdLimits`, `IdRoom`: the limits set for an oldest id, and the ids in use within them.
* `IdRoom.of_precedes`: an id that passes the check is within the limits.
* `extendOffset_kept`, `performOffsetsTruncation_kept`: the entries in use are left.
-/

namespace FdPostgres

open Function WrapCounter

/-! ### The limits of the ids -/

/-- A server under a postmaster, with the setting in its range. -/
structure Serving (env : MultiXactEnv) : Prop where
  postmaster : env.IsUnderPostmaster = true
  freeze : env.autovacuum_multixact_freeze_max_age ≤ 2000000000

/-- The limits that `SetMultiXactIdLimit` sets for an oldest id. -/
structure IdLimits (env : MultiXactEnv) (st : MultiXactStateData) (oldest : ℕ) : Prop where
  vac : st.multiVacLimit = limitAbove ((oldest + env.autovacuum_multixact_freeze_max_age) % 2 ^ 32)
  stop : st.multiStopLimit =
    limitBelow (Word32.sub (limitAbove ((oldest + MaxMultiXactId / 2) % 2 ^ 32)) 3000000)

/-- The greatest number of backends, by the width of their ids in shared memory. -/
def MAX_BACKENDS : ℕ := 0x3FFFF

/-- The greatest number of ids, from the one the limits were set for, that pass the check. -/
def idRoom : ℕ := 2 ^ 31 - 3000000

/-- The greatest number of ids when every backend has passed the check and takes one. -/
def idSpan : ℕ := idRoom + MAX_BACKENDS

theorem idSpan_eq : idSpan = 2144745791 := rfl

/-- The limits were set for a position that is not after the oldest one, and the next position is
within them, also when a number of backends that have passed the check have taken their ids. -/
def IdRoom (env : MultiXactEnv) (r n : ℕ) (s : MxSystem) : Prop :=
  ∃ l ≤ r + s.oldest, IdLimits env s.mx.state (nth l) ∧ r + s.log.length + n ≤ l + idSpan

/-- A limit that is a distance from a word, or one more. -/
theorem limitAbove_dist (o : ℕ) {d : ℕ} :
    ∃ d', d ≤ d' ∧ d' ≤ d + 1 ∧ limitAbove ((o + d) % 2 ^ 32) = (o + d') % 2 ^ 32 := by
  rw [limitAbove, FirstMultiXactId]
  split_ifs with hzero
  · exact ⟨d + 1, by omega, le_rfl, by omega⟩
  · exact ⟨d, le_refl d, by omega, rfl⟩

/-- The limit to stop at as a distance. -/
theorem stopLimit_dist (o : ℕ) :
    ∃ d ≤ idRoom, limitBelow (Word32.sub (limitAbove ((o + MaxMultiXactId / 2) % 2 ^ 32))
      3000000) = (o + d) % 2 ^ 32 := by
  obtain ⟨d', hlow, hhigh, heq⟩ := limitAbove_dist o
  have hmax : MaxMultiXactId / 2 = 2147483647 := rfl
  rw [heq, limitBelow, FirstMultiXactId, idRoom]
  have hsub : Word32.sub ((o + d') % 2 ^ 32) 3000000 = (o + (d' - 3000000)) % 2 ^ 32 := by
    simp only [Word32.sub]
    omega
  rw [hsub]
  split_ifs with hzero
  · refine ⟨d' - 3000000 - 1, by omega, ?_⟩
    simp only [Word32.sub]
    omega
  · exact ⟨d' - 3000000, by omega, rfl⟩

/-- A word that precedes a limit is not as far from the oldest one as the limit is. -/
theorem lt_of_precedes {o d e : ℕ} (hd : d ≤ idRoom) (he : e ≤ idSpan + 1)
    (h : MultiXactIdPrecedes ((o + e) % 2 ^ 32) ((o + d) % 2 ^ 32) = true) : e < d := by
  rw [MultiXactIdPrecedes, Word32.precedes_iff] at h
  rw [idRoom] at hd
  rw [idSpan_eq] at he
  by_contra hge
  have hsub : Word32.sub ((o + d) % 2 ^ 32) ((o + e) % 2 ^ 32) = 0 ∨
      2 ^ 31 < Word32.sub ((o + d) % 2 ^ 32) ((o + e) % 2 ^ 32) := by
    simp only [Word32.sub]
    omega
  omega

section Limits

variable {env : MultiXactEnv} {r w n : ℕ} {s : MxSystem}

/-- **An id that passes the check is within the limits**: it precedes the limit for vacuum or the
limit to stop at. -/
theorem IdRoom.of_precedes (h : IdRoom env r n s) (henv : Serving env) (hspace : SpaceInv r w s)
    (hcheck : MultiXactIdPrecedes (fixNextMXact s.mx.state).nextMXact s.mx.state.multiVacLimit =
        true ∨
      MultiXactIdPrecedes (fixNextMXact s.mx.state).nextMXact s.mx.state.multiStopLimit = true) :
    ∃ l ≤ r + s.oldest, IdLimits env s.mx.state (nth l) ∧ r + s.log.length + 1 ≤ l + idRoom := by
  obtain ⟨l, hl, hlims, hroom⟩ := h
  refine ⟨l, hl, hlims, ?_⟩
  have hlen := hspace.oldest_le
  obtain ⟨d, hd⟩ : ∃ d, r + s.log.length = l + d := ⟨r + s.log.length - l, by omega⟩
  have hspan : d ≤ idSpan := by omega
  obtain ⟨e, hlow, hhigh, -, hid⟩ := nth_add l (d := d) (by rw [idSpan_eq] at hspan; omega)
  have hnext : (fixNextMXact s.mx.state).nextMXact = (nth l + e) % 2 ^ 32 := by
    rw [hspace.counters.fix.2, MxSystem.length_allocs, hd, hid]
  rw [hnext] at hcheck
  rcases hcheck with hprec | hprec
  · obtain ⟨A, -, hA, heq⟩ := limitAbove_dist (nth l)
    have hfreeze := henv.freeze
    rw [hlims.vac, heq] at hprec
    have hlt := lt_of_precedes (by rw [idRoom]; omega) (by omega) hprec
    rw [idRoom]
    omega
  · obtain ⟨S, hS, heq⟩ := stopLimit_dist (nth l)
    rw [hlims.stop, heq] at hprec
    have hlt := lt_of_precedes hS (by omega) hprec
    omega

/-- The positions in use are within half of the circle. -/
theorem IdRoom.length_le (h : IdRoom env r n s) : s.log.length ≤ s.oldest + idSpan := by
  obtain ⟨l, hl, -, hroom⟩ := h
  omega

end Limits

/-! ### Entries -/

theorem offsetsPerPage_eq : MULTIXACT_OFFSETS_PER_PAGE = 2048 := rfl

/-- An entry depends on its page. -/
theorem offsetEntry_congr {ctl ctl' : Slru} {multi : ℕ}
    (h : ctl'.pages (MultiXactIdToOffsetPage multi) = ctl.pages (MultiXactIdToOffsetPage multi)) :
    offsetEntry ctl' multi = offsetEntry ctl multi := by
  rw [offsetEntry, offsetEntry, h]

/-- An id at which a page of the area starts. -/
def FirstOnPage (multi : ℕ) : Prop :=
  MultiXactIdToOffsetEntry multi = 0 ∨ multi = FirstMultiXactId

instance (multi : ℕ) : Decidable (FirstOnPage multi) := inferInstanceAs (Decidable (_ ∨ _))

/-- A page is zeroed for its first id. -/
theorem extendMultiXactOffset_eq (ctl : Slru) (multi : ℕ) :
    ExtendMultiXactOffset ctl multi =
      if FirstOnPage multi then SimpleLruZeroPage ctl (MultiXactIdToOffsetPage multi) else ctl := by
  rw [ExtendMultiXactOffset]
  by_cases hfirst : FirstOnPage multi
  · rw [if_pos hfirst, if_neg]
    rcases hfirst with hzero | hone
    · exact fun h => h.1 hzero
    · exact fun h => h.2 hone
  · rw [if_neg hfirst, if_pos]
    exact ⟨fun hzero => hfirst (.inl hzero), fun hone => hfirst (.inr hone)⟩

section Entries

variable {ctl : Slru} {r n t : ℕ}

/-- The first id of a page is not on the page of an id in use. -/
theorem firstOnPage_apart (hfirst : FirstOnPage (nth (r + n))) (hlt : t < n)
    (hroom : n ≤ t + idSpan) :
    MultiXactIdToOffsetPage (nth (r + t)) ≠ MultiXactIdToOffsetPage (nth (r + n)) := by
  obtain ⟨d, rfl⟩ : ∃ d, n = t + d := ⟨n - t, by omega⟩
  have hd : d ≤ idSpan := by omega
  obtain ⟨e, hlow, hhigh, -, hid⟩ := nth_add (r + t) (d := d) (by rw [idSpan_eq] at hd; omega)
  rw [← add_assoc] at hfirst ⊢
  rw [FirstOnPage, MultiXactIdToOffsetEntry, FirstMultiXactId] at hfirst
  have hpos := nth_pos (r + t)
  have hword := nth_lt (r + t)
  rw [idSpan_eq] at hd
  simp only [MultiXactIdToOffsetPage, offsetsPerPage_eq, hid] at hfirst ⊢
  generalize nth (r + t) = a at hpos hword hfirst
  -- the first id is ahead of the one in use, so it could only be on its page after a whole round
  have hwrap : (a + e) % 2 ^ 32 = a + e ∨ (a + e) % 2 ^ 32 + 2 ^ 32 = a + e := by omega
  rcases hwrap with hwrap | hwrap
  · rcases hfirst with hzero | hone
    · omega
    · omega
  · omega

/-- **Extending the area leaves the entries in use.** -/
theorem extendOffset_kept (hlt : t < n) (hroom : n ≤ t + idSpan) :
    offsetEntry (ExtendMultiXactOffset ctl (nth (r + n))) (nth (r + t)) =
      offsetEntry ctl (nth (r + t)) := by
  rw [extendMultiXactOffset_eq]
  by_cases hfirst : FirstOnPage (nth (r + n))
  · rw [if_pos hfirst]
    exact offsetEntry_congr (update_of_ne (firstOnPage_apart hfirst hlt hroom) _ _)
  · rw [if_neg hfirst]

/-- The entry of the next id is there after the extension. -/
theorem extendOffset_ne_none {multi : ℕ} (h : ¬ FirstOnPage multi → offsetEntry ctl multi ≠ none) :
    offsetEntry (ExtendMultiXactOffset ctl multi) multi ≠ none := by
  rw [extendMultiXactOffset_eq]
  split_ifs with hfirst
  · simp [offsetEntry, SimpleLruZeroPage]
  · exact h hfirst

/-- The id after an id is on its page, unless it is the first one of a page. -/
theorem offsetEntry_succ (hentry : offsetEntry ctl (nth r) ≠ none)
    (hfirst : ¬ FirstOnPage (nth (r + 1))) : offsetEntry ctl (nth (r + 1)) ≠ none := by
  have hsame : MultiXactIdToOffsetPage (nth (r + 1)) = MultiXactIdToOffsetPage (nth r) := by
    rw [FirstOnPage, MultiXactIdToOffsetEntry, offsetsPerPage_eq, not_or] at hfirst
    obtain ⟨hzero, hone⟩ := hfirst
    have hsucc := skip_succ r
    have hword := nth_lt r
    have hnext : nth (r + 1) = nth r + 1 := by
      rw [skip] at hsucc
      by_cases hwrap : (nth r + 1) % 2 ^ 32 = 0
      · rw [if_pos hwrap] at hsucc
        exact absurd hsucc.symm hone
      · rw [if_neg hwrap] at hsucc
        omega
    simp only [MultiXactIdToOffsetPage, offsetsPerPage_eq]
    omega
  rw [offsetEntry, Ne, Option.map_eq_none_iff] at hentry ⊢
  rwa [hsame]

/-- **Truncation leaves the entries in use.** -/
theorem performOffsetsTruncation_kept (hlt : t ≤ n) (hroom : n ≤ t + idSpan) :
    offsetEntry (PerformOffsetsTruncation ctl (nth (r + t))) (nth (r + n)) =
      offsetEntry ctl (nth (r + n)) := by
  obtain ⟨d, rfl⟩ : ∃ d, n = t + d := ⟨n - t, by omega⟩
  have hd : d ≤ idSpan := by omega
  rw [idSpan_eq] at hd
  obtain ⟨e, hlow, hhigh, -, hid⟩ := nth_add (r + t) (d := d) (by omega)
  rw [← add_assoc, hid]
  refine offsetEntry_congr (if_pos ?_)
  have hpos := nth_pos (r + t)
  have hword := nth_lt (r + t)
  generalize nth (r + t) = a at hpos hword
  have hx : (a + e) % 2 ^ 32 < 2 ^ 32 := Nat.mod_lt _ (Nat.two_pow_pos 32)
  have hfirst : SlruArea.multixact_offset.firstId ≤ a := hpos
  have hnot := not_before_cutoff .multixact_offset hfirst hword (d := e) (by omega)
    (fun hstep => by
      obtain ⟨hone, hhalf⟩ := hstep
      rw [FirstMultiXactId] at hone
      omega)
  have hkeep : SlruMayDeleteSegment MultiXactOffsetPagePrecedes
      (MultiXactIdToOffsetPage ((a + e) % 2 ^ 32) / SLRU_PAGES_PER_SEGMENT *
        SLRU_PAGES_PER_SEGMENT) (MultiXactIdToOffsetPage (PreviousMultiXactId a)) = false := by
    rw [← Bool.not_eq_true]
    intro hdel
    have hbef := pagePrecedes_of_mayDelete .multixact_offset
      (inSegments_page .multixact_offset hx) (cutoffPage_le .multixact_offset hfirst hword) hdel
    rw [hnot] at hbef
    exact Bool.false_ne_true hbef
  rw [SimpleLruTruncate]
  split
  · exact List.mem_singleton_self _
  · rw [List.mem_filter, hkeep]
    exact ⟨List.mem_singleton_self _, rfl⟩

end Entries

/-! ### Recording an entry -/

/-- The area with an entry written. -/
theorem offsetEntry_set {ctl : Slru} {multi multi' offset : ℕ} {page : ℕ → ℕ}
    (hpage : ctl.pages (MultiXactIdToOffsetPage multi) = some page) :
    offsetEntry (ctl.setPage (MultiXactIdToOffsetPage multi)
      (update page (MultiXactIdToOffsetEntry multi) offset)) multi' =
      if multi' = multi then some offset else offsetEntry ctl multi' := by
  split_ifs with heq
  · rw [heq]
    simp [offsetEntry, Slru.setPage]
  · simp only [offsetEntry, Slru.setPage]
    by_cases hsame : MultiXactIdToOffsetPage multi' = MultiXactIdToOffsetPage multi
    · have hentry : MultiXactIdToOffsetEntry multi' ≠ MultiXactIdToOffsetEntry multi := by
        simp only [MultiXactIdToOffsetPage, MultiXactIdToOffsetEntry, offsetsPerPage_eq] at hsame ⊢
        omega
      rw [hsame, update_self, hpage, Option.map_some, Option.map_some, update_of_ne hentry]
    · rw [update_of_ne hsame]

end FdPostgres
