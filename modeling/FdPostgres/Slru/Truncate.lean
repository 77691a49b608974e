import FdPostgres.Transam.Ids
import Mathlib

/-!
# Truncation of the SLRU Areas

The status areas of `slru.c` hold a fixed number of entries per page and a fixed number of pages
per segment. Truncation removes the segments whose first and last pages both precede the page of
the oldest entry still in use, in the circular order of the ids of the area.

* `SlruMayDeleteSegment`, `SimpleLruTruncate`: the test of a segment, and the removal.
* `SlruArea`: the four areas with ids as keys, with their own page sizes, orders and cutoffs.
* `pageBefore_iff`: a page precedes the cutoff when it is behind it by less than half of the
  circle, up to a page.
* `TruncationSafe`: no segment in use may be deleted, the truncation is not refused, and the old
  segments are deleted.
* `truncation_safe_iff`: this holds but for the oldest id after the ids that are skipped, where
  the cutoff steps back over them onto the page before.

The buffers of the areas are left out: a page is what its segment holds.
-/

namespace FdPostgres

def BLCKSZ : ℕ := 8192

def SLRU_PAGES_PER_SEGMENT : ℕ := 32

/-! ### Segments -/

def SlruMayDeleteSegment (PagePrecedes : ℕ → ℕ → Bool) (segpage cutoffPage : ℕ) : Bool :=
  let seg_last_page := segpage + SLRU_PAGES_PER_SEGMENT - 1
  PagePrecedes segpage cutoffPage && PagePrecedes seg_last_page cutoffPage

/-- `SimpleLruTruncate` on the segments of the directory: those that remain. -/
def SimpleLruTruncate (PagePrecedes : ℕ → ℕ → Bool) (latest_page_number cutoffPage : ℕ)
    (segments : List ℕ) : List ℕ :=
  if PagePrecedes latest_page_number cutoffPage then segments
  else segments.filter fun segno =>
    !SlruMayDeleteSegment PagePrecedes (segno * SLRU_PAGES_PER_SEGMENT) cutoffPage

/-! ### The orders of the pages -/

/-- The common form of the page orders: the first entry of a page, moved past the special ids,
precedes the first and the last entry of the other page. -/
def pagePrecedes (precedes : ℕ → ℕ → Bool) (perPage firstId page1 page2 : ℕ) : Bool :=
  let id1 := (page1 * perPage + (firstId + 1)) % 2 ^ 32
  let id2 := (page2 * perPage + (firstId + 1)) % 2 ^ 32
  precedes id1 id2 && precedes id1 ((id2 + perPage - 1) % 2 ^ 32)

def CLOG_XACTS_PER_PAGE : ℕ := BLCKSZ * 4

def SUBTRANS_XACTS_PER_PAGE : ℕ := BLCKSZ / 4

/-- `COMMIT_TS_XACTS_PER_PAGE`; an entry has a timestamp and an origin, which are ten bytes. -/
def COMMIT_TS_XACTS_PER_PAGE : ℕ := BLCKSZ / 10

def MULTIXACT_OFFSETS_PER_PAGE : ℕ := BLCKSZ / 4

def CLOGPagePrecedes : ℕ → ℕ → Bool :=
  pagePrecedes TransactionIdPrecedes CLOG_XACTS_PER_PAGE FirstNormalTransactionId

def SubTransPagePrecedes : ℕ → ℕ → Bool :=
  pagePrecedes TransactionIdPrecedes SUBTRANS_XACTS_PER_PAGE FirstNormalTransactionId

def CommitTsPagePrecedes : ℕ → ℕ → Bool :=
  pagePrecedes TransactionIdPrecedes COMMIT_TS_XACTS_PER_PAGE FirstNormalTransactionId

def MultiXactOffsetPagePrecedes : ℕ → ℕ → Bool :=
  pagePrecedes MultiXactIdPrecedes MULTIXACT_OFFSETS_PER_PAGE FirstMultiXactId

/-- The areas whose keys are ids. -/
inductive SlruArea where
  | xact
  | subtrans
  | commit_ts
  | multixact_offset
  deriving Repr, DecidableEq

namespace SlruArea

/-- The number of entries on a page. -/
def perPage : SlruArea → ℕ
  | xact => CLOG_XACTS_PER_PAGE
  | subtrans => SUBTRANS_XACTS_PER_PAGE
  | commit_ts => COMMIT_TS_XACTS_PER_PAGE
  | multixact_offset => MULTIXACT_OFFSETS_PER_PAGE

/-- The first id that is not special. -/
def firstId : SlruArea → ℕ
  | multixact_offset => FirstMultiXactId
  | _ => FirstNormalTransactionId

/-- The order of the pages. -/
def PagePrecedes : SlruArea → ℕ → ℕ → Bool
  | xact => CLOGPagePrecedes
  | subtrans => SubTransPagePrecedes
  | commit_ts => CommitTsPagePrecedes
  | multixact_offset => MultiXactOffsetPagePrecedes

variable (a : SlruArea)

/-- The page of an id. -/
def page (id : ℕ) : ℕ := id / a.perPage

/-- The cutoff page for an oldest id, as `TruncateCLOG`, `TruncateSUBTRANS`, `TruncateCommitTs` and
`PerformOffsetsTruncation` compute it. -/
def cutoffPage (oldest : ℕ) : ℕ :=
  match a with
  | xact => a.page oldest
  | subtrans => a.page (TransactionIdRetreat oldest)
  | commit_ts => a.page oldest
  | multixact_offset => a.page (PreviousMultiXactId oldest)

/-- The first page of the segment of a page. -/
def segpage (p : ℕ) : ℕ := p / SLRU_PAGES_PER_SEGMENT * SLRU_PAGES_PER_SEGMENT

/-- The number of ids from the first entry of a page ahead to the first entry of another one. -/
def behind (p c : ℕ) : ℕ := Word32.sub (c * a.perPage) (p * a.perPage)

/-- A page of the area, or one of the pages that complete its last segment. -/
def InSegments (p : ℕ) : Prop := segpage p ≤ a.page (2 ^ 32 - 1)

end SlruArea

open SlruArea Nat Bool

/-! ### When a page precedes the cutoff -/

/-- The common form with the circular order of words. -/
theorem pagePrecedes_word_iff {perPage firstId page1 page2 : ℕ} (hpos : 1 ≤ perPage)
    (hle : perPage ≤ 2 ^ 20) :
    pagePrecedes Word32.precedes perPage firstId page1 page2 = true ↔
      1 ≤ Word32.sub (page2 * perPage) (page1 * perPage) ∧
        Word32.sub (page2 * perPage) (page1 * perPage) + perPage ≤ 2 ^ 31 + 1 := by
  simp only [pagePrecedes, and_eq_true, Word32.precedes_iff, Word32.sub]
  omega

/-- Transaction ids that are normal are compared as words. -/
theorem pagePrecedes_xid {perPage page1 page2 : ℕ}
    (h1 : 3 ≤ (page1 * perPage + 4) % 2 ^ 32) (h2 : 3 ≤ (page2 * perPage + 4) % 2 ^ 32)
    (h3 : 3 ≤ ((page2 * perPage + 4) % 2 ^ 32 + perPage - 1) % 2 ^ 32) :
    pagePrecedes TransactionIdPrecedes perPage FirstNormalTransactionId page1 page2 =
      pagePrecedes Word32.precedes perPage FirstNormalTransactionId page1 page2 := by
  have hfirst : FirstNormalTransactionId + 1 = 4 := rfl
  simp only [pagePrecedes, hfirst, TransactionIdPrecedes_of_normal h1 h2,
    TransactionIdPrecedes_of_normal h1 h3]

variable {x : ℕ}

/-- The entries of the commit timestamps that are compared are normal: the pages that complete the
last segment continue past the special ids. -/
theorem commit_ts_normal (k : ℕ) (hx : x ≤ 5244191) (hk : k = 4 ∨ k = 822) :
    3 ≤ (x * 819 + k) % 2 ^ 32 := by
  rcases lt_or_ge (x * 819 + k) (2 ^ 32) with hlt | hge
  · rw [mod_eq_of_lt hlt]
    omega
  · rw [mod_eq_sub_mod hge, mod_eq_of_lt (by omega)]
    omega

variable (a : SlruArea)

/-- **A page precedes the cutoff** when it is behind it by at least one id and by a page less than
half of the circle. -/
theorem pageBefore_iff {p c : ℕ} (hp : a.InSegments p) (hc : c ≤ a.page (2 ^ 32 - 1)) :
    a.PagePrecedes p c = true ↔ 1 ≤ a.behind p c ∧ a.behind p c + a.perPage ≤ 2 ^ 31 + 1 := by
  rw [InSegments, segpage] at hp
  cases a with
  | xact =>
    have hper : CLOG_XACTS_PER_PAGE = 32768 := rfl
    simp only [SlruArea.PagePrecedes, CLOGPagePrecedes, hper]
    rw [pagePrecedes_xid (by omega) (by omega) (by omega)]
    exact pagePrecedes_word_iff (by omega) (by omega)
  | subtrans =>
    have hper : SUBTRANS_XACTS_PER_PAGE = 2048 := rfl
    simp only [SlruArea.PagePrecedes, SubTransPagePrecedes, hper]
    rw [pagePrecedes_xid (by omega) (by omega) (by omega)]
    exact pagePrecedes_word_iff (by omega) (by omega)
  | commit_ts =>
    have hper : COMMIT_TS_XACTS_PER_PAGE = 819 := rfl
    have hseg : SLRU_PAGES_PER_SEGMENT = 32 := rfl
    simp only [page, perPage, hper, hseg] at hp hc
    simp only [SlruArea.PagePrecedes, CommitTsPagePrecedes, hper]
    have hlast : ((c * 819 + 4) % 2 ^ 32 + 819 - 1) % 2 ^ 32 = (c * 819 + 822) % 2 ^ 32 := by
      omega
    rw [pagePrecedes_xid (commit_ts_normal 4 (by omega) (.inl rfl))
      (commit_ts_normal 4 (by omega) (.inl rfl))
      (by rw [hlast]; exact commit_ts_normal 822 (by omega) (.inr rfl))]
    exact pagePrecedes_word_iff (by omega) (by omega)
  | multixact_offset =>
    have hper : MULTIXACT_OFFSETS_PER_PAGE = 2048 := rfl
    exact pagePrecedes_word_iff (by omega) (by omega)

/-! ### Segments in use -/

theorem perPage_le : 1 ≤ a.perPage ∧ a.perPage ≤ 2 ^ 15 := by
  cases a <;> decide

/-- A segment that may be deleted has only pages that precede the cutoff. -/
theorem pagePrecedes_of_mayDelete {p c : ℕ} (hp : a.InSegments p) (hc : c ≤ a.page (2 ^ 32 - 1))
    (hdel : SlruMayDeleteSegment a.PagePrecedes (segpage p) c = true) :
    a.PagePrecedes p c = true := by
  have hseg : SLRU_PAGES_PER_SEGMENT = 32 := rfl
  have hfirst : segpage (segpage p) = segpage p := by
    simp only [segpage, hseg]
    omega
  have hlast : segpage (segpage p + 31) = segpage p := by
    simp only [segpage, hseg]
    omega
  have hin : a.InSegments (segpage p) := by rwa [InSegments, hfirst]
  have hin' : a.InSegments (segpage p + 31) := by rwa [InSegments, hlast]
  have hlen : segpage p + 32 - 1 = segpage p + 31 := by omega
  rw [SlruMayDeleteSegment, and_eq_true, hseg, hlen, pageBefore_iff a hin hc,
    pageBefore_iff a hin' hc] at hdel
  rw [pageBefore_iff a hp hc]
  obtain ⟨k, hk, hpk⟩ : ∃ k ≤ 31, p = segpage p + k :=
    ⟨p % 32, by omega, by simp only [segpage, hseg]; omega⟩
  have hpage : p * a.perPage = segpage p * a.perPage + k * a.perPage := by
    rw [← add_mul, ← hpk]
  have hend : (segpage p + 31) * a.perPage = segpage p * a.perPage + 31 * a.perPage :=
    add_mul _ _ _
  have hle : k * a.perPage ≤ 31 * a.perPage := mul_le_mul_right _ hk
  have hper := (perPage_le a).2
  simp only [behind, Word32.sub, hpage, hend] at hdel ⊢
  omega

/-- The last entry of an area is on its last page. -/
theorem page_le (hx : x < 2 ^ 32) : a.page x ≤ a.page (2 ^ 32 - 1) :=
  Nat.div_le_div_right (by omega)

theorem inSegments_page (hx : x < 2 ^ 32) : a.InSegments (a.page x) :=
  le_trans (div_mul_le_self _ _) (page_le a hx)

/-- The page sizes that divide half of the circle: an id up to half of the circle ahead of another
one is not on a page before it. -/
theorem not_before_page_of_dvd (ha : a ≠ .commit_ts) {o t : ℕ} (ho : o < 2 ^ 32)
    (ht : t ≤ 2 ^ 31) : a.PagePrecedes (a.page ((o + t) % 2 ^ 32)) (a.page o) = false := by
  have hx : (o + t) % 2 ^ 32 < 2 ^ 32 := Nat.mod_lt _ (Nat.two_pow_pos 32)
  rw [← not_eq_true, pageBefore_iff a (inSegments_page a hx) (page_le a ho)]
  have hper : a.perPage = 32768 ∨ a.perPage = 2048 := by
    cases a with
    | xact => exact .inl rfl
    | subtrans => exact .inr rfl
    | commit_ts => exact absurd rfl ha
    | multixact_offset => exact .inr rfl
  rcases hper with hper | hper
  all_goals
    simp only [behind, page, hper, Word32.sub]
    omega

/-- An id less than half of the circle ahead of another one is not on a page before it. -/
theorem not_before_page {o t : ℕ} (ho : o < 2 ^ 32) (ht : t < 2 ^ 31) :
    a.PagePrecedes (a.page ((o + t) % 2 ^ 32)) (a.page o) = false := by
  by_cases ha : a = .commit_ts
  · subst ha
    have hx : (o + t) % 2 ^ 32 < 2 ^ 32 := Nat.mod_lt _ (Nat.two_pow_pos 32)
    have hper : COMMIT_TS_XACTS_PER_PAGE = 819 := rfl
    rw [← not_eq_true, pageBefore_iff _ (inSegments_page _ hx) (page_le _ ho)]
    simp only [behind, page, perPage, hper]
    -- the distance of the pages differs from that of the ids by less than a page
    have hwrap : (o + t) % 2 ^ 32 = o + t ∨ (o + t) % 2 ^ 32 + 2 ^ 32 = o + t := by omega
    generalize (o + t) % 2 ^ 32 = x at hx hwrap
    rcases lt_or_ge (o / 819 * 819) (x / 819 * 819) with hlt | hge
    · have hword : x / 819 * 819 < 2 ^ 32 := lt_of_le_of_lt (Nat.div_mul_le_self x 819) hx
      rw [Word32.sub_of_lt hlt hword]
      rcases hwrap with hwrap | hwrap <;> omega
    · have hword : o / 819 * 819 < 2 ^ 32 := lt_of_le_of_lt (Nat.div_mul_le_self o 819) ho
      rw [Word32.sub_of_le hge hword]
      rcases hwrap with hwrap | hwrap <;> omega
  · exact not_before_page_of_dvd a ha ho (ht.le)

/-- Pages before the last one: with a page of 2048 entries, those of the upper half. -/
theorem before_last_page_iff (hper : a.perPage = 2048) (hx : x < 2 ^ 32 - 2048) :
    a.PagePrecedes (a.page x) (a.page (2 ^ 32 - 1)) = true ↔ 2 ^ 31 ≤ x := by
  rw [pageBefore_iff a (inSegments_page a (by omega)) (le_refl _)]
  simp only [behind, page, hper, Word32.sub]
  omega

/-! ### Safe truncations -/

/-- **A truncation is safe** for the oldest id `o` and the `d`-th id after it as the newest one. -/
structure TruncationSafe (a : SlruArea) (o d : ℕ) : Prop where
  /-- No segment with the page of an id in use may be deleted. -/
  keeps : ∀ t ≤ d, SlruMayDeleteSegment a.PagePrecedes (segpage (a.page ((o + t) % 2 ^ 32)))
    (a.cutoffPage o) = false
  /-- The page of the newest id does not look like one to be removed. -/
  accepts : a.PagePrecedes (a.page ((o + d) % 2 ^ 32)) (a.cutoffPage o) = false
  /-- The segments that are more than a segment before the cutoff and a segment less than half
  of the circle are deleted. -/
  removes : ∀ segno segments, segno * SLRU_PAGES_PER_SEGMENT ≤ a.page (2 ^ 32 - 1) →
    SLRU_PAGES_PER_SEGMENT * a.perPage <
      a.behind (segno * SLRU_PAGES_PER_SEGMENT) (a.cutoffPage o) →
    a.behind (segno * SLRU_PAGES_PER_SEGMENT) (a.cutoffPage o) <
      2 ^ 31 - SLRU_PAGES_PER_SEGMENT * a.perPage →
    segno ∉ SimpleLruTruncate a.PagePrecedes (a.page ((o + d) % 2 ^ 32)) (a.cutoffPage o) segments

/-- The cutoff is the page of the last id, because the step back from the first id goes over the
special ones, and the newest id is on a page that the last one no longer precedes. -/
def SteppedOver (a : SlruArea) (o d : ℕ) : Prop :=
  match a with
  | .subtrans => o = FirstNormalTransactionId ∧ 2 ^ 31 ≤ o + d
  | .multixact_offset => o = FirstMultiXactId ∧ 2 ^ 31 ≤ o + d
  | _ => False

/-- The areas whose cutoff is the page of the id before the oldest one. -/
theorem cutoffPage_back (ha : a.perPage = 2048) {o : ℕ} (hfirst : a.firstId ≤ o) (ho : o < 2 ^ 32) :
    a.cutoffPage o = a.page (if o = a.firstId then 2 ^ 32 - 1 else o - 1) := by
  cases a with
  | subtrans =>
    rcases lt_or_eq_of_le hfirst with hlt | rfl
    · rw [cutoffPage, TransactionIdRetreat_of_lt hlt ho, if_neg (ne_of_gt hlt)]
    · simp [cutoffPage, firstId, TransactionIdRetreat_first]
  | multixact_offset => rfl
  | _ => cases ha

/-- The cutoff of the other areas. -/
theorem cutoffPage_own (ha : a.perPage ≠ 2048) (o : ℕ) : a.cutoffPage o = a.page o := by
  cases a with
  | xact => rfl
  | commit_ts => rfl
  | _ => exact absurd rfl ha

theorem steppedOver_iff {a : SlruArea} {o d : ℕ} :
    SteppedOver a o d ↔ a.perPage = 2048 ∧ o = a.firstId ∧ 2 ^ 31 ≤ o + d := by
  cases a with
  | subtrans | multixact_offset => exact (and_iff_right rfl).symm
  | _ => exact iff_of_false id fun h => nomatch h.1

theorem firstId_bounds : 1 ≤ a.firstId ∧ a.firstId ≤ 3 := by
  cases a <;> decide

/-- The cutoff page is a page of the area. -/
theorem cutoffPage_le {o : ℕ} (hfirst : a.firstId ≤ o) (ho : o < 2 ^ 32) :
    a.cutoffPage o ≤ a.page (2 ^ 32 - 1) := by
  by_cases ha : a.perPage = 2048
  · rw [cutoffPage_back a ha hfirst ho]
    exact page_le a (by split <;> omega)
  · rw [cutoffPage_own a ha]
    exact page_le a ho

/-- With the first id as the oldest one, the cutoff is the last page, and the pages of the upper
half precede it. -/
theorem before_cutoff_first (ha : a.perPage = 2048) {d : ℕ} (hd : d < 2 ^ 31) :
    a.PagePrecedes (a.page ((a.firstId + d) % 2 ^ 32)) (a.cutoffPage a.firstId) = true ↔
      2 ^ 31 ≤ a.firstId + d := by
  have hfirst := firstId_bounds a
  rw [cutoffPage_back a ha (le_refl _) (by omega), if_pos rfl, mod_eq_of_lt (by omega)]
  exact before_last_page_iff a ha (by omega)

/-- The pages of the ids in use do not precede the cutoff. -/
theorem not_before_cutoff {o d : ℕ} (hfirst : a.firstId ≤ o) (ho : o < 2 ^ 32)
    (hd : d < 2 ^ 31) (hstep : ¬ SteppedOver a o d) :
    a.PagePrecedes (a.page ((o + d) % 2 ^ 32)) (a.cutoffPage o) = false := by
  by_cases ha : a.perPage = 2048
  · by_cases heq : o = a.firstId
    · subst heq
      rw [← not_eq_true, before_cutoff_first a ha hd]
      exact fun hhigh => hstep (steppedOver_iff.mpr ⟨ha, rfl, hhigh⟩)
    · have hnext : o + d = o - 1 + (d + 1) := by omega
      rw [cutoffPage_back a ha hfirst ho, if_neg heq, hnext]
      refine not_before_page_of_dvd a (fun h => ?_) (by omega) (by omega)
      exact absurd (h ▸ ha) (by decide)
  · rw [cutoffPage_own a ha]
    exact not_before_page a ho hd

/-- Fewer ids in use are not a step over the special ones either. -/
theorem SteppedOver.mono {a : SlruArea} {o t d : ℕ} (h : SteppedOver a o t) (htd : t ≤ d) :
    SteppedOver a o d := by
  obtain ⟨ha, ho, hhigh⟩ := steppedOver_iff.mp h
  exact steppedOver_iff.mpr ⟨ha, ho, by omega⟩

/-- An old segment is deleted, if the truncation is not refused. -/
theorem old_segment_removed {c latest segno : ℕ} (segments : List ℕ)
    (hc : c ≤ a.page (2 ^ 32 - 1)) (hlat : a.PagePrecedes latest c = false)
    (hseg : segno * SLRU_PAGES_PER_SEGMENT ≤ a.page (2 ^ 32 - 1))
    (hlow : SLRU_PAGES_PER_SEGMENT * a.perPage < a.behind (segno * SLRU_PAGES_PER_SEGMENT) c)
    (hhigh : a.behind (segno * SLRU_PAGES_PER_SEGMENT) c <
      2 ^ 31 - SLRU_PAGES_PER_SEGMENT * a.perPage) :
    segno ∉ SimpleLruTruncate a.PagePrecedes latest c segments := by
  have hpages : SLRU_PAGES_PER_SEGMENT = 32 := rfl
  rw [hpages] at hseg hlow hhigh
  have hin : ∀ k ≤ 31, a.InSegments (segno * 32 + k) := by
    intro k hk
    have hpage : segpage (segno * 32 + k) = segno * 32 := by
      simp only [segpage, hpages]
      omega
    rwa [InSegments, hpage]
  have hstart : a.InSegments (segno * 32) := hin 0 (by omega)
  have hend : (segno * 32 + 31) * a.perPage = segno * 32 * a.perPage + 31 * a.perPage :=
    add_mul _ _ _
  have hlen : segno * 32 + 32 - 1 = segno * 32 + 31 := by omega
  have hdel : SlruMayDeleteSegment a.PagePrecedes (segno * 32) c = true := by
    rw [SlruMayDeleteSegment, hpages, hlen, and_eq_true,
      pageBefore_iff a hstart hc, pageBefore_iff a (hin 31 (by omega)) hc]
    have hbehind : a.behind (segno * 32 + 31) c = a.behind (segno * 32) c - 31 * a.perPage := by
      rw [behind, hend, Word32.sub_add]
      · rfl
      · change 31 * a.perPage ≤ a.behind (segno * 32) c
        omega
    omega
  intro hmem
  rw [SimpleLruTruncate, if_neg (by rw [hlat]; exact false_ne_true)] at hmem
  have hkept := (List.mem_filter.mp hmem).2
  rw [hpages, hdel] at hkept
  cases hkept

/-- **Truncation is safe unless the cutoff stepped over the special ids.** -/
theorem truncation_safe_iff (a : SlruArea) (o d : ℕ) (hfirst : a.firstId ≤ o) (ho : o < 2 ^ 32)
    (hd : d < 2 ^ 31) : TruncationSafe a o d ↔ ¬ SteppedOver a o d := by
  constructor
  · intro hsafe hstep
    obtain ⟨ha, rfl, hhigh⟩ := steppedOver_iff.mp hstep
    have hbef := (before_cutoff_first a ha hd).mpr hhigh
    rw [hsafe.accepts] at hbef
    exact false_ne_true hbef
  · intro hstep
    have hc := cutoffPage_le a hfirst ho
    have hnot : ∀ t ≤ d, a.PagePrecedes (a.page ((o + t) % 2 ^ 32)) (a.cutoffPage o) = false :=
      fun t ht => not_before_cutoff a hfirst ho (by omega) (fun h => hstep (h.mono ht))
    refine ⟨fun t ht => ?_, hnot d (le_refl d), fun segno segments hseg hlow hhigh => ?_⟩
    · rw [← not_eq_true]
      intro hdel
      have hx : (o + t) % 2 ^ 32 < 2 ^ 32 := Nat.mod_lt _ (Nat.two_pow_pos 32)
      have hbef := pagePrecedes_of_mayDelete a (inSegments_page a hx) hc hdel
      rw [hnot t ht] at hbef
      exact false_ne_true hbef
    · exact old_segment_removed a segments hc (hnot d (le_refl d)) hseg hlow hhigh

/-- A truncation of the commit timestamps, whose pages do not divide the circle, with the whole
range of ids in use. -/
theorem commit_ts_truncation_safe : TruncationSafe .commit_ts (2 ^ 32 - 100) (2 ^ 31 - 1) :=
  (truncation_safe_iff .commit_ts (2 ^ 32 - 100) (2 ^ 31 - 1) (by decide) (by decide)
    (by decide)).mpr id

/-- **A segment in use may be deleted**: with the first multixact as the oldest one and half of the
circle in use, the segment of the newest one precedes the cutoff. -/
theorem multixact_offsets_truncation_unsafe :
    SlruMayDeleteSegment MultiXactOffsetPagePrecedes
      (segpage (multixact_offset.page (2 ^ 31)))
      (multixact_offset.cutoffPage FirstMultiXactId) = true ∧
    ¬ TruncationSafe .multixact_offset FirstMultiXactId (2 ^ 31 - 1) := by
  have hdel : SlruMayDeleteSegment MultiXactOffsetPagePrecedes
      (segpage (multixact_offset.page (2 ^ 31)))
      (multixact_offset.cutoffPage FirstMultiXactId) = true := by decide
  refine ⟨hdel, fun hsafe => ?_⟩
  have hkept := hsafe.keeps (2 ^ 31 - 1) (le_refl _)
  exact false_ne_true (hkept.symm.trans hdel)

end FdPostgres
