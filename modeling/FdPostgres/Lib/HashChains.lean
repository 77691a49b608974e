import Mathlib

/-!
# Doubly Linked Hash Chains over Recycled Entries

Entries are numbered, and the entries of one key form a doubly linked list with the youngest
first. Entry 0 stands for the end of a list: nothing is ever read from it, so its back link may
be overwritten freely.

* `unlink` takes an entry out of its list, `push` puts an entry at the head of a list. Neither
  looks at an entry that was not put in before, so what the fields held at the start does not
  matter.
* `Linked c V K` says, link by link, that the entries in `V` form such lists for the keys below
  `K`, with stamps that fall from the head on. It is kept by `unlink` (`Linked.unlink`) and by
  `push` (`Linked.push`).
-/

/-- The heads of the lists and the fields of the entries. `none` is a null link. -/
structure HashChains where
  /-- The first entry of each key, 0 if there is none. -/
  start : ℕ → ℕ
  /-- The next older entry, 0 at the end. -/
  next : ℕ → Option ℕ
  /-- The next younger entry, null at the head. -/
  prev : ℕ → Option ℕ
  /-- The key of an entry. -/
  key : ℕ → ℕ
  /-- The stamp of an entry. -/
  stamp : ℕ → ℕ

namespace HashChains

open Function Option

/-- Take an entry out of its list. -/
def unlink (c : HashChains) (e : ℕ) : HashChains :=
  let c := match c.prev e with
    | none => { c with start := update c.start (c.key e) ((c.next e).getD 0) }
    | some p => { c with next := update c.next p (c.next e) }
  match c.next e with
  | none => c
  | some x => { c with prev := update c.prev x (c.prev e) }

/-- Put an entry at the head of the list of a key. The old head is linked back without a look at
whether there is one. -/
def push (c : HashChains) (e k t : ℕ) : HashChains where
  start := update c.start k e
  next := update c.next e (some (c.start k))
  prev := update (update c.prev e none) (c.start k) (some e)
  key := update c.key e k
  stamp := update c.stamp e t

/-- The entries in `V` are linked into lists, one for each key below `K`. -/
structure Linked (c : HashChains) (V : ℕ → Prop) (K : ℕ) : Prop where
  /-- Entry 0 is in no list. -/
  ne_zero : ∀ e, V e → e ≠ 0
  /-- Every entry has one of the keys. -/
  key_lt : ∀ e, V e → c.key e < K
  /-- A head is an entry of its key without a younger one. -/
  head : ∀ k < K, c.start k ≠ 0 → V (c.start k) ∧ c.prev (c.start k) = none ∧ c.key (c.start k) = k
  /-- The next entry is older, has the same key and links back. -/
  older : ∀ e, V e → ∃ x, c.next e = some x ∧
    (x ≠ 0 → V x ∧ c.prev x = some e ∧ c.key x = c.key e ∧ c.stamp x < c.stamp e)
  /-- An entry without a younger one is the head of its list. -/
  first : ∀ e, V e → c.prev e = none → c.start (c.key e) = e
  /-- The younger entry links to this one. -/
  younger : ∀ e p, V e → c.prev e = some p → V p ∧ c.next p = some e

variable {c : HashChains} {V : ℕ → Prop} {K e : ℕ}

/-- Lists that are all empty are linked. -/
theorem Linked.empty (h : ∀ k < K, c.start k = 0) : Linked c (fun _ => False) K where
  ne_zero := fun _ hv => hv.elim
  key_lt := fun _ hv => hv.elim
  head := fun k hk hne => absurd (h k hk) hne
  older := fun _ hv => hv.elim
  first := fun _ hv => hv.elim
  younger := fun _ _ hv => hv.elim

/-- Which entries are linked is a matter of the set alone. -/
theorem Linked.congr {W : ℕ → Prop} (h : Linked c V K) (hVW : ∀ e, V e ↔ W e) : Linked c W K := by
  have : V = W := funext fun e => propext (hVW e)
  exact this ▸ h

/-- No two entries have the same next entry, since that one links back to both. -/
theorem Linked.next_inj (h : Linked c V K) {p q x : ℕ} (hp : V p) (hq : V q) (hx : x ≠ 0)
    (hpx : c.next p = some x) (hqx : c.next q = some x) : p = q := by
  obtain ⟨y, hy, hold⟩ := h.older p hp
  obtain ⟨z, hz, hold'⟩ := h.older q hq
  obtain rfl : y = x := some.inj (hy.symm.trans hpx)
  obtain rfl : z = y := some.inj (hz.symm.trans hqx)
  exact some.inj ((hold hx).2.1.symm.trans (hold' hx).2.1)

/-- An entry is not next to itself. -/
theorem Linked.next_ne_self (h : Linked c V K) (he : V e) : c.next e ≠ some e := by
  intro hn
  obtain ⟨x, hx, hold⟩ := h.older e he
  obtain rfl : x = e := some.inj (hx.symm.trans hn)
  exact lt_irrefl _ (hold (h.ne_zero _ he)).2.2.2

/-! ### Unlinking -/

/-- The fields after an entry is taken out. -/
theorem unlink_eq {x : ℕ} (hnext : c.next e = some x) :
    c.unlink e = { c with
      start := if c.prev e = none then update c.start (c.key e) x else c.start
      next := fun i => if c.prev e = some i then some x else c.next i
      prev := update c.prev x (c.prev e) } := by
  cases hprev : c.prev e with
  | none => simp [unlink, hprev, hnext]
  | some p =>
    have hupd : update c.next p (some x) = fun i => if p = i then some x else c.next i := by
      funext i
      simp only [update_apply, eq_comm]
    simp [unlink, hprev, hnext, hupd]

/-- **Unlinking** an entry leaves the others linked, and nothing leads to it any more. -/
theorem Linked.unlink (h : Linked c V K) (he : V e) :
    Linked (c.unlink e) (fun i => V i ∧ i ≠ e) K := by
  obtain ⟨y, hnext, hold⟩ := h.older e he
  have hye : y ≠ e := fun hye => h.next_ne_self he (hye ▸ hnext)
  have hyoung : ∀ p, c.prev e = some p → V p ∧ c.next p = some e := fun p => h.younger e p he
  rw [unlink_eq hnext]
  refine ⟨fun i hi => h.ne_zero i hi.1, fun i hi => h.key_lt i hi.1, ?_, ?_, ?_, ?_⟩
  · intro k hk hne
    dsimp only at hne ⊢
    by_cases hke : c.prev e = none ∧ k = c.key e
    · rw [if_pos hke.1, hke.2, update_self] at hne ⊢
      obtain ⟨hVy, -, hky, -⟩ := hold hne
      exact ⟨⟨hVy, hye⟩, (update_self ..).trans hke.1, hky⟩
    · have hstart : (if c.prev e = none then update c.start (c.key e) y else c.start) k =
          c.start k := by
        split
        · exact update_of_ne (fun hk => hke ⟨‹_›, hk⟩) _ _
        · rfl
      rw [hstart] at hne ⊢
      obtain ⟨hVs, hps, hks⟩ := h.head k hk hne
      -- a head has no younger entry, so it is not the entry after `e`
      have hsy : c.start k ≠ y := by
        intro hs
        rw [hs, (hold (hs ▸ hne)).2.1] at hps
        cases hps
      rw [update_of_ne hsy]
      refine ⟨⟨hVs, fun hs => hke ?_⟩, hps, hks⟩
      exact ⟨hs ▸ hps, by rw [← hs, hks]⟩
  · intro i hi
    dsimp only
    by_cases hpi : c.prev e = some i
    · obtain ⟨z, hz, hiold⟩ := h.older i hi.1
      obtain rfl : z = e := some.inj (hz.symm.trans (hyoung i hpi).2)
      obtain ⟨-, -, hki, hti⟩ := hiold (h.ne_zero _ he)
      refine ⟨y, if_pos hpi, fun hy0 => ?_⟩
      obtain ⟨hVy, -, hky, hty⟩ := hold hy0
      exact ⟨⟨hVy, hye⟩, (update_self ..).trans hpi, hky.trans hki, lt_trans hty hti⟩
    · obtain ⟨z, hz, hzold⟩ := h.older i hi.1
      refine ⟨z, (if_neg hpi).trans hz, fun hz0 => ?_⟩
      obtain ⟨hVz, hpz, hkz, htz⟩ := hzold hz0
      -- what is next to `e` is next to nothing else, so the other back links stay
      have hzy : z ≠ y := fun hzy => hi.2 (h.next_inj hi.1 he hz0 hz (hzy ▸ hnext))
      rw [update_of_ne hzy]
      exact ⟨⟨hVz, fun hze => hpi (hze ▸ hpz)⟩, hpz, hkz, htz⟩
  · intro i hi hpi
    dsimp only at hpi ⊢
    by_cases hiy : i = y
    · subst hiy
      rw [update_self] at hpi
      rw [(hold (h.ne_zero _ hi.1)).2.2.1, if_pos hpi, update_self]
    · rw [update_of_ne hiy] at hpi
      have hfirst := h.first i hi.1 hpi
      split
      · rw [update_of_ne, hfirst]
        intro hk
        rw [hk, h.first e he ‹_›] at hfirst
        exact hi.2 hfirst.symm
      · exact hfirst
  · intro i p hi hpi
    dsimp only at hpi ⊢
    by_cases hiy : i = y
    · subst hiy
      rw [update_self] at hpi
      refine ⟨⟨(hyoung p hpi).1, fun hpe => ?_⟩, if_pos hpi⟩
      exact h.next_ne_self he (hpe ▸ (hyoung p hpi).2)
    · rw [update_of_ne hiy] at hpi
      obtain ⟨hVp, hnp⟩ := h.younger i p hi.1 hpi
      refine ⟨⟨hVp, ?_⟩, (if_neg fun hpe => ?_).trans hnp⟩
      · rintro rfl
        exact hiy (some.inj (hnp.symm.trans hnext))
      · exact hi.2 (some.inj (hnp.symm.trans (hyoung p hpe).2))

@[simp] theorem unlink_stamp (c : HashChains) (e : ℕ) : (c.unlink e).stamp = c.stamp := by
  simp only [unlink]
  split <;> split <;> rfl

/-! ### Pushing -/

/-- **Pushing** an entry that is in no list and younger than all others keeps the links. -/
theorem Linked.push (h : Linked c V K) {k t : ℕ} (he : ¬ V e) (he0 : e ≠ 0) (hk : k < K)
    (ht : ∀ i, V i → c.stamp i < t) : Linked (c.push e k t) (fun i => V i ∨ i = e) K := by
  have hne : ∀ {i}, V i → i ≠ e := fun hi hie => he (hie ▸ hi)
  -- the old head, if there is one, is another entry
  have hhead : c.start k ≠ e := by
    intro hs
    exact he (hs ▸ (h.head k hk (hs ▸ he0)).1)
  have hprev : ∀ {i}, i ≠ e → i ≠ c.start k → (c.push e k t).prev i = c.prev i := by
    intro i hie his
    simp only [HashChains.push, update_of_ne his, update_of_ne hie]
  have hprev_e : (c.push e k t).prev e = none := by
    simp [HashChains.push, update_of_ne hhead.symm]
  have hprev_head : (c.push e k t).prev (c.start k) = some e := update_self ..
  have hnext : ∀ {i}, i ≠ e → (c.push e k t).next i = c.next i := fun hie => update_of_ne hie ..
  have hkey : ∀ {i}, i ≠ e → (c.push e k t).key i = c.key i := fun hie => update_of_ne hie ..
  have hkey_e : (c.push e k t).key e = k := update_self ..
  have hstamp : ∀ {i}, i ≠ e → (c.push e k t).stamp i = c.stamp i := fun hie => update_of_ne hie ..
  have hstamp_e : (c.push e k t).stamp e = t := update_self ..
  refine ⟨?_, ?_, ?_, ?_, ?_, ?_⟩
  · rintro i (hi | rfl)
    · exact h.ne_zero i hi
    · exact he0
  · rintro i (hi | rfl)
    · rw [hkey (hne hi)]
      exact h.key_lt i hi
    · rw [hkey_e]
      exact hk
  · intro j hj hj0
    by_cases hjk : j = k
    · subst hjk
      have hstart : (c.push e j t).start j = e := update_self ..
      rw [hstart]
      exact ⟨.inr rfl, hprev_e, hkey_e⟩
    · have hstart : (c.push e k t).start j = c.start j := update_of_ne hjk ..
      rw [hstart] at hj0 ⊢
      obtain ⟨hV, hp, hkj⟩ := h.head j hj hj0
      have hother : c.start j ≠ c.start k := by
        intro hs
        have hkk := (h.head k hk (hs ▸ hj0)).2.2
        rw [← hs, hkj] at hkk
        exact hjk hkk
      rw [hprev (hne hV) hother, hkey (hne hV)]
      exact ⟨.inl hV, hp, hkj⟩
  · rintro i (hi | rfl)
    · obtain ⟨x, hx, hold⟩ := h.older i hi
      refine ⟨x, (hnext (hne hi)).trans hx, fun hx0 => ?_⟩
      obtain ⟨hVx, hpx, hkx, htx⟩ := hold hx0
      have hxs : x ≠ c.start k := by
        rintro rfl
        rw [(h.head k hk hx0).2.1] at hpx
        cases hpx
      rw [hprev (hne hVx) hxs, hkey (hne hVx), hkey (hne hi), hstamp (hne hVx), hstamp (hne hi)]
      exact ⟨.inl hVx, hpx, hkx, htx⟩
    · refine ⟨c.start k, update_self .., fun hs0 => ?_⟩
      obtain ⟨hV, -, hks⟩ := h.head k hk hs0
      rw [hkey (hne hV), hkey_e, hstamp (hne hV), hstamp_e]
      exact ⟨.inl hV, hprev_head, hks, ht _ hV⟩
  · rintro i (hi | rfl) hpi
    · have his : i ≠ c.start k := by
        rintro rfl
        rw [hprev_head] at hpi
        cases hpi
      rw [hprev (hne hi) his] at hpi
      have hfirst := h.first i hi hpi
      rw [hkey (hne hi)]
      have hik : c.key i ≠ k := by
        intro hk'
        exact his (by rw [← hk', hfirst])
      exact (update_of_ne hik ..).trans hfirst
    · rw [hkey_e]
      exact update_self ..
  · rintro i p (hi | rfl) hpi
    · by_cases his : i = c.start k
      · rw [his, hprev_head] at hpi
        obtain rfl : e = p := some.inj hpi
        rw [his]
        exact ⟨.inr rfl, update_self ..⟩
      · rw [hprev (hne hi) his] at hpi
        obtain ⟨hVp, hnp⟩ := h.younger i p hi hpi
        rw [hnext (hne hVp)]
        exact ⟨.inl hVp, hnp⟩
    · rw [hprev_e] at hpi
      cases hpi

end HashChains
