import Mathlib

/-!
# Readers of a Log

A reader gets the entries of a growing log in pieces, and may be told that it has missed some. What
it has got follows the log from one position to another if each piece stands in the log where the
one before ended, the announced gaps apart.

* `Follows`: what a reader has got follows the log.
* `Follows.mono`: **it still does when the log has grown.**
-/

namespace LogReader

variable {α : Type*}

/-- What a reader has got, in order, follows the log from one position to another: a piece is a list
of entries, and a gap is `none`. -/
inductive Follows (log : List α) (start : ℕ) : List (Option (List α)) → ℕ → Prop
  /-- Nothing has been read. -/
  | nil : Follows log start [] start
  /-- A piece of the log. -/
  | piece {reads : List (Option (List α))} {pos : ℕ} {l : List α} (h : Follows log start reads pos)
      (hl : l <+: log.drop pos) : Follows log start (reads ++ [some l]) (pos + l.length)
  /-- An announced gap. -/
  | gap {reads : List (Option (List α))} {pos pos' : ℕ} (h : Follows log start reads pos)
      (hle : pos ≤ pos') : Follows log start (reads ++ [none]) pos'

/-- **What follows a log follows it when it has grown.** -/
theorem Follows.mono {log log' : List α} (hlog : log <+: log') {start : ℕ}
    {reads : List (Option (List α))} {pos : ℕ} (h : Follows log start reads pos) :
    Follows log' start reads pos := by
  induction h with
  | nil => exact .nil
  | piece _ hl ih => exact ih.piece (hl.trans (hlog.drop _))
  | gap _ hle ih => exact ih.gap hle

/-- One more entry of a piece. -/
theorem prefix_drop_append {log l : List α} {pos : ℕ} {a : α} (hl : l <+: log.drop pos)
    (ha : log[pos + l.length]? = some a) : l ++ [a] <+: log.drop pos := by
  obtain ⟨t, ht⟩ := hl
  have hget : t[0]? = some a := by
    rw [← List.getElem?_drop, ← ht, List.getElem?_append_right le_rfl, Nat.sub_self] at ha
    exact ha
  cases t with
  | nil => exact absurd hget (by simp)
  | cons b t =>
    obtain rfl : b = a := by simpa using hget
    exact ⟨t, by simpa using ht⟩

end LogReader
