import Mathlib

/-!
# Paths Along Links

Nodes that each have at most one link to another node. Following the links from a node gives a path
that has no branches.

* `Leads`, `Acyclic`, `Unshared`: a link, no way back, and no two links to one node.
* `Acyclic.nodup`: a path passes no node twice.
* `mem_or_beyond`: what a path leads to is on it or behind its end.
* `Unshared.origin_unique`: **only one node without links to it leads to a given node.**
-/

namespace LinkPaths

open Relation List

variable {α : Type*} {next : α → Option α} {a b c : α} {l : List α}

/-- The link of a node is to another one. -/
def Leads (next : α → Option α) (a b : α) : Prop := next a = some b

/-- No way leads back to where it began. -/
def Acyclic (next : α → Option α) : Prop := ∀ a, ¬ TransGen (Leads next) a a

/-- No two nodes have a link to the same one. -/
def Unshared (next : α → Option α) : Prop :=
  ∀ ⦃a b c⦄, Leads next a c → Leads next b c → a = b

theorem Leads.unique (h : Leads next a b) (h' : Leads next a c) : b = c :=
  Option.some.inj (h.symm.trans h')

/-- The first node of a path leads to all others. -/
theorem transGen_of_mem (h : (a :: l).IsChain (Leads next)) (hb : b ∈ l) :
    TransGen (Leads next) a b :=
  (h.imp fun _ _ => TransGen.single).rel_cons hb

/-- **A path passes no node twice.** -/
theorem Acyclic.nodup (h : Acyclic next) (hl : l.IsChain (Leads next)) : l.Nodup := by
  induction l with
  | nil => exact nodup_nil
  | cons a l ih =>
    exact nodup_cons.mpr ⟨fun ha => h a (transGen_of_mem hl ha), ih hl.tail⟩

/-- Links that only go up have no cycle. -/
theorem acyclic_of_lt {next : ℕ → Option ℕ} (h : ∀ a b, Leads next a b → a < b) : Acyclic next := by
  have hlt : ∀ a b, TransGen (Leads next) a b → a < b := by
    intro a b hab
    induction hab with
    | single hab => exact h _ _ hab
    | tail _ hbc ih => exact ih.trans (h _ _ hbc)
  exact fun a haa => absurd (hlt a a haa) (lt_irrefl a)

/-- A way that begins with a link. -/
theorem eq_or_of_leads (hab : Leads next a b) (h : ReflTransGen (Leads next) a c) :
    a = c ∨ ReflTransGen (Leads next) b c := by
  rcases h.cases_head with heq | ⟨d, had, hdc⟩
  · exact Or.inl heq
  · obtain rfl := hab.unique had
    exact Or.inr hdc

/-- A way on from a node whose link leads nowhere. -/
theorem eq_of_next_none (ha : next a = none) (h : ReflTransGen (Leads next) a c) : a = c := by
  rcases h.cases_head with heq | ⟨d, had, -⟩
  · exact heq
  · exact absurd (ha.symm.trans had) (by simp)

/-- **What a path leads to is on it, or behind its last node.** -/
theorem mem_or_beyond (h : (a :: l).IsChain (Leads next)) (hac : ReflTransGen (Leads next) a c) :
    c ∈ a :: l ∨ ∃ e m, (a :: l).getLast? = some e ∧ Leads next e m ∧
      ReflTransGen (Leads next) m c := by
  induction l generalizing a with
  | nil =>
    rcases hac.cases_head with rfl | ⟨d, had, hdc⟩
    · exact Or.inl mem_cons_self
    · exact Or.inr ⟨a, d, rfl, had, hdc⟩
  | cons b l ih =>
    have hab := rel_of_isChain_cons_cons h
    rcases eq_or_of_leads hab hac with rfl | hbc
    · exact Or.inl mem_cons_self
    · rcases ih h.tail hbc with hmem | ⟨e, m, hlast, hem, hmc⟩
      · exact Or.inl (mem_cons_of_mem _ hmem)
      · exact Or.inr ⟨e, m, by exact hlast, hem, hmc⟩

/-- **Only one node without links to it leads to a given node.** -/
theorem Unshared.origin_unique (h : Unshared next) (ha : ∀ d, ¬ Leads next d a)
    (hb : ∀ d, ¬ Leads next d b) (hac : ReflTransGen (Leads next) a c)
    (hbc : ReflTransGen (Leads next) b c) : a = b := by
  induction hac with
  | refl =>
    rcases hbc.cases_tail with heq | ⟨d, -, hda⟩
    · exact heq
    · exact absurd hda (ha d)
  | tail hac hcd ih =>
    rcases hbc.cases_tail with heq | ⟨e, hbe, hed⟩
    · exact absurd hcd (heq ▸ hb _)
    · exact ih (h hed hcd ▸ hbe)

end LinkPaths
