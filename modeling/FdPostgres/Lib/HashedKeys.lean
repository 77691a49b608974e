import Mathlib

/-!
# Keys With a Hash Function

The functions that a hash table is given for its keys: a hash value of 32 bits and a test for
the same key. The test is an equivalence, and keys that are the same have one hash value.
-/

/-- A hash function and an equality of keys that it respects. -/
structure HashedKeys (K : Type*) where
  /-- The hash value of a key. -/
  hash : K → ℕ
  /-- Whether two keys are the same. -/
  same : K → K → Bool
  hash_lt : ∀ k, hash k < 2 ^ 32
  same_refl : ∀ k, same k k = true
  same_symm : ∀ {k k'}, same k k' = true → same k' k = true
  same_trans : ∀ {k k' k''}, same k k' = true → same k' k'' = true → same k k'' = true
  hash_same : ∀ {k k'}, same k k' = true → hash k = hash k'
