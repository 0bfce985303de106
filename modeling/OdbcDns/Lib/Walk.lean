import Mathlib.Data.Finset.Card

/-! Walks along a relation, counted by their steps. Where the steps can only lead
to finitely many places, a walk that is long enough has come back to one of them. -/

variable {α : Type*}

/-- `Walk R n a b`: `b` is reached from `a` in `n` steps. -/
inductive Walk (R : α → α → Prop) : Nat → α → α → Prop
  | here (a : α) : Walk R 0 a a
  | step {n : Nat} {a b c : α} (first : R a b) (rest : Walk R n b c) : Walk R (n + 1) a c

namespace Walk

variable {R : α → α → Prop} {n m : Nat} {a b c : α}

theorem single (h : R a b) : Walk R 1 a b := .step h (.here b)

theorem append (h : Walk R n a b) (k : Walk R m b c) : Walk R (n + m) a c := by
  induction h with
  | here a => rwa [Nat.zero_add]
  | step first _ ih =>
    rw [Nat.add_right_comm]
    exact .step first (ih k)

theorem concat (h : Walk R n a b) (last : R b c) : Walk R (n + 1) a c :=
  h.append (single last)

/-- The last step of a walk. -/
theorem last (h : Walk R (n + 1) a c) : ∃ b, Walk R n a b ∧ R b c := by
  induction n generalizing a with
  | zero =>
    cases h with
    | step first rest =>
      cases rest
      exact ⟨a, .here a, first⟩
  | succ n ih =>
    cases h with
    | step first rest =>
      obtain ⟨b, hb, hl⟩ := ih rest
      exact ⟨b, .step first hb, hl⟩

theorem zero_iff : Walk R 0 a b ↔ a = b := by
  constructor
  · intro h
    cases h
    rfl
  · rintro rfl
    exact .here a

theorem succ_iff : Walk R (n + 1) a c ↔ ∃ b, R a b ∧ Walk R n b c := by
  constructor
  · intro h
    cases h with
    | step first rest => exact ⟨_, first, rest⟩
  · rintro ⟨b, first, rest⟩
    exact .step first rest

/-- The places of a walk, one after the other. -/
theorem places (h : Walk R n a c) :
    ∃ v : Nat → α, v 0 = a ∧ ∀ i < n, R (v i) (v (i + 1)) := by
  induction h with
  | here a => exact ⟨fun _ => a, rfl, fun i hi => absurd hi (Nat.not_lt_zero i)⟩
  | @step n a b c first _ ih =>
    obtain ⟨v, h0, hs⟩ := ih
    refine ⟨fun i => i.casesOn a v, rfl, ?_⟩
    intro i hi
    cases i with
    | zero =>
      rw [← h0] at first
      exact first
    | succ i => exact hs i (Nat.lt_of_succ_lt_succ hi)

theorem of_places {v : Nat → α} (hs : ∀ i < n, R (v i) (v (i + 1))) {i k : Nat} (h : i + k ≤ n) :
    Walk R k (v i) (v (i + k)) := by
  induction k with
  | zero => exact .here (v i)
  | succ k ih => exact (ih (by omega)).concat (hs (i + k) (by omega))

end Walk

/-- Walks of every length lead away from `a`. -/
def Endless (R : α → α → Prop) (a : α) : Prop := ∀ n, ∃ b, Walk R n a b

/-- Some place behind `a` leads back to itself. -/
def Loops (R : α → α → Prop) (a : α) : Prop :=
  ∃ n m b, Walk R n a b ∧ Walk R (m + 1) b b

section Finite

variable {R : α → α → Prop} {a c : α} {n : Nat}

theorem Walk.shorten (h : Walk R n a c) {m : Nat} (hm : m ≤ n) : ∃ b, Walk R m a b := by
  obtain ⟨v, rfl, hs⟩ := h.places
  exact ⟨_, Walk.of_places hs (i := 0) (k := m) (by omega)⟩

theorem Loops.endless (h : Loops R a) : Endless R a := by
  obtain ⟨n, m, b, hb, hl⟩ := h
  -- going round `k` times gives a walk of at least `k` steps
  have round : ∀ k, ∃ l, k ≤ l ∧ Walk R l a b := by
    intro k
    induction k with
    | zero => exact ⟨n, Nat.zero_le n, hb⟩
    | succ k ih =>
      obtain ⟨l, hk, hw⟩ := ih
      exact ⟨l + (m + 1), by omega, hw.append hl⟩
  intro k
  obtain ⟨l, hk, hw⟩ := round k
  exact hw.shorten hk

/-- A walk with more steps than there are places to step to has gone round. -/
theorem Walk.loops (s : Finset α) (hs : ∀ a b, R a b → b ∈ s) (h : Walk R n a c)
    (hn : s.card < n) : Loops R a := by
  obtain ⟨v, rfl, hv⟩ := h.places
  have hmaps : ∀ i ∈ Finset.range n, v (i + 1) ∈ s := by
    intro i hi
    exact hs _ _ (hv i (Finset.mem_range.mp hi))
  obtain ⟨i, hi, j, hj, hne, he⟩ := Finset.exists_ne_map_eq_of_card_lt_of_maps_to
    (by rwa [Finset.card_range]) hmaps
  rw [Finset.mem_range] at hi hj
  -- the two visits to one place, in their order
  have round : ∀ {i j : Nat}, i < j → j < n → v (i + 1) = v (j + 1) → Loops R (v 0) := by
    intro i j hij hj he
    have h1 : Walk R (i + 1) (v 0) (v (0 + (i + 1))) := of_places hv (by omega)
    have h2 : Walk R (j - i) (v (i + 1)) (v (i + 1 + (j - i))) := of_places hv (by omega)
    rw [Nat.zero_add] at h1
    rw [show i + 1 + (j - i) = j + 1 by omega, ← he, show j - i = j - i - 1 + 1 by omega] at h2
    exact ⟨_, _, _, h1, h2⟩
  rcases Nat.lt_or_gt_of_ne hne with hlt | hgt
  · exact round hlt hj he
  · exact round hgt hi he.symm

end Finite
