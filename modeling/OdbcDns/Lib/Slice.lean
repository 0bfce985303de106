import Mathlib.Data.List.Basic
import Mathlib.Tactic.Common

namespace Slice

variable {α : Type} {xs ys zs : List α} {off n i : Nat}

/-- Replace the entries of `xs` from `off` on by those of `ys`. -/
def overwrite (xs : List α) (off : Nat) (ys : List α) : List α :=
  xs.take off ++ ys ++ xs.drop (off + ys.length)

/-- The entries of `ys` stand in `xs` from position `off` on. -/
def At (xs : List α) (off : Nat) (ys : List α) : Prop :=
  ys <+: xs.drop off

instance [DecidableEq α] (xs : List α) (off : Nat) (ys : List α) : Decidable (At xs off ys) :=
  inferInstanceAs (Decidable (ys <+: xs.drop off))

theorem length_overwrite (h : off + ys.length ≤ xs.length) :
    (overwrite xs off ys).length = xs.length := by
  simp only [overwrite, List.length_append, List.length_take, List.length_drop]
  omega

theorem getElem?_overwrite (h : off + ys.length ≤ xs.length) (i : Nat) :
    (overwrite xs off ys)[i]? =
      if i < off then xs[i]? else if i < off + ys.length then ys[i - off]? else xs[i]? := by
  have ht : (xs.take off).length = off := by
    rw [List.length_take]
    omega
  unfold overwrite
  rw [List.getElem?_append, List.getElem?_append]
  simp only [List.length_append, ht]
  by_cases h1 : i < off
  · have h2 : i < off + ys.length := by omega
    simp [h1, h2]
  · by_cases h2 : i < off + ys.length
    · simp [h1, h2]
    · have he : off + ys.length + (i - (off + ys.length)) = i := by omega
      simp [h1, h2, List.getElem?_drop, he]

/-- Entries before the written window are unchanged. -/
theorem take_overwrite (h : off + ys.length ≤ xs.length) (hn : n ≤ off) :
    (overwrite xs off ys).take n = xs.take n := by
  apply List.ext_getElem?
  intro i
  rw [List.getElem?_take, List.getElem?_take, getElem?_overwrite h]
  by_cases hi : i < n
  · have h1 : i < off := by omega
    simp [hi, h1]
  · simp [hi]

/-- Lists that agree up to the written window agree up to its end. -/
theorem take_overwrite_congr {xs' : List α} {m : Nat} (h : off + ys.length ≤ xs.length)
    (h' : off + ys.length ≤ xs'.length) (he : xs.take m = xs'.take m) (hoff : off ≤ m) :
    (overwrite xs off ys).take (max m (off + ys.length)) =
      (overwrite xs' off ys).take (max m (off + ys.length)) := by
  have agree : ∀ i < m, xs[i]? = xs'[i]? := by
    intro i hi
    have := congrArg (·[i]?) he
    simpa [List.getElem?_take, hi] using this
  apply List.ext_getElem?
  intro i
  rw [List.getElem?_take, List.getElem?_take, getElem?_overwrite h, getElem?_overwrite h']
  by_cases hi : i < max m (off + ys.length)
  · rw [if_pos hi, if_pos hi]
    by_cases h1 : i < off
    · rw [if_pos h1, if_pos h1, agree i (by omega)]
    · by_cases h2 : i < off + ys.length
      · rw [if_neg h1, if_neg h1, if_pos h2, if_pos h2]
      · rw [if_neg h1, if_neg h1, if_neg h2, if_neg h2, agree i (by omega)]
  · rw [if_neg hi, if_neg hi]

theorem drop_overwrite_self (h : off + ys.length ≤ xs.length) :
    (overwrite xs off ys).drop off = ys ++ xs.drop (off + ys.length) := by
  have ht : (xs.take off).length = off := by
    rw [List.length_take]
    omega
  rw [overwrite, List.append_assoc, List.drop_append, ht, Nat.sub_self, List.drop_zero,
    List.drop_eq_nil_of_le (Nat.le_of_eq ht), List.nil_append]

@[simp] theorem overwrite_nil (xs : List α) (off : Nat) : overwrite xs off [] = xs := by
  simp [overwrite]

/-- Two windows that do not meet may be written in either order. -/
theorem overwrite_comm {off' : Nat} (h : off + ys.length ≤ off')
    (h' : off' + zs.length ≤ xs.length) :
    overwrite (overwrite xs off' zs) off ys = overwrite (overwrite xs off ys) off' zs := by
  have h1 : off + ys.length ≤ xs.length := by omega
  have h2 : off + ys.length ≤ (overwrite xs off' zs).length := by
    rw [length_overwrite h']
    exact h1
  have h3 : off' + zs.length ≤ (overwrite xs off ys).length := by
    rw [length_overwrite h1]
    exact h'
  apply List.ext_getElem?
  intro i
  rw [getElem?_overwrite h2, getElem?_overwrite h', getElem?_overwrite h3,
    getElem?_overwrite h1]
  repeat' split
  all_goals first | rfl | omega

/-- A window written directly behind another one extends it. -/
theorem overwrite_append (h : off + (ys ++ zs).length ≤ xs.length) :
    overwrite (overwrite xs off ys) (off + ys.length) zs = overwrite xs off (ys ++ zs) := by
  have hl : off + ys.length + zs.length ≤ xs.length := by
    simpa [Nat.add_assoc] using h
  have h1 : off + ys.length ≤ xs.length := by omega
  have h2 : off + ys.length + zs.length ≤ (overwrite xs off ys).length := by
    rw [length_overwrite h1]
    exact hl
  apply List.ext_getElem?
  intro i
  rw [getElem?_overwrite h2, getElem?_overwrite h1, getElem?_overwrite h,
    List.getElem?_append, List.length_append]
  repeat' split
  all_goals first | rfl | omega | (congr 1; omega)

theorem At.drop_eq (h : At xs off ys) : xs.drop off = ys ++ xs.drop (off + ys.length) := by
  obtain ⟨t, ht⟩ := h
  rw [← List.drop_drop, ← ht, List.drop_left]

theorem At.of_drop (zs : List α) (h : xs.drop off = ys ++ zs) : At xs off ys := ⟨zs, h.symm⟩

theorem At.le (h : At xs off ys) (hne : ys ≠ []) : off + ys.length ≤ xs.length := by
  have hl := List.IsPrefix.length_le h
  have hp := List.length_pos_of_ne_nil hne
  rw [List.length_drop] at hl
  omega

theorem At.getElem? (h : At xs off ys) (hi : i < ys.length) : xs[off + i]? = ys[i]? := by
  rw [← List.getElem?_drop, h.drop_eq, List.getElem?_append_left hi]

theorem at_iff : At xs off ys ↔ ∀ i < ys.length, xs[off + i]? = ys[i]? := by
  refine ⟨fun h i hi => h.getElem? hi, fun h => ?_⟩
  refine At.of_drop (xs.drop (off + ys.length)) ?_
  apply List.ext_getElem?
  intro i
  rw [List.getElem?_drop, List.getElem?_append, List.getElem?_drop]
  split
  · rename_i hi
    exact h i hi
  · congr 1
    omega

theorem at_append : At xs off (ys ++ zs) ↔ At xs off ys ∧ At xs (off + ys.length) zs := by
  constructor
  · intro h
    refine ⟨(List.prefix_append ys zs).trans h, ?_⟩
    have he := h.drop_eq
    refine At.of_drop (xs.drop (off + (ys ++ zs).length)) ?_
    rw [← List.drop_drop, he, List.append_assoc, List.drop_left]
  · rintro ⟨hy, hz⟩
    refine At.of_drop (xs.drop (off + ys.length + zs.length)) ?_
    rw [hy.drop_eq, hz.drop_eq, List.append_assoc]

theorem at_cons {a : α} : At xs off (a :: ys) ↔ xs[off]? = some a ∧ At xs (off + 1) ys := by
  have h := @at_append α xs [a] ys off
  rw [List.singleton_append] at h
  rw [h, List.length_singleton]
  refine and_congr_left fun _ => ?_
  constructor
  · intro ha
    simpa using ha.getElem? (i := 0) (by simp)
  · intro ha
    obtain ⟨hlt, hg⟩ := List.getElem?_eq_some_iff.mp ha
    refine At.of_drop (xs.drop (off + 1)) ?_
    rw [List.drop_eq_getElem_cons hlt, hg]
    rfl

/-- What has just been written stands where it was written. -/
theorem at_overwrite (h : off + ys.length ≤ xs.length) : At (overwrite xs off ys) off ys :=
  At.of_drop _ (drop_overwrite_self h)

/-- A write in front of or behind a segment does not touch it. -/
theorem At.overwrite {off' : Nat} (h : At xs off ys) (h' : off' + zs.length ≤ xs.length)
    (hd : off + ys.length ≤ off' ∨ off' + zs.length ≤ off) : At (overwrite xs off' zs) off ys := by
  rw [at_iff]
  intro i hi
  rw [getElem?_overwrite h', ← h.getElem? hi]
  rcases hd with hd | hd
  · rw [if_pos (by omega)]
  · rw [if_neg (by omega), if_neg (by omega)]

/-- A segment that ends before `n` depends on the first `n` entries only. -/
theorem At.of_take_eq {xs' : List α} (h : At xs off ys) (he : xs'.take n = xs.take n)
    (hn : off + ys.length ≤ n) : At xs' off ys := by
  rw [at_iff]
  intro i hi
  have hg := congrArg (fun l => l[off + i]?) he
  simp only [List.getElem?_take, show off + i < n by omega, if_true] at hg
  rw [hg]
  exact h.getElem? hi

end Slice
