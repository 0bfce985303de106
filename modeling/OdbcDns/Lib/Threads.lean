import Mathlib.Algebra.GroupWithZero.Nat
import Mathlib.Algebra.Order.BigOperators.Group.List
import Mathlib.Algebra.Order.Group.Nat
import Mathlib.Data.List.Forall2

/-! Amounts that the threads of a system hold, added up over a list of their
states. -/

variable {α : Type*}

def total (f : α → Nat) (l : List α) : Nat := (l.map f).sum

variable {f g : α → Nat} {l : List α} {i : Nat} {x : α}

/-- When one thread goes to another state, the total changes by what it held. -/
theorem total_set (f : α → Nat) (h : l[i]? = some x) (y : α) :
    total f (l.set i y) + f x = total f l + f y := by
  induction l generalizing i with
  | nil => simp at h
  | cons a l ih =>
    cases i with
    | zero =>
      simp only [List.getElem?_cons_zero, Option.some.injEq] at h
      subst h
      simp only [List.set_cons_zero, total, List.map_cons, List.sum_cons]
      omega
    | succ i =>
      have hi := ih (i := i) (by simpa using h)
      simp only [total] at hi
      simp only [List.set_cons_succ, total, List.map_cons, List.sum_cons]
      omega

theorem total_mono (h : ∀ x ∈ l, f x ≤ g x) : total f l ≤ total g l := List.sum_le_sum h

theorem le_total_of_getElem? (f : α → Nat) (h : l[i]? = some x) : f x ≤ total f l :=
  List.le_sum_of_mem (List.mem_map_of_mem (List.mem_of_getElem? h))

theorem total_eq_zero (h : ∀ x ∈ l, f x = 0) : total f l = 0 := by
  apply List.sum_eq_zero
  intro n hn
  obtain ⟨x, hx, rfl⟩ := List.mem_map.mp hn
  exact h x hx

/-- When the other threads hold nothing, one thread holds all of it. -/
theorem total_eq_of_others (h : l[i]? = some x)
    (others : ∀ j y, j ≠ i → l[j]? = some y → f y = 0) : total f l = f x := by
  induction l generalizing i with
  | nil => simp at h
  | cons a l ih =>
    rw [total, List.map_cons, List.sum_cons]
    cases i with
    | zero =>
      simp only [List.getElem?_cons_zero, Option.some.injEq] at h
      have hz : total f l = 0 := total_eq_zero fun y hy => by
        obtain ⟨j, hj⟩ := List.getElem?_of_mem hy
        exact others (j + 1) y (by omega) hj
      rw [h]
      exact congrArg _ hz
    | succ i =>
      have ha : f a = 0 := others 0 a (by omega) rfl
      rw [ha, Nat.zero_add]
      exact ih h fun j y hj hy => others (j + 1) y (by omega) hy

/-! What the threads hold as lists, compared by all amounts. -/

section Lists

variable {β : Type*}

theorem total_append (f : α → Nat) (l l' : List α) :
    total f (l ++ l') = total f l + total f l' := by
  simp only [total, List.map_append, List.sum_append]

theorem total_nil (f : α → Nat) : total f [] = 0 := rfl

theorem total_cons (f : α → Nat) (x : α) (l : List α) : total f (x :: l) = f x + total f l := rfl

theorem total_of_forall₂ {f : α → Nat} {g : β → Nat} {l : List α} {k : List β}
    (h : List.Forall₂ (fun x y => f x = g y) l k) : total f l = total g k := by
  induction h with
  | nil => rfl
  | cons same _ ih => rw [total_cons, total_cons, same, ih]

theorem total_map (f : β → Nat) (g : α → β) (l : List α) :
    total f (l.map g) = total (fun x => f (g x)) l := by
  simp only [total, List.map_map, Function.comp_def]

theorem total_flatMap (f : β → Nat) (g : α → List β) (l : List α) :
    total f (l.flatMap g) = total (fun x => total f (g x)) l := by
  induction l with
  | nil => rfl
  | cons x l ih => rw [List.flatMap_cons, total_append, ih, total_cons]

/-- When one thread goes to another state, what all of them hold changes by what it held. -/
theorem total_flatMap_set (f : β → Nat) {g : α → List β} (h : l[i]? = some x) (y : α) :
    total f ((l.set i y).flatMap g) + total f (g x) = total f (l.flatMap g) + total f (g y) := by
  rw [total_flatMap, total_flatMap]
  exact total_set (fun x => total f (g x)) h y

variable [DecidableEq α]

theorem total_erase (f : α → Nat) (h : x ∈ l) : total f (l.erase x) + f x = total f l := by
  have := ((List.perm_cons_erase h).map f).sum_eq
  rw [List.map_cons, List.sum_cons] at this
  simp only [total]
  omega

theorem total_indicator (a : α) (l : List α) :
    total (fun x => if x = a then 1 else 0) l = l.count a := by
  induction l with
  | nil => rfl
  | cons x l ih =>
    rw [total_cons, List.count_cons, ih]
    by_cases hx : x = a <;> simp [hx, Nat.add_comm]

/-- Lists that hold the same amounts of everything have the same members. -/
theorem perm_of_total {l' : List α} (h : ∀ f : α → Nat, total f l = total f l') : l.Perm l' := by
  rw [List.perm_iff_count]
  intro a
  rw [← total_indicator, ← total_indicator]
  exact h _

end Lists

/-! Two systems with as many threads, the states of which are related one by one. -/

section Related

variable {β : Type*} {R : α → β → Prop} {k : List β} {y : β}

theorem forall₂_getElem? (h : List.Forall₂ R l k) (hx : l[i]? = some x) :
    ∃ y, k[i]? = some y ∧ R x y := by
  induction h generalizing i with
  | nil => cases hx
  | cons hd _ ih =>
    cases i with
    | zero =>
      cases hx
      exact ⟨_, rfl, hd⟩
    | succ i => exact ih hx

/-- A thread goes on in both. -/
theorem forall₂_set (h : List.Forall₂ R l k) (hxy : R x y) (i : Nat) :
    List.Forall₂ R (l.set i x) (k.set i y) := by
  induction h generalizing i with
  | nil => exact .nil
  | cons hd tl ih =>
    cases i with
    | zero => exact .cons hxy tl
    | succ i => exact .cons hd (ih i)

/-- A thread goes on in one of them. -/
theorem forall₂_set_left (h : List.Forall₂ R l k) (hy : k[i]? = some y) (hxy : R x y) :
    List.Forall₂ R (l.set i x) k := by
  induction h generalizing i with
  | nil => exact .nil
  | cons hd tl ih =>
    cases i with
    | zero =>
      cases hy
      exact .cons hxy tl
    | succ i => exact .cons hd (ih hy)

end Related
