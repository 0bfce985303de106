import OdbcDns.Lib.Walk
import Mathlib.Data.Fintype.Card
import Mathlib.Data.List.Nodup
import Mathlib.Data.List.Pairwise

/-! Recursive queries over UNION ALL. A round joins the rows that the round before
has added; nothing is taken out, and the query ends with a round that adds nothing. -/

namespace UnionAll

variable {α : Type*} (next : α → List α)

/-- The rows that a round adds; round 0 is the part without recursion. -/
def round (base : List α) : Nat → List α
  | 0 => base
  | n + 1 => (round base n).flatMap next

/-- The rows of all rounds, if one of the first `n` rounds, or the next, is empty. -/
def collect : Nat → List α → Option (List α)
  | 0, base => if base.isEmpty then some [] else none
  | n + 1, base =>
    if base.isEmpty then some [] else (collect n (base.flatMap next)).map (base ++ ·)

/-- The query ends, with these rows. -/
def Yields (base rows : List α) : Prop := ∃ n, collect next n base = some rows

/-- The join leads from one row to the other. -/
def Joins (a b : α) : Prop := b ∈ next a

/-- A row is among those of some round. -/
def Reached (base : List α) (b : α) : Prop := ∃ n, b ∈ round next base n

instance symm_onFun_disjoint {β : Type*} (f : β → List α) :
    Std.Symm (Function.onFun List.Disjoint f) :=
  ⟨fun _ _ h => h.symm⟩

variable {next} {base rows : List α} {a b : α} {n m : Nat}

theorem round_flatMap (base : List α) (n : Nat) :
    round next (base.flatMap next) n = round next base (n + 1) := by
  induction n with
  | zero => rfl
  | succ n ih => rw [round, ih, ← round]

theorem round_nil : round next [] n = [] := by
  induction n with
  | zero => rfl
  | succ n ih => rw [round, ih, List.flatMap_nil]

theorem round_add_eq_nil (h : round next base n = []) : round next base (n + m) = [] := by
  induction m with
  | zero => exact h
  | succ m ih => rw [← Nat.add_assoc, round, ih, List.flatMap_nil]

/-- A round that adds something comes before every round that does not. -/
theorem lt_of_mem_round (h : round next base n = []) (hb : b ∈ round next base m) : m < n := by
  apply Nat.lt_of_not_le
  intro hle
  rw [← Nat.add_sub_cancel' hle, round_add_eq_nil h] at hb
  cases hb

theorem mem_round_succ : b ∈ round next base (n + 1) ↔ ∃ a ∈ round next base n, b ∈ next a := by
  rw [round, List.mem_flatMap]

theorem mem_round : b ∈ round next base n ↔ ∃ a ∈ base, Walk (Joins next) n a b := by
  induction n generalizing b with
  | zero =>
    constructor
    · exact fun h => ⟨b, h, .here b⟩
    · rintro ⟨a, ha, hw⟩
      rwa [← Walk.zero_iff.mp hw]
  | succ n ih =>
    rw [mem_round_succ]
    constructor
    · rintro ⟨c, hc, hb⟩
      obtain ⟨a, ha, hw⟩ := ih.mp hc
      exact ⟨a, ha, hw.concat hb⟩
    · rintro ⟨a, ha, hw⟩
      obtain ⟨c, hc, hb⟩ := hw.last
      exact ⟨c, ih.mpr ⟨a, ha, hc⟩, hb⟩

theorem collect_eq_some_iff : collect next n base = some rows ↔
    round next base n = [] ∧ rows = (List.range n).flatMap (round next base) := by
  induction n generalizing base rows with
  | zero => cases base <;> simp [collect, round, eq_comm]
  | succ n ih =>
    cases base with
    | nil =>
      have hnil : (List.range (n + 1)).flatMap (round next []) = [] :=
        List.flatMap_eq_nil_iff.mpr fun _ _ => round_nil
      simp [collect, round_nil, hnil, eq_comm]
    | cons a as =>
      have hstep : collect next (n + 1) (a :: as) =
          (collect next n ((a :: as).flatMap next)).map ((a :: as) ++ ·) := rfl
      have hrows : (List.range (n + 1)).flatMap (round next (a :: as)) =
          (a :: as) ++ (List.range n).flatMap (round next ((a :: as).flatMap next)) := by
        rw [List.range_succ_eq_map, List.flatMap_cons, List.flatMap_map,
          funext (round_flatMap (a :: as))]
        rfl
      rw [hstep, hrows, ← round_flatMap, Option.map_eq_some_iff]
      simp only [ih]
      constructor
      · rintro ⟨r, ⟨hn, rfl⟩, rfl⟩
        exact ⟨hn, rfl⟩
      · rintro ⟨hn, rfl⟩
        exact ⟨_, ⟨hn, rfl⟩, rfl⟩

theorem yields_iff : Yields next base rows ↔
    ∃ n, round next base n = [] ∧ rows = (List.range n).flatMap (round next base) :=
  exists_congr fun _ => collect_eq_some_iff

theorem yields_nil : Yields next [] [] := ⟨0, rfl⟩

/-- The first round, and then the query that starts with the second one. -/
theorem Yields.append (h : Yields next (base.flatMap next) rows) :
    Yields next base (base ++ rows) := by
  obtain ⟨n, hn⟩ := h
  refine ⟨n + 1, ?_⟩
  cases base with
  | nil =>
    cases n <;> simp_all [collect]
  | cons a as =>
    simp only [collect, List.isEmpty_cons, Bool.false_eq_true, if_false, hn, Option.map_some]

/-- Rows to which nothing is joined are all there is. -/
theorem yields_self (h : ∀ a ∈ base, next a = []) : Yields next base base := by
  have none : base.flatMap next = [] := List.flatMap_eq_nil_iff.mpr h
  have rest : Yields next (base.flatMap next) [] := by
    rw [none]
    exact yields_nil
  have := rest.append
  rwa [List.append_nil] at this

theorem Yields.unique {rows' : List α} (h : Yields next base rows)
    (h' : Yields next base rows') : rows = rows' := by
  obtain ⟨n, hn, rfl⟩ := yields_iff.mp h
  obtain ⟨m, hm, rfl⟩ := yields_iff.mp h'
  -- the rounds behind the first empty one add nothing
  have extend : ∀ n m, n ≤ m → round next base n = [] →
      (List.range m).flatMap (round next base) = (List.range n).flatMap (round next base) := by
    intro n m hle hn
    induction m, hle using Nat.le_induction with
    | base => rfl
    | succ m hle ih =>
      have empty : round next base m = [] := by
        rw [← Nat.add_sub_cancel' hle]
        exact round_add_eq_nil hn
      rw [List.range_succ, List.flatMap_append, ih, List.flatMap_singleton, empty,
        List.append_nil]
  rcases Nat.le_total n m with hle | hle
  · exact (extend n m hle hn).symm
  · exact extend m n hle hm

/-- Where `f` takes the joins of one query to those of another, it takes the rows of the one
to those of the other. -/
theorem Yields.map {β : Type*} {next' : β → List β} {f : α → β}
    (h : Yields next base rows) (joins : ∀ a, (next a).map f = next' (f a)) :
    Yields next' (base.map f) (rows.map f) := by
  obtain ⟨n, hn⟩ := h
  refine ⟨n, ?_⟩
  induction n generalizing base rows with
  | zero =>
    cases base with
    | nil => simp_all [collect]
    | cons a as => simp [collect] at hn
  | succ n ih =>
    cases base with
    | nil => simp_all [collect]
    | cons a as =>
      simp only [collect, List.isEmpty_cons, Bool.false_eq_true, if_false,
        Option.map_eq_some_iff] at hn
      obtain ⟨rest, hrest, rfl⟩ := hn
      have next_map : ((a :: as).map f).flatMap next' = ((a :: as).flatMap next).map f := by
        rw [List.flatMap_map, List.map_flatMap]
        simp only [joins]
      have := ih hrest
      simp only [List.map_cons, collect, List.isEmpty_cons, Bool.false_eq_true, if_false]
      rw [← List.map_cons, next_map, this, Option.map_some, List.map_append]

/-- The rows of a query that ends are those that its rounds reach. -/
theorem Yields.mem_iff (h : Yields next base rows) : b ∈ rows ↔ Reached next base b := by
  obtain ⟨n, hn, rfl⟩ := yields_iff.mp h
  simp only [List.mem_flatMap, List.mem_range, Reached]
  constructor
  · rintro ⟨k, _, hk⟩
    exact ⟨k, hk⟩
  · rintro ⟨k, hk⟩
    exact ⟨k, lt_of_mem_round hn hk, hk⟩

theorem reached_base (h : b ∈ base) : Reached next base b := ⟨0, h⟩

theorem reached_next (h : Reached next base a) (hb : b ∈ next a) : Reached next base b := by
  obtain ⟨n, hn⟩ := h
  exact ⟨n + 1, mem_round_succ.mpr ⟨a, hn, hb⟩⟩

/-- What holds for the first rows and is passed on by the join holds for all rows. -/
theorem Reached.induction {P : α → Prop} (hbase : ∀ b ∈ base, P b)
    (hnext : ∀ a b, P a → b ∈ next a → P b) (h : Reached next base b) : P b := by
  obtain ⟨n, hn⟩ := h
  induction n generalizing b with
  | zero => exact hbase b hn
  | succ n ih =>
    obtain ⟨a, ha, hb⟩ := mem_round_succ.mp hn
    exact hnext a b (ih ha) hb

section Finite

variable [Fintype α]

/-- A query ends unless the join leads some row back to itself. -/
theorem ends_iff : (∃ rows, Yields next base rows) ↔ ∀ a ∈ base, ¬ Loops (Joins next) a := by
  constructor
  · rintro ⟨rows, h⟩ a ha hl
    obtain ⟨n, hn, _⟩ := yields_iff.mp h
    obtain ⟨b, hb⟩ := hl.endless n
    have := mem_round.mpr ⟨a, ha, hb⟩
    rw [hn] at this
    cases this
  · intro h
    refine ⟨_, yields_iff.mpr ⟨Fintype.card α + 1, ?_, rfl⟩⟩
    rw [List.eq_nil_iff_forall_not_mem]
    intro b hb
    obtain ⟨a, ha, hw⟩ := mem_round.mp hb
    exact h a ha (hw.loops Finset.univ (fun _ _ _ => Finset.mem_univ _) (Nat.lt_succ_self _))

end Finite

variable (next base) in
/-- Every row is reached in one way only. -/
structure Once : Prop where
  /-- No join leads back to a row of the first round. -/
  fresh : ∀ a b, Reached next base a → b ∈ next a → b ∉ base
  /-- No row is joined to two others. -/
  unique : ∀ a a' b, Reached next base a → Reached next base a' → b ∈ next a → b ∈ next a' → a = a'

theorem Once.round_unique (h : Once next base) (hn : b ∈ round next base n)
    (hm : b ∈ round next base m) : n = m := by
  induction n generalizing b m with
  | zero =>
    cases m with
    | zero => rfl
    | succ m =>
      obtain ⟨a, ha, hb⟩ := mem_round_succ.mp hm
      exact absurd hn (h.fresh a b ⟨m, ha⟩ hb)
  | succ n ih =>
    obtain ⟨a, ha, hb⟩ := mem_round_succ.mp hn
    cases m with
    | zero => exact absurd hm (h.fresh a b ⟨n, ha⟩ hb)
    | succ m =>
      obtain ⟨a', ha', hb'⟩ := mem_round_succ.mp hm
      obtain rfl := h.unique a a' b ⟨n, ha⟩ ⟨m, ha'⟩ hb hb'
      rw [ih ha ha']

theorem Once.not_loops (h : Once next base) (ha : a ∈ base) : ¬ Loops (Joins next) a := by
  rintro ⟨n, m, b, hb, hl⟩
  have h1 := mem_round.mpr ⟨a, ha, hb⟩
  have h2 := mem_round.mpr ⟨a, ha, hb.append hl⟩
  have := h.round_unique h1 h2
  omega

theorem Once.nodup_round (h : Once next base) (hb : base.Nodup) (hn : ∀ a, (next a).Nodup) :
    (round next base n).Nodup := by
  induction n with
  | zero => exact hb
  | succ n ih =>
    rw [round, List.nodup_flatMap]
    refine ⟨fun a _ => hn a, ih.pairwise_of_forall_ne ?_⟩
    intro a ha a' ha' hne b h1 h2
    exact hne (h.unique a a' b ⟨n, ha⟩ ⟨n, ha'⟩ h1 h2)

/-- A query that ends gives no row twice exactly when every row is reached in one
way only. -/
theorem nodup_iff [Fintype α] (hb : base.Nodup) (hn : ∀ a, (next a).Nodup) :
    (∃ rows, Yields next base rows ∧ rows.Nodup) ↔ Once next base := by
  constructor
  · rintro ⟨rows, hy, hd⟩
    obtain ⟨n, hnil, rfl⟩ := yields_iff.mp hy
    rw [List.nodup_flatMap] at hd
    obtain ⟨hround, hdisj⟩ := hd
    -- a row stands in one round only
    have one : ∀ {k l b}, b ∈ round next base k → b ∈ round next base l → k = l := by
      intro k l b hk hl
      by_contra hne
      exact hdisj.forall (List.mem_range.mpr (lt_of_mem_round hnil hk))
        (List.mem_range.mpr (lt_of_mem_round hnil hl)) hne hk hl
    constructor
    · rintro a b ⟨k, ha⟩ hab h0
      have := one (mem_round_succ.mpr ⟨a, ha, hab⟩) (l := 0) h0
      omega
    · rintro a a' b ⟨k, ha⟩ ⟨l, ha'⟩ hab hab'
      have hk := mem_round_succ.mpr ⟨a, ha, hab⟩
      obtain rfl : k = l := by
        have := one hk (mem_round_succ.mpr ⟨a', ha', hab'⟩)
        omega
      have hs := hround (k + 1) (List.mem_range.mpr (lt_of_mem_round hnil hk))
      rw [round, List.nodup_flatMap] at hs
      by_contra hne
      exact hs.2.forall ha ha' hne hab hab'
  · intro h
    obtain ⟨rows, hy⟩ := ends_iff.mpr fun a ha => h.not_loops ha
    obtain ⟨n, hnil, rfl⟩ := yields_iff.mp hy
    refine ⟨_, hy, List.nodup_flatMap.mpr ⟨fun k _ => h.nodup_round hb hn, ?_⟩⟩
    refine List.nodup_range.pairwise_of_forall_ne ?_
    intro k _ l _ hne b hk hl
    exact hne (h.round_unique hk hl)

end UnionAll
