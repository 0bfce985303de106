import OdbcDns.Query
import OdbcDns.Proofs.Transactions

namespace OdbcDns
open UnionAll

namespace RecordQuery

section Table

variable {record : List Stored} {now : Rat} {name : List Byte} {i j : Fin record.length}

theorem mem_named : i ∈ named record now name ↔
    (record.get i).name = name ∧ now < (record.get i).expires := by
  simp [named]

theorem mem_joined : j ∈ joined record now i ↔ (record.get j).name = (record.get i).value ∧
    ((record.get j).type = typeCname ∨ (record.get j).type = typeA) ∧
    now < (record.get j).expires := by
  simp [joined]

theorem nodup_named : (named record now name).Nodup := (List.nodup_finRange _).filter _

theorem nodup_joined (i : Fin record.length) : (joined record now i).Nodup :=
  (List.nodup_finRange _).filter _

/-- The rows that the query comes to, however long that takes. -/
abbrev Visits (record : List Stored) (now : Rat) (name : List Byte) (i : Fin record.length) :
    Prop :=
  Reached (joined record now) (named record now name) i

theorem Visits.live (h : Visits record now name i) : now < (record.get i).expires :=
  h.induction (P := fun i => now < (record.get i).expires) (fun _ hb => (mem_named.mp hb).2)
    (fun _ _ _ hb => (mem_joined.mp hb).2.2)

end Table

/-! What the lookup is for. -/

/-- The names that stand for `name`: itself, and what unexpired aliases of the
class lead to. -/
inductive StandsFor (record : List Stored) (now : Rat) (rclass : UInt16) (name : List Byte) :
    List Byte → Prop
  | self : StandsFor record now rclass name name
  | follow {r : Stored} (stored : r ∈ record) (live : now < r.expires) (type : r.type = typeCname)
      (inClass : r.rclass = rclass) (owner : StandsFor record now rclass name r.name) :
      StandsFor record now rclass name r.value

/-- The rows that answer a question for addresses of `name` in a class. -/
structure Answering (record : List Stored) (now : Rat) (rclass : UInt16) (name : List Byte)
    (r : Stored) : Prop where
  stored : r ∈ record
  live : now < r.expires
  type : r.type = typeCname ∨ r.type = typeA
  inClass : r.rclass = rclass
  owner : StandsFor record now rclass name r.name

/-- No join leads out of the answering rows: rows with the name are addresses or
aliases of the class, and so are those named by the value of an answering row. If
that value is an address, they have to answer for another reason. -/
structure Closed (record : List Stored) (now : Rat) (rclass : UInt16) (name : List Byte) :
    Prop where
  named : ∀ r ∈ record, r.name = name → now < r.expires →
    (r.type = typeCname ∨ r.type = typeA) ∧ r.rclass = rclass
  joined : ∀ r, Answering record now rclass name r → ∀ r' ∈ record, r'.name = r.value →
    (r'.type = typeCname ∨ r'.type = typeA) → now < r'.expires →
    r'.rclass = rclass ∧ (r.type = typeA → StandsFor record now rclass name r'.name)

section Exact

variable {record : List Stored} {now : Rat} {rclass : UInt16} {name : List Byte}

/-- The lookup misses nothing. -/
theorem Answering.visited {r : Stored} (h : Answering record now rclass name r) :
    ∃ i, record.get i = r ∧ Visits record now name i := by
  obtain ⟨stored, live, type, inClass, owner⟩ := h
  generalize hn : r.name = n at owner
  induction owner generalizing r with
  | self =>
    obtain ⟨i, rfl⟩ := List.get_of_mem stored
    exact ⟨i, rfl, reached_base (mem_named.mpr ⟨hn, live⟩)⟩
  | @follow a astored alive atype aclass _ ih =>
    obtain ⟨k, rfl, hk⟩ := ih astored alive (.inl atype) aclass rfl
    obtain ⟨i, rfl⟩ := List.get_of_mem stored
    exact ⟨i, rfl, reached_next hk (mem_joined.mpr ⟨hn, type, live⟩)⟩

theorem Closed.answering_of_visits (h : Closed record now rclass name) {i : Fin record.length}
    (hi : Visits record now name i) : Answering record now rclass name (record.get i) := by
  refine hi.induction (P := fun i => Answering record now rclass name (record.get i)) ?_ ?_
  · intro b hb
    obtain ⟨hn, live⟩ := mem_named.mp hb
    obtain ⟨type, inClass⟩ := h.named _ (record.get_mem b) hn live
    exact ⟨record.get_mem b, live, type, inClass, hn ▸ .self⟩
  · intro a b ha hb
    obtain ⟨hn, type, live⟩ := mem_joined.mp hb
    obtain ⟨inClass, howner⟩ := h.joined _ ha _ (record.get_mem b) hn type live
    refine ⟨record.get_mem b, live, type, inClass, ?_⟩
    rcases ha.type with ht | ht
    · exact hn ▸ .follow ha.stored ha.live ht ha.inClass ha.owner
    · exact howner ht

/-- The rows returned are the answering ones exactly when no join leads out of
them, and none leads round. -/
theorem results_answering_iff (record : List Stored) (now : Rat) (rclass : UInt16)
    (name : List Byte) :
    (∃ ids, Results record now name ids ∧
      ∀ r, r ∈ ids.map record.get ↔ Answering record now rclass name r) ↔
    Closed record now rclass name ∧
      ∀ i ∈ named record now name, ¬ Loops (Joins (joined record now)) i := by
  constructor
  · rintro ⟨ids, hy, hrows⟩
    have answers : ∀ {i}, Visits record now name i →
        Answering record now rclass name (record.get i) := by
      intro i hi
      exact (hrows _).mp (List.mem_map_of_mem (hy.mem_iff.mpr hi))
    refine ⟨⟨?_, ?_⟩, ends_iff.mp ⟨ids, hy⟩⟩
    · intro r hr hn live
      obtain ⟨i, rfl⟩ := List.get_of_mem hr
      have ha := answers (reached_base (mem_named.mpr ⟨hn, live⟩))
      exact ⟨ha.type, ha.inClass⟩
    · intro r hr r' hr' hn type live
      obtain ⟨i, rfl, hi⟩ := hr.visited
      obtain ⟨j, rfl⟩ := List.get_of_mem hr'
      have ha := answers (reached_next hi (mem_joined.mpr ⟨hn, type, live⟩))
      exact ⟨ha.inClass, fun _ => ha.owner⟩
  · rintro ⟨hc, hl⟩
    obtain ⟨ids, hy⟩ := ends_iff.mpr hl
    refine ⟨ids, hy, fun r => ?_⟩
    rw [List.mem_map]
    constructor
    · rintro ⟨i, hi, rfl⟩
      exact hc.answering_of_visits (hy.mem_iff.mp hi)
    · intro ha
      obtain ⟨i, rfl, hi⟩ := ha.visited
      exact ⟨i, hy.mem_iff.mpr hi, rfl⟩

end Exact

/-- An address that is also the name of a row, and a row of another class. -/
def mixed : List Stored :=
  [⟨[97], [49, 46, 50, 46, 51, 46, 52], 60, typeA, 1⟩,
    ⟨[49, 46, 50, 46, 51, 46, 52], [57, 46, 57, 46, 57, 46, 57], 60, typeA, 1⟩,
    ⟨[97], [53, 46, 54, 46, 55, 46, 56], 60, typeA, 3⟩]

/-- All three rows are returned for a question of class 1, although only the
first one answers it. -/
theorem mixed_returned :
    (collect (joined mixed 0) 2 (named mixed 0 [97])).map (List.map Fin.val) = some [0, 2, 1] ∧
      ¬ ∃ ids, Results mixed 0 [97] ids ∧
        ∀ r, r ∈ ids.map mixed.get ↔ Answering mixed 0 1 [97] r := by
  refine ⟨by decide +kernel, ?_⟩
  rintro ⟨ids, hy, hrows⟩
  have hnamed : ⟨2, by decide⟩ ∈ named mixed 0 [97] := by decide +kernel
  have ha := (hrows _).mp (List.mem_map_of_mem (hy.mem_iff.mpr (reached_base hnamed)))
  exact absurd ha.inClass (by decide)

/-- The query ends without giving a row twice exactly when no row that it visits
is named by the question and by the value of a visited row, or by the values of
two of them. -/
theorem results_nodup_iff (record : List Stored) (now : Rat) (name : List Byte) :
    (∃ ids, Results record now name ids ∧ ids.Nodup) ↔
    ∀ i j, Visits record now name i → Visits record now name j →
      ((record.get j).type = typeCname ∨ (record.get j).type = typeA) →
      (record.get j).name = (record.get i).value →
      (record.get j).name ≠ name ∧ ∀ i', Visits record now name i' →
        (record.get j).name = (record.get i').value → i = i' := by
  refine (nodup_iff nodup_named nodup_joined).trans ⟨?_, ?_⟩
  · intro h i j hi hj type hn
    have hji : j ∈ joined record now i := mem_joined.mpr ⟨hn, type, hj.live⟩
    refine ⟨fun he => h.fresh i j hi hji (mem_named.mpr ⟨he, hj.live⟩), ?_⟩
    intro i' hi' hn'
    exact h.unique i i' j hi hi' hji (mem_joined.mpr ⟨hn', type, hj.live⟩)
  · intro h
    constructor
    · intro i j hi hji hb
      obtain ⟨hn, type, live⟩ := mem_joined.mp hji
      exact (h i j hi (reached_next hi hji) type hn).1 (mem_named.mp hb).1
    · intro i i' j hi hi' hji hji'
      obtain ⟨hn, type, live⟩ := mem_joined.mp hji
      exact (h i j hi (reached_next hi hji) type hn).2 i' hi' (mem_joined.mp hji').1

/-- A reply that gives a name as an alias of itself. -/
def selfAlias : Packet :=
  received (upstreamReply 1 [0xC0, 12, 0, 5, 0, 1, 0, 0, 0, 60, 0, 3, 1, 97, 0])

def selfAliased : List Stored := [⟨[97], [97], 60, typeCname, 1⟩]

theorem selfAlias_cached_endless :
    (cacheRelayed selfAlias).2.connection.record = selfAliased ∧
      ¬ ∃ ids, Results selfAliased 0 [97] ids := by
  refine ⟨by decide +kernel, fun h => ?_⟩
  have hnamed : ⟨0, by decide⟩ ∈ named selfAliased 0 [97] := by decide +kernel
  have hjoined : ⟨0, by decide⟩ ∈ joined selfAliased 0 ⟨0, by decide⟩ := by decide +kernel
  exact ends_iff.mp h _ hnamed ⟨0, 0, _, .here _, .single hjoined⟩

/-- Two aliases with one target. -/
def twoPaths : List Stored :=
  [⟨[97], [98], 60, typeCname, 1⟩, ⟨[97], [99], 60, typeCname, 1⟩,
    ⟨[98], [100], 60, typeCname, 1⟩, ⟨[99], [100], 60, typeCname, 1⟩,
    ⟨[100], [49, 46, 50, 46, 51, 46, 52], 60, typeA, 1⟩]

example : (collect (joined twoPaths 0) 3 (named twoPaths 0 [97])).map (List.map Fin.val) =
    some [0, 1, 2, 3, 4, 4] := by decide +kernel

end RecordQuery

end OdbcDns
