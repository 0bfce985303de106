import OdbcDns.Proofs.RecordEnds
import OdbcDns.Proofs.ServedTTL

namespace OdbcDns
open Slice Rfc1035 UnionAll RecordQuery

/-! A chain of aliases with the addresses at its end: stored by `cacheResponse` record by
record, and found again by the query of `resolveA` round by round. -/

namespace Connection

/-- The two statements that `cacheResponse` executes for a record. -/
def store (c : Connection) (e : Execution) (row : Stored) : Connection :=
  (c.deleteExpired row.name e.deleteNow).insertMissing row e.testNow

/-- Rows that are new to the table are appended, and of the others those with their names go. -/
theorem record_store {c : Connection} {e : Execution} {row : Stored} {old done : List Stored}
    (record : c.record = old ++ done)
    (stale : ∀ r ∈ old, r.name = row.name → r.expires ≤ e.deleteNow)
    (alive : ∀ r ∈ done, e.deleteNow < r.expires)
    (new : ∀ r ∈ done, r.name = row.name → r.value ≠ row.value) :
    (c.store e row).record = old.filter (fun r => r.name ≠ row.name) ++ (done ++ [row]) := by
  have gone : old.filter (fun r => ¬ (r.name = row.name ∧ r.expires ≤ e.deleteNow)) =
      old.filter (fun r => r.name ≠ row.name) := by
    apply List.filter_congr
    intro r hr
    have := stale r hr
    by_cases hn : r.name = row.name <;> simp_all
  have kept : done.filter (fun r => ¬ (r.name = row.name ∧ r.expires ≤ e.deleteNow)) = done := by
    apply List.filter_eq_self.mpr
    intro r hr
    simp [not_le.mpr (alive r hr)]
  have deleted : (c.deleteExpired row.name e.deleteNow).record =
      old.filter (fun r => r.name ≠ row.name) ++ done := by
    rw [deleteExpired, record, List.filter_append, gone, kept]
  have missing : (c.deleteExpired row.name e.deleteNow).live row.name row.value e.testNow =
      false := by
    unfold live
    rw [deleted, List.any_eq_false]
    intro r hr
    rcases List.mem_append.mp hr with hr | hr
    · have := (List.mem_filter.mp hr).2
      simp_all
    · have := new r hr
      simp_all
  unfold store insertMissing
  rw [missing, if_neg Bool.false_ne_true, deleted, List.append_assoc]

/-- The statements for several rows, one after the other. -/
def storeAll (c : Connection) (ps : List (Execution × Stored)) : Connection :=
  ps.foldl (fun c p => c.store p.1 p.2) c

/-- All rows of a reply, one after the other. -/
theorem record_storeAll (ps : List (Execution × Stored)) (old done : List Stored)
    {c : Connection} (record : c.record = old ++ done)
    (stale : ∀ r ∈ old, ∀ p ∈ ps, r.name = p.2.name → r.expires ≤ p.1.deleteNow)
    (alive : ∀ r ∈ done ++ ps.map Prod.snd, ∀ p ∈ ps, p.1.deleteNow < r.expires)
    (distinct : (done ++ ps.map Prod.snd).Pairwise fun r r' => r.name = r'.name →
      r.value ≠ r'.value) :
    (c.storeAll ps).record =
      old.filter (fun r => ∀ row ∈ ps.map Prod.snd, r.name ≠ row.name) ++
        (done ++ ps.map Prod.snd) := by
  induction ps generalizing c old done with
  | nil => simp [storeAll, record]
  | cons p ps ih =>
    have first := @record_store _ p.1 p.2 _ _ record
      (fun r hr => stale r hr p List.mem_cons_self)
      (fun r hr => alive r (List.mem_append_left _ hr) p List.mem_cons_self)
      (fun r hr => (List.pairwise_append.mp distinct).2.2 r hr p.2 List.mem_cons_self)
    have shift : done ++ (p :: ps).map Prod.snd = (done ++ [p.2]) ++ ps.map Prod.snd := by simp
    rw [shift] at alive distinct ⊢
    have rest := ih (old.filter fun r => r.name ≠ p.2.name) (done ++ [p.2]) first ?_ ?_ distinct
    · rw [storeAll, List.foldl_cons]
      rw [storeAll] at rest
      rw [rest, List.filter_filter]
      congr 1
      apply List.filter_congr
      intro r _
      rw [List.map_cons, ← Bool.decide_and]
      simp only [List.forall_mem_cons, and_comm]
    · intro r hr p' hp'
      exact stale r (List.mem_of_mem_filter hr) p' (List.mem_cons_of_mem _ hp')
    · intro r hr p' hp'
      exact alive r hr p' (List.mem_cons_of_mem _ hp')

end Connection

/-- `Leads name rows`: the rows are aliases that lead from `name` on, one behind the other,
and then the addresses of the name at the end. No alias comes back to a name before it. -/
inductive Leads : List Byte → List Stored → Prop
  | addresses {name : List Byte} {rows : List Stored} (some : rows ≠ [])
      (owner : ∀ r ∈ rows, r.name = name) (type : ∀ r ∈ rows, r.type = typeA) : Leads name rows
  | cname {r : Stored} {rows : List Stored} (type : r.type = typeCname) (rest : Leads r.value rows)
      (fresh : ∀ r' ∈ rows, r'.name ≠ r.name) : Leads r.name (r :: rows)

namespace Leads

variable {name : List Byte} {rows : List Stored}

theorem owned (h : Leads name rows) : ∃ r ∈ rows, r.name = name := by
  cases h with
  | addresses some owner _ =>
    obtain ⟨r, rest, rfl⟩ := List.exists_cons_of_ne_nil some
    exact ⟨r, List.mem_cons_self, owner r List.mem_cons_self⟩
  | cname => exact ⟨_, List.mem_cons_self, rfl⟩

theorem address (h : Leads name rows) : ∃ r ∈ rows, r.type = typeA := by
  induction h with
  | addresses some _ type =>
    obtain ⟨r, rest, rfl⟩ := List.exists_cons_of_ne_nil some
    exact ⟨r, List.mem_cons_self, type r List.mem_cons_self⟩
  | cname _ _ _ ih =>
    obtain ⟨r, hr, type⟩ := ih
    exact ⟨r, List.mem_cons_of_mem _ hr, type⟩

theorem types (h : Leads name rows) : ∀ r ∈ rows, r.type = typeCname ∨ r.type = typeA := by
  induction h with
  | addresses _ _ type => exact fun r hr => .inr (type r hr)
  | cname type _ _ ih => exact List.forall_mem_cons.mpr ⟨.inl type, ih⟩

end Leads

section Lookup

variable {record : List Stored} {now : Rat}

/-- The rows that the first part of the query selects. -/
def liveRows (record : List Stored) (now : Rat) (name : List Byte) : List Stored :=
  record.filter fun r => r.name = name ∧ now < r.expires

/-- The rows that are joined to one of RESULTS. -/
def joinedRows (record : List Stored) (now : Rat) (r : Stored) : List Stored :=
  (liveRows record now r.value).filter fun r' => r'.type = typeCname ∨ r'.type = typeA

theorem map_get_filter (record : List Stored) (p : Stored → Bool) :
    ((List.finRange record.length).filter fun i => p (record.get i)).map record.get =
      record.filter p := by
  have := List.filter_map (f := record.get) (p := p) (l := List.finRange record.length)
  rw [List.map_get_finRange] at this
  exact this.symm

theorem map_get_named (record : List Stored) (now : Rat) (name : List Byte) :
    (named record now name).map record.get = liveRows record now name :=
  map_get_filter record fun r => r.name = name ∧ now < r.expires

theorem map_get_joined (record : List Stored) (now : Rat) (i : Fin record.length) :
    (joined record now i).map record.get = joinedRows record now (record.get i) := by
  unfold joined joinedRows liveRows
  rw [map_get_filter record fun r => r.name = (record.get i).value ∧
    (r.type = typeCname ∨ r.type = typeA) ∧ now < r.expires, List.filter_filter]
  apply List.filter_congr
  intro r _
  simp only [Bool.decide_and, Bool.decide_or]
  grind

/-- The query gives what it gives over the rows themselves, without their positions. -/
theorem rows_of_yields {name : List Byte} {rows : List Row} {rs : List Stored}
    (found : Returns record now name rows)
    (expected : Yields (joinedRows record now) (liveRows record now name) rs) :
    rows.Perm (rs.map (selected now)) := by
  obtain ⟨ids, results, order⟩ := found
  have yields := UnionAll.Yields.map results (map_get_joined record now)
  rw [map_get_named] at yields
  rw [← yields.unique expected, List.map_map]
  exact order

/-- A table in which a chain stands is searched round by round along the chain. -/
theorem Leads.yields {name : List Byte} {rows : List Stored} (h : Leads name rows)
    (owned : ∀ r ∈ rows, liveRows record now r.name = rows.filter (fun r' => r'.name = r.name))
    (apart : ∀ r ∈ rows, r.type = typeA → liveRows record now r.value = []) :
    Yields (joinedRows record now) (liveRows record now name) rows := by
  induction h with
  | @addresses name rows some owner type =>
    obtain ⟨r, hr, hname⟩ := (Leads.addresses some owner type).owned
    have all : liveRows record now name = rows := by
      rw [← hname, owned r hr, List.filter_eq_self]
      intro r' hr'
      simp [owner r hr, owner r' hr']
    rw [all]
    apply yields_self
    intro r hr
    rw [joinedRows, apart r hr (type r hr), List.filter_nil]
  | @cname r rows type rest fresh ih =>
    have first : liveRows record now r.name = [r] := by
      rw [owned r List.mem_cons_self, List.filter_cons_of_pos (by simp), List.cons.injEq]
      refine ⟨rfl, List.filter_eq_nil_iff.mpr fun r' hr' => ?_⟩
      simp [fresh r' hr']
    have later : ∀ r' ∈ rows, liveRows record now r'.name =
        rows.filter (fun r'' => r''.name = r'.name) := by
      intro r' hr'
      rw [owned r' (List.mem_cons_of_mem _ hr'), List.filter_cons_of_neg]
      simpa using (fresh r' hr').symm
    have next : joinedRows record now r = liveRows record now r.value := by
      obtain ⟨r', hr', hname⟩ := rest.owned
      rw [joinedRows, List.filter_eq_self]
      intro r'' hr''
      rw [← hname, later r' hr'] at hr''
      simpa using rest.types r'' (List.mem_of_mem_filter hr'')
    have tail := ih later fun r' hr' => apart r' (List.mem_cons_of_mem _ hr')
    rw [first]
    rw [← next, ← List.flatMap_singleton (joinedRows record now) r] at tail
    exact tail.append

end Lookup

/-- The row that is stored for an answer. -/
def Answer.stored (a : Answer) (now : Rat) : Stored :=
  ⟨a.owner.text, a.target.text, now + signedTTL a.ttl, a.target.type, a.rclass⟩

/-- The statements for the answers of a reply, from number `i` on. -/
def executed (executions : Nat → Execution) (i : Nat) (as : List Answer) :
    List (Execution × Stored) :=
  (as.zipIdx i).map fun p => (executions p.2, p.1.stored (executions p.2).insertNow)

/-- The rows that they store. -/
def storedAnswers (executions : Nat → Execution) (as : List Answer) : List Stored :=
  as.zipIdx.map fun p => p.1.stored (executions p.2).insertNow

theorem map_snd_executed (executions : Nat → Execution) (as : List Answer) :
    (executed executions 0 as).map Prod.snd = storedAnswers executions as := by
  rw [executed, List.map_map]
  rfl

section Decode

variable {msg : Message}

end Decode

section Store

variable (cfg : Config) {s : Session}

theorem describe_ok {type rclass : UInt16} (ht : type.toNat < 256) (hc : rclass.toNat < 256) :
    describe type rclass = .ok () := if_pos ⟨ht, hc⟩

end Store

end OdbcDns
