import OdbcDns.SharedTable
import OdbcDns.Proofs.Statements
import OdbcDns.Lib.Threads
import Mathlib.Algebra.Order.Ring.Unbundled.Rat

namespace OdbcDns

/-- The row is unexpired and has this name and value. -/
def TableRow.live (name value : List Byte) (now : Rat) (r : TableRow) : Bool :=
  r.row.name = name ∧ r.row.value = value ∧ now < r.row.expires

/-- What a worker has under way for a name and a value: unexpired rows that are not
committed yet, and a passed test. -/
def Transaction.claims (name value : List Byte) (now : Rat) (w : Transaction) : Nat :=
  w.inserted.countP (TableRow.live name value now) +
    if w.tested.any (fun r => r.name = name ∧ r.value = value) then 1 else 0

namespace SharedTable

/-- No two committed unexpired rows have the same name and value. -/
def NoDuplicates (s : SharedTable) : Prop :=
  ∀ name value, s.committed.countP (TableRow.live name value s.now) ≤ 1

/-- Worker `i` tests for a row only while no other worker has one under way. -/
def Alone (s : SharedTable) : TableAction → Prop
  | .test i record => ∀ j < s.workers.length, j ≠ i →
      (s.workers.getD j .empty).claims record.name record.value s.now = 0
  | _ => True

instance (s : SharedTable) (a : TableAction) : Decidable (s.Alone a) := by
  cases a <;> unfold Alone <;> infer_instance

/-- The rows committed or under way for a name and a value. -/
def claimed (s : SharedTable) (name value : List Byte) : Nat :=
  s.committed.countP (TableRow.live name value s.now) +
    total (Transaction.claims name value s.now) s.workers

/-- Committed rows and rows under way are never more than one, and only expired
rows are being deleted. -/
structure Single (s : SharedTable) : Prop where
  claimed : ∀ name value, s.claimed name value ≤ 1
  deleted : ∀ w ∈ s.workers, ∀ r ∈ w.deleted, r.row.expires ≤ s.now

theorem start_single (n : Nat) (now : Rat) : (start n now).Single where
  claimed name value := by
    have hz : total (Transaction.claims name value now) (List.replicate n .empty) = 0 :=
      total_eq_zero fun w hw => by
        rw [List.eq_of_mem_replicate hw]
        rfl
    show 0 + total (Transaction.claims name value now) (List.replicate n .empty) ≤ 1
    omega
  deleted w hw r hr := by
    rw [List.eq_of_mem_replicate hw] at hr
    cases hr

section Rows

variable {s : SharedTable} {name value : List Byte} {w : Transaction}

theorem live_false_of_expired {now : Rat} {r : TableRow} (h : r.row.expires ≤ now) :
    r.live name value now = false := by
  simp only [TableRow.live, decide_eq_false_iff_not, not_and, not_lt]
  exact fun _ _ => h

/-- A worker that sees no row of a name and value has none, and none is committed. -/
theorem countP_of_not_live (deleted : ∀ r ∈ w.deleted, r.row.expires ≤ s.now)
    (h : (s.view w).live name value s.now = false) :
    s.committed.countP (TableRow.live name value s.now) = 0 ∧
      w.inserted.countP (TableRow.live name value s.now) = 0 := by
  have unseen : ∀ r ∈ s.visible w, ¬ r.live name value s.now = true := by
    intro r hr hl
    simp only [TableRow.live, decide_eq_true_eq] at hl
    have hany : (s.view w).live name value s.now = true := by
      refine List.any_eq_true.mpr ⟨r.row, List.mem_map_of_mem hr, ?_⟩
      exact decide_eq_true ⟨hl.1, hl.2.1, le_of_lt hl.2.2⟩
    rw [h] at hany
    cases hany
  constructor
  · rw [List.countP_eq_zero]
    intro r hr hl
    by_cases hd : r ∈ w.deleted
    · rw [live_false_of_expired (deleted r hd)] at hl
      cases hl
    · refine unseen r (List.mem_append_left _ (List.mem_filter.mpr ⟨hr, ?_⟩)) hl
      exact decide_eq_true hd
  · rw [List.countP_eq_zero]
    exact fun r hr => unseen r (List.mem_append_right _ hr)

end Rows

section Replace

variable {s t : SharedTable} {i : Nat} {w w' : Transaction}

/-- One worker goes on, and has no more committed or under way than before. -/
theorem Single.replace (h : s.Single) (hi : s.workers[i]? = some w) (now : t.now = s.now)
    (workers : t.workers = s.workers.set i w')
    (claims : ∀ name value,
      t.committed.countP (TableRow.live name value s.now) + w'.claims name value s.now ≤
        s.committed.countP (TableRow.live name value s.now) + w.claims name value s.now)
    (deleted : ∀ r ∈ w'.deleted, r.row.expires ≤ s.now) : t.Single where
  claimed name value := by
    have ht := total_set (Transaction.claims name value s.now) hi w'
    have hc := claims name value
    have hs := h.claimed name value
    unfold SharedTable.claimed at hs ⊢
    rw [now, workers]
    omega
  deleted v hv r hr := by
    rw [workers] at hv
    rw [now]
    rcases List.mem_or_eq_of_mem_set hv with hv | rfl
    · exact h.deleted v hv r hr
    · exact deleted r hr

end Replace

section Actions

variable {s t : SharedTable} {i : Nat}

theorem Single.delete (h : s.Single) {name : List Byte} (hs : s.step (.delete i name) = some t) :
    t.Single := by
  simp only [step, Option.bind_eq_bind, Option.bind_eq_some_iff, Option.ite_none_right_eq_some,
    Option.some.injEq] at hs
  obtain ⟨w, hi, _, rfl⟩ := hs
  refine h.replace hi rfl rfl (fun n v => Nat.add_le_add_left ?_ _) fun r hr => ?_
  · exact Nat.add_le_add_right (List.Sublist.countP_le List.filter_sublist) _
  · rcases List.mem_append.mp hr with hr | hr
    · exact h.deleted w (List.mem_of_getElem? hi) r hr
    · have := (List.mem_filter.mp hr).2
      simp only [expired, decide_eq_true_eq] at this
      exact this.2

/-- A test that is passed is the only thing under way for its name and value. -/
theorem Single.test (h : s.Single) {record : Incoming} (alone : s.Alone (.test i record))
    (hs : s.step (.test i record) = some t) : t.Single := by
  simp only [step, Option.bind_eq_bind, Option.bind_eq_some_iff, Option.ite_none_right_eq_some]
    at hs
  obtain ⟨w, hi, hw, hs⟩ := hs
  split at hs
  · cases hs
    exact h
  · rename_i hlive
    cases hs
    have hdel := h.deleted w (List.mem_of_getElem? hi)
    refine ⟨fun name value => ?_, fun v hv r hr => ?_⟩
    · have ht := total_set (Transaction.claims name value s.now) hi { w with tested := some record }
      show s.committed.countP (TableRow.live name value s.now) +
        total (Transaction.claims name value s.now) (s.workers.set i _) ≤ 1
      by_cases hkey : record.name = name ∧ record.value = value
      · obtain ⟨rfl, rfl⟩ := hkey
        obtain ⟨hc, hins⟩ := countP_of_not_live hdel (eq_false_of_ne_true hlive)
        have hnone : w.claims record.name record.value s.now = 0 := by
          simp [Transaction.claims, hins, hw]
        have hone : ({ w with tested := some record } : Transaction).claims record.name
            record.value s.now = 1 := by
          simp [Transaction.claims, hins]
        have hall : total (Transaction.claims record.name record.value s.now) s.workers = 0 := by
          rw [total_eq_of_others hi fun j v hj hv => ?_, hnone]
          obtain ⟨hlt, _⟩ := List.getElem?_eq_some_iff.mp hv
          have := alone j hlt hj
          rwa [List.getD_eq_getElem?_getD, hv, Option.getD_some] at this
        omega
      · have hsame : ({ w with tested := some record } : Transaction).claims name value s.now =
            w.claims name value s.now := by
          simp [Transaction.claims, hw, hkey]
        have hs := h.claimed name value
        unfold SharedTable.claimed at hs
        omega
    · rcases List.mem_or_eq_of_mem_set hv with hv | rfl
      · exact h.deleted v hv r hr
      · exact hdel r hr

theorem Single.insert (h : s.Single) (hs : s.step (.insert i) = some t) : t.Single := by
  simp only [step, Option.bind_eq_bind, Option.bind_eq_some_iff, Option.some.injEq] at hs
  obtain ⟨w, hi, record, hrec, rfl⟩ := hs
  refine h.replace hi rfl rfl (fun name value => Nat.add_le_add_left ?_ _)
    (h.deleted w (List.mem_of_getElem? hi))
  simp only [Transaction.claims, List.countP_append, List.countP_singleton, hrec, Option.any_some,
    Option.any_none, Bool.false_eq_true, if_false, Nat.add_zero]
  refine Nat.add_le_add_left ?_ _
  -- the row is of the name and value that were tested
  by_cases hl : TableRow.live name value s.now ⟨s.nextId, record.row s.now⟩ = true
  · obtain ⟨hn, hv, _⟩ := of_decide_eq_true hl
    have hk : record.name = name ∧ record.value = value := ⟨hn, hv⟩
    rw [if_pos hl, if_pos (decide_eq_true hk)]
  · rw [if_neg hl]
    exact Nat.zero_le _

theorem Single.commit (h : s.Single) (hs : s.step (.commit i) = some t) : t.Single := by
  simp only [step, Option.bind_eq_bind, Option.bind_eq_some_iff, Option.ite_none_right_eq_some,
    Option.some.injEq] at hs
  obtain ⟨w, hi, hw, rfl⟩ := hs
  refine h.replace hi rfl rfl (fun name value => ?_) fun r hr => nomatch hr
  have hempty : Transaction.empty.claims name value s.now = 0 := rfl
  have hmine : w.claims name value s.now = w.inserted.countP (TableRow.live name value s.now) := by
    simp [Transaction.claims, hw]
  have hkept : (s.committed.filter (· ∉ w.deleted)).countP (TableRow.live name value s.now) ≤
      s.committed.countP (TableRow.live name value s.now) :=
    List.Sublist.countP_le List.filter_sublist
  show (s.visible w).countP (TableRow.live name value s.now) + _ ≤ _
  rw [visible, List.countP_append]
  omega

/-- As time goes on rows only expire. -/
theorem Single.tick (h : s.Single) {now : Rat} (hs : s.step (.tick now) = some t) : t.Single := by
  simp only [step, Option.ite_none_right_eq_some, Option.some.injEq] at hs
  obtain ⟨hle, rfl⟩ := hs
  have older : ∀ name value (rows : List TableRow), rows.countP (TableRow.live name value now) ≤
      rows.countP (TableRow.live name value s.now) := by
    intro name value rows
    refine List.countP_mono_left fun r _ hr => ?_
    simp only [TableRow.live, decide_eq_true_eq] at hr ⊢
    exact ⟨hr.1, hr.2.1, lt_of_le_of_lt hle hr.2.2⟩
  refine ⟨fun name value => ?_, fun w hw r hr => le_trans (h.deleted w hw r hr) hle⟩
  have hc := older name value s.committed
  have ht : total (Transaction.claims name value now) s.workers ≤
      total (Transaction.claims name value s.now) s.workers :=
    total_mono fun w _ => Nat.add_le_add_right (older name value w.inserted) _
  have hs := h.claimed name value
  unfold SharedTable.claimed at hs ⊢
  exact le_trans (Nat.add_le_add hc ht) hs

theorem Single.step (h : s.Single) (a : TableAction) (alone : s.Alone a)
    (hs : s.step a = some t) : t.Single := by
  cases a with
  | delete i name => exact h.delete hs
  | test i record => exact h.test alone hs
  | insert i => exact h.insert hs
  | commit i => exact h.commit hs
  | tick now => exact h.tick hs

end Actions

/-- If no worker tests for a name and value that another one has under way, no two
committed unexpired rows have the same ones at any time. -/
theorem table_no_duplicates {n : Nat} {now : Rat} {actions : List TableAction} {s : SharedTable}
    (run : Steps step Alone (start n now) actions s) : s.NoDuplicates := by
  have single : s.Single :=
    run.invariant (fun _ a _ h alone hs => h.step a alone hs) (start_single n now)
  intro name value
  exact le_trans (Nat.le_add_right _ _) (single.claimed name value)

/-- An address that two upstream replies give for one name. -/
def popular : Incoming := ⟨[97], [49, 46, 50, 46, 51, 46, 52], 60, 1, 1⟩

/-- The second worker tests when the first one has committed. -/
def inTurn : List TableAction :=
  [.delete 0 [97], .test 0 popular, .insert 0, .commit 0, .tick 1, .delete 1 [97],
    .test 1 popular, .commit 1]

theorem table_no_duplicates_inTurn :
    ∃ s, Steps step Alone (start 2 0) inTurn s ∧ s.committed = [⟨0, popular.row 0⟩] ∧
      s.NoDuplicates := by
  have run : Steps step Alone (start 2 0) inTurn
      ⟨[⟨0, popular.row 0⟩], [.empty, .empty], 1, 1⟩ := steps_of_follow (by decide +kernel)
  exact ⟨_, run, rfl, table_no_duplicates run⟩

/-- Both workers test before either of them commits. -/
def bothTest : List TableAction :=
  [.delete 0 [97], .delete 1 [97], .test 0 popular, .test 1 popular, .insert 0, .insert 1,
    .commit 0, .commit 1]

theorem table_duplicates_bothTest :
    ∃ s, Steps step (fun _ _ => True) (start 2 0) bothTest s ∧ ¬ s.NoDuplicates := by
  have run : Steps step (fun _ _ => True) (start 2 0) bothTest
      ⟨[⟨0, popular.row 0⟩, ⟨1, popular.row 0⟩], [.empty, .empty], 0, 2⟩ :=
    steps_of_follow (by decide +kernel)
  exact ⟨_, run, fun h => absurd (h popular.name popular.value) (by decide +kernel)⟩

/-! A worker whose statements nobody comes between does what `cacheRecord` does. -/

section Undisturbed

variable {s : SharedTable} {i : Nat} {w : Transaction}

/-- The transaction after the delete. -/
def afterDelete (s : SharedTable) (w : Transaction) (name : List Byte) : Transaction :=
  { w with
    inserted := w.inserted.filter (fun r => ¬ s.expired name r)
    deleted := w.deleted ++ s.committed.filter (s.expired name) }

theorem view_afterDelete (name : List Byte) :
    (s.view (s.afterDelete w name)).record = ((s.view w).deleteExpired name s.now).record := by
  have hkept : s.committed.filter (· ∉ (s.afterDelete w name).deleted) =
      (s.committed.filter (· ∉ w.deleted)).filter (fun r => ¬ s.expired name r) := by
    rw [List.filter_filter]
    refine List.filter_congr fun r hr => ?_
    simp [afterDelete, hr, Bool.and_comm]
  have hpred : (fun r => decide (¬ s.expired name r = true)) =
      (fun r : Stored => decide (¬ (r.name = name ∧ r.expires ≤ s.now))) ∘ TableRow.row := by
    funext r
    simp [expired]
  show (s.visible (s.afterDelete w name)).map (·.row) =
    ((s.visible w).map (·.row)).filter (fun r => ¬ (r.name = name ∧ r.expires ≤ s.now))
  rw [visible, hkept, List.filter_map, visible, List.filter_append, ← hpred]
  rfl

theorem put_get (hi : s.workers[i]? = some w) (w' : Transaction) :
    (s.put i w').workers[i]? = some w' :=
  List.getElem?_set_self (List.getElem?_eq_some_iff.mp hi).1

theorem step_delete (hi : s.workers[i]? = some w) (idle : w.tested = none) (name : List Byte) :
    s.step (.delete i name) = some (s.put i (s.afterDelete w name)) := by
  simp only [step, hi, Option.bind_eq_bind, Option.bind_some]
  exact if_pos idle

theorem step_test (hi : s.workers[i]? = some w) (idle : w.tested = none) (record : Incoming) :
    s.step (.test i record) = if (s.view w).live record.name record.value s.now then some s
      else some (s.put i { w with tested := some record }) := by
  simp only [step, hi, Option.bind_eq_bind, Option.bind_some]
  exact if_pos idle

/-- The transaction after the insert. -/
def afterInsert (s : SharedTable) (w : Transaction) (record : Incoming) : Transaction :=
  { w with inserted := w.inserted ++ [⟨s.nextId, record.row s.now⟩], tested := none }

theorem view_afterInsert (record : Incoming) :
    (s.view (s.afterInsert w record)).record = (s.view w).record ++ [record.row s.now] := by
  show (s.committed.filter (· ∉ w.deleted) ++ (w.inserted ++ [_])).map TableRow.row =
    (s.committed.filter (· ∉ w.deleted) ++ w.inserted).map TableRow.row ++ _
  rw [← List.append_assoc, List.map_append]
  rfl

theorem step_insert (hi : s.workers[i]? = some w) {record : Incoming}
    (passed : w.tested = some record) : s.step (.insert i) =
      some { s.put i (s.afterInsert w record) with nextId := s.nextId + 1 } := by
  simp only [step, hi, Option.bind_eq_bind, Option.bind_some, passed]
  rfl

theorem step_tick {now : Rat} (later : s.now ≤ now) :
    s.step (.tick now) = some { s with now } := if_pos later

/-- Delete, test and insert for one record, with no other worker in between, change what the
worker sees as `cacheRecord` changes its connection. Time may pass between them. -/
theorem cacheRecord_refined (hi : s.workers[i]? = some w) (idle : w.tested = none)
    {e : Execution} (deletes : e.deleteNow = s.now) (tests : e.deleteNow ≤ e.testNow)
    (inserts : e.testNow ≤ e.insertNow) (rr : DNSResourceRecord) (rdata : DNSRData) :
    ∃ actions t w', Steps step (fun _ _ => True) s actions t ∧ t.workers[i]? = some w' ∧
      w'.tested = none ∧ t.committed = s.committed ∧
      (t.view w').record = (insertFor e rr rdata (deleteFor e rr (s.view w))).record := by
  let record : Incoming :=
    ⟨rr.name, rdata.getValue, signedTTL rr.info.ttl, rr.info.type, rr.info.rclass⟩
  let w₁ := s.afterDelete w rr.name
  let c := deleteFor e rr (s.view w)
  let s₁ : SharedTable := { s.put i w₁ with now := e.testNow }
  have hdel : s.step (.delete i rr.name) = some (s.put i w₁) := step_delete hi idle rr.name
  have hi₁ : s₁.workers[i]? = some w₁ := put_get hi w₁
  have htick : (s.put i w₁).step (.tick e.testNow) = some s₁ := step_tick (deletes ▸ tests)
  have hview : (s.view w₁).record = c.record := by
    rw [view_afterDelete, ← deletes]
    rfl
  have htest := step_test hi₁ idle record
  have hlive : (s₁.view w₁).live record.name record.value s₁.now =
      c.live rr.name rdata.getValue e.testNow := by
    unfold Connection.live
    rw [← hview]
    rfl
  rw [hlive] at htest
  have same : insertFor e rr rdata c = if c.live rr.name rdata.getValue e.testNow then c
      else { c with
        record := c.record ++ [storedRow e.insertNow rr rdata]
        pending := c.pending ++ [.insert (storedRow e.insertNow rr rdata)] } := rfl
  rw [same]
  split
  · rename_i hl
    rw [if_pos hl] at htest
    exact ⟨_, s₁, w₁, .cons trivial hdel (.cons trivial htick (.cons trivial htest (.nil _))),
      hi₁, idle, rfl, hview⟩
  · rename_i hl
    rw [if_neg hl] at htest
    let w₂ : Transaction := { w₁ with tested := some record }
    let s₂ : SharedTable := { s₁.put i w₂ with now := e.insertNow }
    have htick₂ : (s₁.put i w₂).step (.tick e.insertNow) = some s₂ := step_tick inserts
    have hi₂ : s₂.workers[i]? = some w₂ := put_get hi₁ w₂
    have hins : s₂.step (.insert i) = _ := step_insert hi₂ rfl
    refine ⟨_, _, s₂.afterInsert w₂ record,
      .cons trivial hdel (.cons trivial htick (.cons trivial htest (.cons trivial htick₂
        (.cons trivial hins (.nil _))))), put_get hi₂ _, rfl, rfl, ?_⟩
    show (s₂.view (s₂.afterInsert w₂ record)).record = c.record ++ [record.row e.insertNow]
    rw [view_afterInsert, ← hview]
    rfl

/-- A commit makes what the worker sees the committed table. -/
theorem commit_refined (hi : s.workers[i]? = some w) (idle : w.tested = none) :
    ∃ t, s.step (.commit i) = some t ∧ t.committed.map (·.row) = (s.view w).commit.record := by
  refine ⟨{ s.put i .empty with committed := s.visible w }, ?_, rfl⟩
  simp only [step, hi, Option.bind_eq_bind, Option.bind_some]
  exact if_pos idle

end Undisturbed

end SharedTable

end OdbcDns
