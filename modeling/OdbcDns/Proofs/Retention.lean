import OdbcDns.Proofs.Interleaving

/-! What is cached is not lost: with any number of workers, whatever the order of their
statements, no unexpired row goes away. -/

namespace OdbcDns.SharedTable

/-- What an action does, and when it is possible. -/
inductive Moves (s : SharedTable) : TableAction → SharedTable → Prop
  | delete {i : Nat} {w : Transaction} (hi : s.workers[i]? = some w) (idle : w.tested = none)
      (name : List Byte) : Moves s (.delete i name) (s.put i (s.afterDelete w name))
  | found {i : Nat} {w : Transaction} {record : Incoming} (hi : s.workers[i]? = some w)
      (idle : w.tested = none) (live : (s.view w).live record.name record.value s.now = true) :
      Moves s (.test i record) s
  | passed {i : Nat} {w : Transaction} {record : Incoming} (hi : s.workers[i]? = some w)
      (idle : w.tested = none) :
      Moves s (.test i record) (s.put i { w with tested := some record })
  | insert {i : Nat} {w : Transaction} {record : Incoming} (hi : s.workers[i]? = some w)
      (passed : w.tested = some record) : Moves s (.insert i)
        { s.put i (s.afterInsert w record) with nextId := s.nextId + 1 }
  | commit {i : Nat} {w : Transaction} (hi : s.workers[i]? = some w) (idle : w.tested = none) :
      Moves s (.commit i) { s.put i .empty with committed := s.visible w }
  | tick {now : Rat} (later : s.now ≤ now) : Moves s (.tick now) { s with now }

section Step

variable {s t : SharedTable} {a : TableAction}

theorem moves_of_step (h : s.step a = some t) : s.Moves a t := by
  cases a with
  | delete i name =>
    simp only [step, Option.bind_eq_bind, Option.bind_eq_some_iff, Option.ite_none_right_eq_some,
      Option.some.injEq] at h
    obtain ⟨w, hi, idle, rfl⟩ := h
    exact .delete hi idle name
  | test i record =>
    simp only [step, Option.bind_eq_bind, Option.bind_eq_some_iff,
      Option.ite_none_right_eq_some] at h
    obtain ⟨w, hi, idle, h⟩ := h
    split at h
    · rename_i live
      cases h
      exact .found hi idle live
    · cases h
      exact .passed hi idle
  | insert i =>
    simp only [step, Option.bind_eq_bind, Option.bind_eq_some_iff, Option.some.injEq] at h
    obtain ⟨w, hi, record, passed, rfl⟩ := h
    exact .insert hi passed
  | commit i =>
    simp only [step, Option.bind_eq_bind, Option.bind_eq_some_iff, Option.ite_none_right_eq_some,
      Option.some.injEq] at h
    obtain ⟨w, hi, idle, rfl⟩ := h
    exact .commit hi idle
  | tick now =>
    simp only [step, Option.ite_none_right_eq_some, Option.some.injEq] at h
    obtain ⟨later, rfl⟩ := h
    exact .tick later

theorem Moves.later (h : s.Moves a t) : s.now ≤ t.now := by
  cases h with
  | tick later => exact later
  | _ => exact le_rfl

end Step

/-- Only expired rows are being deleted. -/
def OnlyExpired (s : SharedTable) : Prop :=
  ∀ w ∈ s.workers, ∀ r ∈ w.deleted, r.row.expires ≤ s.now

section OnlyExpired

variable {s t : SharedTable} {a : TableAction} {i : Nat} {w w' : Transaction}

theorem start_onlyExpired (n : Nat) (now : Rat) : (start n now).OnlyExpired :=
  (start_single n now).deleted

theorem OnlyExpired.put (h : s.OnlyExpired) (deleted : ∀ r ∈ w'.deleted, r.row.expires ≤ s.now) :
    (s.put i w').OnlyExpired := by
  intro v hv
  rcases List.mem_or_eq_of_mem_set hv with hv | rfl
  · exact h v hv
  · exact deleted

theorem OnlyExpired.moves (h : s.OnlyExpired) (hm : s.Moves a t) : t.OnlyExpired := by
  cases hm with
  | delete hi _ name =>
    apply h.put
    intro r hr
    rcases List.mem_append.mp hr with old | new
    · exact h _ (List.mem_of_getElem? hi) r old
    · have := (List.mem_filter.mp new).2
      simp only [expired, decide_eq_true_eq] at this
      exact this.2
  | found => exact h
  | @passed i w _ hi => exact h.put (h w (List.mem_of_getElem? hi))
  | @insert i w _ hi => exact h.put (h w (List.mem_of_getElem? hi))
  | commit => exact h.put (by simp [Transaction.empty])
  | tick later => exact fun w hw r hr => le_trans (h w hw r hr) later

theorem onlyExpired_of_reach {C : SharedTable → TableAction → Prop} {n : Nat} {now : Rat}
    {actions : List TableAction} (reach : Steps step C (start n now) actions s) :
    s.OnlyExpired :=
  reach.invariant (fun _ _ _ h _ hs => h.moves (moves_of_step hs)) (start_onlyExpired n now)

/-- Nobody is about to take an unexpired row out of the table. -/
theorem OnlyExpired.visible (h : s.OnlyExpired) {r : TableRow} (live : s.now < r.row.expires)
    (committed : r ∈ s.committed) (hw : w ∈ s.workers) : r ∈ s.visible w := by
  have kept : r ∉ w.deleted := fun hd => absurd (h w hw r hd) (not_le.mpr live)
  simp [SharedTable.visible, committed, kept]

end OnlyExpired

/-- The row is committed, or in the open transaction of worker `i`. -/
def Holds (i : Nat) (r : TableRow) (s : SharedTable) : Prop :=
  r ∈ s.committed ∨ ∃ w, s.workers[i]? = some w ∧ r ∈ w.inserted

/-- Until it expires, the row is committed or in the open transaction of worker `i`. -/
def Keeps (i : Nat) (r : TableRow) (s : SharedTable) : Prop :=
  s.now < r.row.expires → s.Holds i r

/-- Until it expires, the row is committed. -/
def Durable (r : TableRow) (s : SharedTable) : Prop :=
  s.now < r.row.expires → r ∈ s.committed

section Kept

variable {s t : SharedTable} {a : TableAction} {i : Nat} {r : TableRow}

theorem Durable.moves (h : s.Durable r) (only : s.OnlyExpired) (hm : s.Moves a t) :
    t.Durable r := by
  intro live
  have before := lt_of_le_of_lt hm.later live
  cases hm with
  | commit hi => exact only.visible before (h before) (List.mem_of_getElem? hi)
  | _ => exact h before

/-- Another transaction of worker `i` that has the row as well. -/
theorem Holds.put {j : Nat} {w w' : Transaction} (h : s.Holds i r) (hj : s.workers[j]? = some w)
    (inserted : r ∈ w.inserted → r ∈ w'.inserted) : (s.put j w').Holds i r := by
  rcases h with committed | ⟨v, hv, hr⟩
  · exact .inl committed
  · by_cases hij : j = i
    · subst hij
      rw [hj] at hv
      cases hv
      exact .inr ⟨w', put_get hj w', inserted hr⟩
    · exact .inr ⟨v, (List.getElem?_set_ne hij).trans hv, hr⟩

theorem Keeps.commit (h : s.Keeps i r) (only : s.OnlyExpired) (hm : s.Moves (.commit i) t) :
    t.Durable r := by
  intro live
  have before := lt_of_le_of_lt hm.later live
  cases hm with
  | commit hi =>
    rcases h before with committed | ⟨v, hv, hr⟩
    · exact only.visible before committed (List.mem_of_getElem? hi)
    · rw [hi] at hv
      cases hv
      exact List.mem_append_right _ hr

theorem Keeps.moves (h : s.Keeps i r) (only : s.OnlyExpired) (hm : s.Moves a t) :
    t.Keeps i r := by
  intro live
  have before := lt_of_le_of_lt hm.later live
  have held := h before
  cases hm with
  | delete hi _ name =>
    refine held.put hi fun hr => List.mem_filter.mpr ⟨hr, ?_⟩
    simp only [expired, decide_eq_true_eq, Bool.decide_and, Bool.and_eq_true, not_and, not_le]
    exact fun _ => before
  | found => exact held
  | passed hi => exact held.put hi id
  | insert hi => exact held.put hi (List.mem_append_left _)
  | @commit j w hi idle =>
    rcases held with committed | ⟨v, hv, hr⟩
    · exact .inl (only.visible before committed (List.mem_of_getElem? hi))
    · by_cases hij : j = i
      · subst hij
        exact .inl (h.commit only (.commit hi idle) live)
      · exact .inr ⟨v, (List.getElem?_set_ne hij).trans hv, hr⟩
  | tick => exact held

end Kept

/-- Whatever the workers do from a state they can come to, a row that is committed or in
the transaction of a worker stays so until it expires. If the worker commits, the row is
committed from then on, and every worker sees it. -/
theorem rows_never_lost {C C' : SharedTable → TableAction → Prop} {n : Nat} {now : Rat}
    {before actions : List TableAction} {s t : SharedTable} {i : Nat} {r : TableRow}
    (reach : Steps step C (start n now) before s) (run : Steps step C' s actions t)
    (held : s.Holds i r) (live : t.now < r.row.expires) :
    t.Holds i r ∧ (r ∈ s.committed ∨ .commit i ∈ actions →
      r ∈ t.committed ∧ ∀ w ∈ t.workers, r ∈ t.visible w) := by
  have only := onlyExpired_of_reach reach
  have keep : ∀ (s : SharedTable) (a : TableAction) (t : SharedTable),
      s.OnlyExpired ∧ s.Keeps i r → s.step a = some t → t.OnlyExpired ∧ t.Keeps i r := by
    intro s a t h hs
    have hm := moves_of_step hs
    exact ⟨h.1.moves hm, h.2.moves h.1 hm⟩
  have atEnd := run.invariant (fun s a t h _ => keep s a t h) ⟨only, fun _ => held⟩
  refine ⟨atEnd.2 live, fun committed => ?_⟩
  have durable : t.Durable r := by
    apply run.established keep ?_ ?_ ⟨only, fun _ => held⟩ (committed.imp_left fun h _ => h)
    · exact fun s t h hs => h.2.commit h.1 (moves_of_step hs)
    · exact fun s a t h hd hs => hd.moves h.1 (moves_of_step hs)
  exact ⟨durable live, fun w hw => atEnd.1.visible live (durable live) hw⟩

/-- Another worker inserts the same record and commits it, and cleans up later. -/
def retained : List TableAction :=
  [.delete 1 [97], .test 1 popular, .insert 1, .commit 1, .commit 0, .tick 30, .delete 1 [97],
    .commit 1]

theorem rows_never_lost_retained :
    ∃ s t, Steps step (fun _ _ => True) (start 2 0) [.delete 0 [97], .test 0 popular, .insert 0] s ∧
      s.committed = [] ∧ Steps step (fun _ _ => True) s retained t ∧
      ∀ w ∈ t.workers, ⟨0, popular.row 0⟩ ∈ t.visible w := by
  have reach : Steps step (fun _ _ => True) (start 2 0)
      [.delete 0 [97], .test 0 popular, .insert 0]
      ⟨[], [⟨[⟨0, popular.row 0⟩], [], none⟩, .empty], 0, 1⟩ := steps_of_follow (by decide +kernel)
  have run : Steps step (fun _ _ => True)
      ⟨[], [⟨[⟨0, popular.row 0⟩], [], none⟩, .empty], 0, 1⟩ retained
      ⟨[⟨1, popular.row 0⟩, ⟨0, popular.row 0⟩], [.empty, .empty], 30, 2⟩ :=
    steps_of_follow (by decide +kernel)
  have kept := rows_never_lost (r := ⟨0, popular.row 0⟩) (i := 0) reach run
    (.inr ⟨_, rfl, List.mem_singleton_self _⟩) (by decide +kernel)
  exact ⟨_, _, reach, rfl, run, (kept.2 (.inr (by simp [retained]))).2⟩

/-- A row that stands for a record which worker `i` looked for in `s₀`: one that it saw
then, or one inserted for the record since. -/
structure RowFor (s₀ : SharedTable) (i : Nat) (record : Incoming) (s : SharedTable)
    (r : TableRow) : Prop where
  name : r.row.name = record.name
  value : r.row.value = record.value
  origin : (∃ w, s₀.workers[i]? = some w ∧ r ∈ s₀.visible w ∧ s₀.now ≤ r.row.expires) ∨
    ∃ time, s₀.now ≤ time ∧ time ≤ s.now ∧ r.row = record.row time

/-- Worker `i` has tested for the record and inserts it next, or a row stands for it. -/
structure Underway (s₀ : SharedTable) (i : Nat) (record : Incoming) (s : SharedTable) : Prop where
  only : s.OnlyExpired
  since : s₀.now ≤ s.now
  row : (∃ w, s.workers[i]? = some w ∧ w.tested = some record) ∨
    ∃ r, RowFor s₀ i record s r ∧ s.Keeps i r

section Underway

variable {s₀ s t : SharedTable} {a : TableAction} {i : Nat} {record : Incoming}

theorem RowFor.later {r : TableRow} (h : RowFor s₀ i record s r) (later : s.now ≤ t.now) :
    RowFor s₀ i record t r := by
  refine ⟨h.name, h.value, h.origin.imp_right ?_⟩
  intro ⟨time, since, until_, row⟩
  exact ⟨time, since, le_trans until_ later, row⟩

/-- A worker that has tested for a record does nothing but insert it. -/
theorem Moves.tested {w : Transaction} (hm : s.Moves a t) (hi : s.workers[i]? = some w)
    (passed : w.tested = some record) :
    (∃ w', t.workers[i]? = some w' ∧ w'.tested = some record) ∨
      (t.now = s.now ∧ t.Holds i ⟨s.nextId, record.row s.now⟩) := by
  -- the other workers leave the transaction alone
  have other : ∀ {j : Nat} (w' : Transaction), j ≠ i → (s.put j w').workers[i]? = some w :=
    fun w' hj => (List.getElem?_set_ne hj).trans hi
  have busy : ∀ {j : Nat} {v : Transaction}, s.workers[j]? = some v → v.tested = none → j ≠ i := by
    intro j v hj idle hij
    subst hij
    rw [hi] at hj
    cases hj
    rw [idle] at passed
    cases passed
  cases hm with
  | delete hj idle name => exact .inl ⟨w, other _ (busy hj idle), passed⟩
  | found hj idle => exact .inl ⟨w, hi, passed⟩
  | passed hj idle => exact .inl ⟨w, other _ (busy hj idle), passed⟩
  | commit hj idle => exact .inl ⟨w, other _ (busy hj idle), passed⟩
  | tick => exact .inl ⟨w, hi, passed⟩
  | @insert j v tested hj hv =>
    by_cases hij : j = i
    · subst hij
      rw [hi] at hj
      cases hj
      rw [passed] at hv
      cases hv
      exact .inr ⟨rfl, .inr ⟨_, put_get hi _, by simp [afterInsert]⟩⟩
    · exact .inl ⟨w, other _ hij, passed⟩

theorem Underway.moves (h : Underway s₀ i record s) (hm : s.Moves a t) :
    Underway s₀ i record t := by
  refine ⟨h.only.moves hm, le_trans h.since hm.later, ?_⟩
  rcases h.row with ⟨w, hi, passed⟩ | ⟨r, row, keeps⟩
  · refine (hm.tested hi passed).imp_right fun ⟨now, held⟩ => ?_
    refine ⟨_, ⟨rfl, rfl, .inr ⟨s.now, h.since, le_of_eq now.symm, rfl⟩⟩, fun _ => held⟩
  · exact .inr ⟨r, row.later hm.later, keeps.moves h.only hm⟩

/-- The test starts it. -/
theorem underway_of_test (only : s.OnlyExpired) (hm : s.Moves (.test i record) t) :
    Underway s i record t := by
  refine ⟨only.moves hm, hm.later, ?_⟩
  cases hm with
  | @found _ w _ hi _ live =>
    obtain ⟨row, hrow, hlive⟩ := List.any_eq_true.mp live
    obtain ⟨r, hr, rfl⟩ := List.mem_map.mp hrow
    obtain ⟨name, value, since⟩ := of_decide_eq_true hlive
    have held : s.Holds i r := by
      rcases List.mem_append.mp hr with committed | inserted
      · exact .inl (List.mem_filter.mp committed).1
      · exact .inr ⟨w, hi, inserted⟩
    exact .inr ⟨r, ⟨name, value, .inl ⟨w, hi, hr, since⟩⟩, fun _ => held⟩
  | passed hi => exact .inl ⟨_, put_get hi _, rfl⟩

theorem Underway.commit (h : Underway s₀ i record s) (hm : s.Moves (.commit i) t) :
    ∃ r, RowFor s₀ i record t r ∧ t.Durable r := by
  rcases h.row with ⟨w, hi, passed⟩ | ⟨r, row, keeps⟩
  · cases hm with
    | commit hi' idle =>
      rw [hi] at hi'
      cases hi'
      rw [idle] at passed
      cases passed
  · exact ⟨r, row.later hm.later, keeps.commit h.only hm⟩

end Underway

/-- Once a worker has tested for a record and committed, there is a row for the record,
the one the test found or one inserted since, which every worker finds until it expires,
whatever the others do in between and afterwards. -/
theorem cached_found_by_all {C C' : SharedTable → TableAction → Prop} {n : Nat} {now : Rat}
    {before actions : List TableAction} {s t : SharedTable} {i : Nat} {record : Incoming}
    (reach : Steps step C (start n now) before s)
    (run : Steps step C' s (.test i record :: actions) t) (committed : .commit i ∈ actions) :
    ∃ r, RowFor s i record t r ∧ (t.now < r.row.expires → r ∈ t.committed ∧
      ∀ w ∈ t.workers, (t.view w).live record.name record.value t.now = true) := by
  have only := onlyExpired_of_reach reach
  cases run with
  | @cons _ s₁ _ _ _ _ first rest =>
    have tested := underway_of_test only (moves_of_step first)
    have keep : ∀ q a q', Underway s i record q → q.step a = some q' → Underway s i record q' :=
      fun q a q' h hs => h.moves (moves_of_step hs)
    have atEnd := rest.invariant (fun q a q' h _ => keep q a q' h) tested
    obtain ⟨r, row, durable⟩ : ∃ r, RowFor s i record t r ∧ t.Durable r := by
      apply rest.established keep ?_ ?_ tested (.inr committed)
      · exact fun q q' h hs => h.commit (moves_of_step hs)
      · intro q a q' h ⟨r, row, durable⟩ hs
        have hm := moves_of_step hs
        exact ⟨r, row.later hm.later, durable.moves h.only hm⟩
    refine ⟨r, row, fun live => ⟨durable live, fun w hw => ?_⟩⟩
    have seen := atEnd.only.visible live (durable live) hw
    apply List.any_eq_true.mpr
    exact ⟨r.row, List.mem_map_of_mem seen, decide_eq_true ⟨row.name, row.value, le_of_lt live⟩⟩

/-- The other worker tests and commits between the test and the insert. -/
def overtaken : List TableAction :=
  [.test 1 popular, .insert 1, .commit 1, .tick 10, .insert 0, .commit 0, .delete 1 [97],
    .commit 1]

theorem cached_found_by_all_overtaken :
    ∃ s t, Steps step (fun _ _ => True) (start 2 0) [.delete 0 [97], .delete 1 [97]] s ∧
      Steps step (fun _ _ => True) s (.test 0 popular :: overtaken) t ∧
      ∃ r, RowFor s 0 popular t r ∧ (t.now < r.row.expires → r ∈ t.committed ∧
        ∀ w ∈ t.workers, (t.view w).live popular.name popular.value t.now = true) := by
  have reach : Steps step (fun _ _ => True) (start 2 0) [.delete 0 [97], .delete 1 [97]]
      ⟨[], [.empty, .empty], 0, 0⟩ := steps_of_follow (by decide +kernel)
  have run : Steps step (fun _ _ => True) ⟨[], [.empty, .empty], 0, 0⟩
      (.test 0 popular :: overtaken)
      ⟨[⟨0, popular.row 0⟩, ⟨1, popular.row 10⟩], [.empty, .empty], 10, 2⟩ :=
    steps_of_follow (by decide +kernel)
  exact ⟨_, _, reach, run, cached_found_by_all reach run (by simp [overtaken])⟩

end OdbcDns.SharedTable
