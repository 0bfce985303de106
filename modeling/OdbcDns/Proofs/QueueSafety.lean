import OdbcDns.RequestQueue
import OdbcDns.Lib.Threads

namespace OdbcDns

variable {Request : Type}

/-- One for a worker that is past the wait and has not taken its request. -/
def WorkerPlace.holds : WorkerPlace Request → Nat
  | .checking => 1
  | .taking => 1
  | _ => 0

def WorkerPlace.takes : WorkerPlace Request → Nat
  | .taking => 1
  | _ => 0

/-- The units that the receiver has still to release. -/
def ReceiverPlace.owes : ReceiverPlace Request → Nat
  | .pushed => 1
  | _ => 0

namespace QueueState

def holding (s : QueueState Request) : Nat := total WorkerPlace.holds s.workers

/-- The workers between the check and the pop. -/
def taking (s : QueueState Request) : Nat := total WorkerPlace.takes s.workers

/-- The requests have been taken in the order in which they were pushed, each one
once. -/
def Ordered (s : QueueState Request) : Prop := s.taken.map Prod.snd ++ s.queue = s.pushed

/-- No worker has taken from an empty queue, and no request was taken twice. -/
structure Safe (s : QueueState Request) : Prop where
  alive : WorkerPlace.crashed ∉ s.workers
  once : s.Ordered

/-- While the server runs, units, workers past the wait and the unit still to be
released account for the requests in the queue. -/
structure Balanced (s : QueueState Request) : Prop where
  alive : WorkerPlace.crashed ∉ s.workers
  running : s.isRunning = true →
    s.quitEvent = false ∧ s.holding + s.units + s.receiver.owes = s.queue.length
  room : s.taking ≤ s.queue.length

theorem start_balanced (n : Nat) : (start n : QueueState Request).Balanced := by
  have hz : ∀ f : WorkerPlace Request → Nat, f .head = 0 →
      total f (List.replicate n WorkerPlace.head) = 0 := by
    intro f hf
    exact total_eq_zero fun p hp => List.eq_of_mem_replicate hp ▸ hf
  refine ⟨?_, fun _ => ⟨rfl, ?_⟩, ?_⟩
  · intro h
    cases List.eq_of_mem_replicate h
  · exact hz _ rfl
  · exact Nat.le_of_eq (hz _ rfl)

section Goto

variable {s : QueueState Request} {i : Nat} {p q : WorkerPlace Request}

theorem alive_goto (h : WorkerPlace.crashed ∉ s.workers) (hq : q ≠ .crashed) :
    WorkerPlace.crashed ∉ (s.goto i q).workers := by
  intro hm
  rcases List.mem_or_eq_of_mem_set hm with hm | he
  · exact h hm
  · exact hq he.symm

/-- A worker moves between places that are not past the wait. -/
theorem Balanced.goto (h : s.Balanced) (hi : s.workers[i]? = some p) (hh : p.holds = q.holds)
    (ht : p.takes = q.takes) (hq : q ≠ .crashed) : (s.goto i q).Balanced := by
  have hholding : (s.goto i q).holding = s.holding := by
    have := total_set WorkerPlace.holds hi q
    rw [hh] at this
    exact Nat.add_right_cancel this
  have htaking : (s.goto i q).taking = s.taking := by
    have := total_set WorkerPlace.takes hi q
    rw [ht] at this
    exact Nat.add_right_cancel this
  refine ⟨alive_goto h.alive hq, fun hr => ?_, ?_⟩
  · rw [hholding]
    exact h.running hr
  · rw [htaking]
    exact h.room

end Goto

theorem taking_le_holding (s : QueueState Request) : s.taking ≤ s.holding := by
  refine total_mono fun p _ => ?_
  cases p <;> simp [WorkerPlace.takes, WorkerPlace.holds]

variable [DecidableEq Request]

/-- Once the server is not running any more, a worker gets past its check only if
there are more requests than workers that are about to take one. -/
def Roomy (s : QueueState Request) : QueueAction Request → Prop
  | .check _ => s.isRunning = false → s.queue ≠ [] → s.taking < s.queue.length
  | _ => True

instance (s : QueueState Request) (a : QueueAction Request) : Decidable (s.Roomy a) := by
  cases a <;> unfold Roomy <;> infer_instance

section Actions

variable {s t : QueueState Request} {i : Nat}

theorem Balanced.receive (h : s.Balanced) {r : Request} (hs : s.step (.receive r) = some t) :
    t.Balanced := by
  simp only [step, Option.ite_none_right_eq_some, Option.some.injEq] at hs
  obtain ⟨⟨hw, _⟩, rfl⟩ := hs
  refine ⟨h.alive, fun hr => ?_, h.room⟩
  have hb := h.running hr
  rw [hw] at hb
  exact hb

theorem Balanced.push (h : s.Balanced) (hs : s.step .push = some t) : t.Balanced := by
  simp only [step] at hs
  split at hs
  · rename_i r hr
    cases hs
    have hl : (s.queue ++ [r]).length = s.queue.length + 1 := List.length_append
    refine ⟨h.alive, fun hrun => ⟨(h.running hrun).1, ?_⟩, ?_⟩
    · have hb := (h.running hrun).2
      rw [hr] at hb
      show s.holding + s.units + 1 = (s.queue ++ [r]).length
      rw [hl, ← hb]
      rfl
    · show s.taking ≤ (s.queue ++ [r]).length
      have := h.room
      omega
  · cases hs

theorem Balanced.release (h : s.Balanced) (hs : s.step .release = some t) : t.Balanced := by
  simp only [step, Option.ite_none_right_eq_some, Option.some.injEq] at hs
  obtain ⟨hp, rfl⟩ := hs
  refine ⟨h.alive, fun hr => ⟨(h.running hr).1, ?_⟩, h.room⟩
  have hb := (h.running hr).2
  rw [hp] at hb
  show s.holding + (s.units + 1) + 0 = s.queue.length
  rw [← hb]
  rfl

theorem Balanced.leave (h : s.Balanced) (hs : s.step .leave = some t) : t.Balanced := by
  simp only [step, Option.ite_none_right_eq_some, Option.some.injEq] at hs
  obtain ⟨⟨_, hr⟩, rfl⟩ := hs
  exact ⟨h.alive, fun hrun => absurd hrun hr, h.room⟩

theorem Balanced.loop (h : s.Balanced) (hs : s.step (.loop i) = some t) : t.Balanced := by
  simp only [step, Option.ite_none_right_eq_some, Option.some.injEq] at hs
  obtain ⟨hi, rfl⟩ := hs
  split
  · exact h.goto hi rfl rfl (by simp)
  · exact h.goto hi rfl rfl (by simp)

theorem Balanced.wait (h : s.Balanced) (hs : s.step (.wait i) = some t) : t.Balanced := by
  simp only [step, Option.ite_none_right_eq_some] at hs
  obtain ⟨hi, hs⟩ := hs
  have hh : (s.goto i .checking).holding = s.holding + 1 := total_set WorkerPlace.holds hi _
  have ht : (s.goto i .checking).taking = s.taking := total_set WorkerPlace.takes hi _
  have room : (s.goto i .checking).taking ≤ s.queue.length := ht ▸ h.room
  have alive := alive_goto (i := i) (q := .checking) h.alive (by simp)
  split at hs
  · rename_i hu
    cases hs
    refine ⟨alive, fun hr => ⟨(h.running hr).1, ?_⟩, room⟩
    have hb := (h.running hr).2
    show (s.goto i .checking).holding + (s.units - 1) + s.receiver.owes = s.queue.length
    omega
  · split at hs
    · rename_i hq
      cases hs
      refine ⟨alive, fun hr => ?_, room⟩
      have hn := (h.running hr).1
      rw [hn] at hq
      cases hq
    · cases hs

/-- The worker that is let past the check has a request to take: while the server
runs it is accounted for, and afterwards the condition says so. -/
theorem Balanced.check (h : s.Balanced) (roomy : s.Roomy (.check i))
    (hs : s.step (.check i) = some t) : t.Balanced := by
  simp only [step, Option.ite_none_right_eq_some, Option.some.injEq] at hs
  obtain ⟨hi, rfl⟩ := hs
  split
  · rename_i hstop
    have ht : (s.goto i .done).taking = s.taking := total_set WorkerPlace.takes hi _
    refine ⟨alive_goto h.alive (by simp), fun hr => absurd hr hstop.1, ?_⟩
    rw [ht]
    exact h.room
  · rename_i hgo
    have hh : (s.goto i .taking).holding = s.holding :=
      Nat.add_right_cancel (total_set WorkerPlace.holds hi _)
    have ht : (s.goto i .taking).taking = s.taking + 1 := total_set WorkerPlace.takes hi _
    refine ⟨alive_goto h.alive (by simp), fun hr => ?_, ?_⟩
    · rw [hh]
      exact h.running hr
    · show (s.goto i .taking).taking ≤ s.queue.length
      cases hr : s.isRunning with
      | true =>
        have hb := (h.running hr).2
        have hle := (s.goto i .taking).taking_le_holding
        omega
      | false =>
        rw [hr] at hgo
        have := roomy hr (fun hq => hgo ⟨by simp, hq⟩)
        omega

theorem Balanced.take (h : s.Balanced) (hs : s.step (.take i) = some t) : t.Balanced := by
  simp only [step, Option.ite_none_right_eq_some] at hs
  obtain ⟨hi, hs⟩ := hs
  have hh : ∀ r, (s.goto i (.serving r)).holding + 1 = s.holding :=
    fun r => total_set WorkerPlace.holds hi _
  have ht : ∀ r, (s.goto i (.serving r)).taking + 1 = s.taking :=
    fun r => total_set WorkerPlace.takes hi _
  have hroom := h.room
  have hrun := h.running
  cases hq : s.queue with
  | nil =>
    -- the worker itself is one of those that are about to take
    have hpos : 1 ≤ s.taking := le_total_of_getElem? WorkerPlace.takes hi
    rw [hq, List.length_nil] at hroom
    omega
  | cons r rest =>
    rw [hq] at hs hroom hrun
    cases hs
    have hh := hh r
    have ht := ht r
    rw [List.length_cons] at hroom
    refine ⟨alive_goto h.alive (by simp), fun hr => ⟨(hrun hr).1, ?_⟩, ?_⟩
    · have hb := (hrun hr).2
      rw [List.length_cons] at hb
      show (s.goto i (.serving r)).holding + s.units + s.receiver.owes = rest.length
      omega
    · show (s.goto i (.serving r)).taking ≤ rest.length
      omega

theorem Balanced.served (h : s.Balanced) (hs : s.step (.served i) = some t) : t.Balanced := by
  simp only [step] at hs
  split at hs
  · rename_i r hi
    cases hs
    exact h.goto hi rfl rfl (by simp)
  · cases hs

theorem Balanced.shutdown (h : s.Balanced) :
    (s.step .stopRunning = some t → t.Balanced) ∧ (s.step .setQuit = some t → t.Balanced) := by
  constructor
  · intro hs
    cases hs
    exact ⟨h.alive, fun hr => (nomatch hr), h.room⟩
  · intro hs
    simp only [step, Option.ite_none_left_eq_some, Option.some.injEq] at hs
    obtain ⟨hr, rfl⟩ := hs
    exact ⟨h.alive, fun hrun => absurd hrun hr, h.room⟩

theorem Balanced.step (h : s.Balanced) (a : QueueAction Request) (roomy : s.Roomy a)
    (hs : s.step a = some t) : t.Balanced := by
  cases a with
  | receive r => exact h.receive hs
  | push => exact h.push hs
  | release => exact h.release hs
  | leave => exact h.leave hs
  | loop i => exact h.loop hs
  | wait i => exact h.wait hs
  | check i => exact h.check roomy hs
  | take i => exact h.take hs
  | served i => exact h.served hs
  | stopRunning => exact h.shutdown.1 hs
  | setQuit => exact h.shutdown.2 hs

/-- The lock keeps the order, whatever the workers do. -/
theorem Ordered.step (h : s.Ordered) (a : QueueAction Request) (hs : s.step a = some t) :
    t.Ordered := by
  cases a with
  | push =>
    simp only [QueueState.step] at hs
    split at hs
    · cases hs
      show _ ++ (s.queue ++ [_]) = s.pushed ++ [_]
      rw [← List.append_assoc, h]
    · cases hs
  | take i =>
    simp only [QueueState.step, Option.ite_none_right_eq_some] at hs
    obtain ⟨_, hs⟩ := hs
    split at hs
    · cases hs
      exact h
    · rename_i r rest hq
      cases hs
      rw [Ordered, hq] at h
      show (s.taken ++ [(i, r)]).map Prod.snd ++ rest = s.pushed
      rw [List.map_append, List.append_assoc]
      exact h
  | wait i =>
    simp only [QueueState.step, Option.ite_none_right_eq_some] at hs
    obtain ⟨_, hs⟩ := hs
    split at hs
    · cases hs
      exact h
    · split at hs
      · cases hs
        exact h
      · cases hs
  | served i =>
    simp only [QueueState.step] at hs
    split at hs
    · cases hs
      exact h
    · cases hs
  | stopRunning =>
    cases hs
    exact h
  | setQuit =>
    simp only [QueueState.step, Option.ite_none_left_eq_some, Option.some.injEq] at hs
    obtain ⟨_, rfl⟩ := hs
    exact h
  | receive | release | leave | loop | check =>
    simp only [QueueState.step, Option.ite_none_right_eq_some, Option.some.injEq] at hs
    obtain ⟨_, rfl⟩ := hs
    exact h

end Actions

/-- In no run of any kind is a request taken twice. -/
theorem queue_ordered {C : QueueState Request → QueueAction Request → Prop} {n : Nat}
    {actions : List (QueueAction Request)} {s : QueueState Request}
    (run : Steps step C (start n) actions s) : s.Ordered :=
  run.invariant (I := Ordered) (fun _ a _ h _ hs => h.step a hs) rfl

/-- In no run in which every check after the end of running leaves enough requests
does a worker take from an empty queue or a request that was taken before. -/
theorem queue_safe {n : Nat} {actions : List (QueueAction Request)} {s : QueueState Request}
    (run : Steps step Roomy (start n) actions s) : s.Safe := by
  have balanced : s.Balanced :=
    run.invariant (fun _ a _ hb roomy hs => hb.step a roomy hs) (start_balanced n)
  exact ⟨balanced.alive, queue_ordered run⟩

/-- One request for two workers, and the server is shut down before either of them
wakes up. The second one comes to its check when the first one has taken it. -/
def oneAfterOther : List (QueueAction Nat) :=
  [.loop 0, .loop 1, .receive 7, .push, .release, .stopRunning, .setQuit, .wait 0, .wait 1,
    .check 0, .take 0, .check 1]

theorem queue_safe_oneAfterOther :
    ∃ s : QueueState Nat, Steps step Roomy (start 2) oneAfterOther s ∧ s.taken = [(0, 7)] ∧
      s.Safe := by
  have run : Steps step Roomy (start 2) oneAfterOther
      (⟨[], 0, false, true, .waiting, [.serving 7, .done], [7], [(0, 7)]⟩ : QueueState Nat) :=
    steps_of_follow (by decide +kernel)
  exact ⟨_, run, rfl, queue_safe run⟩

/-- Both workers pass their checks before either of them takes the request. -/
def bothPass : List (QueueAction Nat) :=
  [.loop 0, .loop 1, .receive 7, .push, .release, .stopRunning, .setQuit, .wait 0, .wait 1,
    .check 0, .check 1, .take 0, .take 1]

theorem queue_bothPass_crash :
    ∃ s : QueueState Nat, Steps step (fun _ _ => True) (start 2) bothPass s ∧ ¬ s.Safe := by
  have run : Steps step (fun _ _ => True) (start 2) bothPass
      (⟨[], 0, false, true, .waiting, [.serving 7, .crashed], [7], [(0, 7)]⟩ : QueueState Nat) :=
    steps_of_follow (by decide +kernel)
  exact ⟨_, run, fun h => h.alive (by decide)⟩

end QueueState

end OdbcDns
