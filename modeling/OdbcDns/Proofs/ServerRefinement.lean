import OdbcDns.Proofs.ServerPackets
import OdbcDns.Proofs.QueueSafety

namespace OdbcDns

/-- Where a thread stands in the model of the queue. Caching and cleaning belong to the
wait there; a thread whose caching has thrown, and which looks at the condition of its loop
once more, is still waiting. -/
def Thread.Matches (th : Thread) (p : WorkerPlace DNSRequest) : Prop :=
  match th.place with
  | .head => p = .head ∨ p = .waiting
  | .begun | .cached | .waiting | .hung false => p = .waiting
  | .checking => p = .checking
  | .taking => p = .taking
  | .serving | .hung true => ∃ r, th.request = some r ∧ p = .serving r
  | .left => p = .done ∨ p = .waiting
  | .broke => p = .done

namespace DNSServer

/-- The state of the queue that a state of the server stands for. -/
structure Simulates (s : DNSServer) (q : QueueState DNSRequest) : Prop where
  queue : q.queue = s.requestQueue
  units : q.units = s.requestSemaphore
  isRunning : q.isRunning = s.isRunning
  quitEvent : q.quitEvent = s.quitEvent
  receiver : q.receiver = s.receiver
  pushed : q.pushed = s.pushed
  taken : q.taken = s.taken
  workers : List.Forall₂ Thread.Matches s.threads q.workers

theorem start_simulates (startups : List Startup) :
    (start startups).Simulates (QueueState.start startups.length) where
  queue := rfl
  units := rfl
  isRunning := rfl
  quitEvent := rfl
  receiver := rfl
  pushed := rfl
  taken := rfl
  workers := by
    induction startups with
    | nil => exact .nil
    | cons u us ih => exact .cons (.inl rfl) ih

section Match

variable {cfg : Config} {s t : DNSServer} {q : QueueState DNSRequest} {a : ServerAction}
  {i : Nat} {th th' : Thread} {p : WorkerPlace DNSRequest}
  {D : QueueState DNSRequest → QueueAction DNSRequest → Prop}

/-- A thread goes on, and the queue knows nothing of it. -/
theorem Simulates.stay (h : s.Simulates q) (hp : q.workers[i]? = some p) (hm : th'.Matches p) :
    (s.put i th').Simulates q :=
  { h with workers := forall₂_set_left h.workers hp hm }

theorem Simulates.goto (h : s.Simulates q) (hm : th'.Matches p) :
    (s.put i th').Simulates (q.goto i p) :=
  { h with workers := forall₂_set h.workers hm i }

/-- A thread that only goes on takes one step in the model of the queue, or none. -/
theorem Simulates.goes (h : s.Simulates q) (allowed : ∀ b, D q b) (hi : s.threads[i]? = some th)
    (goes : Goes cfg s th a th') :
    ∃ bs q', Steps QueueState.step D q bs q' ∧ (s.put i th').Simulates q' := by
  obtain ⟨p, hp, hm⟩ := forall₂_getElem? h.workers hi
  unfold Thread.Matches at hm
  cases goes with
  | begun here go =>
    rw [here] at hm
    rcases hm with rfl | rfl
    · have hs : q.step (.loop i) = some (q.goto i .waiting) := by
        rw [← h.isRunning, ← h.queue] at go
        simp only [QueueState.step, if_pos hp, if_pos go]
      exact ⟨_, _, .single (allowed _) hs, h.goto rfl⟩
    · exact ⟨_, _, .nil q, h.stay hp rfl⟩
  | left here stopped empty =>
    rw [here] at hm
    rcases hm with rfl | rfl
    · have hs : q.step (.loop i) = some (q.goto i .done) := by
        rw [← h.isRunning] at stopped
        rw [← h.queue] at empty
        simp only [QueueState.step, if_pos hp, stopped, empty]
        rfl
      exact ⟨_, _, .single (allowed _) hs, h.goto (.inl rfl)⟩
    · exact ⟨_, _, .nil q, h.stay hp (.inr rfl)⟩
  | cached here due cache =>
    rw [here] at hm
    exact ⟨_, _, .nil q, h.stay hp hm⟩
  | threw here due cache =>
    rw [here] at hm
    exact ⟨_, _, .nil q, h.stay hp (.inr hm)⟩
  | hungCaching here due =>
    rw [here] at hm
    exact ⟨_, _, .nil q, h.stay hp hm⟩
  | hungServing here =>
    rw [here] at hm
    exact ⟨_, _, .nil q, h.stay hp hm⟩
  | quit here none quit =>
    rw [here] at hm
    subst hm
    have hs : q.step (.wait i) = some (q.goto i .checking) := by
      rw [← h.units] at none
      rw [← h.quitEvent] at quit
      simp only [QueueState.step, if_pos hp, none, quit]
      rfl
    exact ⟨_, _, .single (allowed _) hs, h.goto rfl⟩
  | passed here go =>
    rw [here] at hm
    subst hm
    have hs : q.step (.check i) = some (q.goto i .taking) := by
      rw [← h.isRunning, ← h.queue] at go
      have stay : ¬ (¬ q.isRunning ∧ q.queue = []) := by
        rintro ⟨stopped, empty⟩
        exact go.elim stopped fun hne => hne empty
      simp only [QueueState.step, if_pos hp, if_neg stay]
    exact ⟨_, _, .single (allowed _) hs, h.goto rfl⟩
  | broke here stopped empty =>
    rw [here] at hm
    subst hm
    have hs : q.step (.check i) = some (q.goto i .done) := by
      rw [← h.isRunning] at stopped
      rw [← h.queue] at empty
      simp only [QueueState.step, if_pos hp, stopped, empty]
      rfl
    exact ⟨_, _, .single (allowed _) hs, h.goto rfl⟩

theorem matches_of_cleans {w : Worker} (cleans : th.Cleans) (hm : th.Matches p) :
    ({ th with place := .waiting, worker := w } : Thread).Matches p := by
  unfold Thread.Matches at hm
  rcases cleans with ⟨here, _⟩ | here
  · rw [here] at hm
    exact hm
  · rw [here] at hm
    exact hm

/-- Every move of the server is a step in the model of the queue, or nothing. -/
theorem Simulates.moves (h : s.Simulates q) (allowed : ∀ b, D q b) (hm : Moves cfg s a t) :
    ∃ bs q', Steps QueueState.step D q bs q' ∧ t.Simulates q' := by
  cases hm with
  | @receive datagram client address buffer short here running fresh =>
    let r : DNSRequest := ⟨address, datagram, short, buffer, client⟩
    have hs : q.step (.receive r) = some { q with receiver := .received r } := by
      rw [← h.receiver] at here
      rw [← h.isRunning] at running
      exact if_pos ⟨here, running⟩
    exact ⟨_, _, .single (allowed _) hs, { h with receiver := rfl }⟩
  | nothing outside => exact ⟨_, _, .nil q, h⟩
  | @push r here =>
    have hs : q.step .push = some { q with
        queue := q.queue ++ [r]
        pushed := q.pushed ++ [r]
        receiver := .pushed } := by
      rw [← h.receiver] at here
      simp only [QueueState.step, here]
    exact ⟨_, _, .single (allowed _) hs, { h with
      queue := congrArg (· ++ [r]) h.queue
      pushed := congrArg (· ++ [r]) h.pushed
      receiver := rfl }⟩
  | release here =>
    have hs : q.step .release = some { q with units := q.units + 1, receiver := .waiting } := by
      rw [← h.receiver] at here
      exact if_pos here
    exact ⟨_, _, .single (allowed _) hs, { h with
      units := congrArg (· + 1) h.units
      receiver := rfl }⟩
  | leave here stopped =>
    have hs : q.step .leave = some { q with receiver := .done } := by
      rw [← h.receiver] at here
      rw [← h.isRunning] at stopped
      exact if_pos ⟨here, Bool.eq_false_iff.mp stopped⟩
    exact ⟨_, _, .single (allowed _) hs, { h with receiver := rfl }⟩
  | stopRunning => exact ⟨_, _, .single (allowed .stopRunning) rfl, { h with isRunning := rfl }⟩
  | setQuit stopped =>
    have hs : q.step .setQuit = some { q with quitEvent := true } := by
      rw [← h.isRunning] at stopped
      exact if_neg (Bool.eq_false_iff.mp stopped)
    exact ⟨_, _, .single (allowed _) hs, { h with quitEvent := rfl }⟩
  | goes hi own goes => exact h.goes allowed hi goes
  | freed hi cleans hr live =>
    obtain ⟨p, hp, hm⟩ := forall₂_getElem? h.workers hi
    exact ⟨_, _, .nil q, { h.stay hp (matches_of_cleans cleans hm) with }⟩
  | cleaned hi cleans hr =>
    obtain ⟨p, hp, hm⟩ := forall₂_getElem? h.workers hi
    exact ⟨_, _, .nil q, h.stay hp (matches_of_cleans cleans hm)⟩
  | @waited i th hi here unit =>
    obtain ⟨p, hp, hm⟩ := forall₂_getElem? h.workers hi
    rw [Thread.Matches, here] at hm
    subst hm
    have hs : q.step (.wait i) = some { q.goto i .checking with units := q.units - 1 } := by
      rw [← h.units] at unit
      simp only [QueueState.step, if_pos hp, if_pos unit]
    have next : (s.put i { th with place := .checking }).Simulates (q.goto i .checking) :=
      h.goto rfl
    exact ⟨_, _, .single (allowed _) hs, { next with units := congrArg (· - 1) h.units }⟩
  | @took i th r rest hi here first =>
    obtain ⟨p, hp, hm⟩ := forall₂_getElem? h.workers hi
    rw [Thread.Matches, here] at hm
    subst hm
    have hs : q.step (.take i) = some { q.goto i (.serving r) with
        queue := rest
        taken := q.taken ++ [(i, r)] } := by
      rw [← h.queue] at first
      simp only [QueueState.step, if_pos hp, first]
    have next : (s.put i { th with place := .serving, request := some r }).Simulates
        (q.goto i (.serving r)) := h.goto ⟨r, rfl, rfl⟩
    exact ⟨_, _, .single (allowed _) hs, { next with
      queue := rfl
      taken := congrArg (· ++ [(i, r)]) h.taken }⟩
  | @served i th r turn w bytes hi here hr datagram buffer serve =>
    obtain ⟨p, hp, hm⟩ := forall₂_getElem? h.workers hi
    rw [Thread.Matches, here] at hm
    obtain ⟨_, _, rfl⟩ := hm
    have hs : q.step (.served i) = some (q.goto i .head) := by
      simp only [QueueState.step, hp]
    have next : (s.put i { th with place := .head, worker := w }).Simulates (q.goto i .head) :=
      h.goto (.inl rfl)
    exact ⟨_, _, .single (allowed _) hs, { next with }⟩
  | ends inside he => exact ⟨_, _, .nil q, { h with }⟩

end Match

/-- A run of the server is a run of the queue, with conditions that the states of the server
imply. -/
theorem steps_simulated {cfg : Config} {C : DNSServer → ServerAction → Prop}
    {D : QueueState DNSRequest → QueueAction DNSRequest → Prop} {startups : List Startup}
    {actions : List ServerAction} {s : DNSServer}
    (allowed : ∀ s a q, C s a → s.Simulates q → ∀ b, D q b)
    (run : Steps (step cfg) C (start startups) actions s) :
    ∃ bs q, Steps QueueState.step D (QueueState.start startups.length) bs q ∧ s.Simulates q :=
  run.simulate (fun s a _ q h hc hs => h.moves (allowed s a q hc h) (moves_of_step hs).2)
    (start_simulates startups)

/-- The server as a whole, with its caching, its packets and whatever its calls do, runs as
the model of the queue does; so its requests are taken in the order in which they came. -/
theorem server_simulated {cfg : Config} {C : DNSServer → ServerAction → Prop}
    {startups : List Startup} {actions : List ServerAction} {s : DNSServer}
    (run : Steps (step cfg) C (start startups) actions s) :
    (∃ bs q, Steps QueueState.step (fun _ _ => True) (QueueState.start startups.length) bs q ∧
      s.Simulates q) ∧
    s.taken.map Prod.snd ++ s.requestQueue = s.pushed := by
  obtain ⟨bs, q, hq, hsim⟩ := steps_simulated (fun _ _ _ _ _ _ => trivial) run
  refine ⟨⟨bs, q, hq, hsim⟩, ?_⟩
  have ordered := QueueState.queue_ordered hq
  rw [QueueState.Ordered, hsim.taken, hsim.queue, hsim.pushed] at ordered
  exact ordered

theorem server_simulated_answered : ∃ (s : DNSServer) (bs : List (QueueAction DNSRequest))
    (q : QueueState DNSRequest), s.taken.length = 1 ∧ s.requestQueue = [] ∧
      Steps QueueState.step (fun _ _ => True) (QueueState.start 2) bs q ∧ s.Simulates q := by
  have computed : (after oneRequest).map (fun s => (s.taken.length, s.requestQueue)) =
      some (1, []) := by decide +kernel
  obtain ⟨s, run, hs⟩ := exists_after computed
  obtain ⟨⟨bs, q, hq, hsim⟩, _⟩ := server_simulated run
  exact ⟨s, bs, q, (Prod.mk.inj hs).1, (Prod.mk.inj hs).2, hq, hsim⟩

end DNSServer

end OdbcDns
