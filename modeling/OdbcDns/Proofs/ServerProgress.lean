import OdbcDns.Proofs.ServerPackets
import OdbcDns.Proofs.ServerRefinement
import OdbcDns.Proofs.Questions

namespace OdbcDns

/-! How long the threads can go on by themselves, and where they come to rest. -/

/-- An upper bound for the steps that a thread takes before it needs another request. A
packet that is due may take it to the head of its loop once more. -/
def Thread.work (th : Thread) : Nat :=
  match th.place with
  | .serving => 8
  | .head => if th.worker.due then 7 else 5
  | .begun => if th.worker.due then 6 else 4
  | .cached => 4
  | .waiting => 3
  | .checking => 2
  | .taking => 1
  | .hung _ | .left | .broke => 0

def ReceiverPlace.work {Request : Type} : ReceiverPlace Request → Nat
  | .received _ => 11
  | .pushed => 2
  | .waiting => 1
  | .done => 0

/-- A thread is past its loop. -/
def Thread.Gone (th : Thread) : Prop := th.place = .left ∨ th.place = .broke

def ServerAction.receives : ServerAction → Bool
  | .receive .. => true
  | _ => false

namespace DNSServer

/-- The work that is left: a request in the queue brings a thread from its pop to the head
of its loop again. -/
def work (s : DNSServer) : Nat :=
  if s.ended.isSome then 0
  else s.receiver.work + 8 * s.requestQueue.length + total Thread.work s.threads

section Work

variable {cfg : Config} {s t : DNSServer} {a : ServerAction} {i : Nat} {th th' : Thread}

theorem work_of_alive (h : s.ended = none) :
    s.work = s.receiver.work + 8 * s.requestQueue.length + total Thread.work s.threads := by
  simp [work, h]

theorem Goes.work_lt (h : Goes cfg s th a th') : th'.work < th.work := by
  cases h with
  | begun here | left here =>
    simp only [Thread.work, here]
    split <;> omega
  | cached here due cache | hungCaching here due => simp [Thread.work, here, due]
  | @threw _ _ w here due cache =>
    have fails : ({ w with error := true } : Worker).due = false := rfl
    simp [Thread.work, here, due, fails]
  | hungServing here | quit here | passed here | broke here => simp [Thread.work, here]

theorem work_of_cleans {w : Worker} (h : th.Cleans) :
    ({ th with place := .waiting, worker := w } : Thread).work < th.work := by
  rcases h with ⟨here, due⟩ | here
  · simp [Thread.work, here, due]
  · simp [Thread.work, here]

theorem Ends.work_pos {m : Mishap} (h : Ends cfg s a m) (alive : s.ended = none) : 0 < s.work := by
  have busy : ∃ (i : Nat) (th : Thread), s.threads[i]? = some th ∧ 0 < th.work := by
    cases h with
    | emptyQueue hi here empty => exact ⟨_, _, hi, by simp [Thread.work, here]⟩
    | useAfterFree hi call | fault hi call =>
      refine ⟨_, _, hi, ?_⟩
      rcases call with ⟨here, due⟩ | here
      · simp [Thread.work, here, due]
      · simp [Thread.work, here]
    | @doubleFree _ i th r hi cleans =>
      exact ⟨i, th, hi, Nat.zero_lt_of_lt (work_of_cleans (w := th.worker) cleans)⟩
  obtain ⟨i, th, hi, hpos⟩ := busy
  have := le_total_of_getElem? Thread.work hi
  rw [work_of_alive alive]
  omega

/-- The receiver goes on. -/
theorem work_receiver {n gain : Nat} (alive : s.ended = none) (ended : t.ended = none)
    (threads : t.threads = s.threads)
    (less : t.receiver.work + 8 * t.requestQueue.length + n ≤
      s.receiver.work + 8 * s.requestQueue.length + gain) : t.work + n ≤ s.work + gain := by
  rw [work_of_alive alive, work_of_alive ended, threads]
  omega

/-- A thread goes on and the rest of the server stays: there is less work left. -/
theorem work_put (alive : s.ended = none) (hi : s.threads[i]? = some th) (ended : t.ended = none)
    (receiver : t.receiver = s.receiver) (threads : t.threads = s.threads.set i th')
    (less : 8 * t.requestQueue.length + th'.work < 8 * s.requestQueue.length + th.work) :
    t.work + 1 ≤ s.work := by
  have := total_set Thread.work hi th'
  rw [work_of_alive alive, work_of_alive ended, receiver, threads]
  omega

/-- Every action of the server's own threads uses up some of the work that is left, and
only another datagram brings more. -/
theorem Moves.work_le (alive : s.ended = none) (h : Moves cfg s a t) :
    t.work + (if a.internal then 1 else 0) ≤ s.work + (if a.receives then 10 else 0) := by
  cases h with
  | receive short here running fresh =>
    refine work_receiver alive alive rfl ?_
    simp only [here, ReceiverPlace.work, ServerAction.internal, ServerAction.receives,
      Bool.false_eq_true, if_true, if_false]
    omega
  | nothing outside =>
    rw [outside]
    exact Nat.le_add_right _ _
  | push here =>
    refine work_receiver alive alive rfl ?_
    simp only [here, ReceiverPlace.work, ServerAction.internal, ServerAction.receives,
      Bool.false_eq_true, if_true, if_false, List.length_append, List.length_singleton]
    omega
  | release here =>
    refine work_receiver alive alive rfl ?_
    simp only [here, ReceiverPlace.work, ServerAction.internal, ServerAction.receives,
      Bool.false_eq_true, if_true, if_false]
    omega
  | leave here stopped =>
    refine work_receiver alive alive rfl ?_
    simp only [here, ReceiverPlace.work, ServerAction.internal, ServerAction.receives,
      Bool.false_eq_true, if_true, if_false]
    omega
  | stopRunning => exact Nat.le_refl _
  | setQuit stopped => exact Nat.le_refl _
  | goes hi own goes =>
    rw [ServerAction.internal_of_thread own]
    refine Nat.le_trans (work_put alive hi alive rfl rfl ?_) (Nat.le_add_right _ _)
    exact Nat.add_lt_add_left goes.work_lt _
  | freed hi cleans hr live =>
    exact work_put alive hi alive rfl rfl (Nat.add_lt_add_left (work_of_cleans cleans) _)
  | cleaned hi cleans hr =>
    exact work_put alive hi alive rfl rfl (Nat.add_lt_add_left (work_of_cleans cleans) _)
  | waited hi here unit =>
    refine work_put alive hi alive rfl rfl (Nat.add_lt_add_left ?_ _)
    simp [Thread.work, here]
  | took hi here first =>
    refine work_put alive hi alive rfl rfl ?_
    simp only [Thread.work, here, first, List.length_cons]
    omega
  | served hi here hr datagram buffer serve =>
    refine work_put alive hi alive rfl rfl (Nat.add_lt_add_left ?_ _)
    simp only [Thread.work, here]
    split <;> omega
  | ends inside he =>
    rw [inside]
    have := he.work_pos alive
    show 0 + 1 ≤ _
    omega

end Work

section Runs

variable {cfg : Config} {C : DNSServer → ServerAction → Prop} {startups : List Startup}
  {actions : List ServerAction} {s : DNSServer}

theorem work_start (startups : List Startup) :
    (start startups).work = 1 + 5 * startups.length := by
  have each : total Thread.work (start startups).threads = 5 * startups.length := by
    show total Thread.work (startups.map Startup.thread) = _
    induction startups with
    | nil => rfl
    | cons u us ih =>
      rw [List.map_cons, total_cons, ih, List.length_cons]
      show 5 + _ = _
      omega
  rw [work_of_alive rfl, each]
  rfl

/-- The threads of the server never go on and on: in every run they take at most ten steps
for a datagram that is received, and five for each thread in the beginning. -/
theorem steps_bounded (run : Steps (step cfg) C (start startups) actions s) :
    actions.countP ServerAction.internal ≤
      1 + 5 * startups.length + 10 * actions.countP ServerAction.receives := by
  have bound := run.bounded (k := ServerAction.internal)
    (g := fun a => if a.receives then 10 else 0)
    fun s a t _ hs => (moves_of_step hs).2.work_le (moves_of_step hs).1
  have gained : ∀ as : List ServerAction,
      total (fun a => if a.receives then 10 else 0) as = 10 * as.countP ServerAction.receives := by
    intro as
    induction as with
    | nil => rfl
    | cons a as ih =>
      rw [total_cons, ih, List.countP_cons]
      split <;> omega
  rw [work_start, gained] at bound
  omega

theorem steps_bounded_answered : (∃ s, Steps (step ⟨0, false⟩) (fun _ _ => True)
    (start twoThreads) oneRequest s ∧ s.replies.length = 1) ∧
    oneRequest.countP ServerAction.internal = 12 ∧
    oneRequest.countP ServerAction.internal ≤
      1 + 5 * 2 + 10 * oneRequest.countP ServerAction.receives := by
  have computed : (after oneRequest).map (·.replies.length) = some 1 := by decide +kernel
  obtain ⟨s, run, hs⟩ := exists_after computed
  exact ⟨⟨s, run, hs⟩, rfl, steps_bounded run⟩

end Runs

/-! Where the threads come to rest. -/

/-- No thread of the server can go on by itself. -/
def Idle (cfg : Config) (s : DNSServer) : Prop :=
  ∀ a : ServerAction, a.internal = true → step cfg s a = none

section Rest

variable {cfg : Config} {s t : DNSServer} {a : ServerAction} {i : Nat} {th th' : Thread}

/-- What holds of every thread still does when one of them goes on to where it holds. -/
theorem forall_put {P : Thread → Prop} (h : ∀ th ∈ s.threads, P th) (hp : P th') :
    ∀ th ∈ (s.put i th').threads, P th := by
  intro x hx
  rcases List.mem_or_eq_of_mem_set hx with hx | rfl
  · exact h x hx
  · exact hp

/-- A thread that is serving has a request. -/
def Armed (s : DNSServer) : Prop := ∀ th ∈ s.threads, th.place = .serving → th.request ≠ none

theorem Armed.moves (h : s.Armed) (hm : Moves cfg s a t) : t.Armed := by
  cases hm with
  | receive | nothing | push | release | leave | stopRunning | setQuit | ends => exact h
  | goes hi own goes =>
    refine forall_put h fun here => ?_
    cases goes <;> cases here
  | freed | cleaned | waited | served => exact forall_put h nofun
  | took hi here first => exact forall_put h fun _ => nofun

/-- Once a thread has left, at most one request is still to come: the receiver may have been
past its own check. -/
def Drained (s : DNSServer) : Prop :=
  (∃ th ∈ s.threads, th.Gone) →
    s.isRunning = false ∧ s.requestQueue.length + s.receiver.inHand.length ≤ 1

theorem length_inHand_le {Request : Type} (p : ReceiverPlace Request) : p.inHand.length ≤ 1 := by
  cases p <;> simp [ReceiverPlace.inHand]

/-- A thread that goes on and has not left afterwards. -/
theorem Drained.put (h : s.Drained) (stays : ¬ th'.Gone) (running : t.isRunning = s.isRunning)
    (receiver : t.receiver = s.receiver) (threads : t.threads = s.threads.set i th')
    (queue : t.requestQueue.length ≤ s.requestQueue.length) : t.Drained := by
  rintro ⟨x, hx, gone⟩
  rw [threads] at hx
  rcases List.mem_or_eq_of_mem_set hx with hx | rfl
  · obtain ⟨stopped, few⟩ := h ⟨x, hx, gone⟩
    rw [running, receiver]
    exact ⟨stopped, by omega⟩
  · exact absurd gone stays

theorem Drained.moves (h : s.Drained) (hm : Moves cfg s a t) : t.Drained := by
  cases hm with
  | receive short here running fresh =>
    intro gone
    obtain ⟨stopped, _⟩ := h gone
    exact absurd (stopped.symm.trans running) nofun
  | nothing | ends => exact h
  | push here =>
    intro gone
    have := h gone
    simp only [here, ReceiverPlace.inHand, List.length_append, List.length_singleton,
      List.length_nil] at this ⊢
    exact this
  | release here | leave here =>
    intro gone
    have := h gone
    simp only [here, ReceiverPlace.inHand, List.length_nil] at this ⊢
    exact this
  | stopRunning => exact fun gone => ⟨rfl, (h gone).2⟩
  | setQuit stopped => exact h
  | @goes i th th' _ hi own goes =>
    cases goes with
    | left here stopped empty | broke here stopped empty =>
      refine fun _ => ⟨stopped, ?_⟩
      show s.requestQueue.length + _ ≤ 1
      rw [empty, List.length_nil, Nat.zero_add]
      exact length_inHand_le _
    | begun | cached | threw | hungCaching | hungServing | quit | passed =>
      exact h.put (by simp [Thread.Gone]) rfl rfl rfl (Nat.le_refl _)
  | freed | cleaned | waited | served =>
    exact h.put (by simp [Thread.Gone]) rfl rfl rfl (Nat.le_refl _)
  | took hi here first =>
    refine h.put (by simp [Thread.Gone]) rfl rfl rfl ?_
    rw [first, List.length_cons]
    exact Nat.le_succ _

end Rest

section Idle

variable {cfg : Config} {s : DNSServer} {i : Nat} {th : Thread}

/-- What a thread could do, it cannot do in a server that is idle. -/
theorem Idle.threadStep (idle : s.Idle cfg) (alive : s.ended = none)
    (hi : s.threads[i]? = some th) (a : ServerAction) (inside : a.internal = true)
    (ha : a.thread = some i) : s.threadStep cfg i th a = none := by
  have := idle a inside
  simpa [step, alive, ha, hi] using this

theorem Idle.receiver (idle : s.Idle cfg) (alive : s.ended = none) :
    s.receiver = .waiting ∧ s.isRunning = true ∨ s.receiver = .done := by
  have hpush := idle .push rfl
  have hrelease := idle .release rfl
  have hleave := idle .leave rfl
  simp only [step, alive, Option.isSome_none, Bool.false_eq_true, if_false, ServerAction.thread,
    receiverStep] at hpush hrelease hleave
  cases hr : s.receiver with
  | waiting => simpa [hr] using hleave
  | received r => simp [hr] at hpush
  | pushed => simp [hr] at hrelease
  | done => exact .inr rfl

/-- A thread at rest waits for a request, never comes back from a call, or has left. -/
def Rests (s : DNSServer) (th : Thread) : Prop :=
  th.place = .waiting ∧ s.requestSemaphore = 0 ∧ s.quitEvent = false ∨
    (∃ b, th.place = .hung b) ∨ th.Gone

/-- In an idle server every thread is at rest. -/
theorem Idle.thread (idle : s.Idle cfg) (alive : s.ended = none) (armed : s.Armed)
    (hi : s.threads[i]? = some th) : s.Rests th := by
  unfold Rests
  cases here : th.place with
  | head =>
    have := idle.threadStep alive hi (.loop i) rfl rfl
    simp [DNSServer.threadStep, here] at this
  | begun =>
    have hcache := idle.threadStep alive hi
      (.cache i (.quiet [] (Nat.zero_le _) fun _ => [])) rfl rfl
    have hclean := idle.threadStep alive hi (.clean i) rfl rfl
    cases due : th.worker.due with
    | true => simp [DNSServer.threadStep, here, due] at hcache
    | false => simp [DNSServer.threadStep, here, due] at hclean
  | cached =>
    have := idle.threadStep alive hi (.clean i) rfl rfl
    simp [DNSServer.threadStep, here] at this
  | waiting =>
    have := idle.threadStep alive hi (.wait i) rfl rfl
    simp only [DNSServer.threadStep, here, if_true] at this
    split at this
    · cases this
    · rename_i none
      refine .inl ⟨rfl, Nat.eq_zero_of_not_pos none, ?_⟩
      simpa using this
  | checking =>
    have := idle.threadStep alive hi (.check i) rfl rfl
    simp [DNSServer.threadStep, here] at this
  | taking =>
    have := idle.threadStep alive hi (.take i) rfl rfl
    simp only [DNSServer.threadStep, here, if_true] at this
    split at this <;> cases this
  | serving =>
    obtain ⟨r, hr⟩ := Option.ne_none_iff_exists'.mp (armed th (List.mem_of_getElem? hi) here)
    have := idle.threadStep alive hi (.serve i ⟨id, fun _ => .instant 0, fun _ _ => 0, [], r.datagram,
      r.received, r.buffer, ⟨[], [], 0⟩, fun _ => [], [], [], false⟩) rfl rfl
    simp [DNSServer.threadStep, here, hr] at this
  | hung b => exact .inr (.inl ⟨b, rfl⟩)
  | left => exact .inr (.inr (.inl here))
  | broke => exact .inr (.inr (.inr here))

theorem Rests.place (h : s.Rests th) : th.place ≠ .head ∧ th.place ≠ .begun ∧
    th.place ≠ .cached ∧ th.place ≠ .checking ∧ th.place ≠ .taking ∧ th.place ≠ .serving := by
  rcases h with ⟨here, _⟩ | ⟨b, here⟩ | here | here <;> simp [here]

/-- A thread at rest can do nothing. -/
theorem Rests.threadStep (h : s.Rests th) (a : ServerAction) : s.threadStep cfg i th a = none := by
  obtain ⟨head, begun, cached, checking, taking, serving⟩ := h.place
  cases a with
  | receive | receiveFails | push | release | leave | stopRunning | setQuit => rfl
  | loop j => exact if_neg head
  | cache j turn => exact if_neg fun here => begun here.1
  | clean j => exact if_neg fun here => here.elim (fun here => begun here.1) cached
  | wait j =>
    rcases h with ⟨here, none, unset⟩ | ⟨b, here⟩ | here | here
    · simp [DNSServer.threadStep, here, none, unset]
    · simp [DNSServer.threadStep, here]
    · simp [DNSServer.threadStep, here]
    · simp [DNSServer.threadStep, here]
  | check j => exact if_neg checking
  | take j => exact if_neg taking
  | serve j turn =>
    cases taken : th.request with
    | none => simp [DNSServer.threadStep, taken]
    | some r => simp [DNSServer.threadStep, taken, serving]

/-- The converse: such a server is idle. -/
theorem idle_of_rest (receiver : s.receiver = .waiting ∧ s.isRunning = true ∨ s.receiver = .done)
    (threads : ∀ th ∈ s.threads, s.Rests th) : s.Idle cfg := by
  have thread : ∀ a i, (s.threads[i]?.bind fun th => s.threadStep cfg i th a) = none := by
    intro a i
    rw [Option.bind_eq_none_iff]
    intro th hi
    exact (threads th (List.mem_of_getElem? hi)).threadStep a
  intro a inside
  unfold step
  split
  · rfl
  · cases a with
    | receive | receiveFails | stopRunning | setQuit => cases inside
    | push | release | leave =>
      rcases receiver with ⟨waits, running⟩ | done
      · simp [ServerAction.thread, receiverStep, *]
      · simp [ServerAction.thread, receiverStep, *]
    | loop i | cache i | clean i | wait i | check i | take i | serve i => exact thread _ i

end Idle

section Outcome

variable {cfg : Config} {C : DNSServer → ServerAction → Prop} {startups : List Startup}
  {actions : List ServerAction} {s : DNSServer}

/-- Nothing sets `isRunning` again. -/
theorem running_before (s : DNSServer) (a : ServerAction) (t : DNSServer)
    (h : step cfg s a = some t) (running : t.isRunning = true) : s.isRunning = true := by
  cases (moves_of_step h).2 with
  | stopRunning => cases running
  | receive | nothing | push | release | leave | setQuit | goes | freed | cleaned | waited | took
  | served | ends => exact running

/-- While the server runs, the units of the semaphore, the workers past the wait and the
receiver account for the requests in the queue. -/
theorem balanced_of_running (run : Steps (step cfg) C (start startups) actions s)
    (running : s.isRunning = true) : ∃ q, s.Simulates q ∧ q.Balanced := by
  obtain ⟨always, _⟩ := run.backward (P := fun s => s.isRunning = true) running_before running
  have roomy : ∀ (s : DNSServer) (a : ServerAction) (q : QueueState DNSRequest),
      s.isRunning = true → s.Simulates q → ∀ b, q.Roomy b := by
    intro s _ q hrun hsim b
    cases b with
    | check i => exact fun stopped => absurd (stopped.symm.trans (hsim.isRunning.trans hrun)) nofun
    | receive | push | release | leave | loop | wait | take | served | stopRunning | setQuit =>
      exact trivial
  obtain ⟨bs, q, hq, hsim⟩ := steps_simulated roomy always
  exact ⟨q, hsim, hq.invariant (fun _ b _ hb hr hs => hb.step b hr hs)
    (QueueState.start_balanced _)⟩

theorem armed_of_run (run : Steps (step cfg) C (start startups) actions s) : s.Armed :=
  run.invariant (fun _ _ _ h _ hs => h.moves (moves_of_step hs).2) fun th hth here => by
    obtain ⟨u, _, rfl⟩ := List.mem_map.mp hth
    cases here

theorem drained_of_run (run : Steps (step cfg) C (start startups) actions s) : s.Drained :=
  run.invariant (fun _ _ _ h _ hs => h.moves (moves_of_step hs).2) fun ⟨th, hth, gone⟩ => by
    obtain ⟨u, _, rfl⟩ := List.mem_map.mp hth
    rcases gone with here | here <;> cases here

/-- A thread that waits or hangs holds no unit of the semaphore. -/
theorem holds_of_rest {th : Thread} {p : WorkerPlace DNSRequest} (hm : th.Matches p)
    (rest : th.place = .waiting ∨ ∃ b, th.place = .hung b) : p.holds = 0 := by
  unfold Thread.Matches at hm
  rcases rest with here | ⟨b, here⟩
  · rw [here] at hm
    rw [hm]
    rfl
  · rw [here] at hm
    cases b with
    | false =>
      rw [hm]
      rfl
    | true =>
      obtain ⟨r, _, rfl⟩ := hm
      rfl

/-- In a running server that has come to rest the threads wait, unless they hang in a call. -/
theorem rest_of_idle (run : Steps (step cfg) C (start startups) actions s)
    (running : s.isRunning = true) (alive : s.ended = none) (idle : s.Idle cfg) :
    ∀ th ∈ s.threads, th.place = .waiting ∧ s.requestSemaphore = 0 ∨ ∃ b, th.place = .hung b := by
  intro th hth
  obtain ⟨i, hi⟩ := List.getElem?_of_mem hth
  rcases idle.thread alive (armed_of_run run) hi with ⟨waits, none, _⟩ | hung | gone
  · exact .inl ⟨waits, none⟩
  · exact .inr hung
  · have stopped := (drained_of_run run ⟨th, hth, gone⟩).1
    exact absurd (stopped.symm.trans running) nofun

/-- No request is left behind when a thread waits there. -/
theorem empty_of_idle (run : Steps (step cfg) C (start startups) actions s)
    (running : s.isRunning = true) (alive : s.ended = none) (idle : s.Idle cfg)
    (free : ∃ th ∈ s.threads, ∀ b, th.place ≠ .hung b) :
    s.requestQueue = [] ∧ s.receiver.inHand = [] := by
  have rest := rest_of_idle run running alive idle
  have none : s.requestSemaphore = 0 := by
    obtain ⟨th, hth, awake⟩ := free
    rcases rest th hth with ⟨_, none⟩ | ⟨b, hung⟩
    · exact none
    · exact absurd hung (awake b)
  obtain ⟨q, hsim, balanced⟩ := balanced_of_running run running
  have holding : q.holding = 0 := by
    refine total_eq_zero fun p hp => ?_
    obtain ⟨i, hi⟩ := List.getElem?_of_mem hp
    obtain ⟨th, hth, hm⟩ := forall₂_getElem? (R := flip Thread.Matches) hsim.workers.flip hi
    exact holds_of_rest hm ((rest th (List.mem_of_getElem? hth)).imp_left And.left)
  have resting : s.receiver.inHand = [] ∧ s.receiver.owes = 0 := by
    rcases idle.receiver alive with ⟨waits, _⟩ | done
    · rw [waits]
      exact ⟨rfl, rfl⟩
    · rw [done]
      exact ⟨rfl, rfl⟩
  have count := (balanced.running (hsim.isRunning.trans running)).2
  rw [holding, hsim.units, none, hsim.receiver, resting.2, hsim.queue] at count
  exact ⟨List.eq_nil_of_length_eq_zero count.symm, resting.1⟩

/-- No request is forgotten: when a running server comes to rest, and not all of its threads
hang in a call, the queue is empty, and every request that was pushed has been answered, apart
from those in which a thread hangs. -/
theorem idle_all_answered (run : Steps (step cfg) C (start startups) actions s)
    (running : s.isRunning = true) (alive : s.ended = none) (idle : s.Idle cfg)
    (free : ∃ th ∈ s.threads, ∀ b, th.place ≠ .hung b) :
    s.requestQueue = [] ∧ s.receiver.inHand = [] ∧
      s.pushed.Perm (s.replies.map Reply.request ++ s.threads.flatMap Thread.inService) ∧
      ∀ th ∈ s.threads, th.inService ≠ [] → th.place = .hung true := by
  obtain ⟨empty, resting⟩ := empty_of_idle run running alive idle free
  refine ⟨empty, resting, ?_, ?_⟩
  · have accounted := accounted_of_run run
    rw [unanswered, empty] at accounted
    exact accounted
  · intro th hth busy
    rcases rest_of_idle run running alive idle th hth with ⟨waits, _⟩ | ⟨b, hung⟩
    · exact absurd (by rw [Thread.inService, waits]) busy
    · cases b with
      | false => exact absurd (by rw [Thread.inService, hung]) busy
      | true => exact hung

/-- What shows whether a server is at rest. -/
structure Rest where
  places : List ThreadPlace
  receiver : ReceiverPlace DNSRequest
  isRunning : Bool
  quitEvent : Bool
  requestSemaphore : Nat
  ended : Option Mishap
  answered : Nat
  deriving DecidableEq

def rest (s : DNSServer) : Rest :=
  ⟨s.threads.map Thread.place, s.receiver, s.isRunning, s.quitEvent, s.requestSemaphore, s.ended,
    s.replies.length⟩

theorem all_at {place : ThreadPlace} {n : Nat}
    (h : s.threads.map Thread.place = List.replicate (n + 1) place) :
    (∀ th ∈ s.threads, th.place = place) ∧ ∃ th ∈ s.threads, th.place = place := by
  have all : ∀ th ∈ s.threads, th.place = place := fun th hth =>
    List.eq_of_mem_replicate (h ▸ List.mem_map_of_mem hth)
  have some : place ∈ s.threads.map Thread.place := by
    rw [h, List.replicate_succ]
    exact List.mem_cons_self
  obtain ⟨th, hth, here⟩ := List.mem_map.mp some
  exact ⟨all, th, hth, here⟩

theorem idle_all_answered_one : ∃ s : DNSServer, s.replies.length = 1 ∧ s.requestQueue = [] ∧
    s.pushed.Perm (s.replies.map Reply.request ++ s.threads.flatMap Thread.inService) := by
  have computed : (after oneRequest).map rest =
      some ⟨List.replicate 2 .waiting, .waiting, true, false, 0, none, 1⟩ := by decide +kernel
  obtain ⟨s, run, hs⟩ := exists_after computed
  obtain ⟨places, receiver, running, unset, none, alive, one⟩ := Rest.mk.inj hs
  obtain ⟨waits, th, hth, here⟩ := all_at places
  have idle : s.Idle ⟨0, false⟩ :=
    idle_of_rest (.inl ⟨receiver, running⟩) fun th hth => .inl ⟨waits th hth, none, unset⟩
  have free : ∀ b, th.place ≠ .hung b := by rw [here]; exact nofun
  obtain ⟨empty, _, answered, _⟩ := idle_all_answered run running alive idle ⟨th, hth, free⟩
  exact ⟨s, one, empty, answered⟩

/-- The two threads are shut down when the request has been answered. -/
def shutDown : List ServerAction :=
  oneRequest ++ [.stopRunning, .setQuit, .leave, .wait 0, .check 0, .wait 1, .check 1]

theorem rest_shutDown : (after shutDown).map rest =
    some ⟨List.replicate 2 .broke, .done, false, true, 0, none, 1⟩ := by decide +kernel

/-- From the moment the first thread leaves, `isRunning` is false and at most one request is
left that no thread has taken, in the queue or with the receiver. -/
theorem shutdown_loses_one (run : Steps (step cfg) C (start startups) actions s) {th : Thread}
    (hth : th ∈ s.threads) (gone : th.Gone) :
    s.isRunning = false ∧ s.requestQueue.length + s.receiver.inHand.length ≤ 1 :=
  drained_of_run run ⟨th, hth, gone⟩

theorem shutdown_loses_one_two : ∃ s : DNSServer, s.replies.length = 1 ∧
    s.isRunning = false ∧ s.requestQueue.length + s.receiver.inHand.length ≤ 1 := by
  obtain ⟨s, run, hs⟩ := exists_after rest_shutDown
  obtain ⟨places, _, _, _, _, _, one⟩ := Rest.mk.inj hs
  obtain ⟨_, th, hth, here⟩ := all_at places
  exact ⟨s, one, shutdown_loses_one run hth (.inr here)⟩

/-- A shutdown is complete: when the quit event is set and the server comes to rest, the
receiver and all threads have left, apart from those that hang in a call; and all requests but
at most one have been answered, apart from those in which a thread hangs. -/
theorem shutdown_complete (run : Steps (step cfg) C (start startups) actions s)
    (quit : s.quitEvent = true) (alive : s.ended = none) (idle : s.Idle cfg)
    (free : ∃ th ∈ s.threads, ∀ b, th.place ≠ .hung b) :
    s.receiver = .done ∧ (∀ th ∈ s.threads, th.Gone ∨ ∃ b, th.place = .hung b) ∧
      s.requestQueue.length ≤ 1 ∧
      s.pushed.Perm (s.replies.map Reply.request ++ s.unanswered) := by
  have stopped : s.isRunning = false := by
    by_contra running
    obtain ⟨q, hsim, balanced⟩ := balanced_of_running run (eq_true_of_ne_false running)
    have := (balanced.running (hsim.isRunning.trans (eq_true_of_ne_false running))).1
    exact absurd (this.symm.trans (hsim.quitEvent.trans quit)) nofun
  have gone : ∀ th ∈ s.threads, th.Gone ∨ ∃ b, th.place = .hung b := by
    intro th hth
    obtain ⟨i, hi⟩ := List.getElem?_of_mem hth
    rcases idle.thread alive (armed_of_run run) hi with ⟨_, _, unset⟩ | hung | gone
    · exact absurd (unset.symm.trans quit) nofun
    · exact .inr hung
    · exact .inl gone
  refine ⟨?_, gone, ?_, accounted_of_run run⟩
  · rcases idle.receiver alive with ⟨_, running⟩ | done
    · exact absurd (stopped.symm.trans running) nofun
    · exact done
  · obtain ⟨th, hth, awake⟩ := free
    rcases gone th hth with left | ⟨b, hung⟩
    · have := (drained_of_run run ⟨th, hth, left⟩).2
      omega
    · exact absurd hung (awake b)

theorem shutdown_complete_two : ∃ s : DNSServer, s.replies.length = 1 ∧ s.receiver = .done ∧
    s.requestQueue.length ≤ 1 ∧
      s.pushed.Perm (s.replies.map Reply.request ++ s.unanswered) := by
  obtain ⟨s, run, hs⟩ := exists_after rest_shutDown
  obtain ⟨places, receiver, _, quit, _, alive, one⟩ := Rest.mk.inj hs
  obtain ⟨left, th, hth, here⟩ := all_at places
  have idle : s.Idle ⟨0, false⟩ :=
    idle_of_rest (.inr receiver) fun th hth => .inr (.inr (.inr (left th hth)))
  have free : ∀ b, th.place ≠ .hung b := by rw [here]; exact nofun
  obtain ⟨done, _, few, answered⟩ := shutdown_complete run quit alive idle ⟨th, hth, free⟩
  exact ⟨s, one, done, few, answered⟩

end Outcome

end DNSServer

end OdbcDns
