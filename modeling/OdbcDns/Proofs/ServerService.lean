import OdbcDns.Proofs.Service
import OdbcDns.Proofs.ServerProgress
import OdbcDns.Proofs.ServerRuns

namespace OdbcDns

/-! The server under requests that its workers can answer. -/

/-- Every request that is served can be answered. What is cached, and what the driver reports
then, is arbitrary. -/
def ServerAction.Benign (cfg : Config) : ServerAction → Prop
  | .serve _ t => t.Serviceable cfg
  | _ => True

/-- The turn of an action in which thread `i` serves a request. -/
def ServerAction.turnOf (i : Nat) : ServerAction → Option Turn
  | .serve j t => if j = i then some t else none
  | _ => none

/-- A thread that can go on with its next call. -/
def Thread.Fit (cfg : Config) (th : Thread) : Prop :=
  match th.place with
  | .head | .begun => th.worker.Prepared cfg
  | .waiting | .checking | .taking | .serving => th.worker.clean = th.worker
  | .hung _ => False
  | .cached | .left | .broke => True

section Fit

variable {cfg : Config} {th th' : Thread} {a : ServerAction}

theorem Thread.Fit.not_hung (h : th.Fit cfg) (b : Bool) : th.place ≠ .hung b := by
  intro here
  rw [Thread.Fit, here] at h
  exact h

theorem Thread.Fit.prepared (h : th.Fit cfg) (here : th.place = .begun) :
    th.worker.Prepared cfg := by
  rw [Thread.Fit, here] at h
  exact h

theorem Thread.Fit.clean (h : th.Fit cfg) (here : th.place = .serving) :
    th.worker.clean = th.worker := by
  rw [Thread.Fit, here] at h
  exact h

/-- No call of such a thread faults or hangs. -/
theorem Thread.Fit.not_fails {f : Fault} (h : th.Fit cfg) (empty : th.worker.socket.inbox = [])
    (benign : a.Benign cfg) : ¬ th.Fails cfg a f := by
  intro fails
  cases fails with
  | @caching i t f here due fails =>
    obtain ⟨c, cached⟩ := (h.prepared here).cache t
    cases cached.symm.trans fails
  | @serving i t f here fails =>
    obtain ⟨w', reply, sent, serves, _⟩ := Turn.Serviceable.serve benign empty
    rw [h.clean here] at serves
    cases serves.symm.trans fails

theorem DNSServer.Goes.fit {s : DNSServer} (goes : DNSServer.Goes cfg s th a th')
    (h : th.Fit cfg) (empty : th.worker.socket.inbox = []) (benign : a.Benign cfg) :
    th'.Fit cfg ∧ th'.worker.socket = th.worker.socket ∧ ∀ i, a.turnOf i = none := by
  cases goes with
  | begun here =>
    rw [Thread.Fit, here] at h
    exact ⟨h, rfl, fun _ => rfl⟩
  | left here | broke here => exact ⟨trivial, rfl, fun _ => rfl⟩
  | @cached _ t w here due cache =>
    obtain ⟨c, cached⟩ := (h.prepared here).cache t
    cases cache.symm.trans cached
    exact ⟨trivial, rfl, fun _ => rfl⟩
  | @threw _ t w here due cache =>
    obtain ⟨c, cached⟩ := (h.prepared here).cache t
    cases cache.symm.trans cached
    refine ⟨?_, rfl, fun _ => rfl⟩
    intro due
    cases due
  | hungCaching here due fails | hungServing here fails =>
    exact absurd fails (h.not_fails empty benign)
  | quit here | passed here =>
    rw [Thread.Fit, here] at h
    exact ⟨h, rfl, fun _ => rfl⟩

end Fit

namespace DNSServer

/-- The turns in which thread `i` has served requests, oldest first. -/
def turnsOf (done : List ServerAction) (i : Nat) : List Turn :=
  done.filterMap (ServerAction.turnOf i)

/-- Thread `i` is fit. It has given the right reply in each of its turns, and its socket was
used for those that went to the recursive server, once for each of them. -/
structure Serving (cfg : Config) (done : List ServerAction) (s : DNSServer) (i : Nat) (u : Startup)
    (th : Thread) : Prop where
  fit : th.Fit cfg
  served : ∃ served : List (Turn × List (List Byte)), served.map Prod.fst = turnsOf done i ∧
    List.Forall₂ (fun x r => x.1.datagram = r.request.datagram ∧ x.1.Fulfilled r.bytes x.2)
      served (s.repliesOf i) ∧
    th.worker.socket = ⟨[], u.socket.outbox ++ served.flatMap Prod.snd⟩

variable {cfg : Config} {s t : DNSServer} {i : Nat} {th th' : Thread} {u : Startup}
  {a : ServerAction} {done : List ServerAction} {startups : List Startup}

theorem turnsOf_other (h : a.turnOf i = none) : turnsOf (done ++ [a]) i = turnsOf done i := by
  simp [turnsOf, List.filterMap_append, h]

theorem turnsOf_own (turn : Turn) :
    turnsOf (done ++ [.serve i turn]) i = turnsOf done i ++ [turn] := by
  simp [turnsOf, List.filterMap_append, ServerAction.turnOf]

theorem Serving.empty (h : Serving cfg done s i u th) : th.worker.socket.inbox = [] := by
  obtain ⟨served, _, _, socket⟩ := h.served
  rw [socket]

/-- A thread that answers nothing. -/
theorem Serving.same (h : Serving cfg done s i u th) (replies : t.repliesOf i = s.repliesOf i)
    (other : a.turnOf i = none) (fit : th'.Fit cfg)
    (socket : th'.worker.socket = th.worker.socket) : Serving cfg (done ++ [a]) t i u th' := by
  refine ⟨fit, ?_⟩
  rw [replies, socket, turnsOf_other other]
  exact h.served

section Moves

variable {j : Nat}

theorem serving_same (h : Each (Serving cfg done) startups s) (threads : t.threads = s.threads)
    (replies : t.replies = s.replies) (other : ∀ i, a.turnOf i = none) :
    Each (Serving cfg (done ++ [a])) startups t := by
  refine h.same threads fun i u th hs => hs.same ?_ (other i) hs.fit rfl
  rw [repliesOf, replies, repliesOf]

theorem serving_put (h : Each (Serving cfg done) startups s) (hj : s.threads[j]? = some th)
    (threads : t.threads = s.threads.set j th') (replies : t.replies = s.replies)
    (startup : startups[j]? = some u)
    (goes : th.Fit cfg → th.worker.socket.inbox = [] →
      th'.Fit cfg ∧ th'.worker.socket = th.worker.socket ∧ ∀ i, a.turnOf i = none) :
    Each (Serving cfg (done ++ [a])) startups t := by
  obtain ⟨th₀, hth, hs⟩ := h j u startup
  cases hj.symm.trans hth
  obtain ⟨fit, socket, other⟩ := goes hs.fit hs.empty
  have same : ∀ i, t.repliesOf i = s.repliesOf i := fun i => by rw [repliesOf, replies, repliesOf]
  exact h.put hj threads (fun i _ _ _ hs => hs.same (same i) (other i) hs.fit rfl)
    fun _ hs => hs.same (same j) (other j) fit socket

theorem serving_served {r : DNSRequest} {turn : Turn} {w : Worker} {bytes : List Byte}
    (h : Each (Serving cfg done) startups s) (hj : s.threads[j]? = some th)
    (here : th.place = .serving) (datagram : turn.datagram = r.datagram)
    (serve : th.worker.serve cfg turn = .ok (w, bytes)) (benign : turn.Serviceable cfg) :
    Each (Serving cfg (done ++ [.serve j turn])) startups
      { s.put j { th with place := .head, worker := w } with
        replies := s.replies ++ [⟨j, r, bytes⟩] } := by
  refine h.put hj rfl (fun i _ _ hi hs =>
    hs.same (repliesOf_other rfl hi) (if_neg (Ne.symm hi)) hs.fit rfl) fun u hs => ?_
  obtain ⟨w', reply, sent, serves, fulfilled, socket, prepared⟩ := benign.serve hs.empty
  rw [hs.fit.clean here] at serves
  cases serve.symm.trans serves
  obtain ⟨served, turns, right, before⟩ := hs.served
  refine ⟨prepared, served ++ [(turn, sent)], ?_, ?_, ?_⟩
  · rw [turnsOf_own, List.map_append, turns]
    rfl
  · rw [repliesOf_own rfl]
    exact List.rel_append right (.cons ⟨datagram, fulfilled⟩ .nil)
  · rw [before] at socket
    rw [socket]
    simp

end Moves

/-- Nothing has ended the process, or a pop from the empty queue did after `shutdown`. -/
def Unharmed (s : DNSServer) : Prop :=
  s.ended = none ∨ s.ended = some .emptyQueue ∧ s.isRunning = false

/-- What holds in a run of requests that can be answered. -/
structure Sound (cfg : Config) (startups : List Startup) (done : List ServerAction)
    (s : DNSServer) : Prop where
  run : Steps (step cfg) (fun _ a => a.Benign cfg) (start startups) done s
  threads : s.threads.length = startups.length
  owners : ∀ r ∈ s.replies, r.thread < s.threads.length
  each : Each (Serving cfg done) startups s
  unharmed : s.Unharmed

section Sound

theorem Moves.length_threads (hm : Moves cfg s a t) : t.threads.length = s.threads.length := by
  cases hm with
  | receive | nothing | push | release | leave | stopRunning | setQuit | ends => rfl
  | goes | freed | cleaned | waited | took | served => exact List.length_set

theorem Moves.owners (h : ∀ r ∈ s.replies, r.thread < s.threads.length) (hm : Moves cfg s a t) :
    ∀ r ∈ t.replies, r.thread < t.threads.length := by
  rw [hm.length_threads]
  cases hm with
  | @served i th r turn w bytes hi =>
    intro r hr
    rcases List.mem_append.mp hr with hr | hr
    · exact h r hr
    · rw [List.mem_singleton.mp hr]
      exact (List.getElem?_eq_some_iff.mp hi).1
  | receive | nothing | push | release | leave | stopRunning | setQuit | goes | freed | cleaned
  | waited | took | ends => exact h

theorem Sound.startup (h : Sound cfg startups done s) (hi : s.threads[i]? = some th) :
    ∃ u, startups[i]? = some u ∧ Serving cfg done s i u th := by
  obtain ⟨hlt, _⟩ := List.getElem?_eq_some_iff.mp hi
  rw [h.threads] at hlt
  obtain ⟨th₀, hth, hs⟩ := h.each i startups[i] (List.getElem?_eq_getElem hlt)
  cases hi.symm.trans hth
  exact ⟨_, List.getElem?_eq_getElem hlt, hs⟩

/-- While the server runs, a thread that pops finds a request. -/
theorem queue_of_taking {C : DNSServer → ServerAction → Prop}
    (run : Steps (step cfg) C (start startups) done s) (running : s.isRunning = true)
    (hi : s.threads[i]? = some th) (here : th.place = .taking) : s.requestQueue ≠ [] := by
  obtain ⟨q, hsim, balanced⟩ := balanced_of_running run running
  obtain ⟨p, hp, hm⟩ := forall₂_getElem? hsim.workers hi
  rw [Thread.Matches, here] at hm
  have one := le_total_of_getElem? WorkerPlace.takes hp
  have room := balanced.room
  intro empty
  rw [hsim.queue, empty, List.length_nil, QueueState.taking] at room
  rw [hm] at one
  exact absurd (Nat.le_trans one room) (by decide)

/-- All that can end the process is a pop. -/
theorem Sound.ends {m : Mishap} (h : Sound cfg startups done s) (benign : a.Benign cfg)
    (he : Ends cfg s a m) :
    (∀ i, a.turnOf i = none) ∧ ({ s with ended := some m } : DNSServer).Unharmed := by
  have owned := (owned_of_run h.run).ends he
  cases he with
  | @emptyQueue i th hi here empty =>
    refine ⟨fun _ => rfl, .inr ⟨rfl, ?_⟩⟩
    apply Bool.eq_false_iff.mpr
    intro running
    exact queue_of_taking h.run running hi here empty
  | useAfterFree => exact absurd rfl owned.useAfterFree
  | doubleFree => exact absurd rfl owned.doubleFree
  | fault hi call fails =>
    obtain ⟨u, _, serving⟩ := h.startup hi
    exact absurd fails (serving.fit.not_fails serving.empty benign)

theorem turnOf_of_outside (h : a.internal = false) (i : Nat) : a.turnOf i = none := by
  cases a with
  | serve => cases h
  | receive | receiveFails | push | release | leave | loop | cache | clean | wait | check | take
  | stopRunning | setQuit => rfl

theorem Sound.serving_moves (h : Sound cfg startups done s) (benign : a.Benign cfg)
    (hm : Moves cfg s a t) : Each (Serving cfg (done ++ [a])) startups t := by
  cases hm with
  | receive | push | release | leave | stopRunning | setQuit =>
    exact serving_same h.each rfl rfl fun _ => rfl
  | nothing outside => exact serving_same h.each rfl rfl (turnOf_of_outside outside)
  | goes hi own goes =>
    obtain ⟨u, startup, _⟩ := h.startup hi
    exact serving_put h.each hi rfl rfl startup fun fit empty => goes.fit fit empty benign
  | freed hi | cleaned hi =>
    obtain ⟨u, startup, _⟩ := h.startup hi
    exact serving_put h.each hi rfl rfl startup fun _ _ => ⟨rfl, rfl, fun _ => rfl⟩
  | waited hi here | took hi here =>
    obtain ⟨u, startup, _⟩ := h.startup hi
    refine serving_put h.each hi rfl rfl startup fun fit _ => ⟨?_, rfl, fun _ => rfl⟩
    rw [Thread.Fit, here] at fit
    exact fit
  | served hi here hr datagram buffer serve =>
    exact serving_served h.each hi here datagram serve benign
  | ends inside he => exact serving_same h.each rfl rfl (h.ends benign he).1

theorem Sound.step (h : Sound cfg startups done s) (benign : a.Benign cfg)
    (hs : step cfg s a = some t) : Sound cfg startups (done ++ [a]) t := by
  obtain ⟨alive, hm⟩ := moves_of_step hs
  refine ⟨h.run.append (.single benign hs), hm.length_threads.trans h.threads,
    hm.owners h.owners, h.serving_moves benign hm, ?_⟩
  cases hm with
  | ends inside he => exact (h.ends benign he).2
  | receive | nothing | push | release | leave | stopRunning | setQuit | goes | freed | cleaned
  | waited | took | served => exact .inl alive

theorem sound_of_run {actions : List ServerAction}
    (run : Steps (DNSServer.step cfg) (fun _ a => a.Benign cfg) (start startups) actions s)
    (quiet : ∀ u ∈ startups, u.socket.inbox = []) : Sound cfg startups actions s := by
  have first : Sound cfg startups [] (start startups) := by
    refine ⟨.nil _, List.length_map _, fun _ hr => ?_,
      Each.start fun i u hu => ⟨?_, [], rfl, .nil, ?_⟩, .inl rfl⟩
    · cases hr
    · intro due
      cases due
    · have empty := quiet u (List.mem_of_getElem? hu)
      simp only [Startup.thread, Startup.worker, Worker.start, List.flatMap_nil, List.append_nil]
      rw [← empty]
  exact run.history (fun done s a t h benign hs => h.step benign hs) first

/-- Every reply is the right one for a turn of its thread. -/
theorem Sound.right (h : Sound cfg startups done s) {r : Reply} (hr : r ∈ s.replies) :
    ∃ turn sent, ServerAction.serve r.thread turn ∈ done ∧
      turn.datagram = r.request.datagram ∧ turn.Fulfilled r.bytes sent := by
  obtain ⟨u, _, serving⟩ := h.startup (List.getElem?_eq_getElem (h.owners r hr))
  obtain ⟨served, turns, right, _⟩ := serving.served
  have own : r ∈ s.repliesOf r.thread := List.mem_filter.mpr ⟨hr, by simp⟩
  obtain ⟨k, hk⟩ := List.getElem?_of_mem own
  obtain ⟨⟨turn, sent⟩, hx, datagram, fulfilled⟩ := forall₂_getElem?
    (R := flip fun (x : Turn × List (List Byte)) (r : Reply) =>
      x.1.datagram = r.request.datagram ∧ x.1.Fulfilled r.bytes x.2) right.flip hk
  have taken : turn ∈ turnsOf done r.thread := by
    rw [← turns]
    exact List.mem_map_of_mem (f := Prod.fst) (List.mem_of_getElem? hx)
  obtain ⟨a, ha, hturn⟩ := List.mem_filterMap.mp taken
  cases a with
  | serve j turn' =>
    simp only [ServerAction.turnOf, Option.ite_none_right_eq_some, Option.some.injEq] at hturn
    obtain ⟨rfl, rfl⟩ := hturn
    exact ⟨turn', sent, ha, datagram, fulfilled⟩
  | receive | receiveFails | push | release | leave | loop | cache | clean | wait | check | take
  | stopRunning | setQuit => cases hturn

theorem Sound.not_hung (h : Sound cfg startups done s) :
    ∀ th ∈ s.threads, ∀ b, th.place ≠ .hung b := by
  intro th hth
  obtain ⟨i, hi⟩ := List.getElem?_of_mem hth
  obtain ⟨u, _, serving⟩ := h.startup hi
  exact serving.fit.not_hung

end Sound

/-- Requests that can be answered are answered, by any number of threads and under every
interleaving, while the replies of the recursive server are cached with whatever the driver and
the other connections make of it. No thread faults or hangs, and before a shutdown nothing ends
the process. Each thread gives the right reply in each of its turns, and sends nothing to the
recursive server but the questions that it relays, once each. -/
theorem benign_served {actions : List ServerAction}
    (run : Steps (step cfg) (fun _ a => a.Benign cfg) (start startups) actions s)
    (quiet : ∀ u ∈ startups, u.socket.inbox = []) :
    (s.ended = none ∨ s.ended = some .emptyQueue ∧ s.isRunning = false) ∧
    (∀ th ∈ s.threads, ∀ b, th.place ≠ .hung b) ∧
    ∀ i u, startups[i]? = some u → ∃ (th : Thread) (served : List (Turn × List (List Byte))),
      s.threads[i]? = some th ∧ served.map Prod.fst = turnsOf actions i ∧
      List.Forall₂ (fun x r => x.1.datagram = r.request.datagram ∧ x.1.Fulfilled r.bytes x.2)
        served (s.repliesOf i) ∧
      th.worker.socket = ⟨[], u.socket.outbox ++ served.flatMap Prod.snd⟩ := by
  have sound := sound_of_run run quiet
  refine ⟨sound.unharmed, sound.not_hung, ?_⟩
  intro i u hu
  obtain ⟨th, hth, serving⟩ := sound.each i u hu
  obtain ⟨served, turns, right, socket⟩ := serving.served
  exact ⟨th, served, hth, turns, right, socket⟩

/-- Two clients ask for the same name. The first request is relayed and the second is answered
from the cache; then the driver fails while the relayed reply is cached. -/
def twoRequests : List ServerAction :=
  [.loop 0, .clean 0, .loop 1, .clean 1,
    .receive firstAsked.datagram ⟨2130706433, 5353⟩ 4096 .zeroed, .push, .release,
    .wait 0, .check 0, .take 0,
    .receive secondAsked.datagram ⟨2130706433, 5354⟩ 8192 .zeroed, .push, .release,
    .serve 0 firstAsked, .wait 1, .check 1, .take 1, .loop 0,
    .cache 0 { secondAsked with cacheDriver := [none, none, none, some "08S01"] },
    .serve 1 secondAsked, .loop 0, .clean 0, .loop 1, .clean 1]

theorem serviceable_firstAsked : firstAsked.Serviceable resolver := by
  obtain ⟨count, xs, next, laidOut, read, readable⟩ := chainPacket_answering
  have length : xs.length = chainAnswers.length := by
    simpa using congrArg List.length read
  refine .relayed relays_firstAsked ⟨count.trans length.symm, ⟨next, laidOut⟩, readable, ?_⟩
  intro on
  cases on

theorem serviceable_secondAsked : secondAsked.Serviceable resolver := by
  have rows : secondAsked.lookup questionA.name.text =
      [⟨nameB, 1, 28, .address ⟨1, 2, 3, 4⟩⟩, ⟨nameA, 1, 58, .cname nameB⟩].map Answer.row := rfl
  exact .found (asks_request 0 8 1 (by decide) (by decide)) rfl rows (.inl (by decide)) rfl
    (by decide)

theorem benign_twoRequests : ∀ a ∈ twoRequests, a.Benign resolver := by
  simp [twoRequests, ServerAction.Benign, serviceable_firstAsked, serviceable_secondAsked]

/-- The two requests have been served, and both threads wait for another one. -/
theorem exists_twoRequests : ∃ s : DNSServer,
    Steps (step resolver) (fun _ a => a.Benign resolver) (start twoThreads) twoRequests s ∧
      s.rest = ⟨List.replicate 2 .waiting, .waiting, true, false, 0, none, 2⟩ := by
  have computed : (follow (step resolver) (fun _ _ => True) (start twoThreads) twoRequests).map
      rest = some ⟨List.replicate 2 .waiting, .waiting, true, false, 0, none, 2⟩ := by
    decide +kernel
  obtain ⟨s, hs, resting⟩ := Option.map_eq_some_iff.mp computed
  exact ⟨s, (steps_of_follow hs).meeting benign_twoRequests, resting⟩

theorem quiet_twoThreads : ∀ u ∈ twoThreads, u.socket.inbox = [] := by
  intro u hu
  rw [List.eq_of_mem_replicate hu]

theorem benign_served_two : ∃ (s : DNSServer) (th : Thread)
    (served : List (Turn × List (List Byte))), s.replies.length = 2 ∧
      s.threads[0]? = some th ∧ served.map Prod.fst = turnsOf twoRequests 0 ∧
      th.worker.socket = ⟨[], served.flatMap Prod.snd⟩ := by
  obtain ⟨s, run, resting⟩ := exists_twoRequests
  obtain ⟨_, _, threads⟩ := benign_served run quiet_twoThreads
  obtain ⟨th, served, hth, turns, _, socket⟩ := threads 0 _ rfl
  exact ⟨s, th, served, (Rest.mk.inj resting).2.2.2.2.2.2, hth, turns, socket⟩

/-- When such a server comes to rest, every request that it has received has got one reply, and
the right one. -/
theorem benign_all_answered {actions : List ServerAction}
    (run : Steps (step cfg) (fun _ a => a.Benign cfg) (start startups) actions s)
    (quiet : ∀ u ∈ startups, u.socket.inbox = []) (staffed : startups ≠ [])
    (running : s.isRunning = true) (idle : s.Idle cfg) :
    s.requestQueue = [] ∧ s.receiver.inHand = [] ∧
      s.pushed.Perm (s.replies.map Reply.request) ∧
      ∀ r ∈ s.replies, ∃ turn sent, ServerAction.serve r.thread turn ∈ actions ∧
        turn.datagram = r.request.datagram ∧ turn.Fulfilled r.bytes sent := by
  have sound := sound_of_run run quiet
  have alive : s.ended = none := by
    rcases sound.unharmed with alive | ⟨_, stopped⟩
    · exact alive
    · cases stopped.symm.trans running
  have free : ∃ th ∈ s.threads, ∀ b, th.place ≠ .hung b := by
    obtain ⟨th, hth⟩ := List.exists_mem_of_length_pos
      (sound.threads ▸ List.length_pos_iff.mpr staffed)
    exact ⟨th, hth, sound.not_hung th hth⟩
  obtain ⟨empty, resting⟩ := empty_of_idle run running alive idle free
  have unserved : s.threads.flatMap Thread.inService = [] := by
    apply List.flatMap_eq_nil_iff.mpr
    intro th hth
    rcases rest_of_idle run running alive idle th hth with ⟨waits, _⟩ | ⟨b, hung⟩
    · rw [Thread.inService, waits]
    · exact absurd hung (sound.not_hung th hth b)
  have accounted := accounted_of_run run
  rw [unanswered, empty, unserved, List.append_nil, List.append_nil] at accounted
  exact ⟨empty, resting, accounted, fun _ => sound.right⟩

theorem benign_all_answered_two : ∃ s : DNSServer, s.replies.length = 2 ∧
    s.pushed.Perm (s.replies.map Reply.request) := by
  obtain ⟨s, run, resting⟩ := exists_twoRequests
  obtain ⟨places, receiver, running, unset, none, _, two⟩ := Rest.mk.inj resting
  obtain ⟨waits, _⟩ := all_at places
  have idle : s.Idle resolver :=
    idle_of_rest (.inl ⟨receiver, running⟩) fun th hth => .inl ⟨waits th hth, none, unset⟩
  obtain ⟨_, _, answered, _⟩ := benign_all_answered run quiet_twoThreads
    (List.cons_ne_nil _ _) running idle
  exact ⟨s, two, answered⟩

end DNSServer

end OdbcDns
