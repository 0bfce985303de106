import OdbcDns.Proofs.ServerPackets
import OdbcDns.Proofs.Turns

namespace OdbcDns

namespace Worker

/-- A run goes on with another turn. -/
theorem run_snoc {cfg : Config} {ts : List Turn} {t : Turn} {w w₁ w₂ : Worker}
    {replies : List (List Byte)} {reply : List Byte} (h : w.run cfg ts = .ok (w₁, replies))
    (ht : w₁.turn cfg t = .ok (w₂, reply)) :
    w.run cfg (ts ++ [t]) = .ok (w₂, replies ++ [reply]) := by
  induction ts generalizing w replies with
  | nil =>
    rw [run_nil] at h
    cases h
    simp only [List.nil_append, run_cons_eq, run_nil, bind, Except.bind, ht]
  | cons t₀ ts ih =>
    obtain ⟨w', reply₀, rest, h₀, hrest, rfl⟩ := run_cons h
    simp only [List.cons_append, run_cons_eq, bind, Except.bind, h₀, ih hrest]

end Worker

/-- The turn in which a worker caches with what `c` says, if that is anything, and serves with
what `t` says. The two take place at different times. -/
def Turn.after (t : Turn) : Option Turn → Turn
  | none => { t with interference := id }
  | some c => { t with
      interference := c.interference
      executions := c.executions
      heap := c.heap
      cacheDriver := c.cacheDriver }

/-- `x` has the turns of thread `i` so far, and what its caching for the next one was given. -/
def ServerAction.extend (i : Nat) (x : List Turn × Option Turn) :
    ServerAction → List Turn × Option Turn
  | .cache j t => if j = i then (x.1, some t) else x
  | .serve j t => if j = i then (x.1 ++ [t.after x.2], none) else x
  | _ => x

/-- What the actions of a run have given to thread `i`. -/
def given (actions : List ServerAction) (i : Nat) : List Turn × Option Turn :=
  actions.foldl (ServerAction.extend i) ([], none)

/-- The turns of thread `i`, as its `cache` and `serve` actions have them. -/
def workerTurns (actions : List ServerAction) (i : Nat) : List Turn := (given actions i).1

section Given

variable {a : ServerAction} {i : Nat} {done : List ServerAction} {x : List Turn × Option Turn}

theorem given_append (done : List ServerAction) (a : ServerAction) (i : Nat) :
    given (done ++ [a]) i = a.extend i (given done i) := by
  rw [given, List.foldl_append]
  rfl

theorem ServerAction.extend_other (h : a.thread ≠ some i) : a.extend i x = x := by
  cases a with
  | cache j | serve j => exact if_neg fun same => h (congrArg some same)
  | receive | receiveFails | push | release | leave | loop | clean | wait | check | take
  | stopRunning | setQuit => rfl

theorem workerTurns_grows (done : List ServerAction) (a : ServerAction) (i : Nat) :
    workerTurns done i <+: workerTurns (done ++ [a]) i := by
  rw [workerTurns, workerTurns, given_append]
  cases a with
  | serve j t =>
    simp only [ServerAction.extend]
    split
    · exact List.prefix_append _ _
    · exact List.prefix_refl _
  | cache j t =>
    simp only [ServerAction.extend]
    split <;> exact List.prefix_refl _
  | receive | receiveFails | push | release | leave | loop | clean | wait | check | take
  | stopRunning | setQuit => exact List.prefix_refl _

end Given

namespace Worker

/-- What an iteration makes of the worker before the cleaning: it caches a packet that is
due, and otherwise leaves everything as it is. -/
inductive Cached (cfg : Config) (w : Worker) : Option Turn → Worker → Prop
  | cache {t : Turn} {w' : Worker} (h : w.cache cfg t = .ok w') : Cached cfg w (some t) w'
  | skip (h : w.due = false) : Cached cfg w none w

/-- The two halves of a turn. -/
theorem Cached.turn {cfg : Config} {w w' w₂ : Worker} {c : Option Turn} {t : Turn}
    {reply : List Byte} (h : Cached cfg w c w') (hs : w'.clean.serve cfg t = .ok (w₂, reply)) :
    w.turn cfg (t.after c) = .ok (w₂, reply) := by
  have serves : w'.clean.serve cfg (t.after c) = .ok (w₂, reply) := by
    cases c <;> exact hs
  have caches : w.cache cfg (t.after c) = .ok w' := by
    cases h with
    | cache hc => exact hc
    | skip idle => exact cache_idle cfg (t.after none) idle
  simp only [Worker.turn_eq, bind, Except.bind, caches, serves]

end Worker

/-- How a thread stands whose last turn has left its worker as `w`, and whose caching since then
was given `c`. When caching has thrown, `error` keeps it from being tried again. -/
def Thread.Stands (cfg : Config) (c : Option Turn) (w : Worker) (th : Thread) : Prop :=
  match th.place with
  | .head | .begun | .left => c = none ∧ th.worker = w ∨
      ∃ w', w.Cached cfg c w' ∧ th.worker = { w' with error := true }
  | .cached => w.Cached cfg c th.worker
  | .waiting | .checking | .taking | .serving | .broke =>
    ∃ w', w.Cached cfg c w' ∧ th.worker = w'.clean
  | .hung _ => True

section Stands

variable {cfg : Config} {c : Option Turn} {w : Worker} {th th' : Thread} {i : Nat}

theorem DNSServer.Goes.not_hung {s : DNSServer} {a : ServerAction}
    (goes : DNSServer.Goes cfg s th a th') (b : Bool) : th.place ≠ .hung b := by
  intro hung
  cases goes with
  | begun here | left here | cached here | threw here | hungCaching here | hungServing here
  | quit here | passed here | broke here => cases here.symm.trans hung

/-- What a thread does between its requests leaves its socket alone. -/
theorem DNSServer.Goes.socket {s : DNSServer} {a : ServerAction}
    (goes : DNSServer.Goes cfg s th a th') : th'.worker.socket = th.worker.socket := by
  cases goes with
  | cached here due cache | threw here due cache =>
    obtain ⟨c, rfl⟩ := Worker.cache_ok cache
    rfl
  | begun | left | hungCaching | hungServing | quit | passed | broke => rfl

/-- A thread that only goes on hangs while it serves, or has done nothing yet of its turn but the
caching. -/
theorem DNSServer.Goes.stands {s : DNSServer} {a : ServerAction} {x : List Turn × Option Turn}
    (h : th.Stands cfg x.2 w) (goes : DNSServer.Goes cfg s th a th') (own : a.thread = some i) :
    th'.place = .hung true ∨ (a.extend i x).1 = x.1 ∧ th'.Stands cfg (a.extend i x).2 w := by
  unfold Thread.Stands at h
  cases goes with
  | @cached _ t w' here due cache =>
    cases own
    rw [here] at h
    refine .inr ⟨by simp [ServerAction.extend], ?_⟩
    rcases h with ⟨_, rfl⟩ | ⟨w', _, hw⟩
    · simpa [ServerAction.extend] using .cache cache
    · rw [hw] at due
      cases due
  | @threw _ t w' here due cache =>
    cases own
    rw [here] at h
    refine .inr ⟨by simp [ServerAction.extend], ?_⟩
    rcases h with ⟨_, rfl⟩ | ⟨w', _, hw⟩
    · simpa [ServerAction.extend] using .inr ⟨_, .cache cache, rfl⟩
    · rw [hw] at due
      cases due
  | hungCaching here =>
    cases own
    exact .inr ⟨by simp [ServerAction.extend], trivial⟩
  | hungServing here => exact .inl rfl
  | begun here | left here | quit here | passed here | broke here =>
    rw [here] at h
    exact .inr ⟨rfl, h⟩

theorem Thread.Stands.clean (h : th.Stands cfg c w) (cleans : th.Cleans) :
    ({ th with place := .waiting, worker := th.worker.clean } : Thread).Stands cfg c w := by
  unfold Stands at h
  rcases cleans with ⟨here, due⟩ | here
  · rw [here] at h
    rcases h with ⟨rfl, rfl⟩ | ⟨w', cached, hw⟩
    · exact ⟨_, .skip due, rfl⟩
    · exact ⟨w', cached, by rw [hw]; rfl⟩
  · rw [here] at h
    exact ⟨_, h, rfl⟩

theorem Thread.Stands.wait (h : th.Stands cfg c w) (here : th.place = .waiting) :
    ({ th with place := .checking } : Thread).Stands cfg c w := by
  unfold Stands at h
  rw [here] at h
  exact h

theorem Thread.Stands.take (h : th.Stands cfg c w) (here : th.place = .taking) (r : DNSRequest) :
    ({ th with place := .serving, request := some r } : Thread).Stands cfg c w := by
  unfold Stands at h
  rw [here] at h
  exact h

/-- A reply is that of a turn of the worker. -/
theorem Thread.Stands.serve {w₂ : Worker} {t : Turn} {reply : List Byte} (h : th.Stands cfg c w)
    (here : th.place = .serving) (hs : th.worker.serve cfg t = .ok (w₂, reply)) :
    w.turn cfg (t.after c) = .ok (w₂, reply) := by
  unfold Stands at h
  rw [here] at h
  obtain ⟨w', cached, hw⟩ := h
  rw [hw] at hs
  exact cached.turn hs

end Stands

/-- A turn with the datagram of a request, in the packet that was allocated for it. -/
def Turn.Serves (t : Turn) (r : Reply) : Prop :=
  t.datagram = r.request.datagram ∧ t.buffer = r.request.buffer

namespace DNSServer

/-- The replies of a thread, and the requests that it has taken, oldest first. -/
def repliesOf (s : DNSServer) (i : Nat) : List Reply := s.replies.filter (·.thread = i)

def takenBy (s : DNSServer) (i : Nat) : List DNSRequest :=
  (s.taken.filter (·.1 = i)).map Prod.snd

/-- Thread `i` has answered the requests it has taken, except the one that it is serving,
with the replies of a run of its worker. That has taken all turns which the thread was given,
unless the last one hangs or ends the process. -/
structure Follows (cfg : Config) (done : List ServerAction) (s : DNSServer) (i : Nat) (u : Startup)
    (th : Thread) : Prop where
  taken : s.takenBy i = (s.repliesOf i).map Reply.request ++ th.inService
  ran : ∃ turns w, turns <+: workerTurns done i ∧
    u.worker.run cfg turns = .ok (w, (s.repliesOf i).map Reply.bytes) ∧
    List.Forall₂ Turn.Serves turns (s.repliesOf i) ∧ th.worker.socket = w.socket ∧
    (s.ended = none → th.place ≠ .hung true →
      turns = workerTurns done i ∧ th.Stands cfg (given done i).2 w)

variable {cfg : Config} {s t : DNSServer} {i : Nat} {th th' : Thread} {u : Startup}
  {a : ServerAction} {done : List ServerAction}

theorem repliesOf_own {r : DNSRequest} {bytes : List Byte}
    (h : t.replies = s.replies ++ [⟨i, r, bytes⟩]) :
    t.repliesOf i = s.repliesOf i ++ [⟨i, r, bytes⟩] := by
  simp [repliesOf, h, List.filter_append]

theorem repliesOf_other {j : Nat} {r : DNSRequest} {bytes : List Byte}
    (h : t.replies = s.replies ++ [⟨j, r, bytes⟩]) (hi : i ≠ j) :
    t.repliesOf i = s.repliesOf i := by
  simp [repliesOf, h, List.filter_append, Ne.symm hi]

theorem repliesOf_same (h : t.replies = s.replies) (i : Nat) : t.repliesOf i = s.repliesOf i := by
  rw [repliesOf, h, repliesOf]

theorem takenBy_same (h : t.taken = s.taken) (i : Nat) : t.takenBy i = s.takenBy i := by
  rw [takenBy, h, takenBy]

/-- A thread that takes and answers no request goes on to another place. -/
theorem Follows.same (h : Follows cfg done s i u th) (replies : t.repliesOf i = s.repliesOf i)
    (taken : t.takenBy i = s.takenBy i) (service : th'.inService = th.inService)
    (socket : th'.worker.socket = th.worker.socket)
    (stands : t.ended = none → th'.place ≠ .hung true →
      s.ended = none ∧ th.place ≠ .hung true ∧ workerTurns (done ++ [a]) i = workerTurns done i ∧
      ∀ w, th.Stands cfg (given done i).2 w → th'.Stands cfg (given (done ++ [a]) i).2 w) :
    Follows cfg (done ++ [a]) t i u th' := by
  obtain ⟨htaken, turns, w, part, run, serves, kept, all⟩ := h
  refine ⟨?_, turns, w, part.trans (workerTurns_grows done a i), replies ▸ run,
    replies ▸ serves, socket.trans kept, ?_⟩
  · rw [taken, replies, service]
    exact htaken
  · intro alive free
    obtain ⟨alive, free, same, next⟩ := stands alive free
    obtain ⟨hturns, hw⟩ := all alive free
    exact ⟨hturns.trans same.symm, next w hw⟩

/-- The other threads do nothing. -/
theorem Follows.other (h : Follows cfg done s i u th) (other : a.thread ≠ some i)
    (replies : t.repliesOf i = s.repliesOf i) (taken : t.takenBy i = s.takenBy i)
    (alive : s.ended = none) : Follows cfg (done ++ [a]) t i u th := by
  have same : given (done ++ [a]) i = given done i := by
    rw [given_append, ServerAction.extend_other other]
  refine h.same replies taken rfl rfl fun _ free => ⟨alive, free, ?_, ?_⟩
  · rw [workerTurns, same, workerTurns]
  · rw [same]
    exact fun _ hw => hw

/-- The process ends. -/
theorem Follows.ends {m : Mishap} (h : Follows cfg done s i u th) :
    Follows cfg (done ++ [a]) { s with ended := some m } i u th := by
  refine h.same rfl rfl rfl rfl fun alive => ?_
  cases alive

/-- The thread itself goes on, without a request. -/
theorem Follows.goes (h : Follows cfg done s i u th) (replies : t.replies = s.replies)
    (taken : t.taken = s.taken) (service : th'.inService = th.inService)
    (socket : th'.worker.socket = th.worker.socket) (alive : s.ended = none)
    (free : th.place ≠ .hung true)
    (stands : ∀ w, th.Stands cfg (given done i).2 w → th'.place = .hung true ∨
      (a.extend i (given done i)).1 = (given done i).1 ∧
        th'.Stands cfg (a.extend i (given done i)).2 w) : Follows cfg (done ++ [a]) t i u th' := by
  obtain ⟨htaken, turns, w, part, run, serves, kept, all⟩ := h
  rw [← takenBy_same taken i, ← service] at htaken
  rw [← repliesOf_same replies i] at htaken run serves
  obtain ⟨hturns, hw⟩ := all alive free
  refine ⟨htaken, turns, w, part.trans (workerTurns_grows done a i), run, serves,
    socket.trans kept, ?_⟩
  intro _ free'
  rw [workerTurns, given_append]
  rcases stands w hw with hung | ⟨same, next⟩
  · exact absurd hung free'
  · exact ⟨hturns.trans same.symm, next⟩

/-- Of every thread `F` holds, with what the thread has found when it started. -/
def Each (F : DNSServer → Nat → Startup → Thread → Prop) (startups : List Startup)
    (s : DNSServer) : Prop :=
  ∀ i u, startups[i]? = some u → ∃ th, s.threads[i]? = some th ∧ F s i u th

section Each

variable {F G : DNSServer → Nat → Startup → Thread → Prop} {startups : List Startup} {j : Nat}

theorem Each.start (h : ∀ i u, startups[i]? = some u → F (start startups) i u u.thread) :
    Each F startups (start startups) := by
  intro i u hu
  refine ⟨u.thread, ?_, h i u hu⟩
  rw [DNSServer.start, List.getElem?_map, hu, Option.map_some]

theorem Each.same (h : Each F startups s) (threads : t.threads = s.threads)
    (keep : ∀ i u th, F s i u th → G t i u th) : Each G startups t := by
  intro i u hu
  obtain ⟨th, hth, hf⟩ := h i u hu
  exact ⟨th, threads ▸ hth, keep i u th hf⟩

/-- One thread goes on, and the others have done nothing. -/
theorem Each.put (h : Each F startups s) (hj : s.threads[j]? = some th)
    (threads : t.threads = s.threads.set j th')
    (others : ∀ i u th, i ≠ j → F s i u th → G t i u th)
    (own : ∀ u, F s j u th → G t j u th') : Each G startups t := by
  intro i u hu
  obtain ⟨th₀, hth, hf⟩ := h i u hu
  by_cases hij : i = j
  · subst hij
    cases hj.symm.trans hth
    refine ⟨th', ?_, own u hf⟩
    obtain ⟨hlt, _⟩ := List.getElem?_eq_some_iff.mp hj
    rw [threads, List.getElem?_set_self hlt]
  · refine ⟨th₀, ?_, others i u th₀ hij hf⟩
    rw [threads, List.getElem?_set_ne (Ne.symm hij)]
    exact hth

end Each

section Moves

variable {startups : List Startup} {j : Nat}

theorem followed_same (h : Each (Follows cfg done) startups s) (alive : s.ended = none)
    (other : a.thread = none) (threads : t.threads = s.threads) (replies : t.replies = s.replies)
    (taken : t.taken = s.taken) : Each (Follows cfg (done ++ [a])) startups t :=
  h.same threads fun i _ _ hf => hf.other (by simp [other]) (repliesOf_same replies i)
    (takenBy_same taken i) alive

theorem followed_put (h : Each (Follows cfg done) startups s) (alive : s.ended = none)
    (hj : s.threads[j]? = some th) (own : a.thread = some j)
    (threads : t.threads = s.threads.set j th') (replies : t.replies = s.replies)
    (taken : t.taken = s.taken) (service : th'.inService = th.inService)
    (socket : th'.worker.socket = th.worker.socket) (free : th.place ≠ .hung true)
    (stands : ∀ w, th.Stands cfg (given done j).2 w → th'.place = .hung true ∨
      (a.extend j (given done j)).1 = (given done j).1 ∧
        th'.Stands cfg (a.extend j (given done j)).2 w) :
    Each (Follows cfg (done ++ [a])) startups t := by
  refine h.put hj threads (fun i _ _ hij hf => ?_) fun _ hf =>
    hf.goes replies taken service socket alive free stands
  refine hf.other ?_ (repliesOf_same replies i) (takenBy_same taken i) alive
  rw [own]
  exact fun same => hij (Option.some.inj same).symm

theorem followed_took (h : Each (Follows cfg done) startups s) (alive : s.ended = none)
    {r : DNSRequest} {rest : List DNSRequest} (hj : s.threads[j]? = some th)
    (here : th.place = .taking) :
    Each (Follows cfg (done ++ [.take j])) startups
      { s.put j { th with place := .serving, request := some r } with
        requestQueue := rest
        taken := s.taken ++ [(j, r)] } := by
  refine h.put hj rfl (fun i _ _ hij hf => hf.other ?_ rfl ?_ alive) fun u hf => ?_
  · exact fun same => hij (Option.some.inj same).symm
  · simp [takenBy, List.filter_append, Ne.symm hij]
  · obtain ⟨htaken, turns, w, part, run, serves, kept, all⟩ := hf
    have before : th.inService = [] := by rw [Thread.inService, here]
    rw [before, List.append_nil] at htaken
    refine ⟨?_, turns, w, part.trans (workerTurns_grows done _ j), run, serves, kept,
      fun _ _ => ?_⟩
    · simp only [takenBy, List.filter_append, List.map_append] at htaken ⊢
      rw [htaken]
      simp [repliesOf, Thread.inService, put]
    · obtain ⟨hturns, hw⟩ := all alive (by rw [here]; exact ThreadPlace.noConfusion)
      rw [workerTurns, given_append]
      exact ⟨hturns, hw.take here r⟩

theorem followed_served (h : Each (Follows cfg done) startups s) (alive : s.ended = none)
    {r : DNSRequest} {turn : Turn} {w : Worker} {bytes : List Byte}
    (hj : s.threads[j]? = some th) (here : th.place = .serving) (hr : th.request = some r)
    (datagram : turn.datagram = r.datagram) (buffer : turn.buffer = r.buffer)
    (serve : th.worker.serve cfg turn = .ok (w, bytes)) :
    Each (Follows cfg (done ++ [.serve j turn])) startups
      { s.put j { th with place := .head, worker := w } with
        replies := s.replies ++ [⟨j, r, bytes⟩] } := by
  refine h.put hj rfl (fun i _ _ hij hf => hf.other ?_ (repliesOf_other rfl hij) rfl alive)
    fun u hf => ?_
  · exact fun same => hij (Option.some.inj same).symm
  · obtain ⟨htaken, turns, w₀, part, run, serves, _, all⟩ := hf
    obtain ⟨hturns, hw⟩ := all alive (by rw [here]; exact ThreadPlace.noConfusion)
    have replies : ({ s.put j { th with place := .head, worker := w } with
        replies := s.replies ++ [⟨j, r, bytes⟩] } : DNSServer).repliesOf j =
        s.repliesOf j ++ [⟨j, r, bytes⟩] := repliesOf_own rfl
    have next : given (done ++ [.serve j turn]) j =
        (turns ++ [turn.after (given done j).2], none) := by
      rw [given_append, hturns]
      exact if_pos rfl
    have packet : (turn.after (given done j).2).Serves ⟨j, r, bytes⟩ := by
      cases (given done j).2 <;> exact ⟨datagram, buffer⟩
    refine ⟨?_, turns ++ [turn.after (given done j).2], w, ?_, ?_, ?_, rfl,
      fun _ _ => ?_⟩
    · have before : th.inService = [r] := by rw [Thread.inService, here, hr, Option.toList_some]
      rw [before] at htaken
      rw [replies, List.map_append]
      simpa [Thread.inService, takenBy, put] using htaken
    · have own : workerTurns (done ++ [.serve j turn]) j = turns ++ [turn.after (given done j).2] :=
        congrArg Prod.fst next
      exact own ▸ List.prefix_refl _
    · rw [replies, List.map_append]
      exact Worker.run_snoc run (hw.serve here serve)
    · rw [replies]
      exact List.rel_append serves (.cons packet .nil)
    · rw [workerTurns, next]
      exact ⟨rfl, .inl ⟨rfl, rfl⟩⟩

theorem thread_of_outside (outside : a.internal = false) : a.thread = none := by
  cases a with
  | receive | receiveFails | push | release | leave | stopRunning | setQuit => rfl
  | loop | cache | clean | wait | check | take | serve => cases outside

theorem followed_moves (h : Each (Follows cfg done) startups s) (alive : s.ended = none)
    (hm : Moves cfg s a t) : Each (Follows cfg (done ++ [a])) startups t := by
  cases hm with
  | receive | push | release | leave | stopRunning | setQuit =>
    exact followed_same h alive rfl rfl rfl rfl
  | nothing outside => exact followed_same h alive (thread_of_outside outside) rfl rfl rfl
  | goes hi own goes =>
    exact followed_put h alive hi own rfl rfl rfl goes.inService goes.socket
      (goes.not_hung true) fun _ hw => goes.stands hw own
  | freed hi cleans | cleaned hi cleans =>
    refine followed_put h alive hi rfl rfl rfl rfl (Thread.inService_of_cleans cleans).symm rfl ?_
      fun _ hw => .inr ⟨rfl, hw.clean cleans⟩
    rcases cleans with ⟨here, _⟩ | here <;> rw [here] <;> exact ThreadPlace.noConfusion
  | @waited i th hi here unit =>
    have service : th.inService = [] := by rw [Thread.inService, here]
    refine followed_put h alive hi rfl rfl rfl rfl service.symm rfl ?_
      fun _ hw => .inr ⟨rfl, hw.wait here⟩
    rw [here]
    exact ThreadPlace.noConfusion
  | took hi here first => exact followed_took h alive hi here
  | served hi here hr datagram buffer serve =>
    exact followed_served h alive hi here hr datagram buffer serve
  | ends inside he => exact h.same rfl fun _ _ _ hf => hf.ends

end Moves

theorem followed_of_run {C : DNSServer → ServerAction → Prop} {startups : List Startup}
    {actions : List ServerAction} (run : Steps (step cfg) C (start startups) actions s) :
    Each (Follows cfg actions) startups s := by
  have first : Each (Follows cfg []) startups (start startups) :=
    Each.start fun i u _ => ⟨rfl, [], u.worker, List.prefix_refl [], Worker.run_nil cfg _, .nil,
      rfl, fun _ _ => ⟨rfl, .inl ⟨rfl, rfl⟩⟩⟩
  refine run.history (I := fun done => Each (Follows cfg done) startups)
    (fun done s a t h _ hs => ?_) first
  obtain ⟨alive, moves⟩ := moves_of_step hs
  exact followed_moves h alive moves

/-- Under every interleaving each thread behaves as a worker by itself: it answers the
requests that it has taken, in their order, and its replies are those of a run of
`serviceRequests` over their datagrams, with what its own `cache` and `serve` actions have found
of the table, the driver and the network. -/
theorem threads_run_workers {C : DNSServer → ServerAction → Prop} {startups : List Startup}
    {actions : List ServerAction} (run : Steps (step cfg) C (start startups) actions s)
    (hu : startups[i]? = some u) :
    ∃ th turns w, s.threads[i]? = some th ∧
      s.takenBy i = (s.repliesOf i).map Reply.request ++ th.inService ∧
      turns <+: workerTurns actions i ∧
      (s.ended = none → th.place ≠ .hung true → turns = workerTurns actions i) ∧
      List.Forall₂ (fun (t : Turn) (r : Reply) => t.datagram = r.request.datagram ∧
        t.buffer = r.request.buffer) turns (s.repliesOf i) ∧
      u.worker.run cfg turns = .ok (w, (s.repliesOf i).map Reply.bytes) := by
  obtain ⟨th, hth, htaken, turns, w, part, runs, serves, _, all⟩ := followed_of_run run i u hu
  exact ⟨th, turns, w, hth, htaken, part, fun alive free => (all alive free).1, serves, runs⟩

/-- The first thread has answered the request with thirty-five bytes. -/
theorem threads_run_workers_answered : ∃ w, ∃ reply : List Byte, reply.length = 35 ∧
    Worker.idle.run ⟨0, false⟩ (workerTurns oneRequest 0) = .ok (w, [reply]) := by
  have computed : (after oneRequest).map (fun s => ((s.repliesOf 0).map (·.bytes.length),
      s.ended, s.threads[0]?.map Thread.place)) = some ([35], none, some .waiting) := by
    decide +kernel
  obtain ⟨s, run, hs⟩ := exists_after computed
  obtain ⟨replies, rest⟩ := Prod.mk.inj hs
  obtain ⟨alive, place⟩ := Prod.mk.inj rest
  obtain ⟨r, hr, length⟩ := List.map_eq_singleton_iff.mp replies
  obtain ⟨th, turns, w, hth, _, _, all, _, hrun⟩ := threads_run_workers run (i := 0) rfl
  rw [hth, Option.map_some, Option.some.injEq] at place
  rw [all alive (by rw [place]; exact ThreadPlace.noConfusion), hr] at hrun
  exact ⟨w, r.bytes, length, hrun⟩

end DNSServer

end OdbcDns
