import OdbcDns.DNSServer

namespace OdbcDns

/-- A thread is in a call that uses the packet of its request. -/
def Thread.InCall (th : Thread) : Prop :=
  th.place = .begun ∧ th.worker.due = true ∨ th.place = .serving

/-- A thread has the packet of its last request still to free. -/
def Thread.Cleans (th : Thread) : Prop :=
  th.place = .begun ∧ th.worker.due = false ∨ th.place = .cached

theorem ServerAction.internal_of_thread {a : ServerAction} {i : Nat} (h : a.thread = some i) :
    a.internal = true := by
  cases a with
  | loop | cache | clean | wait | check | take | serve => rfl
  | receive | receiveFails | push | release | leave | stopRunning | setQuit => cases h

/-- A call that the thread makes in an action does not return. -/
inductive Thread.Fails (cfg : Config) (th : Thread) : ServerAction → Fault → Prop
  | caching {i : Nat} {t : Turn} {f : Fault} (here : th.place = .begun)
      (due : th.worker.due = true) (fails : th.worker.cache cfg t = .error f) :
      Fails cfg th (.cache i t) f
  | serving {i : Nat} {t : Turn} {f : Fault} (here : th.place = .serving)
      (fails : th.worker.serve cfg t = .error f) : Fails cfg th (.serve i t) f

namespace DNSServer

/-- `Goes cfg s th a th'`: by the action `a` a thread goes on from `th` to `th'`, and nothing
else changes. -/
inductive Goes (cfg : Config) (s : DNSServer) (th : Thread) : ServerAction → Thread → Prop
  | begun {i : Nat} (here : th.place = .head) (go : s.isRunning = true ∨ s.requestQueue ≠ []) :
      Goes cfg s th (.loop i) { th with place := .begun }
  | left {i : Nat} (here : th.place = .head) (stopped : s.isRunning = false)
      (empty : s.requestQueue = []) : Goes cfg s th (.loop i) { th with place := .left }
  | cached {i : Nat} {t : Turn} {w : Worker} (here : th.place = .begun)
      (due : th.worker.due = true) (cache : th.worker.cache cfg t = .ok w) :
      Goes cfg s th (.cache i t) { th with place := .cached, worker := w }
  | threw {i : Nat} {t : Turn} {w : Worker} (here : th.place = .begun)
      (due : th.worker.due = true) (cache : th.worker.cache cfg t = .ok w) :
      Goes cfg s th (.cache i t) { th with place := .head, worker := { w with error := true } }
  | hungCaching {i : Nat} {t : Turn} (here : th.place = .begun) (due : th.worker.due = true)
      (fails : th.Fails cfg (.cache i t) .hang) :
      Goes cfg s th (.cache i t) { th with place := .hung false }
  | hungServing {i : Nat} {t : Turn} (here : th.place = .serving)
      (fails : th.Fails cfg (.serve i t) .hang) :
      Goes cfg s th (.serve i t) { th with place := .hung true }
  | quit {i : Nat} (here : th.place = .waiting) (none : s.requestSemaphore = 0)
      (quit : s.quitEvent = true) : Goes cfg s th (.wait i) { th with place := .checking }
  | passed {i : Nat} (here : th.place = .checking)
      (go : s.isRunning = true ∨ s.requestQueue ≠ []) :
      Goes cfg s th (.check i) { th with place := .taking }
  | broke {i : Nat} (here : th.place = .checking) (stopped : s.isRunning = false)
      (empty : s.requestQueue = []) : Goes cfg s th (.check i) { th with place := .broke }

/-- What can end the process in a state. -/
inductive Ends (cfg : Config) (s : DNSServer) : ServerAction → Mishap → Prop
  | emptyQueue {i : Nat} {th : Thread} (hi : s.threads[i]? = some th) (here : th.place = .taking)
      (empty : s.requestQueue = []) : Ends cfg s (.take i) .emptyQueue
  | useAfterFree {a : ServerAction} {i : Nat} {th : Thread} {r : DNSRequest}
      (hi : s.threads[i]? = some th) (call : th.InCall) (hr : th.request = some r)
      (freed : r.address ∉ s.allocated) : Ends cfg s a .useAfterFree
  | doubleFree {a : ServerAction} {i : Nat} {th : Thread} {r : DNSRequest}
      (hi : s.threads[i]? = some th) (cleans : th.Cleans) (hr : th.request = some r)
      (freed : r.address ∉ s.allocated) : Ends cfg s a .doubleFree
  | fault {a : ServerAction} {i : Nat} {th : Thread} {f : Fault} (hi : s.threads[i]? = some th)
      (call : th.InCall) (fails : th.Fails cfg a f) : Ends cfg s a (.fault f)

/-- `Moves cfg s a t`: all that an action can do. -/
inductive Moves (cfg : Config) (s : DNSServer) : ServerAction → DNSServer → Prop
  | receive {datagram : List Byte} {client : Client} {address : Nat} {buffer : Packet}
      (h : datagram.length ≤ maxDnsPacketLength) (here : s.receiver = .waiting)
      (running : s.isRunning = true) (fresh : address ∉ s.allocated) :
      Moves cfg s (.receive datagram client address buffer) { s with
        receiver := .received ⟨address, datagram, h, buffer, client⟩
        allocated := address :: s.allocated }
  | nothing {a : ServerAction} (outside : a.internal = false) : Moves cfg s a s
  | push {r : DNSRequest} (here : s.receiver = .received r) : Moves cfg s .push { s with
      requestQueue := s.requestQueue ++ [r]
      pushed := s.pushed ++ [r]
      receiver := .pushed }
  | release (here : s.receiver = .pushed) : Moves cfg s .release { s with
      requestSemaphore := s.requestSemaphore + 1
      receiver := .waiting }
  | leave (here : s.receiver = .waiting) (stopped : s.isRunning = false) :
      Moves cfg s .leave { s with receiver := .done }
  | stopRunning : Moves cfg s .stopRunning { s with isRunning := false }
  | setQuit (stopped : s.isRunning = false) : Moves cfg s .setQuit { s with quitEvent := true }
  | goes {i : Nat} {th th' : Thread} {a : ServerAction} (hi : s.threads[i]? = some th)
      (own : a.thread = some i) (goes : Goes cfg s th a th') : Moves cfg s a (s.put i th')
  | freed {i : Nat} {th : Thread} {r : DNSRequest} (hi : s.threads[i]? = some th)
      (cleans : th.Cleans) (hr : th.request = some r) (live : r.address ∈ s.allocated) :
      Moves cfg s (.clean i)
        { s.put i { th with place := .waiting, worker := th.worker.clean } with
          allocated := s.allocated.erase r.address }
  | cleaned {i : Nat} {th : Thread} (hi : s.threads[i]? = some th) (cleans : th.Cleans)
      (hr : th.request = none) :
      Moves cfg s (.clean i) (s.put i { th with place := .waiting, worker := th.worker.clean })
  | waited {i : Nat} {th : Thread} (hi : s.threads[i]? = some th) (here : th.place = .waiting)
      (unit : 0 < s.requestSemaphore) :
      Moves cfg s (.wait i) { s.put i { th with place := .checking } with
        requestSemaphore := s.requestSemaphore - 1 }
  | took {i : Nat} {th : Thread} {r : DNSRequest} {rest : List DNSRequest}
      (hi : s.threads[i]? = some th) (here : th.place = .taking)
      (first : s.requestQueue = r :: rest) :
      Moves cfg s (.take i) { s.put i { th with place := .serving, request := some r } with
        requestQueue := rest
        taken := s.taken ++ [(i, r)] }
  | served {i : Nat} {th : Thread} {r : DNSRequest} {t : Turn} {w : Worker} {bytes : List Byte}
      (hi : s.threads[i]? = some th) (here : th.place = .serving) (hr : th.request = some r)
      (datagram : t.datagram = r.datagram) (buffer : t.buffer = r.buffer)
      (serve : th.worker.serve cfg t = .ok (w, bytes)) :
      Moves cfg s (.serve i t) { s.put i { th with place := .head, worker := w } with
        replies := s.replies ++ [⟨i, r, bytes⟩] }
  | ends {a : ServerAction} {m : Mishap} (inside : a.internal = true) (h : Ends cfg s a m) :
      Moves cfg s a { s with ended := some m }

section Inversion

variable {cfg : Config} {s t : DNSServer} {i : Nat} {th : Thread} {a : ServerAction}

theorem moves_of_receiverStep (h : s.receiverStep a = some t) : Moves cfg s a t := by
  cases a with
  | receive datagram client address buffer =>
    simp only [receiverStep, Option.ite_none_right_eq_some] at h
    obtain ⟨⟨here, running, fresh⟩, h⟩ := h
    split at h
    · cases h
      exact .receive _ here running fresh
    · cases h
      exact .nothing rfl
  | receiveFails =>
    simp only [receiverStep, Option.ite_none_right_eq_some, Option.some.injEq] at h
    obtain ⟨_, rfl⟩ := h
    exact .nothing rfl
  | push =>
    simp only [receiverStep] at h
    split at h
    · rename_i r here
      cases h
      exact .push here
    · cases h
  | release =>
    simp only [receiverStep, Option.ite_none_right_eq_some, Option.some.injEq] at h
    obtain ⟨here, rfl⟩ := h
    exact .release here
  | leave =>
    simp only [receiverStep, Option.ite_none_right_eq_some, Option.some.injEq] at h
    obtain ⟨⟨here, stopped⟩, rfl⟩ := h
    exact .leave here (eq_false_of_ne_true stopped)
  | stopRunning =>
    cases h
    exact .stopRunning
  | setQuit =>
    simp only [receiverStep, Option.ite_none_left_eq_some, Option.some.injEq] at h
    obtain ⟨stopped, rfl⟩ := h
    exact .setQuit (eq_false_of_ne_true stopped)
  | loop | cache | clean | wait | check | take | serve => cases h

/-- A call that does not return leaves the thread hanging, or ends the process. -/
theorem moves_faulted {serving : Bool} {f : Fault} (hi : s.threads[i]? = some th)
    (own : a.thread = some i) (call : th.InCall) (fails : th.Fails cfg a f)
    (hung : f = .hang → Goes cfg s th a { th with place := .hung serving }) :
    Moves cfg s a (s.faulted i th serving f) := by
  cases f with
  | hang => exact .goes hi own (hung rfl)
  | invalidParameter | outOfBounds | badRData =>
    exact .ends (ServerAction.internal_of_thread own) (.fault hi call fails)

/-- A call that uses the packet, unless the packet has been freed. -/
theorem moves_touches {u : DNSServer} (hi : s.threads[i]? = some th) (own : a.thread = some i)
    (call : th.InCall) (next : Moves cfg s a u) : Moves cfg s a (s.touches th.request u) := by
  unfold touches
  cases hr : th.request with
  | none => exact next
  | some r =>
    rw [Option.any_some]
    split
    · rename_i freed
      exact .ends (ServerAction.internal_of_thread own)
        (.useAfterFree hi call hr (of_decide_eq_true freed))
    · exact next

theorem moves_of_threadStep (hi : s.threads[i]? = some th) (ha : a.thread = some i)
    (h : s.threadStep cfg i th a = some t) : Moves cfg s a t := by
  cases a with
  | loop j =>
    simp only [threadStep, Option.ite_none_right_eq_some, Option.some.injEq] at h
    obtain ⟨here, rfl⟩ := h
    refine .goes hi ha ?_
    split
    · rename_i go
      exact .begun here go
    · rename_i stop
      obtain ⟨stopped, empty⟩ := not_or.mp stop
      exact .left here (eq_false_of_ne_true stopped) (not_not.mp empty)
  | cache j turn =>
    simp only [threadStep, Option.ite_none_right_eq_some, Option.some.injEq] at h
    obtain ⟨⟨here, due⟩, rfl⟩ := h
    refine moves_touches hi ha (.inl ⟨here, due⟩) ?_
    cases hc : th.worker.caching cfg turn with
    | error f =>
      have fails : th.Fails cfg (.cache j turn) f :=
        .caching here due (congrArg (Except.map Prod.fst) hc)
      exact moves_faulted hi ha (.inl ⟨here, due⟩) fails
        fun hang => .hungCaching here due (hang ▸ fails)
    | ok r =>
      obtain ⟨w, threw⟩ := r
      have cache : th.worker.cache cfg turn = .ok w := congrArg (Except.map Prod.fst) hc
      cases threw with
      | false => exact .goes hi ha (.cached here due cache)
      | true => exact .goes hi ha (.threw here due cache)
  | clean j =>
    cases ha
    simp only [threadStep, Option.ite_none_right_eq_some, Option.some.injEq] at h
    obtain ⟨place, rfl⟩ := h
    have cleans : th.Cleans := by simpa [Thread.Cleans] using place
    unfold frees
    split
    · rename_i hr
      exact .cleaned hi cleans hr
    · rename_i r hr
      split
      · rename_i live
        exact .freed hi cleans hr live
      · rename_i freed
        exact .ends rfl (.doubleFree hi cleans hr freed)
  | wait j =>
    obtain rfl := Option.some.inj ha
    simp only [threadStep, Option.ite_none_right_eq_some] at h
    obtain ⟨here, h⟩ := h
    split at h
    · rename_i unit
      cases h
      exact .waited hi here unit
    · rename_i none
      simp only [Option.ite_none_right_eq_some, Option.some.injEq] at h
      obtain ⟨quit, rfl⟩ := h
      exact .goes hi ha (.quit here (Nat.eq_zero_of_not_pos none) quit)
  | check j =>
    simp only [threadStep, Option.ite_none_right_eq_some, Option.some.injEq] at h
    obtain ⟨here, rfl⟩ := h
    refine .goes hi ha ?_
    split
    · rename_i stop
      exact .broke here (eq_false_of_ne_true stop.1) stop.2
    · rename_i go
      refine .passed here ?_
      cases hr : s.isRunning with
      | true => exact .inl rfl
      | false => exact .inr fun empty => go ⟨by simp [hr], empty⟩
  | take j =>
    cases ha
    simp only [threadStep, Option.ite_none_right_eq_some] at h
    obtain ⟨here, h⟩ := h
    split at h
    · rename_i empty
      cases h
      exact .ends rfl (.emptyQueue hi here empty)
    · rename_i r rest first
      cases h
      exact .took hi here first
  | serve j turn =>
    obtain rfl := Option.some.inj ha
    simp only [threadStep] at h
    split at h
    · cases h
    · rename_i r hr
      simp only [Option.ite_none_right_eq_some, Option.some.injEq] at h
      obtain ⟨⟨here, datagram, buffer⟩, rfl⟩ := h
      rw [← hr]
      refine moves_touches hi ha (.inr here) ?_
      cases hs : th.worker.serve cfg turn with
      | error f =>
        have fails : th.Fails cfg (.serve j turn) f := .serving here hs
        exact moves_faulted hi ha (.inr here) fails fun hang => .hungServing here (hang ▸ fails)
      | ok r' =>
        obtain ⟨w, bytes⟩ := r'
        exact .served hi here hr datagram buffer hs
  | receive | receiveFails | push | release | leave | stopRunning | setQuit => cases h

/-- A step is one of the moves, and the process had not ended before it. -/
theorem moves_of_step (h : step cfg s a = some t) : s.ended = none ∧ Moves cfg s a t := by
  unfold step at h
  split at h
  · cases h
  · rename_i running
    refine ⟨by simpa using running, ?_⟩
    split at h
    · exact moves_of_receiverStep h
    · rename_i i ha
      obtain ⟨th, hi, h⟩ := Option.bind_eq_some_iff.mp h
      exact moves_of_threadStep hi ha h

end Inversion

end DNSServer

end OdbcDns
