import OdbcDns.Proofs.Matching
import OdbcDns.Proofs.ServerService

namespace OdbcDns

/-! How much a client can make the server send to the recursive server. -/

/-- At most `n` datagrams are sent to the recursive server between two sessions. -/
def SendsUpTo (n : Nat) (s t : Session) : Prop :=
  t.socket.outbox.length ≤ s.socket.outbox.length + n

section Bound

variable {α β : Type} {n m : Nat} {x : Call α}

theorem Offline.sendsUpTo {s t : Session} (h : Offline s t) : SendsUpTo 0 s t := by
  rw [SendsUpTo, h.socket]
  exact Nat.le_refl _

theorem SendsUpTo.mono (h : Act.Always (SendsUpTo n) x) (hle : n ≤ m) :
    Act.Always (SendsUpTo m) x := by
  intro s
  have := h s
  unfold SendsUpTo at this ⊢
  omega

/-- What is sent by two computations, one after the other. -/
theorem SendsUpTo.bind {f : α → Call β} (hx : Act.Always (SendsUpTo n) x)
    (hf : ∀ a, Act.Always (SendsUpTo m) (f a)) : Act.Always (SendsUpTo (n + m)) (x >>= f) := by
  intro s
  have first := hx s
  rw [Act.bind_apply]
  rcases hs : x s with ⟨e | a, t⟩
  · rw [hs] at first
    unfold SendsUpTo at first ⊢
    dsimp only at first ⊢
    omega
  · rw [hs] at first
    have second := hf a t
    unfold SendsUpTo at first second ⊢
    dsimp only at first ⊢
    omega

theorem SendsUpTo.refl (s : Session) : SendsUpTo 0 s s := Nat.le_refl _

end Bound

section Resolve

variable (cfg : Config)

theorem respects_sendsUpTo : Respects cfg (SendsUpTo 0) where
  refl := SendsUpTo.refl
  trans _ _ _ h h' := Nat.le_trans h' h
  driverCall s := (driverCall_offline s).sendsUpTo
  commit s := (commit_offline s).sendsUpTo
  encodeRow row l s := ((respects_offline cfg).encodeRow row l s).sendsUpTo

theorem recursiveResolve_sendsUpTo (packetLen : Nat) :
    Act.Always (SendsUpTo 1) (recursiveResolve cfg packetLen) := by
  intro s
  rw [SendsUpTo, recursiveResolve_socket, Forward.after]
  split
  · exact Nat.le_succ _
  · split
    · exact Nat.le_of_eq List.length_append
    · exact Nat.le_of_eq List.length_append

/-- A question for addresses goes to the recursive server once, if at all. -/
theorem resolveA_sendsUpTo (locals : Locals) (lookup : List Byte → List Row) (query : DNSQuery)
    (responseData : Nat) (info : ResponseInfo) (packetLen : Nat) :
    Act.Always (SendsUpTo 1) (resolveA cfg locals lookup query responseData info packetLen) := by
  have h := respects_sendsUpTo cfg
  rw [resolveA_eq]
  split
  · exact SendsUpTo.mono (.stop h.refl _) (Nat.zero_le 1)
  · refine SendsUpTo.bind (n := 0) (m := 1) h.driverCall fun _ => ?_
    refine SendsUpTo.bind (n := 0) (m := 1) (h.resolveRows _ _) fun l => ?_
    split
    · exact SendsUpTo.mono (.bind h.trans h.commit fun _ => .pure h.refl _) (Nat.zero_le 1)
    · refine SendsUpTo.bind (n := 0) (m := 1) (.get h.refl) fun s => ?_
      split
      · refine SendsUpTo.bind (n := 0) (m := 1) h.commit fun _ => ?_
        exact SendsUpTo.bind (n := 1) (m := 0) (recursiveResolve_sendsUpTo cfg packetLen)
          fun _ => .pure h.refl _
      · exact SendsUpTo.mono (.bind h.trans h.commit fun _ => .pure h.refl _) (Nat.zero_le 1)

theorem resolveLoop_sendsUpTo (locals : Locals) (lookup : List Byte → List Row)
    (responseData packetLen : Nat) (queries : List DNSQuery) (info : ResponseInfo) :
    Act.Always (SendsUpTo queries.length)
      (resolveLoop cfg locals lookup responseData packetLen queries info) := by
  induction queries generalizing info with
  | nil => exact .pure SendsUpTo.refl info
  | cons query queries ih =>
    rw [resolveLoop_cons]
    split
    · have both := SendsUpTo.bind
        (resolveA_sendsUpTo cfg locals lookup query responseData info packetLen)
        fun r => ih { r.2 with length := r.1 }
      exact SendsUpTo.mono both (Nat.le_of_eq (Nat.add_comm _ _))
    · refine SendsUpTo.mono (n := 1) ?_ (Nat.le_add_left _ _)
      refine SendsUpTo.bind (n := 0) (m := 1) (.get SendsUpTo.refl) fun s => ?_
      split
      · exact SendsUpTo.bind (n := 1) (m := 0) (recursiveResolve_sendsUpTo cfg packetLen)
          fun _ => .pure SendsUpTo.refl _
      · exact SendsUpTo.mono (.pure SendsUpTo.refl _) (Nat.zero_le 1)

theorem resolve_sendsUpTo (locals : Locals) (lookup : List Byte → List Row)
    (responseData packetLen : Nat) (s : Session) :
    SendsUpTo s.queries.length s (resolve cfg locals lookup responseData packetLen s).2 := by
  unfold resolve
  rw [Act.bind_of_ok (Act.get_apply s)]
  exact resolveLoop_sendsUpTo cfg locals lookup responseData packetLen _ _ s

end Resolve

/-- The questions that can be read from a packet: as many as its header says, or as many as
there are in its memory. -/
def mostQuestions (p : Packet) : Nat := min (qdcount p.bytes) 202

theorem Turn.length_parsed_le (t : Turn) :
    t.parsed.1.length ≤ mostQuestions (.ofDatagram t.datagram t.buffer) := by
  apply Nat.le_min.mpr
  refine ⟨parseQuestions_count_le _ _ _ _, ?_⟩
  have long := t.five_mul_length_parsed_le
  have short := t.sum_parsed_le
  omega

namespace Worker

variable {cfg : Config} {t : Turn} {w w' : Worker} {reply : List Byte}

/-- The session in which the questions of a request have been extracted. -/
theorem extract_queries {g : Stage} (h : w.clean.extract cfg t = .ok g) :
    g.session.queries = t.parsed.1 ∧ g.session.socket = w.socket := by
  rcases extract_inv h with ⟨e, s, hx, _, rfl⟩ | ⟨n, s, hx, rfl⟩
  · rw [extractQueries_eq] at hx
    obtain ⟨_, rfl⟩ := Prod.mk.inj hx
    exact ⟨rfl, rfl⟩
  · rw [extractQueries_eq] at hx
    obtain ⟨_, rfl⟩ := Prod.mk.inj hx
    exact ⟨rfl, rfl⟩

theorem turn_sends (h : w.turn cfg t = .ok (w', reply)) :
    w'.socket.outbox.length ≤
      w.socket.outbox.length + mostQuestions (.ofDatagram t.datagram t.buffer) := by
  obtain ⟨c, _, served⟩ := turn_ok h
  obtain ⟨g, g', info, extracted, responded, rfl, _⟩ := serve_ok served
  obtain ⟨queries, socket⟩ := extract_queries extracted
  have sent : g'.session.socket.outbox.length ≤
      g.session.socket.outbox.length + g.session.queries.length := by
    have bound := resolve_sendsUpTo cfg t.locals t.lookup (sizeAdd headerLength g.totalBytes)
      (sizeAdd headerLength g.totalBytes) g.session
    rcases respond_ok responded with ⟨e, s, hx, failed, _⟩ | ⟨s, hx, rfl⟩
    · rw [hx] at bound
      rw [failed_ok failed]
      exact bound
    · rw [hx] at bound
      exact bound
  have few := t.length_parsed_le
  rw [queries, socket] at sent
  exact Nat.le_trans sent (Nat.add_le_add_left few _)

theorem run_sends {ts : List Turn} {replies : List (List Byte)}
    (h : w.run cfg ts = .ok (w', replies)) :
    w'.socket.outbox.length ≤ w.socket.outbox.length +
      total (fun t => mostQuestions (.ofDatagram t.datagram t.buffer)) ts := by
  induction ts generalizing w replies with
  | nil =>
    cases h
    exact Nat.le_refl _
  | cons t ts ih =>
    obtain ⟨w₁, reply, rest, first, later, _⟩ := run_cons h
    have := turn_sends first
    have := ih later
    rw [total_cons]
    omega

end Worker

namespace DNSServer

/-- However the threads are interleaved and whatever the network and the driver do, a thread
has sent at most one datagram to the recursive server for each question of the requests that
it has answered, and never more than 202 for one request. -/
theorem upstream_bounded {cfg : Config} {C : DNSServer → ServerAction → Prop}
    {startups : List Startup} {actions : List ServerAction} {s : DNSServer} {i : Nat}
    {u : Startup} {th : Thread} (run : Steps (step cfg) C (start startups) actions s)
    (hu : startups[i]? = some u) (hi : s.threads[i]? = some th) :
    th.worker.socket.outbox.length ≤ u.socket.outbox.length +
      total (fun r => mostQuestions (.ofDatagram r.request.datagram r.request.buffer))
        (s.repliesOf i) := by
  obtain ⟨th', hth, _, turns, w, _, ran, same, kept, _⟩ := followed_of_run run i u hu
  cases hi.symm.trans hth
  have bound := Worker.run_sends ran
  have sums : total (fun t => mostQuestions (.ofDatagram t.datagram t.buffer)) turns =
      total (fun r => mostQuestions (.ofDatagram r.request.datagram r.request.buffer))
        (s.repliesOf i) := by
    apply total_of_forall₂
    apply same.imp
    intro t r hr
    rw [hr.1, hr.2]
  rw [kept, ← sums]
  exact bound

/-- The request that the first thread has relayed. -/
theorem upstream_bounded_two : ∃ (s : DNSServer) (th : Thread), s.threads[0]? = some th ∧
    th.worker.socket.outbox.length = 1 ∧
    th.worker.socket.outbox.length ≤ 0 +
      total (fun r => mostQuestions (.ofDatagram r.request.datagram r.request.buffer))
        (s.repliesOf 0) := by
  have computed : (follow (step resolver) (fun _ _ => True) (start twoThreads) twoRequests).bind
      (fun s => s.threads[0]?.map (·.worker.socket.outbox.length)) = some 1 := by decide +kernel
  obtain ⟨s, hs, one⟩ := Option.bind_eq_some_iff.mp computed
  obtain ⟨th, hth, one⟩ := Option.map_eq_some_iff.mp one
  have first : twoThreads[0]? = some ⟨⟨[], [], []⟩, ⟨[], []⟩, 0, 0, 0⟩ := rfl
  exact ⟨s, th, hth, one, upstream_bounded (steps_of_follow hs) first hth⟩

end DNSServer

end OdbcDns
