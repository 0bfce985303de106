import OdbcDns.Proofs.Relay
import OdbcDns.Proofs.Turns

namespace OdbcDns
open Slice Rfc1035

/-- One recursive request: the packet, the length to be sent, and what the
network does meanwhile. -/
structure Forward where
  packet : Packet
  packetLen : Nat
  exchange : Exchange

namespace Forward

/-- The session of the call, with a socket as earlier calls have left it. -/
def session (f : Forward) (k : Socket) : Session :=
  ⟨f.packet, [], fun _ => none, ⟨[], [], []⟩, k, [f.exchange], []⟩

def call (f : Forward) (cfg : Config) (k : Socket) : Except Stop Nat × Session :=
  recursiveResolve cfg f.packetLen (f.session k)

/-- The query as it goes out. -/
def query (f : Forward) : List Byte := f.packet.bytes.take (f.packetLen % 4294967296)

/-- The datagrams that can be read during the request, oldest first. -/
def available (f : Forward) (k : Socket) : List (List Byte) := k.inbox ++ f.exchange.arrivals

end Forward

/-- The requests of a run, each with the socket as it is before it. -/
def calls (cfg : Config) : List Forward → Socket → List (Forward × Socket)
  | [], _ => []
  | f :: fs, k => (f, k) :: calls cfg fs (f.call cfg k).2.socket

/-- The socket once the requests of a run have been made. -/
def final (cfg : Config) : List Forward → Socket → Socket
  | [], k => k
  | f :: fs, k => final cfg fs (f.call cfg k).2.socket

/-- The socket after a request. -/
def Forward.after (f : Forward) (cfg : Config) (k : Socket) : Socket :=
  if cfg.noServer ∨ f.exchange.sendError.isSome ∨ f.packetLen % 4294967296 > packetAllocation then k
  else if f.exchange.selectError.isSome ∨ f.exchange.recvError.isSome then
    ⟨f.available k, k.outbox ++ [f.query]⟩
  else ⟨(f.available k).tail, k.outbox ++ [f.query]⟩

theorem receiveReply_socket (id : List Byte) (packetLen : Nat) (s : Session) :
    (receiveReply id packetLen s).2.socket = { s.socket with inbox := s.socket.inbox.tail } := by
  cases h : s.socket.inbox with
  | nil =>
    rw [receiveReply_nil h, List.tail_nil, ← h]
  | cons d rest =>
    rw [receiveReply_cons h, List.tail_cons]
    split
    · rfl
    · split <;> rfl

theorem recursiveResolve_socket (cfg : Config) (packetLen : Nat) (s : Session) :
    (recursiveResolve cfg packetLen s).2.socket =
      (⟨s.packet, packetLen, s.exchange⟩ : Forward).after cfg s.socket := by
  unfold recursiveResolve Forward.after Session.exchange Forward.available Forward.query
  cases hs : cfg.noServer with
  | true => simp
  | false =>
    simp only [Bool.false_eq_true, if_false, Act.bind_apply, Act.get_apply, Act.set_apply, false_or]
    obtain ⟨send, select, recv, arrivals⟩ := s.exchanges.headD Exchange.quiet
    cases send with
    | some e => simp
    | none =>
      by_cases hl : packetLen % 4294967296 > packetAllocation
      · simp [hl]
      · cases select with
        | some e => simp [Act.bind_apply, hl]
        | none =>
          cases recv with
          | some e => simp [Act.bind_apply, hl]
          | none => simp [Act.bind_apply, hl, receiveReply_socket]

theorem Forward.call_socket (f : Forward) (cfg : Config) (k : Socket) :
    (f.call cfg k).2.socket = f.after cfg k :=
  recursiveResolve_socket cfg f.packetLen (f.session k)

theorem final_append (cfg : Config) (fs gs : List Forward) (k : Socket) :
    final cfg (fs ++ gs) k = final cfg gs (final cfg fs k) := by
  induction fs generalizing k with
  | nil => rfl
  | cons f fs ih => exact ih _

/-- A part of the program uses the socket by recursive requests only. -/
def Relays (cfg : Config) (s t : Session) : Prop :=
  ∃ fs, t.socket = final cfg fs s.socket

theorem Offline.relays (cfg : Config) {s t : Session} (h : Offline s t) : Relays cfg s t :=
  ⟨[], h.socket⟩

theorem Relays.refl (cfg : Config) (s : Session) : Relays cfg s s := ⟨[], rfl⟩

theorem Relays.trans (cfg : Config) (s t u : Session) (h : Relays cfg s t) (g : Relays cfg t u) :
    Relays cfg s u := by
  obtain ⟨fs, hf⟩ := h
  obtain ⟨gs, hg⟩ := g
  exact ⟨fs ++ gs, by rw [final_append, ← hf, hg]⟩

theorem recursiveResolve_relays (cfg : Config) (packetLen : Nat) :
    Act.Always (Relays cfg) (recursiveResolve cfg packetLen) := by
  intro s
  refine ⟨[⟨s.packet, packetLen, s.exchange⟩], ?_⟩
  rw [recursiveResolve_socket, final, final, Forward.call_socket]

theorem respects_relays (cfg : Config) : Respects cfg (Relays cfg) where
  refl := Relays.refl cfg
  trans := Relays.trans cfg
  driverCall s := (driverCall_offline s).relays cfg
  commit s := (commit_offline s).relays cfg
  encodeRow row l s := ((respects_offline cfg).encodeRow row l s).relays cfg

theorem extractLoop_relays (cfg : Config) (stack : List Byte) (n ptr length : Nat) :
    Act.Always (Relays cfg) (extractLoop cfg stack n ptr length) := by
  have trans := Relays.trans cfg
  induction n generalizing ptr length with
  | zero => exact .pure (Relays.refl cfg) length
  | succ n ih =>
    refine .bind trans (.get (Relays.refl cfg)) fun s => ?_
    refine .bind trans (.lift (Relays.refl cfg) _) fun query => ?_
    refine .bind trans (.lift (Relays.refl cfg) _) fun _ => ?_
    exact .bind trans (fun _ => ⟨[], rfl⟩) fun _ => ih _ _

theorem extractQueries_relays (cfg : Config) (stack : List Byte) :
    Act.Always (Relays cfg) (extractQueries cfg stack) :=
  .bind (Relays.trans cfg) (.get (Relays.refl cfg)) fun _ => extractLoop_relays cfg stack _ _ _

theorem resolve_relays (cfg : Config) (locals : Locals) (lookup : List Byte → List Row)
    (responseData packetLen : Nat) :
    Act.Always (Relays cfg) (resolve cfg locals lookup responseData packetLen) :=
  (respects_relays cfg).resolve (recursiveResolve_relays cfg packetLen) locals lookup responseData

/-- A turn of a worker uses the socket by recursive requests only. -/
theorem Worker.turn_relays {cfg : Config} {t : Turn} {w w' : Worker} {reply : List Byte}
    (h : w.turn cfg t = .ok (w', reply)) : ∃ fs, w'.socket = final cfg fs w.socket := by
  obtain ⟨c, _, hs⟩ := Worker.turn_ok h
  obtain ⟨g, g', info, hg, hr, rfl, _⟩ := Worker.serve_ok hs
  have extracted : ∃ fs, g.session.socket = final cfg fs w.socket := by
    rcases Worker.extract_inv hg with ⟨e, s, hx, _, rfl⟩ | ⟨n, s, hx, rfl⟩
    · exact (extractQueries_relays cfg t.locals.stack).of_eq hx
    · exact (extractQueries_relays cfg t.locals.stack).of_eq hx
  have resolved : ∃ fs, g'.session.socket = final cfg fs g.session.socket := by
    rcases Worker.respond_ok hr with ⟨e, s, hx, hf, _⟩ | ⟨s, hx, rfl⟩
    · have := (resolve_relays cfg t.locals t.lookup _ _).of_eq hx
      rw [Worker.failed_ok hf]
      exact this
    · have := (resolve_relays cfg t.locals t.lookup _ _).of_eq hx
      exact this
  obtain ⟨fs, hfs⟩ := extracted
  obtain ⟨gs, hgs⟩ := resolved
  exact ⟨fs ++ gs, by rw [final_append, ← hfs]; exact hgs⟩

/-- So does a whole run: what holds of all runs of recursive requests holds of
the worker's socket. -/
theorem Worker.run_relays {cfg : Config} {ts : List Turn} {w w' : Worker}
    {replies : List (List Byte)} (h : w.run cfg ts = .ok (w', replies)) :
    ∃ fs, w'.socket = final cfg fs w.socket := by
  induction ts generalizing w replies with
  | nil =>
    cases h
    exact ⟨[], rfl⟩
  | cons t ts ih =>
    obtain ⟨w₁, reply, rest, ht, hrest, rfl⟩ := Worker.run_cons h
    obtain ⟨fs, hfs⟩ := Worker.turn_relays ht
    obtain ⟨gs, hgs⟩ := ih hrest
    exact ⟨fs ++ gs, by rw [final_append, ← hfs, hgs]⟩

theorem forall_calls {cfg : Config} {I : Socket → Prop} {P : Forward → Socket → Prop}
    (step : ∀ f k, I k → P f k → I (f.call cfg k).2.socket) {fs : List Forward} {k : Socket}
    (h0 : I k) (hp : ∀ c ∈ calls cfg fs k, P c.1 c.2) : ∀ c ∈ calls cfg fs k, I c.2 := by
  induction fs generalizing k with
  | nil => simp [calls]
  | cons f fs ih =>
    simp only [calls, List.forall_mem_cons] at hp ⊢
    exact ⟨h0, ih (step f k h0 hp.1) hp.2⟩

/-- If a datagram with the id of the request can be read, the first such one is
returned, and the datagrams in front of it are discarded. -/
def Matched (cfg : Config) (f : Forward) (k : Socket) : Prop :=
  (∃ d ∈ f.available k, Carries f.packet.bytes d) →
    ∃ skipped d rest, f.available k = skipped ++ d :: rest ∧
      (∀ x ∈ skipped, ¬ Carries f.packet.bytes x) ∧ Carries f.packet.bytes d ∧
      (f.call cfg k).1 = .ok (sizeSub d.length f.packetLen) ∧
      (f.call cfg k).2.packet = .ofDatagram d f.packet ∧
      (f.call cfg k).2.socket.inbox = rest

/-- The first datagram that can be read carries the id of the request, and can
be received; or none carries it. -/
def FirstCarries (f : Forward) (k : Socket) : Prop :=
  (∀ d ∈ f.available k, ¬ Carries f.packet.bytes d) ∨
    f.exchange.Works ∧ f.packetLen % 4294967296 ≤ 1024 ∧
      ∃ d rest, f.available k = d :: rest ∧ Carries f.packet.bytes d ∧ d.length ≤ 512

theorem matched_iff {cfg : Config} (hs : cfg.noServer = false) (f : Forward) (k : Socket) :
    Matched cfg f k ↔ FirstCarries f k := by
  constructor
  · intro h
    by_cases hex : ∃ d ∈ f.available k, Carries f.packet.bytes d
    · obtain ⟨skipped, d, rest, ha, _, hc, hok, _, hin⟩ := h hex
      obtain ⟨hw, hlen, d', rest', ha', hd', hs', _, _⟩ :=
        recursiveResolve_ok hs (Act.eq_of_fst hok)
      have hrest : rest' = rest := by
        rw [← hin]
        unfold Forward.call
        rw [hs']
        rfl
      have ha'' : f.available k = d' :: rest := hrest ▸ ha'
      have hskip : skipped = [] := by
        have := congrArg List.length (ha.symm.trans ha'')
        simp at this
        exact this
      subst hskip
      obtain ⟨rfl, _⟩ := List.cons.inj (ha''.symm.trans ha)
      exact .inr ⟨hw, hlen, d', rest, ha'', hc, hd'⟩
    · exact .inl (fun d hd hc => hex ⟨d, hd, hc⟩)
  · rintro (hno | ⟨hw, hlen, d, rest, ha, hc, hd⟩)
    · rintro ⟨d, hd, hc⟩
      exact absurd hc (hno d hd)
    · intro _
      rw [Forward.call, recursiveResolve_of_carries (s := f.session k) hs hw hlen ha hc hd]
      refine ⟨[], d, rest, ha, by simp, hc, rfl, ?_, rfl⟩
      simp only [Session.received, take_maxDnsPacketLength hd]
      rfl

/-- In a run of recursive requests every one is matched with its own reply
exactly if the first datagram it can read carries its id, whenever there is one
that does. -/
theorem all_matched_iff {cfg : Config} (hs : cfg.noServer = false) (fs : List Forward)
    (k : Socket) : (∀ c ∈ calls cfg fs k, Matched cfg c.1 c.2) ↔
      ∀ c ∈ calls cfg fs k, FirstCarries c.1 c.2 :=
  forall₂_congr fun c _ => matched_iff hs c.1 c.2

/-- A request for one name, and what arrives on the socket during it. -/
def forwarding (id : Byte) (q : Question) (arrivals : List (List Byte)) : Forward :=
  ⟨.ofDatagram (request 0 id 1 [q]) ⟨List.replicate 1024 0, length_zeros⟩,
    (request 0 id 1 [q]).length, ⟨none, none, none, arrivals⟩⟩

theorem all_matched_in_turn : resolver.noServer = false ∧
    ∀ c ∈ calls resolver [forwarding 7 questionA [replyTo 7 questionA],
      forwarding 8 questionB [replyTo 8 questionB]] ⟨[], []⟩, Matched resolver c.1 c.2 := by
  refine ⟨by decide, (all_matched_iff (by decide) _ _).mpr ?_⟩
  simp only [calls, List.forall_mem_cons, List.not_mem_nil, false_implies, implies_true, and_true]
  constructor
  · exact .inr ⟨⟨rfl, rfl, rfl⟩, by decide, replyTo 7 questionA, [], rfl, by decide +kernel,
      by decide⟩
  · refine .inr ⟨⟨rfl, rfl, rfl⟩, by decide, replyTo 8 questionB, [], ?_, by decide +kernel,
      by decide⟩
    rw [Forward.available, Forward.call_socket]
    decide +kernel

/-- A request during which a stray datagram arrives before the reply. -/
def strayed : Forward := forwarding 7 questionA [replyTo 9 questionA, replyTo 7 questionA]

/-- The request after it, during which nothing but its reply arrives. -/
def following : Forward := forwarding 8 questionB [replyTo 8 questionB]

theorem not_matched_after_stray :
    (following, (strayed.call resolver ⟨[], []⟩).2.socket) ∈
      calls resolver [strayed, following] ⟨[], []⟩ ∧
    Carries following.packet.bytes (replyTo 8 questionB) ∧
    ¬ Matched resolver following (strayed.call resolver ⟨[], []⟩).2.socket := by
  have hin : following.available (strayed.call resolver ⟨[], []⟩).2.socket =
      [replyTo 7 questionA, replyTo 8 questionB] := by
    rw [Forward.available, Forward.call_socket]
    decide +kernel
  have second : Carries following.packet.bytes (replyTo 8 questionB) := by decide +kernel
  refine ⟨.tail _ (.head _), second, ?_⟩
  rw [matched_iff (by decide)]
  rintro (hno | ⟨_, _, d, rest, ha, hc, _⟩)
  · exact hno _ (by rw [hin]; exact .tail _ (.head _)) second
  · rw [hin] at ha
    cases ha
    revert hc
    decide +kernel

end OdbcDns
