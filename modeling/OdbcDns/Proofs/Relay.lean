import OdbcDns.Proofs.Questions

namespace OdbcDns
open Slice Rfc1035

theorem idOf_ofDatagram {d : List Byte} (h2 : 2 ≤ d.length) (h : d.length ≤ 512) (old : Packet) :
    idOf (Packet.ofDatagram d old).bytes = idOf d := idOf_of_take_eq (take_ofDatagram h old) h2

theorem take_maxDnsPacketLength {d : List Byte} (h : d.length ≤ 512) :
    d.take maxDnsPacketLength = d := List.take_of_length_le h

theorem sizeAdd_sizeSub {a b : Nat} (h : a < 18446744073709551616) :
    sizeAdd b (sizeSub a b) = a := by
  unfold sizeAdd sizeSub toSize
  omega

/-- A datagram carries the id of a request. -/
def Carries (request d : List Byte) : Prop := 2 ≤ d.length ∧ idOf d = idOf request

instance (request d : List Byte) : Decidable (Carries request d) :=
  inferInstanceAs (Decidable (_ ∧ _))

/-- The socket calls of one exchange succeed. -/
structure Exchange.Works (e : Exchange) : Prop where
  send : e.sendError = none
  select : e.selectError = none
  recv : e.recvError = none

/-- The exchange that the next call of `recursiveResolve` meets. -/
def Session.exchange (s : Session) : Exchange := s.exchanges.headD .quiet

/-- The datagrams that can be read during the next call, oldest first. -/
def Session.available (s : Session) : List (List Byte) := s.socket.inbox ++ s.exchange.arrivals

/-- The session once the packet has been sent. -/
def Session.forwarded (s : Session) (packetLen : Nat) : Session :=
  { s with
    socket := ⟨s.available, s.socket.outbox ++ [s.packet.bytes.take (packetLen % 4294967296)]⟩
    exchanges := s.exchanges.tail }

/-- The session once a datagram has been received. -/
def Session.received (s : Session) (d : List Byte) (rest : List (List Byte)) : Session :=
  { s with
    packet := .ofDatagram (d.take maxDnsPacketLength) s.packet
    socket := { s.socket with inbox := rest } }

theorem receiveReply_nil {s : Session} (h : s.socket.inbox = []) (id : List Byte)
    (packetLen : Nat) : receiveReply id packetLen s = (.error (.fault .hang), s) := by
  simp only [receiveReply, Act.bind_apply, Act.get_apply, h, Act.stop_apply]

theorem receiveReply_cons {s : Session} {d : List Byte} {rest : List (List Byte)}
    (h : s.socket.inbox = d :: rest) (id : List Byte) (packetLen : Nat) :
    receiveReply id packetLen s =
      if d.length > maxDnsPacketLength then (.error (.code 10040), s.received d rest)
      else if idOf (s.received d rest).packet.bytes ≠ id then
        (.error (.exception "Recursive response ID mismatch"), s.received d rest)
      else (.ok (sizeSub d.length packetLen), s.received d rest) := by
  simp only [receiveReply, Act.bind_apply, Act.get_apply, h, Act.set_apply]
  split
  · rfl
  · simp only [Act.bind_apply, Act.get_apply]
    split
    · rename_i hid
      exact (if_pos hid).symm
    · rename_i hid
      exact (if_neg hid).symm

theorem recursiveResolve_of_noServer {cfg : Config} (h : cfg.noServer = true) (packetLen : Nat)
    (s : Session) : recursiveResolve cfg packetLen s = (.ok packetLen, s) := by
  unfold recursiveResolve
  rw [if_pos h]
  rfl

/-- With a server, a call whose socket calls succeed sends the packet and reads
one datagram. -/
theorem recursiveResolve_of_works {cfg : Config} {packetLen : Nat} {s : Session}
    (hs : cfg.noServer = false) (hw : s.exchange.Works) (hlen : packetLen % 4294967296 ≤ 1024) :
    recursiveResolve cfg packetLen s =
      receiveReply (idOf s.packet.bytes) packetLen (s.forwarded packetLen) := by
  obtain ⟨h1, h2, h3⟩ := hw
  unfold Session.exchange at h1 h2 h3
  have hl : ¬ packetLen % 4294967296 > packetAllocation := by
    unfold packetAllocation
    omega
  unfold recursiveResolve
  simp only [hs, Bool.false_eq_true, if_false, Act.bind_apply, Act.get_apply, Act.set_apply, h1, hl,
    Act.modify_apply, h2, h3]
  rfl

/-- A call that finds the id on the first datagram returns it. -/
theorem recursiveResolve_of_carries {cfg : Config} {packetLen : Nat} {s : Session} {d : List Byte}
    {rest : List (List Byte)} (hs : cfg.noServer = false) (hw : s.exchange.Works)
    (hlen : packetLen % 4294967296 ≤ 1024) (ha : s.available = d :: rest)
    (hc : Carries s.packet.bytes d) (hd : d.length ≤ 512) :
    recursiveResolve cfg packetLen s =
      (.ok (sizeSub d.length packetLen), (s.forwarded packetLen).received d rest) := by
  have hid : ¬ idOf ((s.forwarded packetLen).received d rest).packet.bytes ≠
      idOf s.packet.bytes := by
    simp only [Session.received, take_maxDnsPacketLength hd, idOf_ofDatagram hc.1 hd, ne_eq,
      Decidable.not_not]
    exact hc.2
  have hfit : ¬ d.length > maxDnsPacketLength := Nat.not_lt.mpr hd
  rw [recursiveResolve_of_works hs hw hlen,
    receiveReply_cons (s := s.forwarded packetLen) ha, if_neg hfit, if_neg hid]

theorem recursiveResolve_of_long {cfg : Config} {packetLen : Nat} {s : Session}
    (hs : cfg.noServer = false) (hw : s.exchange.Works) (hlen : ¬ packetLen % 4294967296 ≤ 1024) :
    (recursiveResolve cfg packetLen s).1 = .error (.fault .outOfBounds) := by
  have h1 := hw.send
  unfold Session.exchange at h1
  have hl : packetLen % 4294967296 > packetAllocation := by
    unfold packetAllocation
    omega
  unfold recursiveResolve
  simp only [hs, Bool.false_eq_true, if_false, Act.bind_apply, Act.get_apply, Act.set_apply, h1, hl,
    if_true, Act.stop_apply]

theorem recursiveResolve_of_sendError {cfg : Config} {packetLen : Nat} {s : Session} {n : Int}
    (hs : cfg.noServer = false) (h : s.exchange.sendError = some n) :
    recursiveResolve cfg packetLen s =
      (.error (.code n), { s with exchanges := s.exchanges.tail }) := by
  unfold Session.exchange at h
  unfold recursiveResolve
  simp only [hs, Bool.false_eq_true, if_false, Act.bind_apply, Act.get_apply, Act.set_apply, h,
    Act.stop_apply]

/-- All other calls stop, with the packet as it was. -/
theorem recursiveResolve_of_fails {cfg : Config} {packetLen : Nat} {s : Session}
    (hs : cfg.noServer = false)
    (hf : ¬ (s.exchange.Works ∧ packetLen % 4294967296 ≤ 1024)) :
    ∃ e s', recursiveResolve cfg packetLen s = (.error e, s') ∧ s'.packet = s.packet ∧
      ((∃ n, e = .code n) ∨ e = .fault .outOfBounds) ∧
      (s' = { s with exchanges := s.exchanges.tail } ∨ s' = s.forwarded packetLen) := by
  unfold recursiveResolve
  simp only [hs, Bool.false_eq_true, if_false, Act.bind_apply, Act.get_apply, Act.set_apply]
  cases h1 : (s.exchanges.headD Exchange.quiet).sendError with
  | some n => exact ⟨_, _, rfl, rfl, .inl ⟨n, rfl⟩, .inl rfl⟩
  | none =>
    by_cases hl : packetLen % 4294967296 > packetAllocation
    · simp only [hl, if_true]
      exact ⟨_, _, rfl, rfl, .inr rfl, .inl rfl⟩
    · simp only [hl, if_false, Act.bind_apply, Act.modify_apply]
      cases h2 : (s.exchanges.headD Exchange.quiet).selectError with
      | some n => exact ⟨_, _, rfl, rfl, .inl ⟨n, rfl⟩, .inr rfl⟩
      | none =>
        cases h3 : (s.exchanges.headD Exchange.quiet).recvError with
        | some n => exact ⟨_, _, rfl, rfl, .inl ⟨n, rfl⟩, .inr rfl⟩
        | none =>
          refine absurd ⟨⟨h1, h2, h3⟩, ?_⟩ hf
          unfold packetAllocation at hl
          omega

/-- A call that returns has sent the packet and has read one datagram, whose id
is that of the packet. -/
theorem recursiveResolve_ok {cfg : Config} {packetLen n : Nat} {s s' : Session}
    (hs : cfg.noServer = false) (h : recursiveResolve cfg packetLen s = (.ok n, s')) :
    s.exchange.Works ∧ packetLen % 4294967296 ≤ 1024 ∧
      ∃ d rest, s.available = d :: rest ∧ d.length ≤ 512 ∧
        s' = (s.forwarded packetLen).received d rest ∧
        idOf s'.packet.bytes = idOf s.packet.bytes ∧ n = sizeSub d.length packetLen := by
  by_cases hf : s.exchange.Works ∧ packetLen % 4294967296 ≤ 1024
  · refine ⟨hf.1, hf.2, ?_⟩
    rw [recursiveResolve_of_works hs hf.1 hf.2] at h
    cases ha : s.available with
    | nil =>
      rw [receiveReply_nil (s := s.forwarded packetLen) ha] at h
      cases h
    | cons d rest =>
      rw [receiveReply_cons (s := s.forwarded packetLen) ha] at h
      split at h
      · cases h
      · rename_i hd
        split at h
        · cases h
        · rename_i hid
          cases h
          exact ⟨d, rest, rfl, Nat.not_lt.mp hd, rfl, Decidable.not_not.mp hid, rfl⟩
  · obtain ⟨e, t, he, _⟩ := recursiveResolve_of_fails hs hf
    rw [he] at h
    cases h

/-- A relation between sessions that every part of `resolve` respects. -/
structure Respects (cfg : Config) (R : Session → Session → Prop) : Prop where
  refl : ∀ s, R s s
  trans : ∀ s t u, R s t → R t u → R s u
  driverCall : Act.Always R driverCall
  commit : Act.Always R commit
  encodeRow : ∀ row l, Act.Always R (encodeRow cfg row l)

namespace Respects

variable {cfg : Config} {R : Session → Session → Prop} (h : Respects cfg R)
include h

theorem resolveRows (rows : List Row) (l : RowLoop) : Act.Always R (resolveRows cfg rows l) := by
  induction rows generalizing l with
  | nil => exact .bind h.trans h.driverCall fun _ => .pure h.refl l
  | cons row rows ih =>
    rw [resolveRows_cons]
    refine .bind h.trans h.driverCall fun _ => ?_
    refine .bind h.trans (h.encodeRow row l) fun r => ?_
    obtain ⟨l', n⟩ := r
    dsimp only
    split
    · exact .pure h.refl _
    · exact ih _

variable {packetLen : Nat} (hr : Act.Always R (recursiveResolve cfg packetLen))
include hr

theorem resolveA (locals : Locals) (lookup : List Byte → List Row) (query : DNSQuery)
    (responseData : Nat) (info : ResponseInfo) :
    Act.Always R (resolveA cfg locals lookup query responseData info packetLen) := by
  rw [resolveA_eq]
  split
  · exact .stop h.refl _
  · refine .bind h.trans h.driverCall fun _ => ?_
    refine .bind h.trans (h.resolveRows _ _) fun l => ?_
    split
    · exact .bind h.trans h.commit fun _ => .pure h.refl _
    · refine .bind h.trans (.get h.refl) fun s => ?_
      split
      · refine .bind h.trans h.commit fun _ => ?_
        exact .bind h.trans hr fun _ => .pure h.refl _
      · exact .bind h.trans h.commit fun _ => .pure h.refl _

theorem resolveLoop (locals : Locals) (lookup : List Byte → List Row) (responseData : Nat)
    (queries : List DNSQuery) (info : ResponseInfo) :
    Act.Always R (resolveLoop cfg locals lookup responseData packetLen queries info) := by
  induction queries generalizing info with
  | nil => exact .pure h.refl info
  | cons query queries ih =>
    rw [resolveLoop_cons]
    split
    · refine .bind h.trans (h.resolveA hr locals lookup query responseData info) fun r => ?_
      obtain ⟨length, info'⟩ := r
      exact ih _
    · refine .bind h.trans (.get h.refl) fun s => ?_
      split
      · exact .bind h.trans hr fun _ => .pure h.refl _
      · exact .pure h.refl _

theorem resolve (locals : Locals) (lookup : List Byte → List Row) (responseData : Nat) :
    Act.Always R (resolve cfg locals lookup responseData packetLen) :=
  .bind h.trans (.get h.refl) fun _ => h.resolveLoop hr locals lookup responseData _ _

end Respects

/-- A row that is encoded changes nothing but the packet and the compression table. -/
theorem encodeRow_always {R : Session → Session → Prop} (refl : ∀ s, R s s)
    (write : ∀ s packet table, R s { s with packet, pointerLocations := table }) (cfg : Config)
    (row : Row) (l : RowLoop) : Act.Always R (encodeRow cfg row l) := by
  intro s
  rcases h : encodeRow cfg row l s with ⟨⟨e⟩ | ⟨l', n⟩, s'⟩
  · rw [(encodeRow_error h).1]
    exact refl s
  · obtain ⟨_, _, _, _, _, _, _, _, _, _, rfl⟩ := encodeRow_inv h
    exact write s _ _

/-- Nothing is exchanged with the network between two sessions, and the
questions stay. -/
structure Offline (s t : Session) : Prop where
  socket : t.socket = s.socket
  exchanges : t.exchanges = s.exchanges
  queries : t.queries = s.queries

theorem Offline.refl (s : Session) : Offline s s := ⟨rfl, rfl, rfl⟩

theorem Offline.trans (s t u : Session) (h : Offline s t) (g : Offline t u) : Offline s u :=
  ⟨g.socket.trans h.socket, g.exchanges.trans h.exchanges, g.queries.trans h.queries⟩

theorem driverCall_offline : Act.Always Offline driverCall := by
  intro s
  rw [driverCall_snd]
  exact ⟨rfl, rfl, rfl⟩

theorem commit_offline : Act.Always Offline commit :=
  .bind Offline.trans driverCall_offline fun _ _ => ⟨rfl, rfl, rfl⟩

theorem respects_offline (cfg : Config) : Respects cfg Offline where
  refl := Offline.refl
  trans := Offline.trans
  driverCall := driverCall_offline
  commit := commit_offline
  encodeRow := encodeRow_always Offline.refl (fun _ _ _ => ⟨rfl, rfl, rfl⟩) cfg

/-- The recursive server 8.8.8.8. -/
def resolver : Config := ⟨134744072, false⟩

/-- A reply with the id and the question section of the request. -/
def replyTo (id : Byte) (q : Question) : List Byte := (request 0 id 1 [q]).set 2 0x81

/-- A request that is passed on, with what arrives on the socket meanwhile. -/
def Turn.asking (id : Byte) (q : Question) (h : (request 0 id 1 [q]).length ≤ 512)
    (arrivals : List (List Byte)) : Turn :=
  { Turn.quiet (request 0 id 1 [q]) h (fun _ => []) with
    exchanges := [⟨none, none, none, arrivals⟩] }

end OdbcDns
