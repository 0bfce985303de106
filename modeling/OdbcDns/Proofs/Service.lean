import OdbcDns.Proofs.CacheRoundTrip
import OdbcDns.Proofs.Descriptions

namespace OdbcDns
open Slice Rfc1035

/-! Requests that a worker can answer, from the cache or with the help of a recursive server
that does its part. Whatever the driver reports while a reply is cached, the worker goes on. -/

/-- The stop is an exception, which `serviceRequests` catches. -/
def Stop.Thrown (e : Stop) : Prop := ∃ m, e = .exception m

/-- From `off` on the message has its answers, of whatever types. All of them can be read, and
described in a log line. -/
structure Storable (cfg : Config) (msg : Message) (off : Nat) (xs : List Layout) : Prop where
  count : ancount msg = xs.length
  laidOut : ∃ next, LaidOut msg off xs next
  readable : ∀ x ∈ xs, x.Readable msg
  described : cfg.infoEnabled = true → ∀ x ∈ xs, x.record.rclass.toNat < 256

section Caching

/-- The computation returns or throws, and leaves the packet alone. -/
def OnlyThrows {α : Type} (x : Call α) : Prop :=
  ∀ s, Act.Ends Stop.Thrown (fun _ t => t.packet = s.packet) (x s)

theorem OnlyThrows.bind {α β : Type} {x : Call α} {f : α → Call β} (hx : OnlyThrows x)
    (hf : ∀ a, OnlyThrows (f a)) : OnlyThrows (x >>= f) := by
  intro s
  apply Act.Ends.bind (hx s)
  intro a t ht
  exact (hf a t).mono fun _ u hu => hu.trans ht

theorem OnlyThrows.pure {α : Type} (a : α) : OnlyThrows (Pure.pure a : Call α) := fun _ => rfl

theorem onlyThrows_driverCall : OnlyThrows driverCall := by
  intro s
  obtain ⟨packet, queries, table, connection, socket, exchanges, driver⟩ := s
  match driver with
  | [] => exact rfl
  | none :: rest => exact rfl
  | some m :: rest => exact ⟨m, rfl⟩

theorem onlyThrows_commit : OnlyThrows commit := .bind onlyThrows_driverCall fun _ _ => rfl

theorem onlyThrows_executeUpdate (f : Connection → Connection) (count : Int) :
    OnlyThrows (executeUpdate f count) := by
  refine .bind onlyThrows_driverCall fun _ => .bind (fun _ => rfl) fun _ => ?_
  exact .bind onlyThrows_driverCall fun _ => .pure _

variable (cfg : Config) {msg : Message} {xs : List Layout}

theorem onlyThrows_cacheRecord (e : Execution) {rr : DNSResourceRecord}
    (described : cfg.infoEnabled = true → ∀ rdata, rr.rdata = some rdata →
      rr.info.type.toNat < 256 ∧ rr.info.rclass.toNat < 256) :
    OnlyThrows (cacheRecord cfg e rr) := by
  cases data : rr.rdata with
  | none =>
    rw [cacheRecord_none cfg e data]
    exact .pure _
  | some rdata =>
    rw [cacheRecord_eq cfg e data]
    apply OnlyThrows.bind (onlyThrows_executeUpdate _ _)
    intro _
    apply OnlyThrows.bind (onlyThrows_executeUpdate _ _)
    intro inserted
    split
    · rename_i logged
      obtain ⟨type, rclass⟩ := described (Bool.and_eq_true_iff.mp logged).2 rdata data
      have line : describe rr.getType rr.getClass = .ok () := describe_ok type rclass
      rw [line]
      exact .pure _
    · exact .pure _

/-- When all answers can be read, only the driver keeps them from being cached. -/
theorem onlyThrows_cacheLoop (executions : Nat → Execution) (heap : Nat → Nat → Byte)
    {off next : Nat} (answers : LaidOut msg off xs next) (readable : ∀ x ∈ xs, x.Readable msg)
    (described : cfg.infoEnabled = true → ∀ x ∈ xs, x.record.rclass.toNat < 256)
    (small : msg.length ≤ 16256) (i : Nat) {s : Session} (here : s.packet.bytes = msg) :
    Act.Ends Stop.Thrown (fun _ t => t.packet = s.packet)
      (cacheLoop cfg executions heap xs.length i off s) := by
  induction answers generalizing s i with
  | nil => exact rfl
  | @cons x xs next head tail ih =>
    obtain ⟨readableFirst, readableRest⟩ := List.forall_mem_cons.mp readable
    obtain ⟨rr, read, info⟩ := (head.ends_iff small (heap i)).mpr readableFirst
    rw [List.length_cons, cacheLoop_succ, here, read]
    have logs : cfg.infoEnabled = true → ∀ rdata, rr.rdata = some rdata →
        rr.info.type.toNat < 256 ∧ rr.info.rclass.toNat < 256 := by
      intro on rdata data
      refine ⟨type_lt_of_decode read data, ?_⟩
      rw [info]
      exact described on x List.mem_cons_self
    apply Act.Ends.bind (onlyThrows_cacheRecord cfg (executions i) logs s)
    intro _ t same
    have rest := ih readableRest (fun on y hy => described on y (List.mem_cons_of_mem _ hy))
      (i + 1) (s := t) (by rw [same, here])
    exact rest.mono fun _ u hu => hu.trans same

theorem onlyThrows_cacheResponse (executions : Nat → Execution) (heap : Nat → Nat → Byte)
    {off : Nat} {s : Session} (storable : Storable cfg s.packet.bytes off xs) :
    Act.Ends Stop.Thrown (fun _ _ => True)
      (cacheResponse cfg executions heap off (ancount s.packet.bytes) s) := by
  obtain ⟨count, ⟨next, laidOut⟩, readable, described⟩ := storable
  have small : s.packet.bytes.length ≤ 16256 := by
    rw [s.packet.size]
    decide
  rw [count, cacheResponse_eq]
  apply Act.Ends.bind (onlyThrows_driverCall s)
  intro _ t same
  apply Act.Ends.bind (onlyThrows_cacheLoop cfg executions heap laidOut readable described small 0
    (congrArg Packet.bytes same))
  intro _ u _
  exact (OnlyThrows.bind onlyThrows_commit (fun _ => onlyThrows_commit) u).mono fun _ _ _ => trivial

end Caching

/-- What a worker has still to cache can be cached. -/
def Worker.Prepared (cfg : Config) (w : Worker) : Prop :=
  w.due = true → ∃ p xs, w.packet = some p ∧
    Storable cfg p.bytes (sizeAdd headerLength w.queryBytes) xs

/-- A request that the worker can answer: it asks for the addresses of a name for which the
cache has them, or it goes to the recursive server, and the one datagram that comes back is a
reply to it. -/
inductive Turn.Serviceable (cfg : Config) (t : Turn) : Prop
  | found {q : Question} {as : List Answer} (asks : Asks t.datagram [q]) (type : q.typeLow = 1)
      (rows : t.lookup q.name.text = as.map Answer.row) (stays : Local as t.datagram)
      (driver : t.driver = []) (room : 12 + q.bytes.length + (singleBytes q as).length ≤ 512)
  | relayed {q : Question} {as : List Answer} {d : List Byte} {xs : List Layout}
      (relays : RelaysOnce cfg .idle t q as d [])
      (storable : Storable cfg (d ++ (unresolved t q as).drop d.length) (12 + q.bytes.length) xs)

/-- The right reply to a request, and what has been sent to the recursive server for it. -/
inductive Turn.Fulfilled (t : Turn) : List Byte → List (List Byte) → Prop
  | found {q : Question} {as : List Answer} {reply : List Byte} (asks : Asks t.datagram [q])
      (rows : t.lookup q.name.text = as.map Answer.row)
      (replied : Replied t.datagram reply q as) : Fulfilled t reply []
  | relayed {q : Question} {d : List Byte} (asks : Asks t.datagram [q])
      (came : (t.exchanges.headD .quiet).arrivals = [d]) (carries : Carries t.datagram d) :
      Fulfilled t d [t.datagram.take (12 + q.bytes.length)]

section Worker

variable {cfg : Config} {w : Worker} {t : Turn}

theorem Worker.Prepared.cache (h : w.Prepared cfg) (t : Turn) :
    ∃ c, w.cache cfg t = .ok { w with connection := c } := by
  cases due : w.due with
  | false => exact ⟨_, Worker.cache_idle cfg t due⟩
  | true =>
    obtain ⟨p, xs, packet, storable⟩ := h due
    have ends := onlyThrows_cacheResponse cfg t.executions t.heap
      (s := w.cachingSession t p) storable
    rw [Worker.cache_of_due cfg due packet]
    rcases result : cacheResponse cfg t.executions t.heap (sizeAdd headerLength w.queryBytes)
        (ancount p.bytes) (w.cachingSession t p) with ⟨e | _, s⟩
    · obtain ⟨m, rfl⟩ := ends.of_error result
      exact ⟨s.connection, rfl⟩
    · exact ⟨s.connection, rfl⟩

/-- A worker whose socket is empty answers such a request, and is ready for the next one. -/
theorem Turn.Serviceable.serve (h : t.Serviceable cfg) (empty : w.socket.inbox = []) :
    ∃ w' reply sent, w.clean.serve cfg t = .ok (w', reply) ∧ t.Fulfilled reply sent ∧
      w'.socket = ⟨[], w.socket.outbox ++ sent⟩ ∧ w'.Prepared cfg := by
  cases h with
  | found asks type rows stays driver room =>
    obtain ⟨w', reply, serves, replied, socket, done, _⟩ :=
      local_reply cfg w asks type rows stays driver room
    refine ⟨w', reply, [], serves, .found asks rows replied, ?_, ?_⟩
    · rw [socket, List.append_nil, ← empty]
    · intro due
      cases due.symm.trans done
  | @relayed q as d xs relays storable =>
    have available : w.available t = [d] := by
      have := relays.available
      simp only [Worker.available, empty] at this ⊢
      exact this
    obtain ⟨w', p, serves, socket, packet, bytes, counted, _, _⟩ :=
      Worker.serve_relays (w := w) { relays with available := available }
    have size : sizeAdd headerLength w'.queryBytes = 12 + q.bytes.length := by
      have := q.length_bytes_le
      rw [counted]
      exact sizeAdd_of_lt (by unfold headerLength; omega)
    refine ⟨w', d, _, serves, .relayed relays.asks relays.available relays.carries, socket, ?_⟩
    intro _
    refine ⟨p, xs, packet, ?_⟩
    rw [size, bytes]
    exact storable

end Worker

end OdbcDns
