import OdbcDns.Proofs.Transactions
import OdbcDns.Proofs.Replies

namespace OdbcDns
open Slice Rfc1035

/-- The row comes from a record of this datagram: whatever is in memory behind
the datagram and on the heap, decoding gives this record. -/
def DecodedFrom (d : List Byte) (now : Rat) (row : Stored) : Prop :=
  ∃ ptr rr after rdata, (∀ uninit rest,
      DNSResourceRecord.decode uninit (d ++ rest) ptr = .ok (rr, after)) ∧
    rr.rdata = some rdata ∧ row = storedRow now rr rdata

/-- The decoding of `n` records from offset `ptr` on depends on the datagram
only, up to the first one that throws, and does nothing undefined. -/
def SelfContained (d : List Byte) : Nat → Nat → Prop
  | 0, _ => True
  | n + 1, ptr => ∃ r, r ≠ .error (.fault .outOfBounds) ∧
      (∀ uninit rest, DNSResourceRecord.decode uninit (d ++ rest) ptr = r) ∧
      ∀ rr after, r = .ok (rr, after) → SelfContained d n after

theorem Spelled.append {d : List Byte} {limit : Nat} {t : PointerLocations} (h : Spelled d limit t)
    (rest : List Byte) : Spelled (d ++ rest) limit t := by
  intro n loc hn
  obtain ⟨name, hname, hlim, hat⟩ := h n loc hn
  have hw := name.length_wire
  exact ⟨name, hname, hlim, At.append hat (List.ne_nil_of_length_pos (by omega))⟩

/-- Answers that are written out in a datagram can be decoded from its bytes. -/
theorem selfContained_answers {d : List Byte} {ptr : Nat} {t : PointerLocations}
    {as : List Answer} (hs : Spelled d ptr t) (h : At d ptr (answerBytes t ptr as))
    (hle : ptr + (answerBytes t ptr as).length ≤ 1024) : SelfContained d as.length ptr := by
  induction as generalizing ptr t with
  | nil => exact trivial
  | cons a as ih =>
    simp only [answerBytes, List.length_append, ← Nat.add_assoc] at h hle
    obtain ⟨hr, hrest⟩ := at_append.mp h
    have hl := length_recordBytes t a
    have hne : recordBytes t a ≠ [] := List.ne_nil_of_length_pos (by omega)
    refine ⟨_, ?_, fun uninit rest =>
      decode_record uninit (At.append hr hne) (hs.append rest) (by omega), fun rr after hrr => ?_⟩
    · split <;> simp [outOfPacket]
    · split at hrr
      · cases hrr
        exact ih (hs.extend hr (by omega)) hrest hle
      · cases hrr

/-- All rows inserted between two states of a connection have `Q`. -/
def Inserts (Q : Stored → Prop) (c c' : Connection) : Prop :=
  ∃ changes, c'.log = c.log ++ changes ∧ ∀ row, .insert row ∈ changes → Q row

theorem Inserts.of_log {Q : Stored → Prop} {c c' : Connection} (h : c'.log = c.log) :
    Inserts Q c c' := ⟨[], by rw [h, List.append_nil], fun _ hr => nomatch hr⟩

theorem Inserts.trans {Q : Stored → Prop} {c c' c'' : Connection} (h : Inserts Q c c')
    (g : Inserts Q c' c'') : Inserts Q c c'' := by
  obtain ⟨xs, hx, hq⟩ := h
  obtain ⟨ys, hy, hq'⟩ := g
  refine ⟨xs ++ ys, by rw [hy, hx, List.append_assoc], fun row hr => ?_⟩
  rcases List.mem_append.mp hr with hr | hr
  · exact hq row hr
  · exact hq' row hr

theorem tracks_inserts (Q : Stored → Prop) : Tracks (fun _ => Q) (Inserts Q) where
  refl _ := .of_log rfl
  trans h h' := h.trans h'
  commit c := .of_log c.log_commit
  delete c name now := by
    refine ⟨(c.expired name now).map .delete, ?_, fun row hr => ?_⟩
    · simp [Connection.log, Connection.deleteExpired]
    · simp at hr
  insert c row now hq := by
    unfold Connection.insertMissing
    split
    · exact .of_log rfl
    · refine ⟨[.insert row], by simp [Connection.log], fun row' hr => ?_⟩
      cases List.mem_singleton.mp hr
      exact hq

/-- The loop of `cacheResponse` decodes rows of the datagram only. -/
theorem SelfContained.decodes {d : List Byte} {n ptr : Nat} (h : SelfContained d n ptr)
    (heap : Nat → Nat → Byte) (rest : List Byte) (i : Nat) :
    ∀ c ∈ decodeCalls heap (d ++ rest) n i ptr, ∀ rr ∈ c.record, ∃ ptr after, ∀ uninit rest,
      DNSResourceRecord.decode uninit (d ++ rest) ptr = .ok (rr, after) := by
  induction n generalizing i ptr with
  | zero => exact List.forall_mem_nil _
  | succ n ih =>
    obtain ⟨r, _, hr, hnext⟩ := h
    cases r with
    | error e =>
      rw [decodeCalls_of_error (hr _ rest), List.forall_mem_singleton]
      exact fun rr hrr => nomatch hrr
    | ok x =>
      obtain ⟨rr, after⟩ := x
      rw [decodeCalls_of_ok (hr _ rest), List.forall_mem_cons]
      refine ⟨fun rr' hrr => ?_, ih (hnext rr after rfl) (i + 1)⟩
      cases hrr
      exact ⟨ptr, after, hr⟩

section Resolve

variable {cfg : Config} {locals : Locals} {lookup : List Byte → List Row} {off packetLen : Nat}
  {queries : List DNSQuery} {info : ResponseInfo} {s : Session}

/-- Where every question has an address, or recursion is not desired, nothing is
relayed. -/
theorem resolveLoop_held (hr : 12 ≤ off)
    (h : rd s.packet.bytes = true → Held lookup queries) :
    Act.Ends (fun _ => True) (fun info' _ => info'.recursionOccurred = info.recursionOccurred)
      (resolveLoop cfg locals lookup off packetLen queries info s) := by
  induction queries generalizing info s with
  | nil => exact rfl
  | cons query queries ih =>
    rw [resolveLoop_cons]
    split
    · rename_i hA
      have never : rd s.packet.bytes = true → (∀ row ∈ lookup query.qname, row.type ≠ typeA) →
          ∀ u, Stays s u → Act.Ends (fun _ => True) (fun _ _ => False)
            (recursiveResolve cfg packetLen u) := by
        intro hrd hno
        obtain ⟨_, row, hrow, ht⟩ := h hrd query (.head _)
        exact absurd ht (hno row hrow)
      refine .bind (resolveA_stays cfg locals (.all s) hr never) fun r t ht => ?_
      obtain ⟨len, info'⟩ := r
      rcases ht with ⟨ht, _, hrec⟩ | ⟨hf, _⟩
      · refine (ih fun hrd q hq => h (ht.rd ▸ hrd) q (.tail _ hq)).mono fun info'' _ hi => ?_
        exact hi.trans hrec
      · exact hf.elim
    · rename_i hA
      rw [Act.bind_of_ok (Act.get_apply s)]
      split
      · rename_i hrd
        exact absurd (h hrd query (.head _)).1 hA
      · exact rfl

/-- Without a recursive server the header is never touched. -/
theorem resolveLoop_noServer (hs : cfg.noServer = true) (hr : 12 ≤ off) :
    Act.Ends (fun _ => True) (fun _ t => Stays s t)
      (resolveLoop cfg locals lookup off packetLen queries info s) := by
  induction queries generalizing info s with
  | nil => exact .refl s
  | cons query queries ih =>
    rw [resolveLoop_cons]
    split
    · exact .bind (resolveA_noServer locals hs hr) fun _ _ ht => ih.mono fun _ _ hv => ht.trans hv
    · rw [Act.bind_of_ok (Act.get_apply s)]
      split
      · rw [Act.bind_of_ok (recursiveResolve_of_noServer hs _ s)]
        exact .refl s
      · exact .refl s

variable {t : Session}

theorem resolve_held (hr : 12 ≤ off) (h : rd s.packet.bytes = true → Held lookup s.queries)
    (hx : resolve cfg locals lookup off packetLen s = (.ok info, t)) :
    info.recursionOccurred = false :=
  (resolveLoop_held hr h).of_ok (show resolveLoop _ _ _ _ _ _ _ s = _ from hx)

theorem resolve_noServer (hs : cfg.noServer = true) (hr : 12 ≤ off)
    (hx : resolve cfg locals lookup off packetLen s = (.ok info, t)) : Stays s t :=
  (resolveLoop_noServer hs hr).of_ok (show resolveLoop _ _ _ _ _ _ _ s = _ from hx)

/-- With one question, a reply was relayed if `recursiveResolve` has returned
last, and its result is the length. -/
theorem resolve_relayed {query : DNSQuery} (hq : s.queries = [query]) (hr : 12 ≤ off)
    (hx : resolve cfg locals lookup off packetLen s = (.ok info, t))
    (hrec : info.recursionOccurred = true) : info.truncationOccurred = false ∧
      ∃ u, Stays s u ∧ recursiveResolve cfg packetLen u = (.ok info.length, t) := by
  have last : ∀ u : Session, Stays s u → Act.Ends (fun _ => True)
      (fun n t => ∃ u, Stays s u ∧ recursiveResolve cfg packetLen u = (.ok n, t))
      (recursiveResolve cfg packetLen u) :=
    fun u hu => (Act.Ends.self _).mono fun _ _ ht => ⟨u, hu, ht⟩
  have ends : Act.Ends (fun _ => True) (fun info' t => info'.recursionOccurred = true →
      info'.truncationOccurred = false ∧
        ∃ u, Stays s u ∧ recursiveResolve cfg packetLen u = (.ok info'.length, t))
      (resolve cfg locals lookup off packetLen s) := by
    unfold resolve
    rw [Act.bind_of_ok (Act.get_apply s), hq]
    rw [resolveLoop_cons]
    split
    · refine .bind (resolveA_stays cfg locals (.all s) hr fun _ _ => last) fun r t ht hrec => ?_
      rcases ht with ⟨_, _, hno⟩ | ⟨ht, _, hflag⟩
      · exact absurd (hno.symm.trans hrec) Bool.false_ne_true
      · exact ⟨hflag, ht⟩
    · rw [Act.bind_of_ok (Act.get_apply s)]
      split
      · exact .bind (last s (.refl s)) fun _ _ ht _ => ⟨rfl, ht⟩
      · exact fun hrec => absurd hrec Bool.false_ne_true
  exact ends.of_ok hx hrec

end Resolve

/-- The reply that a request is going to be answered with, if it has the right id,
can be decoded from its own bytes. -/
def ReplyContained (w : Worker) (t : Turn) (query : DNSQuery) : Prop :=
  ∀ d rest, (w.opening t).available = d :: rest → d.length ≤ 512 →
    (2 ≤ d.length → idOf d = idOf t.datagram) →
    12 ≤ d.length ∧ SelfContained d (ancount d) (12 + query.length)

/-- A turn after which nothing but a reply to its request can be cached. Its questions are
read without anything undefined, and they make the parser throw or hang; or they do not need
the recursive server; or there is none and the request carries no answers; or there is one
question and the reply is contained in its datagram. -/
def Traceable (cfg : Config) (w : Worker) (t : Turn) : Prop :=
  t.Defined ∧ (t.parsed.2 ≠ none ∨ 12 ≤ t.datagram.length ∧
    ((rd t.datagram = true → Held t.lookup t.parsed.1) ∨
      cfg.noServer = true ∧ ancount t.datagram = 0 ∨
      cfg.noServer = false ∧ ∃ query, t.parsed.1 = [query] ∧ ReplyContained w t query))

/-- What is to be cached after a turn: a packet without answers, or the datagram
that was received in it. -/
inductive ToCache (w : Worker) (t : Turn) (w' : Worker) : Prop where
  | nothing (p : Packet) (packet : w'.packet = some p) (count : ancount p.bytes = 0)
  | reply (p : Packet) (d rest : List Byte) (packet : w'.packet = some p)
      (bytes : p.bytes = d ++ rest) (received : (w.opening t).available = d :: w'.socket.inbox)
      (carries : Carries t.datagram d) (header : 12 ≤ d.length)
      (contained : SelfContained d (ancount d) (sizeAdd headerLength w'.queryBytes))

/-- The row, cached at the start of the turn `t'`, was decoded from the datagram that was
received for the request of the turn `t` before, and that has its id. -/
def Origin (w : Worker) (t : Turn) (w' : Worker) (t' : Turn) (row : Stored) : Prop :=
  ∃ d i, (w.opening t).available = d :: w'.socket.inbox ∧ Carries t.datagram d ∧
    DecodedFrom d (t'.executions i).insertNow row

theorem ToCache.inserts {cfg : Config} {w w₁ w₂ : Worker} {t t' : Turn}
    (h : w₁.due = true → ToCache w t w₁) (hc : w₁.cache cfg t' = .ok w₂) :
    Inserts (Origin w t w₁ t') w₁.connection w₂.connection := by
  cases due : w₁.due with
  | false =>
    rw [Worker.cache_idle cfg t' due] at hc
    cases hc
    exact .of_log rfl
  | true =>
    obtain ⟨p, hp⟩ : ∃ p, w₁.packet = some p := by
      cases h due with
      | nothing p hp | reply p _ _ hp => exact ⟨p, hp⟩
    have cached : Inserts (Origin w t w₁ t') (w₁.shared t')
        (cacheResponse cfg t'.executions t'.heap (sizeAdd headerLength w₁.queryBytes)
          (ancount p.bytes) (w₁.cachingSession t' p)).2.connection := by
      refine ((tracks_inserts (Origin w t w₁ t')).cacheResponse cfg t'.executions t'.heap _ _ ?_).1
      show ∀ c ∈ decodeCalls t'.heap p.bytes _ 0 _, _
      cases h due with
      | nothing p' hp' hcount =>
        cases hp.symm.trans hp'
        rw [hcount]
        exact List.forall_mem_nil _
      | reply p' d rest hp' hbytes hrec hid hhead hcont =>
        cases hp.symm.trans hp'
        have hcount : ancount p.bytes = ancount d := by
          rw [hbytes]
          exact ancount_of_take_eq (n := d.length) (by simp) (by omega)
        rw [hcount, hbytes]
        intro c hc rr hrr rdata hr
        obtain ⟨ptr, after, hd⟩ := hcont.decodes t'.heap rest 0 c hc rr hrr
        exact ⟨d, c.number, hrec, hid, ptr, rr, after, rdata, hd, hr, rfl⟩
    rw [Worker.cache_of_due cfg due hp] at hc
    split at hc
    · cases hc
    · rename_i s hx
      cases hc
      rw [hx] at cached
      exact (Inserts.of_log rfl).trans cached

/-- The packet that a turn leaves to be cached is the one that `resolve` has left. -/
theorem answered_packet {cfg : Config} {g : Worker.Stage} {s : Session} {info : ResponseInfo}
    (hrec : info.recursionOccurred = true) : (Worker.answered cfg g s info).session.packet =
      if info.truncationOccurred then s.packet.setTc else s.packet := by
  unfold Worker.answered
  simp only [hrec, if_true]

theorem ancount_setTc (p : Packet) : ancount p.setTc.bytes = ancount p.bytes := by
  unfold ancount Packet.setTc
  rw [p.byteAt_set (by decide), p.byteAt_set (by decide), if_neg (by decide), if_neg (by decide)]

section Due

variable {cfg : Config} {t : Turn} {w w' : Worker} {qs : List DNSQuery} {s : Session}

/-- Without a recursive server the packet has the answers of the request. -/
theorem toCache_noServer {p : Packet} {info : ResponseInfo} (h12 : 12 ≤ t.datagram.length)
    (hs : Stays (w.extracted t qs) s) (hp : w'.packet = some p)
    (hpacket : p = if info.truncationOccurred then s.packet.setTc else s.packet)
    (hcount : ancount t.datagram = 0) : ToCache w t w' := by
  refine .nothing p hp ?_
  have hsame : ancount p.bytes = ancount s.packet.bytes := by
    rw [hpacket]
    split
    · exact ancount_setTc _
    · rfl
  rw [hsame, ancount_of_take_eq hs.header (by decide), ← hcount]
  exact ancount_of_take_eq (take_ofDatagram t.received t.buffer) (by omega)

/-- With one, it is the datagram that was received. -/
theorem toCache_relayed {u : Session} {n packetLen : Nat} {query : DNSQuery}
    (h12 : 12 ≤ t.datagram.length) (hs : cfg.noServer = false) (hu : Stays (w.extracted t qs) u)
    (hr : recursiveResolve cfg packetLen u = (.ok n, s)) (hp : w'.packet = some s.packet)
    (hsocket : w'.socket = s.socket)
    (hbytes : sizeAdd headerLength w'.queryBytes = 12 + query.length)
    (hc : ReplyContained w t query) : ToCache w t w' := by
  obtain ⟨_, _, d, rest, ha, hd, rfl, hid, _⟩ := recursiveResolve_ok hs hr
  have havail : (w.opening t).available = d :: rest := by
    rw [← ha, hu.available]
    rfl
  have hpacket : ((u.forwarded packetLen).received d rest).packet = .ofDatagram d u.packet := by
    rw [Session.received, take_maxDnsPacketLength hd]
    rfl
  have hid' : 2 ≤ d.length → idOf d = idOf t.datagram := by
    intro h2
    rw [← idOf_ofDatagram h2 hd u.packet, ← hpacket, hid, hu.idOf]
    exact idOf_ofDatagram (by omega) t.received t.buffer
  obtain ⟨hhead, hcont⟩ := hc d rest havail hd hid'
  refine .reply _ d (u.packet.bytes.drop d.length) hp ?_ ?_ ⟨by omega, hid' (by omega)⟩ hhead ?_
  · rw [hpacket]
    exact ofDatagram_bytes hd u.packet
  · rw [havail, hsocket]
    rfl
  · rw [hbytes]
    exact hcont

end Due

/-- A traceable turn leaves its own reply, if anything, to be cached. -/
theorem Worker.serve_due {cfg : Config} {t : Turn} {w w' : Worker} {reply : List Byte}
    (h : w.serve cfg t = .ok (w', reply)) (hq : w.queries = []) (due : w'.due = true)
    (ok : Traceable cfg w t) : ToCache w t w' := by
  obtain ⟨g, g', info, hg, hr, rfl, rfl⟩ := Worker.serve_ok h
  obtain ⟨herr, hrec⟩ : (g'.error || t.sendFails) = false ∧ info.recursionOccurred = true := by
    simpa [Worker.due, Worker.served] using due
  rcases Worker.respond_ok hr with ⟨e, s, _, hf, _⟩ | ⟨s, hx, rfl⟩
  · rw [Worker.failed_ok hf] at herr
    cases herr
  · have hg0 : g.error = false := (Bool.or_eq_false_iff.mp herr).1
    obtain ⟨hnone, rfl⟩ := Worker.extract_ok hg hg0
    have h12 : 12 ≤ sizeAdd headerLength (t.parsed.1.map DNSQuery.length).sum := by
      rw [t.sizeAdd_parsed]
      exact Nat.le_add_right 12 _
    have hqueries := Worker.queries_extracted hq t t.parsed.1
    rcases ok.2 with hbad | ⟨hhead, hheld | ⟨hs, hcount⟩ | ⟨hs, query, hone, hc⟩⟩
    · exact absurd hnone hbad
    · have hrd : rd (w.extracted t t.parsed.1).packet.bytes = rd t.datagram :=
        rd_of_take_eq (take_ofDatagram t.received t.buffer) (by omega)
      have hno := resolve_held h12 (by rw [hqueries, hrd]; exact hheld) hx
      exact absurd (hno.symm.trans hrec) Bool.false_ne_true
    · exact toCache_noServer hhead (resolve_noServer hs h12 hx) rfl (answered_packet hrec) hcount
    · obtain ⟨hflag, u, hu, hrr⟩ := resolve_relayed (hqueries.trans hone) h12 hx hrec
      refine toCache_relayed hhead hs hu hrr ?_ rfl ?_ hc
      · refine congrArg some ((answered_packet hrec).trans ?_)
        rw [hflag]
        rfl
      · refine t.sizeAdd_parsed.trans ?_
        rw [hone]
        simp

theorem Worker.turn_inserts {cfg : Config} {w w₁ w₂ : Worker} {t t' : Turn} {reply : List Byte}
    (ok : Traceable cfg w t) (h : w.turn cfg t = .ok (w₁, reply))
    (hc : w₁.cache cfg t' = .ok w₂) :
    Inserts (Origin w t w₁ t') w₁.connection w₂.connection := by
  obtain ⟨c, _, hs⟩ := Worker.turn_ok h
  refine ToCache.inserts (fun due => ?_) hc
  cases Worker.serve_due hs rfl due ok with
  | nothing p hp hcount => exact .nothing p hp hcount
  | reply p d rest hp hb hr hid hh hcont => exact .reply p d rest hp hb hr hid hh hcont

/-- The rows that a run caches: in the first turn they have `Q`, in every later one
they come from the datagram received in the turn before. -/
def Worker.Caches (cfg : Config) : (Turn → Stored → Prop) → List Turn → Worker → Prop
  | _, [], _ => True
  | Q, t :: ts, w =>
    (∀ w', w.cache cfg t = .ok w' → Inserts (Q t) w.connection w'.connection) ∧
      ∀ w' reply, w.turn cfg t = .ok (w', reply) → Caches cfg (Origin w t w') ts w'

theorem Worker.caches_of_traceable {cfg : Config} {Q : Turn → Stored → Prop} {ts : List Turn}
    {w : Worker} (traceable : Worker.Along (Traceable cfg) cfg ts w)
    (first : ∀ t w', w.cache cfg t = .ok w' → Inserts (Q t) w.connection w'.connection) :
    w.Caches cfg Q ts := by
  induction ts generalizing w Q with
  | nil => exact trivial
  | cons t ts ih =>
    exact ⟨first t, fun w' reply ht => ih (traceable.2 w' reply ht)
      fun _ _ hc => Worker.turn_inserts traceable.1 ht hc⟩

/-- A worker that has nothing to cache leaves the connection as it is. -/
theorem Worker.cache_of_not_due {cfg : Config} {t : Turn} {w w' : Worker} (h : w.due = false)
    (hc : w.cache cfg t = .ok w') : w'.connection.log = w.connection.log := by
  rw [Worker.cache_idle cfg t h] at hc
  cases hc
  rfl

/-- In a run of a worker with nothing to cache at first, whose turns are all
traceable, every cached row comes from a datagram received for its request. -/
theorem cached_rows_received {cfg : Config} {ts : List Turn} {w : Worker} (idle : w.due = false)
    (traceable : Worker.Along (Traceable cfg) cfg ts w) : w.Caches cfg (fun _ _ => False) ts :=
  Worker.caches_of_traceable traceable fun _ _ hc => .of_log (Worker.cache_of_not_due idle hc)

/-- A relayed reply with one address, and a turn that caches it. -/
def relayedOnce : List Turn :=
  [.asking 7 questionA requestA_short [upstreamReply 1 addressRecord],
    .quiet (request 0 8 0 [questionB]) requestB_short (fun _ => [])]

theorem cached_rows_received_once :
    (Worker.idle.run resolver relayedOnce).toOption.map (fun r => r.1.connection.log) =
      some [.insert ⟨[97], [49, 46, 50, 46, 51, 46, 52], 60, 1, 1⟩] ∧
    Worker.idle.Caches resolver (fun _ _ => False) relayedOnce := by
  have asksA : Asks (request 0 7 1 [questionA]) [questionA] :=
    asks_request 0 7 1 (by decide) (by decide)
  have asksB : Asks (request 0 8 0 [questionB]) [questionB] :=
    asks_request 0 8 0 (by decide) (by decide)
  have answer : At (upstreamReply 1 addressRecord) 19 (answerBytes (singleTable questionA) 19
      [⟨nameA, 1, 60, .address ⟨1, 2, 3, 4⟩⟩]) := by decide
  have contained : SelfContained (upstreamReply 1 addressRecord) 1 19 :=
    selfContained_answers (spelled_single (q := questionA) (by decide)) answer (by decide)
  refine ⟨by decide +kernel, cached_rows_received rfl
    ⟨⟨asksA.defined, .inr ⟨by decide, .inr (.inr ⟨rfl, questionA.query, ?_, ?_⟩)⟩⟩,
      fun _ _ _ => ⟨⟨asksB.defined, .inr ⟨by decide, .inl fun h => ?_⟩⟩, fun _ _ _ => trivial⟩⟩⟩
  · rw [asksA.parsed]
    rfl
  · rintro d rest ha _ _
    cases ha
    exact ⟨by decide, contained⟩
  · exact absurd h (by decide)

/-- A request that carries an answer of its own. -/
def poisoned : Turn :=
  .quiet ([0, 7, 1, 0, 0, 1, 0, 1, 0, 0, 0, 0] ++ questionA.bytes ++ addressRecord) (by decide)
    (fun _ => [])

/-- Without a recursive server the answer of the request itself is cached in the
next turn, though nothing was received. -/
theorem cached_rows_of_client :
    (Worker.idle.opening poisoned).available = [] ∧
    ¬ Worker.idle.Caches ⟨4294967295, false⟩ (fun _ _ => False) [poisoned, poisoned] := by
  have before : (Worker.idle.turn ⟨4294967295, false⟩ poisoned).toOption.map
      (fun r => r.1.connection.log) = some [] := by decide +kernel
  have after : ((Worker.idle.turn ⟨4294967295, false⟩ poisoned).toOption.bind
      (fun r => (r.1.cache ⟨4294967295, false⟩ poisoned).toOption)).map
        (fun w => w.connection.log) =
      some [.insert ⟨[97], [49, 46, 50, 46, 51, 46, 52], 60, 1, 1⟩] := by decide +kernel
  refine ⟨rfl, fun h => ?_⟩
  cases ht : Worker.idle.turn ⟨4294967295, false⟩ poisoned with
  | error f =>
    rw [ht] at before
    cases before
  | ok r =>
    obtain ⟨w₁, reply⟩ := r
    rw [ht] at before after
    cases hc : w₁.cache ⟨4294967295, false⟩ poisoned with
    | error f =>
      simp only [Except.toOption, Option.bind_some, hc] at after
      cases after
    | ok w₂ =>
      simp only [Except.toOption, Option.bind_some, Option.map_some, hc, Option.some.injEq]
        at before after
      obtain ⟨changes, hlog, horigin⟩ := (h.2 w₁ reply ht).1 w₂ hc
      rw [before, after, List.nil_append] at hlog
      obtain ⟨d, _, hd, _⟩ := horigin _ (by rw [← hlog]; exact .head _)
      cases hd

end OdbcDns
