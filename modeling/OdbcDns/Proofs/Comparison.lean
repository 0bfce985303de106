import OdbcDns.Proofs.Replies
import OdbcDns.Proofs.Sizes

namespace OdbcDns
open Slice Rfc1035

/-- The characters at which the parsing of an address stops. -/
def isSeparator (b : Byte) : Bool := b = dot || b = 0

/-- The text of an address row has all its fields. -/
def Row.Legible (row : Row) : Prop := row.type = typeA → 3 ≤ row.value.countP isSeparator

theorem exists_first_separator {text : List Byte} (h : 0 < text.countP isSeparator) :
    ∃ field b rest, text = field ++ b :: rest ∧ (∀ c ∈ field, isSeparator c = false) ∧
      isSeparator b = true := by
  induction text with
  | nil => simp at h
  | cons b text ih =>
    cases hb : isSeparator b with
    | true => exact ⟨[], b, text, rfl, by simp, hb⟩
    | false =>
      rw [List.countP_cons, hb] at h
      obtain ⟨field, b', rest, rfl, hf, hb'⟩ := ih h
      exact ⟨b :: field, b', rest, rfl, by simpa using ⟨hb, hf⟩, hb'⟩

theorem field_eq {field : List Byte} {b : Byte} (hf : ∀ c ∈ field, isSeparator c = false)
    (hb : isSeparator b = true) (rest : List Byte) :
    DNSRDataA.field (field ++ b :: rest) = .ok field := by
  have htake : (field ++ b :: rest).takeWhile (fun c => c ≠ dot && c ≠ 0) = field := by
    rw [List.takeWhile_append_of_pos (fun c hc => by simpa [isSeparator] using hf c hc),
      List.takeWhile_cons_of_neg (by simpa [isSeparator, imp_iff_not_or] using hb), List.append_nil]
  unfold DNSRDataA.field
  rw [htake]
  exact if_pos (by simp)

/-- Reading `n` fields does not go beyond a text with as many separators. -/
theorem parseFields_append {n : Nat} {text : List Byte} (h : n ≤ text.countP isSeparator)
    (rest rest' : List Byte) :
    DNSRDataA.parseFields n (text ++ rest) = DNSRDataA.parseFields n (text ++ rest') := by
  induction n generalizing text with
  | zero => rfl
  | succ n ih =>
    obtain ⟨field, b, text, rfl, hf, hb⟩ :=
      exists_first_separator (Nat.lt_of_lt_of_le n.succ_pos h)
    have hcount : n ≤ text.countP isSeparator := by
      rw [List.countP_append, List.countP_cons, if_pos hb,
        List.countP_eq_zero.mpr (by simpa using hf)] at h
      omega
    have hdrop : ∀ rest, (field ++ b :: (text ++ rest)).drop (field.length + 1) = text ++ rest := by
      simp
    rw [List.append_assoc, List.append_assoc, List.cons_append, List.cons_append,
      DNSRDataA.parseFields, DNSRDataA.parseFields, field_eq hf hb, field_eq hf hb]
    simp only [bind, Except.bind]
    rw [hdrop, hdrop, ih hcount]

/-- What the memory behind its text holds does not matter for a legible row. -/
theorem makeRData_append {row : Row} (h : row.Legible) (rest rest' : List Byte) :
    makeRData row.type (row.value ++ 0 :: rest) = makeRData row.type (row.value ++ 0 :: rest') := by
  unfold makeRData
  split
  · rename_i hA
    have hc : 4 ≤ (row.value ++ [0]).countP isSeparator := by
      have := h hA
      rw [List.countP_append]
      simpa [isSeparator] using this
    have hp := parseFields_append hc rest rest'
    rw [List.append_assoc, List.append_assoc, List.singleton_append, List.singleton_append] at hp
    simp only [DNSRDataA.ofText, strlen, List.mem_append, List.mem_cons, true_or, or_true, if_true,
      cstr_append_zero, hp]
  · rw [cstr_append_zero, cstr_append_zero]

theorem Packet.store_paired (p q : Packet) (off : Nat) (bs : List Byte) :
    Act.Paired (fun _ _ => True) (p.store off bs) (q.store off bs) := by
  have hsize : q.bytes.length = p.bytes.length := q.size.trans p.size.symm
  unfold Packet.store
  by_cases h : off + bs.length ≤ p.bytes.length
  · rw [dif_pos h, dif_pos (hsize ▸ h)]
    exact trivial
  · rw [dif_neg h, dif_neg (hsize ▸ h)]
    exact rfl

/-- Whether and with what length a record is encoded does not depend on what is in
the packet. -/
theorem encode_paired (rr : DNSResourceRecord) (p q : Packet) (off bufLen : Nat)
    (t : PointerLocations) :
    Act.Paired (fun r r' => r'.1 = r.1 ∧ r'.2.2 = r.2.2) (rr.encode p off bufLen t)
      (rr.encode q off bufLen t) := by
  refine .bind (Q := Eq) (.refl fun _ _ => rfl) fun owner _ ho => ?_
  subst ho
  refine .bind (Packet.store_paired p q off owner) fun p q _ => ?_
  cases rr.rdata with
  | none => exact rfl
  | some rdata =>
    refine .bind (Q := Eq) (.refl fun _ _ => rfl) fun data _ hd => ?_
    subst hd
    refine .bind (Packet.store_paired p q _ data) fun p q _ => ?_
    dsimp only
    split
    · exact rfl
    · exact .bind (Packet.store_paired p q _ _) fun _ _ _ => ⟨rfl, rfl⟩

/-- The bytes of a record are the same in every packet. -/
theorem encode_agree {rr rr' rr'' : DNSResourceRecord} {p p' q q' : Packet}
    {off bufLen m n n' : Nat} {t : PointerLocations}
    (hp : rr.encode p off bufLen t = .ok (rr', p', n))
    (hq : rr.encode q off bufLen t = .ok (rr'', q', n')) (he : p.bytes.take m = q.bytes.take m)
    (hoff : off ≤ m) : p'.bytes.take (max m (off + n)) = q'.bytes.take (max m (off + n)) := by
  obtain ⟨owner, rdata, data, ho, hr, hd, hn, hle, hpb⟩ := encode_ok hp
  obtain ⟨owner', rdata', data', ho', hr', hd', _, _, hqb⟩ := encode_ok hq
  cases ho.symm.trans ho'
  cases hr.symm.trans hr'
  cases hd.symm.trans hd'
  have hlen : (owner ++ rr.written data ++ data).length = n := by
    simp only [List.length_append, length_written, hn]
  rw [hpb, hqb, ← hlen]
  refine take_overwrite_congr ?_ ?_ he hoff
  · rw [p.size, hlen]
    exact hle
  · rw [q.size, hlen]
    exact hle

/-- Two sessions that differ in memory behind the first `m` bytes of the packet, in
the connection and in what has been sent, and unless recursion is desired also in
what is left to be received. -/
structure Agree (desired : Prop) (m : Nat) (s t : Session) : Prop where
  bytes : s.packet.bytes.take m = t.packet.bytes.take m
  queries : t.queries = s.queries
  table : t.pointerLocations = s.pointerLocations
  inbox : desired → t.socket.inbox = s.socket.inbox
  exchanges : t.exchanges = s.exchanges
  driver : t.driver = s.driver

/-- Two response infos that differ in their length. -/
def ResponseInfo.Like (i j : ResponseInfo) : Prop := j = { i with length := j.length }

/-- Two states of the loop over the rows that differ in memory. -/
structure RowLoop.Like (l l' : RowLoop) : Prop where
  ptr : l'.ptr = l.ptr
  remLen : l'.remLen = l.remLen
  addresses : l'.numARecords = l.numARecords
  truncated : l'.truncated = l.truncated
  info : l.info.Like l'.info

section Agree

variable {desired : Prop} {m k : Nat} {s t : Session}

theorem Agree.mono (h : Agree desired m s t) (hk : k ≤ m) : Agree desired k s t := by
  refine ⟨?_, h.queries, h.table, h.inbox, h.exchanges, h.driver⟩
  have := congrArg (List.take k) h.bytes
  rwa [List.take_take, List.take_take, Nat.min_eq_left hk] at this

theorem driverCall_alike (h : Agree desired m s t) (hk : k ≤ m) :
    Act.Alike (Agree desired k) (fun _ _ s' t' => Agree desired m s' t') (driverCall s)
      (driverCall t) := by
  obtain ⟨p, _, _, c, ⟨inbox, outbox⟩, _, _⟩ := s
  obtain ⟨p', qs, table, c', ⟨inbox', outbox'⟩, xs, driver⟩ := t
  obtain ⟨hb, rfl, rfl, hin, rfl, rfl⟩ := h
  have next : ∀ rest, Agree desired m ⟨p, qs, table, c, ⟨inbox, outbox⟩, xs, rest⟩
      ⟨p', qs, table, c', ⟨inbox', outbox'⟩, xs, rest⟩ := fun _ => ⟨hb, rfl, rfl, hin, rfl, rfl⟩
  match driver with
  | [] => exact next []
  | none :: rest => exact next rest
  | some _ :: rest => exact ⟨rfl, (next rest).mono hk⟩

theorem commit_alike (h : Agree desired m s t) (hk : k ≤ m) :
    Act.Alike (Agree desired k) (fun _ _ s' t' => Agree desired m s' t') (commit s) (commit t) :=
  .bind (driverCall_alike h hk) fun _ _ _ _ _ ht =>
    ⟨ht.bytes, ht.queries, ht.table, ht.inbox, ht.exchanges, ht.driver⟩

theorem getString_paired (text buf buf' : List Byte) :
    Act.Paired (fun a b => ∃ rest rest', a = text ++ 0 :: rest ∧ b = text ++ 0 :: rest')
      (getString text buf) (getString text buf') := by
  unfold getString
  split
  · exact rfl
  · exact ⟨_, _, overwrite_zero _ _, overwrite_zero _ _⟩

/-- One row of the lookup, in two sessions. -/
theorem encodeRow_alike (cfg : Config) {row : Row} (hrow : row.Legible) {l l' : RowLoop}
    (hl : l.Like l') (h : Agree desired m s t) (hk : k ≤ m) (hp : l.ptr ≤ m) :
    Act.Alike (Agree desired k) (fun r r' s' t' => r.1.Like r'.1 ∧ r'.2 = r.2 ∧ r.1.ptr = l.ptr ∧
        Agree desired (max m (l.ptr + r.2)) s' t')
      (encodeRow cfg row l s) (encodeRow cfg row l' t) := by
  have stay := h.mono hk
  rw [encodeRow_eq, encodeRow_eq]
  refine .lift_bind (P := Eq) (.refl fun _ _ => rfl) stay fun nameBuf _ _ _ hn => ?_
  subst hn
  refine .lift_bind (getString_paired row.value _ _) stay fun _ _ _ _ hv => ?_
  obtain ⟨rest, rest', rfl, rfl⟩ := hv
  rw [makeRData_append hrow rest' rest]
  refine .lift_bind (P := Eq) (.refl fun _ _ => rfl) stay fun rdata _ _ _ hr => ?_
  subst hr
  refine .lift_bind (P := Eq) (.refl fun _ _ => rfl) stay fun _ _ _ _ _ => ?_
  rw [Act.bind_of_ok (Act.get_apply s), Act.bind_of_ok (Act.get_apply t), hl.ptr, hl.remLen,
    h.table]
  refine .lift_bind (encode_paired _ s.packet t.packet _ _ _) stay fun r r' hr hr' hrr => ?_
  obtain ⟨rr, p, n⟩ := r
  obtain ⟨rr', p', n'⟩ := r'
  obtain ⟨rfl, rfl⟩ := hrr
  refine ⟨⟨rfl, rfl, by simp only [hl.addresses], hl.truncated, hl.info⟩, rfl, rfl,
    encode_agree hr hr' h.bytes hp, h.queries, ?_, h.inbox, h.exchanges, h.driver⟩
  simp only [cstr_append_zero]

theorem resolveRows_alike (cfg : Config) {rows : List Row} (hrows : ∀ row ∈ rows, row.Legible)
    {l l' : RowLoop} (hl : l.Like l') (h : Agree desired m s t) (hk : k ≤ m) (hp : l.ptr ≤ m) :
    Act.Alike (Agree desired k) (fun r r' s' t' => r.Like r' ∧ l.ptr ≤ r.ptr ∧
        ∃ m', m ≤ m' ∧ r.ptr ≤ m' ∧ Agree desired m' s' t')
      (resolveRows cfg rows l s) (resolveRows cfg rows l' t) := by
  -- Each record extends the bytes the packets have in common by its own.
  induction rows generalizing l l' m s t with
  | nil =>
    exact .bind (driverCall_alike h hk) fun _ _ _ _ _ ht =>
      ⟨hl, Nat.le_refl _, m, Nat.le_refl m, hp, ht⟩
  | cons row rows ih =>
    rw [resolveRows_cons, resolveRows_cons]
    refine .bind (driverCall_alike h hk) fun _ _ s₁ t₁ _ h₁ => ?_
    refine .bind (encodeRow_alike cfg (hrows row (.head _)) hl h₁ hk hp) fun r r' s₂ t₂ _ h₂ => ?_
    obtain ⟨r, n⟩ := r
    obtain ⟨r', n'⟩ := r'
    obtain ⟨hr, hn, hptr, h₂⟩ := h₂
    dsimp only at hr hn hptr h₂ ⊢
    subst hn
    rw [hr.remLen]
    split
    · refine ⟨⟨hr.ptr, rfl, hr.addresses, rfl, ?_⟩, Nat.le_of_eq hptr.symm,
        _, Nat.le_max_left _ _, by simp only; omega, h₂⟩
      unfold ResponseInfo.Like
      rw [hr.info]
    · refine (ih (fun x hx => hrows x (.tail _ hx)) ?_ h₂ (by omega) (by simp only; omega)).mono ?_
      · refine ⟨by simp only [hr.ptr], rfl, hr.addresses, hr.truncated, ?_⟩
        unfold ResponseInfo.Like
        rw [hr.info]
      · rintro a b u v ⟨hab, hle, m', hm', hpm, huv⟩
        simp only at hle
        exact ⟨hab, by omega, m', by omega, hpm, huv⟩

theorem Agree.idOf (h : Agree desired m s t) (hm : 2 ≤ m) :
    idOf t.packet.bytes = idOf s.packet.bytes := idOf_of_take_eq h.bytes.symm hm

theorem Agree.rd (h : Agree desired m s t) (hm : 3 ≤ m) :
    rd t.packet.bytes = rd s.packet.bytes := rd_of_take_eq h.bytes.symm hm

theorem ofDatagram_agree {p q : Packet} {d : List Byte} (hd : d.length ≤ 512)
    (he : p.bytes.take m = q.bytes.take m) :
    (Packet.ofDatagram d p).bytes.take (max m d.length) =
      (Packet.ofDatagram d q).bytes.take (max m d.length) := by
  have room : ∀ p : Packet, 0 + d.length ≤ p.bytes.length := by
    intro p
    rw [p.size, packetAllocation]
    omega
  have := take_overwrite_congr (room p) (room q) he (Nat.zero_le m)
  unfold Packet.ofDatagram
  rwa [dif_pos (room p), dif_pos (room q), ← Nat.zero_add d.length]

/-- A received datagram is the same in both sessions. -/
theorem Agree.received (h : Agree desired m s t) (d : List Byte) (rest : List (List Byte)) :
    Agree desired (max m (d.take maxDnsPacketLength).length) (s.received d rest)
      (t.received d rest) :=
  ⟨ofDatagram_agree (by rw [List.length_take, maxDnsPacketLength]; omega) h.bytes, h.queries,
    h.table, fun _ => rfl, h.exchanges, h.driver⟩

theorem receiveReply_alike (ha : desired) (h : Agree desired m s t) (hk : k ≤ m) (hm : 2 ≤ m)
    (id : List Byte) (packetLen : Nat) :
    Act.Alike (Agree desired k) (fun n n' s' t' => n' = n ∧
        ∃ m', m ≤ m' ∧ sizeAdd packetLen n ≤ m' ∧ Agree desired m' s' t')
      (receiveReply id packetLen s) (receiveReply id packetLen t) := by
  cases hin : s.socket.inbox with
  | nil =>
    rw [receiveReply_nil hin, receiveReply_nil ((h.inbox ha).trans hin)]
    exact ⟨rfl, h.mono hk⟩
  | cons d rest =>
    have hr := h.received d rest
    rw [receiveReply_cons hin, receiveReply_cons ((h.inbox ha).trans hin), hr.idOf (by omega)]
    split
    · exact ⟨rfl, hr.mono (by omega)⟩
    · rename_i hd
      split
      · exact ⟨rfl, hr.mono (by omega)⟩
      · refine ⟨rfl, _, Nat.le_max_left _ _, ?_, hr⟩
        unfold maxDnsPacketLength at hd
        rw [sizeAdd_sizeSub (by omega), take_maxDnsPacketLength (by omega)]
        exact Nat.le_max_right _ _

/-- Both calls have returned the same length, and all the bytes it covers behind
`off` are the same. -/
def Covered (desired : Prop) (off m n n' : Nat) (s t : Session) : Prop :=
  n' = n ∧ ∃ m', m ≤ m' ∧ min (sizeAdd off n) maxDnsPacketLength ≤ m' ∧ Agree desired m' s t

theorem recursiveResolve_alike {cfg : Config} {packetLen : Nat} (ha : desired)
    (h : Agree desired m s t) (hk : k ≤ m) (hm : 2 ≤ m)
    (hecho : cfg.noServer = true → min (sizeAdd packetLen packetLen) maxDnsPacketLength ≤ m) :
    Act.Alike (Agree desired k) (Covered desired packetLen m)
      (recursiveResolve cfg packetLen s) (recursiveResolve cfg packetLen t) := by
  cases hs : cfg.noServer with
  | true =>
    rw [recursiveResolve_of_noServer hs, recursiveResolve_of_noServer hs]
    exact ⟨rfl, m, Nat.le_refl m, hecho hs, h⟩
  | false =>
    have drop : Agree desired m { s with exchanges := s.exchanges.tail }
        { t with exchanges := s.exchanges.tail } :=
      ⟨h.bytes, h.queries, h.table, h.inbox, rfl, h.driver⟩
    unfold recursiveResolve
    simp only [hs, Bool.false_eq_true, if_false, Act.bind_apply, Act.get_apply, Act.set_apply,
      h.exchanges, h.idOf hm]
    obtain ⟨send, select, recv, arrivals⟩ := s.exchanges.headD Exchange.quiet
    cases send with
    | some e => exact ⟨rfl, drop.mono hk⟩
    | none =>
      dsimp only
      split
      · exact ⟨rfl, drop.mono hk⟩
      · have sent : ∀ out out', Agree desired m
            { s with exchanges := s.exchanges.tail, socket := ⟨s.socket.inbox ++ arrivals, out⟩ }
            { t with
              exchanges := s.exchanges.tail
              socket := ⟨t.socket.inbox ++ arrivals, out'⟩ } := fun _ _ =>
          ⟨h.bytes, h.queries, h.table, fun _ => by simp only [h.inbox ha], rfl, h.driver⟩
        simp only [Act.bind_apply, Act.modify_apply]
        cases select with
        | some e => exact ⟨rfl, (sent _ _).mono hk⟩
        | none =>
          cases recv with
          | some e => exact ⟨rfl, (sent _ _).mono hk⟩
          | none =>
            refine (receiveReply_alike ha (sent _ _) hk hm _ packetLen).mono ?_
            rintro n n' u v ⟨hn, m', hm', hlen, huv⟩
            exact ⟨hn, m', hm', (Nat.min_le_left _ _).trans hlen, huv⟩

theorem resolveA_alike (cfg : Config) (locals locals' : Locals) {lookup : List Byte → List Row}
    {query : DNSQuery} (hrows : ∀ row ∈ lookup query.qname, row.Legible) {off : Nat}
    {i j : ResponseInfo} (hij : i.Like j) (h : Agree desired m s t) (hk : k ≤ m) (hoff : off ≤ m)
    (h12 : 12 ≤ off) (ha : rd s.packet.bytes = true → desired)
    (hecho : cfg.noServer = true → rd s.packet.bytes = true →
      (∀ row ∈ lookup query.qname, row.type ≠ typeA) →
        min (sizeAdd off off) maxDnsPacketLength ≤ m) :
    Act.Alike (Agree desired k)
      (fun r r' s' t' => r.2.Like r'.2 ∧ Covered desired off m r.1 r'.1 s' t')
      (resolveA cfg locals lookup query off i off s)
      (resolveA cfg locals' lookup query off j off t) := by
  have start : RowLoop.Like ⟨off, maxDnsPacketLength - headerLength, 0, locals.valueBuf, i, false⟩
      ⟨off, maxDnsPacketLength - headerLength, 0, locals'.valueBuf, j, false⟩ :=
    ⟨rfl, rfl, rfl, rfl, hij⟩
  rw [resolveA_eq, resolveA_eq]
  split
  · exact ⟨rfl, h.mono hk⟩
  · refine .bind (driverCall_alike h hk) fun _ _ s₁ t₁ hs₁ h₁ => ?_
    refine .bind (resolveRows_alike cfg hrows start h₁ hk hoff) fun l l' s₂ t₂ hs₂ h₂ => ?_
    obtain ⟨hl, hle, m', hm', hp, h₂⟩ := h₂
    have stays := (driverCall_stays (.all s)).of_ok hs₁
    have room : (0 : Int) ≤ maxDnsPacketLength - headerLength := by decide
    obtain ⟨hst, hread⟩ := (resolveRows_stays cfg _ (.all s₁) h12 room).of_ok hs₂
    have answered : Act.Alike (Agree desired k) (fun r r' s' t' => r.2.Like r'.2 ∧
        Covered desired off m r.1 r'.1 s' t')
        ((do commit; pure (l.ptr - off, l.info) : Call (Nat × ResponseInfo)) s₂)
        ((do commit; pure (l'.ptr - off, l'.info) : Call (Nat × ResponseInfo)) t₂) := by
      refine .bind (commit_alike h₂ (by omega)) fun _ _ s₃ t₃ _ h₃ => ?_
      refine ⟨hl.info, by simp only [hl.ptr], m', hm', ?_, h₃⟩
      unfold sizeAdd
      dsimp only at hle ⊢
      omega
    rw [hl.truncated]
    split
    · exact answered
    · rename_i htr
      rw [Act.bind_of_ok (Act.get_apply s₂), Act.bind_of_ok (Act.get_apply t₂), hl.addresses,
        h₂.rd (by omega)]
      split
      · rename_i hno
        have none := hread.no_address rfl (Bool.eq_false_iff.mpr htr) hno.1
        have hrd : rd s.packet.bytes = true := by
          rw [← stays.rd, ← hst.rd]
          exact hno.2
        refine .bind (commit_alike h₂ (by omega)) fun _ _ s₃ t₃ _ h₃ => ?_
        refine .bind (recursiveResolve_alike (ha hrd) h₃ (by omega) (by omega)
          fun hns => (hecho hns hrd none).trans hm') fun n n' s₄ t₄ _ h₄ => ?_
        obtain ⟨hn, m'', hm'', hcov, h₄⟩ := h₄
        refine ⟨?_, hn, m'', by omega, hcov, h₄⟩
        unfold ResponseInfo.Like
        dsimp only
        rw [hl.info]
      · exact answered

/-- Only a datagram that was received can set the flag. -/
theorem resolveA_desired {cfg : Config} {locals : Locals} {lookup : List Byte → List Row}
    {query : DNSQuery} {off packetLen : Nat} {info : ResponseInfo} {r : Nat × ResponseInfo}
    (h12 : 12 ≤ off) (ha : rd s.packet.bytes = true → desired)
    (hx : resolveA cfg locals lookup query off info packetLen s = (.ok r, t))
    (hrd : rd t.packet.bytes = true) : desired := by
  have ends : Act.Ends (fun _ => True) _
      (resolveA cfg locals lookup query off info packetLen s) :=
    resolveA_stays (Q := fun _ _ => desired) cfg locals (.all s) h12
      fun hrd _ _ _ => (Act.Ends.self _).mono fun _ _ _ => ha hrd
  rcases ends.of_ok hx with ⟨stays, _⟩ | ⟨hd, _⟩
  · exact ha (stays.rd ▸ hrd)
  · exact hd

theorem ResponseInfo.Like.resized {i j : ResponseInfo} (h : i.Like j) (n : Nat) :
    { j with length := n } = { i with length := n } := by
  rw [h]

/-- The loop over the questions, in two sessions whose packets have the first `d`
bytes in common. -/
theorem resolveLoop_alike (cfg : Config) (locals locals' : Locals) {lookup : List Byte → List Row}
    {queries : List DNSQuery}
    (hrows : ∀ q ∈ queries, q.qtype = typeA → ∀ row ∈ lookup q.qname, row.Legible)
    {off d : Nat} {i j : ResponseInfo} (hij : i.Like j) (h : Agree desired m s t) (hd : d ≤ m)
    (hoff : off ≤ d) (h12 : 12 ≤ off) (ha : rd s.packet.bytes = true → desired)
    (first : j = i ∧ min (sizeAdd off i.length) maxDnsPacketLength ≤ m ∨
      ∃ q qs, queries = q :: qs ∧ (q.qtype = typeA ∨ rd s.packet.bytes = true))
    (hecho : cfg.noServer = true → rd s.packet.bytes = true → Held lookup queries ∨
      min (sizeAdd off off) maxDnsPacketLength ≤ d) :
    Act.Alike (Agree desired d)
      (fun a b s' t' => b = a ∧ Covered desired off d a.length b.length s' t')
      (resolveLoop cfg locals lookup off off queries i s)
      (resolveLoop cfg locals' lookup off off queries j t) := by
  -- The lengths differ only until the first question has set them, so the infos are
  -- equal from then on; `first` says that there is such a question.
  induction queries generalizing i j m s t with
  | nil =>
    rcases first with ⟨rfl, hc⟩ | ⟨_, _, hq, _⟩
    · exact ⟨rfl, rfl, m, hd, hc, h⟩
    · cases hq
  | cons query queries ih =>
    rw [resolveLoop_cons, resolveLoop_cons]
    split
    · rename_i hA
      refine .bind (resolveA_alike cfg locals locals' (hrows query (.head _) hA) hij h hd (by omega)
        h12 ha fun hs hrd hno => ?_) fun r r' s' t' hx hr => ?_
      · rcases hecho hs hrd with held | hlen
        · obtain ⟨_, row, hrow, ht⟩ := held query (.head _)
          exact absurd ht (hno row hrow)
        · exact hlen.trans hd
      · obtain ⟨n, i'⟩ := r
        obtain ⟨n', j'⟩ := r'
        obtain ⟨hlike, hn, m', hm', hcov, hr⟩ := hr
        dsimp only at hlike hn hcov
        subst hn
        refine ih (fun q hq => hrows q (.tail _ hq)) ?_ hr (by omega) ?_
          (.inl ⟨hlike.resized n', hcov⟩) fun hs hrd => ?_
        · unfold ResponseInfo.Like
          rw [hlike.resized]
        · exact resolveA_desired h12 ha hx
        · have stays := (resolveA_noServer locals hs h12).of_ok hx
          exact (hecho hs (stays.rd ▸ hrd)).imp_left fun held q hq => held q (.tail _ hq)
    · rename_i hA
      rw [Act.bind_of_ok (Act.get_apply s), Act.bind_of_ok (Act.get_apply t), h.rd (by omega)]
      split
      · rename_i hrd
        refine .bind (recursiveResolve_alike (ha hrd) h hd (by omega) fun hs => ?_)
          fun n n' s' t' _ hr => ?_
        · rcases hecho hs hrd with held | hlen
          · exact absurd (held query (.head _)).1 hA
          · exact hlen.trans hd
        · obtain ⟨rfl, m', hm', hcov, hr⟩ := hr
          refine ⟨?_, rfl, m', by omega, hcov, hr⟩
          rw [hij]
      · rename_i hrd
        rcases first with ⟨rfl, hc⟩ | ⟨q, qs, hq, hcase⟩
        · exact ⟨rfl, rfl, m, hd, hc, h⟩
        · cases hq
          exact absurd hcase (by simp [hA, hrd])

end Agree

end OdbcDns
