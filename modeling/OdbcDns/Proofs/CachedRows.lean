import OdbcDns.Proofs.Transactions

namespace OdbcDns

/-- A call of `cacheResponse`, apart from the connection that it is made on. -/
structure CacheCall where
  cfg : Config
  executions : Nat → Execution
  heap : Nat → Nat → Byte
  data : Nat
  numResponses : Nat
  session : Session

namespace CacheCall

/-- What the call leaves of the connection, whichever way it ends. -/
def perform (call : CacheCall) (c : Connection) : Connection :=
  (cacheResponse call.cfg call.executions call.heap call.data call.numResponses
    { call.session with connection := c }).2.connection

/-- The calls of the decoder that the packet leads to. -/
def decodes (call : CacheCall) : List DecodeCall :=
  decodeCalls call.heap call.session.packet.bytes call.numResponses 0 call.data

/-- At `now` the call stores a row for the record. -/
def Receives (call : CacheCall) (now : Rat) (rr : DNSResourceRecord) : Prop :=
  ∃ d ∈ call.decodes, d.record = some rr ∧ now = (call.executions d.number).insertNow

/-- A row that the call stores. -/
def Stores (call : CacheCall) (row : Stored) : Prop :=
  ∃ now rr, call.Receives now rr ∧ ∃ rdata, rr.rdata = some rdata ∧ row = storedRow now rr rdata

theorem perform_adds (call : CacheCall) (c : Connection) :
    Adds call.Stores c (call.perform c) := by
  refine ((tracks_adds call.Stores).cacheResponse call.cfg call.executions call.heap call.data
    call.numResponses ?_).1
  exact fun d hd rr hrr rdata hr => ⟨_, rr, ⟨d, hd, hrr, rfl⟩, rdata, hr, rfl⟩

end CacheCall

/-- A connection after calls of `cacheResponse`. -/
def performCaching (calls : List CacheCall) (c : Connection) : Connection :=
  calls.foldl (fun c call => call.perform c) c

/-- Every row was there before, or comes from one of the calls. -/
theorem performCaching_adds (calls : List CacheCall) (c : Connection) :
    Adds (fun row => ∃ call ∈ calls, call.Stores row) c (performCaching calls c) := by
  induction calls generalizing c with
  | nil => exact fun r hr => .inl hr
  | cons call calls ih =>
    intro r hr
    rcases ih (call.perform c) r hr with hr | ⟨call', hc, hs⟩
    · rcases call.perform_adds c r hr with hr | hs
      · exact .inl hr
      · exact .inr ⟨call, List.mem_cons_self, hs⟩
    · exact .inr ⟨call', List.mem_cons_of_mem _ hc, hs⟩

/-- A decoded address is formatted canonically, also when some of its bytes were
not in the packet. -/
theorem DNSRDataA.decode_ok {uninit : Nat → Byte} {buffer : List Byte} {bufLen : Nat}
    {d : DNSRDataA} (h : DNSRDataA.decode uninit buffer bufLen = .ok d) :
    ∃ q : Quad, d = ⟨q.octets, q.text⟩ := by
  unfold DNSRDataA.decode at h
  split at h
  · cases h
  split at h
  · cases h
  rw [Except.bind_ok] at h
  obtain ⟨value, hf, h⟩ := h
  cases h
  let octet := fun i => if i < bufLen then byteAt buffer i else uninit i
  let q : Quad := ⟨octet 0, octet 1, octet 2, octet 3⟩
  have hq : DNSRDataA.formatFields q.octets 16 [] = .ok value := hf
  rw [q.formatFields] at hq
  exact ⟨q, congrArg _ (Except.ok.inj hq).symm⟩

/-- A decoded name is a string. -/
theorem zero_not_mem_of_decodeName {name packet t : List Byte} {bufLen n : Nat}
    (h : decodeName name packet bufLen = .ok (t, n)) : (0 : Byte) ∉ t := by
  unfold decodeName decodeNameWithin at h
  obtain ⟨_, _, h⟩ := Except.bind_ok.mp h
  split at h
  · cases h
  obtain ⟨out, _, h⟩ := Except.bind_ok.mp h
  split at h
  · cases h
  cases h
  exact zero_not_mem_cstr _

/-- A decoded alias is a string that its own constructor takes. -/
theorem DNSRDataCNAME.decode_ok {buffer packet : List Byte} {d : DNSRDataCNAME}
    (h : DNSRDataCNAME.decode buffer packet = .ok d) :
    (0 : Byte) ∉ d.name ∧ DNSRDataCNAME.ofText d.name = .ok d := by
  unfold DNSRDataCNAME.decode at h
  simp only [Except.bind_ok] at h
  obtain ⟨_, _, ⟨name, n⟩, hn, h⟩ := h
  have hz := zero_not_mem_of_decodeName hn
  have hd : d = ⟨name⟩ := by
    unfold DNSRDataCNAME.ofText at h
    split at h
    · cases h
    · cases h
      rfl
  subst hd
  exact ⟨hz, h⟩

/-- The data of a decoded record is of the type that the record has. -/
theorem DNSResourceRecord.decode_rdata {uninit : Nat → Byte} {packet : List Byte}
    {buffer after : Nat} {rr : DNSResourceRecord}
    (h : DNSResourceRecord.decode uninit packet buffer = .ok (rr, after)) :
    ∃ data n, decodeRData uninit rr.info.type data packet n = .ok rr.rdata := by
  obtain ⟨⟨name, info, data⟩, _, h⟩ := Except.bind_ok.mp h
  obtain ⟨rdata, hd, h⟩ := Except.bind_ok.mp h
  cases h
  exact ⟨_, _, hd⟩

theorem DNSResourceRecord.zero_not_mem_name {uninit : Nat → Byte} {packet : List Byte}
    {buffer after : Nat} {rr : DNSResourceRecord}
    (h : DNSResourceRecord.decode uninit packet buffer = .ok (rr, after)) :
    (0 : Byte) ∉ rr.name := by
  obtain ⟨⟨name, info, data⟩, head, h⟩ := Except.bind_ok.mp h
  obtain ⟨rdata, _, h⟩ := Except.bind_ok.mp h
  cases h
  obtain ⟨_, _, _, _, _, hn, _⟩ := decodeHead_ok_iff.mp head
  exact zero_not_mem_of_decodeName hn

theorem decode_of_mem_decoded {heap : Nat → Nat → Byte} {packet : List Byte} {n i ptr : Nat}
    {rr : DNSResourceRecord} (h : rr ∈ decoded heap packet n i ptr) :
    ∃ uninit buffer after, DNSResourceRecord.decode uninit packet buffer = .ok (rr, after) := by
  induction n generalizing i ptr with
  | zero => cases h
  | succ n ih =>
    cases hd : DNSResourceRecord.decode (heap i) packet ptr with
    | error e =>
      rw [decoded_of_error hd] at h
      cases h
    | ok r =>
      rw [decoded_of_ok hd] at h
      rcases List.mem_cons.mp h with rfl | h
      · exact ⟨_, _, _, hd⟩
      · exact ih h

/-- The data of a decoded record is a string from which the constructor makes it again,
whatever follows the terminator. An address is spelled canonically. -/
structure Remade (rr : DNSResourceRecord) (rdata : DNSRData) : Prop where
  type : rr.info.type = typeA ∨ rr.info.type = typeCname
  address : rr.info.type = typeA → ∃ q : Quad, rdata.getValue = q.text
  zero : (0 : Byte) ∉ rdata.getValue
  object : ∀ rest, makeRData rr.info.type (rdata.getValue ++ 0 :: rest) = .ok rdata

theorem remade_of_decoded {uninit : Nat → Byte} {packet : List Byte} {buffer after : Nat}
    {rr : DNSResourceRecord} (h : DNSResourceRecord.decode uninit packet buffer = .ok (rr, after))
    {rdata : DNSRData} (hr : rr.rdata = some rdata) : Remade rr rdata := by
  obtain ⟨data, n, hdata⟩ := DNSResourceRecord.decode_rdata h
  rw [hr] at hdata
  unfold DNSResourceRecord.decodeRData at hdata
  split at hdata
  · rename_i ht
    cases hx : DNSRDataA.decode uninit data n with
    | error e => simp [hx, Except.map] at hdata
    | ok a =>
      obtain ⟨q, rfl⟩ := DNSRDataA.decode_ok hx
      simp only [hx, Except.map, Except.ok.injEq, Option.some.injEq] at hdata
      subst hdata
      refine ⟨.inl ht, fun _ => ⟨q, rfl⟩, (Target.address q).zero_not_mem, fun rest => ?_⟩
      rw [ht]
      exact makeRData_target (.address q) rest
  split at hdata
  · rename_i hne ht
    cases hx : DNSRDataCNAME.decode data packet with
    | error e => simp [hx, Except.map] at hdata
    | ok d =>
      obtain ⟨hz, ho⟩ := DNSRDataCNAME.decode_ok hx
      simp only [hx, Except.map, Except.ok.injEq, Option.some.injEq] at hdata
      subst hdata
      refine ⟨.inr ht, fun he => absurd he hne, hz, fun rest => ?_⟩
      simp only [makeRData, ht, if_true, DNSRData.getValue, cstr_of_not_mem hz, ho]
      rfl
  · cases hdata

theorem CacheCall.Receives.decode {call : CacheCall} {now : Rat} {rr : DNSResourceRecord}
    (h : call.Receives now rr) : ∃ uninit buffer after,
      DNSResourceRecord.decode uninit call.session.packet.bytes buffer = .ok (rr, after) := by
  obtain ⟨d, hd, hrr, _⟩ := h
  exact decode_of_mem_decoded (List.mem_filterMap.mpr ⟨d, hd, hrr⟩)

/-- A row from which `resolveA` can make a record: an address or an alias, an
address being spelled canonically, and the constructor of its data reads nothing
behind the terminator. -/
structure Reencodable (r : Stored) : Prop where
  type : r.type = typeA ∨ r.type = typeCname
  address : r.type = typeA → ∃ q : Quad, r.value = q.text
  object : ∃ d, ∀ rest, makeRData r.type (r.value ++ 0 :: rest) = .ok d

theorem CacheCall.Stores.reencodable {call : CacheCall} {row : Stored} (h : call.Stores row) :
    Reencodable row := by
  obtain ⟨now, rr, received, rdata, hr, rfl⟩ := h
  obtain ⟨uninit, buffer, after, hd⟩ := received.decode
  have remade := remade_of_decoded hd hr
  exact ⟨remade.type, remade.address, rdata, remade.object⟩

/-- Whatever has been received, every row of RECORD can be encoded again. -/
theorem cached_rows_reencodable (calls : List CacheCall) (pending committed : List Change) :
    ∀ r ∈ (performCaching calls ⟨[], pending, committed⟩).record, Reencodable r := by
  intro r hr
  rcases performCaching_adds calls _ r hr with hr | ⟨call, _, hs⟩
  · cases hr
  · exact hs.reencodable

/-- The call that caches a relayed packet. -/
def CacheCall.ofRelayed (p : Packet) : CacheCall :=
  ⟨⟨0, false⟩, turnA.executions, turnA.heap, 19, ancount p.bytes, (relayed p).session p [] []⟩

/-- A long address and one of which only two bytes were sent. -/
def twoAddresses : Packet :=
  received (upstreamReply 2 [0xC0, 12, 0, 1, 0, 1, 0, 0, 0, 60, 0, 4, 255, 255, 255, 255,
    0xC0, 12, 0, 1, 0, 1, 0, 0, 0, 60, 0, 2, 10, 0])

theorem cached_rows_reencodable_addresses :
    (performCaching [.ofRelayed twoAddresses] ⟨[], [], []⟩).record.length = 2 ∧
    ∀ r ∈ (performCaching [.ofRelayed twoAddresses] ⟨[], [], []⟩).record, Reencodable r :=
  ⟨by decide +kernel, cached_rows_reencodable _ _ _⟩

end OdbcDns
