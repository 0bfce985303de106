import OdbcDns.Proofs.Questions

namespace OdbcDns
open Slice Rfc1035

/-- A call of `encode` with a buffer in some packet. -/
structure EncodeCall where
  packet : Packet
  off : Nat
  bufLen : Nat
  inside : off + bufLen ≤ packetAllocation

/-- What a call of `encode` leaves: the record, the bytes it has written and their number. -/
structure Encoded where
  record : DNSResourceRecord
  bytes : List Byte
  length : Nat

def EncodeCall.perform (c : EncodeCall) (t : PointerLocations) (rr : DNSResourceRecord) :
    Except Stop Encoded := do
  let (rr', packet, n) ← rr.encode c.packet c.off c.bufLen t
  .ok ⟨rr', (packet.bytes.drop c.off).take n, n⟩

/-- Calls of `encode` on one record, one after the other. -/
def encodeAll (t : PointerLocations) : DNSResourceRecord → List EncodeCall →
    Except Stop (List Encoded)
  | _, [] => .ok []
  | rr, c :: cs => do
    let e ← c.perform t rr
    let es ← encodeAll t e.record cs
    .ok (e :: es)

/-- The buffer has room for the record, which is made up of this owner and this data. -/
structure EncodeCall.Holds (c : EncodeCall) (t : PointerLocations) (name : List Byte)
    (rdata : DNSRData) (owner data : List Byte) : Prop where
  written : DNSResourceRecord.encodeOwner name c.bufLen t = .ok owner
  encoded : rdata.encode ((c.bufLen : Int) - owner.length - 10) = .ok data
  room : owner.length + 10 + data.length ≤ c.bufLen

/-- The buffer of a call is large enough for the record. -/
def LargeEnough (rr : DNSResourceRecord) (t : PointerLocations) (c : EncodeCall) : Prop :=
  ∃ rdata owner data, rr.rdata = some rdata ∧ c.Holds t rr.name rdata owner data

/-- `encode` converts the stored fields in place. -/
theorem encode_record {rr rr' : DNSResourceRecord} {p p' : Packet} {off bufLen n : Nat}
    {t : PointerLocations} (h : rr.encode p off bufLen t = .ok (rr', p', n)) :
    rr'.name = rr.name ∧ rr'.rdata = rr.rdata ∧ rr'.info.type = htons rr.info.type ∧
      rr'.info.rclass = htons rr.info.rclass ∧ rr'.info.ttl = htonl rr.info.ttl := by
  unfold DNSResourceRecord.encode at h
  simp only [Except.bind_ok] at h
  obtain ⟨owner, _, _, _, h⟩ := h
  cases hr : rr.rdata with
  | none => simp [hr] at h
  | some rdata =>
    simp only [hr, Except.bind_ok] at h
    obtain ⟨data, _, _, _, h⟩ := h
    split at h
    · cases h
    · simp only [Except.bind_ok] at h
      obtain ⟨_, _, h⟩ := h
      cases h
      exact ⟨rfl, rfl, rfl, rfl, rfl⟩

/-- A call whose buffer holds the record writes it whole. -/
theorem EncodeCall.Holds.perform {c : EncodeCall} {t : PointerLocations} {rr : DNSResourceRecord}
    {rdata : DNSRData} {owner data : List Byte} (h : c.Holds t rr.name rdata owner data)
    (hr : rr.rdata = some rdata) :
    ∃ e, c.perform t rr = .ok e ∧ e.bytes = owner ++ rr.written data ++ data ∧
      e.length = owner.length + 10 + data.length ∧
      e.record.name = rr.name ∧ e.record.rdata = rr.rdata ∧
      e.record.info.type = htons rr.info.type ∧ e.record.info.rclass = htons rr.info.rclass ∧
      e.record.info.ttl = htonl rr.info.ttl := by
  have inside := c.inside
  have room := h.room
  unfold packetAllocation at inside
  obtain ⟨rr', p', he, hp⟩ := encode_of_fits rr c.packet c.off h.written hr h.encoded room (by omega)
    (by omega)
  let e : Encoded :=
    ⟨rr', (p'.bytes.drop c.off).take (owner.length + 10 + data.length),
      owner.length + 10 + data.length⟩
  refine ⟨e, ?_, ?_, rfl, encode_record he⟩
  · rw [EncodeCall.perform, he]
    rfl
  · have len : (owner ++ rr.written data ++ data).length = owner.length + 10 + data.length := by
      simp only [List.length_append, length_written]
    show (p'.bytes.drop c.off).take _ = _
    rw [hp, drop_overwrite_self (by rw [c.packet.size, packetAllocation, len]; omega), ← len,
      List.take_left]

section Same

/-! The length that is passed for the buffer decides whether a record is written, not how. -/

theorem encodeLoop_same {n m fuel : Nat} {lastPtr bs bs' : List Byte}
    (h : encodeLoop n fuel lastPtr = .ok bs) (h' : encodeLoop m fuel lastPtr = .ok bs') :
    bs = bs' := by
  induction fuel generalizing lastPtr bs bs' with
  | zero => cases h
  | succ fuel ih =>
    unfold encodeLoop at h h'
    dsimp only at h h'
    split at h
    · cases h
    · split at h'
      · cases h'
      · split at h
        · rename_i separated
          rw [if_pos separated] at h'
          obtain ⟨rest, hr, h⟩ := Except.bind_ok.mp h
          obtain ⟨rest', hr', h'⟩ := Except.bind_ok.mp h'
          cases h
          cases h'
          rw [ih hr hr']
        · rename_i last
          rw [if_neg last] at h'
          cases h
          cases h'
          rfl

theorem encodeName_same {name bs bs' : List Byte} {n m : Nat} (h : encodeName name n = .ok bs)
    (h' : encodeName name m = .ok bs') : bs = bs' := by
  obtain ⟨labels, hl, h⟩ := Except.bind_ok.mp h
  obtain ⟨labels', hl', h'⟩ := Except.bind_ok.mp h'
  cases h
  cases h'
  rw [encodeLoop_same hl hl']

theorem encodeOwner_same {name bs bs' : List Byte} {n m : Nat} {t : PointerLocations}
    (h : DNSResourceRecord.encodeOwner name n t = .ok bs)
    (h' : DNSResourceRecord.encodeOwner name m t = .ok bs') : bs = bs' := by
  unfold DNSResourceRecord.encodeOwner at h h'
  cases ht : t name with
  | none =>
    simp only [ht] at h h'
    exact encodeName_same h h'
  | some loc =>
    simp only [ht] at h h'
    split at h
    · cases h
    · split at h'
      · cases h'
      · cases h
        cases h'
        rfl

theorem encodeRData_same {rdata : DNSRData} {bs bs' : List Byte} {n m : Int}
    (h : rdata.encode n = .ok bs) (h' : rdata.encode m = .ok bs') : bs = bs' := by
  cases rdata with
  | a d =>
    simp only [DNSRData.encode, DNSRDataA.encode] at h h'
    split at h
    · cases h
    · split at h'
      · cases h'
      · cases h
        cases h'
        rfl
  | cname d => exact encodeName_same h h'

end Same

theorem EncodeCall.Holds.same {c c' : EncodeCall} {t : PointerLocations} {name : List Byte}
    {rdata : DNSRData} {owner owner' data data' : List Byte}
    (h : c.Holds t name rdata owner data) (h' : c'.Holds t name rdata owner' data') :
    owner' = owner ∧ data' = data :=
  ⟨encodeOwner_same h'.written h.written, encodeRData_same h'.encoded h.encoded⟩

/-- The fields read the same in either byte order. -/
structure Palindromic (info : FixedRRInfo) : Prop where
  type : htons info.type = info.type
  rclass : htons info.rclass = info.rclass
  ttl : htonl info.ttl = info.ttl

/-- All calls write the same, and none changes what the record says of itself. -/
def Unconsumed (rr : DNSResourceRecord) (t : PointerLocations) (calls : List EncodeCall) : Prop :=
  ∃ es, encodeAll t rr calls = .ok es ∧
    (∀ e ∈ es, ∀ e' ∈ es, e.bytes = e'.bytes ∧ e.length = e'.length) ∧
    ∀ e ∈ es, e.record.getType = rr.getType ∧ e.record.getClass = rr.getClass ∧
      e.record.getTTL = rr.getTTL

/-- Calls on a record with palindromic fields all write the bytes of the first. -/
theorem Palindromic.encodeAll {rr : DNSResourceRecord} (h : Palindromic rr.info)
    {t : PointerLocations} {rdata : DNSRData} {owner data : List Byte} (hr : rr.rdata = some rdata)
    {calls : List EncodeCall} (holds : ∀ c ∈ calls, c.Holds t rr.name rdata owner data) :
    ∃ es, OdbcDns.encodeAll t rr calls = .ok es ∧ ∀ e ∈ es,
      e.bytes = owner ++ rr.written data ++ data ∧ e.length = owner.length + 10 + data.length ∧
      e.record.info.type = rr.info.type ∧ e.record.info.rclass = rr.info.rclass ∧
      e.record.info.ttl = rr.info.ttl := by
  induction calls generalizing rr with
  | nil => exact ⟨[], rfl, by simp⟩
  | cons c cs ih =>
    obtain ⟨e, he, bytes, length, name, data', type, rclass, ttl⟩ :=
      (holds c (by simp)).perform hr
    rw [h.type] at type
    rw [h.rclass] at rclass
    rw [h.ttl] at ttl
    have next : Palindromic e.record.info :=
      ⟨by rw [type, h.type], by rw [rclass, h.rclass], by rw [ttl, h.ttl]⟩
    have written : e.record.written data = rr.written data := by
      unfold DNSResourceRecord.written
      rw [type, rclass, ttl]
    obtain ⟨es, hes, all⟩ := ih next (data'.trans hr)
      fun c' hc' => name ▸ holds c' (by simp [hc'])
    refine ⟨e :: es, ?_, ?_⟩
    · simp only [OdbcDns.encodeAll, he, hes, bind, Except.bind]
    · rw [written, type, rclass, ttl] at all
      exact List.forall_mem_cons.mpr ⟨⟨bytes, length, type, rclass, ttl⟩, all⟩

theorem signedTTL_injective {v w : UInt32} (h : signedTTL v = signedTTL w) : v = w := by
  have hv := v.toNat_lt
  have hw := w.toNat_lt
  apply UInt32.toNat_inj.mp
  unfold signedTTL at h
  split at h <;> split at h <;> omega

/-- A record can be encoded again and again exactly when the in-place conversion of its
type, class and TTL changes none of them. -/
theorem encode_unconsumed_iff (rr : DNSResourceRecord) :
    (∀ t calls, (∀ c ∈ calls, LargeEnough rr t c) → Unconsumed rr t calls) ↔
      ((∃ t c, LargeEnough rr t c) → Palindromic rr.info) := by
  constructor
  · rintro unconsumed ⟨t, c, large⟩
    obtain ⟨es, hes, _, kept⟩ := unconsumed t [c] (by simpa using large)
    obtain ⟨rdata, owner, data, hr, holds⟩ := large
    obtain ⟨e, he, _, _, _, _, type, rclass, ttl⟩ := holds.perform hr
    simp only [encodeAll, he, bind, Except.bind, Except.ok.injEq] at hes
    subst hes
    obtain ⟨sameType, sameClass, sameTTL⟩ := kept e (by simp)
    exact ⟨type.symm.trans sameType, rclass.symm.trans sameClass,
      ttl.symm.trans (signedTTL_injective sameTTL)⟩
  · intro palindromic t calls large
    cases calls with
    | nil => exact ⟨[], rfl, by simp, by simp⟩
    | cons c cs =>
      have fields := palindromic ⟨t, c, large c (by simp)⟩
      obtain ⟨rdata, owner, data, hr, first⟩ := large c (by simp)
      have holds : ∀ c' ∈ c :: cs, c'.Holds t rr.name rdata owner data := by
        intro c' hc'
        obtain ⟨rdata', owner', data', hr', h⟩ := large c' hc'
        cases hr.symm.trans hr'
        obtain ⟨rfl, rfl⟩ := first.same h
        exact h
      obtain ⟨es, hes, all⟩ := fields.encodeAll hr holds
      refine ⟨es, hes, ?_, ?_⟩
      · intro e he e' he'
        obtain ⟨bytes, length, _⟩ := all e he
        obtain ⟨bytes', length', _⟩ := all e' he'
        exact ⟨bytes.trans bytes'.symm, length.trans length'.symm⟩
      · intro e he
        obtain ⟨_, _, type, rclass, ttl⟩ := all e he
        exact ⟨type, rclass, congrArg signedTTL ttl⟩

/-- The record of an address of `a`. -/
def addressOfA : DNSResourceRecord :=
  ⟨[97], ⟨1, 1, 60, 0⟩, some (.a ⟨[1, 2, 3, 4], Quad.text ⟨1, 2, 3, 4⟩⟩)⟩

def encodeAtTwelve : EncodeCall := ⟨.zeroed, 12, 500, by decide⟩

/-- The second of two calls writes the type, the class and the TTL backwards. -/
theorem encode_consumes :
    LargeEnough addressOfA (fun _ => none) encodeAtTwelve ∧
      (encodeAll (fun _ => none) addressOfA [encodeAtTwelve, encodeAtTwelve]).map
        (·.map fun e => (e.bytes, e.record.getType, e.record.getTTL)) =
          .ok [([1, 97, 0, 0, 1, 0, 1, 0, 0, 0, 60, 0, 4, 1, 2, 3, 4], 256, 1006632960),
            ([1, 97, 0, 1, 0, 1, 0, 60, 0, 0, 0, 0, 4, 1, 2, 3, 4], 1, 60)] ∧
      ¬ Unconsumed addressOfA (fun _ => none) [encodeAtTwelve, encodeAtTwelve] := by
  have large : LargeEnough addressOfA (fun _ => none) encodeAtTwelve :=
    ⟨_, [1, 97, 0], [1, 2, 3, 4], rfl, by decide +kernel, by decide +kernel, by decide⟩
  have run : (encodeAll (fun _ => none) addressOfA [encodeAtTwelve, encodeAtTwelve]).map
      (·.map fun e => (e.bytes, e.record.getType, e.record.getTTL)) =
        .ok [([1, 97, 0, 0, 1, 0, 1, 0, 0, 0, 60, 0, 4, 1, 2, 3, 4], 256, 1006632960),
          ([1, 97, 0, 1, 0, 1, 0, 60, 0, 0, 0, 0, 4, 1, 2, 3, 4], 1, 60)] := by
    decide +kernel
  refine ⟨large, run, ?_⟩
  rintro ⟨es, hes, _, kept⟩
  rw [hes] at run
  have types : es.map (fun e => (e.bytes, e.record.getType, e.record.getTTL)) = _ :=
    Except.ok.inj run
  cases es with
  | nil => cases types
  | cons e es =>
    have changed : e.record.getType = 256 := congrArg (·.2.1) (List.cons.inj types).1
    have same : e.record.getType = 1 := (kept e (by simp)).1
    cases changed.symm.trans same

end OdbcDns
