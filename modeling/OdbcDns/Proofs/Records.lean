import OdbcDns.ResourceRecord
import OdbcDns.Proofs.Names
import OdbcDns.Proofs.Addresses

namespace OdbcDns
open Slice Rfc1035

namespace Packet

theorem store_of_le (p : Packet) (off : Nat) (bs : List Byte) (h : off + bs.length ≤ 1024) :
    ∃ q, p.store off bs = .ok q ∧ q.bytes = overwrite p.bytes off bs := by
  have hl : off + bs.length ≤ p.bytes.length := by
    rw [p.size]
    exact h
  exact ⟨⟨overwrite p.bytes off bs, (length_overwrite hl).trans p.size⟩, dif_pos hl, rfl⟩

theorem store_ok {p q : Packet} {off : Nat} {bs : List Byte} (h : p.store off bs = .ok q) :
    off + bs.length ≤ 1024 ∧ q.bytes = overwrite p.bytes off bs := by
  unfold store at h
  split at h
  · rename_i hl
    rw [p.size] at hl
    cases h
    exact ⟨hl, rfl⟩
  · cases h

end Packet

/-- A text of an accepted name fits the object. -/
theorem ofText_of_le {name : List Byte} (h : name.length ≤ 254) :
    DNSRDataCNAME.ofText name = .ok ⟨name⟩ :=
  if_neg (by unfold maxDnsNameLength; omega)

theorem leadingPointer_low {b : Byte} (h : b.toNat < 192) (rest : List Byte) :
    leadingPointer (b :: rest) = .ok none := by
  have hp : ¬ charToUnsigned b &&& 0xC0 = 0xC0 := by
    rw [charToUnsigned_pointer]
    omega
  simp only [leadingPointer, hp, if_false]

theorem leadingPointer_high {b0 : Byte} (h : 192 ≤ b0.toNat) (b1 : Byte) (rest : List Byte) :
    leadingPointer (b0 :: b1 :: rest) = .ok (some (pointerOffset b0 b1)) := by
  have hp := (charToUnsigned_pointer b0).mpr h
  simp only [leadingPointer, hp, if_true]

theorem FixedRRInfo.memory_swap (info : FixedRRInfo) :
    info.swap.memory = fixedPart info.type info.rclass info.ttl info.rdlength := by
  simp only [FixedRRInfo.memory, FixedRRInfo.swap, memory16_htons, memory32_htonl, fixedPart]

@[simp] theorem FixedRRInfo.swap_swap (info : FixedRRInfo) : info.swap.swap = info := by
  simp [FixedRRInfo.swap]

theorem FixedRRInfo.load_memory (info : FixedRRInfo) (rest : List Byte) :
    FixedRRInfo.load (info.memory ++ rest) = .ok info := by
  obtain ⟨t0, t1, ht, ht'⟩ := load16_memory info.type
  obtain ⟨c0, c1, hc, hc'⟩ := load16_memory info.rclass
  obtain ⟨l0, l1, l2, l3, hl, hl'⟩ := load32_memory info.ttl
  obtain ⟨n0, n1, hn, hn'⟩ := load16_memory info.rdlength
  unfold FixedRRInfo.memory
  rw [ht, hc, hl, hn]
  simp only [List.cons_append, List.nil_append, FixedRRInfo.load, ht', hc', hl', hn']

/-- Reading the ten bytes back and converting them gives the fields. -/
theorem load_fixedPart (info : FixedRRInfo) (rest : List Byte) :
    FixedRRInfo.load (fixedPart info.type info.rclass info.ttl info.rdlength ++ rest) =
      .ok info.swap := by
  rw [← FixedRRInfo.memory_swap, FixedRRInfo.load_memory]

/-- The info that `encode` writes for the given amount of data. -/
def DNSResourceRecord.written (rr : DNSResourceRecord) (data : List Byte) : List Byte :=
  fixedPart rr.info.type rr.info.rclass rr.info.ttl (UInt16.ofNat data.length)

@[simp] theorem length_written (rr : DNSResourceRecord) (data : List Byte) :
    (rr.written data).length = 10 := rfl

/-- Owner, data and then the fixed part in between make up one segment. -/
theorem overwrite_record {xs owner fixed data : List Byte} {off : Nat}
    (hf : fixed.length = 10) (h : off + owner.length + 10 + data.length ≤ xs.length) :
    overwrite (overwrite (overwrite xs off owner) (off + owner.length + 10) data)
      (off + owner.length) fixed = overwrite xs off (owner ++ fixed ++ data) := by
  have h1 : off + owner.length ≤ xs.length := by omega
  rw [overwrite_comm (by rw [hf]) (by rw [length_overwrite h1]; exact h),
    overwrite_append (by rw [List.length_append, hf]; omega),
    show off + owner.length + 10 = off + (owner ++ fixed).length by
      rw [List.length_append, hf]; omega,
    overwrite_append (by rw [List.length_append, List.length_append, hf]; omega)]

/-- The length that `encode` computes from what is left. -/
theorem toSize_written (bufLen owner data : Nat)
    (h : owner + 10 + data < 18446744073709551616) :
    toSize ((bufLen : Int) - ((bufLen : Int) - owner - data - 10)) = owner + 10 + data := by
  have he : (bufLen : Int) - ((bufLen : Int) - owner - data - 10) =
      ((owner + 10 + data : Nat) : Int) := by
    push_cast
    omega
  rw [he, toSize_of_lt (by omega) (by omega), Int.toNat_natCast]

/-- What `encode` does when it returns. -/
theorem encode_ok {rr rr' : DNSResourceRecord} {p p' : Packet} {off bufLen n : Nat}
    {t : PointerLocations} (h : rr.encode p off bufLen t = .ok (rr', p', n)) :
    ∃ owner rdata data, DNSResourceRecord.encodeOwner rr.name bufLen t = .ok owner ∧
      rr.rdata = some rdata ∧ rdata.encode ((bufLen : Int) - owner.length - 10) = .ok data ∧
      n = owner.length + 10 + data.length ∧ off + n ≤ 1024 ∧
      p'.bytes = overwrite p.bytes off (owner ++ rr.written data ++ data) := by
  unfold DNSResourceRecord.encode at h
  simp only [Except.bind_ok] at h
  obtain ⟨owner, ho, p1, hp1, h⟩ := h
  obtain ⟨hb1, he1⟩ := Packet.store_ok hp1
  cases hr : rr.rdata with
  | none => simp [hr] at h
  | some rdata =>
    simp only [hr, Except.bind_ok] at h
    obtain ⟨data, hd, p2, hp2, h⟩ := h
    obtain ⟨hb2, he2⟩ := Packet.store_ok hp2
    split at h
    · cases h
    · simp only [Except.bind_ok, Except.ok.injEq, Prod.mk.injEq] at h
      obtain ⟨p3, hp3, _, rfl, hn⟩ := h
      obtain ⟨_, he3⟩ := Packet.store_ok hp3
      have hlen : n = owner.length + 10 + data.length := by
        rw [← hn]
        exact toSize_written bufLen owner.length data.length (by omega)
      refine ⟨owner, rdata, data, ho, rfl, hd, hlen, by omega, ?_⟩
      rw [he3, he2, he1, FixedRRInfo.memory_swap]
      exact overwrite_record rfl (by rw [p.size, packetAllocation]; omega)

/-- `encode` leaves alone what stands before the record. -/
theorem encode_take {rr rr' : DNSResourceRecord} {p p' : Packet} {off bufLen n k : Nat}
    {t : PointerLocations} (h : rr.encode p off bufLen t = .ok (rr', p', n)) (hk : k ≤ off) :
    p'.bytes.take k = p.bytes.take k := by
  obtain ⟨owner, rdata, data, _, _, _, hn, hle, hp⟩ := encode_ok h
  rw [hp]
  refine take_overwrite ?_ hk
  rw [p.size, packetAllocation, List.length_append, List.length_append, length_written]
  omega

/-- `encode` returns when the record fits the length it is given. -/
theorem encode_of_fits (rr : DNSResourceRecord) (p : Packet) (off : Nat) {bufLen : Nat}
    {t : PointerLocations} {owner data : List Byte} {rdata : DNSRData}
    (ho : DNSResourceRecord.encodeOwner rr.name bufLen t = .ok owner) (hr : rr.rdata = some rdata)
    (hd : rdata.encode ((bufLen : Int) - owner.length - 10) = .ok data)
    (hfit : owner.length + 10 + data.length ≤ bufLen) (hbuf : bufLen ≤ 1024)
    (hoff : off + (owner.length + 10 + data.length) ≤ 1024) :
    ∃ rr' p', rr.encode p off bufLen t = .ok (rr', p', owner.length + 10 + data.length) ∧
      p'.bytes = overwrite p.bytes off (owner ++ rr.written data ++ data) := by
  obtain ⟨p1, hp1, he1⟩ := p.store_of_le off owner (by omega)
  obtain ⟨p2, hp2, he2⟩ := p1.store_of_le (off + owner.length + 10) data (by omega)
  obtain ⟨p3, hp3, he3⟩ := p2.store_of_le (off + owner.length) (rr.written data)
    (by rw [length_written]; omega)
  have hs : ¬ toSize ((bufLen : Int) - owner.length - data.length) < 10 := by
    rw [toSize_of_lt (by omega) (by omega)]
    omega
  have hn := toSize_written bufLen owner.length data.length (by omega)
  let info : FixedRRInfo := ⟨rr.info.type, rr.info.rclass, rr.info.ttl, UInt16.ofNat data.length⟩
  have hm : info.swap.memory = rr.written data := FixedRRInfo.memory_swap info
  refine ⟨{ rr with info := info.swap }, p3, ?_, ?_⟩
  · unfold DNSResourceRecord.encode
    simp only [ho, hp1, hr, hd, hp2, bind, Except.bind, hs, if_false]
    rw [hm, hp3, hn]
  · rw [he3, he2, he1]
    exact overwrite_record rfl (by rw [p.size, packetAllocation]; omega)

/-- The name of an alias is read where it stands, or where a pointer there leads to. -/
theorem DNSRDataCNAME.decode_of_pointer {msg : List Byte} {off : Nat} {p : Option Nat}
    (hp : leadingPointer (msg.drop off) = .ok p) : DNSRDataCNAME.decode (msg.drop off) msg =
      (decodeName (msg.drop (p.getD off)) msg 256 >>= fun r => DNSRDataCNAME.ofText r.1) := by
  unfold DNSRDataCNAME.decode
  rw [hp]
  cases p with
  | none => rfl
  | some ptr => rfl

theorem decodeHead_ok_iff {msg name : List Byte} {off data : Nat} {info : FixedRRInfo} :
    DNSResourceRecord.decodeHead msg off = .ok (name, info, data) ↔
      ∃ p n mid, leadingPointer (msg.drop off) = .ok p ∧ p.getD off ≤ 512 ∧
        decodeName (msg.drop (p.getD off)) msg 256 = .ok (name, n) ∧
        (if p.isSome then off + 2 else p.getD off + n) = mid ∧
        FixedRRInfo.load (msg.drop mid) = .ok info.swap ∧ data = mid + 10 := by
  unfold DNSResourceRecord.decodeHead
  constructor
  · intro h
    obtain ⟨p, hp, h⟩ := Except.bind_ok.mp h
    dsimp only at h
    split at h
    · cases h
    · rename_i near
      simp only [Except.bind_ok] at h
      obtain ⟨⟨name, n⟩, hn, info, hl, h⟩ := h
      cases h
      refine ⟨p, n, _, hp, Nat.not_lt.mp near, hn, rfl, ?_, rfl⟩
      rw [FixedRRInfo.swap_swap]
      exact hl
  · rintro ⟨p, n, mid, hp, near, hn, hmid, hl, rfl⟩
    simp only [hp, bind, Except.bind, maxDnsPacketLength, Nat.not_lt.mpr near, if_false,
      maxDnsNameLength, hn, hmid, hl, FixedRRInfo.swap_swap]

/-- With the head read, `decode` goes on with the data. -/
theorem decode_of_head {msg name : List Byte} {off data : Nat} {info : FixedRRInfo}
    (head : DNSResourceRecord.decodeHead msg off = .ok (name, info, data))
    (uninit : Nat → Byte) : DNSResourceRecord.decode uninit msg off =
      (DNSResourceRecord.decodeRData uninit info.type (msg.drop data) msg
        info.rdlength.toNat).map fun rdata => (⟨name, info, rdata⟩, data + info.rdlength.toNat) := by
  unfold DNSResourceRecord.decode
  rw [head]
  rfl

/-- What a call of `decode` that returns has done. -/
theorem decode_ok_iff {msg : List Byte} {off after : Nat} {uninit : Nat → Byte}
    {rr : DNSResourceRecord} {p : Option Nat} (hp : leadingPointer (msg.drop off) = .ok p) :
    DNSResourceRecord.decode uninit msg off = .ok (rr, after) ↔
      p.getD off ≤ 512 ∧ ∃ n mid,
        decodeName (msg.drop (p.getD off)) msg 256 = .ok (rr.name, n) ∧
        (if p.isSome then off + 2 else p.getD off + n) = mid ∧
        FixedRRInfo.load (msg.drop mid) = .ok rr.info.swap ∧
        DNSResourceRecord.decodeRData uninit rr.info.type (msg.drop (mid + 10)) msg
          rr.info.rdlength.toNat = .ok rr.rdata ∧
        after = mid + 10 + rr.info.rdlength.toNat := by
  constructor
  · intro h
    obtain ⟨⟨name, info, data⟩, head, h⟩ := Except.bind_ok.mp h
    obtain ⟨rdata, hd, h⟩ := Except.bind_ok.mp h
    cases h
    obtain ⟨p', n, mid, hp', near, hn, hmid, hl, rfl⟩ := decodeHead_ok_iff.mp head
    cases hp.symm.trans hp'
    exact ⟨near, n, mid, hn, hmid, hl, hd, rfl⟩
  · rintro ⟨near, n, mid, hn, hmid, hl, hd, rfl⟩
    rw [decode_of_head (decodeHead_ok_iff.mpr ⟨p, n, mid, hp, near, hn, hmid, hl, rfl⟩), hd]
    rfl

end OdbcDns
