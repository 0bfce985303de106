import OdbcDns.Database
import OdbcDns.Proofs.Records

namespace OdbcDns
open Slice Rfc1035

inductive Target where
  | address (q : Quad)
  | cname (n : DomainName)

/-- A row that the lookup may return: well-formed names, canonical addresses. -/
structure Answer where
  owner : DomainName
  rclass : UInt16
  ttl : UInt32
  target : Target

namespace Target

def type : Target → UInt16
  | .address _ => typeA
  | .cname _ => typeCname

def text : Target → List Byte
  | .address q => q.text
  | .cname n => n.text

/-- The data of the record on the wire. -/
def bytes : Target → List Byte
  | .address q => q.octets
  | .cname n => n.wire

def rdata : Target → RData
  | .address q => .address q.octets
  | .cname n => .name n.labels

/-- The object that `resolveA` makes of it. -/
def object : Target → DNSRData
  | .address q => .a ⟨q.octets, q.text⟩
  | .cname n => .cname ⟨n.text⟩

end Target

namespace Answer

def row (a : Answer) : Row := ⟨a.ttl, a.owner.text, a.target.text, a.target.type, a.rclass⟩

/-- The record that a reader of the reply should find. -/
def record (a : Answer) : ResourceRecord :=
  ⟨a.owner.labels, a.target.type, a.rclass, a.ttl, a.target.rdata⟩

def isAddress (a : Answer) : Bool :=
  match a.target with
  | .address _ => true
  | .cname _ => false

end Answer

/-- The owner name as it is written with the names already spelled out. -/
def ownerBytes (t : PointerLocations) (n : DomainName) : List Byte :=
  match t n.text with
  | some loc => be16 (loc ||| 0xC000)
  | none => n.wire

def recordBytes (t : PointerLocations) (a : Answer) : List Byte :=
  ownerBytes t a.owner ++
    fixedPart a.target.type a.rclass a.ttl (UInt16.ofNat a.target.bytes.length) ++ a.target.bytes

theorem length_recordBytes (t : PointerLocations) (a : Answer) :
    (recordBytes t a).length = (ownerBytes t a.owner).length + 10 + a.target.bytes.length := by
  simp only [recordBytes, List.length_append, length_fixedPart]

theorem Target.length_bytes_le (x : Target) : x.bytes.length ≤ 256 := by
  cases x with
  | address q => simp [Target.bytes, Quad.octets]
  | cname n =>
    have := n.short
    have h := n.length_wire
    unfold DomainName.text at h
    simp only [Target.bytes]
    omega

theorem Target.length_text_le (x : Target) : x.text.length ≤ 254 := by
  cases x with
  | address q => exact Nat.le_trans q.length_text_le (by decide)
  | cname n => exact n.short

theorem Target.zero_not_mem (x : Target) : (0 : Byte) ∉ x.text := by
  cases x with
  | address q => exact q.zero_not_mem
  | cname n => exact n.zero_not_mem

theorem Target.toNat_length (x : Target) :
    (UInt16.ofNat x.bytes.length).toNat = x.bytes.length := by
  have := x.length_bytes_le
  rw [UInt16.toNat_ofNat']
  omega

/-- Owner names are encoded as planned, or not at all. -/
theorem encodeOwner_ok {t : PointerLocations} {n : DomainName} {bufLen : Nat} {bs : List Byte}
    (h : DNSResourceRecord.encodeOwner n.text bufLen t = .ok bs) : bs = ownerBytes t n := by
  unfold DNSResourceRecord.encodeOwner at h
  unfold ownerBytes
  cases ht : t n.text with
  | some loc =>
    simp only [ht] at h ⊢
    split at h
    · cases h
    · cases h
      exact memory16_htons _
  | none =>
    simp only [ht, n.encodeName_text] at h ⊢
    split at h
    · exact (Except.ok.inj h).symm
    · cases h

theorem encodeOwner_of_fits (t : PointerLocations) (n : DomainName) {bufLen : Nat}
    (h : (ownerBytes t n).length ≤ bufLen) :
    DNSResourceRecord.encodeOwner n.text bufLen t = .ok (ownerBytes t n) := by
  unfold DNSResourceRecord.encodeOwner
  unfold ownerBytes at h ⊢
  cases ht : t n.text with
  | some loc =>
    simp only [ht, length_be16] at h ⊢
    rw [if_neg (by omega), memory16_htons]
  | none =>
    simp only [ht, n.encodeName_text] at h ⊢
    refine if_pos (fun l hl => ?_)
    have := length_label_le_wire hl
    unfold DomainName.wire at h
    omega

/-- So is the data. -/
theorem encodeTarget_ok {x : Target} {k : Int} {bs : List Byte}
    (h : x.object.encode k = .ok bs) : bs = x.bytes := by
  cases x with
  | address q =>
    simp only [Target.object, DNSRData.encode, DNSRDataA.encode] at h
    split at h
    · cases h
    · exact (Except.ok.inj h).symm
  | cname n =>
    simp only [Target.object, DNSRData.encode, DNSRDataCNAME.encode, n.encodeName_text] at h
    split at h
    · exact (Except.ok.inj h).symm
    · cases h

theorem encodeTarget_of_fits (x : Target) {k : Int} (h : (x.bytes.length : Int) ≤ k)
    (hk : k < 18446744073709551616) : x.object.encode k = .ok x.bytes := by
  have hs : toSize k = k.toNat := toSize_of_lt (by omega) hk
  cases x with
  | address q =>
    simp only [Target.bytes, Quad.octets, List.length_cons, List.length_nil] at h
    simp only [Target.object, DNSRData.encode, DNSRDataA.encode, hs]
    exact if_neg (by omega)
  | cname n =>
    simp only [Target.bytes] at h
    simp only [Target.object, DNSRData.encode, DNSRDataCNAME.encode, n.encodeName_text, hs]
    refine if_pos (fun l hl => ?_)
    have := length_label_le_wire hl
    unfold DomainName.wire at h
    omega

/-- The record object that `resolveA` builds from a row. -/
def Answer.object (a : Answer) : DNSResourceRecord :=
  ⟨a.owner.text, ⟨a.target.type, a.rclass, a.ttl, 0⟩, some a.target.object⟩

/-- An encoded answer is its record bytes, and their number is returned. -/
theorem Answer.encode_ok {a : Answer} {rr : DNSResourceRecord} {p p' : Packet}
    {off bufLen n : Nat} {t : PointerLocations}
    (h : a.object.encode p off bufLen t = .ok (rr, p', n)) :
    n = (recordBytes t a).length ∧ off + n ≤ 1024 ∧
      p'.bytes = overwrite p.bytes off (recordBytes t a) := by
  obtain ⟨owner, rdata, data, ho, hr, hd, hn, hle, hp⟩ := OdbcDns.encode_ok h
  cases Option.some.inj hr
  obtain rfl := encodeOwner_ok ho
  obtain rfl := encodeTarget_ok hd
  exact ⟨hn.trans (length_recordBytes t a).symm, hle, hp⟩

theorem Answer.encode_of_fits (a : Answer) (p : Packet) (t : PointerLocations) (off bufLen : Nat)
    (hfit : (recordBytes t a).length ≤ bufLen) (hbuf : bufLen ≤ 1024)
    (hoff : off + (recordBytes t a).length ≤ 1024) :
    ∃ rr p', a.object.encode p off bufLen t = .ok (rr, p', (recordBytes t a).length) ∧
      p'.bytes = overwrite p.bytes off (recordBytes t a) := by
  rw [length_recordBytes] at hfit hoff ⊢
  obtain ⟨rr, p', he, hp⟩ := OdbcDns.encode_of_fits a.object p off
    (encodeOwner_of_fits t a.owner (by omega)) rfl
    (encodeTarget_of_fits a.target (by omega) (by omega)) hfit hbuf hoff
  exact ⟨rr, p', he, hp⟩

/-- The two bytes of a pointer into the first 2^14 bytes. -/
theorem pointerBytes {loc : UInt16} (h : loc.toNat < 16384) :
    be16 (loc ||| 0xC000) =
      [UInt8.ofNat (192 + loc.toNat / 256), UInt8.ofNat (loc.toNat % 256)] := by
  have hor : (loc ||| 0xC000).toNat = 49152 + loc.toNat := by
    rw [UInt16.toNat_or, Nat.or_comm]
    exact (Nat.shiftLeft_add_eq_or_of_lt (b := loc.toNat) (i := 14) h 3).symm
  unfold be16
  rw [hor, show (49152 + loc.toNat) / 256 = 192 + loc.toNat / 256 by omega,
    show (49152 + loc.toNat) % 256 = loc.toNat % 256 by omega]

theorem pointerTarget_bytes {loc : Nat} (h : loc < 16384) :
    pointerTarget (UInt8.ofNat (192 + loc / 256)) (UInt8.ofNat (loc % 256)) = loc := by
  unfold pointerTarget
  rw [toNat_ofNat_mod, toNat_ofNat_mod]
  omega

/-- A written record is read back as its row, its owner being the name that is
spelled out where the pointer leads. -/
theorem recordAt_of_bytes {msg : Message} {off : Nat} {t : PointerLocations} {a : Answer}
    {ls : List Label} (h : At msg off (recordBytes t a))
    (hp : ∀ loc, t a.owner.text = some loc →
      loc.toNat < 16384 ∧ ∃ next, NameAt msg loc.toNat ls next)
    (hw : t a.owner.text = none → ls = a.owner.labels) :
    RecordAt msg off { a.record with name := ls } (off + (recordBytes t a).length) := by
  obtain ⟨hof, hd⟩ := at_append.mp h
  obtain ⟨ho, hf⟩ := at_append.mp hof
  rw [List.length_append, length_fixedPart, ← Nat.add_assoc] at hd
  have hname : NameAt msg off ls (off + (ownerBytes t a.owner).length) := by
    unfold ownerBytes at ho ⊢
    cases ht : t a.owner.text with
    | none =>
      simp only [ht] at ho ⊢
      rw [hw ht]
      exact nameAt_of_wire a.owner.ok ho
    | some loc =>
      obtain ⟨hlt, next, hn⟩ := hp loc ht
      simp only [ht, pointerBytes hlt] at ho ⊢
      have hhigh : 192 ≤ (UInt8.ofNat (192 + loc.toNat / 256)).toNat := by
        rw [toNat_ofNat_mod]
        omega
      exact .pointer hhigh ho (by rw [pointerTarget_bytes hlt]; exact hn)
  have hdata : RDataAt msg (off + (ownerBytes t a.owner).length + 10) a.target.type
      a.target.bytes.length a.target.rdata := by
    cases hx : a.target with
    | address q =>
      rw [hx] at hd
      exact .address rfl hd
    | cname n =>
      rw [hx] at hd
      exact .name (nameAt_of_wire n.ok hd)
  have he : off + (recordBytes t a).length = off + (ownerBytes t a.owner).length + 10 +
      (UInt16.ofNat a.target.bytes.length).toNat := by
    rw [a.target.toNat_length, length_recordBytes]
    omega
  rw [he]
  exact .mk hname hf (by rw [a.target.toNat_length]; exact hdata)

end OdbcDns
