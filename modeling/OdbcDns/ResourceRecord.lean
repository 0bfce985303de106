import OdbcDns.RData

namespace OdbcDns

structure FixedRRInfo where
  type : UInt16
  rclass : UInt16
  ttl : UInt32
  rdlength : UInt16
  deriving DecidableEq, Repr

/-- The ten bytes that are copied from and to packets. -/
def FixedRRInfo.memory (info : FixedRRInfo) : List Byte :=
  memory16 info.type ++ memory16 info.rclass ++ memory32 info.ttl ++ memory16 info.rdlength

/-- `ntohs` and `ntohl` applied to the fields, which undoes `htons` and `htonl`. -/
def FixedRRInfo.swap (info : FixedRRInfo) : FixedRRInfo :=
  ⟨htons info.type, htons info.rclass, htonl info.ttl, htons info.rdlength⟩

def FixedRRInfo.load : List Byte → Except Stop FixedRRInfo
  | t0 :: t1 :: c0 :: c1 :: l0 :: l1 :: l2 :: l3 :: n0 :: n1 :: _ =>
    .ok ⟨load16 t0 t1, load16 c0 c1, load32 l0 l1 l2 l3, load16 n0 n1⟩
  | _ => .error (.fault .outOfBounds)

/-- The signed reading of a TTL. -/
def signedTTL (ttl : UInt32) : Int :=
  if ttl.toNat < 2147483648 then ttl.toNat else (ttl.toNat : Int) - 4294967296

structure DNSResourceRecord where
  name : List Byte
  info : FixedRRInfo
  rdata : Option DNSRData
  deriving DecidableEq, Repr

/-- `map<string, uint16_t>`: where in the packet a name has been spelled out. -/
abbrev PointerLocations := List Byte → Option UInt16

namespace PointerLocations

def insert (t : PointerLocations) (name : List Byte) (loc : UInt16) : PointerLocations :=
  fun n => if n = name then some loc else t n

end PointerLocations

namespace DNSResourceRecord

def getType (rr : DNSResourceRecord) : UInt16 := rr.info.type

def getClass (rr : DNSResourceRecord) : UInt16 := rr.info.rclass

/-- `getTTL` returns the unsigned field as an `int32_t`. -/
def getTTL (rr : DNSResourceRecord) : Int := signedTTL rr.info.ttl

/-- The owner name as `encode` writes it: a pointer when there is one. -/
def encodeOwner (name : List Byte) (bufLen : Nat) (pointerLocations : PointerLocations) :
    Except Stop (List Byte) :=
  match pointerLocations name with
  | some loc =>
    if bufLen < 2 then .error (.fault .invalidParameter)
    else .ok (memory16 (htons (loc ||| 0xC000)))
  | none => encodeName name bufLen

/-- `encode`, writing at offset `off` of the packet. The stored fields are left
in network order. -/
def encode (rr : DNSResourceRecord) (packet : Packet) (off bufLen : Nat)
    (pointerLocations : PointerLocations) :
    Except Stop (DNSResourceRecord × Packet × Nat) := do
  let owner ← encodeOwner rr.name bufLen pointerLocations
  let packet ← packet.store off owner
  let ptr := off + owner.length
  let remainingLen : Int := (bufLen : Int) - owner.length
  match rr.rdata with
  | none => .error (.fault .badRData)
  | some rdata =>
    let data ← rdata.encode (remainingLen - 10)
    let packet ← packet.store (ptr + 10) data
    let info := { rr.info with rdlength := UInt16.ofNat data.length }.swap
    let remainingLen := remainingLen - data.length
    if toSize remainingLen < 10 then .error (.fault .invalidParameter)
    else
      let packet ← packet.store ptr info.memory
      let remainingLen := remainingLen - 10
      .ok ({ rr with info }, packet, toSize (bufLen - remainingLen))

/-- The `switch` over the type. Data of any other type is passed over. -/
def decodeRData (uninit : Nat → Byte) (type : UInt16) (data packet : List Byte) (rdlength : Nat) :
    Except Stop (Option DNSRData) :=
  if type = typeA then (DNSRDataA.decode uninit data rdlength).map (fun d => some (.a d))
  else if type = typeCname then (DNSRDataCNAME.decode data packet).map (fun d => some (.cname d))
  else .ok none

/-- What `decode` reads of a record before the data: the owner, the fixed part, and the
place of the data. -/
def decodeHead (packet : List Byte) (buffer : Nat) :
    Except Stop (List Byte × FixedRRInfo × Nat) := do
  let pointer ← leadingPointer (packet.drop buffer)
  let srcLoc := pointer.getD buffer
  if srcLoc > maxDnsPacketLength then .error (.exception "Tried to access out of packet bounds")
  else
    let (name, nameBytes) ← decodeName (packet.drop srcLoc) packet (maxDnsNameLength + 1)
    let srcLoc := if pointer.isSome then buffer + 2 else srcLoc + nameBytes
    let info ← FixedRRInfo.load (packet.drop srcLoc)
    .ok (name, info.swap, srcLoc + 10)

/-- `decode` of the record at offset `buffer`; the second result is the offset
behind the record. The buffer length that the source passes along is not used. -/
def decode (uninit : Nat → Byte) (packet : List Byte) (buffer : Nat) :
    Except Stop (DNSResourceRecord × Nat) := do
  let (name, info, srcLoc) ← decodeHead packet buffer
  let rdata ← decodeRData uninit info.type (packet.drop srcLoc) packet info.rdlength.toNat
  .ok (⟨name, info, rdata⟩, srcLoc + info.rdlength.toNat)

end DNSResourceRecord

end OdbcDns
