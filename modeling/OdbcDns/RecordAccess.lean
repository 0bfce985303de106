import OdbcDns.Access

/-! The decoder of records once more, down to the bytes of the packet that it loads, and
`cacheResponse` with the calls that it makes of the decoder. -/

namespace OdbcDns

/-- The copy that `memcpy_s` makes of `n` bytes. -/
def loadBytes (mem : Memory) : Nat → Address → Traced (List Byte)
  | 0, _ => pure []
  | n + 1, a => do
    let b ← load mem a
    let bs ← loadBytes mem n (a.add 1)
    pure (b :: bs)

def leadingPointerAt (mem : Memory) (buffer : Address) : Traced (Option Nat) := do
  let b0 ← load mem buffer
  if charToUnsigned b0 &&& 0xC0 = 0xC0 then do
    let b1 ← load mem (buffer.add 1)
    pure (some (pointerOffset b0 b1))
  else pure none

def FixedRRInfo.loadAt (mem : Memory) (srcLoc : Address) : Traced FixedRRInfo := do
  let bs ← loadBytes mem 10 srcLoc
  Logged.lift (FixedRRInfo.load bs)

/-- `DNSRDataA::decode`. The length is checked before anything is copied. -/
def DNSRDataA.decodeAt (uninit : Nat → Byte) (mem : Memory) (buffer : Address) (bufLen : Nat) :
    Traced DNSRDataA :=
  if bufLen > 4 then Logged.stop (.fault .invalidParameter)
  else do
    let bs ← loadBytes mem bufLen buffer
    Logged.lift (DNSRDataA.decode uninit bs bufLen)

def DNSRDataCNAME.decodeAt (mem : Memory) (buffer : Nat) : Traced DNSRDataCNAME := do
  let pointer ← leadingPointerAt mem ⟨.packet, buffer⟩
  let (name, _) ← decodeString mem ⟨.packet, pointer.getD buffer⟩ .packet
  Logged.lift (DNSRDataCNAME.ofText name)

namespace DNSResourceRecord

def decodeRDataAt (uninit : Nat → Byte) (mem : Memory) (type : UInt16) (srcLoc rdlength : Nat) :
    Traced (Option DNSRData) :=
  if type = typeA then do
    let d ← DNSRDataA.decodeAt uninit mem ⟨.packet, srcLoc⟩ rdlength
    pure (some (.a d))
  else if type = typeCname then do
    let d ← DNSRDataCNAME.decodeAt mem srcLoc
    pure (some (.cname d))
  else pure none

/-- `DNSResourceRecord::decode` of the record at offset `buffer` of the packet. -/
def decodeAt (uninit : Nat → Byte) (mem : Memory) (buffer : Nat) :
    Traced (DNSResourceRecord × Nat) := do
  let pointer ← leadingPointerAt mem ⟨.packet, buffer⟩
  let srcLoc := pointer.getD buffer
  if srcLoc > maxDnsPacketLength then
    Logged.stop (.exception "Tried to access out of packet bounds")
  else do
    let (name, nameBytes) ← decodeString mem ⟨.packet, srcLoc⟩ .packet
    let srcLoc := if pointer.isSome then buffer + 2 else srcLoc + nameBytes
    let info ← FixedRRInfo.loadAt mem ⟨.packet, srcLoc⟩
    let info := info.swap
    let srcLoc := srcLoc + 10
    let rdata ← decodeRDataAt uninit mem info.type srcLoc info.rdlength.toNat
    pure (⟨name, info, rdata⟩, srcLoc + info.rdlength.toNat)

end DNSResourceRecord

/-- One step of the loop of `cacheResponse`: the record with this number is decoded from
this offset on. -/
structure DecodeStep where
  number : Nat
  buffer : Nat
  deriving DecidableEq, Repr

namespace DecodeStep

abbrev SteppingCall := Act (Session × List DecodeStep) Stop

/-- A step is noted before the decoder is called. -/
def host : Host (Session × List DecodeStep) where
  call := Act.silent
  commit := Act.silent commit
  log guard type rclass := Act.lift (if guard then describe type rclass else .ok ())
  decoding number buffer := Act.note ⟨number, buffer⟩

/-- The steps that are made from a session on. -/
def steps {α : Type} (x : SteppingCall α) (s : Session) : List DecodeStep := (x (s, [])).2.2

end DecodeStep

end OdbcDns
