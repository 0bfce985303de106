import OdbcDns.Runtime
import OdbcDns.Lib.Rfc1035

namespace OdbcDns
open Slice Rfc1035

def maxDnsPacketLength : Nat := 512

def maxDnsNameLength : Nat := 255

/-- `sizeof(DNSHeader)` -/
def headerLength : Nat := 12

def typeA : UInt16 := 1

def typeCname : UInt16 := 5

/-- Room that the receiver allocates for a request: twice the packet length. -/
def packetAllocation : Nat := 1024

/-- The allocation behind a `DNSPacket*`. -/
structure Packet where
  bytes : List Byte
  size : bytes.length = packetAllocation

namespace Packet

/-- Write bytes at an offset from the start of the packet. -/
def store (p : Packet) (off : Nat) (bs : List Byte) : Except Stop Packet :=
  if h : off + bs.length ≤ p.bytes.length then
    .ok ⟨overwrite p.bytes off bs, (length_overwrite h).trans p.size⟩
  else .error (.fault .outOfBounds)

def set (p : Packet) (i : Nat) (b : Byte) : Packet :=
  ⟨p.bytes.set i b, (List.length_set).trans p.size⟩

/-- A datagram copied to the start of memory with the given earlier content. -/
def ofDatagram (d : List Byte) (old : Packet) : Packet :=
  if h : 0 + d.length ≤ old.bytes.length then
    ⟨overwrite old.bytes 0 d, (length_overwrite h).trans old.size⟩
  else old

end Packet

/-- Byte `i` of a message; the fields of the header are read through it. -/
def byteAt (m : List Byte) (i : Nat) : Byte := m.getD i 0

/-- The two id bytes, compared as they stand. -/
def idOf (m : List Byte) : List Byte := [byteAt m 0, byteAt m 1]

def rd (m : List Byte) : Bool := byteAt m 2 &&& 0x01 ≠ 0

def tc (m : List Byte) : Bool := byteAt m 2 &&& 0x02 ≠ 0

def qr (m : List Byte) : Bool := byteAt m 2 &&& 0x80 ≠ 0

def qdcount (m : List Byte) : Nat := (byteAt m 4).toNat * 256 + (byteAt m 5).toNat

def ancount (m : List Byte) : Nat := (byteAt m 6).toNat * 256 + (byteAt m 7).toNat

def nscount (m : List Byte) : Nat := (byteAt m 8).toNat * 256 + (byteAt m 9).toNat

def arcount (m : List Byte) : Nat := (byteAt m 10).toNat * 256 + (byteAt m 11).toNat

def rcode (m : List Byte) : Nat := (byteAt m 3 &&& 0x0F).toNat

namespace Packet

def setQr (p : Packet) : Packet := p.set 2 (byteAt p.bytes 2 ||| 0x80)

def setTc (p : Packet) : Packet := p.set 2 (byteAt p.bytes 2 ||| 0x02)

def setRa (p : Packet) (v : Bool) : Packet :=
  p.set 3 (if v then byteAt p.bytes 3 ||| 0x80 else byteAt p.bytes 3 &&& 0x7F)

def setRcode (p : Packet) (v : Byte) : Packet :=
  p.set 3 ((byteAt p.bytes 3 &&& 0xF0) ||| (v &&& 0x0F))

/-- Store a converted sixteen-bit count into the header. -/
def setCount (p : Packet) (i : Nat) (v : UInt16) : Packet :=
  (p.set i (UInt8.ofNat ((htons v).toNat % 256))).set (i + 1) (UInt8.ofNat ((htons v).toNat / 256))

end Packet

/-- The response codes that the server sets. -/
inductive Rcode where
  | noError
  | formatError
  | serverFailure
  | notImplemented
  deriving DecidableEq, Repr

def Rcode.byte : Rcode → Byte
  | .noError => 0
  | .formatError => 1
  | .serverFailure => 2
  | .notImplemented => 4

end OdbcDns
