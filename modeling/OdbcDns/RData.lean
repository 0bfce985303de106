import OdbcDns.Util

namespace OdbcDns

structure DNSRDataA where
  addr : List Byte
  value : List Byte
  deriving DecidableEq, Repr

structure DNSRDataCNAME where
  name : List Byte
  deriving DecidableEq, Repr

namespace DNSRDataA

/-- The characters before the next dot or NUL, whichever comes first. -/
def field (ptr : List Byte) : Except Stop (List Byte) :=
  let text := ptr.takeWhile (fun b => b ≠ dot && b ≠ 0)
  if text.length < ptr.length then .ok text else .error (.fault .outOfBounds)

/-- The parsing loop of the constructor. Nothing checks that a field is there:
behind the last one it reads on in the caller's buffer. -/
def parseFields : Nat → List Byte → Except Stop (List Byte)
  | 0, _ => .ok []
  | n + 1, ptr => do
    let temp ← field ptr
    if temp.length > 4 then .error (.fault .invalidParameter)
    else if temp.length = 4 then .error (.fault .outOfBounds)
    else do
      let rest ← parseFields n (ptr.drop (temp.length + 1))
      .ok (UInt8.ofNat (atoi temp % 256).toNat :: rest)

/-- The constructor, applied to the memory behind its `char*` argument. -/
def ofText (addrStr : List Byte) : Except Stop DNSRDataA := do
  let n ← strlen addrStr
  if n + 1 > 16 then .error (.fault .invalidParameter)
  else do
    let addr ← parseFields 4 addrStr
    .ok ⟨addr, cstr addrStr⟩

def encode (d : DNSRDataA) (bufLen : Int) : Except Stop (List Byte) :=
  if toSize bufLen < 4 then .error (.fault .invalidParameter) else .ok d.addr

/-- The formatting loop of `decode`. `value` is the text before `ptr`, which is
always recomputed from the remaining length. -/
def formatFields : List Byte → Nat → List Byte → Except Stop (List Byte)
  | [], remLen, value => .ok (value.take (16 - remLen))
  | a :: rest, remLen, value =>
    let text := itoa a.toNat
    if text.length + 1 > remLen then .error (.fault .invalidParameter)
    else
      let value := value.take (16 - remLen) ++ text
      let remLen := remLen - (if a.toNat > 99 then 3 else if a.toNat > 9 then 2 else 1)
      if rest = [] then formatFields rest remLen value
      else if text.length + 2 > remLen then .error (.fault .invalidParameter)
      else formatFields rest (remLen - 1) (value ++ [dot])

/-- `decode`. The address is on the heap; what the copy does not reach keeps the
bytes that were there. -/
def decode (uninit : Nat → Byte) (buffer : List Byte) (bufLen : Nat) :
    Except Stop DNSRDataA :=
  if bufLen > 4 then .error (.fault .invalidParameter)
  else if buffer.length < bufLen then .error (.fault .outOfBounds)
  else do
    let addr := [0, 1, 2, 3].map (fun i => if i < bufLen then byteAt buffer i else uninit i)
    let value ← formatFields addr 16 []
    .ok ⟨addr, value⟩

end DNSRDataA

/-- The test for a compression pointer at the start of a name, made in the same
way for questions, owner names and aliases. -/
def leadingPointer (buffer : List Byte) : Except Stop (Option Nat) :=
  match buffer with
  | [] => .error (.fault .outOfBounds)
  | b0 :: rest =>
    if charToUnsigned b0 &&& 0xC0 = 0xC0 then
      match rest with
      | [] => .error (.fault .outOfBounds)
      | b1 :: _ => .ok (some (pointerOffset b0 b1))
    else .ok none

namespace DNSRDataCNAME

def ofText (name : List Byte) : Except Stop DNSRDataCNAME :=
  if name.length + 1 > maxDnsNameLength + 1 then .error (.fault .invalidParameter)
  else .ok ⟨name⟩

def encode (d : DNSRDataCNAME) (bufLen : Int) : Except Stop (List Byte) :=
  encodeName d.name (toSize bufLen)

def decode (buffer packet : List Byte) : Except Stop DNSRDataCNAME := do
  let srcLoc := match ← leadingPointer buffer with
    | some ptr => packet.drop ptr
    | none => buffer
  let (name, _) ← decodeName srcLoc packet (maxDnsNameLength + 1)
  ofText name

end DNSRDataCNAME

inductive DNSRData where
  | a (d : DNSRDataA)
  | cname (d : DNSRDataCNAME)
  deriving DecidableEq, Repr

def DNSRData.encode (d : DNSRData) (bufLen : Int) : Except Stop (List Byte) :=
  match d with
  | .a d => d.encode bufLen
  | .cname d => d.encode bufLen

def DNSRData.getValue : DNSRData → List Byte
  | .a d => d.value
  | .cname d => d.name

end OdbcDns
