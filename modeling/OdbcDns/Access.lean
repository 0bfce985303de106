import OdbcDns.Resolver
import OdbcDns.Lib.Logged

/-! The parser of questions once more, down to the accesses it makes: every byte it
loads, and every byte that `decodeName` stores into its output buffer. -/

namespace OdbcDns

/-- The objects that the pointers of the parser point into. -/
inductive Region where
  | packet
  /-- The memory at the address of the parameter `packet` of `extractQueries`. -/
  | stack
  deriving DecidableEq, Repr

structure Address where
  region : Region
  offset : Nat
  deriving DecidableEq, Repr

def Address.add (a : Address) (n : Nat) : Address := ⟨a.region, a.offset + n⟩

abbrev Memory := Region → List Byte

/-- The memory that the parser finds: a packet, and what happens to be on the stack. -/
def Packet.memory (p : Packet) (stack : List Byte) : Memory
  | .packet => p.bytes
  | .stack => stack

/-- The memory from an address to the end of the object. -/
def Memory.from (mem : Memory) (a : Address) : List Byte := (mem a.region).drop a.offset

inductive Access where
  | load (a : Address)
  /-- `outputBuffer[i] = b` -/
  | store (i : Int) (b : Byte)
  deriving DecidableEq, Repr

abbrev Traced := Logged Access Stop

def load (mem : Memory) (a : Address) : Traced Byte := do
  Logged.log (.load a)
  Logged.lift (readByte (mem a.region) a.offset)

/-- The loop of `strlen`, over the bytes that are left. -/
def strlenAt (a : Address) : List Byte → Nat → Traced Nat
  | [], _ => do
    Logged.log (.load a)
    Logged.stop (.fault .outOfBounds)
  | b :: rest, n => do
    Logged.log (.load a)
    if b = 0 then pure n else strlenAt (a.add 1) rest (n + 1)

/-- Arithmetic of type `int` wraps. -/
def toInt (n : Int) : Int := (n + 2147483648) % 4294967296 - 2147483648

/-- The variables `dstLoc` and `bytesRead`. -/
structure Cursor where
  dstLoc : Int
  bytesRead : Nat
  deriving DecidableEq, Repr

def Cursor.next (c : Cursor) : Cursor := ⟨toInt (c.dstLoc + 1), sizeAdd c.bytesRead 1⟩

/-- `dstLoc + 1 > bufLen`, an `int` compared with a `size_t`. -/
def Cursor.full (c : Cursor) (bufLen : Nat) : Prop := toSize (toInt (c.dstLoc + 1)) > bufLen

instance instDecidableFull (c : Cursor) (bufLen : Nat) : Decidable (c.full bufLen) :=
  inferInstanceAs (Decidable (_ > _))

/-- The copy loop, with the number of characters left and the place of the next one. -/
def copyLabelAt (mem : Memory) (bufLen : Nat) : Nat → Address → Cursor → Traced Cursor
  | 0, _, c => pure c
  | n + 1, src, c =>
    if c.full bufLen then Logged.stop (.exception "Buffer too small")
    else do
      let b ← load mem src
      Logged.log (.store c.dstLoc b)
      copyLabelAt mem bufLen n (src.add 1) c.next

/-- The `do ... while` of `decodeName`. -/
def decodeLoopAt (mem : Memory) (message : Region) (bufLen : Nat) :
    Nat → Address → Cursor → Traced Cursor
  | 0, _, _ => Logged.stop (.fault .hang)
  | fuel + 1, srcLoc, c => do
    let b0 ← load mem srcLoc
    if charToUnsigned b0 &&& 0xC0 = 0xC0 then do
      let b1 ← load mem (srcLoc.add 1)
      decodeLoopAt mem message bufLen fuel ⟨message, pointerOffset b0 b1⟩ c
    else if charToUnsigned b0 > 63 then
      Logged.stop (.exception "Label length longer than maximum of 63")
    else do
      let c ← copyLabelAt mem bufLen b0.toNat (srcLoc.add 1) c
      if c.full bufLen then Logged.stop (.exception "Buffer too small")
      else do
        Logged.log (.store c.dstLoc dot)
        if b0 = 0 then pure c.next
        else decodeLoopAt mem message bufLen fuel (srcLoc.add (b0.toNat + 1)) c.next

/-- `DNSUtil::decodeName`. The terminator is stored at `dstLoc - 2`, whatever that is. -/
def decodeNameAt (mem : Memory) (name : Address) (message : Region) (bufLen : Nat) :
    Traced Nat := do
  let qnameLength ← strlenAt name (mem.from name) 0
  if qnameLength > 255 then
    Logged.stop (.exception "QNAME length longer than maximum of 255")
  else do
    let c ← decodeLoopAt mem message bufLen (decodeFuel bufLen) name ⟨0, 0⟩
    Logged.log (.store (toInt (c.dstLoc - 2)) 0)
    pure c.bytesRead

/-- What a store leaves in an output buffer. A store outside of it changes other memory. -/
def Access.apply (buffer : List Byte) : Access → List Byte
  | .load _ => buffer
  | .store i b => if 0 ≤ i then buffer.set i.toNat b else buffer

/-- An output buffer after the accesses. -/
def outputBuffer (buffer : List Byte) (log : List Access) : List Byte :=
  log.foldl Access.apply buffer

/-- A store hits a buffer of the given length. -/
def Access.Inside (bufLen : Nat) : Access → Prop
  | .load _ => True
  | .store i _ => 0 ≤ i ∧ i < bufLen

instance instDecidableInside (bufLen : Nat) (a : Access) : Decidable (a.Inside bufLen) :=
  match a with
  | .load _ => .isTrue trivial
  | .store _ _ => inferInstanceAs (Decidable (_ ∧ _))

/-- A call of `decodeName` with a buffer of 256 characters. The string ends before what the
buffer held earlier. What comes after a store outside the buffer is undefined. -/
def decodeString (mem : Memory) (name : Address) (message : Region) :
    Traced (List Byte × Nat) := do
  let (n, log) ← Logged.listen (decodeNameAt mem name message (maxDnsNameLength + 1))
  if ∀ a ∈ log, a.Inside (maxDnsNameLength + 1) then
    pure (cstr (outputBuffer (List.replicate (maxDnsNameLength + 1) 0) log), n)
  else Logged.stop (.fault .outOfBounds)

/-- The constructor of `DNSQuery`, whose argument `message` is the stack. -/
def DNSQuery.parseAt (mem : Memory) (start : Address) : Traced DNSQuery := do
  let b0 ← load mem start
  if charToUnsigned b0 &&& 0xC0 = 0xC0 then do
    let b1 ← load mem (start.add 1)
    let (qname, _) ← decodeString mem ⟨.stack, pointerOffset b0 b1⟩ .stack
    let t ← load mem (start.add 3)
    let c ← load mem (start.add 5)
    pure ⟨qname, charToU16 t, charToU16 c, 6⟩
  else do
    let (qname, n) ← decodeString mem start .stack
    let t ← load mem (start.add (n + 1))
    let c ← load mem (start.add (n + 3))
    pure ⟨qname, charToU16 t, charToU16 c, n + 4⟩

/-- The loop of `extractQueries` over the questions that are left. -/
def extractLoopAt (mem : Memory) : Nat → Nat → Traced (List DNSQuery)
  | 0, _ => pure []
  | n + 1, ptr => do
    let query ← DNSQuery.parseAt mem ⟨.packet, ptr⟩
    let queries ← extractLoopAt mem n (ptr + query.length)
    pure (query :: queries)

/-- `extractQueries`, from the two bytes of `qdcount` on. -/
def extractQueriesAt (mem : Memory) : Traced (List DNSQuery) := do
  let high ← load mem ⟨.packet, 4⟩
  let low ← load mem ⟨.packet, 5⟩
  extractLoopAt mem (high.toNat * 256 + low.toNat) headerLength

end OdbcDns
