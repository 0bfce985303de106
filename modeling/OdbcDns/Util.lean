import OdbcDns.Message

namespace OdbcDns

/-- The copy loop of `decodeName`: the room is checked before each byte. -/
def copyLabel (bufLen : Nat) : Nat → List Byte → List Byte → Except Stop (List Byte)
  | 0, _, out => .ok out
  | n + 1, src, out =>
    if out.length + 1 > bufLen then .error (.exception "Buffer too small")
    else match src with
      | [] => .error (.fault .outOfBounds)
      | c :: rest => copyLabel bufLen n rest (out ++ [c])

/-- The `do ... while` of `decodeName`. `out` holds the bytes written so far, so
that `dstLoc` and `bytesRead` are both its length. A jump writes nothing: a
chain of jumps that outlasts the fuel never ends. -/
def decodeLoop (packet : List Byte) (bufLen : Nat) :
    Nat → List Byte → List Byte → Except Stop (List Byte)
  | 0, _, _ => .error (.fault .hang)
  | fuel + 1, srcLoc, out =>
    match srcLoc with
    | [] => .error (.fault .outOfBounds)
    | b0 :: rest =>
      if charToUnsigned b0 &&& 0xC0 = 0xC0 then
        match rest with
        | [] => .error (.fault .outOfBounds)
        | b1 :: _ => decodeLoop packet bufLen fuel (packet.drop (pointerOffset b0 b1)) out
      else if charToUnsigned b0 > 63 then
        .error (.exception "Label length longer than maximum of 63")
      else do
        let out ← copyLabel bufLen b0.toNat rest out
        if out.length + 1 > bufLen then .error (.exception "Buffer too small")
        else if b0 = 0 then .ok (out ++ [dot])
        else decodeLoop packet bufLen fuel (rest.drop b0.toNat) (out ++ [dot])

/-- Between two labels fewer than 2^14 + 1 different jumps are possible, and
every label writes at least one byte. -/
def decodeFuel (bufLen : Nat) : Nat := (bufLen + 2) * 16386

/-- `decodeName` when its loop makes at most `turns` turns. -/
def decodeNameWithin (turns : Nat) (name packet : List Byte) (bufLen : Nat) :
    Except Stop (List Byte × Nat) := do
  let qnameLength ← strlen name
  if qnameLength > 255 then .error (.exception "QNAME length longer than maximum of 255")
  else
    let out ← decodeLoop packet bufLen turns name []
    -- the root alone is closed by a NUL in front of the output buffer
    if out.length < 2 then .error (.fault .outOfBounds)
    else .ok (cstr (out.set (out.length - 2) 0), out.length)

/-- `DNSUtil::decodeName`. The result is the C string left in the output buffer
and the number of bytes read. -/
def decodeName (name packet : List Byte) (bufLen : Nat) : Except Stop (List Byte × Nat) :=
  decodeNameWithin (decodeFuel bufLen) name packet bufLen

/-- The loop of `encodeName`: one label for each turn, the last one up to the
end of the string. `bufLen` is never reduced. -/
def encodeLoop (bufLen : Nat) : Nat → List Byte → Except Stop (List Byte)
  | 0, _ => .error (.fault .hang)
  | fuel + 1, lastPtr =>
    let label := lastPtr.takeWhile (· ≠ dot)
    let len := label.length % 256
    if bufLen < len then .error (.fault .invalidParameter)
    else if dot ∈ lastPtr then do
      let rest ← encodeLoop bufLen fuel (lastPtr.drop (len + 1))
      .ok (UInt8.ofNat len :: (lastPtr.take len ++ rest))
    else .ok (UInt8.ofNat len :: lastPtr.take len)

/-- `DNSUtil::encodeName`: the bytes it writes, the closing NUL included. It
returns their number. -/
def encodeName (name : List Byte) (bufLen : Nat) : Except Stop (List Byte) := do
  let labels ← encodeLoop bufLen (name.length + 1) name
  .ok (labels ++ [0])

end OdbcDns
