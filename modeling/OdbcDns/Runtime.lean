import OdbcDns.Lib.Slice

namespace OdbcDns
open Slice

abbrev Byte := UInt8

/-- Ends of a call that no handler of the program sees: the process is
terminated, does something undefined, or never comes back. -/
inductive Fault where
  /-- A `memcpy_s`, `strcpy_s` or `_itoa_s` whose destination is too small. -/
  | invalidParameter
  /-- An access outside the object that a pointer points into. -/
  | outOfBounds
  /-- A call through an RDATA pointer that is null or already deleted. -/
  | badRData
  | hang
  deriving DecidableEq, Repr

/-- Why a call did not return: a `std::exception`, a thrown `int`, or a fault. -/
inductive Stop where
  | exception (what : String)
  | code (n : Int)
  | fault (f : Fault)
  deriving DecidableEq, Repr

def dot : Byte := 46

/-- A pointer is the list of bytes from its address to the end of the object.
The C string it points to ends before the first NUL. -/
def cstr (mem : List Byte) : List Byte := mem.takeWhile (· ≠ 0)

def strlen (mem : List Byte) : Except Stop Nat :=
  if (0 : Byte) ∈ mem then .ok (cstr mem).length else .error (.fault .outOfBounds)

/-- A `char` converted to `unsigned int`, `char` being signed. -/
def charToUnsigned (b : Byte) : Nat :=
  if b.toNat < 128 then b.toNat else 4294967040 + b.toNat

/-- A `char` converted to a sixteen-bit enumeration, `char` being signed. -/
def charToU16 (b : Byte) : UInt16 :=
  if b.toNat < 128 then UInt16.ofNat b.toNat else UInt16.ofNat (65280 + b.toNat)

/-- `uint16_t ptr = p[1] | p[0] << 8; ptr &= 0x3FFF;` with `p` a `char*`. -/
def pointerOffset (b0 b1 : Byte) : Nat :=
  (charToUnsigned b1 ||| (charToUnsigned b0 <<< 8)) % 65536 &&& 0x3FFF

/-- A signed length passed where a `size_t` is expected. -/
def toSize (n : Int) : Nat := (n % 18446744073709551616).toNat

/-- `size_t` addition and subtraction. -/
def sizeAdd (a b : Nat) : Nat := (a + b) % 18446744073709551616

def sizeSub (a b : Nat) : Nat := toSize ((a : Int) - b)

/-- Host to network order on a little-endian machine. -/
def htons (v : UInt16) : UInt16 := UInt16.ofNat (v.toNat % 256 * 256 + v.toNat / 256)

def htonl (v : UInt32) : UInt32 :=
  UInt32.ofNat (v.toNat % 256 * 16777216 + v.toNat / 256 % 256 * 65536 +
    v.toNat / 65536 % 256 * 256 + v.toNat / 16777216)

/-- The bytes of a number in memory, least significant first. -/
def memory16 (v : UInt16) : List Byte :=
  [UInt8.ofNat (v.toNat % 256), UInt8.ofNat (v.toNat / 256)]

def memory32 (v : UInt32) : List Byte :=
  [UInt8.ofNat (v.toNat % 256), UInt8.ofNat (v.toNat / 256 % 256),
    UInt8.ofNat (v.toNat / 65536 % 256), UInt8.ofNat (v.toNat / 16777216)]

def load16 (b0 b1 : Byte) : UInt16 := UInt16.ofNat (b0.toNat + b1.toNat * 256)

def load32 (b0 b1 b2 b3 : Byte) : UInt32 :=
  UInt32.ofNat (b0.toNat + b1.toNat * 256 + b2.toNat * 65536 + b3.toNat * 16777216)

def isSpace (b : Byte) : Bool := b = 32 || (9 ≤ b && b ≤ 13)

def isDigit (b : Byte) : Bool := 48 ≤ b && b ≤ 57

def digitsValue (text : List Byte) : Nat :=
  (text.takeWhile isDigit).foldl (fun n b => n * 10 + (b.toNat - 48)) 0

def atoi (text : List Byte) : Int :=
  match text.dropWhile isSpace with
  | 45 :: rest => -(digitsValue rest : Int)
  | 43 :: rest => digitsValue rest
  | rest => digitsValue rest

/-- Decimal digits of a number, as `_itoa_s` writes them. -/
def itoa (n : Nat) : List Byte := (Nat.toDigits 10 n).map (fun c => UInt8.ofNat c.toNat)

end OdbcDns
