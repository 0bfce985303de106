import OdbcDns.Runtime
import OdbcDns.Lib.Logged

namespace OdbcDns

/-- A C string, without its terminator, as it lies in memory. -/
structure CString where
  chars : List Byte
  unterminated : (0 : Byte) ∉ chars
  size : chars.length < 9223372036854775808

def dash : Byte := 45

def equals : Byte := 61

def charBytes (cs : List Char) : List Byte := cs.map (fun c => UInt8.ofNat c.toNat)

/-- The text of some bytes on the screen. -/
def screenText (bs : List Byte) : String := String.ofList (bs.map (fun b => Char.ofNat b.toNat))

/-- The place of the first occurrence of a character. -/
def strchr : List Byte → Byte → Option Nat
  | [], _ => none
  | b :: s, c => if b = c then some 0 else (strchr s c).map (· + 1)

/-- The difference of the first characters that differ among `n`. The terminator counts as
a character, but nothing behind it does. -/
def strncmp : List Byte → List Byte → Nat → Int
  | [], [], _ => 0
  | [], b :: _, n => if n = 0 then 0 else -(b.toNat : Int)
  | a :: _, [], n => if n = 0 then 0 else a.toNat
  | a :: s, b :: t, n =>
    if n = 0 then 0 else if a = b then strncmp s t (n - 1) else (a.toNat : Int) - b.toNat

/-- `atoi` on a text of any length: it stops at the limits of `int`. -/
def atoiInt (text : List Byte) : Int := max (-2147483648) (min (atoi text) 2147483647)

/-- The variables that `parseArgs` sets. -/
structure Arguments where
  connectionString : List UInt16
  logPropertiesPath : Option (List Byte)
  recursiveServer : List Byte
  port : Int
  numThreads : Int
  deriving DecidableEq, Repr

/-- How the program ends before `parseArgs` has returned. -/
inductive Exit where
  /-- `exit(0)` at the end of `printUsage` -/
  | usage
  | fault (f : Fault)
  deriving DecidableEq, Repr

/-- A part of the program before the server is started, with what it prints. -/
abbrev Printing := Logged String Exit

def printUsage {α : Type} (appName : List Byte) : Printing α := do
  let app := screenText appName
  Logged.log s!"usage:\n\t{app} odbcconnectionstring [-option ...]\n\n"
  Logged.log "options:\n\trecursiveserver=SERVER\t- server to use for recursive queries\n"
  Logged.log "\tport=PORT\t\t- port to listen to\n"
  Logged.log "\tthreads=THREADS\t\t- number of threads and ODBC connections to use\n"
  Logged.log "\tlogproperties=FILE\t- path to log4cxx properties file\n"
  Logged.stop .usage

def recursiveserverName : List Byte :=
  charBytes ['r', 'e', 'c', 'u', 'r', 's', 'i', 'v', 'e', 's', 'e', 'r', 'v', 'e', 'r']

def portName : List Byte := charBytes ['p', 'o', 'r', 't']

def threadsName : List Byte := charBytes ['t', 'h', 'r', 'e', 'a', 'd', 's']

def logpropertiesName : List Byte :=
  charBytes ['l', 'o', 'g', 'p', 'r', 'o', 'p', 'e', 'r', 't', 'i', 'e', 's']

/-- The branches for the four options. The one for the threads tests the port once more. -/
def parseOption (appName option : List Byte) (numChars : Int) (value : List Byte)
    (v : Arguments) : Printing Arguments :=
  if strncmp recursiveserverName option (toSize numChars) = 0 then
    -- `strcpy_s` into the 16 characters of `recursiveServer`
    if value.length + 1 > 16 then Logged.stop (.fault .invalidParameter)
    else pure { v with recursiveServer := value }
  else if strncmp portName option (toSize numChars) = 0 then
    let port := atoiInt value
    if port ≤ 0 then do
      Logged.log s!"ERROR: Invalid port number: {port}\n"
      printUsage appName
    else pure { v with port }
  else if strncmp threadsName option (toSize numChars) = 0 then
    let numThreads := atoiInt value
    if v.port ≤ 0 then do
      Logged.log s!"ERROR: Invalid number of threads: {numThreads}\n"
      printUsage appName
    else pure { v with numThreads }
  else if strncmp logpropertiesName option (toSize numChars) = 0 then
    pure { v with logPropertiesPath := some value }
  else do
    let shown := screenText (if numChars < 0 then option else option.take numChars.toNat)
    Logged.log s!"ERROR: Invalid option: {shown}\n\n"
    printUsage appName

/-- One turn of the loop of `parseArgs`. The dash and the equals sign may be anywhere. -/
def parseArg (appName : List Byte) (arg : CString) (v : Arguments) : Printing Arguments :=
  match strchr arg.chars dash, strchr arg.chars equals with
  | some _, some i =>
    parseOption appName (arg.chars.drop 1) ((i : Int) - 1) (arg.chars.drop (i + 1)) v
  | _, _ => do
    Logged.log "ERROR: Invalid command line arguments\n"
    printUsage appName

def parseLoop (appName : List Byte) : List CString → Arguments → Printing Arguments
  | [], v => pure v
  | arg :: args, v => do
    let v ← parseArg appName arg v
    parseLoop appName args v

/-- The variables before the loop. `mbstowcs_s` widens the connection string. -/
def Arguments.start (connectionString : CString) : Arguments :=
  ⟨connectionString.chars.map (fun b => UInt16.ofNat b.toNat), none, [], 53, 64⟩

def parseArgs : List CString → Printing Arguments
  | appName :: connectionString :: args =>
    parseLoop appName.chars args (.start connectionString)
  | argv => printUsage (argv.head?.elim [] CString.chars)

end OdbcDns
