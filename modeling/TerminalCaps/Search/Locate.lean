import TerminalCaps.Bytes.Digits
import TerminalCaps.Bytes.Utf8
import TerminalCaps.Search.Path

/-! Where the entry of a terminal is kept: the directories to search, and the files in each. -/
namespace TerminalCaps.Search

/-- The part of the environment that a search depends on. -/
structure Environment where
  /-- The home directory of the user, who may have none. -/
  home : Option Path := none
  term : Option Bytes := none
  terminfo : Option Bytes := none
  terminfoDirs : Option Bytes := none
  deriving DecidableEq, Repr

inductive LocateError where
  /-- Neither the caller nor the environment names a terminal. -/
  | nameUnresolved
  | notFound
  deriving DecidableEq, Repr

def LocateError.message : LocateError → String
  | nameUnresolved => "Terminal name is not set"
  | notFound => "File not found"

/-- The directories in which a system keeps its entries. -/
def systemDirectories : List Path :=
  List.map Bytes.ofAscii
    ["/etc/terminfo", "/lib/terminfo", "/usr/share/terminfo", "/usr/lib/terminfo",
      "/boot/system/data/terminfo"]

/-- The directories listed in `TERMINFO_DIRS`, none if it is unset or not UTF-8. -/
def listedDirectories (env : Environment) : List Path :=
  match env.terminfoDirs with
  | none => []
  | some list => if Bytes.Utf8.fault? list = none then Bytes.split ':'.toUInt8 list else []

/-- The listed directories, with those of the system in place of the first empty one, or at the end
if none is empty. -/
def withSystemDirectories (listed : List Path) : List Path :=
  listed.takeWhile (· ≠ []) ++ systemDirectories ++
    (listed.dropWhile (· ≠ [])).filter (· ≠ [])

/-- The directory in which a user with a home directory keeps entries. -/
def ownDirectories (env : Environment) : List Path :=
  match env.home with
  | some home => [Path.join home (Bytes.ofAscii ".terminfo")]
  | none => []

/-- All directories to search, in this order. `TERMINFO` stands for all others. -/
def searchDirectories (env : Environment) : List Path :=
  match env.terminfo with
  | some directory => [directory]
  | none => ownDirectories env ++ withSystemDirectories (listedDirectories env)

/-- The name of a terminal, which is `TERM` if the given one is empty. -/
def resolveName (env : Environment) (name : Bytes) : Except LocateError Bytes :=
  if name ≠ [] then .ok name
  else match env.term with
    | none | some [] => .error .nameUnresolved
    | some name => .ok name

/-- A byte as a character, written in UTF-8. -/
def characterLeaf (b : UInt8) : Path :=
  if b < 0x80 then [b] else [0xC0 + b / 64, 0x80 + b % 64]

/-- A byte in two hexadecimal digits. -/
def hexLeaf (b : UInt8) : Path := Bytes.zeroExtend 2 (Bytes.digits 16 b.toNat)

/-- The file of a terminal in a directory. It is kept below a directory that is named for the first
byte of its name, as a character or in hexadecimal. -/
def findInDirectory (isFile : Path → Bool) (name : Bytes) (directory : Path) : Option Path :=
  match name with
  | [] => none
  | first :: _ =>
    let byCharacter := Path.join (Path.join directory (characterLeaf first)) name
    let byHex := Path.join (Path.join directory (hexLeaf first)) name
    if isFile byCharacter then some byCharacter
    else if isFile byHex then some byHex
    else none

/-- The first file found for a terminal. -/
def locate (isFile : Path → Bool) (env : Environment) (name : Bytes) :
    Except LocateError Path := do
  let name ← resolveName env name
  match (searchDirectories env).findSome? (findInDirectory isFile name) with
  | some path => return path
  | none => throw .notFound

end TerminalCaps.Search
