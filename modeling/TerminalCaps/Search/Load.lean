import TerminalCaps.Entry.Decoder
import TerminalCaps.Search.FileTree
import TerminalCaps.Search.Locate

/-! Entries read from files. -/
namespace TerminalCaps.Search

/-- Why an entry cannot be loaded. -/
inductive LoadError where
  | locate (error : LocateError)
  | read (error : ReadError)
  | decode (error : DecodeError)
  deriving DecidableEq, Repr

/-- The entry in a file. -/
def loadFile (files : FileSystem) (path : Path) : Except LoadError Entry := do
  let data ← (files.read path).mapError .read
  (Entry.decode data).mapError .decode

/-- The entry of a terminal. -/
def load (files : FileSystem) (env : Environment) (name : Bytes) : Except LoadError Entry := do
  let path ← (locate files.isFile env name).mapError .locate
  loadFile files path

end TerminalCaps.Search
