import Cassette.Text.Hex

/-! What can go wrong, as causes. `ReadFault` is what a block reader finds in the
bytes; `FileFault` is what the file system answers; `Fault` is what an operation
on a tape reports. The wording of each is one `message` function. -/

namespace Cassette

/-- Why a file operation failed. -/
inductive FileFault
  | unexpectedEnd
  | notFound
  | isDirectory
  | notDirectory
  /-- A path, or a name in it, has more bytes than the file system takes. -/
  | nameTooLong
  /-- No path holds a zero byte. -/
  | zeroInPath
  /-- A block does not fit the 16-bit length word in front of it. -/
  | blockTooLong
  deriving DecidableEq, Repr

def FileFault.message : FileFault → String
  | .unexpectedEnd => "failed to fill whole buffer"
  | .notFound => "No such file or directory (os error 2)"
  | .isDirectory => "Is a directory (os error 21)"
  | .notDirectory => "Not a directory (os error 20)"
  | .nameTooLong => "File name too long (os error 36)"
  | .zeroInPath => "file name contained an unexpected NUL byte"
  | .blockTooLong => "TAP block exceeds 65535 bytes"

/-- Why a block could not be read. -/
inductive ReadFault
  /-- `needed` bytes of `what` were to start at `offset`, and `available` are left. -/
  | truncated (what : String) (offset needed available : Nat)
  | wrongSignature
  /-- The length of a block of this kind is not known. -/
  | unknownBlock (id : UInt8) (offset : Nat)
  /-- The file has become shorter than it was when it was opened. -/
  | unexpectedEnd
  deriving DecidableEq, Repr

def ReadFault.message : ReadFault → String
  | .truncated what offset needed available =>
    s!"truncated {what} at offset {offset}: need {needed} bytes, {available} remain"
  | .wrongSignature => "invalid TZX signature (expected \"ZXTape!\" + 0x1A)"
  | .unknownBlock id offset =>
    "unsupported TZX block $" ++ Text.hexByte id ++ s!" at offset {offset}"
  | .unexpectedEnd => FileFault.unexpectedEnd.message

/-- Why an operation on a tape failed. -/
inductive Fault
  | noFile (path : String)
  | cutShort
  | wrongSignature
  | unknownBlock (id : UInt8) (offset : Nat)
  /-- The table of block offsets does not fit the image. -/
  | indexMismatch (ordinal : Nat)
  | noSuchBlock (ordinal count : Nat)
  | nothingSelected
  | writeProtected
  /-- The block is not a header, so it has no name to change. -/
  | nameless (ordinal : Nat)
  | deckEmpty
  | packedSamples
  | wrongFormat (path : String)
  /-- Control flow runs in a circle without producing a signal. -/
  | endlessWalk (ordinal : Nat)
  | file (fault : FileFault)
  deriving DecidableEq, Repr

def Fault.message : Fault → String
  | .noFile path => "tape container not found: " ++ path
  | .cutShort => "tape container is empty or truncated"
  | .wrongSignature => "invalid TZX signature"
  | .unknownBlock id offset =>
    "unsupported block kind $" ++ Text.hexByte id ++ s!" at offset {offset}"
  | .indexMismatch ordinal => s!"block index is inconsistent with the container at block {ordinal}"
  | .noSuchBlock ordinal count =>
    s!"block {ordinal} out of range (tape has {count} blocks)"
  | .nothingSelected => "no blocks selected"
  | .writeProtected => "tape is read-only"
  | .nameless ordinal => s!"block {ordinal} carries no file name"
  | .deckEmpty => "no tape inserted"
  | .packedSamples => "compressed CSW recordings are not supported"
  | .wrongFormat path => "unrecognised tape format: " ++ path
  | .endlessWalk ordinal =>
    s!"control flow at block {ordinal} loops without producing a signal"
  | .file fault => "I/O error: " ++ fault.message

/-- On a tape, every way of running out of bytes is the same fault. -/
def Fault.ofRead : ReadFault → Fault
  | .truncated .. => .cutShort
  | .wrongSignature => .wrongSignature
  | .unknownBlock id offset => .unknownBlock id offset
  | .unexpectedEnd => .file .unexpectedEnd

end Cassette
