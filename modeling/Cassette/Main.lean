import Cassette.Session

/-! The command line program: reads the files that the arguments name, runs the command
on them, and writes back what has changed. -/

namespace Cassette.Main

/-- The files a request reads. -/
def requestedFiles : Request → List String
  | .run invocation =>
    let tape :=
      match invocation.command with
      | .list tape _ | .rename tape _ _ | .move tape _ _ | .remove tape _ | .play tape _ => tape
    tape :: invocation.settings.toList
  | _ => []

/-- The file system's number for a path that is a directory. -/
def directoryCode : UInt32 := 21

def isDirectoryError : IO.Error → Bool
  | .inappropriateType _ code _ => code == directoryCode
  | _ => false

/-- The file may not be opened for writing. -/
def isLocked (path : String) : IO Bool := do
  match ← (IO.FS.Handle.mk path .readWrite).toBaseIO with
  | .ok _ => return false
  | .error (.permissionDenied ..) => return true
  | .error _ => return false

/-- Adds a file, if it is there and can be read. -/
def gather (store : Store) (path : String) : IO Store := do
  match ← (IO.FS.readBinFile path).toBaseIO with
  | .error e =>
    if isDirectoryError e then return store.addDirectory (Store.placeOf path)
    else return store
  | .ok bytes =>
    let object := store.objects.size
    let store := store.addFile path bytes.data
    if ← isLocked path then return store.lock object
    else return store

/-- The bytes of a file of a store. -/
def contentsOf (store : Store) (path : String) : Option Bytes :=
  ((store.resolve path).map store.contents).toOption

/-- Puts a file in place of the old one, in one step if there is room for a draft. -/
def install (store : Store) (path : String) (bytes : Bytes) : IO Unit := do
  match store.draft path with
  | .error _ => IO.FS.writeBinFile path ⟨bytes⟩
  | .ok draft =>
    IO.FS.writeBinFile draft ⟨bytes⟩
    IO.FS.rename draft path

/-- More steps than any tape can be waited for. -/
def patience : Nat := UInt64.size

end Cassette.Main

open Cassette Main

def main (args : List String) : IO UInt32 := do
  let paths := requestedFiles (Request.ofArguments args)
  let current ← IO.currentDir
  let before ← paths.foldlM gather (Store.empty current.toString)
  match Session.answer patience args before with
  | none => return 1
  | some outcome =>
    for path in paths do
      match contentsOf outcome.store path with
      | some bytes => if some bytes != contentsOf before path then install before path bytes
      | none => pure ()
    (← IO.getStdout).putStr outcome.stdout
    (← IO.getStderr).putStr (outcome.stderr.getD "usage: tape-tool [--config FILE] COMMAND\n")
    return UInt32.ofNat outcome.exitCode
