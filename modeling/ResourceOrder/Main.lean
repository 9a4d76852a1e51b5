import ResourceOrder.CommandLine.Run

/-!
# The program

Answers the questions of `FileAccess` with the files of the system, runs the command line on
them, and writes what comes of it.
-/

namespace ResourceOrder

/-- the number of an error of the system, which may come with either sign -/
def errorNumber (code : UInt32) : Nat := min code.toNat (-code).toNat

/-- the fault that an error of the system stands for -/
def FileFault.ofError : IO.Error → FileFault
  | .noFileOrDirectory .. => .notFound
  | .inappropriateType _ code _ => if errorNumber code = 20 then .notADirectory else .isADirectory
  | .invalidArgument _ code text =>
    if errorNumber code = 40 then .tooManyLinks
    else if errorNumber code = 36 then .tooLong
    else .other text
  | e => .other (toString e)

def EntryKind.ofType : IO.FS.FileType → EntryKind
  | .dir => .directory
  | .symlink => .link
  | _ => .file

def readContent (path : String) : IO (Except FileFault ByteArray) := do
  try
    return .ok (← IO.FS.readBinFile path)
  catch e => return .error (.ofError e)

/-- the entries of a directory; why there is no directory is known from reading a file -/
def readEntries (path : String) : IO (Except FileFault (List (RawText × EntryKind))) := do
  try
    let found ← (← IO.FS.realPath path).readDir
    let entries ← found.toList.mapM fun e => do
      return (RawText.ofText e.fileName, EntryKind.ofType (← e.path.symlinkMetadata).type)
    return .ok entries
  catch e =>
    match e, ← readContent path with
    | .noFileOrDirectory .., .error fault => return .error fault
    | _, _ => return .error (.ofError e)

/-- asks the system about a path; one with a NUL, or one that is no text, is never passed on -/
def askSystem {α : Type} (path : RawText) (refused : α) (ask : String → IO α) : IO α :=
  match path.text? with
  | some text => if Path.isPossible path then ask text else return refused
  | none => return refused

def systemFiles : FileAccess IO where
  isFile path := askSystem path false fun path => do
    try
      return (← (← IO.FS.realPath path).metadata).type == .file
    catch _ => return false
  content path := askSystem path (.error .impossiblePath) readContent
  entries path := askSystem path (.error .impossiblePath) readEntries
  finalName path := askSystem path none fun path => do
    try
      return (← IO.FS.realPath path).fileName.map RawText.ofText
    catch _ => return none
  depth := 4096

end ResourceOrder

def main (arguments : List String) : IO UInt32 := do
  let outcome ← ResourceOrder.CommandLine.run ResourceOrder.systemFiles arguments
  (← IO.getStdout).putStr outcome.output
  (← IO.getStderr).putStr outcome.errors
  return outcome.exitCode.toUInt32
