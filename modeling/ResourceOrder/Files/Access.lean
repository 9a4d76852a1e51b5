import ResourceOrder.Files.RawText

/-!
# What is asked of a file system

* `FileFault`   why a file or directory cannot be read;
* `EntryKind`   what a directory holds under a name, a link being a kind of its own;
* `FileAccess`  the questions that loading resources asks, answered in some monad.

Every path is given and used as a row of bytes, and so is every name.
-/

namespace ResourceOrder

inductive FileFault where
  | notFound
  | notADirectory
  | isADirectory
  /-- the content is not UTF-8 -/
  | notText
  | tooManyLinks
  /-- a path with a NUL names nothing -/
  | impossiblePath
  /-- a name or a whole path is longer than any may be -/
  | tooLong
  /-- any other fault, with the words of the system -/
  | other (text : String)
deriving DecidableEq

def FileFault.text : FileFault → String
  | .notFound => "No such file or directory (os error 2)"
  | .notADirectory => "Not a directory (os error 20)"
  | .isADirectory => "Is a directory (os error 21)"
  | .notText => "stream did not contain valid UTF-8"
  | .tooManyLinks => "Too many levels of symbolic links (os error 40)"
  | .impossiblePath => "file name contained an unexpected NUL byte"
  | .tooLong => "File name too long (os error 36)"
  | .other text => text

inductive EntryKind where
  | file
  | link
  | directory
deriving DecidableEq

/-- the questions that are asked of a file system -/
structure FileAccess (m : Type → Type) where
  /-- whether the path leads to a file, links followed -/
  isFile : RawText → m Bool
  /-- the content of the file to which the path leads, links followed -/
  content : RawText → m (Except FileFault ByteArray)
  /-- what the directory to which the path leads holds; links in it are not followed -/
  entries : RawText → m (Except FileFault (List (RawText × EntryKind)))
  /-- the name of what the path leads to, links followed; the root has none -/
  finalName : RawText → m (Option RawText)
  /-- no more directories than this lie inside one another -/
  depth : Nat

namespace FileAccess

variable {m : Type → Type} [Monad m]

def text (fs : FileAccess m) (path : RawText) : ExceptT FileFault m String := do
  let bytes ← ExceptT.mk (fs.content path)
  match String.fromUTF8? bytes with
  | some s => return s
  | none => throw .notText

end FileAccess

end ResourceOrder
