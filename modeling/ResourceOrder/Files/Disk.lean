import ResourceOrder.Files.Access
import ResourceOrder.Files.Path

/-!
# File trees

A file system as a value, for the questions of `FileAccess`.

* `FileTree`       a file with its content, a link with its target, or a directory;
* `Disk`           a file tree and the directory in it from which relative paths start;
* `Disk.resolve`   what a path leads to, links followed: the entries passed on the way from the
                   root, the last one first;
* `Disk.access`    the answers that a disk gives;
* `Disk.create`    a disk with one more file, link or directory.

A path is followed segment by segment.  Two dots go back to where the entry was really found,
and every segment, an empty one too, needs a directory to stand in.  At most `linkLimit` links
are followed on the way.  A path that no file system takes, or a name that is too long, is
refused before anything is looked up.
-/

namespace ResourceOrder

inductive FileTree where
  | file (content : ByteArray)
  | link (target : RawText)
  | directory (entries : List (RawText × FileTree))

namespace FileTree

def kind : FileTree → EntryKind
  | .file _ => .file
  | .link _ => .link
  | .directory _ => .directory

mutual

/-- the greatest number of directories inside one another -/
def height : FileTree → Nat
  | .directory entries => entriesHeight entries + 1
  | _ => 0

/-- the greatest height among the entries of a directory -/
def entriesHeight : List (RawText × FileTree) → Nat
  | [] => 0
  | (_, t) :: rest => max (height t) (entriesHeight rest)

end

/-- the entries with `t` under the name `n` -/
def setEntry (n : RawText) (t : FileTree) : List (RawText × FileTree) → List (RawText × FileTree)
  | [] => [(n, t)]
  | (k, u) :: rest => if k = n then (n, t) :: rest else (k, u) :: setEntry n t rest

/-- the tree with `leaf` at the end of the names; directories that are missing are made -/
def put : List RawText → FileTree → FileTree → FileTree
  | [], leaf, _ => leaf
  | n :: ns, leaf, .directory entries =>
    .directory (setEntry n (put ns leaf ((entries.lookup n).getD (.directory []))) entries)
  | _ :: _, _, t => t

end FileTree

/-- a file tree, and the names that lead from its root to the current directory -/
structure Disk where
  root : FileTree
  current : List RawText

namespace Disk

/-- entries passed on the way from the root, the last one first -/
abbrev Trail := List (RawText × FileTree)

/-- what a trail leads to -/
def nodeAt (d : Disk) : Trail → FileTree
  | [] => d.root
  | (_, t) :: _ => t

def nameLimit : Nat := 255

def pathLimit : Nat := 4095

/-- follows segments.  Given where it is, its name and the segments left, `absent` goes on at an
entry that is not there, and given where it stands, its target and the segments left, `jump`
goes on behind a link. -/
def descend (d : Disk)
    (absent jump : Trail → RawText → List RawText → Except FileFault Trail) :
    Trail → List RawText → Except FileFault Trail
  | trail, [] => .ok trail
  | trail, segment :: rest =>
    match d.nodeAt trail with
    | .directory entries =>
      if segment = [] ∨ segment = [Path.dot] then descend d absent jump trail rest
      else if segment = [Path.dot, Path.dot] then descend d absent jump trail.tail rest
      else if nameLimit < segment.length then .error .tooLong
      else
        match entries.lookup segment with
        | none => absent trail segment rest
        | some (.link target) => jump trail target rest
        | some t => descend d absent jump ((segment, t) :: trail) rest
    | _ => .error .notADirectory

/-- follows segments through at most `links` links -/
def follow (d : Disk) (absent : Trail → RawText → List RawText → Except FileFault Trail) :
    Nat → Trail → List RawText → Except FileFault Trail
  | 0 => d.descend absent fun _ _ _ => .error .tooManyLinks
  | links + 1 => d.descend absent fun trail target rest =>
    follow d absent links (if Path.isAbsolute target then [] else trail)
      (Path.segments target ++ rest)

/-- the number of links that may be followed on the way to one place -/
def linkLimit : Nat := 40

/-- nothing can be reached through an entry that is not there -/
def nowhere (_ : Trail) (_ : RawText) (_ : List RawText) : Except FileFault Trail :=
  .error .notFound

/-- what a path leads to, links followed -/
def resolve (d : Disk) (path : RawText) : Except FileFault Trail :=
  if !Path.isPossible path then .error .impossiblePath
  else if pathLimit < path.length then .error .tooLong
  else if path = [] then .error .notFound
  else d.follow nowhere linkLimit []
    (if Path.isAbsolute path then Path.segments path else d.current ++ Path.segments path)

def node (d : Disk) (path : RawText) : Except FileFault FileTree := (d.resolve path).map d.nodeAt

def access (d : Disk) : FileAccess Id where
  isFile path := match d.node path with
    | .ok (.file _) => true
    | _ => false
  content path := match d.node path with
    | .ok (.file bytes) => .ok bytes
    | .ok _ => .error .isADirectory
    | .error f => .error f
  entries path := match d.node path with
    | .ok (.directory es) => .ok (es.map fun e => (e.1, e.2.kind))
    | .ok _ => .error .notADirectory
    | .error f => .error f
  finalName path := match d.resolve path with
    | .ok ((name, _) :: _) => some name
    | _ => none
  depth := d.root.height

/-! ## making entries -/

/-- the names of a trail, from the root on -/
def names (trail : Trail) : List RawText := (trail.map Prod.fst).reverse

/-- enters a directory by its name and gives the names that lead to where it really is; one that
is missing is made -/
def enter (d : Disk) (base : List RawText) (segment : RawText) : Disk × List RawText :=
  match d.follow nowhere linkLimit [] (base ++ [segment]) with
  | .ok trail => (d, names trail)
  | .error _ =>
    let place := base ++ [segment]
    ({ d with root := FileTree.put place (.directory []) d.root }, place)

def enterAll (d : Disk) (base : List RawText) : List RawText → Disk × List RawText
  | [] => (d, base)
  | segment :: rest =>
    let (d, base) := d.enter base segment
    enterAll d base rest

/-- the names that lead to where a file is written that is opened by the given names: the last one
may be missing, and links are followed even so -/
def target (d : Disk) (place : List RawText) : List RawText :=
  let absent (trail : Trail) (name : RawText) (rest : List RawText) : Except FileFault Trail :=
    if rest = [] then .ok ((name, .directory []) :: trail) else .error .notFound
  match d.follow absent linkLimit [] place with
  | .ok trail => names trail
  | .error _ => place

/-- the disk with a file or a link at the path; the directories above it are made if they are
missing -/
def create (d : Disk) (path : RawText) (leaf : FileTree) : Disk :=
  let segments := Path.segments path
  let (d, base) := d.enterAll d.current segments.dropLast
  let place := base ++ segments.getLast?.toList
  let place := match leaf with
    | .link _ => place
    | _ => d.target place
  { d with root := FileTree.put place leaf d.root }

/-- the disk with a directory at the path, and all the directories above it -/
def createDirectory (d : Disk) (path : RawText) : Disk :=
  (d.enterAll d.current (Path.segments path)).1

end Disk

end ResourceOrder
