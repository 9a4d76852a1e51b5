import ResourceOrder.Files.RawText

/-!
# Paths

A path is a row of bytes with slashes between its segments.

* `Path.segments`    what stands between the slashes;
* `Path.components`  what the path means segment by segment: empty segments and dots count for
                     nothing, except for a slash or a dot at the very beginning;
* `Path.join`        a path read from the directory that another path names;
* `Path.fileName?`   the last component, if it is a name;
* `Path.parent?`     the path without its last component;
* `Path.sort`        paths in the order of their components.
-/

namespace ResourceOrder.Path

/-! ## segments -/

/-- the byte `/` -/
def slash : UInt8 := 0x2F

/-- the byte `.` -/
def dot : UInt8 := 0x2E

section
variable {α : Type} [DecidableEq α]

/-- the parts of a list between the elements `mark`; there is always one -/
def splitAt (mark : α) : List α → List (List α)
  | [] => [[]]
  | c :: cs =>
    if c = mark then [] :: splitAt mark cs
    else
      match splitAt mark cs with
      | [] => [[c]]
      | part :: parts => (c :: part) :: parts

theorem splitAt_ne_nil (mark : α) (cs : List α) : splitAt mark cs ≠ [] := by
  cases cs with
  | nil => simp [splitAt]
  | cons c cs =>
    rw [splitAt]
    split
    · simp
    · split <;> simp

end

def segments (path : RawText) : List RawText := splitAt slash path

/-- a path with a NUL can name nothing -/
def isPossible (path : RawText) : Bool := !path.contains 0

def isAbsolute (path : RawText) : Bool := path.head? == some slash

/-! ## components -/

inductive Component where
  | root
  | here
  | parent
  | name (s : RawText)
deriving DecidableEq

/-- what a segment means that does not stand at the beginning -/
def Component.ofSegment? (segment : RawText) : Option Component :=
  if segment = [] ∨ segment = [dot] then none
  else if segment = [dot, dot] then some .parent
  else some (.name segment)

/-- what a slash or a dot at the very beginning means -/
def beginning (path : RawText) : List Component :=
  if isAbsolute path then [.root]
  else if (segments path).head? = some [dot] then [.here]
  else []

def components (path : RawText) : List Component :=
  beginning path ++ (segments path).filterMap Component.ofSegment?

/-- the last component of a path, if it is a name -/
def fileName? (path : RawText) : Option RawText :=
  match (components path).getLast? with
  | some (.name s) => some s
  | _ => none

/-- no name of a component is empty -/
theorem ne_nil_of_fileName? {path name : RawText} (h : fileName? path = some name) :
    name ≠ [] := by
  have hof : ∀ segment, Component.ofSegment? segment = some (.name name) → name ≠ [] := by
    intro segment hs
    unfold Component.ofSegment? at hs
    split at hs
    · cases hs
    · rename_i hne
      split at hs
      · cases hs
      · cases hs
        exact fun he => hne (.inl he)
  have hmem : Component.name name ∈ components path := by
    unfold fileName? at h
    split at h
    · rename_i s hlast
      cases h
      exact List.mem_of_getLast? hlast
    · cases h
  rcases List.mem_append.1 hmem with hmem | hmem
  · unfold beginning at hmem
    split at hmem
    · simp at hmem
    · split at hmem <;> simp at hmem
  · obtain ⟨segment, -, hs⟩ := List.mem_filterMap.1 hmem
    exact hof segment hs

/-! ## joining and cutting -/

/-- `path` as seen from the directory `base`; an absolute path stays as it is -/
def join (base path : RawText) : RawText :=
  if isAbsolute path then path
  else if base.getLast?.all (· == slash) then base ++ path
  else base ++ slash :: path

/-- the segments without those at the end that count for nothing; `first` is the first segment,
at which a dot counts -/
def dropIdle (segments : List RawText) : List RawText :=
  match segments with
  | [] => []
  | first :: rest =>
    let kept := (rest.reverse.dropWhile fun s => s = [] || s = [dot]).reverse
    if kept = [] ∧ first = [] then [] else first :: kept

/-- the path without its last component; a path without components, or with only the root, has
none -/
def parent? (path : RawText) : Option RawText :=
  match dropIdle (segments path) with
  | [] => none
  | first :: rest =>
    let above := dropIdle (first :: rest).dropLast
    some (if above = [] then (if isAbsolute path then [slash] else [])
      else [slash].intercalate above)

/-! ## order -/

/-- the root comes first, then the dot, the two dots, and all names -/
def Component.rank : Component → Nat
  | .root => 0
  | .here => 1
  | .parent => 2
  | .name _ => 3

/-- names are ordered byte by byte -/
def Component.before : Component → Component → Bool
  | .name s, .name t => s < t
  | a, b => a.rank < b.rank

/-- whether the first list comes before the second one; a list comes before its extensions -/
def before : List Component → List Component → Bool
  | _, [] => false
  | [], _ :: _ => true
  | a :: as, b :: bs => if a = b then before as bs else a.before b

def sort (paths : List RawText) : List RawText :=
  paths.mergeSort fun a b => !before (components b) (components a)

end ResourceOrder.Path
