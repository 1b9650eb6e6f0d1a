import KernelForge.Store.Files
import KernelForge.Table
/-!
# File trees

A tree of files in memory. A place in the tree is the list of names that lead to it from the top,
which is a directory, its own parent, and where relative paths start. A path is followed name by
name: every name but the last has to be that of a directory, and so has a name that a slash follows.
Names and paths are of limited length in bytes.
-/
namespace KernelForge

inductive FileNode
  | file (bytes : List UInt8)
  | directory
  deriving DecidableEq

structure FileTree where
  nodes : Table (List String) FileNode

namespace FileTree

def empty : FileTree := ⟨.empty⟩

/-- What stands at a place. -/
def node? (t : FileTree) (place : List String) : Option FileNode :=
  if place.isEmpty then some .directory else t.nodes.get? place

/-- The parts of a path without the slashes at its end. -/
def dropSlashes (parts : List String) : List String :=
  (parts.reverse.dropWhile (· = "")).reverse

def longestName : Nat := 255

def longestPath : Nat := 4095

/-- The parts of a path that can be followed at all. -/
def usableParts (path : Path) : Except FileError (List String) :=
  if path.toList.contains '\x00' then .error .nulInPath
  else if path.isEmpty then .error .notFound
  else if longestPath < path.utf8ByteSize then .error .nameTooLong
  else .ok path.parts

/-- Goes one name on from a place. -/
def step (t : FileTree) (place : List String) (part : String) : Except FileError (List String) :=
  match t.node? place with
  | none => .error .notFound
  | some (.file _) => .error .notADirectory
  | some .directory =>
    if part = "" ∨ part = "." then .ok place
    else if part = ".." then .ok place.dropLast
    else if longestName < part.utf8ByteSize then .error .nameTooLong
    else .ok (place ++ [part])

/-- Follows names from a place. The last one may lead to where nothing stands. -/
def walk (t : FileTree) (place : List String) : List String → Except FileError (List String)
  | [] => .ok place
  | part :: rest =>
    match t.step place part with
    | .error e => .error e
    | .ok place => t.walk place rest

def locate (t : FileTree) (path : Path) : Except FileError (List String) :=
  match usableParts path with
  | .error e => .error e
  | .ok parts => t.walk [] parts

/-- What stands at the place of a path. -/
def find (t : FileTree) (path : Path) : Except FileError FileNode :=
  match t.locate path with
  | .error e => .error e
  | .ok place => (t.node? place).elim (.error .notFound) .ok

def isPresent (t : FileTree) (path : Path) : Bool := (t.find path).toBool

def isFile (t : FileTree) (path : Path) : Bool :=
  match t.find path with
  | .ok (.file _) => true
  | _ => false

def isDirectory (t : FileTree) (path : Path) : Bool :=
  match t.find path with
  | .ok .directory => true
  | _ => false

def read (t : FileTree) (path : Path) : Except FileError (List UInt8) :=
  match t.find path with
  | .error e => .error e
  | .ok .directory => .error .isADirectory
  | .ok (.file bytes) => .ok bytes

/-- Writes a file, which is made if it is missing. -/
def write (t : FileTree) (path : Path) (bytes : List UInt8) : Except FileError FileTree :=
  match t.locate path with
  | .error e => .error e
  | .ok place =>
    match t.node? place with
    | some .directory => .error .isADirectory
    | _ => .ok ⟨t.nodes.insert place (.file bytes)⟩

def remove (t : FileTree) (path : Path) : Except FileError FileTree :=
  match t.locate path with
  | .error e => .error e
  | .ok place =>
    match t.node? place with
    | none => .error .notFound
    | some .directory => .error .isADirectory
    | some (.file _) => .ok ⟨t.nodes.erase place⟩

/-- The place that a path gives to a file that is put there. The directory above has to be there,
and the path has to end in a name of its own, which no slash follows. -/
def landing (t : FileTree) (path : Path) : Except FileError (List String) :=
  match usableParts path with
  | .error .nulInPath => .error .invalidArgument
  | .error e => .error e
  | .ok parts =>
    let names := dropSlashes parts
    match t.walk [] (names.dropLast ++ [""]), names.getLast? with
    | .error e, _ => .error e
    | .ok _, none | .ok _, some "." | .ok _, some ".." => .error .busy
    | .ok above, some name =>
      match t.step above name with
      | .error e => .error e
      | .ok place => if names.length < parts.length then .error .notADirectory else .ok place

/-- Puts a file in another place, where a file may stand but not a directory, least of all one that
the file is in. -/
def rename (t : FileTree) (path dest : Path) : Except FileError FileTree :=
  match t.locate path, t.read path, t.landing dest with
  | .error e, _, _ | _, .error e, _ | _, _, .error e => .error e
  | .ok source, .ok bytes, .ok place =>
    match t.node? place with
    | some .directory => .error (if place.isPrefixOf source then .notEmpty else .isADirectory)
    | _ => .ok ⟨(t.nodes.erase source).insert place (.file bytes)⟩

def touch (t : FileTree) (path : Path) : Except FileError FileTree :=
  match t.find path with
  | .ok (.file _) => .ok t
  | _ => t.write path []

/-! ## Directories -/

/-- Makes one directory. A slash may follow its name. -/
def makeDir (t : FileTree) (dir : Path) : Except FileError FileTree :=
  match usableParts dir with
  | .error e => .error e
  | .ok parts =>
    match t.walk [] (dropSlashes parts) with
    | .error e => .error e
    | .ok place =>
      if (t.node? place).isSome then .error .alreadyExists
      else .ok ⟨t.nodes.insert place .directory⟩

/-- The names in a directory in ascending order. -/
def list (t : FileTree) (dir : Path) : List String :=
  match t.locate dir with
  | .error _ => []
  | .ok place =>
    let inside := t.nodes.keys.filter fun p => p.length = place.length + 1 ∧ p.dropLast = place
    (inside.filterMap List.getLast?).mergeSort fun a b => decide (a ≤ b)

/-- The tree without what is in the directory of a place. -/
def clear (t : FileTree) (place : List String) : FileTree :=
  ⟨(t.nodes.keys.filter fun p => place.isPrefixOf p ∧ p ≠ place).foldl Table.erase t.nodes⟩

/-- Removes a file, or a directory after all that is in it. The directory goes by the end of its
path: it stays if that is not a name of its own, and also if the path led through what was in it,
which is no failure. -/
def removeAll (t : FileTree) (path : Path) : Except FileError Unit × FileTree :=
  match t.locate path with
  | .error e => (.error e, t)
  | .ok place =>
    match t.node? place with
    | none => (.error .notFound, t)
    | some (.file _) => (.ok (), ⟨t.nodes.erase place⟩)
    | some .directory =>
      let emptied := t.clear place
      match emptied.locate path, (dropSlashes path.parts).getLast? with
      | .error _, _ => (.ok (), emptied)
      | .ok _, none => (.error .busy, emptied)
      | .ok _, some "." => (.error .invalidArgument, emptied)
      | .ok _, some ".." => (.error .notEmpty, emptied)
      | .ok _, some _ => (.ok (), ⟨emptied.nodes.erase place⟩)

/-- A name that does not stand in a directory. -/
def freshName (t : FileTree) (dir : Path) : String :=
  let tried := (List.range (t.nodes.size + 1)).map fun n => ".tmp" ++ toString n
  (tried.find? fun name => !t.isPresent (dir.join name)).getD ".tmp"

/-- The outcome of a call that changes the tree only if it succeeds. -/
def update (change : FileTree → Except FileError FileTree) :
    StateM FileTree (Except FileError Unit) := fun t =>
  match change t with
  | .error e => (.error e, t)
  | .ok t => (.ok (), t)

instance : Files (StateM FileTree) where
  makeDir dir := update fun t => t.makeDir dir
  isPresent path := fun t => (t.isPresent path, t)
  isFile path := fun t => (t.isFile path, t)
  isDirectory path := fun t => (t.isDirectory path, t)
  read path := fun t => (t.read path, t)
  createTemp dir := fun t =>
    let path := Path.join dir (t.freshName dir)
    match t.write path [] with
    | .error e => (.error e, t)
    | .ok t => (.ok path, t)
  write path bytes := update fun t => t.write path bytes
  rename path dest := update fun t => t.rename path dest
  remove path := update fun t => t.remove path
  locked path _ action := fun t =>
    match t.touch path with
    | .error e => (.error e, t)
    | .ok t =>
      let (a, t) := action t
      (.ok a, t)

end FileTree

end KernelForge
