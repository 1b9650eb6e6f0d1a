import KernelForge.Store.Config
/-!
# File-system calls

The calls that a store makes on the file system, and how each may fail. A store works over any monad
that answers them: the real file system, or a tree of files held in memory.
-/
namespace KernelForge

/-- Why a call failed. -/
inductive FileError
  | notFound
  | busy
  | alreadyExists
  | notADirectory
  | isADirectory
  | invalidArgument
  | nameTooLong
  | notEmpty
  /-- No path can hold a NUL. -/
  | nulInPath
  | other (message : String)
  deriving DecidableEq

def FileError.message : FileError → String
  | notFound => "No such file or directory (os error 2)"
  | busy => "Device or resource busy (os error 16)"
  | alreadyExists => "File exists (os error 17)"
  | notADirectory => "Not a directory (os error 20)"
  | isADirectory => "Is a directory (os error 21)"
  | invalidArgument => "Invalid argument (os error 22)"
  | nameTooLong => "File name too long (os error 36)"
  | notEmpty => "Directory not empty (os error 39)"
  | nulInPath => "file name contained an unexpected NUL byte"
  | other message => message

class Files (m : Type → Type) where
  /-- Makes a directory inside one that is there. -/
  makeDir (dir : Path) : m (Except FileError Unit)
  isPresent (path : Path) : m Bool
  isFile (path : Path) : m Bool
  isDirectory (path : Path) : m Bool
  read (path : Path) : m (Except FileError (List UInt8))
  /-- Makes an empty file of a new name. -/
  createTemp (dir : Path) : m (Except FileError Path)
  write (path : Path) (bytes : List UInt8) : m (Except FileError Unit)
  /-- Puts a file in the place of another one in one step. -/
  rename (path dest : Path) : m (Except FileError Unit)
  remove (path : Path) : m (Except FileError Unit)
  /-- Runs an action while a lock file, made if it is missing, is locked for this action alone or
  for readers. -/
  locked {α : Type} (path : Path) (exclusive : Bool) (action : m α) : m (Except FileError α)

namespace Files

variable {m : Type → Type} [Monad m] [Files m]

/-- Accepts that a directory could not be made if it is there. -/
def acceptDir (dir : Path) : Except FileError Unit → m (Except FileError Unit)
  | .ok () => return .ok ()
  | .error e => do return if ← isDirectory dir then .ok () else .error e

/-- Makes a directory. If the one above it is missing, that one is made in the same way first. -/
def makeDirWithin (dir : Path) : List Path → m (Except FileError Unit)
  | [] => do acceptDir dir (← makeDir dir)
  | above :: further => do
    match ← makeDir dir with
    | .error .notFound =>
      match ← makeDirWithin above further with
      | .error e => return .error e
      | .ok () => acceptDir dir (← makeDir dir)
    | outcome => acceptDir dir outcome

/-- Makes a directory and those above it, where they are missing. The empty path is where paths
start, and always there. -/
def makeDirs (dir : Path) : m (Except FileError Unit) :=
  if dir.isEmpty then return .ok () else makeDirWithin dir dir.above

end Files

end KernelForge
