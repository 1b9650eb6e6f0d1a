import KernelForge.CommandLine.Run
/-!
# The program

The command line over the real file system.
-/
namespace KernelForge

/-- The cause of a failed call. A system error is known by its number, of either sign. -/
def FileError.ofSystem (e : IO.Error) : FileError :=
  match e with
  | .noFileOrDirectory .. => .notFound
  | .alreadyExists .. => .alreadyExists
  | .inappropriateType _ code _ =>
    if code = 20 ∨ code = -20 then .notADirectory else .isADirectory
  | .invalidArgument _ code _ =>
    if code = 36 ∨ code = -36 then .nameTooLong else .invalidArgument
  | .resourceBusy .. => .busy
  | .unsatisfiedConstraints .. => .notEmpty
  | .permissionDenied .. => .other "Permission denied (os error 13)"
  | e => .other (toString e)

/-- Makes a call and gives its failure as a value. -/
def attempt {α : Type} (call : IO α) : IO (Except FileError α) := do
  try return .ok (← call) catch e => return .error (.ofSystem e)

/-- Reads the beginning of what stands at a path. A directory can be opened but not read. -/
def peek (path : Path) : IO (Except FileError ByteArray) :=
  attempt do (← IO.FS.Handle.mk path .read).read 1

/-- Makes an empty file whose name no other file has, trying one name after the other. -/
def makeTemp (dir : Path) (start : Nat) : Nat → IO (Except FileError Path)
  | 0 => return .error .alreadyExists
  | tries + 1 => do
    let path := dir.join (".tmp" ++ toString (start + tries))
    match ← attempt (IO.FS.Handle.mk path .writeNew) with
    | .ok _ => return .ok path
    | .error .alreadyExists => makeTemp dir start tries
    | .error e => return .error e

instance : Files IO where
  makeDir dir := attempt (IO.FS.createDir dir)
  isPresent path := do
    match ← peek path with
    | .ok _ | .error .isADirectory | .error (.other _) => return true
    | .error _ => return false
  isFile path := do return (← peek path).toBool
  isDirectory path := do
    match ← peek path with
    | .error .isADirectory => return true
    | _ => return false
  read path := do return (← attempt (IO.FS.readBinFile path)).map (·.toList)
  createTemp dir := do makeTemp dir (← IO.monoNanosNow) 256
  write path bytes := attempt (IO.FS.writeBinFile path ⟨bytes.toArray⟩)
  rename path dest := attempt (IO.FS.rename path dest)
  remove path := attempt (IO.FS.removeFile path)
  locked path exclusive action := do
    match ← attempt (IO.FS.Handle.mk path .append) with
    | .error e => return .error e
    | .ok handle =>
      handle.lock exclusive
      try return .ok (← action) finally handle.unlock

end KernelForge

def main (words : List String) : IO UInt32 := do
  let environment ← IO.getEnv KernelForge.StoreConfig.dirVariable
  let outcome ← (KernelForge.CommandLine.program words environment : IO _)
  IO.print outcome.stdout
  IO.eprint outcome.stderr
  return outcome.code
