import KernelForge.Session.Kernel
import KernelForge.Store.Files
import KernelForge.Store.Index
/-!
# The kernel store

A store keeps rendered kernels in a directory, one file for each text, under the hash of the text. A
kernel that is there already is not written again. Several stores may share a directory: whatever
changes the index holds the lock file for itself and starts from the index on disk, and whatever
only asks refreshes from the index on disk if it can. Files are replaced in one step, the index
last.
-/
namespace KernelForge

inductive StoreError
  | io (path : Path) (cause : FileError)
  /-- A kernel of unknown origin is neither stored nor looked for. -/
  | missingProvenance
  | corrupt (fault : Index.Fault)
  deriving DecidableEq

def StoreError.message : StoreError → String
  | io path cause => "cache I/O error at '" ++ path ++ "': " ++ cause.message
  | missingProvenance => "kernel has no provenance; cache operations need one"
  | corrupt fault => "cache index is corrupt: " ++ fault.message

/-- A handle on a directory of kernels, with the entries that it last knew. -/
structure Store where
  config : StoreConfig
  known : Entries

variable {m : Type → Type} [Monad m] [Files m]

/-- Writes a temporary file in a directory and puts it in the place of `dest`. A temporary file that
does not get there is removed. -/
def replaceFile (dir dest : Path) (bytes : List UInt8) : m (Except StoreError Unit) := do
  match ← Files.createTemp dir with
  | .error e => return .error (.io dir e)
  | .ok temp =>
    match ← Files.write temp bytes with
    | .error e =>
      let _ ← Files.remove temp
      return .error (.io temp e)
    | .ok () =>
      match ← Files.rename temp dest with
      | .error e =>
        let _ ← Files.remove temp
        return .error (.io dest e)
      | .ok () => return .ok ()

/-- Removes a file if it is there. -/
def removeFile (path : Path) : m (Except StoreError Unit) := do
  if ← Files.isPresent path then
    return (← Files.remove path).mapError (.io path)
  else return .ok ()

namespace StoreConfig

/-- The entries of the index on disk. There are none if the file is missing. -/
def load (c : StoreConfig) : m (Except StoreError Entries) := do
  if ← Files.isPresent c.indexPath then
    match ← Files.read c.indexPath with
    | .error e => return .error (.io c.indexPath e)
    | .ok bytes => return (Index.decode bytes).mapError .corrupt
  else return .ok .empty

def save (c : StoreConfig) (entries : Entries) : m (Except StoreError Unit) :=
  replaceFile c.dir c.indexPath (Index.encode entries.toList)

end StoreConfig

namespace Store

/-- Opens the store of a configuration, whose directory is made if it is missing. -/
def openAt (c : StoreConfig) : m (Except StoreError Store) := do
  match ← Files.makeDirs c.dir with
  | .error e => return .error (.io c.dir e)
  | .ok () =>
    match ← Files.locked c.lockPath false c.load with
    | .error e => return .error (.io c.lockPath e)
    | .ok (.error e) => return .error e
    | .ok (.ok entries) => return .ok ⟨c, entries⟩

/-- The store with the entries of the index on disk, or with the entries that it knew if that index
cannot be read. -/
def refresh (s : Store) : m Store := do
  match ← Files.locked s.config.lockPath false s.config.load with
  | .ok (.ok entries) => return { s with known := entries }
  | _ => return s

/-- Runs a change under the exclusive lock. It starts from the entries of the index on disk, and the
store knows the entries that the change gives back, also if it fails. -/
def change {α : Type} (s : Store) (body : Entries → m (Except StoreError α × Entries)) :
    m (Except StoreError α × Store) := do
  let locked ← Files.locked s.config.lockPath true do
    match ← s.config.load with
    | .error e => return (.error e, s)
    | .ok entries =>
      let (result, entries) ← body entries
      return (result, { s with known := entries })
  match locked with
  | .error e => return (.error (.io s.config.lockPath e), s)
  | .ok outcome => return outcome

/-! ## Asking -/

def hashOf (k : Kernel) : ContentHash := .ofText k.source

/-- Whether a kernel of the same text is stored. -/
def contains (s : Store) (k : Kernel) : m (Bool × Store) := do
  let s ← s.refresh
  return (s.known.contains (hashOf k), s)

/-- The path of the file of a kernel, if the index has one and it is there. -/
def get (s : Store) (k : Kernel) : m (Except StoreError (Option Path) × Store) := do
  if k.provenance.isEmpty then return (.error .missingProvenance, s)
  else
    let s ← s.refresh
    match s.known.get? (hashOf k) with
    | none => return (.ok none, s)
    | some entry =>
      let path := s.config.filePath entry.file
      if ← Files.isFile path then return (.ok (some path), s) else return (.ok none, s)

def size (s : Store) : m (Nat × Store) := do
  let s ← s.refresh
  return (s.known.size, s)

def isEmpty (s : Store) : m (Bool × Store) := do
  let s ← s.refresh
  return (s.known.isEmpty, s)

/-- All entries, by ascending hash. -/
def entries (s : Store) : m (List (ContentHash × Entry) × Store) := do
  let s ← s.refresh
  return (s.known.toList.mergeSort fun a b => a.1.value ≤ b.1.value, s)

/-! ## Changing -/

/-- Adds a kernel to entries, first its file and then its entry. Tells whether it was new. -/
def addKernel (c : StoreConfig) (k : Kernel) (entries : Entries) :
    m (Except StoreError Bool × Entries) := do
  let hash := hashOf k
  if entries.contains hash then return (.ok false, entries)
  else
    let file := c.fileName k.role.name hash
    match ← replaceFile c.dir (c.filePath file) (Text.Utf8.bytes k.source) with
    | .error e => return (.error e, entries)
    | .ok () =>
      let entries := entries.insert hash ⟨file, k.role.name, k.provenance⟩
      return ((← c.save entries).map fun () => true, entries)

/-- Stores a kernel. A text that is stored already keeps its file and its entry. -/
def put (s : Store) (k : Kernel) : m (Except StoreError Bool × Store) := do
  if k.provenance.isEmpty then return (.error .missingProvenance, s)
  else s.change (addKernel s.config k)

def persist (s : Store) (k : Kernel) : m (Except StoreError (Bool × Option Path) × Store) := do
  match ← s.put k with
  | (.error e, s) => return (.error e, s)
  | (.ok added, s) =>
    let (found, s) ← s.get k
    return (found.map fun path => (added, path), s)

/-- Whether a file holds a text of the given hash. -/
def isFresh (path : Path) (hash : ContentHash) : m Bool := do
  match ← Files.read path with
  | .error _ => return false
  | .ok bytes =>
    match Text.Utf8.decode bytes with
    | .error _ => return false
    | .ok cs => return ContentHash.ofText (String.ofList cs) == hash

/-- The entries whose file is missing, unreadable or holds another text. -/
def staleEntries (c : StoreConfig) : List (ContentHash × Entry) → m (List (ContentHash × Path))
  | [] => return []
  | (hash, entry) :: rest => do
    let path := c.filePath entry.file
    let fresh ← isFresh path hash
    let stale ← staleEntries c rest
    return if fresh then stale else (hash, path) :: stale

/-- Takes entries out one by one, each with its file. Stops at the first file that stays. -/
def dropAll (entries : Entries) : List (ContentHash × Path) → m (Except StoreError Unit × Entries)
  | [] => return (.ok (), entries)
  | (hash, path) :: rest => do
    let entries := entries.erase hash
    match ← removeFile path with
    | .error e => return (.error e, entries)
    | .ok () => dropAll entries rest

/-- Takes out the stale entries and their files. Tells how many there were. -/
def purgeEntries (c : StoreConfig) (entries : Entries) : m (Except StoreError Nat × Entries) := do
  let stale ← staleEntries c entries.toList
  match ← dropAll entries stale with
  | (.error e, entries) => return (.error e, entries)
  | (.ok (), entries) =>
    if stale.isEmpty then return (.ok 0, entries)
    else return ((← c.save entries).map fun () => stale.length, entries)

def purge (s : Store) : m (Except StoreError Nat × Store) := s.change (purgeEntries s.config)

/-- Removes files one by one. Stops at the first one that stays. -/
def removeFiles : List Path → m (Except StoreError Unit)
  | [] => return .ok ()
  | path :: rest => do
    match ← removeFile path with
    | .error e => return .error e
    | .ok () => removeFiles rest

/-- Takes out everything. -/
def clearEntries (c : StoreConfig) (entries : Entries) : m (Except StoreError Unit × Entries) := do
  match ← removeFiles (entries.values.map fun e => c.filePath e.file) with
  | .error e => return (.error e, entries)
  | .ok () => return (← c.save .empty, .empty)

def clear (s : Store) : m (Except StoreError Unit × Store) := s.change (clearEntries s.config)

end Store

end KernelForge
