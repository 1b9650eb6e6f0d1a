import KernelForge.Store.ContentHash
/-!
# Store configuration

Where a store keeps its files and how it names them. Paths are texts; joining two of them puts a
slash between them where none is, and an absolute path stands for itself.
-/
namespace KernelForge

abbrev Path := String

namespace Path

def isAbsolute (p : Path) : Bool := p.startsWith '/'

/-- The path `name` seen from the directory `dir`. -/
def join (dir name : Path) : Path :=
  if isAbsolute name then name
  else if dir.isEmpty || dir.endsWith '/' then dir ++ name
  else dir ++ "/" ++ name

/-- The parts of a path between its slashes. -/
def parts (p : Path) : List String := (p.toList.splitOn '/').map String.ofList

/-- The directories above a path, nearest first. Parts that lead nowhere do not count. -/
def above (p : Path) : List Path :=
  let names := (parts p).filter fun part => part ≠ "" ∧ part ≠ "."
  let top := if isAbsolute p then "/" else ""
  ((List.range names.length).reverse.filter (· ≠ 0)).map fun n =>
    top ++ "/".intercalate (names.take n)

end Path

structure StoreConfig where
  dir : Path
  /-- The name of the index file in the directory. -/
  indexName : String := "index.bin"
  /-- The beginning of the name of every kernel file. -/
  filePrefix : String := "ttedsl_kernel"
  /-- The ending of the name of every kernel file, without the dot. -/
  extension : String := "cpp"
  deriving DecidableEq

namespace StoreConfig

/-- The environment variable that names the directory. -/
def dirVariable : String := "TT_EDSL_CACHE_DIR"

def defaultDir : Path := "./.tt_edsl"

def ofDir (dir : Path) : StoreConfig := { dir }

/-- The configuration for a value of the environment variable. An empty value counts as none. -/
def ofEnvironment (value : Option String) : StoreConfig :=
  match value with
  | none => ofDir defaultDir
  | some dir => if dir.isEmpty then ofDir defaultDir else ofDir dir

def indexPath (c : StoreConfig) : Path := c.dir.join c.indexName

/-- The file whose lock guards the index. -/
def lockPath (c : StoreConfig) : Path := c.dir.join (c.indexName ++ ".lock")

/-- The file of a kernel of a role and a hash. -/
def fileName (c : StoreConfig) (role : String) (hash : ContentHash) : String :=
  c.filePrefix ++ "_" ++ role ++ "_" ++ hash.text ++ "." ++ c.extension

def filePath (c : StoreConfig) (file : String) : Path := c.dir.join file

end StoreConfig

end KernelForge
