import KernelForge.Bundled
import KernelForge.CommandLine.Options
import KernelForge.Store.Basic
/-!
# Running a command line

What the options ask for is done in a fixed order: list, render, store, purge. The text that was
written before an error stays written.
-/
namespace KernelForge.CommandLine

inductive CommandError
  | unknownKernel (name : String)
  | render (cause : RenderError)
  | store (cause : StoreError)
  deriving DecidableEq

def CommandError.message : CommandError → String
  | unknownKernel name => "unknown kernel '" ++ name ++ "' (try --list)"
  | render cause => "rendering failed: " ++ cause.message
  | store cause => cause.message

variable {m : Type → Type} [Monad m] [Files m]

/-- An action that writes text and may stop with an error. -/
abbrev Command (m : Type → Type) := ExceptT CommandError (StateT String m)

def write (text : String) : Command m Unit := modify (· ++ text)

def line (text : String) : Command m Unit := write (text ++ "\n")

/-- Runs an operation of a store, which changes what the store knows. -/
def onStore {α : Type} (action : m (Except StoreError α × Store)) : Command m (α × Store) := do
  match ← action with
  | (.error e, _) => throw (.store e)
  | (.ok a, s) => return (a, s)

def openStore (c : StoreConfig) : Command m Store := do
  match ← (Store.openAt c : m _) with
  | .error e => throw (.store e)
  | .ok s => return s

/-! ## Listing -/

/-- A text with blanks up to a width. -/
def padded (width : Nat) (text : String) : String :=
  text ++ String.ofList (List.replicate (width - text.length) ' ')

/-- The line of a sample in the list. -/
def describe (s : Sample) : String :=
  padded 14 s.name ++ " " ++ padded 7 s.role.name ++ " " ++ s.summary

def listSamples : Command m Unit := Sample.all.forM fun s => line (describe s)

/-! ## Rendering and storing -/

/-- Builds the sample of a name and writes its source text. -/
def renderSample (name : String) : Command m Kernel := do
  match Sample.find? name with
  | none => throw (.unknownKernel name)
  | some sample =>
    match sample.kernel with
    | .error e => throw (.render e)
    | .ok kernel =>
      write kernel.source
      return kernel

/-- Stores a kernel and writes where it is. -/
def storeKernel (c : StoreConfig) (kernel : Kernel) : Command m Store := do
  let store ← openStore c
  let ((_, path), store) ← onStore (store.persist kernel)
  match path with
  | some path => line ("cached: " ++ path)
  | none => line "not cached"
  return store

/-- Removes what is stale and writes how much there was and how much is left. -/
def purgeStore (store : Store) : Command m Unit := do
  let (removed, store) ← onStore store.purge
  let (left, _) ← (store.size : m _)
  line ("purged " ++ toString removed ++ " stale entries, " ++ toString left ++ " remain")

/-! ## The whole command -/

/-- Renders the kernel that the options name, if they name one, and stores it if they name a
directory. The store that was opened for it is given back. -/
def renderAndStore (o : Options) (c : StoreConfig) : Command m (Option Store) :=
  match o.kernel with
  | none => return none
  | some name => do
    let kernel ← renderSample name
    if o.cacheDir.isSome then return some (← storeKernel c kernel) else return none

def Options.command (o : Options) (environment : Option String) : Command m Unit := do
  let config := o.storeConfig environment
  if o.list then listSamples
  let opened ← renderAndStore o config
  if o.purge then
    match opened with
    | some store => purgeStore store
    | none => purgeStore (← openStore config)

/-- Does what the options ask for. Gives the text that was written also if there was an error. -/
def Options.run (o : Options) (environment : Option String) :
    m (Except CommandError Unit × String) :=
  ((o.command environment).run).run ""

/-- What a program leaves behind. -/
structure Outcome where
  code : UInt32
  stdout : String
  stderr : String
  deriving DecidableEq

def usage : String :=
  "Usage: ttc <kernel> [--cache DIR] [--purge]\n" ++
  "       ttc --list\n" ++
  "       ttc --purge [--cache DIR]\n" ++
  "\n" ++
  "Options:\n" ++
  "  --cache DIR   Store the rendered kernel in the cache at DIR\n" ++
  "  --purge       Drop stale cache entries (cache from --cache or TT_EDSL_CACHE_DIR)\n" ++
  "  --list        List the bundled kernels"

/-- The program as a whole: a command line that is refused gives code 2, an error code 1. -/
def program (words : List String) (environment : Option String) : m Outcome :=
  match Options.parse words with
  | .error e => return ⟨2, "", "error: " ++ e.message ++ "\n\n" ++ usage ++ "\n"⟩
  | .ok o => do
    match ← o.run environment with
    | (.error e, written) => return ⟨1, written, "error: " ++ e.message ++ "\n"⟩
    | (.ok (), written) => return ⟨0, written, ""⟩

end KernelForge.CommandLine
