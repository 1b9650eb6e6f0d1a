import KernelForge.Store.Config
/-!
# Options

A command line is read in two steps. Its words are grouped, since `--cache` takes the word after it
along, whatever that word is; then every group changes the options. The first group that cannot be
taken decides the error, and only then it is asked whether there is anything to do.
-/
namespace KernelForge.CommandLine

inductive Group
  | list
  | purge
  | cache (dir : Path)
  /-- The last word is a `--cache` and has no directory. -/
  | cacheWithoutDir
  | unknown (flag : String)
  | kernel (name : String)
  deriving DecidableEq

namespace Group

/-- The group of a word that stands for itself. -/
def ofWord (word : String) : Group :=
  if word = "--list" then list
  else if word = "--purge" then purge
  else if word.startsWith '-' then unknown word
  else kernel word

/-- Groups the words of a command line. -/
def ofWords : List String → List Group
  | [] => []
  | [word] => if word = "--cache" then [cacheWithoutDir] else [ofWord word]
  | word :: next :: rest =>
    if word = "--cache" then cache next :: ofWords rest else ofWord word :: ofWords (next :: rest)

end Group

/-- Why a command line is refused. -/
inductive UsageError
  | missingDirectory
  | unknownOption (flag : String)
  | secondKernel (first second : String)
  | nothingToDo
  deriving DecidableEq

def UsageError.message : UsageError → String
  | missingDirectory => "--cache needs a directory"
  | unknownOption flag => "unknown option '" ++ flag ++ "'"
  | secondKernel first second =>
    "more than one kernel given ('" ++ first ++ "' and '" ++ second ++ "')"
  | nothingToDo => "no kernel given"

structure Options where
  kernel : Option String := none
  cacheDir : Option Path := none
  purge : Bool := false
  list : Bool := false
  deriving DecidableEq

namespace Options

/-- Takes in one group. A later directory replaces an earlier one. -/
def add (o : Options) : Group → Except UsageError Options
  | .list => .ok { o with list := true }
  | .purge => .ok { o with purge := true }
  | .cache dir => .ok { o with cacheDir := some dir }
  | .cacheWithoutDir => .error .missingDirectory
  | .unknown flag => .error (.unknownOption flag)
  | .kernel name =>
    match o.kernel with
    | some first => .error (.secondKernel first name)
    | none => .ok { o with kernel := some name }

def addAll (o : Options) : List Group → Except UsageError Options
  | [] => .ok o
  | g :: rest =>
    match o.add g with
    | .error e => .error e
    | .ok o => o.addAll rest

theorem addAll_append (o : Options) (xs ys : List Group) :
    o.addAll (xs ++ ys) = (o.addAll xs).bind fun o => o.addAll ys := by
  induction xs generalizing o with
  | nil => rfl
  | cons g rest ih =>
    simp only [List.cons_append, addAll]
    cases o.add g with
    | error e => rfl
    | ok o => exact ih o

/-- A directory alone asks for nothing. -/
def asksForNothing (o : Options) : Bool := o.kernel.isNone && !o.list && !o.purge

def parse (words : List String) : Except UsageError Options :=
  match addAll {} (Group.ofWords words) with
  | .error e => .error e
  | .ok o => if o.asksForNothing then .error .nothingToDo else .ok o

/-- The store that the options name, given the value of the environment variable. -/
def storeConfig (o : Options) (environment : Option String) : StoreConfig :=
  match o.cacheDir with
  | some dir => .ofDir dir
  | none => .ofEnvironment environment

end Options

end KernelForge.CommandLine
