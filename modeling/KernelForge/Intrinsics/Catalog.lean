import KernelForge.Intrinsics.Compute
import KernelForge.Intrinsics.DataMovement
/-!
# The intrinsic catalogue

Every device function that a kernel may call, grouped by family.
-/
namespace KernelForge.Intrinsics

inductive Family
  | debug
  | arguments
  | circularBuffer
  | network
  | compute
  | packing
  deriving DecidableEq

namespace Family

/-- The families in the order of the catalogue. -/
def all : List Family := [debug, arguments, circularBuffer, network, compute, packing]

def signatures : Family → List Signature
  | debug => DataMovement.debug
  | arguments => DataMovement.arguments
  | circularBuffer => DataMovement.circularBuffer
  | network => DataMovement.network
  | compute => Compute.compute
  | packing => Compute.packing

end Family

def catalog : List Signature := Family.all.flatMap Family.signatures

/-- The first intrinsic of a name. Where a name occurs twice, the data-movement variant is first. -/
def find? (name : String) : Option Signature := catalog.find? fun s => s.name == name

end KernelForge.Intrinsics
