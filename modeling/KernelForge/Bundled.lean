import KernelForge.Intrinsics.Catalog
import KernelForge.Session.Control
import KernelForge.Session.Expression
import KernelForge.Session.Kernel
/-!
# Bundled kernels

Five kernels that show what a session can build, from one call to control flow and a helper
function. Each is built in a session of its own, by the same operations as any other kernel.
-/
namespace KernelForge

/-- A kernel that can be asked for by name: the statements of its source text, for one role. -/
structure Sample where
  name : String
  role : Role
  summary : String
  build : Build (List Statement)

namespace Sample

open Intrinsics.DataMovement Intrinsics.Compute
open Session (comment includeLocal includeSystem exprStatement)

/-! ## The steps that the samples share -/

def getTileSize : Signature := ⟨"get_tile_size", [.scalar .u32], some (.scalar .u32)⟩

def getWritePtr : Signature := ⟨"get_write_ptr", [.scalar .u32], some (.scalar .u32)⟩

instance : Coe Handle Operand := ⟨.handle⟩

def word (v : UInt32) : Operand := .literal (.u32 v)

def scalar (name : String) (kind : Kind) : Build Handle := Session.scalar 0 name kind

def call (callee : Signature) (args : List Operand)
    (few : args.length ≤ Arena.maxArguments := by simp [Arena.maxArguments]) : Build Handle :=
  Session.callShort 0 callee args few

def run (callee : Signature) (args : List Operand)
    (few : args.length ≤ Arena.maxArguments := by simp [Arena.maxArguments]) :
    Build Statement := do
  return exprStatement (← call callee args few)

def set (target : Handle) (value : Operand) : Build Statement := do
  return exprStatement (← Session.assign target value)

def decrement (target : Handle) : Build Statement := do
  set target (← Session.binary .sub target (word 1))

/-- Declares a variable with its first value. -/
def init (target : Handle) (value : Operand) : Build Handle := do
  Session.assign (← Session.declare target) value

def initStatement (target : Handle) (value : Operand) : Build Statement := do
  return exprStatement (← init target value)

/-- Declares a variable with the value of a kernel argument. -/
def initArgument (target : Handle) (position : Int32) : Build Statement := do
  initStatement target (← call getArgVal [.literal (.i32 position)])

/-! ## The samples -/

def helloWorld : Build (List Statement) := do
  let core ← scalar "core" .u32
  return [includeLocal "debug/dprint.h",
    ← Session.kernelMain 0 [
      comment "Hello!",
      ← initArgument core 0,
      ← run dprint [core]]]

def readerUnary : Build (List Statement) := do
  let srcAddr ← scalar "src_addr" .u32
  let bankId ← scalar "bank_id" .u32
  let numTiles ← scalar "num_tiles" .u32
  let cb ← scalar "cb_id_in0" .u32
  let blockTiles ← scalar "ublock_size_tiles" .u32
  let blockBytes ← scalar "ublock_size_bytes" .u32
  let i ← scalar "i" .u32
  let srcNocAddr ← scalar "src_noc_addr" .u64
  let writeAddr ← scalar "l1_write_addr" .u32
  let tileSize ← call getTileSize [cb]
  return [includeSystem "cstdint",
    includeLocal "dataflow_api.h",
    ← Session.kernelMain 0 [
      ← initArgument srcAddr 0,
      ← initArgument bankId 1,
      ← initArgument numTiles 2,
      ← initStatement cb (word 0),
      ← initStatement blockTiles (word 1),
      ← initStatement blockBytes (← Session.binary .mul tileSize blockTiles),
      exprStatement (← Session.declare srcNocAddr),
      ← initStatement writeAddr (word 0),
      ← Session.forLoop 0 (← init i (word 0)) (← Session.binary .lt i numTiles)
        (← Session.assign i (← Session.binary .add i blockTiles)) [
          ← set srcNocAddr (← call getNocAddrFromBankIdTrue [bankId, srcAddr]),
          ← run Intrinsics.DataMovement.cbReserveBack [cb, blockTiles],
          ← set writeAddr (← call getWritePtr [cb]),
          ← run nocAsyncRead [srcNocAddr, writeAddr, blockBytes],
          ← run nocAsyncReadBarrier [],
          ← run Intrinsics.DataMovement.cbPushBack [cb, blockTiles],
          ← set srcAddr (← Session.binary .add srcAddr blockBytes)]]]

def loopback : Build (List Statement) := do
  let buffer ← scalar "l1_buffer_addr" .i32
  let srcAddr ← scalar "dram_buffer_src_addr" .i32
  let srcBank ← scalar "dram_buffer_src_bank" .i32
  let dstAddr ← scalar "dram_buffer_dst_addr" .i32
  let dstBank ← scalar "dram_buffer_dst_bank" .i32
  let size ← scalar "dram_buffer_size" .i32
  let srcNocAddr ← scalar "dram_buffer_src_noc_addr" .i64
  let dstNocAddr ← scalar "dram_buffer_dst_noc_addr" .i64
  let noc0 ← Session.hardware 0 .noc0
  return [includeLocal "dataflow_api.h",
    ← Session.kernelMain 0 [
      ← initArgument buffer 0,
      ← initArgument srcAddr 1,
      ← initArgument srcBank 2,
      ← initArgument dstAddr 3,
      ← initArgument dstBank 4,
      ← initArgument size 5,
      comment "",
      ← initStatement srcNocAddr (← call getNocAddrFromBankIdTrue [srcBank, srcAddr, noc0]),
      comment "",
      ← run nocAsyncRead [srcNocAddr, buffer, size, noc0],
      ← run nocAsyncReadBarrier [noc0],
      comment "",
      ← initStatement dstNocAddr (← call getNocAddrFromBankIdTrue [dstBank, dstAddr, noc0]),
      comment "",
      ← run nocAsyncWrite [buffer, dstNocAddr, size, noc0],
      ← run nocAsyncWriteBarrier [noc0]]]

def eltwiseAdd : Build (List Statement) := do
  let blockCount ← scalar "per_core_block_cnt" .u32
  let in0 ← scalar "cb_in0" .u32
  let in1 ← scalar "cb_in1" .u32
  let out0 ← scalar "cb_out0" .u32
  let block ← scalar "block" .u32
  return [includeLocal "compute_kernel_api/eltwise_binary.h",
    ← Session.kernelMain 0 [
      ← initArgument blockCount 0,
      ← initStatement in0 (word 0),
      ← initStatement in1 (word 1),
      ← initStatement out0 (word 16),
      ← run binaryOpInitCommon [in0, in1, out0],
      ← run addTilesInit [in0, in1, .literal (.bool false)],
      ← Session.forLoop 0 (← init block (word 0)) (← Session.binary .lt block blockCount)
        (← Session.assign block (← Session.binary .add block (word 1))) [
          ← run Intrinsics.Compute.cbWaitFront [in0, word 1],
          ← run Intrinsics.Compute.cbWaitFront [in1, word 1],
          ← run Intrinsics.Compute.cbReserveBack [out0, word 1],
          ← run tileRegsAcquire [],
          ← run addTiles [in0, in1, word 0, word 0, word 0],
          ← run tileRegsCommit [],
          ← run tileRegsWait [],
          ← run packTileFalse [word 0, out0],
          ← run tileRegsRelease [],
          ← run Intrinsics.Compute.cbPopFront [in0, word 1],
          ← run Intrinsics.Compute.cbPopFront [in1, word 1],
          ← run Intrinsics.Compute.cbPushBack [out0, word 1]]]]

/-- The slots of the helper function of `branches`. -/
def tileData : Slot := ⟨.fp32, .array, 0⟩

def tileLength : Slot := ⟨.u32, .scalar, 1⟩

def scaleTile : Signature := ⟨"scale_tile", [.array .fp32, .scalar .u32], none⟩

def branches : Build (List Statement) := do
  let data ← Session.slot 0 tileData
  let length ← Session.slot 0 tileLength
  let mode ← scalar "mode" .u32
  let tiles ← Session.array 0 "tiles" .fp32 32
  let count ← scalar "count" .u32
  let half : Operand := .literal (.fp32 0x3f000000)
  return [
    ← Session.function 0 scaleTile [tileData, tileLength] [
      ← Session.whileLoop 0 (← Session.binary .gt length (word 0)) [
        ← decrement length,
        ← set (← Session.index data length)
          (← Session.binary .mul (← Session.index data length) half)]],
    ← Session.kernelMain 0 [
      ← initArgument mode 0,
      exprStatement (← Session.declare tiles),
      ← initStatement count (word 32),
      ← Session.ifChain 0 (← Session.binary .eq mode (word 0), [comment "identity"])
        [(← Session.binary .eq mode (word 1), [← run scaleTile [tiles, count]])]
        (some [← set count (word 0)]),
      ← Session.switch 0 mode
        [(word 0, [comment "mode 0"]), (word 1, [← decrement count])]
        (some [comment "unknown mode"])]]

/-- The samples, in the order in which they are listed. Their names are distinct. -/
def all : List Sample := [
  ⟨"hello_world", .crisc, "print the core's first runtime argument", helloWorld⟩,
  ⟨"reader_unary", .brisc, "stream tiles from a DRAM bank into a circular buffer", readerUnary⟩,
  ⟨"loopback", .ncrisc, "copy a DRAM buffer through L1 and back", loopback⟩,
  ⟨"eltwise_add", .crisc, "add two tile streams on the compute core", eltwiseAdd⟩,
  ⟨"branches", .brisc, "if/switch dispatch on a runtime mode and a helper function", branches⟩]

def find? (name : String) : Option Sample := all.find? fun s => s.name == name

/-- Builds and renders a sample. Its provenance is its place among the bundled kernels. -/
def kernel (s : Sample) : Except RenderError Kernel :=
  let build := do Session.kernel 0 (← s.build) {}
  (build.run (.new s.role ["bundled:" ++ s.name])).1

end Sample

end KernelForge
