import KernelForge.Signature
/-!
# Intrinsics of the data-movement cores

Debug printing, kernel arguments, circular-buffer flow control and the network on chip, with the
hardware constants that the network calls take as arguments.
-/
namespace KernelForge.Intrinsics

namespace DataMovement

def dprint : Signature := ⟨"DPRINT", [], none⟩

def debug : List Signature := [
  dprint]

def getArgAddr : Signature := ⟨"get_arg_addr", [.scalar .i32], some (.scalar .u32)⟩

def getArgVal : Signature := ⟨"get_arg_val", [.scalar .i32], some (.scalar .u32)⟩

def getCommonArgAddr : Signature := ⟨"get_common_arg_addr", [.scalar .i32], some (.scalar .u32)⟩

def getCommonArgVal : Signature := ⟨"get_common_arg_val", [.scalar .i32], some (.scalar .u32)⟩

def getCompileTimeArgVal : Signature :=
  ⟨"get_compile_time_arg_val", [.scalar .i32], some (.scalar .u32)⟩

def arguments : List Signature := [
  getArgAddr, getArgVal, getCommonArgAddr, getCommonArgVal, getCompileTimeArgVal]

def cbPagesReservableAtBack : Signature :=
  ⟨"cb_pages_reservable_at_back", [.scalar .i32, .scalar .i32], some (.scalar .bool)⟩

def cbPagesAvailableAtFront : Signature :=
  ⟨"cb_pages_available_at_front", [.scalar .i32, .scalar .i32], some (.scalar .bool)⟩

def cbPopFront : Signature := ⟨"cb_pop_front", [.scalar .i32, .scalar .i32], none⟩

def cbPushBack : Signature := ⟨"cb_push_back", [.scalar .i32, .scalar .i32], none⟩

def cbReserveBack : Signature := ⟨"cb_reserve_back", [.scalar .i32, .scalar .i32], none⟩

def cbWaitFront : Signature := ⟨"cb_wait_front", [.scalar .i32, .scalar .i32], none⟩

/-- Flow control of circular buffers. The compute core has calls of the same names over words. -/
def circularBuffer : List Signature := [
  cbPagesReservableAtBack, cbPagesAvailableAtFront, cbPopFront, cbPushBack, cbReserveBack,
  cbWaitFront]

def nocSemaphoreInc : Signature :=
  ⟨"noc_semaphore_inc", [.scalar .u64, .scalar .u32, .scalar .u8], none⟩

def nocSemaphoreWait : Signature := ⟨"noc_semaphore_wait", [.pointer .u32, .scalar .u32], none⟩

def nocSemaphoreSet : Signature := ⟨"noc_semaphore_set", [.pointer .u32, .scalar .u32], none⟩

def nocSemaphoreSetMulticast : Signature :=
  ⟨"noc_semaphore_set_multicast",
    [.scalar .u32, .scalar .u64, .scalar .u32, .scalar .bool, .scalar .bool, .scalar .u8], none⟩

def nocAsyncWriteMulticast : Signature :=
  ⟨"noc_async_write_multicast",
    [.scalar .u32, .scalar .u64, .scalar .u32, .scalar .u32, .scalar .bool, .scalar .bool,
      .scalar .u8],
    none⟩

def nocAsyncWriteBarrier : Signature := ⟨"noc_async_write_barrier", [.scalar .u8], none⟩

def nocAsyncReadBarrier : Signature := ⟨"noc_async_read_barrier", [.scalar .u8], none⟩

def nocAsyncWrite : Signature :=
  ⟨"noc_async_write", [.scalar .u32, .scalar .u64, .scalar .u32, .scalar .u8], none⟩

def nocAsyncRead : Signature :=
  ⟨"noc_async_read", [.scalar .u64, .scalar .u32, .scalar .u32, .scalar .u8], none⟩

def getNocAddrFromBankIdFalse : Signature :=
  ⟨"get_noc_addr_from_bank_id<false>",
    [.scalar .u32, .scalar .u32, .scalar .u8], some (.scalar .u64)⟩

def getNocAddrFromBankIdTrue : Signature :=
  ⟨"get_noc_addr_from_bank_id<true>",
    [.scalar .u32, .scalar .u32, .scalar .u8], some (.scalar .u64)⟩

/-- Reads, writes, barriers, multicasts, semaphores and bank addresses. -/
def network : List Signature := [
  nocSemaphoreInc, nocSemaphoreWait, nocSemaphoreSet, nocSemaphoreSetMulticast,
  nocAsyncWriteMulticast, nocAsyncWriteBarrier, nocAsyncReadBarrier, nocAsyncWrite, nocAsyncRead,
  getNocAddrFromBankIdFalse, getNocAddrFromBankIdTrue]

end DataMovement

/-- Named words that the device headers define. -/
inductive HardwareConstant
  | noc0
  | noc1
  | readCommandBuffer
  | writeCommandBuffer
  | writeRegisterCommandBuffer
  | atomicCommandBuffer
  | channel1
  | channel2
  | channel3
  | channel4
  deriving DecidableEq

namespace HardwareConstant

def all : List HardwareConstant :=
  [noc0, noc1, readCommandBuffer, writeCommandBuffer, writeRegisterCommandBuffer,
    atomicCommandBuffer, channel1, channel2, channel3, channel4]

def name : HardwareConstant → String
  | noc0 => "NOC0"
  | noc1 => "NOC1"
  | readCommandBuffer => "RD_CMD_BUF"
  | writeCommandBuffer => "WR_CMD_BUF"
  | writeRegisterCommandBuffer => "WR_REG_CMD_BUF"
  | atomicCommandBuffer => "AT_CMD_BUF"
  | channel1 => "VC1"
  | channel2 => "VC2"
  | channel3 => "VC3"
  | channel4 => "VC4"

def ofName? (s : String) : Option HardwareConstant := all.find? fun c => c.name == s

theorem ofName?_name (c : HardwareConstant) : ofName? c.name = some c := by cases c <;> decide

end HardwareConstant

end KernelForge.Intrinsics
