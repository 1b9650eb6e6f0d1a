import KernelForge.Signature
/-!
# Intrinsics of the compute core

Tile registers, copies, element-wise operations, broadcasts, reductions, matrix products, tilizing
and the unary operations of the vector unit, and packing results out of the destination registers.
None of them returns a value.
-/
namespace KernelForge.Intrinsics.Compute

/-- A callable whose `count` parameters are all 32-bit words. -/
def words (name : String) (count : Nat) : Signature :=
  ⟨name, List.replicate count (.scalar .u32), none⟩

def tileRegsAcquire : Signature := words "tile_regs_acquire" 0

def tileRegsWait : Signature := words "tile_regs_wait" 0

def tileRegsCommit : Signature := words "tile_regs_commit" 0

def tileRegsRelease : Signature := words "tile_regs_release" 0

def addTilesInit : Signature :=
  ⟨"add_tiles_init", [.scalar .u32, .scalar .u32, .scalar .bool], none⟩

def addTiles : Signature := words "add_tiles" 5

def cbWaitFront : Signature := words "cb_wait_front" 2

def cbPopFront : Signature := words "cb_pop_front" 2

def cbReserveBack : Signature := words "cb_reserve_back" 2

def cbPushBack : Signature := words "cb_push_back" 2

def binaryOpInitCommon : Signature := words "binary_op_init_common" 3

def packTileFalse : Signature := words "pack_tile<false>" 4

/-- The compute calls. The circular-buffer calls take words here. -/
def compute : List Signature := [
  words "copy_tile" 3, words "copy_tile_to_dst_init_short_with_dt" 3,
  words "copy_tile_to_dst_init_short" 2, words "copy_tile_init" 0, words "acquire_dst" 0,
  words "release_dst" 0, tileRegsAcquire, tileRegsWait, tileRegsCommit, tileRegsRelease,
  words "abs_tile" 1, words "add_tiles_init_nof" 0, addTilesInit, addTiles,
  words "sub_tiles_init_nof" 0,
  ⟨"sub_tiles_init", [.scalar .u32, .scalar .u32, .scalar .bool], none⟩, words "sub_tiles" 5,
  words "mul_tiles_init_f" 0, words "mul_tiles_init" 2, words "mul_tiles" 5,
  words "add_bcast_cols_init_short" 2, words "add_bcast_rows_init_short" 2,
  words "add_tiles_bcast<BroadcastType::ROW>" 6, words "add_tiles_bcast<BroadcastType::COL>" 6,
  words "sub_bcast_colss_init_short" 2, words "sub_bcast_rows_init_short" 2,
  words "sub_tiles_bcast<BroadcastType::ROW>" 6, words "sub_tiles_bcast<BroadcastType::COL>" 6,
  words "mul_bcast_cols_init_short" 2, words "mul_bcast_rows_init_short" 2,
  words "mul_tiles_bcast<BroadcastType::ROW>" 6, words "mul_tiles_bcast<BroadcastType::COL>" 6,
  words "mul_tiles_bcast_scalar_init_short" 5, words "mm_init" 4, words "mm_init_short_with_dt" 4,
  words "mm_init_short" 3, words "matmul_tiles" 6, words "mm_block_init" 7,
  words "mm_block_init_short" 6, words "mm_block_init_short_dt" 7, words "matmul_block" 9,
  words "exp_tile_init" 0, words "exp_tile" 1, words "exp_tile_init<true>" 0,
  words "exp_tile<true>" 1, words "exp2_tile_init" 0, words "exp2_tile" 1,
  words "expm1_tile_init" 0, words "expm1_tile" 1, words "relu_tile_init" 0, words "relu_tile" 1,
  words "relu_max_tile_init" 0, words "relu_max_tile" 2, words "relu_min_tile_init" 0,
  words "relu_min_tile" 2, words "leaky_relu_tile_init" 0, words "leaky_relu_tile" 2,
  words "elu_tile_init" 0, words "elu_tile" 2, words "erf_tile_init<false>" 0,
  words "erf_tile<false>" 1, words "erf_tile_init" 0, words "erf_tile" 1,
  words "erfc_tile_init<false>" 0, words "erfc_tile<false>" 1, words "erfc_tile_init" 0,
  words "erfc_tile" 1, words "erfinv_tile_init" 0, words "erfinv_tile" 1,
  words "gelu_tile_init<false>" 0, words "gelu_tile<false>" 1, words "gelu_tile_init" 0,
  words "gelu_tile" 1, words "heaviside_tile_init" 0, words "heaviside_tile" 2,
  words "isinf_tile_init" 0, words "isinf_tile" 1, words "isposinf_tile_init" 0,
  words "isposinf_tile" 1, words "isneginf_tile_init" 0, words "isneginf_tile" 1,
  words "isfinite_tile_init" 0, words "isfinite_tile" 1, words "isnan_tile" 1,
  words "i0_tile_init" 0, words "i0_tile" 1, words "logical_not_unary_tile_init" 0,
  words "logical_not_unary_tile" 1, words "recip_tile_init" 0, words "recip_tile" 1,
  words "sign_tile_init" 0, words "sign_tile" 1, words "sqrt_tile_init" 0, words "sqrt_tile" 1,
  words "rsqrt_tile_init<false>" 0, words "rsqrt_tile<false>" 1, words "rsqrt_tile_init" 0,
  words "rsqrt_tile" 1, words "sigmoid_tile_init" 0, words "sigmoid_tile" 1,
  words "log_tile_init" 0, words "log_tile" 1, words "log_with_base_tile_init" 0,
  words "log_with_base_tile" 2, words "power_tile_init" 0, words "power_tile" 2,
  words "rsub_tile_init" 0, words "rsub_tile" 2, words "signbit_tile_init" 0,
  words "signbit_tile" 1, words "square_tile_init" 0, words "square_tile" 1,
  words "reduce_tile<ReduceFunc::Sum, Reduce::R>" 5,
  words "reduce_tile<ReduceFunc::Sum, Reduce::C>" 5,
  words "reduce_tile<ReduceFunc::Sum, Reduce::RC>" 5,
  words "reduce_tile<ReduceFunc::Max, Reduce::R>" 5,
  words "reduce_tile<ReduceFunc::Max, Reduce::C>" 5,
  words "reduce_tile<ReduceFunc::Max, Reduce::RC>" 5, words "transpose_wh_init" 2,
  words "transpose_wh_tile" 3, words "tanh_tile_init" 0, words "tanh_tile" 1,
  words "tan_tile_init" 0, words "tan_tile" 1, words "sin_tile_init" 0, words "sin_tile" 1,
  words "cos_tile_init" 0, words "cos_tile" 1, words "asin_tile_init" 0, words "asin_tile" 1,
  words "atan_tile_init" 0, words "atan_tile" 1, words "acos_tile_init" 0, words "acos_tile" 1,
  words "ltz_tile_init" 0, words "ltz_tile" 1, words "eqz_tile_init" 0, words "eqz_tile" 1,
  words "lez_tile_init" 0, words "lez_tile" 1, words "gtz_tile_init" 0, words "gtz_tile" 1,
  words "gez_tile_init" 0, words "gez_tile" 1, words "nez_tile_init" 0, words "nez_tile" 1,
  words "unary_ne_tile_init" 0, words "unary_ne_tile" 2, words "unary_gt_tile_init" 0,
  words "unary_gt_tile" 2, words "unary_lt_tile_init" 0, words "unary_lt_tile" 2, cbWaitFront,
  cbPopFront, cbReserveBack, cbPushBack, binaryOpInitCommon,
  words "binary_op_specific_init<true, EltwiseBinaryType::ELWADD>" 0,
  words "binary_op_specific_init<true, EltwiseBinaryType::ELWSUB>" 0,
  words "binary_op_specific_init<true, EltwiseBinaryType::ELWMUL>" 0,
  words "binary_op_specific_init<false, EltwiseBinaryType::ELWADD>" 0,
  words "binary_op_specific_init<false, EltwiseBinaryType::ELWSUB>" 0,
  words "binary_op_specific_init<false, EltwiseBinaryType::ELWMUL>" 0, words "tilize_init" 3,
  words "tilize_init_short" 3, words "tilize_init_short_with_dt" 4, words "tilize_block" 3,
  words "tilize_uninit" 2, words "tilize_uninit_with_dt" 3, words "untilize_init" 2,
  words "untilize_init_short" 1,
  ⟨"untilize_block", [.scalar .u32, .scalar .u32, .scalar .u32, .scalar .i32], none⟩,
  words "untilize_uninit" 1]

/-- The calls that move results out of the destination registers. -/
def packing : List Signature := [
  words "pack_tile<true>" 4, packTileFalse, words "matmul_pack_tile" 3]

end KernelForge.Intrinsics.Compute
