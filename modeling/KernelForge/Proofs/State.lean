/-!
# Steps on a state

What programs over a state do, one step after the other.
-/
namespace KernelForge

theorem bind_apply {σ α β : Type} (x : StateM σ α) (f : α → StateM σ β) (s : σ) :
    (x >>= f) s = f (x s).1 (x s).2 := rfl

theorem pure_apply {σ α : Type} (a : α) (s : σ) : (pure a : StateM σ α) s = (a, s) := rfl

theorem get_apply {σ : Type} (s : σ) : (get : StateM σ σ) s = (s, s) := rfl

end KernelForge
