import LispScope.Frame

/-!
# Uses of bindings

A use takes the value of a binding boxed or unboxed. A boxed use forces the box, and it flows on to
every local whose value the binding may have been given as it is, and so on; it stops at captured
copies and at bindings that have had a boxed use before. Each binding is marked at most once, so
the spreading ends.
-/
namespace LispScope

/-- Marks the pending bindings, and all bindings that a boxed use of them flows on to. Gives `none`
if a number belongs to no binding. -/
def spreadBoxedUse (bindings : Array Binding) (pending : List BindingId) : Option (Array Binding) :=
  match pending with
  | [] => some bindings
  | id :: pending =>
    if inRange : id < bindings.size then
      if bindings[id].hasBoxedUse then spreadBoxedUse bindings pending
      else
        let binding := bindings[id].useBoxed
        spreadBoxedUse (bindings.set id binding) (binding.aliases ++ pending)
    else none
termination_by (bindings.countP fun binding => !binding.hasBoxedUse, pending.length)
decreasing_by
  · exact Prod.Lex.right _ (Nat.lt_succ_self _)
  · rename_i marked
    apply Prod.Lex.left
    have before : (!bindings[id].hasBoxedUse) = true := by simpa using marked
    have after : ¬ (!bindings[id].useBoxed.hasBoxedUse) = true := by simp [Binding.useBoxed]
    have counted : 0 < bindings.countP fun binding => !binding.hasBoxedUse :=
      Array.countP_pos_iff.mpr ⟨bindings[id], Array.getElem_mem inRange, before⟩
    rw [Array.countP_set, if_pos before, if_neg after]
    omega

namespace FrameTree

def noteUse (tree : FrameTree) (id : BindingId) (boxed : Bool) : Option FrameTree :=
  if boxed then do
    let bindings ← spreadBoxedUse tree.bindings [id]
    return { tree with bindings }
  else if id < tree.bindings.size then
    some { tree with bindings := tree.bindings.modify id Binding.useUnboxed }
  else none

end FrameTree

end LispScope
