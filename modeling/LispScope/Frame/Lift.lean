import LispScope.Frame.Lineage
import LispScope.Identifier

/-!
# Lifted vars and constants

Vars are looked up and constants built once per function. Each function, and the root, keeps a
registry of those that its code uses, in the order of first use and each with an identifier of its
own. A name is drawn from the supply only when an entry is made.
-/
namespace LispScope.FrameTree

/-- The entry of a var for the code of a frame. -/
def liftVar (tree : FrameTree) (supply : NameSupply) (frame : FrameId) (name : Symbol) :
    Option (LiftedVar × FrameTree × NameSupply) := do
  let target ← tree.closestFunction frame
  let held ← tree.frame? target
  let (nativeName, drawn) := supply.fresh name.text
  let (lifted, made, vars) := held.vars.getOrInsert name ⟨name, nativeName⟩
  let tree ← tree.updateFrame target fun held => { held with vars }
  return (lifted, tree, if made then drawn else supply)

/-- The entry of a constant for the code of a frame. -/
def liftConstant (tree : FrameTree) (supply : NameSupply) (frame : FrameId) (value : Datum) :
    Option (LiftedConstant × FrameTree × NameSupply) := do
  let target ← tree.closestFunction frame
  let held ← tree.frame? target
  let (nativeName, drawn) := supply.freshConstant
  let (lifted, made, constants) := held.constants.getOrInsert value ⟨value, nativeName⟩
  let tree ← tree.updateFrame target fun held => { held with constants }
  return (lifted, tree, if made then drawn else supply)

end LispScope.FrameTree
