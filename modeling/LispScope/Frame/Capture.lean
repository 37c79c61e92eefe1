import LispScope.Frame.Lineage
import LispScope.Frame.Usage

/-!
# Captures

A name that is used inside a function but bound outside is captured: every function between the use
and the binding gets a copy of its own, and the use refers to the innermost copy. A function that
refers to an enclosing one by name needs what that one has captured, and takes copies of its
captures along.
-/
namespace LispScope.FrameTree

/-- The copy under a name in the frame of a function, made from its source if there is none yet.
The flag tells whether it was made. -/
def copyInto (tree : FrameTree) (name : Symbol) (source : BindingId) (frame : FrameId) :
    Option (BindingId × Bool × FrameTree) := do
  let held ← tree.frame? frame
  match held.captures.getOrInsert name tree.bindings.size with
  | (copy, false, _) => return (copy, false, tree)
  | (copy, true, captures) =>
    let tree ← tree.updateFrame frame fun held => { held with captures }
    let bindings := tree.bindings.push (.copyOf source name frame)
    return (copy, true, { tree with bindings })

/-- The copies under a name in the frames of several functions, made as needed in the given order.
The flag tells whether any was made. -/
def copyIntoAll (tree : FrameTree) (name : Symbol) (source : BindingId) :
    List FrameId → Option (List BindingId × Bool × FrameTree)
  | [] => some ([], false, tree)
  | frame :: frames => do
    let (copy, made, tree) ← tree.copyInto name source frame
    let (copies, more, tree) ← tree.copyIntoAll name source frames
    return (copy :: copies, made || more, tree)

/-- Captures a binding in all functions that were left on the way to it, and gives the binding that
the use refers to: the innermost copy, or the binding itself if no function was left. Making a copy
is a boxed use of the binding. -/
def capture (tree : FrameTree) (found : Found BindingId) : Option (BindingId × FrameTree) := do
  let captured ← tree.binding? found.target
  let (copies, made, tree) ← tree.copyIntoAll captured.name found.target found.crossed
  let tree ← if made then tree.noteUse found.target true else some tree
  return (copies.head?.getD found.target, tree)

/-- Copies captures into the frame of a function, except those whose name it has already. -/
def takeAlong (tree : FrameTree) (target : FrameId) : List (Symbol × BindingId) → Option FrameTree
  | [] => some tree
  | (name, source) :: captures => do
    let (_, _, tree) ← tree.copyInto name source target
    tree.takeAlong target captures

/-- Copies what an enclosing function has captured so far into the function nearest to a reference
to it. A reference that leaves no function copies nothing. -/
def captureSelf (tree : FrameTree) (frame : FrameId) (found : Found FrameId) : Option FrameTree :=
  if found.crossed.isEmpty then some tree
  else do
    let target ← tree.closestFunction frame
    let source ← tree.frame? found.target
    tree.takeAlong target source.captures.entries

end LispScope.FrameTree
