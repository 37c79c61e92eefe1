import LispScope.Frame

/-!
# Looking names up

The *lineage* of a frame is the path from it to the root. Every lookup is a search along a lineage
for the first frame that has an answer; the search also lists the frames of functions that it has
left on its way, innermost first. In each frame the names bound there come first, then the
captured ones, then the frame's own function name, so that a parameter hides the name of its
function and that name hides whatever is bound outside.
-/
namespace LispScope

/-- A path of frames with their numbers, innermost first. -/
abbrev Lineage := List (FrameId × Frame)

/-- What a search found, and the frames of functions that were left before it. -/
structure Found (α : Type) where
  target : α
  /-- The frames of functions that were left, innermost first. -/
  crossed : List FrameId
deriving DecidableEq, Inhabited, Repr

/-- What an unqualified name refers to inside a form. -/
inductive Referent
  /-- A local name or a captured copy. -/
  | binding (id : BindingId)
  /-- The enclosing function with the given frame. -/
  | self (frame : FrameId)
deriving DecidableEq, Inhabited, Repr

namespace Frame

/-- The binding of a name in the frame; captured copies count if they are asked for. -/
def binding? (frame : Frame) (allowCaptures : Bool) (name : Symbol) : Option BindingId :=
  frame.locals.get? name <|> if allowCaptures then frame.captures.get? name else none

/-- Whether the frame is that of a function with the given name. -/
def isNamed (frame : Frame) (name : String) : Bool :=
  frame.function?.any fun context => context.name = some name

/-- The number of the frame, if it is that of a function with the given name. -/
def self? (id : FrameId) (frame : Frame) (name : Symbol) : Option FrameId :=
  if frame.isNamed name.name then some id else none

end Frame

namespace Lineage

/-- Adds a frame to those that were left, if it is that of a function. -/
def cross (id : FrameId) (frame : Frame) (found : Found α) : Found α :=
  if frame.isFunction then { found with crossed := id :: found.crossed } else found

/-- The answer of the first frame that has one. -/
def search (ask : FrameId → Frame → Option α) : Lineage → Option (Found α)
  | [] => none
  | (id, frame) :: outer =>
    match ask id frame with
    | some target => some ⟨target, []⟩
    | none => (search ask outer).map (cross id frame)

/-- The binding that a name has. Captured copies are passed over unless they are asked for. -/
def findBinding (lineage : Lineage) (allowCaptures : Bool) (name : Symbol) :
    Option (Found BindingId) :=
  lineage.search fun _ frame => frame.binding? allowCaptures name

/-- The binding at which a name was introduced. -/
def findOrigin (lineage : Lineage) (name : Symbol) : Option (Found BindingId) :=
  lineage.findBinding false name

/-- The enclosing function with the given name. A qualified symbol names none. -/
def findSelf (lineage : Lineage) (name : Symbol) : Option (Found FrameId) :=
  if name.isQualified then none else lineage.search fun id frame => frame.self? id name

/-- What an unqualified name refers to. A qualified symbol refers to nothing inside the form. -/
def resolve (lineage : Lineage) (name : Symbol) : Option (Found Referent) :=
  if name.isQualified then none
  else lineage.search fun id frame =>
    ((frame.binding? true name).map .binding) <|> ((frame.self? id name).map .self)

/-- The nearest frame of a function on the path, or its last frame. -/
def closestFunction : Lineage → Option FrameId
  | [] => none
  | [(id, _)] => some id
  | (id, frame) :: outer => if frame.isFunction then some id else closestFunction outer

/-- The nearest frame of a function on the path after its first frame. -/
def enclosingFunction (lineage : Lineage) : Option FrameId :=
  (lineage.tail.find? fun entry => entry.2.isFunction).map Prod.fst

end Lineage

namespace FrameTree

/-- Climbs from a frame to the root in at most the given number of steps. -/
def climb (tree : FrameTree) : Nat → FrameId → Option Lineage
  | 0, _ => none
  | steps + 1, id => do
    let frame ← tree.frame? id
    match frame.parent with
    | none => return [(id, frame)]
    | some parent => return (id, frame) :: (← tree.climb steps parent)

/-- The path from a frame to the root. No path is longer than there are frames. -/
def lineage (tree : FrameTree) (id : FrameId) : Option Lineage := tree.climb tree.frames.size id

/-- The nearest frame of a function at or around a frame, or the root. -/
def closestFunction (tree : FrameTree) (id : FrameId) : Option FrameId := do
  (← tree.lineage id).closestFunction

end FrameTree

end LispScope
