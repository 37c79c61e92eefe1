import LispScope.Diagnostic.Fault

/-!
# Macro expanders

An expander turns a macro call, given as the whole list, into the form that takes its place, or
refuses it. This module has the expanders that other ones are commonly made of.
-/
namespace LispScope

/-- Turns a macro call into its expansion. -/
abbrev Expander := Form → Except Diagnostic Form

namespace Expander

def arguments (call : Form) : List Form := (call.list?.map List.tail).getD []

/-- Refuses a call for a reason of the expander's own. -/
def refuse (reason : String) (call : Form) : Except Diagnostic Form :=
  throw ((Fault.host reason).diagnose call.span)

/-- Every call stands for the same form. -/
def constant (form : Form) : Expander := fun _ => return form

/-- Every call is refused with the same diagnostic. -/
def failing (diagnostic : Diagnostic) : Expander := fun _ => throw diagnostic

/-- A call stands for a list of the given items followed by its arguments. -/
def prepending (items : List Form) : Expander := fun call =>
  return .list (items ++ arguments call) call.span

/-- A call stands for one of its arguments, counted from zero. -/
def argument (index : Nat) : Expander := fun call =>
  match (arguments call)[index]? with
  | some form => return form
  | none => refuse ("missing argument " ++ toString index) call

end Expander

end LispScope
