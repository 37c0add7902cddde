import Xref.Definition
import Xref.Diagnostic

/-!
# Outcomes of calls

What a call may run, how certain that is, and whether it depends on the class of an object.
-/

namespace Xref

/-- How certain the targets of a call are. -/
inductive Confidence
  | exact
  | ambiguous
  | unknown
  deriving DecidableEq, Repr

namespace Confidence

def word : Confidence → String
  | exact => "exact"
  | ambiguous => "ambiguous"
  | unknown => "unknown"

/-- A value that is no word for a confidence. -/
structure Invalid where
  value : Json
  deriving DecidableEq, Repr

def Invalid.message (e : Invalid) : String :=
  e.value.literal ++ " is not a valid Confidence"

def ofData (value : Json) : Except Invalid Confidence :=
  match [exact, ambiguous, unknown].find? fun c => value = .str c.word with
  | some c => .ok c
  | none => .error ⟨value⟩

/-- The place in the scale of certainty. -/
def rank : Confidence → Nat
  | unknown => 0
  | ambiguous => 1
  | exact => 2

def meets (c minimum : Confidence) : Bool :=
  minimum.rank ≤ c.rank

end Confidence

/-- Whether the targets depend on the class of an object. -/
inductive Dispatch
  | static
  | virtual
  deriving DecidableEq, Repr

def Dispatch.word : Dispatch → String
  | static => "static"
  | virtual => "virtual"

/-- What a call is made on. -/
inductive ReceiverKind
  | none
  | instanceMember
  | selfMember
  | invokedBinding
  deriving DecidableEq, Repr

def ReceiverKind.word : ReceiverKind → String
  | none => "none"
  | instanceMember => "instance-member"
  | selfMember => "self-member"
  | invokedBinding => "invoked-binding"

/-- The outcome of a call; a reason is given where a failure is worth a warning. -/
structure Outcome where
  targets : List DefId
  confidence : Confidence
  dispatch : Dispatch
  reason : Option Reason
  deriving DecidableEq, Repr

namespace Outcome

/-- Nothing is known of the call. -/
def unknown (reason : Option Reason) : Outcome :=
  ⟨[], .unknown, .static, reason⟩

/-- The call runs the given definitions, whatever the object. -/
def exact (targets : List DefId) : Outcome :=
  ⟨targets, .exact, .static, none⟩

/-- The call may run the given definitions. -/
def ambiguous (targets : List DefId) (dispatch : Dispatch) : Outcome :=
  ⟨targets, .ambiguous, dispatch, none⟩

end Outcome

end Xref
