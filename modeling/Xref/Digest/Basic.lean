import Xref.Diagnostic
import Xref.Scope.Basic

/-!
# Digests

What one file contributes to the index: its definitions, scopes and classes, and the calls and
references that are still to be resolved.
-/

namespace Xref

/-- A declared class: its bases as written, and the scope of its body. -/
structure ClassDecl where
  id : DefId
  bases : List String
  body : ScopeId
  deriving DecidableEq, Repr

/-- A call that is still to be resolved. `order` counts the earlier calls of the same caller;
`isSuspended` holds when the caller was suspended before. -/
structure PendingCall where
  site : SiteId
  caller : DefId
  scope : ScopeId
  path : String
  location : Location
  order : Nat
  callee : String
  receiver : Option String
  argCount : Option Int
  isSuspended : Bool
  deriving DecidableEq, Repr

/-- A reference that is still to be resolved. -/
structure PendingReference where
  path : String
  scope : ScopeId
  expression : String
  location : Location
  deriving DecidableEq, Repr

/-- The digest of one file. A failed digest is empty but for its diagnostic. -/
structure Digest where
  path : String
  moduleName : String
  implicitMembers : Bool
  definitions : OrderedMap DefId Definition
  scopes : OrderedMap ScopeId Scope
  classes : OrderedMap DefId ClassDecl
  calls : List PendingCall
  references : List PendingReference
  diagnostics : List Diagnostic
  isFailed : Bool
  deriving DecidableEq, Repr

end Xref
