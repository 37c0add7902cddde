import Mathlib.Data.List.Basic
import Xref.Cst.Signature

/-!
# The calls of a syntax tree

Every node of the kind `call` is owed as a call at its place, with a few exceptions that go by where
it stands: inside a decorator, a type annotation, a keyword argument or a subscript of a base in the
header of a class, or as a bare parent call before a member that is called.
-/

namespace Xref.Cst

/-- How a node stands in its parent, as far as that decides which calls below it are owed. -/
inductive Region
  /-- A statement or expression. -/
  | code
  /-- A node that only groups what stands in it. -/
  | frame
  /-- The bases in the header of a class. -/
  | bases
  /-- A base with type arguments. -/
  | subscript
  | parameters
  | parameter
  /-- The context managers of a `with` statement. -/
  | managers
  /-- What is called. -/
  | callee
  /-- What stands before the member that is called. -/
  | receiver
  deriving DecidableEq, Repr

/-- Whether a node is a list of context managers. -/
def isClause (n : Cst) : Bool :=
  n.info.isNamed && n.kind = "with_clause"

/-- The region of a child of a statement or expression; calls in a child without one are not
owed. -/
def codeRegion? (parent c : Cst) : Option Region :=
  let fills (field : String) : Bool := c.info.field = some field
  if parent.kind = "decorated_definition" then
    if c.kind = "decorator" && !fills "definition" then none else some .code
  else if parent.kind = "class_definition" then
    if fills "superclasses" then some .bases
    else if fills "type_parameters" then none
    else if fills "body" then some .frame
    else some .code
  else if parent.kind = "function_definition" then
    if fills "parameters" then some .parameters
    else if fills "return_type" || fills "type_parameters" then none
    else if fills "body" then some .frame
    else some .code
  else if parent.kind = "lambda" then
    if fills "parameters" then some .parameters else some .code
  else if parent.kind = "assignment" then
    if fills "type" then none else some .code
  else if parent.kind = "with_statement" then
    if isClause c then some .managers
    else if fills "body" then some .frame
    else some .code
  else if parent.kind = "call" then
    if fills "function" then some .callee
    else if fills "arguments" && c.kind ≠ "generator_expression" then some .frame
    else some .code
  else some .code

/-- The region of a child of a node; calls in a child without one are not owed. -/
def Region.child? (region : Region) (parent c : Cst) : Option Region :=
  match region with
  | code | receiver => codeRegion? parent c
  | frame => some code
  | bases =>
    if c.kind = "keyword_argument" then none
    else if c.kind = "subscript" && (c.field? "value").isSome then some subscript
    else some code
  | subscript =>
    if c.info.field = some "value" && c.kind ≠ "keyword_argument" then some code else none
  | parameters => some parameter
  | parameter => if c.info.field = some "type" then none else some code
  | managers => if (c.field? "value").isSome then some frame else some code
  | callee =>
    if parent.kind = "attribute" then
      if c.info.field = some "object" then some receiver else some code
    else codeRegion? parent c

/-- Whether a node is owed as a call: not if it is a bare parent call before a member. -/
def isOwed (source : ByteArray) (region : Region) (n : Cst) : Bool :=
  n.kind = "call" && !(region = .receiver && (isBareSuper source n).toOption.getD false)

mutual

/-- The places of the calls that are owed for a node in a region. -/
def owed (source : ByteArray) (region : Region) : Cst → List Location
  | node info children =>
    (if isOwed source region (node info children) then [(node info children).location] else []) ++
      owedAmong source region (node info children) children

/-- The places of the calls that are owed for some children of a node. -/
def owedAmong (source : ByteArray) (region : Region) (parent : Cst) : List Cst → List Location
  | [] => []
  | c :: cs =>
    (match region.child? parent c with
      | none => []
      | some inner => owed source inner c) ++ owedAmong source region parent cs

end

/-- The places of the calls that are owed for a child of a node. -/
def owedChild (source : ByteArray) (region : Region) (parent c : Cst) : List Location :=
  ((region.child? parent c).map fun inner => owed source inner c).getD []

theorem owedAmong_eq_flatMap (source : ByteArray) (region : Region) (parent : Cst) (cs : List Cst) :
    owedAmong source region parent cs = cs.flatMap (owedChild source region parent) := by
  induction cs with
  | nil => rfl
  | cons c cs ih =>
    rw [owedAmong, ih, List.flatMap_cons, owedChild]
    cases region.child? parent c <;> rfl

/-- The places of the calls that are owed below a node. -/
def owedBelow (source : ByteArray) (region : Region) (n : Cst) : List Location :=
  n.children.flatMap (owedChild source region n)

theorem owed_eq (source : ByteArray) (region : Region) (n : Cst) :
    owed source region n =
      (if isOwed source region n then [n.location] else []) ++ owedBelow source region n := by
  cases n with
  | node info children =>
    rw [owed, owedAmong_eq_flatMap]
    rfl

variable {source : ByteArray} {n : Cst} {region : Region}

theorem owed_of_not_owed (h : isOwed source region n = false) :
    owed source region n = owedBelow source region n := by
  rw [owed_eq, h]
  rfl

theorem isOwed_of_kind (h : n.kind ≠ "call") : isOwed source region n = false := by
  simp [isOwed, h]

/-- Where a region changes nothing for a node, it owes what code owes. -/
theorem owed_eq_code (hself : isOwed source region n = isOwed source .code n)
    (hchild : ∀ c ∈ n.children, region.child? n c = Region.child? .code n c) :
    owed source region n = owed source .code n := by
  rw [owed_eq, owed_eq, hself]
  congr 1
  unfold owedBelow
  refine List.flatMap_congr fun c hc => ?_
  rw [owedChild, owedChild, hchild c hc]

/-- The places of the calls that are owed for a file: everything below the root is code. -/
def owedUnder (source : ByteArray) (tree : Cst) : List Location :=
  tree.children.flatMap (owed source .code)

end Xref.Cst
