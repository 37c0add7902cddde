import Xref.Outline.Basic

/-!
# Concrete syntax trees

A parsed source file: nodes with a kind, the field they fill in their parent, the bytes they span
and all their children. The text of a node is a slice of the source and has to be valid UTF-8.
-/

namespace Xref

/-- The position that an offset names in a sequence of the given size: one below zero counts from
the end, and one that lies outside is moved to the nearest end. -/
def position (size : Nat) (offset : Int) : Nat :=
  if offset < 0 then (offset + size).toNat else min offset.toNat size

/-- What a node says of itself. Offsets and columns count bytes, rows start at zero; none of them
has to lie within the source. -/
structure NodeInfo where
  kind : String
  field : Option String
  isNamed : Bool
  start : Int
  stop : Int
  row : Int
  column : Int
  deriving DecidableEq, Repr

/-- A concrete syntax tree. -/
inductive Cst
  | node (info : NodeInfo) (children : List Cst)
  deriving Repr

namespace Cst

instance : Inhabited Cst := ⟨node ⟨"", none, false, 0, 0, 0, 0⟩ []⟩

/-- Why a tree cannot be read. -/
inductive Fault
  | undecodable
  | nullCharacter
  /-- An import text nests beyond the stack. -/
  | overflow
  /-- The tree of an import text is too high. -/
  | tooHigh
  /-- The items of the tree nest beyond the stack. -/
  | tooDeep
  deriving DecidableEq, Repr

def Fault.message : Fault → String
  | undecodable => "source text is not valid UTF-8"
  | nullCharacter => "source code string cannot contain null bytes"
  | overflow => "source text nests too deeply"
  | tooHigh => "maximum recursion depth exceeded during ast construction"
  | tooDeep => "maximum recursion depth exceeded"

def info : Cst → NodeInfo
  | node i _ => i

def kind (n : Cst) : String :=
  n.info.kind

def children : Cst → List Cst
  | node _ cs => cs

def namedChildren (n : Cst) : List Cst :=
  n.children.filter fun c => c.info.isNamed

/-- The first of some nodes that fills the given field. -/
def fieldIn? (field : String) (nodes : List Cst) : Option Cst :=
  nodes.find? fun c => c.info.field = some field

theorem mem_of_fieldIn? {field : String} {cs : List Cst} {c : Cst}
    (h : fieldIn? field cs = some c) : c ∈ cs ∧ c.info.field = some field :=
  ⟨List.mem_of_find?_eq_some h, by simpa using List.find?_some h⟩

/-- The first child that fills the given field. -/
def field? (n : Cst) (field : String) : Option Cst :=
  fieldIn? field n.children

/-- Whether one of the children is the word `async`. -/
def isAsync (n : Cst) : Bool :=
  n.children.any fun c => c.kind = "async"

/-- Where a node starts, counted from one. -/
def location (n : Cst) : Location :=
  ⟨n.info.row + 1, n.info.column + 1⟩

mutual

/-- The count of levels of a tree. -/
def height : Cst → Nat
  | node _ cs => heightAll cs + 1

/-- The height of the tallest of some trees. -/
def heightAll : List Cst → Nat
  | [] => 0
  | c :: cs => max (height c) (heightAll cs)

end

theorem height_lt_of_mem {c : Cst} {i : NodeInfo} {cs : List Cst} (h : c ∈ cs) :
    c.height < (node i cs).height := by
  suffices c.height ≤ heightAll cs by
    rw [height]
    omega
  induction cs with
  | nil => simp at h
  | cons d ds ih =>
    rw [heightAll]
    rcases List.mem_cons.1 h with rfl | h
    · omega
    · have := ih h
      omega

def bytes (source : ByteArray) (n : Cst) : ByteArray :=
  source.extract (position source.size n.info.start) (position source.size n.info.stop)

/-- The source bytes that a node spans, as text. -/
def text (source : ByteArray) (n : Cst) : Except Fault String :=
  match String.fromUTF8? (bytes source n) with
  | some s => .ok s
  | none => .error .undecodable

end Cst

end Xref
