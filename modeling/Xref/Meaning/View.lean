import Xref.Hierarchy.Basic
import Xref.Meaning.Basic
import Xref.TypeHint

/-!
# Resolving names

Names, bindings, qualified names and members are resolved in terms of each other. Every step of the
way takes one hop; when only `reserve` hops are left, bindings and qualified names are given up, and
the reserve lets the steps around them end.
-/

namespace Xref

open Text

/-- A catalog seen with or without its hierarchy. Without it a class has the members of its own body
only. -/
structure View where
  catalog : Catalog
  hierarchy : Option Hierarchy

namespace View

/-- The linear order of a class, if it is known. -/
def order? (v : View) (id : DefId) : Option (List DefId) :=
  v.hierarchy.bind (·.order? id)

/-- The class that gives a member, and the binding. -/
def findMember? (v : View) (id : DefId) (name : String) : Option (DefId × Binding) :=
  match v.order? id with
  | some order => v.catalog.memberAlong? order name
  | none => (v.catalog.ownMember? id name).map fun b => (id, b)

def mentionClass (v : View) (id : DefId) : Tracing Unit :=
  match v.catalog.definitions.get? id with
  | some definition => mention definition.qualname
  | none => modify (.lost id :: ·)

/-- Records the classes along which a member of a class is looked for. -/
def mentionOrder (v : View) (id : DefId) : Tracing Unit :=
  match v.hierarchy with
  | none => pure ()
  | some _ => ((v.order? id).getD [id]).forM v.mentionClass

/-- The hops that are kept back. -/
def reserve : Nat := 4

/-- The hops of a whole resolution. -/
def hops : Nat := 16 + reserve

def classOf? (v : View) (r : Resolved) : Option DefId :=
  match r.meaning, r.role with
  | .definition id _, none =>
    ((v.catalog.definitions.get? id).filter fun d => d.kind = .classBody).map (·.id)
  | _, _ => none

/-- The qualified name of what lies outside the index. -/
def externalOf? (r : Resolved) : Option String :=
  match r.meaning with
  | .external qualname => some qualname
  | _ => none

/-- The name that a hint names, if the scope to read it from is known. -/
def hintName? (v : View) (hint : String) (seenFrom : ScopeId) : Option String :=
  if v.catalog.scopes.contains seenFrom then TypeHint.className? hint else none

/-- Records a hint that nests too deeply. -/
def mentionHint (hint : String) : Tracing Unit :=
  if TypeHint.isTooDeep hint then modify (.tooDeep :: ·) else pure ()

/-- The meaning of a binding with a written type: an object of an indexed class or of another. -/
def hinted (b : Binding) (type : Tracing (Option DefId)) (external : Tracing (Option String)) :
    Tracing Resolved := do
  match ← type with
  | some type => return .bound b (.object type none)
  | none =>
    match ← external with
    | some qualname => return .bound b (.external qualname)
    | none => return .bound b (.unresolved b.name)

/-- The meaning of a binding that holds the value of a call: an object of an indexed class, or the
definition that holds it, with the maker outside the index if there is one. -/
def built (b : Binding) (id : DefId) (type : Tracing (Option DefId))
    (external : Tracing (Option String)) : Tracing Resolved := do
  match ← type with
  | some type => return .bound b (.object type (some id))
  | none => return .bound b (.definition id (← external))

mutual

/-- The meaning of a dotted expression seen from a scope. -/
def nameAt (v : View) : Nat → ScopeId → String → Tracing Resolved
  | 0, _, dotted => return .plain (.unresolved dotted)
  | hops + 1, scope, dotted => do
    let parts := Dotted.parts dotted
    let head := parts.headD ""
    let first ← match v.catalog.lookup? scope head with
      | none => do
        mention (nameKey head)
        pure (.plain (.unresolved head))
      | some (binding, owner) => do
        let r ← bindingAt v hops binding
        pure (if owner.kind = .classBody && owner.id ≠ scope then { r with viaClassScope := true }
          else r)
    parts.tail.foldlM (fun r member => memberAt v hops r member) first

def bindingAt (v : View) : Nat → Binding → Tracing Resolved
  | 0, b => return .bound b (.unresolved b.name)
  | hops + 1, b =>
    if hops + 1 < reserve then return .bound b (.unresolved b.name)
    else
      let external (hint : String) (seenFrom : ScopeId) : Tracing (Option String) :=
        match v.hintName? hint seenFrom with
        | some name => do return externalOf? (← nameAt v hops seenFrom name)
        | none => return none
      match b.value with
      | .declared id | .literal id =>
        match v.catalog.definitions.get? id with
        | none => return .bound b (.unresolved b.name)
        | some definition => do
          mention definition.qualname
          return .bound b (.definition definition.id none)
      | .built id maker seenFrom =>
        match v.catalog.definitions.get? id with
        | none => return .bound b (.unresolved b.name)
        | some definition => do
          mention definition.qualname
          match maker.filter (· ≠ ""), definition.kind with
          | some hint, .boundValue =>
            built b definition.id (typeAt v hops hint seenFrom) (external hint seenFrom)
          | _, _ => return .bound b (.definition definition.id none)
      | .imported qualname => do
        let r ← qualnameAt v hops qualname
        return { r with binding := some b }
      | .receiver role owner => do
        match v.catalog.definitions.get? owner with
        | some definition => mention definition.qualname
        | none => pure ()
        match role with
        | .cls => return { Resolved.bound b (.definition owner none) with role := some .cls }
        | .self => return { Resolved.bound b (.object owner none) with role := some .self }
      | .assigned hint source seenFrom =>
        match hint.filter (· ≠ ""), source.filter (· ≠ "") with
        | some hint, _ => hinted b (typeAt v hops hint seenFrom) (external hint seenFrom)
        | none, some source => do
          let r ← nameAt v hops seenFrom source
          return { r with binding := some b }
        | none, none => return .bound b (.unresolved b.name)
      | .parameter hint seenFrom =>
        match hint.filter (· ≠ "") with
        | some hint => hinted b (typeAt v hops hint seenFrom) (external hint seenFrom)
        | none => return .bound b (.unresolved b.name)
      | .loop => return .bound b (.unresolved b.name)

/-- The meaning of a qualified name. A name that its module does not define may be bound or imported
there. -/
def qualnameAt (v : View) : Nat → String → Tracing Resolved
  | 0, qualname => do
    mention qualname
    return .plain (.unresolved qualname)
  | hops + 1, qualname => do
    mention qualname
    if hops + 1 < reserve then return .plain (.unresolved qualname)
    else
      match v.catalog.find? qualname with
      | some definition => return .plain (.definition definition.id none)
      | none =>
        if v.catalog.isPackage qualname then return .plain (.package qualname)
        else
          let outer := Dotted.init qualname
          let last := Dotted.last qualname
          if outer = "" then return .plain (.external qualname)
          else
            match v.catalog.moduleScopes.get? outer with
            | some scope =>
              match v.catalog.lookup? scope last with
              | some (binding, _) => bindingAt v hops binding
              | none => return .plain (.unresolved qualname)
            | none =>
              let owner ← qualnameAt v hops outer
              memberAt v hops owner last

def memberAt (v : View) : Nat → Resolved → String → Tracing Resolved
  | 0, _, name => return .plain (.unresolved name)
  | hops + 1, owner, name =>
    let ofClass (id : DefId) : Tracing Resolved := do
      v.mentionOrder id
      match v.findMember? id name with
      | some (_, binding) => bindingAt v hops binding
      | none => return .plain (.unresolved name)
    match owner.meaning with
    | .external qualname => return .plain (.external (qualname ++ "." ++ name))
    | .package outer => do
      let qualname := outer ++ "." ++ name
      if (v.catalog.find? qualname).isNone && !v.catalog.isPackage qualname then
        mention qualname
        return .plain (.external qualname)
      else qualnameAt v hops qualname
    | .object type _ => ofClass type
    | .definition id maker =>
      match v.catalog.definitions.get? id with
      | none => return .plain (.unresolved name)
      | some definition =>
        match definition.kind, maker.filter (· ≠ "") with
        | .fileBody, _ => qualnameAt v hops (definition.qualname ++ "." ++ name)
        | .classBody, _ => ofClass definition.id
        | .boundValue, some maker => return .plain (.external (maker ++ "." ++ name))
        | _, _ => return .plain (.unresolved name)
    | .unresolved _ => return .plain (.unresolved name)

/-- The class that a hint names, seen from a scope. -/
def typeAt (v : View) : Nat → String → ScopeId → Tracing (Option DefId)
  | 0, _, _ => return none
  | hops + 1, hint, seenFrom => do
    mentionHint hint
    match v.hintName? hint seenFrom with
    | some name => return v.classOf? (← nameAt v hops seenFrom name)
    | none => return none

end

/-- The meaning of a dotted expression seen from a scope. -/
def name (v : View) (scope : ScopeId) (dotted : String) : Tracing Resolved :=
  v.nameAt hops scope dotted

def binding (v : View) (b : Binding) : Tracing Resolved :=
  v.bindingAt hops b

/-- The meaning of a qualified name. -/
def qualname (v : View) (qualname : String) : Tracing Resolved :=
  v.qualnameAt hops qualname

def member (v : View) (owner : Resolved) (name : String) : Tracing Resolved :=
  v.memberAt hops owner name

/-- The class that a hint names, seen from a scope. -/
def type? (v : View) (hint : String) (scope : ScopeId) : Tracing (Option DefId) :=
  v.typeAt hops hint scope

end View

end Xref
