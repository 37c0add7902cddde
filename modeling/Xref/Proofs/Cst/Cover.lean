import Mathlib.Data.List.Perm.Basic
import Xref.Cst.Outline
import Xref.Proofs.Cst.Owed

/-!
# What is read of a node

For every kind of node, `cover` lists the nodes below it that are read next and those that are left
unread although calls in them are owed. `covers_cover` says that nothing else is owed: the calls
that are owed below a node are those of the nodes that are read and those of the nodes that are not.
-/

namespace Xref.Cst

open List
open Region (child?)

/-- The nodes below a node that are read next, and those with their regions that are left unread. -/
structure Cover where
  read : List Cst
  unread : List (Region × Cst)

namespace Cover

/-- Nothing is read or owed. -/
def nothing : Cover :=
  ⟨[], []⟩

instance : Append Cover := ⟨fun c d => ⟨c.read ++ d.read, c.unread ++ d.unread⟩⟩

@[simp] theorem read_append (c d : Cover) : (c ++ d).read = c.read ++ d.read := rfl

@[simp] theorem unread_append (c d : Cover) : (c ++ d).unread = c.unread ++ d.unread := rfl

/-- The covers of several nodes together. -/
def all (f : Cst → Cover) (ns : List Cst) : Cover :=
  ⟨ns.flatMap fun n => (f n).read, ns.flatMap fun n => (f n).unread⟩

def visited (n : Cst) : Cover :=
  ⟨[n], []⟩

/-- A node that is left unread. -/
def passed (region : Region) (n : Cst) : Cover :=
  ⟨[], [(region, n)]⟩

/-- A node that is not read as such, whatever becomes of its children. -/
def alone (n : Cst) : Cover :=
  passed .code (node n.info [])

/-- A child that is left unread. -/
def skipped (region : Region) (parent c : Cst) : Cover :=
  ⟨[], ((region.child? parent c).map fun inner => (inner, c)).toList⟩

/-- The places of the calls that are owed for the nodes of a cover. -/
def owed (source : ByteArray) (c : Cover) : List Location :=
  c.read.flatMap (Cst.owed source .code) ++ c.unread.flatMap fun u => Cst.owed source u.1 u.2

end Cover

/-- Some nodes without the first ones that fill some fields. -/
def without : List String → List Cst → List Cst
  | [], cs => cs
  | field :: fields, cs => without fields (cs.eraseP fun c => c.info.field = some field)

open Cover

section

variable (source : ByteArray) (n : Cst)

/-- A node of which the first children in some fields are covered and the other children are left
unread. -/
def fieldsCover (region : Region) (fields : List (String × (Cst → Cover))) (n : Cst) : Cover :=
  fields.foldr (fun f rest => all f.2 (n.field? f.1).toList ++ rest)
    (all (skipped region n) (without (fields.map Prod.fst) n.children))

/-- A node of which the named children that `p` holds of are covered and the others are left
unread. -/
def childrenCover (region : Region) (p : Cst → Bool) (f : Cst → Cover) (n : Cst) : Cover :=
  all (fun c => if c.info.isNamed && p c then f c else skipped region n c) n.children

/-! ## Classes and functions -/

/-- Whether a node spells out a dotted name that is not empty. -/
def isProperName : Bool :=
  (properName? source n).toOption.join.isSome

/-- The statements of a body. -/
def blockCover : Cover :=
  alone n ++ childrenCover .frame (fun _ => true) visited n

/-- The default values of parameters. -/
def parametersCover : Cover :=
  alone n ++ childrenCover .parameters (fun c => hasDefaultKind c.kind)
    (fieldsCover .parameter [("value", visited)]) n

/-- A base without its type arguments. -/
def baseValueCover : Cover :=
  if isProperName source n then passed .code n
  else if n.kind = "keyword_argument" then nothing
  else visited n

def baseCover : Cover :=
  if n.kind = "subscript" && (n.field? "value").isSome then
    fieldsCover .subscript [("value", baseValueCover source)] n
  else baseValueCover source n

def basesCover : Cover :=
  alone n ++ childrenCover .bases (fun _ => true) (baseCover source) n

/-- A class: nothing of one without a name is read. -/
def classCover : Cover :=
  if (n.field? "name").isSome then
    fieldsCover .code [("superclasses", basesCover source), ("body", blockCover)] n
  else fieldsCover .code [] n

/-- A function: nothing of one without a name is read. -/
def functionCover : Cover :=
  if (n.field? "name").isSome then
    fieldsCover .code [("parameters", parametersCover), ("body", blockCover)] n
  else fieldsCover .code [] n

def lambdaCover : Cover :=
  fieldsCover .code [("parameters", parametersCover), ("body", visited)] n

/-! ## Assignments, context managers and comprehensions -/

mutual

/-- A chain of assignments: only its value is read. -/
def chainCover : Cst → Cover
  | node info children =>
    if info.kind = "assignment" then
      chainCoverOfRight children ++
        all (skipped .code (node info children)) (without ["right"] children)
    else if info.kind = "lambda" then lambdaCover (node info children)
    else visited (node info children)

/-- The chain that starts at the first of some nodes that fills the field `right`. -/
def chainCoverOfRight : List Cst → Cover
  | [] => nothing
  | c :: cs => if c.info.field = some "right" then chainCover c else chainCoverOfRight cs

end

/-- A context manager, with or without targets: targets are not read. -/
def managerValueCover : Cover :=
  if n.kind = "as_pattern" then
    all visited n.namedChildren.head?.toList ++ all (skipped .code n) n.namedChildren.tail ++
      all (skipped .code n) (n.children.filter fun c => !c.info.isNamed)
  else visited n

/-- An item of a list of context managers. -/
def managerCover : Cover :=
  if (n.field? "value").isSome then alone n ++ fieldsCover .frame [("value", managerValueCover)] n
  else managerValueCover n

/-- The body of a `with` statement, unless it is a list of context managers, and what else is no
such list. -/
def withBodyCover : Cover :=
  let rest := n.children.filter fun c => !isClause c
  if (n.field? "body").any isClause then all (skipped .code n) rest
  else all blockCover (n.field? "body").toList ++ all (skipped .code n) (without ["body"] rest)

/-- A `with` statement. -/
def withCover : Cover :=
  all (childrenCover .managers (fun _ => true) managerCover) (n.children.filter isClause) ++
    withBodyCover n

/-- A comprehension: of its `for` clauses the iterated values are read. -/
def comprehensionCover : Cover :=
  let isFor (c : Cst) : Bool := c.kind = "for_in_clause"
  all (fieldsCover .code [("right", visited)]) (n.namedChildren.filter isFor) ++
    all visited (n.namedChildren.filter fun c => !isFor c) ++
    all (skipped .code n) (n.children.filter fun c => !c.info.isNamed)

/-! ## Calls -/

/-- The value of an argument: a plain name is not read. -/
def argumentValueCover : Cover :=
  if isNameKind n.kind && isProperName source n then passed .code n else visited n

def argumentCover : Cover :=
  if n.kind = "keyword_argument" then fieldsCover .code [("value", argumentValueCover source)] n
  else argumentValueCover source n

def argumentsCover : Cover :=
  if n.kind = "generator_expression" then visited n
  else alone n ++ childrenCover .frame (fun c => c.kind ≠ "comment") (argumentCover source) n

/-- What stands before the member that is called: neither a name nor a bare parent call is read. -/
def receiverCover : Cover :=
  if (dottedName? source n).toOption.join.isSome || (isBareSuper source n).toOption.getD false then
    passed .receiver n
  else visited n

def calleeCover : Cover :=
  if n.kind = "identifier" then passed .callee n
  else if n.kind = "attribute" then fieldsCover .callee [("object", receiverCover source)] n
  else visited n

/-! ## The whole tree -/

/-- What is read of a node, by its kind. -/
def cover : Cover :=
  if n.kind = "decorated_definition" then fieldsCover .code [("definition", visited)] n
  else if n.kind = "class_definition" then classCover source n
  else if n.kind = "function_definition" then functionCover n
  else if isImportKind n.kind then fieldsCover .code [] n
  else if n.kind = "assignment" then chainCover n
  else if n.kind = "augmented_assignment" then fieldsCover .code [("right", visited)] n
  else if n.kind = "for_statement" then
    fieldsCover .code [("right", visited), ("body", visited), ("alternative", visited)] n
  else if n.kind = "with_statement" then withCover n
  else if n.kind = "lambda" then lambdaCover n
  else if n.kind = "call" then
    fieldsCover .code [("function", calleeCover source), ("arguments", argumentsCover source)] n
  else if n.kind = "await" then childrenCover .code (fun _ => true) visited n
  else if isComprehensionKind n.kind then comprehensionCover n
  else childrenCover .code (fun _ => true) visited n

/-! ## Covered places -/

end

variable {source : ByteArray} {region : Region} {n : Cst}

/-- The places of some calls are those that are owed for a cover, and what it reads is not too
high. -/
structure Covers (source : ByteArray) (places : List Location) (bound : Nat)
    (c : Cover) : Prop where
  perm : places.Perm (c.owed source)
  height : ∀ m ∈ c.read, m.height ≤ bound

namespace Covers

variable {places places' : List Location} {bound bound' : Nat} {c d : Cover}

theorem nothing : Covers source [] bound .nothing where
  perm := .nil
  height := by simp [Cover.nothing]

theorem of_perm (hperm : places.Perm places') (h : Covers source places' bound c) :
    Covers source places bound c where
  perm := hperm.trans h.perm
  height := h.height

theorem mono (h : Covers source places bound c) (hbound : bound ≤ bound') :
    Covers source places bound' c where
  perm := h.perm
  height m hm := Nat.le_trans (h.height m hm) hbound

theorem append (h : Covers source places bound c) (h' : Covers source places' bound d) :
    Covers source (places ++ places') bound (c ++ d) where
  perm := by
    refine (h.perm.append h'.perm).trans (perm_iff_count.mpr fun l => ?_)
    simp only [Cover.owed, read_append, unread_append, flatMap_append, count_append]
    omega
  height m hm := (mem_append.mp hm).elim (h.height m) (h'.height m)

theorem all {ns : List Cst} {f : Cst → List Location} {g : Cst → Cover}
    (h : ∀ n ∈ ns, Covers source (f n) bound (g n)) :
    Covers source (ns.flatMap f) bound (.all g ns) := by
  induction ns with
  | nil => exact nothing
  | cons n ns ih =>
    obtain ⟨hn, hns⟩ := forall_mem_cons.mp h
    exact hn.append (ih hns)

theorem visited (n : Cst) : Covers source (Cst.owed source .code n) n.height (.visited n) where
  perm := by simp [Cover.owed, Cover.visited]
  height := by simp [Cover.visited]

theorem passed (region : Region) (n : Cst) (bound : Nat) :
    Covers source (Cst.owed source region n) bound (.passed region n) where
  perm := by simp [Cover.owed, Cover.passed]
  height := by simp [Cover.passed]

theorem skipped (region : Region) (parent c : Cst) (bound : Nat) :
    Covers source (owedChild source region parent c) bound (.skipped region parent c) where
  perm := by
    rw [owedChild, Cover.owed, Cover.skipped]
    cases region.child? parent c <;> simp
  height := by simp [Cover.skipped]

/-- A node by itself is owed as a call if it is one. -/
theorem alone (n : Cst) (bound : Nat) :
    Covers source (if n.kind = "call" then [n.location] else []) bound (.alone n) := by
  refine of_perm (.of_eq ?_) (passed .code (node n.info []) bound)
  have hkind : (node n.info []).kind = n.kind := rfl
  have hlocation : (node n.info []).location = n.location := rfl
  simp [owed_eq, isOwed, owedBelow, children, hkind, hlocation]

end Covers

/-! ## Fields -/

variable {cs : List Cst} {field : String}

theorem height_le_heightAll {c : Cst} (h : c ∈ cs) : c.height ≤ heightAll cs := by
  induction cs with
  | nil => simp at h
  | cons d ds ih =>
    rw [heightAll]
    obtain rfl | h := mem_cons.mp h
    · exact Nat.le_max_left _ _
    · exact Nat.le_trans (ih h) (Nat.le_max_right _ _)

theorem perm_fieldIn? (field : String) (cs : List Cst) :
    cs.Perm ((fieldIn? field cs).toList ++ cs.eraseP fun c => c.info.field = some field) := by
  induction cs with
  | nil => exact .nil
  | cons c cs ih =>
    by_cases h : c.info.field = some field
    · simp [fieldIn?, h]
    · simp only [fieldIn?] at ih
      simp only [fieldIn?, h, decide_false, Bool.false_eq_true, not_false_eq_true,
        List.find?_cons_of_neg, eraseP_cons_of_neg]
      exact (ih.cons c).trans perm_middle.symm

theorem fieldIn?_eraseP {field' : String} (hne : field' ≠ field) (cs : List Cst) :
    fieldIn? field' (cs.eraseP fun c => c.info.field = some field) = fieldIn? field' cs := by
  induction cs with
  | nil => rfl
  | cons c cs ih =>
    by_cases h : c.info.field = some field
    · simp [fieldIn?, h, Ne.symm hne]
    · simp only [fieldIn?] at ih ⊢
      rw [eraseP_cons_of_neg (by simpa using h), List.find?_cons, List.find?_cons, ih]

/-- The nodes are the first ones in some distinct fields and the others. -/
theorem perm_without {fields : List String} (hnodup : fields.Nodup) (cs : List Cst) :
    cs.Perm ((fields.flatMap fun field => (fieldIn? field cs).toList) ++ without fields cs) := by
  induction fields generalizing cs with
  | nil => exact .refl cs
  | cons field fields ih =>
    obtain ⟨hnew, hnodup⟩ := nodup_cons.mp hnodup
    have hrest := ih hnodup (cs.eraseP fun c => c.info.field = some field)
    have hsame : (fields.flatMap fun field' =>
        (fieldIn? field' (cs.eraseP fun c => c.info.field = some field)).toList) =
        fields.flatMap fun field' => (fieldIn? field' cs).toList :=
      flatMap_congr fun field' hfield' => by
        have hne : field' ≠ field := fun heq => hnew (heq ▸ hfield')
        rw [fieldIn?_eraseP hne]
    rw [hsame] at hrest
    rw [flatMap_cons, append_assoc, without]
    exact (perm_fieldIn? field cs).trans (hrest.append_left _)

theorem covers_fieldsCover {fields : List (String × (Cst → Cover))}
    (hnodup : (fields.map Prod.fst).Nodup)
    (h : ∀ f ∈ fields, ∀ c ∈ n.children,
      c.info.field = some f.1 → Covers source (owedChild source region n c) c.height (f.2 c)) :
    Covers source (owedBelow source region n) (heightAll n.children)
      (fieldsCover region fields n) := by
  have hfields : ∀ {fs : List (String × (Cst → Cover))} {places : List Location} {rest : Cover},
      fs ⊆ fields → Covers source places (heightAll n.children) rest →
      Covers source ((fs.flatMap fun f => (n.field? f.1).toList).flatMap
        (owedChild source region n) ++ places)
        (heightAll n.children) (fs.foldr (fun f rest => all f.2 (n.field? f.1).toList ++ rest)
          rest) := by
    intro fs places rest hfs hrest
    induction fs with
    | nil => exact hrest
    | cons f fs ih =>
      obtain ⟨hf, hfs⟩ := cons_subset.mp hfs
      rw [flatMap_cons, flatMap_append, append_assoc]
      refine (Covers.all fun c hc => ?_).append (ih hfs)
      obtain ⟨hmem, hfield⟩ := mem_of_fieldIn? (Option.mem_toList.mp hc)
      exact (h f hf c hmem hfield).mono (height_le_heightAll hmem)
  have hperm := (perm_without hnodup n.children).flatMap_right (owedChild source region n)
  rw [flatMap_append, flatMap_map] at hperm
  exact .of_perm hperm (hfields (List.Subset.refl _) (.all fun c _ => .skipped region n c _))

theorem covers_childrenCover {p : Cst → Bool} {f : Cst → Cover}
    (h : ∀ c ∈ n.children, c.info.isNamed → p c →
      Covers source (owedChild source region n c) c.height (f c)) :
    Covers source (owedBelow source region n) (heightAll n.children)
      (childrenCover region p f n) := by
  refine .all fun c hc => ?_
  split
  · next hp =>
    obtain ⟨hnamed, hp⟩ := Bool.and_eq_true_iff.mp hp
    exact (h c hc hnamed hp).mono (height_le_heightAll hc)
  · exact .skipped region n c _

/-! ## Nodes by kind -/

theorem height_eq (n : Cst) : n.height = heightAll n.children + 1 := by
  cases n with
  | node info children => rw [height, Cst.children]

/-- A node that is not owed as a call owes what is owed below it. -/
theorem Covers.of_below {c : Cover} (hself : isOwed source region n = false)
    (h : Covers source (owedBelow source region n) (heightAll n.children) c) :
    Covers source (owed source region n) n.height c := by
  rw [owed_of_not_owed hself]
  exact h.mono (by rw [height_eq]; omega)

theorem Covers.of_alone {c : Cover} (hregion : region ≠ .receiver)
    (h : Covers source (owedBelow source region n) (heightAll n.children) c) :
    Covers source (owed source region n) n.height (.alone n ++ c) := by
  have hself : isOwed source region n = decide (n.kind = "call") := by simp [isOwed, hregion]
  rw [owed_eq, hself]
  simp only [decide_eq_true_eq]
  exact (Covers.alone n _).append (h.mono (by rw [height_eq]; omega))

theorem covers_blockCover (n : Cst) :
    Covers source (owed source .frame n) n.height (blockCover n) :=
  .of_alone (by decide) (covers_childrenCover fun c _ _ _ => .visited c)

/-- A child is covered as a node of its region. -/
theorem Covers.of_region {inner : Region} {parent child : Cst} {bound : Nat} {c : Cover}
    (hregion : region.child? parent child = some inner)
    (h : Covers source (owed source inner child) bound c) :
    Covers source (owedChild source region parent child) bound c := by
  rw [owedChild, hregion]
  exact h

/-- A child without a region owes nothing. -/
theorem Covers.of_exempt {parent child : Cst} {bound : Nat}
    (hregion : region.child? parent child = none) :
    Covers source (owedChild source region parent child) bound .nothing := by
  rw [owedChild, hregion]
  exact .nothing

theorem covers_parametersCover (n : Cst) :
    Covers source (owed source .parameters n) n.height (parametersCover n) := by
  refine .of_alone (by decide) (covers_childrenCover fun c _ _ hdefault => ?_)
  have hkind : c.kind ≠ "call" := by
    intro hkind
    simp [hasDefaultKind, hkind] at hdefault
  refine .of_below (isOwed_of_kind hkind) (covers_fieldsCover (by simp) ?_)
  simp only [forall_mem_singleton]
  intro v _ hfield
  exact .of_region (by simp [child?, hfield]) (.visited v)

theorem isProperName_of_kind (h : n.kind ≠ "identifier") (h' : n.kind ≠ "attribute") :
    isProperName source n = false := by
  have hnone : dottedName? source n = .ok none := by
    cases n with
    | node info children =>
      have hi : ¬ info.kind = "identifier" := h
      have ha : ¬ info.kind = "attribute" := h'
      rw [dottedName?, if_neg hi, if_neg ha]
  simp [isProperName, properName?, hnone, bind, Except.bind, pure, Except.pure, Except.toOption]

theorem covers_baseValueCover (h : n.kind ≠ "keyword_argument") :
    Covers source (owed source .code n) n.height (baseValueCover source n) := by
  rw [baseValueCover, if_neg h]
  split
  · exact .passed .code n _
  · exact .visited n

/-- A keyword argument in the header of a class is not read. -/
theorem baseValueCover_keyword (h : n.kind = "keyword_argument") :
    baseValueCover source n = .nothing := by
  rw [baseValueCover, isProperName_of_kind (by simp [h]) (by simp [h]),
    if_neg Bool.false_ne_true, if_pos h]

theorem covers_baseCover (parent c : Cst) :
    Covers source (owedChild source .bases parent c) c.height (baseCover source c) := by
  rw [baseCover]
  split
  · next h =>
    obtain ⟨hkind, hvalue⟩ := Bool.and_eq_true_iff.mp h
    have hkind : c.kind = "subscript" := of_decide_eq_true hkind
    have hregion : child? .bases parent c = some .subscript := by simp [child?, hkind, hvalue]
    refine .of_region hregion (.of_below (isOwed_of_kind (by simp [hkind]))
      (covers_fieldsCover (by simp) ?_))
    simp only [forall_mem_singleton]
    intro v _ hfield
    by_cases hkeyword : v.kind = "keyword_argument"
    · rw [baseValueCover_keyword hkeyword]
      exact .of_exempt (by simp [child?, hkeyword])
    · exact .of_region (by simp [child?, hkeyword, hfield]) (covers_baseValueCover hkeyword)
  · next h =>
    by_cases hkeyword : c.kind = "keyword_argument"
    · rw [baseValueCover_keyword hkeyword]
      exact .of_exempt (by simp [child?, hkeyword])
    · refine .of_region ?_ (covers_baseValueCover hkeyword)
      rw [child?, if_neg hkeyword, if_neg h]

theorem covers_basesCover (n : Cst) :
    Covers source (owed source .bases n) n.height (basesCover source n) :=
  .of_alone (by decide) (covers_childrenCover fun c _ _ _ => covers_baseCover n c)

/-- The calls that are owed below a node that is read are those of its cover. -/
def CoversBelow (source : ByteArray) (n : Cst) (c : Cover) : Prop :=
  Covers source (owedBelow source .code n) (heightAll n.children) c

theorem coversBelow_nothingRead (n : Cst) : CoversBelow source n (fieldsCover .code [] n) :=
  covers_fieldsCover (by simp) (by simp)

/-- The children of most kinds of nodes are code. -/
theorem coversBelow_fields (fields : List String) (hnodup : fields.Nodup)
    (h : ∀ field ∈ fields, ∀ c, c.info.field = some field → codeRegion? n c = some .code) :
    CoversBelow source n (fieldsCover .code (fields.map fun field => (field, visited)) n) := by
  have hnames : (fields.map fun field => (field, visited)).map Prod.fst = fields := by
    rw [map_map]
    exact map_id fields
  refine covers_fieldsCover (by rw [hnames]; exact hnodup) ?_
  rintro f hf c _ hfield
  obtain ⟨field, hmem, rfl⟩ := mem_map.mp hf
  exact .of_region (h field hmem c hfield) (.visited c)

theorem coversBelow_classCover (hkind : n.kind = "class_definition") :
    CoversBelow source n (classCover source n) := by
  rw [classCover]
  split
  · refine covers_fieldsCover (by simp) ?_
    simp only [forall_mem_cons, not_mem_nil, false_implies, implies_true, and_true]
    refine ⟨fun c _ hfield => ?_, fun c _ hfield => ?_⟩
    · exact .of_region (by simp [child?, codeRegion?, hkind, hfield]) (covers_basesCover c)
    · exact .of_region (by simp [child?, codeRegion?, hkind, hfield]) (covers_blockCover c)
  · exact coversBelow_nothingRead n

theorem coversBelow_functionCover (hkind : n.kind = "function_definition") :
    CoversBelow source n (functionCover n) := by
  rw [functionCover]
  split
  · refine covers_fieldsCover (by simp) ?_
    simp only [forall_mem_cons, not_mem_nil, false_implies, implies_true, and_true]
    refine ⟨fun c _ hfield => ?_, fun c _ hfield => ?_⟩
    · exact .of_region (by simp [child?, codeRegion?, hkind, hfield]) (covers_parametersCover c)
    · exact .of_region (by simp [child?, codeRegion?, hkind, hfield]) (covers_blockCover c)
  · exact coversBelow_nothingRead n

theorem coversBelow_lambdaCover (hkind : n.kind = "lambda") :
    CoversBelow source n (lambdaCover n) := by
  refine covers_fieldsCover (by simp) ?_
  simp only [forall_mem_cons, not_mem_nil, false_implies, implies_true, and_true]
  refine ⟨fun c _ hfield => ?_, fun c _ hfield => ?_⟩
  · exact .of_region (by simp [child?, codeRegion?, hkind, hfield]) (covers_parametersCover c)
  · exact .of_region (by simp [child?, codeRegion?, hkind, hfield]) (.visited c)

/-! ## Chains -/

theorem chainCoverOfRight_eq (cs : List Cst) :
    chainCoverOfRight cs = all chainCover (fieldIn? "right" cs).toList := by
  induction cs with
  | nil => rfl
  | cons c cs ih =>
    rw [chainCoverOfRight]
    by_cases h : c.info.field = some "right"
    · rw [if_pos h]
      simp [fieldIn?, h, Cover.all]
    · rw [if_neg h, ih]
      simp [fieldIn?, h]

theorem chainCover_assignment (hkind : n.kind = "assignment") :
    chainCover n = fieldsCover .code [("right", chainCover)] n := by
  cases n with
  | node info children =>
    have hkind : info.kind = "assignment" := hkind
    rw [chainCover, if_pos hkind, chainCoverOfRight_eq]
    rfl

theorem covers_chainCover (n : Cst) :
    Covers source (owed source .code n) n.height (chainCover n) := by
  -- a chain goes down by one level at a time
  generalize hbound : n.height = bound
  induction bound using Nat.strongRecOn generalizing n with
  | ind bound ih =>
    subst hbound
    by_cases hkind : n.kind = "assignment"
    · rw [chainCover_assignment hkind]
      refine .of_below (isOwed_of_kind (by simp [hkind])) (covers_fieldsCover (by simp) ?_)
      simp only [forall_mem_singleton]
      intro c hc hfield
      have hlt : c.height < n.height := by
        rw [height_eq n]
        exact Nat.lt_succ_of_le (height_le_heightAll hc)
      exact .of_region (by simp [child?, codeRegion?, hkind, hfield]) (ih c.height hlt c rfl)
    · cases n with
      | node info children =>
        have hassign : ¬ info.kind = "assignment" := hkind
        rw [chainCover, if_neg hassign]
        split
        · next hlambda =>
          have hlambda : (node info children).kind = "lambda" := hlambda
          exact .of_below (isOwed_of_kind (by simp [hlambda])) (coversBelow_lambdaCover hlambda)
        · exact .visited _

theorem coversBelow_chainCover (hkind : n.kind = "assignment") :
    CoversBelow source n (chainCover n) := by
  rw [chainCover_assignment hkind]
  refine covers_fieldsCover (by simp) ?_
  simp only [forall_mem_singleton]
  intro c _ hfield
  exact .of_region (by simp [child?, codeRegion?, hkind, hfield]) (covers_chainCover c)

/-! ## Context managers and comprehensions -/

theorem perm_namedChildren (n : Cst) :
    n.children.Perm (n.namedChildren ++ n.children.filter fun c => !c.info.isNamed) :=
  (filter_append_perm _ _).symm

theorem covers_managerValueCover (n : Cst) :
    Covers source (owed source .code n) n.height (managerValueCover n) := by
  rw [managerValueCover]
  split
  · next hkind =>
    have hcode : ∀ c, child? .code n c = some .code := fun c => by simp [child?, codeRegion?, hkind]
    have hparts := (perm_namedChildren n).flatMap_right (owedChild source .code n)
    have hnamed : n.namedChildren = n.namedChildren.head?.toList ++ n.namedChildren.tail := by
      cases n.namedChildren <;> rfl
    rw [hnamed, flatMap_append, flatMap_append] at hparts
    refine .of_below (isOwed_of_kind (by simp [hkind])) (.of_perm hparts ?_)
    refine (Covers.append (.all fun c hc => ?_) (.all fun c _ => .skipped .code n c _)).append
      (.all fun c _ => .skipped .code n c _)
    have hmem : c ∈ n.children := by
      have hc : c ∈ n.namedChildren := mem_of_head? (Option.mem_toList.mp hc)
      exact (mem_filter.mp hc).1
    exact .of_region (hcode c) ((Covers.visited c).mono (height_le_heightAll hmem))
  · exact .visited n

theorem covers_managerCover (parent c : Cst) :
    Covers source (owedChild source .managers parent c) c.height (managerCover c) := by
  rw [managerCover]
  split
  · next hvalue =>
    have hregion : child? .managers parent c = some .frame := by simp [child?, hvalue]
    refine .of_region hregion (.of_alone (by decide) (covers_fieldsCover (by simp) ?_))
    simp only [forall_mem_singleton]
    exact fun v _ _ => .of_region rfl (covers_managerValueCover v)
  · next hvalue => exact .of_region (by simp [child?, hvalue]) (covers_managerValueCover c)

/-- The first body that is no list of context managers, if there is no such list before it. -/
theorem fieldIn?_filter_of_not_clause (h : (fieldIn? field cs).any isClause = false) :
    fieldIn? field (cs.filter fun c => !isClause c) = fieldIn? field cs := by
  induction cs with
  | nil => rfl
  | cons c cs ih =>
    by_cases hfield : c.info.field = some field
    · have hfirst : fieldIn? field (c :: cs) = some c := by simp [fieldIn?, hfield]
      rw [hfirst] at h ⊢
      have hclause : isClause c = false := h
      rw [filter_cons_of_pos (by simp [hclause])]
      simp [fieldIn?, hfield]
    · have hrest : ∀ ds, fieldIn? field (c :: ds) = fieldIn? field ds := fun ds => by
        simp [fieldIn?, hfield]
      rw [hrest] at h ⊢
      by_cases hclause : isClause c
      · rw [filter_cons_of_neg (by simp [hclause]), ih h]
      · rw [filter_cons_of_pos (by simpa using hclause), hrest, ih h]

theorem coversBelow_withCover (hkind : n.kind = "with_statement") :
    CoversBelow source n (withCover n) := by
  have hparts :=
    ((filter_append_perm isClause n.children).symm).flatMap_right (owedChild source .code n)
  rw [flatMap_append] at hparts
  refine .of_perm hparts (Covers.append (.all fun c hc => ?_) ?_)
  · obtain ⟨hmem, hclause⟩ := mem_filter.mp hc
    have hregion : child? .code n c = some .managers := by
      simp [child?, codeRegion?, hkind, hclause]
    have hnot : c.kind ≠ "call" := by
      simp only [isClause, Bool.and_eq_true, decide_eq_true_eq] at hclause
      simp [hclause.2]
    refine .of_region hregion (Covers.mono ?_ (height_le_heightAll hmem))
    exact .of_below (isOwed_of_kind hnot) (covers_childrenCover fun m _ _ _ =>
      covers_managerCover c m)
  · rw [withBodyCover]
    split
    · exact .all fun c _ => .skipped .code n c _
    · next hclause =>
      have hfirst := fieldIn?_filter_of_not_clause (Bool.eq_false_iff.mpr hclause)
      have hbody := (perm_fieldIn? "body" (n.children.filter fun c => !isClause c)).flatMap_right
        (owedChild source .code n)
      rw [hfirst, flatMap_append] at hbody
      refine .of_perm hbody (Covers.append (.all fun c hc => ?_) (.all fun c _ =>
        .skipped .code n c _))
      have hb : n.field? "body" = some c := Option.mem_toList.mp hc
      obtain ⟨hmem, hfield⟩ := mem_of_fieldIn? hb
      have hnot : isClause c = false := by
        rw [hb] at hclause
        simpa using hclause
      have hregion : child? .code n c = some .frame := by
        simp [child?, codeRegion?, hkind, hnot, hfield]
      exact .of_region hregion ((covers_blockCover c).mono (height_le_heightAll hmem))

theorem coversBelow_comprehensionCover (hcode : ∀ c, codeRegion? n c = some .code) :
    CoversBelow source n (comprehensionCover n) := by
  have hparts := (perm_namedChildren n).flatMap_right (owedChild source .code n)
  have hnamed := ((filter_append_perm (fun c : Cst => decide (c.kind = "for_in_clause"))
    n.namedChildren).symm).flatMap_right (owedChild source .code n)
  rw [flatMap_append] at hparts hnamed
  have hheight : ∀ c ∈ n.namedChildren, c.height ≤ heightAll n.children := fun c hc =>
    height_le_heightAll (mem_filter.mp hc).1
  refine .of_perm (hparts.trans (hnamed.append_right _)) ?_
  refine (Covers.append (.all fun c hc => ?_) (.all fun c hc => ?_)).append
    (.all fun c _ => .skipped .code n c _)
  · obtain ⟨hmem, hkind⟩ := mem_filter.mp hc
    have hkind : c.kind = "for_in_clause" := of_decide_eq_true hkind
    refine .of_region (hcode c) (Covers.mono (.of_below (isOwed_of_kind (by simp [hkind])) ?_)
      (hheight c hmem))
    exact coversBelow_fields ["right"] (by simp) fun _ _ d _ => by simp [codeRegion?, hkind]
  · exact .of_region (hcode c) ((Covers.visited c).mono (hheight c (mem_filter.mp hc).1))

/-! ## Calls -/

theorem covers_argumentValueCover (n : Cst) :
    Covers source (owed source .code n) n.height (argumentValueCover source n) := by
  rw [argumentValueCover]
  split
  · exact .passed .code n _
  · exact .visited n

theorem covers_argumentCover (n : Cst) :
    Covers source (owed source .code n) n.height (argumentCover source n) := by
  rw [argumentCover]
  split
  · next hkind =>
    refine .of_below (isOwed_of_kind (by simp [hkind])) (covers_fieldsCover (by simp) ?_)
    simp only [forall_mem_singleton]
    intro v _ _
    exact .of_region (by simp [child?, codeRegion?, hkind]) (covers_argumentValueCover v)
  · exact covers_argumentValueCover n

theorem covers_argumentsCover (hkind : n.kind ≠ "generator_expression") :
    Covers source (owed source .frame n) n.height (argumentsCover source n) := by
  rw [argumentsCover, if_neg hkind]
  exact .of_alone (by decide) (covers_childrenCover fun c _ _ _ =>
    .of_region rfl (covers_argumentCover c))

theorem covers_receiverCover (n : Cst) :
    Covers source (owed source .receiver n) n.height (receiverCover source n) := by
  rw [receiverCover]
  split
  · exact .passed .receiver n _
  · next h =>
    have hsame : owed source .receiver n = owed source .code n := by
      refine owed_eq_code ?_ fun _ _ => rfl
      simp only [Bool.or_eq_true, not_or, Bool.not_eq_true] at h
      simp [isOwed, h.2]
    rw [hsame]
    exact .visited n

theorem covers_calleeCover (n : Cst) :
    Covers source (owed source .callee n) n.height (calleeCover source n) := by
  rw [calleeCover]
  split
  · exact .passed .callee n _
  · split
    · next hkind =>
      refine .of_below (isOwed_of_kind (by simp [hkind])) (covers_fieldsCover (by simp) ?_)
      simp only [forall_mem_singleton]
      intro c _ hfield
      exact .of_region (by simp [child?, hkind, hfield]) (covers_receiverCover c)
    · next hkind =>
      have hsame : owed source .callee n = owed source .code n :=
        owed_eq_code (by simp [isOwed]) fun c _ => by simp [child?, hkind]
      rw [hsame]
      exact .visited n

theorem coversBelow_call (hkind : n.kind = "call") :
    CoversBelow source n
      (fieldsCover .code [("function", calleeCover source),
        ("arguments", argumentsCover source)] n) := by
  refine covers_fieldsCover (by simp) ?_
  simp only [forall_mem_cons, not_mem_nil, false_implies, implies_true, and_true]
  refine ⟨fun c _ hfield => ?_, fun c _ hfield => ?_⟩
  · exact .of_region (by simp [child?, codeRegion?, hkind, hfield]) (covers_calleeCover c)
  · by_cases hgenerator : c.kind = "generator_expression"
    · rw [argumentsCover, if_pos hgenerator]
      exact .of_region (by simp [child?, codeRegion?, hkind, hfield, hgenerator]) (.visited c)
    · exact .of_region (by simp [child?, codeRegion?, hkind, hfield, hgenerator])
        (covers_argumentsCover hgenerator)

/-! ## The whole tree -/

theorem coversBelow_children (hcode : ∀ c, codeRegion? n c = some .code) :
    CoversBelow source n (childrenCover .code (fun _ => true) visited n) :=
  covers_childrenCover fun c _ _ _ => .of_region (hcode c) (.visited c)

theorem coversBelow_ite {p : Prop} [Decidable p] {c d : Cover} (h : p → CoversBelow source n c)
    (h' : ¬ p → CoversBelow source n d) : CoversBelow source n (if p then c else d) := by
  by_cases hp : p
  · rw [if_pos hp]
    exact h hp
  · rw [if_neg hp]
    exact h' hp

/-- For every kind of node, what is owed below it is owed for the nodes that are read or for those
that are not, and what is read lies below the node. -/
theorem coversBelow_cover (n : Cst) : CoversBelow source n (cover source n) := by
  refine coversBelow_ite (fun hkind => ?_) fun hdecorated => ?_
  · exact coversBelow_fields ["definition"] (by simp) (by simp +contextual [codeRegion?, hkind])
  refine coversBelow_ite coversBelow_classCover fun hclass => ?_
  refine coversBelow_ite coversBelow_functionCover fun hfunction => ?_
  refine coversBelow_ite (fun _ => coversBelow_nothingRead n) fun _ => ?_
  refine coversBelow_ite coversBelow_chainCover fun hassignment => ?_
  refine coversBelow_ite (fun hkind => ?_) fun _ => ?_
  · exact coversBelow_fields ["right"] (by simp) (by simp [codeRegion?, hkind])
  refine coversBelow_ite (fun hkind => ?_) fun _ => ?_
  · exact coversBelow_fields ["right", "body",
      "alternative"] (by simp) (by simp [codeRegion?, hkind])
  refine coversBelow_ite coversBelow_withCover fun hwith => ?_
  refine coversBelow_ite coversBelow_lambdaCover fun hlambda => ?_
  refine coversBelow_ite coversBelow_call fun hcall => ?_
  have hcode : ∀ c, codeRegion? n c = some .code := fun c => by
    simp [codeRegion?, hdecorated, hclass, hfunction, hassignment, hwith, hlambda, hcall]
  refine coversBelow_ite (fun _ => coversBelow_children hcode) fun _ => ?_
  exact coversBelow_ite (fun _ => coversBelow_comprehensionCover hcode) fun _ =>
    coversBelow_children hcode

end Xref.Cst
