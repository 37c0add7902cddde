import Xref.Proofs.Cst.Calls
import Xref.Proofs.Cst.WellFormed

/-!
# Lost and repeated calls

Every call that is owed for a tree is found or overlooked, and every call that is found is owed or
repeated. Overlooked are the calls in the nodes that are left unread; repeated are those in the body
of a `with` statement that is itself a list of context managers.
-/

namespace Xref.Cst

open Cover Item List

variable {path moduleName : String} {isPackage : Bool} {source : ByteArray} {tree : Cst}
  {o : Outline}

/-- The places of the calls that are overlooked in a node whose height is bounded. -/
def overlooked (source : ByteArray) : Nat → Cst → List Location
  | 0, _ => []
  | bound + 1, n =>
    ((cover source n).unread.flatMap fun u => owed source u.1 u.2) ++
      (cover source n).read.flatMap (overlooked source bound)

/-- The places of the calls that are found once too often in a node whose height is bounded. -/
def repeated (source : ByteArray) : Nat → Cst → List Location
  | 0, _ => []
  | bound + 1, n =>
    (readAgain n).flatMap (foundIn source bound) ++ (cover source n).read.flatMap
      (repeated source bound)

/-- The places of the calls that are overlooked in a file. -/
def overlookedUnder (source : ByteArray) (tree : Cst) : List Location :=
  tree.children.flatMap (overlooked source tree.height)

/-- The places of the calls that are found once too often in a file. -/
def repeatedUnder (source : ByteArray) (tree : Cst) : List Location :=
  tree.children.flatMap (repeated source tree.height)

/-- Four lists of places for each of some nodes, the first two with the same places as the
others. -/
theorem perm_flatMap_both {ns : List Cst} {f g f' g' : Cst → List Location}
    (h : ∀ n ∈ ns, (f n ++ g n).Perm (f' n ++ g' n)) :
    (ns.flatMap f ++ ns.flatMap g).Perm (ns.flatMap f' ++ ns.flatMap g') :=
  ((flatMap_append_perm ns f g).trans (List.Perm.flatMap_left ns h)).trans
    (flatMap_append_perm ns f' g').symm

/-- The calls of a node that are found or overlooked are those that are owed or repeated. -/
theorem perm_found_overlooked {bound : Nat} {n : Cst} (h : n.height ≤ bound) :
    (foundIn source bound n ++ overlooked source bound n).Perm
      (owed source .code n ++ repeated source bound n) := by
  induction bound generalizing n with
  | zero =>
    rw [height_eq] at h
    omega
  | succ bound ih =>
    have hcovers : CoversBelow source n (cover source n) := coversBelow_cover n
    have hread := perm_flatMap_both fun m hm => ih (n := m) (by
      have := hcovers.height m hm
      rw [height_eq] at h
      omega)
    have hself : isOwed source .code n = decide (n.kind = "call") := by simp [isOwed]
    refine perm_iff_count.mpr fun l => ?_
    have hbelow := perm_iff_count.mp hcovers.perm l
    have hread := perm_iff_count.mp hread l
    have howed := congrArg (List.count l) (owed_eq source .code n)
    simp only [Cover.owed, hself, count_append, decide_eq_true_eq] at hbelow hread howed
    simp only [foundIn, foundAt, overlooked, repeated, found, count_append]
    omega

/-- For every tree that can be read: the calls of its outline, with those that are overlooked, are
the calls that are owed, with those that are repeated. So where none is repeated, the outline has
exactly the calls that are owed, each once and at its place, if and only if none is overlooked. -/
theorem calls_of_outline_iff (h : outline path moduleName isPackage source tree = .ok o) :
    (callPlaces [o.root] ++ overlookedUnder source tree).Perm
        (owedUnder source tree ++ repeatedUnder source tree) ∧
      (repeatedUnder source tree = [] →
        ((callPlaces [o.root]).Perm (owedUnder source tree) ↔
          overlookedUnder source tree = [])) := by
  obtain ⟨body, stop, hbody, _, rfl⟩ := exists_of_outline h
  have hfound : callPlaces body = tree.children.flatMap (foundIn source tree.height) :=
    finds_visitAll (findsAll_visit source tree.height) tree.children _ _ _ hbody
  have hall : (callPlaces body ++ overlookedUnder source tree).Perm
      (owedUnder source tree ++ repeatedUnder source tree) := by
    rw [hfound]
    refine perm_flatMap_both fun n hn => perm_found_overlooked ?_
    have := height_le_heightAll hn
    rw [height_eq tree]
    omega
  rw [callPlaces_around body rfl rfl]
  refine ⟨hall, fun hrepeated => ⟨fun hperm => ?_, fun hnone => ?_⟩⟩
  · rw [hrepeated, append_nil] at hall
    have hlength := hall.length_eq
    rw [length_append, hperm.length_eq] at hlength
    exact eq_nil_of_length_eq_zero (by omega)
  · rwa [hrepeated, hnone, append_nil, append_nil] at hall

/-! ## Short files -/

def shortName (field : Option String) (start stop : Int) : Cst :=
  shortNode "identifier" field start stop []

def shortCall (field : Option String) (start stop : Int) (function : Cst)
    (arguments : List Cst) : Cst :=
  shortNode "call" field start stop [function,
    shortNode "argument_list" (some "arguments") stop stop arguments]

/-- A call of a name of one letter without arguments. -/
def letterCall (field : Option String) (start : Int) : Cst :=
  shortCall field start (start + 3) (shortName (some "function") start (start + 1)) []

/-- The text of a class whose header and body hold calls of many forms. -/
def manyCallsSource : ByteArray :=
  ("class A(B[t()], key=u(), v()): " ++
    "m(lambda x=e(): [f(y) for y in g(y=h())]).n(super().k(p()))\n").toUTF8

def manyCallsTree : Cst :=
  shortNode "module" none 0 91 [
    shortNode "class_definition" none 0 90 [
      shortName (some "name") 6 7,
      shortNode "argument_list" (some "superclasses") 7 29 [
        shortNode "subscript" none 8 14 [shortName (some "value") 8 9,
          letterCall (some "subscript") 10],
        shortNode "keyword_argument" none 16 23 [shortName (some "name") 16 19,
          letterCall (some "value") 20],
        letterCall none 25],
      shortNode "block" (some "body") 31 90 [
        shortNode "expression_statement" none 31 90 [
          shortCall none 31 90
            (shortNode "attribute" (some "function") 31 74 [
              shortCall (some "object") 31 72 (shortName (some "function") 31 32) [
                shortNode "lambda" none 33 71 [
                  shortNode "lambda_parameters" (some "parameters") 40 45 [
                    shortNode "default_parameter" none 40 45
                      [shortName (some "name") 40 41, letterCall (some "value") 42]],
                  shortNode "list_comprehension" (some "body") 47 71 [
                    shortCall (some "body") 48 52 (shortName (some "function") 48 49)
                      [shortName none 50 51],
                    shortNode "for_in_clause" none 53 70 [
                      shortName (some "left") 57 58,
                      shortCall (some "right") 62 70 (shortName (some "function") 62 63) [
                        shortNode "keyword_argument" none 64 69
                          [shortName (some "name") 64 65, letterCall (some "value") 66]]]]]],
              shortName (some "attribute") 73 74])
            [shortCall none 75 89
              (shortNode "attribute" (some "function") 75 84 [
                shortCall (some "object") 75 82 (shortName (some "function") 75 80) [],
                shortName (some "attribute") 83 84])
              [letterCall none 85]]]]]]

/-- Nine of the twelve calls of the class are owed, all but two in its header and the parent call,
and they are the calls of the outline. -/
theorem calls_of_outline_of_manyCalls :
    ∃ o, outline "m.py" "m" false manyCallsSource manyCallsTree = .ok o ∧
      overlookedUnder manyCallsSource manyCallsTree = [] ∧
        repeatedUnder manyCallsSource manyCallsTree = [] ∧
      (owedUnder manyCallsSource manyCallsTree).length = 9 ∧
      (callPlaces [o.root]).Perm (owedUnder manyCallsSource manyCallsTree) := by
  have hread : (outline "m.py" "m" false manyCallsSource manyCallsTree).toOption.any (fun _ =>
    true) := by
    decide +kernel
  obtain ⟨o, ho, _⟩ := exists_of_any hread
  have hoverlooked : overlookedUnder manyCallsSource manyCallsTree = [] := by decide +kernel
  have hrepeated : repeatedUnder manyCallsSource manyCallsTree = [] := by decide +kernel
  refine ⟨o, ho, hoverlooked, hrepeated, by decide +kernel, ?_⟩
  exact ((calls_of_outline_iff ho).2 hrepeated).mpr hoverlooked

/-- The text of an assignment to a member of what a call gives. -/
def calledTargetSource : ByteArray :=
  "f().x = 1\n".toUTF8

def calledTargetTree : Cst :=
  shortNode "module" none 0 10 [
    shortNode "expression_statement" none 0 9 [
      shortNode "assignment" none 0 9 [
        shortNode "attribute" (some "left") 0 5 [
          letterCall (some "object") 0,
          shortName (some "attribute") 4 5],
        shortNode "integer" (some "right") 8 9 []]]]

/-- A call in the target of an assignment is owed, but the outline has no call at all. -/
theorem call_in_target_is_lost :
    ∃ o, outline "m.py" "m" false calledTargetSource calledTargetTree = .ok o ∧
      callPlaces [o.root] = [] ∧ owedUnder calledTargetSource calledTargetTree = [⟨1, 1⟩] := by
  have hread : (outline "m.py" "m" false calledTargetSource calledTargetTree).toOption.any
      (fun o => (callPlaces [o.root]).isEmpty) := by
    decide +kernel
  obtain ⟨o, ho, hempty⟩ := exists_of_any hread
  exact ⟨o, ho, List.isEmpty_iff.mp hempty, by decide +kernel⟩

end Xref.Cst
