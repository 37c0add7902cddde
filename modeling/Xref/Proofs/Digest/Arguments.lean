import Mathlib.Data.Fintype.EquivFin
import Mathlib.Data.List.Perm.Subperm
import Xref.Digest.OfOutline

/-!
# Arguments and arities

When the arguments of a call bind to the parameters of a function, and for which numbers of
arguments some choice of them does. The arity of a definition gives these numbers, unless the
instance is taken by the very parameter that collects the arguments by position: that parameter is
then counted as used up.
-/

namespace Xref

open List Param

/-- The arguments of a call: how many are given by position, and the names of the others, each given
once. -/
structure Arguments where
  positional : Nat
  named : List String
  nodup : named.Nodup
  deriving DecidableEq, Repr

namespace Param

/-- The parameters that take arguments by position, one each. -/
def positionals (params : List Param) : List Param :=
  params.filter fun p => p.kind = .positional

/-- The parameters that take arguments by name only, one each. -/
def keywordOnlys (params : List Param) : List Param :=
  params.filter fun p => p.kind = .keywordOnly

/-- The parameters that are open after a number of arguments by position. -/
def openAfter (params : List Param) (given : Nat) : List Param :=
  (positionals params).drop given ++ keywordOnlys params

def HasKind (params : List Param) (kind : ParamKind) : Prop :=
  ∃ p ∈ params, p.kind = kind

instance (params : List Param) (kind : ParamKind) : Decidable (HasKind params kind) :=
  inferInstanceAs (Decidable (∃ p ∈ params, p.kind = kind))

/-- The parameters for arguments by position stand before all others. -/
def PositionalsFirst (params : List Param) : Prop :=
  params.Pairwise fun p q => q.kind = .positional → p.kind = .positional

instance (params : List Param) : Decidable (PositionalsFirst params) :=
  inferInstanceAs (Decidable (params.Pairwise fun p q => q.kind = .positional →
    p.kind = .positional))

end Param

namespace Arguments

open Param

def count (a : Arguments) : Nat :=
  a.positional + a.named.length

/-- The arguments behind some that are given by position. -/
def behind (a : Arguments) (given : Nat) : Arguments :=
  { a with positional := given + a.positional }

/-- The arguments bind to the parameters. -/
structure Bind (a : Arguments) (params : List Param) : Prop where
  /-- Arguments by position fill the parameters in order; a collecting parameter takes those
  beyond. -/
  placed : a.positional ≤ (positionals params).length ∨ HasKind params .varPositional
  /-- A name is that of an open parameter; if it is that of none at all, a collecting parameter
  takes it. -/
  known : ∀ name ∈ a.named, (∃ p ∈ openAfter params a.positional, p.name = name) ∨
    HasKind params .varKeyword ∧ ∀ p ∈ params, p.kind.isVariadic = false → p.name ≠ name
  /-- An open parameter without a default is named. -/
  filled : ∀ p ∈ openAfter params a.positional, p.hasDefault ∨ p.name ∈ a.named

end Arguments

namespace Param

/-! ## Open parameters -/

def required (params : List Param) : List Param :=
  params.filter fun p => !p.hasDefault

theorem mem_of_mem_openAfter {params : List Param} {given : Nat} {p : Param}
    (h : p ∈ openAfter params given) : p ∈ params := by
  rcases mem_append.mp h with h | h
  · exact mem_of_mem_filter (mem_of_mem_drop h)
  · exact mem_of_mem_filter h

/-- Open parameters have different names, if all parameters do. -/
theorem nodup_names_openAfter {params : List Param} (hnames : (params.map name).Nodup)
    (given : Nat) : ((openAfter params given).map name).Nodup := by
  have hparams : params.Nodup := List.Nodup.of_map _ hnames
  have hopen : (openAfter params given).Nodup := by
    refine nodup_append.mpr ⟨?_, hparams.filter _, ?_⟩
    · exact (hparams.filter _).sublist (drop_sublist given _)
    · intro p hp q hq hpq
      subst hpq
      have hpositional := (mem_filter.mp (mem_of_mem_drop hp)).2
      have hkeyword := (mem_filter.mp hq).2
      simp_all
  refine List.Nodup.map_on (fun p hp q hq hpq => ?_) hopen
  exact inj_on_of_nodup_map hnames (mem_of_mem_openAfter hp) (mem_of_mem_openAfter hq) hpq

theorem openAfter_add (params : List Param) (given more : Nat) :
    openAfter params (given + more) =
      ((positionals params).drop given).drop more ++ keywordOnlys params := by
  rw [openAfter, drop_drop]

theorem length_required_le (params : List Param) (given more : Nat) :
    (required (openAfter params given)).length ≤
      more + (required (openAfter params (given + more))).length := by
  rw [openAfter_add]
  generalize hlist : (positionals params).drop given = l
  have hopen : openAfter params given = l ++ keywordOnlys params := by rw [openAfter, hlist]
  have htake : (required (l.take more)).length ≤ more :=
    (length_filter_le _ _).trans (length_take_le more l)
  have hsplit : required l = required (l.take more) ++ required (l.drop more) := by
    rw [required, required, required, ← filter_append, take_append_drop]
  have happend :
    ∀ l', required (l' ++ keywordOnlys params) = required l' ++ required (keywordOnlys params) :=
    fun l' => filter_append ..
  rw [hopen, happend, happend, hsplit]
  simp only [length_append]
  omega

end Param

/-! ## Numbers of arguments -/

namespace Arguments

open Param

variable {params : List Param} {given : Nat}

/-- Each open parameter without a default costs an argument. -/
theorem length_required_le_count {a : Arguments} (hnames : (params.map name).Nodup)
    (h : (a.behind given).Bind params) : (required (openAfter params given)).length ≤ a.count := by
  have hnamed : (required (openAfter params (given + a.positional))).length ≤ a.named.length := by
    have hsublist : (required (openAfter params (given + a.positional))).Sublist
        (openAfter params (given + a.positional)) := filter_sublist
    have hnodup := (nodup_names_openAfter hnames (given + a.positional)).sublist (hsublist.map name)
    have hsubset : (required (openAfter params (given + a.positional))).map name ⊆ a.named := by
      intro name hname
      obtain ⟨p, hp, rfl⟩ := mem_map.mp hname
      obtain ⟨hp, hdefault⟩ := mem_filter.mp hp
      rcases h.filled p hp with hp | hp
      · simp [hp] at hdefault
      · exact hp
    simpa using (hnodup.subperm hsubset).length_le
  have hrequired := length_required_le params given a.positional
  rw [count]
  omega

/-- Without a collecting parameter there are no more arguments than open parameters. -/
theorem count_le_length {a : Arguments} (h : (a.behind given).Bind params)
    (hvariadic : ∀ p ∈ params, p.kind.isVariadic = false) :
    a.count ≤ (openAfter params given).length := by
  have hkind : ∀ kind, kind.isVariadic → ¬ HasKind params kind := by
    rintro kind hkind ⟨p, hp, rfl⟩
    simp [hvariadic p hp] at hkind
  have hplaced : given + a.positional ≤ (positionals params).length :=
    h.placed.resolve_right (hkind _ rfl)
  have hsubset : a.named ⊆ (openAfter params (given + a.positional)).map name := by
    intro name hname
    rcases h.known name hname with ⟨p, hp, rfl⟩ | ⟨hcollects, _⟩
    · exact mem_map_of_mem hp
    · exact absurd hcollects (hkind _ rfl)
  have hlength := (a.nodup.subperm hsubset).length_le
  simp only [openAfter, length_map, length_append, length_drop] at hlength ⊢
  rw [count]
  omega

variable {n : Nat}

/-- As many arguments as there are open parameters, or fewer, can be given by name: those without a
default first. -/
theorem exists_bind_of_le (hnames : (params.map name).Nodup)
    (hgiven : given ≤ (positionals params).length ∨ HasKind params .varPositional)
    (hmin : (required (openAfter params given)).length ≤ n)
    (hmax : n ≤ (openAfter params given).length) :
    ∃ a : Arguments, a.count = n ∧ (a.behind given).Bind params := by
  let optional := (openAfter params given).filter fun p => !(!p.hasDefault)
  let sorted := required (openAfter params given) ++ optional
  have hperm : sorted.Perm (openAfter params given) := filter_append_perm _ _
  have hnodup : (sorted.map name).Nodup :=
    (hperm.map name).nodup_iff.mpr (nodup_names_openAfter hnames given)
  refine ⟨⟨0, (sorted.map name).take n, hnodup.sublist (take_sublist _ _)⟩, ?_, hgiven, ?_, ?_⟩
  · simp only [count, Nat.zero_add, length_take, length_map, hperm.length_eq]
    omega
  · intro name hname
    obtain ⟨p, hp, rfl⟩ := mem_map.mp (mem_of_mem_take hname)
    exact .inl ⟨p, hperm.subset hp, rfl⟩
  · intro p hp
    rcases Bool.eq_false_or_eq_true p.hasDefault with hdefault | hdefault
    · exact .inl hdefault
    · right
      have hrequired : p ∈ required (openAfter params given) :=
        mem_filter.mpr ⟨hp, by simp [hdefault]⟩
      have htake : (sorted.map name).take n =
          (required (openAfter params given)).map name ++
            (optional.map name).take (n - (required (openAfter params given)).length) := by
        rw [map_append, take_append, length_map, take_of_length_le (by simpa using hmin)]
      show p.name ∈ (sorted.map name).take n
      rw [htake]
      exact mem_append_left _ (mem_map_of_mem hrequired)

/-- Any greater number can be given where arguments by position are collected. -/
theorem exists_bind_by_position (hnames : (params.map name).Nodup)
    (hcollects : HasKind params .varPositional) (hn : (openAfter params given).length ≤ n) :
    ∃ a : Arguments, a.count = n ∧ (a.behind given).Bind params := by
  have hkeywords :
    keywordOnlys params = openAfter params (given + (n - (keywordOnlys params).length)) := by
    rw [openAfter, drop_of_length_le, nil_append]
    simp only [openAfter, length_append, length_drop] at hn
    omega
  have hnodup : ((keywordOnlys params).map name).Nodup := hkeywords ▸ nodup_names_openAfter hnames _
  refine ⟨⟨n - (keywordOnlys params).length, (keywordOnlys params).map name, hnodup⟩, ?_,
    .inr hcollects, ?_, ?_⟩
  · simp only [openAfter, length_append] at hn
    simp only [count, length_map]
    omega
  · intro name hname
    obtain ⟨p, hp, rfl⟩ := mem_map.mp hname
    exact .inl ⟨p, hkeywords ▸ hp, rfl⟩
  · intro p hp
    have hp : p ∈ keywordOnlys params := hkeywords ▸ hp
    exact .inr (mem_map_of_mem hp)

/-- There are always as many new names as one needs. -/
theorem exists_fresh_names (taken : List String) (n : Nat) :
    ∃ names : List String, names.Nodup ∧ names.length = n ∧ ∀ name ∈ names, name ∉ taken := by
  induction n with
  | zero => exact ⟨[], by simp⟩
  | succ n ih =>
    obtain ⟨names, hnodup, hlength, hfresh⟩ := ih
    obtain ⟨name, hname⟩ := Infinite.exists_notMem_finset (taken ++ names).toFinset
    simp only [mem_toFinset, mem_append, not_or] at hname
    exact ⟨name :: names, nodup_cons.mpr ⟨hname.2, hnodup⟩, by simp [hlength],
      forall_mem_cons.mpr ⟨hname.1, hfresh⟩⟩

/-- Any greater number can be given where arguments by name are collected. -/
theorem exists_bind_by_name (hnames : (params.map name).Nodup)
    (hgiven : given ≤ (positionals params).length ∨ HasKind params .varPositional)
    (hcollects : HasKind params .varKeyword) (hn : (openAfter params given).length ≤ n) :
    ∃ a : Arguments, a.count = n ∧ (a.behind given).Bind params := by
  obtain ⟨fresh, hnodup, hlength, hfresh⟩ :=
    exists_fresh_names (params.map name) (n - (openAfter params given).length)
  have hall : ((openAfter params given).map name ++ fresh).Nodup := by
    refine nodup_append.mpr ⟨nodup_names_openAfter hnames given, hnodup, ?_⟩
    rintro _ hname name hnew rfl
    obtain ⟨p, hp, rfl⟩ := mem_map.mp hname
    exact hfresh p.name hnew (mem_map_of_mem (mem_of_mem_openAfter hp))
  refine ⟨⟨0, _, hall⟩, ?_, hgiven, ?_, ?_⟩
  · simp only [count, length_append, length_map]
    omega
  · intro name hname
    rcases mem_append.mp hname with hname | hname
    · obtain ⟨p, hp, rfl⟩ := mem_map.mp hname
      exact .inl ⟨p, hp, rfl⟩
    · refine .inr ⟨hcollects, fun p hp _ heq => hfresh name hname ?_⟩
      exact heq ▸ mem_map_of_mem hp
  · exact fun p hp => .inr (mem_append_left _ (mem_map_of_mem hp))

/-- Behind some arguments that bind by position, a number of arguments can be given exactly if it
reaches the parameters that need one, and does not exceed the open ones unless some parameter
collects. -/
theorem exists_bind_iff (hnames : (params.map name).Nodup)
    (hgiven : given ≤ (positionals params).length ∨ HasKind params .varPositional) (n : Nat) :
    (∃ a : Arguments, a.count = n ∧ (a.behind given).Bind params) ↔
      (required (openAfter params given)).length ≤ n ∧
        (n ≤ (openAfter params given).length ∨ ∃ p ∈ params, p.kind.isVariadic) := by
  constructor
  · rintro ⟨a, rfl, hbind⟩
    refine ⟨length_required_le_count hnames hbind, ?_⟩
    by_cases hvariadic : ∃ p ∈ params, p.kind.isVariadic
    · exact .inr hvariadic
    · exact .inl (count_le_length hbind fun p hp => by
        simpa using fun hp' => hvariadic ⟨p, hp, hp'⟩)
  · rintro ⟨hmin, hmax⟩
    by_cases hle : n ≤ (openAfter params given).length
    · exact exists_bind_of_le hnames hgiven hmin hle
    · obtain ⟨p, hp, hvariadic⟩ := hmax.resolve_left hle
      have hge : (openAfter params given).length ≤ n := by omega
      cases hkind : p.kind with
      | positional | keywordOnly => simp [hkind, ParamKind.isVariadic] at hvariadic
      | varPositional => exact exists_bind_by_position hnames ⟨p, hp, hkind⟩ hge
      | varKeyword => exact exists_bind_by_name hnames hgiven ⟨p, hp, hkind⟩ hge

end Arguments

/-! ## Arities -/

namespace Param

/-- Before any argument is given, the parameters that take one each are open. -/
theorem openAfter_zero_perm (params : List Param) :
    (openAfter params 0).Perm (params.filter fun p => !p.kind.isVariadic) := by
  have hpositional : positionals params =
      (params.filter fun p => !p.kind.isVariadic).filter fun p => p.kind = .positional := by
    rw [positionals, filter_filter]
    congr 1
    funext p
    cases p.kind <;> rfl
  have hkeyword : keywordOnlys params =
      (params.filter fun p => !p.kind.isVariadic).filter fun p =>
        !decide (p.kind = .positional) := by
    rw [keywordOnlys, filter_filter]
    congr 1
    funext p
    cases p.kind <;> rfl
  rw [openAfter, drop_zero, hpositional, hkeyword]
  exact filter_append_perm _ _

theorem positionals_eq_nil {p : Param} {params : List Param}
    (horder : PositionalsFirst (p :: params)) (hp : p.kind ≠ .positional) :
    positionals (p :: params) = [] := by
  refine filter_eq_nil_iff.mpr fun q hq hkind => hp ?_
  have hkind : q.kind = .positional := by simpa using hkind
  rcases mem_cons.mp hq with rfl | hq
  · exact hkind
  · exact rel_of_pairwise_cons horder hq hkind

/-- The first parameter takes the first argument by position, be it alone or with all others. -/
theorem openAfter_cons_one {p : Param} {params : List Param}
    (horder : PositionalsFirst (p :: params))
    (hp : p.kind = .positional ∨ p.kind = .varPositional) :
    openAfter (p :: params) 1 = openAfter params 0 := by
  rcases hp with hp | hp
  · simp [openAfter, positionals, keywordOnlys, hp]
  · have hnone : positionals (p :: params) = [] := positionals_eq_nil horder (by simp [hp])
    have hrest : positionals params = [] := by
      rw [positionals, filter_cons_of_neg (by simp [hp])] at hnone
      exact hnone
    simp [openAfter, hnone, hrest, keywordOnlys, hp]

end Param

theorem Arity.accepts_ofParams_iff (params : List Param) (n : Nat) :
    (Arity.ofParams params).accepts (some n) ↔
      (required (openAfter params 0)).length ≤ n ∧
        (n ≤ (openAfter params 0).length ∨ ∃ p ∈ params, p.kind.isVariadic) := by
  have hperm := openAfter_zero_perm params
  have hrequired : (required (openAfter params 0)).length =
      ((params.filter fun p => !p.kind.isVariadic).filter fun p => !p.hasDefault).length :=
    (hperm.filter _).length_eq
  rw [hperm.length_eq, hrequired]
  by_cases hvariadic : ∃ p ∈ params, p.kind.isVariadic
  · have hany : (params.any fun p => p.kind.isVariadic) := any_eq_true.mpr hvariadic
    simp [Arity.ofParams, Arity.accepts, hany, hvariadic]
  · have hany : (params.any fun p => p.kind.isVariadic) = false := by
      rw [← Bool.not_eq_true, any_eq_true]
      exact hvariadic
    simp [Arity.ofParams, Arity.accepts, hany, hvariadic]

/-! ## Methods -/

namespace FunctionHead

open Param

/-- Whether a call passes the instance, or the class, in front of its arguments. -/
def passesInstance (head : FunctionHead) (ownerClass : Option DefId) : Bool :=
  ownerClass.isSome && !head.hasDecorator "staticmethod"

/-- How many arguments a call passes in front of those that are written. -/
def implicitCount (head : FunctionHead) (ownerClass : Option DefId) : Nat :=
  if head.passesInstance ownerClass then 1 else 0

/-- The instance can be passed by position: there is a first parameter, and it takes such
arguments. -/
def CanTakeInstance (head : FunctionHead) : Prop :=
  ∃ p, head.params.head? = some p ∧ (p.kind = .positional ∨ p.kind = .varPositional)

/-- The instance goes to a parameter that collects arguments by position. -/
def CollectsInstance (head : FunctionHead) (ownerClass : Option DefId) : Prop :=
  ∃ p owner, head.receiver? ownerClass = some (p, owner) ∧ p.kind = .varPositional

/-- The instance goes to a parameter that collects arguments by position, and no other one
collects. -/
def LosesCollector (head : FunctionHead) (ownerClass : Option DefId) : Prop :=
  head.CollectsInstance ownerClass ∧ ¬ ∃ p ∈ head.givenParams ownerClass, p.kind.isVariadic

variable {head : FunctionHead} {ownerClass : Option DefId}

theorem receiver?_of_passesInstance {p : Param} {params : List Param}
    (hparams : head.params = p :: params) (h : head.passesInstance ownerClass) :
    ∃ owner, head.receiver? ownerClass = some (p, owner) := by
  simp only [passesInstance, Bool.and_eq_true, Option.isSome_iff_exists, Bool.not_eq_true'] at h
  obtain ⟨⟨owner, rfl⟩, hstatic⟩ := h
  exact ⟨owner, by simp [receiver?, hparams, hstatic]⟩

theorem receiver?_of_not_passesInstance (h : head.passesInstance ownerClass = false) :
    head.receiver? ownerClass = none := by
  unfold receiver?
  split
  · next owner p params =>
    have hstatic : head.hasDecorator "staticmethod" := by simpa [passesInstance] using h
    rw [if_pos hstatic]
  · rfl

/-- What stays open when the instance has been passed is what a caller gives. A collecting parameter
is lost only if the instance went to it. -/
theorem openAfter_implicitCount (horder : PositionalsFirst head.params)
    (hinstance : head.passesInstance ownerClass → head.CanTakeInstance) :
    openAfter head.params (head.implicitCount ownerClass) =
      openAfter (head.givenParams ownerClass) 0 ∧
      (head.implicitCount ownerClass ≤ (positionals head.params).length ∨
        HasKind head.params .varPositional) ∧
      ((∃ p ∈ head.params, p.kind.isVariadic) ↔
        (∃ p ∈ head.givenParams ownerClass, p.kind.isVariadic) ∨
          head.CollectsInstance ownerClass) := by
  cases hpasses : head.passesInstance ownerClass with
  | false =>
    have hreceiver := receiver?_of_not_passesInstance hpasses
    simp [implicitCount, hpasses, givenParams, CollectsInstance, hreceiver]
  | true =>
    obtain ⟨p, hhead, hkind⟩ := hinstance hpasses
    obtain ⟨params, hparams⟩ := List.head?_eq_some_iff.mp hhead
    obtain ⟨owner, hreceiver⟩ := receiver?_of_passesInstance hparams hpasses
    have hgiven : head.givenParams ownerClass = params := by simp [givenParams, hreceiver, hparams]
    rw [hgiven, hparams, implicitCount, if_pos hpasses, CollectsInstance, hreceiver]
    refine ⟨openAfter_cons_one (hparams ▸ horder) hkind, ?_, ?_⟩
    · rcases hkind with hkind | hkind
      · exact .inl (by simp [positionals, hkind])
      · exact .inr ⟨p, mem_cons_self, hkind⟩
    · rcases hkind with hkind | hkind <;> simp [hkind, ParamKind.isVariadic]

/-- If the instance goes to a collecting parameter, only parameters by name are left. -/
theorem openAfter_of_collectsInstance (horder : PositionalsFirst head.params)
    (h : head.CollectsInstance ownerClass) (given : Nat) :
    openAfter head.params given = keywordOnlys head.params := by
  obtain ⟨p, owner, hreceiver, hkind⟩ := h
  have hparams : ∃ params, head.params = p :: params := by
    unfold receiver? at hreceiver
    split at hreceiver
    · next q params hhead =>
      split at hreceiver <;> cases hreceiver
      exact ⟨params, hhead⟩
    · cases hreceiver
  obtain ⟨params, hparams⟩ := hparams
  rw [openAfter, hparams, positionals_eq_nil (hparams ▸ horder) (by simp [hkind]), drop_nil,
    nil_append]

/-- For every number of arguments, the arity of a function or method with different parameter names
says whether some choice of them binds, behind the instance that a method takes first. The two
differ exactly for the numbers beyond the parameters by name, where the instance goes to the one
parameter that collects arguments. -/
theorem accepts_iff_binds_iff (file : FileContext) (place : Place) (mark : Mark)
    (head : FunctionHead) (n : Int) (hnames : (head.params.map Param.name).Nodup)
    (horder : PositionalsFirst head.params)
    (hinstance : head.passesInstance place.ownerClass = true → head.CanTakeInstance) :
    ((file.functionDefinition place mark head).arity.accepts (some n) = true ↔
        ∃ a : Arguments, (a.count : Int) = n ∧
          (a.behind (head.implicitCount place.ownerClass)).Bind head.params) ↔
      ¬ (head.LosesCollector place.ownerClass ∧ ((keywordOnlys head.params).length : Int) < n) := by
  obtain ⟨hopen, hgiven, hvariadic⟩ := openAfter_implicitCount horder hinstance
  have harity : (file.functionDefinition place mark head).arity =
      Arity.ofParams (head.givenParams place.ownerClass) := rfl
  rcases Int.lt_or_le n 0 with hn | hn
  · -- no number of arguments is negative, and none is accepted
    have hnone : ¬ ∃ a : Arguments, (a.count : Int) = n ∧
        (a.behind (head.implicitCount place.ownerClass)).Bind head.params := by
      rintro ⟨a, ha, -⟩
      omega
    have hrejects :
      (Arity.ofParams (head.givenParams place.ownerClass)).accepts (some n) = false := by
      simp only [Arity.accepts, Bool.and_eq_false_iff, decide_eq_false_iff_not]
      left
      omega
    have hsmall : ¬ ((keywordOnlys head.params).length : Int) < n := by omega
    simp [harity, hrejects, hnone, hsmall]
  · obtain ⟨m, rfl⟩ := Int.eq_ofNat_of_zero_le hn
    simp only [Int.ofNat_inj, Int.ofNat_lt]
    rw [harity, Arity.accepts_ofParams_iff, Arguments.exists_bind_iff hnames hgiven, hopen,
      hvariadic]
    have hle : (required (openAfter (head.givenParams place.ownerClass) 0)).length ≤
        (openAfter (head.givenParams place.ownerClass) 0).length := length_filter_le _ _
    by_cases hcollects : head.CollectsInstance place.ownerClass
    · have hlength : (openAfter (head.givenParams place.ownerClass) 0).length =
          (keywordOnlys head.params).length := by
        rw [← hopen, openAfter_of_collectsInstance horder hcollects]
      by_cases hother : ∃ p ∈ head.givenParams place.ownerClass, p.kind.isVariadic
      · simp [LosesCollector, hother]
      · simp only [LosesCollector, hcollects, hother, or_true, or_false, and_true,
          not_false_eq_true, true_and]
        omega
    · simp [LosesCollector, hcollects]

/-- `move(self, x, y=0, *, fast)` -/
def moveHead : FunctionHead :=
  ⟨"move", [⟨"self", none, false, .positional⟩, ⟨"x", none, false, .positional⟩,
    ⟨"y", none, true, .positional⟩, ⟨"fast", none, false, .keywordOnly⟩], [], false, false⟩

/-- `log(*parts)` -/
def logHead : FunctionHead :=
  ⟨"log", [⟨"parts", none, false, .varPositional⟩], [], false, false⟩

/-- The definition of a method of the class `C` in the file `m.py`. -/
def inClass (head : FunctionHead) : Definition :=
  FileContext.functionDefinition ⟨"m.py", "m", false, 0⟩
    ⟨"m.py#C", .classBody, "m.C", "m.py::m", some "m.py::m.C", walkRoom⟩ ⟨some "f", ⟨1, 0⟩⟩ head

/-- The method `move` takes three arguments, but not four. -/
theorem accepts_iff_binds_move :
    (moveHead.params.map Param.name).Nodup ∧ PositionalsFirst moveHead.params ∧
      moveHead.CanTakeInstance ∧
      (∃ a : Arguments, (a.count : Int) = 3 ∧ (a.behind 1).Bind moveHead.params) ∧
      ¬ ∃ a : Arguments, (a.count : Int) = 4 ∧ (a.behind 1).Bind moveHead.params := by
  have hnames : (moveHead.params.map Param.name).Nodup := by decide
  have horder : PositionalsFirst moveHead.params := by decide
  have hinstance : moveHead.CanTakeInstance := ⟨_, rfl, .inl rfl⟩
  have hkeeps : ¬ moveHead.LosesCollector (some "m.py::m.C") := by
    rintro ⟨⟨p, owner, hreceiver, hkind⟩, -⟩
    cases hreceiver
    cases hkind
  have hagree := fun n => (accepts_iff_binds_iff ⟨"m.py", "m", false, 0⟩
    ⟨"m.py#C", .classBody, "m.C", "m.py::m", some "m.py::m.C", walkRoom⟩ ⟨some "f",
      ⟨1, 0⟩⟩ moveHead n hnames horder
    fun _ => hinstance).mpr fun h => hkeeps h.1
  refine ⟨hnames, horder, hinstance, (hagree 3).mp (by decide), fun h => ?_⟩
  exact absurd ((hagree 4).mpr h) (by decide)

/-- The method `log` is not found to take one argument, though one by position binds behind the
instance. -/
theorem log_rejects_argument_that_binds :
    (logHead.params.map Param.name).Nodup ∧ PositionalsFirst logHead.params ∧
      logHead.CanTakeInstance ∧ (inClass logHead).arity.accepts (some 1) = false ∧
      ∃ a : Arguments, (a.count : Int) = 1 ∧
        (a.behind (logHead.implicitCount (some "m.py::m.C"))).Bind logHead.params := by
  refine ⟨by decide, by decide, ⟨_, rfl, .inr rfl⟩, by decide, ⟨1, [], nodup_nil⟩, rfl, ?_, ?_, ?_⟩
  · exact .inr ⟨_, mem_cons_self, rfl⟩
  · intro name hname
    cases hname
  · intro p hp
    simp [openAfter, positionals, keywordOnlys, logHead, Arguments.behind] at hp

end FunctionHead

end Xref
