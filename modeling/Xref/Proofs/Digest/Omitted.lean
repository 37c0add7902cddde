import Xref.Proofs.Index.Assemble
import Xref.Proofs.Ledger.Frame

/-!
# Outlines with items left out

Some items deep in an outline are left out. What the check and the walk come to is the same but for
these items, so the outline stays well formed and can still be digested, as long as no other item
names a lambda among them.
-/

namespace Xref

open Item List Text

/-! ## Layers -/

/-- An item with the items around it, as far as they are not in its body. -/
structure Layer where
  before : List Item
  opening : Opening
  after : List Item

/-- Items inside some layers, the outermost first. -/
def Layer.fill (layers : List Layer) (inner : List Item) : List Item :=
  layers.foldr (fun y inner => y.before ++ y.opening.item inner :: y.after) inner

theorem Layer.fill_cons (y : Layer) (layers : List Layer) (inner : List Item) :
    fill (y :: layers) inner = y.before ++ ([y.opening.item (fill layers inner)] ++ y.after) :=
  rfl

namespace Item

/-- An item without its body. -/
def bare : Item → Item
  | fileBody m _ => fileBody m []
  | classDecl m h _ => classDecl m h []
  | functionDecl m h _ => functionDecl m h []
  | lambda m ps _ => lambda m ps []
  | block m _ => block m []
  | i => i

theorem bare_item (o : Opening) (body : List Item) : (o.item body).bare = o.item [] := by
  cases o <;> rfl

theorem lambdaId?_bare (i : Item) : i.bare.lambdaId? = i.lambdaId? := by
  cases i <;> rfl

theorem assigned?_bare (i : Item) : i.bare.assigned? = i.assigned? := by
  cases i <;> rfl

theorem lambdaIds_bare (is : List Item) : lambdaIds (is.map bare) = lambdaIds is := by
  rw [lambdaIds, filterMap_map]
  exact congrArg (filterMap · is) (funext lambdaId?_bare)

variable {is : List Item}

theorem covered_bare {known : String → Prop} : Covered known (is.map bare) ↔ Covered known is := by
  induction is generalizing known with
  | nil => rfl
  | cons i is ih => rw [map_cons, Covered, Covered, ih, assigned?_bare, lambdaId?_bare]

theorem preorderAll_append (is js : List Item) :
    preorderAll (is ++ js) = preorderAll is ++ preorderAll js := by
  induction is with
  | nil => rw [nil_append, preorderAll, nil_append]
  | cons i is ih => rw [cons_append, preorderAll, preorderAll, ih, append_assoc]

theorem preorderAll_cons_item (o : Opening) (body is : List Item) :
    preorderAll (o.item body :: is) = o.item body :: (preorderAll body ++ preorderAll is) := by
  cases o <;> rw [preorderAll, Opening.item, preorder] <;> rfl

theorem levelsAll_append (n : Nat) (is js : List Item) :
    levelsAll n (is ++ js) = levelsAll n is ++ levelsAll n js := by
  induction is with
  | nil => rw [nil_append, levelsAll, nil_append]
  | cons i is ih => rw [cons_append, levelsAll, levelsAll, ih, append_assoc]

theorem levelsAll_cons_item (n : Nat) (o : Opening) (body is : List Item) :
    levelsAll n (o.item body :: is) = n :: (levelsAll (n + 1) body ++ levelsAll n is) := by
  cases o <;> rw [levelsAll, Opening.item, levels] <;> rfl

def isFileBody : Item → Bool
  | fileBody .. => true
  | _ => false

theorem walkedAll_eq_preorderAll (h : ∀ i ∈ preorderAll is, i.isFileBody = false) :
    walkedAll is = preorderAll is := by
  induction is using induct with
  | nil => rw [walkedAll, preorderAll]
  | leaf i is hi ih =>
    rw [preorderAll] at h ⊢
    have hself : i.preorder = [i] := by
      cases i with
      | classDecl | functionDecl | lambda | block => cases hi
      | fileBody m b =>
        have hbody := h (fileBody m b) (mem_append_left _ (by rw [preorder]; exact mem_cons_self))
        cases hbody
      | _ => rw [preorder]
    rw [walkedAll_cons_leaf hi, hself, ih fun j hj => h j (mem_append_right _ hj), singleton_append]
  | opened o body is hbody ih =>
    rw [preorderAll_cons_item] at h ⊢
    rw [walkedAll_cons_item, hbody fun j hj => h j (mem_cons_of_mem _ (mem_append_left _ hj)),
      ih fun j hj => h j (mem_cons_of_mem _ (mem_append_right _ hj))]

/-- Without a file body among some items, each level of them takes a call of the walk. -/
theorem le_of_mem_levelsAll (hflat : ∀ i ∈ preorderAll is, i.isFileBody = false) {n level : Nat}
    (h : level ∈ levelsAll n is) : level ≤ n + callsAll is := by
  induction is using induct generalizing n with
  | nil => cases h
  | leaf i is hi ih =>
    rw [preorderAll, forall_mem_append] at hflat
    have hself : i.levels n = [n] := by
      cases i with
      | classDecl | functionDecl | lambda | block => cases hi
      | fileBody m b => cases hflat.1 _ mem_cons_self
      | _ => rw [levels] <;> simp
    rw [levelsAll, hself, singleton_append, mem_cons] at h
    rw [callsAll]
    rcases h with rfl | h
    · omega
    · have := ih hflat.2 h
      omega
  | opened o body is hbody ih =>
    rw [preorderAll_cons_item, forall_mem_cons, forall_mem_append] at hflat
    rw [levelsAll_cons_item, mem_cons, mem_append] at h
    have hcalls : 1 ≤ o.calls := by cases o <;> simp [Opening.calls]
    rw [callsAll_cons_item]
    rcases h with rfl | h | h
    · omega
    · have := hbody hflat.2.1 h
      omega
    · have := ih hflat.2.2 h
      omega

/-- With less inside, layers of items come to no other levels. -/
theorem levelsAll_fill_subset {inner inner' : List Item}
    (h : ∀ n, levelsAll n inner ⊆ levelsAll n inner') (layers : List Layer) (n : Nat) :
    levelsAll n (Layer.fill layers inner) ⊆ levelsAll n (Layer.fill layers inner') := by
  induction layers generalizing n with
  | nil => exact h n
  | cons y layers ih =>
    intro level
    simp only [Layer.fill_cons, levelsAll_append, singleton_append, levelsAll_cons_item, mem_append,
      mem_cons]
    exact Or.imp_right (Or.imp_right (Or.imp_left (ih (n + 1) ·)))

theorem callsAll_append (is js : List Item) :
    callsAll (is ++ js) = max (callsAll is) (callsAll js) := by
  induction is with
  | nil => simp [callsAll]
  | cons i is ih => rw [cons_append, callsAll, callsAll, ih, Nat.max_assoc]

theorem callsAll_fill_le {inner inner' : List Item} (h : callsAll inner ≤ callsAll inner')
    (layers : List Layer) :
    callsAll (Layer.fill layers inner) ≤ callsAll (Layer.fill layers inner') := by
  induction layers with
  | nil => exact h
  | cons y layers ih =>
    simp only [Layer.fill_cons, callsAll_append, singleton_append, callsAll_cons_item]
    omega

/-- An order on items that takes an item before its body has the same items around what fills some
layers. -/
theorem bare_fill {f : List Item → List Item} (happend : ∀ is js, f (is ++ js) = f is ++ f js)
    (hitem : ∀ (o : Opening) body is, f (o.item body :: is) = o.item body :: (f body ++ f is))
    (layers : List Layer) : ∃ front back, ∀ inner,
      (f (Layer.fill layers inner)).map bare = front ++ (f inner).map bare ++ back := by
  induction layers with
  | nil => exact ⟨[], [], fun inner => by simp [Layer.fill]⟩
  | cons y layers ih =>
    obtain ⟨front, back, ih⟩ := ih
    refine ⟨(f y.before).map bare ++ y.opening.item [] :: front, back ++ (f y.after).map bare,
      fun inner => ?_⟩
    rw [Layer.fill_cons, happend, singleton_append, hitem]
    simp [bare_item, ih]

end Item

variable (file : FileContext)

theorem FileContext.itemId?_bare (i : Item) : file.itemId? i.bare = file.itemId? i := by
  cases i <;> rfl

theorem FileContext.idsOf_fill (layers : List Layer) :
    ∃ front back, ∀ inner, file.idsOf (Layer.fill layers inner) = front ++ file.idsOf inner ++
      back := by
  obtain ⟨front, back, h⟩ := bare_fill walkedAll_append walkedAll_cons_item layers
  have hbare : ∀ is, file.idsOf is = ((walkedAll is).map bare).filterMap file.itemId? := by
    intro is
    rw [filterMap_map]
    exact congrArg (filterMap · _) (funext fun i => (file.itemId?_bare i).symm)
  refine ⟨front.filterMap file.itemId?, back.filterMap file.itemId?, fun inner => ?_⟩
  rw [hbare, h, hbare, filterMap_append, filterMap_append]

theorem FileContext.idsOf_fill_perm (layers : List Layer) {inner inner' : List Item}
    {omitted : List String} (h : (file.idsOf inner).Perm (file.idsOf inner' ++ omitted)) :
    (file.idsOf (Layer.fill layers inner)).Perm (file.idsOf (Layer.fill layers inner') ++
      omitted) := by
  obtain ⟨front, back, hfill⟩ := file.idsOf_fill layers
  rw [hfill, hfill, append_assoc, append_assoc, append_assoc]
  refine Perm.append_left front ((h.append_right back).trans ?_)
  rw [append_assoc]
  exact Perm.append_left _ perm_append_comm

/-! ## The check -/

theorem Scope.mark_eq_of_idOf {path m m' : String} (h : idOf path m = idOf path m') : m = m' := by
  simpa [idOf] using h

def Item.namedLambda? : Item → Option String
  | assign _ a => if a.kind = .lambda then some (a.value.getD "") else none
  | _ => none

theorem Item.namedLambda?_bare (i : Item) : i.bare.namedLambda? = i.namedLambda? := by
  cases i <;> rfl

theorem Item.namedLambda?_of_assigned? {i : Item} {id : String} (h : i.assigned? = some id) :
    i.namedLambda? = some id := by
  cases i with
  | assign m a =>
    obtain ⟨hkind, hvalue⟩ := Assignment.lambda?_eq_some h
    rw [namedLambda?, if_pos hkind, hvalue]
  | _ => cases h

namespace Outline

variable {s s' t : Seen} {i : Item} {is : List Item} {o : Outline}

theorem checkItem_bare (s : Seen) (i : Item) : checkItem s i.bare = checkItem s i := by
  cases i <;> rfl

theorem checkItems_bare (s : Seen) (is : List Item) :
    checkItems s (is.map bare) = checkItems s is := by
  induction is generalizing s with
  | nil => rfl
  | cons i is ih =>
    rw [map_cons, checkItems, checkItems, checkItem_bare]
    exact bind_congr fun t => ih t

theorem checkItems_append (s : Seen) (is js : List Item) :
    checkItems s (is ++ js) = checkItems s is >>= fun t => checkItems t js := by
  induction is generalizing s with
  | nil => rfl
  | cons i is ih =>
    rw [cons_append, checkItems, checkItems, bind_assoc]
    exact bind_congr fun t => ih t

/-- A check that remembers less, but all lambdas except some. -/
structure Seen.Lacks (left : List String) (s' s : Seen) : Prop where
  ids : ∀ id ∈ s'.ids, id ∈ s.ids
  lambdas : ∀ id ∈ s.lambdas, id ∈ s'.lambdas ∨ id ∈ left

/-- An item has no new defect where the lambda that it names is known. -/
theorem defect?_eq_none_of_named {known known' : List String} (h : defect? known i = none)
    (hnamed : ∀ id ∈ known, i.namedLambda? = some id → id ∈ known') : defect? known' i = none := by
  cases i with
  | assign m a =>
    simp only [defect?] at h ⊢
    split at h
    · cases h
    next hvalid =>
    split at h
    · cases h
    next hseen =>
    rw [if_neg hvalid, if_neg]
    intro hunseen
    simp only [Bool.and_eq_true, Bool.not_eq_true', decide_eq_true_eq] at hseen hunseen
    cases hvalue : a.value with
    | none => simp [hvalue, hunseen.1] at hseen
    | some v =>
      have hmem : v ∈ known := by simpa [hvalue, hunseen.1] using hseen
      have hmem' := hnamed v hmem (by simp [namedLambda?, hunseen.1, hvalue])
      simp [hvalue, hmem'] at hunseen
  | _ => exact h

/-- Without the items that were left out an item still passes the check, unless it names a lambda of
them. -/
theorem checkItem_of_lacks {left : List String} (h : s'.Lacks left s) (hi : checkItem s i = .ok t)
    (hout : ∀ id, i.namedLambda? = some id → id ∉ left) :
    ∃ t', checkItem s' i = .ok t' ∧ t'.Lacks left t := by
  obtain ⟨id, hid, hne, hnew, hdefect, rfl⟩ := checkItem_eq_ok_iff.mp hi
  have hdefect' : defect? s'.lambdas i = none := by
    refine defect?_eq_none_of_named hdefect fun k hk hnamed => ?_
    exact (h.lambdas k hk).resolve_right (hout k hnamed)
  refine ⟨_, checkItem_eq_ok_iff.mpr ⟨id, hid, hne, fun hmem => hnew (h.ids id hmem), hdefect',
    rfl⟩, ?_, ?_⟩
  · exact forall_mem_cons.mpr ⟨mem_cons_self, fun k hk => mem_cons_of_mem _ (h.ids k hk)⟩
  · intro k hk
    rcases mem_append.mp hk with hk | hk
    · exact .inl (mem_append_left _ hk)
    · exact (h.lambdas k hk).imp_left (mem_append_right _)

theorem checkItems_of_lacks {left : List String} (h : s'.Lacks left s)
    (his : checkItems s is = .ok t) (hout : ∀ i ∈ is, ∀ id, i.namedLambda? = some id → id ∉ left) :
    ∃ t', checkItems s' is = .ok t' := by
  induction is generalizing s s' with
  | nil => exact ⟨s', rfl⟩
  | cons i is ih =>
    rw [forall_mem_cons] at hout
    obtain ⟨s₁, hi, his⟩ := bind_eq_ok his
    obtain ⟨s₁', hi', h'⟩ := checkItem_of_lacks h hi hout.1
    obtain ⟨t', hrest⟩ := ih h' his hout.2
    refine ⟨t', ?_⟩
    rw [checkItems, hi']
    exact hrest

/-- After some items the check remembers no other lambdas than theirs besides those from before. -/
theorem lacks_of_checkItems (h : checkItems s is = .ok t) : s.Lacks (lambdaIds is) t := by
  induction is generalizing s with
  | nil =>
    cases h
    exact ⟨fun _ hid => hid, fun _ hid => .inl hid⟩
  | cons i is ih =>
    obtain ⟨s₁, hi, his⟩ := bind_eq_ok h
    obtain ⟨id, _, _, _, _, rfl⟩ := checkItem_eq_ok_iff.mp hi
    have hrest := ih his
    refine ⟨fun k hk => hrest.ids k (mem_cons_of_mem _ hk), fun k hk => ?_⟩
    rw [mem_lambdaIds_cons]
    rcases hrest.lambdas k hk with hk | hk
    · rcases mem_append.mp hk with hk | hk
      · exact .inr (.inl (Option.mem_toList.mp hk))
      · exact .inl hk
    · exact .inr (.inr hk)

/-- Items can be left out of a check, unless a later item names a lambda of them. -/
theorem checkItems_omit {front omitted back : List Item}
    (h : checkItems s (front ++ omitted ++ back) = .ok t)
    (hout : ∀ i ∈ back, ∀ id, i.namedLambda? = some id → id ∉ lambdaIds omitted) :
    ∃ t', checkItems s (front ++ back) = .ok t' := by
  rw [checkItems_append, checkItems_append] at h
  obtain ⟨s₂, hs₂, hback⟩ := bind_eq_ok h
  obtain ⟨s₁, hfront, homitted⟩ := bind_eq_ok hs₂
  obtain ⟨t', hback'⟩ := checkItems_of_lacks (lacks_of_checkItems homitted) hback hout
  refine ⟨t', ?_⟩
  rw [checkItems_append, hfront]
  exact hback'

theorem nodup_of_checkItems (file : FileContext) (h : checkItems s is = .ok t) :
    (is.filterMap file.itemId?).Nodup ∧
      ∀ id ∈ s.ids, Scope.idOf file.path id ∉ is.filterMap file.itemId? := by
  induction is generalizing s with
  | nil => simp
  | cons i is ih =>
    obtain ⟨s₁, hi, his⟩ := bind_eq_ok h
    obtain ⟨id, hid, _, hnew, _, rfl⟩ := checkItem_eq_ok_iff.mp hi
    obtain ⟨mark, hmark, hid⟩ := Option.bind_eq_some_iff.mp hid
    obtain ⟨hnodup, hout⟩ := ih his
    have hitem : file.itemId? i = some (Scope.idOf file.path id) := by
      simp [FileContext.itemId?, hmark, FileContext.markId, hid]
    rw [filterMap_cons_some hitem]
    rw [forall_mem_cons] at hout
    refine ⟨nodup_cons.mpr ⟨hout.1, hnodup⟩, fun k hk => ?_⟩
    rw [mem_cons, not_or]
    refine ⟨fun heq => hnew ?_, hout.2 k hk⟩
    rwa [← Scope.mark_eq_of_idOf heq]

/-- In a well-formed outline the file and all that the walk comes to have distinct ids. -/
theorem fresh_of_check (h : o.check = .ok ()) {mark : Mark} {body : List Item}
    (hroot : o.root = .fileBody mark body) (file : FileContext) :
    file.Fresh (file.markId mark) body := by
  obtain ⟨_, _, s, _, hs⟩ := checkItems_of_check h
  have hnodup := (nodup_of_checkItems file hs).1
  have hfile : file.itemId? (.fileBody mark body) = some (file.markId mark) := rfl
  rw [hroot, preorder, filterMap_cons_some hfile] at hnodup
  exact hnodup.sublist (((walkedAll_sublist body).filterMap _).cons_cons _)

/-- An outline with other items in the file. -/
def withItems (o : Outline) (mark : Mark) (items : List Item) : Outline :=
  { o with root := .fileBody mark items }

/-- A well-formed outline stays so without some items, unless another item names a lambda of
them. -/
theorem check_omit (hcheck : o.check = .ok ()) {mark : Mark} {layers : List Layer}
    {before omitted after : List Item}
    (hroot : o.root = .fileBody mark (Layer.fill layers (before ++ omitted ++ after)))
    (hout : ∀ i ∈ preorderAll (Layer.fill layers (before ++ after)), ∀ id,
      i.namedLambda? = some id → id ∉ lambdaIds (preorderAll omitted)) :
    (o.withItems mark (Layer.fill layers (before ++ after))).check = .ok () := by
  obtain ⟨hpath, hmodule, hshallow, _, _, s, _, hs⟩ := check_eq_ok_iff.mp hcheck
  obtain ⟨front, back, hfill⟩ := bare_fill preorderAll_append preorderAll_cons_item layers
  have hbare : ∀ inner, (preorder (.fileBody mark (Layer.fill layers inner))).map bare =
      .fileBody mark [] :: (front ++ (preorderAll inner).map bare ++ back) := by
    intro inner
    rw [preorder, map_cons, hfill]
    rfl
  rw [hroot, ← checkItems_bare, hbare] at hs
  have hparts :
    checkItems ⟨[], []⟩ ((.fileBody mark [] :: front ++ (preorderAll before).map bare) ++
      (preorderAll omitted).map bare ++ ((preorderAll after).map bare ++ back)) = .ok s := by
    rw [← hs]
    simp [preorderAll_append]
  obtain ⟨t, ht⟩ := checkItems_omit hparts fun i hi id hid => by
    rw [lambdaIds_bare]
    have hmem : i ∈ (preorderAll (Layer.fill layers (before ++ after))).map bare := by
      rw [hfill, preorderAll_append, map_append]
      simp only [mem_append] at hi ⊢
      exact hi.elim (fun h => .inl (.inr (.inr h))) .inr
    obtain ⟨j, hj, rfl⟩ := mem_map.mp hmem
    exact hout j hj id (by rwa [← namedLambda?_bare])
  refine check_eq_ok_iff.mpr ⟨hpath, hmodule, ?_, mark, _, t, rfl, ?_⟩
  · have hinner :
      ∀ n, levelsAll n (before ++ after) ⊆ levelsAll n (before ++ omitted ++ after) := by
      intro n level
      simp only [levelsAll_append, mem_append]
      exact Or.imp_left Or.inl
    rw [isShallow, hroot, all_eq_true] at hshallow
    refine all_eq_true.mpr (forall_mem_cons.mpr ⟨rfl, fun level hlevel => ?_⟩)
    exact hshallow level (mem_cons_of_mem _ (levelsAll_fill_subset hinner layers 1 hlevel))
  · rw [withItems, ← checkItems_bare, hbare, ← ht]
    simp [preorderAll_append]

end Outline

theorem Item.covered_mono {known known' : String → Prop} {is : List Item} (h : Covered known is)
    (himp : ∀ i ∈ is, ∀ id, i.assigned? = some id → known id → known' id) : Covered known' is := by
  rw [covered_iff] at h ⊢
  rintro before i after id rfl hid
  exact (h before i after id rfl hid).imp_right (himp i (by simp) id hid)

/-- Items can be left out of a walk, unless another item assigns a lambda of them. -/
theorem Item.covered_omit {layers : List Layer} {before omitted after : List Item}
    (h : Covered (fun _ => False) (walkedAll (Layer.fill layers (before ++ omitted ++ after))))
    (hout : ∀ i ∈ walkedAll (Layer.fill layers (before ++ after)), ∀ id, i.assigned? = some id →
      id ∉ lambdaIds (walkedAll omitted)) :
    Covered (fun _ => False) (walkedAll (Layer.fill layers (before ++ after))) := by
  obtain ⟨front, back, hfill⟩ := bare_fill walkedAll_append walkedAll_cons_item layers
  have hwith : (walkedAll (Layer.fill layers (before ++ omitted ++ after))).map bare =
      front ++ (walkedAll before).map bare ++ (walkedAll omitted).map bare ++
        ((walkedAll after).map bare ++ back) := by
    simp [hfill, walkedAll_append]
  have hwithout : (walkedAll (Layer.fill layers (before ++ after))).map bare =
      front ++ (walkedAll before).map bare ++ ((walkedAll after).map bare ++ back) := by
    simp [hfill, walkedAll_append]
  rw [← covered_bare, hwith, covered_append, covered_append] at h
  rw [← covered_bare, hwithout, covered_append]
  refine ⟨h.1.1, covered_mono h.2 fun i hi id hid => ?_⟩
  have hmem : i ∈ (walkedAll (Layer.fill layers (before ++ after))).map bare := by
    rw [hwithout]
    exact mem_append_right _ hi
  obtain ⟨j, hj, rfl⟩ := mem_map.mp hmem
  rw [assigned?_bare] at hid
  have hnot := hout j hj id hid
  rw [mem_lambdaIds_append, lambdaIds_bare (walkedAll omitted)]
  rintro ((hknown | hknown) | hknown)
  · exact .inl hknown
  · exact (hnot hknown).elim
  · exact hknown.elim

theorem Item.isNameable_bare (i : Item) : i.bare.isNameable = i.isNameable := by
  cases i <;> rfl

theorem Item.fits_omit {room : Nat} {layers : List Layer} {before omitted after : List Item}
    (h : Fits room (Layer.fill layers (before ++ omitted ++ after))) :
    Fits room (Layer.fill layers (before ++ after)) := by
  obtain ⟨front, back, hfill⟩ := bare_fill walkedAll_append walkedAll_cons_item layers
  have hbare : ∀ is : List Item, (∀ i ∈ is, i.isNameable) ↔
      ∀ i ∈ is.map bare, i.isNameable := by
    intro is
    simp [isNameable_bare]
  obtain ⟨hcalls, hnames⟩ := h
  refine ⟨Nat.le_trans (callsAll_fill_le ?_ layers) hcalls, ?_⟩
  · simp only [callsAll_append]
    omega
  · rw [hbare, hfill, walkedAll_append] at hnames ⊢
    simp only [walkedAll_append, map_append, forall_mem_append] at hnames ⊢
    exact ⟨⟨hnames.1.1, hnames.1.2.1.1, hnames.1.2.2⟩, hnames.2⟩

/-! ## Files without files inside -/

/-- Where the walk fits, the check has room too. -/
theorem Outline.isShallow_of_fits {o : Outline} {mark : Mark} {body : List Item}
    (hroot : o.root = .fileBody mark body) (hflat : ∀ i ∈ preorderAll body, i.isFileBody = false)
    (hfits : Fits walkRoom body) : o.isShallow := by
  rw [isShallow, hroot]
  refine all_eq_true.mpr (forall_mem_cons.mpr ⟨rfl, fun level hlevel => decide_eq_true ?_⟩)
  have hle := le_of_mem_levelsAll hflat hlevel
  have hcalls : callsAll body ≤ walkRoom := hfits.1
  have hroom : maxNesting = 1 + walkRoom := rfl
  omega

theorem Digest.exists_ofOutline_iff_of_flat {o : Outline} {mark : Mark} {body : List Item}
    (hcheck : o.check = .ok ()) (hroot : o.root = .fileBody mark body)
    (hflat : ∀ i ∈ preorderAll body, i.isFileBody = false) (version : Int) :
    (∃ d, ofOutline o version = .ok d) ↔ Fits walkRoom body := by
  have hcovered := (Outline.covered_of_check hcheck).1
  rw [exists_ofOutline_iff_of_check hcheck]
  rw [hroot] at hcovered ⊢
  rw [Item.body, walkedAll_eq_preorderAll hflat]
  exact and_iff_left hcovered

/-! ## What the check has seen -/

namespace Outline

theorem seen_of_checkItems {s t : Seen} {is : List Item} (h : checkItems s is = .ok t) :
    t.ids.map some = (is.map fun i => i.mark?.bind (·.id)).reverse ++ s.ids.map some ∧
      t.lambdas = (lambdaIds is).reverse ++ s.lambdas := by
  induction is generalizing s with
  | nil =>
    cases h
    exact ⟨rfl, rfl⟩
  | cons i is ih =>
    obtain ⟨u, hu, hrest⟩ := bind_eq_ok h
    obtain ⟨id, hid, _, _, _, rfl⟩ := checkItem_eq_ok_iff.mp hu
    obtain ⟨hids, hlambdas⟩ := ih hrest
    rw [hids, hlambdas]
    cases hi : i.lambdaId? <;> simp [lambdaIds, hid, hi]

/-- Every item of a checked list was accepted after those before it. -/
theorem accepted_of_checkItems {s t : Seen} {before after : List Item} {i : Item}
    (h : checkItems s (before ++ i :: after) = .ok t) :
    ∃ u, checkItems s before = .ok u ∧ ∃ id, i.mark?.bind (·.id) = some id ∧ defect? u.lambdas i =
      none := by
  rw [checkItems_append] at h
  obtain ⟨u, hbefore, h⟩ := bind_eq_ok h
  obtain ⟨v, hi, _⟩ := bind_eq_ok h
  obtain ⟨id, hid, _, _, hdefect, _⟩ := checkItem_eq_ok_iff.mp hi
  exact ⟨u, hbefore, id, hid, hdefect⟩

/-- An assignment that passes the check as one of a lambda names a lambda before it. -/
theorem lambda_before {t : Seen} {before after : List Item} {mark : Mark} {a : Assignment}
    (h : checkItems ⟨[], []⟩ (before ++ .assign mark a :: after) = .ok t)
    (hkind : a.kind = .lambda) :
    ∃ id m params body, a.value = some id ∧ m.id = some id ∧ .lambda m params body ∈ before := by
  obtain ⟨u, hbefore, _, _, hdefect⟩ := accepted_of_checkItems h
  have hseen : ∃ id ∈ u.lambdas, a.value = some id := by
    rw [defect?] at hdefect
    split at hdefect
    · cases hdefect
    · split at hdefect
      · cases hdefect
      · next hknown =>
        cases hvalue : a.value with
        | none => simp [hkind, hvalue] at hknown
        | some id => exact ⟨id, by simpa [hkind, hvalue] using hknown, rfl⟩
  obtain ⟨id, hid, hvalue⟩ := hseen
  rw [(seen_of_checkItems hbefore).2, append_nil, mem_reverse] at hid
  obtain ⟨i, hi, hlambda⟩ := mem_filterMap.mp hid
  obtain ⟨front, back, rfl⟩ := append_of_mem hi
  obtain ⟨_, _, k, hk, _⟩ := accepted_of_checkItems hbefore
  cases i with
  | lambda m params body =>
    have hm : m.id = some k := hk
    have hkid : k = id := by simpa [lambdaId?, hm] using hlambda
    exact ⟨id, m, params, body, hvalue, hkid ▸ hm, hi⟩
  | _ => cases hlambda

end Outline

end Xref
