import Xref.Proofs.Hierarchy.Linked

/-!
# Chains of scopes

In one file every scope is opened inside another that is open, up to the scope of the file. Where
ids of different files coincide, the scopes of the later file take the place of those of the
earlier, and a chain may pass from the earlier file to the later, but never back: from there on it
goes on as in the later file. So chains end in a merged catalog too, and since no scope comes twice,
the bound on their length cuts none off.
-/

namespace Xref

open List Scope Option OrderedMap Xref.Small

/-! ## Chains -/

/-- The scopes from one outwards, each under the id that the one before has as its parent, up to the
scope of a file, which has none. -/
inductive Scope.Chain (scopes : ScopeId → Option Scope) : ScopeId → List Scope → Prop
  | file {id : ScopeId} {s : Scope} (hs : scopes id = some s) (hparent : s.parent = none)
      (hkind : s.kind = .fileBody) : Chain scopes id [s]
  | inside {id parent : ScopeId} {s : Scope} {outer : List Scope} (hs : scopes id = some s)
      (hparent : s.parent = some parent) (houter : Chain scopes parent outer) :
        Chain scopes id (s :: outer)

/-- Every scope has a chain. -/
def Scope.Rooted (scopes : ScopeId → Option Scope) : Prop :=
  ∀ id s, scopes id = some s → ∃ chain, Chain scopes id chain

namespace Scope.Chain

variable {scopes : ScopeId → Option Scope} {id : ScopeId} {chain : List Scope}

variable (h : Chain scopes id chain)
include h

/-- A chain stays one, in which names may be bound, as long as its scopes stay. -/
theorem mono {scopes' : ScopeId → Option Scope}
    (hkept : ∀ id s, scopes id = some s → ∃ s', scopes' id = some s' ∧ s'.bare = s.bare) :
    ∃ chain', Chain scopes' id chain' := by
  induction h with
  | file hs hparent hkind =>
    obtain ⟨s', hs', hbare⟩ := hkept _ _ hs
    exact ⟨[s'],
      .file hs' ((congrArg parent hbare).trans hparent) ((congrArg kind hbare).trans hkind)⟩
  | inside hs hparent _ ih =>
    obtain ⟨s', hs', hbare⟩ := hkept _ _ hs
    obtain ⟨outer, houter⟩ := ih
    exact ⟨s' :: outer, .inside hs' ((congrArg parent hbare).trans hparent) houter⟩

theorem getLast? : ∃ s, chain.getLast? = some s ∧ s.parent = none ∧ s.kind = .fileBody := by
  induction h with
  | @file id s hs hparent hkind => exact ⟨s, rfl, hparent, hkind⟩
  | inside _ _ _ ih =>
    obtain ⟨s, hlast, hfile⟩ := ih
    exact ⟨s, by rw [List.getLast?_cons, hlast, getD_some], hfile⟩

theorem unique {chain' : List Scope} (h' : Chain scopes id chain') : chain = chain' := by
  induction h generalizing chain' with
  | file hs hparent =>
    cases h' with
    | file hs' => rw [Option.some.inj (hs.symm.trans hs')]
    | inside hs' hparent' =>
      cases hs.symm.trans hs'
      cases hparent.symm.trans hparent'
  | inside hs hparent _ ih =>
    cases h' with
    | file hs' hparent' =>
      cases hs.symm.trans hs'
      cases hparent.symm.trans hparent'
    | inside hs' hparent' houter' =>
      cases hs.symm.trans hs'
      cases hparent.symm.trans hparent'
      rw [ih houter']

/-- The chain of a scope in a chain is a part of it. -/
theorem of_mem (hid : ∀ id s, scopes id = some s → s.id = id) {s : Scope} (hs : s ∈ chain) :
    scopes s.id = some s ∧ ∃ part, Chain scopes s.id part ∧ part.length ≤ chain.length := by
  induction h with
  | file hget hparent hkind =>
    obtain rfl := mem_singleton.mp hs
    rw [hid _ _ hget]
    exact ⟨hget, _, .file hget hparent hkind, Nat.le_refl _⟩
  | inside hget hparent houter ih =>
    rcases mem_cons.mp hs with rfl | hs
    · rw [hid _ _ hget]
      exact ⟨hget, _, .inside hget hparent houter, Nat.le_refl _⟩
    · obtain ⟨hmem, part, hpart, hle⟩ := ih hs
      exact ⟨hmem, part, hpart, Nat.le_succ_of_le hle⟩

/-- No scope comes twice: from its second place on, its chain would be shorter than it is. -/
theorem nodup (hid : ∀ id s, scopes id = some s → s.id = id) : (chain.map (·.id)).Nodup := by
  induction h with
  | file => simp
  | @inside id parent s outer hget hparent houter ih =>
    refine nodup_cons.mpr ⟨fun hmem => ?_, ih⟩
    obtain ⟨t, ht, heq⟩ := mem_map.mp hmem
    obtain ⟨_, part, hpart, hle⟩ := houter.of_mem hid ht
    rw [heq.trans (hid _ _ hget)] at hpart
    rw [← (Chain.inside hget hparent houter).unique hpart, length_cons] at hle
    omega

end Scope.Chain

/-- Where the scopes of a later map take the place of those of an earlier one, a chain of the
earlier goes on in the later as soon as it meets it. -/
theorem Scope.Rooted.or {later earlier : ScopeId → Option Scope} (hlater : Rooted later)
    (hearlier : Rooted earlier) : Rooted fun id => (later id).or (earlier id) := by
  have hover : ∀ id s, later id = some s → ∃ chain,
    Chain (fun id => (later id).or (earlier id)) id chain := by
    intro id s hs
    obtain ⟨chain, hchain⟩ := hlater id s hs
    exact hchain.mono fun id s hs => ⟨s, by rw [hs, some_or], rfl⟩
  intro id s hs
  obtain hl | ⟨hl, he⟩ := or_eq_some_iff.mp hs
  · exact hover id s hl
  · obtain ⟨chain, hchain⟩ := hearlier id s he
    clear hs hl he
    induction hchain with
    | @file id s hs hparent hkind =>
      cases hl : later id with
      | some t => exact hover id t hl
      | none => exact ⟨[s], .file (by rw [hl, none_or, hs]) hparent hkind⟩
    | @inside id parent s outer hs hparent _ ih =>
      cases hl : later id with
      | some t => exact hover id t hl
      | none =>
        obtain ⟨outer', houter⟩ := ih
        exact ⟨s :: outer', .inside (by rw [hl, none_or, hs]) hparent houter⟩

/-! ## Files -/

/-- Every open scope has a chain, and none but one is the scope of a file. -/
structure Draft.Nested (root : ScopeId) (d : Draft) : Prop where
  rooted : Rooted d.opened?
  fileBody : ∀ id s, d.opened? id = some s → s.kind = .fileBody → id = root

namespace Draft.Nested

variable {file : FileContext} {place : Place} {d : Draft} {o : Opening} {root : ScopeId}

theorem enter {body is : List Item} (h : d.Nested root)
    (hready : Ready file place (o.item body :: is) d) : (d.enter file place o).Nested root := by
  have hold : ∀ id s, d.opened? id = some s → ∃ chain,
    Chain (d.enter file place o).opened? id chain := by
    intro id s hs
    obtain ⟨chain, hchain⟩ := h.rooted id s hs
    exact hchain.mono fun id s hs => ⟨s, hready.opened?_enter_of_some hs, rfl⟩
  refine ⟨fun id s hs => ?_, fun id s hs hkind => ?_⟩
  · have henter := hs
    rw [d.opened?_enter] at henter
    split at henter
    · -- the scope of the item is opened in the one where the walk stands
      obtain ⟨t, ht⟩ := hready.exists_opened?
      obtain ⟨outer, houter⟩ := hold _ t ht
      cases henter
      exact ⟨_, .inside hs rfl houter⟩
    · exact hold id s henter
  · rw [d.opened?_enter] at hs
    split at hs
    · cases hs
      cases o <;> cases hkind
    · exact h.fileBody id s hs hkind

theorem startDraft (file : FileContext) (mark : Mark) :
    (file.startDraft mark).Nested (file.markId mark) := by
  refine ⟨fun id s hs => ?_, fun id s hs _ => ?_⟩
  · have hstart := hs
    rw [file.opened?_startDraft] at hstart
    split at hstart
    · cases hstart
      exact ⟨_, .file hs rfl rfl⟩
    · cases hstart
  · rw [file.opened?_startDraft] at hs
    split at hs
    · assumption
    · cases hs

end Draft.Nested

namespace Digest

variable {d : Digest} {o : Outline} {version : Int}

theorem nested_of_walk {mark : Mark} {body : List Item} {draft : Draft} (hcheck : o.check = .ok ())
    (hroot : o.root = .fileBody mark body)
    (hwalk : walkAll (o.context version) ((o.context version).startPlace mark)
      ((o.context version).startDraft mark) body = .ok draft) :
    draft.Nested ((o.context version).markId mark) := by
  have hready :=
    FileContext.ready_startDraft (Outline.fresh_of_check hcheck hroot (o.context version))
  refine hready.walkAll_keeps (fun _ hi hstep h => ?_) (fun hready h =>
    h.enter hready) (.startDraft _ mark) hwalk
  have hsame := Draft.opened?_leaf hi hstep
  exact ⟨hsame ▸ h.rooted, hsame ▸ h.fileBody⟩

theorem rooted_ofOutline (h : ofOutline o version = .ok d) : Scope.Rooted d.scopes.get? := by
  obtain ⟨_, _, _, rfl⟩ | ⟨hcheck, mark, body, draft, hroot, hwalk, rfl⟩ := ofOutline_cases h
  · intro id s hs
    cases hs
  · intro id s hs
    obtain ⟨chain, hchain⟩ :=
      (nested_of_walk hcheck hroot hwalk).rooted id s.bare (congrArg (Option.map Scope.bare) hs)
    refine hchain.mono fun id s hs => ?_
    obtain ⟨s', hs', rfl⟩ := Option.map_eq_some_iff.mp hs
    exact ⟨s', hs', rfl⟩

end Digest

/-! ## Merged catalogs -/

namespace Catalog

theorem rooted_merge {digests : List Digest} (h : ∀ d ∈ digests, Rooted d.scopes.get?) :
    Rooted (merge digests).1.scopes.get? := by
  have hfiles : ∀ d ∈ (filesOf digests).values, Rooted d.scopes.get? :=
    fun d hd => h d (mem_of_mem_filesOf hd)
  show Rooted (ofList ((filesOf digests).values.flatMap (·.scopes.entries))).get?
  generalize (filesOf digests).values = files at hfiles
  induction files using List.reverseRecOn with
  | nil =>
    intro id s hs
    cases hs
  | append_singleton files d ih =>
    -- the scopes of the last file are entered over those of the others
    have hget : (ofList ((files ++ [d]).flatMap (·.scopes.entries))).get? = fun id =>
        (d.scopes.get? id).or ((ofList (files.flatMap (·.scopes.entries))).get? id) := by
      funext id
      rw [flatMap_append, flatMap_singleton, get?_ofList, get?_ofList,
        reverse_append, lookupIn_append, ← get?_ofList, get?_ofList_entries]
    rw [hget]
    exact (hfiles d (by simp)).or (ih fun d' hd' => hfiles d' (by simp [hd']))

theorem chainFrom_eq {c : Catalog} {id : ScopeId} {chain : List Scope}
    (h : Chain c.scopes.get? id chain) {bound : Nat} (hbound : chain.length ≤ bound) :
    c.chainFrom bound (some id) = chain := by
  induction h generalizing bound with
  | file hs hparent =>
    obtain ⟨n, rfl⟩ := Nat.exists_eq_add_of_le' hbound
    rw [length_singleton, chainFrom, hs]
    cases n <;> simp [hparent, chainFrom]
  | inside hs hparent _ ih =>
    obtain ⟨n, rfl⟩ := Nat.exists_eq_add_of_le' hbound
    rw [length_cons, ← Nat.add_assoc, chainFrom, hs]
    simp only [hparent]
    rw [ih (Nat.le_add_left _ n)]

/-- The bound on the length of a chain cuts none off. -/
theorem scopeChain_of_chain {c : Catalog} (hid : ∀ id s, c.scopes.get? id = some s → s.id = id)
    {id : ScopeId} {chain : List Scope} (h : Chain c.scopes.get? id chain) :
    c.scopeChain id = chain := by
  refine chainFrom_eq h ?_
  have hsub : ∀ k ∈ chain.map (·.id), k ∈ c.scopes.keys := by
    intro k hk
    obtain ⟨s, hs, rfl⟩ := mem_map.mp hk
    exact mem_keys_iff.mpr ⟨s, (h.of_mem hid hs).1⟩
  have hle := ((h.nodup hid).subperm hsub).length_le
  simpa [OrderedMap.keys, size] using hle

/-- **Chains of scopes end.** Whatever files are merged, also such as give ids that coincide, the
chain of each scope goes from parent to parent, all the way to a scope without one, which is that of
a file. -/
theorem scopeChain_ends {digests : List Digest}
    (hd : ∀ d ∈ digests, ∃ o version, Digest.ofOutline o version = .ok d) {id : ScopeId}
    (hid : id ∈ (merge digests).1.scopes.keys) :
    Chain (merge digests).1.scopes.get? id ((merge digests).1.scopeChain id) ∧
      ∃ s, ((merge digests).1.scopeChain id).getLast? = some s ∧ s.parent = none ∧
        s.kind = .fileBody := by
  have hlinked : (merge digests).1.Linked := linked_merge fun d hmem => by
    obtain ⟨o, version, ho⟩ := hd d hmem
    exact Digest.linked_ofOutline ho
  have hrooted : Rooted (merge digests).1.scopes.get? := rooted_merge fun d hmem => by
    obtain ⟨o, version, ho⟩ := hd d hmem
    exact Digest.rooted_ofOutline ho
  obtain ⟨s, hs⟩ := mem_keys_iff.mp hid
  obtain ⟨chain, hchain⟩ := hrooted id s hs
  rw [scopeChain_of_chain (fun _ _ hs => (hlinked.scope hs).1) hchain]
  exact ⟨hchain, hchain.getLast?⟩

/-- A function with a block inside, and a file whose path holds the mark of an id, with a function
of the same id. -/
def collidingFiles : List Outline :=
  [file "a" "a" [functionItem "b#f" "f" false [.block (mark "block") []]],
    file "a#b" "b" [functionItem "f" "g" false []]]

/-- The chain of the block passes into the other file. -/
theorem scopeChain_ends_in_other_file :
    "a#block" ∈ (catalogOf collidingFiles).scopes.keys ∧
      ((catalogOf collidingFiles).scopeChain "a#block").map (fun s => (s.id, s.path)) =
        [("a#block", "a"), ("a#b#f", "a#b"), ("a#b#file", "a#b")] ∧
      Chain (catalogOf collidingFiles).scopes.get? "a#block"
        ((catalogOf collidingFiles).scopeChain "a#block") := by
  have hid : "a#block" ∈ (catalogOf collidingFiles).scopes.keys := by decide +kernel
  exact ⟨hid, by decide +kernel, (scopeChain_ends (fun _ => exists_outline_of_mem_digestsOf) hid).1⟩

end Catalog

end Xref
