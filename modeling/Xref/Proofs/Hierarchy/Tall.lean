import Xref.Proofs.Hierarchy.ClassFiles

/-!
# Tall hierarchies

A file with a long chain of classes, each the base of the one before, and beside it two classes that
are bases of each other. The first class of the chain is the first to be ordered, and waits for all
others of the chain.
-/

namespace Xref.Small

open List Xref.Graph Text Hierarchy

/-! ## Numbered classes -/

/-- The name of a class with a number: a character from a block of many thousands. -/
def numbered (i : Nat) : String :=
  String.ofList [Char.ofNat (0x4E00 + i)]

variable {i : Nat}

theorem toNat_numbered (hi : i < 1000) : (Char.ofNat (0x4E00 + i)).toNat = 0x4E00 + i := by
  have hv : (0x4E00 + i).isValidChar := by
    unfold Nat.isValidChar
    omega
  rw [Char.ofNat, dif_pos hv]
  rfl

theorem numbered_injective {j : Nat} (hi : i < 1000) (hj : j < 1000)
    (h : numbered i = numbered j) : i = j := by
  have hchar : Char.ofNat (0x4E00 + i) = Char.ofNat (0x4E00 + j) := by
    simpa [numbered] using congrArg String.toList h
  have := congrArg Char.toNat hchar
  rw [toNat_numbered hi, toNat_numbered hj] at this
  omega

theorem plain_numbered (hi : i < 1000) : Plain (numbered i) := by
  have hlist : (numbered i).toList = [Char.ofNat (0x4E00 + i)] := by simp [numbered]
  have hne : ∀ text : String, text.toList.length ≠ 1 → numbered i ≠ text := by
    rintro text hlen rfl
    simp [hlist] at hlen
  refine ⟨hne "" (by decide), ?_, hne "file" (by decide), ?_⟩
  · rw [hlist, mem_singleton]
    intro heq
    have := congrArg Char.toNat heq
    rw [toNat_numbered hi] at this
    simp at this
    omega
  · have h₁ := hne "object" (by decide)
    have h₂ := hne "builtins.object" (by decide)
    simp [isImplicitRoot, h₁, h₂]

theorem codePoints_numbered (hi : i < 1000) :
    codePoints ("m" ++ "." ++ numbered i) = codePoints "m." ++ [0x4E00 + i] := by
  have hcarrier : isCarrier (Char.ofNat (0x4E00 + i)) = false := by
    have hzero : 0x4E00 + i - carrierShift = 0 := by
      unfold carrierShift
      omega
    rw [isCarrier, toNat_numbered hi, hzero]
    rfl
  simp [codePoints, numbered, codePoint, hcarrier, toNat_numbered hi]

/-! ## A chain and a cycle -/

/-- A chain of classes with one more than the height, and two classes in a cycle. -/
def tallHeads (height : Nat) : List (String × List String) :=
  (range height).map (fun i => (numbered i, [numbered (i + 1)])) ++
    [(numbered height, []), (numbered (height + 1), [numbered (height + 2)]),
     (numbered (height + 2), [numbered (height + 1)])]

theorem map_fst_tallHeads (height : Nat) :
    (tallHeads height).map Prod.fst = (range (height + 3)).map numbered := by
  simp [tallHeads, range_succ, Function.comp_def]

/-- The numbered class of a tall file, by its id. -/
def tallId (i : Nat) : DefId :=
  classId (numbered i)

def tallCatalog (height : Nat) : Catalog :=
  catalogOf [classFile (tallHeads height)]

section

variable {height : Nat} (hheight : height < 900)

include hheight

variable {i : Nat}

theorem tallId_injective {j : Nat} (hi : i < height + 3) (hj : j < height + 3)
    (h : tallId i = tallId j) : i = j :=
  numbered_injective (by omega) (by omega) (classId_injective h)

theorem plain_tallHeads : ∀ h ∈ tallHeads height, Plain h.1 := by
  intro h hh
  have hmem : h.1 ∈ (tallHeads height).map Prod.fst := mem_map_of_mem hh
  rw [map_fst_tallHeads] at hmem
  obtain ⟨i, hi, heq⟩ := mem_map.mp hmem
  rw [← heq]
  exact plain_numbered (by have := mem_range.mp hi; omega)

theorem nodup_tallHeads : ((tallHeads height).map Prod.fst).Nodup := by
  rw [map_fst_tallHeads]
  refine Nodup.map_on (fun i hi j hj h => ?_) nodup_range
  rw [mem_range] at hi hj
  exact numbered_injective (by omega) (by omega) h

theorem declares_tallCatalog :
    (tallCatalog height).Sound ∧ Declares (tallHeads height) (tallCatalog height).definitions
      (tallCatalog height).scopes (tallCatalog height).classes := by
  obtain ⟨d, hd, _, hdeclares⟩ :=
    exists_digest_classFile (plain_tallHeads hheight) (nodup_tallHeads hheight)
  have hsound := Digest.sound_ofOutline hd
  have hcatalog : tallCatalog height = (Catalog.merge [d]).1 := by
    simp [tallCatalog, catalogOf, digestsOf, hd, Except.toOption]
  rw [hcatalog]
  exact ⟨Catalog.sound_merge (by simpa using hsound), hdeclares.merge hsound⟩

theorem resolvedBases_tall {k : String × List String} (hk : k ∈ tallHeads height) :
    resolvedBases (allBases (tallCatalog height)) (classId k.1) = k.2.map classId := by
  refine (declares_tallCatalog hheight).2.resolvedBases_eq (plain_tallHeads hheight) hk ?_ ?_
  · rcases mem_append.mp hk with hk | hk
    · obtain ⟨i, _, rfl⟩ := mem_map.mp hk
      exact nodup_singleton _
    · simp only [mem_cons, not_mem_nil, or_false] at hk
      rcases hk with rfl | rfl | rfl <;> simp
  · intro base hb
    rw [map_fst_tallHeads]
    rcases mem_append.mp hk with hk | hk
    · obtain ⟨i, hi, rfl⟩ := mem_map.mp hk
      rw [mem_singleton.mp hb]
      exact mem_map_of_mem (mem_range.mpr (by have := mem_range.mp hi; omega))
    · simp only [mem_cons, not_mem_nil, or_false] at hk
      rcases hk with rfl | rfl | rfl
      · simp at hb
      · rw [mem_singleton.mp hb]
        exact mem_map_of_mem (mem_range.mpr (by omega))
      · rw [mem_singleton.mp hb]
        exact mem_map_of_mem (mem_range.mpr (by omega))

/-- Each class of the chain has the next one as its base, and the last has none. -/
theorem resolvedBases_chain (hi : i ≤ height) :
    resolvedBases (allBases (tallCatalog height)) (tallId i) =
      if i < height then [tallId (i + 1)] else [] := by
  by_cases hlt : i < height
  · have hk : (numbered i, [numbered (i + 1)]) ∈ tallHeads height :=
      mem_append_left _ (mem_map.mpr ⟨i, mem_range.mpr hlt, rfl⟩)
    simpa only [tallId, if_pos hlt, map_cons, map_nil] using resolvedBases_tall hheight hk
  · obtain rfl : i = height := by omega
    have hk : (numbered i, []) ∈ tallHeads i := mem_append_right _ (by simp)
    simpa only [tallId, if_neg hlt, map_nil] using resolvedBases_tall hheight hk

/-- The last two classes have each other as base. -/
theorem resolvedBases_pair :
    resolvedBases (allBases (tallCatalog height)) (tallId (height + 1)) =
        [tallId (height + 2)] ∧
      resolvedBases (allBases (tallCatalog height)) (tallId (height + 2)) =
        [tallId (height + 1)] := by
  have hk : (numbered (height + 1), [numbered (height + 2)]) ∈ tallHeads height :=
    mem_append_right _ (by simp)
  have hk' : (numbered (height + 2), [numbered (height + 1)]) ∈ tallHeads height :=
    mem_append_right _ (by simp)
  constructor
  · simpa only [tallId, map_cons, map_nil] using resolvedBases_tall hheight hk
  · simpa only [tallId, map_cons, map_nil] using resolvedBases_tall hheight hk'

/-- Along the chain one only gets further down. -/
theorem exists_of_leads_tall (hi : i ≤ height) {d : DefId}
    (h : Leads (resolvedBases (allBases (tallCatalog height))) (tallId i) d) :
    ∃ j ≤ height, i < j ∧ d = tallId j := by
  have hstep : ∀ j ≤ height, ∀ e ∈ resolvedBases (allBases (tallCatalog height))
      (tallId j), j + 1 ≤ height ∧ e = tallId (j + 1) := by
    intro j hj e he
    rw [resolvedBases_chain hheight hj] at he
    split at he
    · next hlt => exact ⟨hlt, mem_singleton.mp he⟩
    · cases he
  induction h with
  | single he =>
    obtain ⟨hj, rfl⟩ := hstep i hi _ he
    exact ⟨i + 1, hj, by omega, rfl⟩
  | tail _ he ih =>
    obtain ⟨j, hj, hij, rfl⟩ := ih
    obtain ⟨hj', rfl⟩ := hstep j hj _ he
    exact ⟨j + 1, hj', by omega, rfl⟩

theorem leadsToCycle_tall :
    (Ancestry.ofBases (allBases (tallCatalog height))).leadsToCycle (tallId 0) = false := by
  have hg := grounded_allBases (declares_tallCatalog hheight).1
  rw [← Bool.not_eq_true, hg.leadsToCycle_iff]
  rintro ⟨k, hreach, hloop⟩
  -- a class that leads to itself would stand below itself
  have hk : ∃ j ≤ height, k = tallId j := by
    rcases Relation.reflTransGen_iff_eq_or_transGen.mp hreach with rfl | hlead
    · exact ⟨0, by omega, rfl⟩
    · obtain ⟨j, hj, _, rfl⟩ := exists_of_leads_tall hheight (by omega) hlead
      exact ⟨j, hj, rfl⟩
  obtain ⟨j, hj, rfl⟩ := hk
  obtain ⟨j', hj', hlt, heq⟩ := exists_of_leads_tall hheight hj hloop
  have := tallId_injective hheight (by omega) (by omega) heq
  omega

theorem exists_of_mem_classes {id : DefId} (h : id ∈ (tallCatalog height).classes.keys) :
    ∃ i < height + 3, id = tallId i := by
  obtain ⟨k, hk, rfl⟩ := (declares_tallCatalog hheight).2.exists_head id h
  have hmem : k.1 ∈ (tallHeads height).map Prod.fst := mem_map_of_mem hk
  rw [map_fst_tallHeads] at hmem
  obtain ⟨i, hi, heq⟩ := mem_map.mp hmem
  exact ⟨i, mem_range.mp hi, by rw [tallId, heq]⟩

theorem mem_classes_tall (hi : i < height + 3) :
    tallId i ∈ (tallCatalog height).classes.keys ∧
      (tallCatalog height).qualnameOf (tallId i) = "m" ++ "." ++ numbered i := by
  have hmem : numbered i ∈ (tallHeads height).map Prod.fst := by
    rw [map_fst_tallHeads]
    exact mem_map_of_mem (mem_range.mpr hi)
  obtain ⟨k, hk, heq⟩ := mem_map.mp hmem
  obtain ⟨_, hdecl⟩ := (declares_tallCatalog hheight).2.decl k hk
  obtain ⟨x, hx, _, _, hqualname, _⟩ := (declares_tallCatalog hheight).2.definition k hk
  rw [heq] at hdecl hx hqualname
  refine ⟨OrderedMap.mem_keys_iff.mpr ⟨_, hdecl⟩, ?_⟩
  rw [Catalog.qualnameOf, tallId, hx]
  exact hqualname

/-- The class at the top of the chain is listed before all others. -/
theorem head?_classIds_tall :
    (Hierarchy.classIds (tallCatalog height)).head? = some (tallId 0) := by
  refine head?_sortOn (mem_classes_tall hheight (by omega)).1 fun id hid hne => ?_
  obtain ⟨i, hi, rfl⟩ := exists_of_mem_classes hheight hid
  have hpos : 0 < i := by
    by_contra hzero
    exact hne (by rw [Nat.eq_zero_of_not_pos hzero])
  have hlt : compare (0x4E00 + 0) (0x4E00 + i) = .lt := by
    rw [Nat.compare_eq_lt]
    omega
  have htext : byText (tallCatalog height).qualnameOf (tallId 0) (tallId i) = .lt := by
    unfold byText compareOn
    dsimp only
    rw [(mem_classes_tall hheight (by omega)).2, (mem_classes_tall hheight hi).2,
      codePoints_numbered (by omega), codePoints_numbered (by omega)]
    have hm : codePoints "m." = [109, 46] := by decide
    rw [hm]
    show List.compareLex compare ([109, 46] ++ [0x4E00 + 0]) ([109, 46] ++ [0x4E00 + i]) = _
    simp only [cons_append, nil_append, List.compareLex, hlt, Std.ReflCmp.compare_self]
  rw [compareLex, htext]
  rfl

/-- A chain that is high enough keeps the hierarchy from being built. -/
theorem build_tall (hhigh : Ancestry.maxClimb ≤ height) :
    build (tallCatalog height) = .error .tooDeep := by
  have hhead := head?_classIds_tall hheight
  rw [← (keys_allBases _).1] at hhead
  have htall := isTooHigh_of_chain hhead (leadsToCycle_tall hheight)
    (fun i hi => by rw [resolvedBases_chain hheight (by omega), if_pos (by omega), head?_cons])
    (fun i hi j hj h => tallId_injective hheight (by omega) (by omega) h)
  unfold build
  split
  · rfl
  · dsimp only
    rw [htall, if_pos rfl]

end

end Xref.Small
