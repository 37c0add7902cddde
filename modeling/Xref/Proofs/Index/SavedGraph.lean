import Xref.Call.NodeLink
import Xref.Proofs.Index.Paths
import Xref.Proofs.Index.ReadBack

/-!
# A saved call graph read back

Node-link data lists the edges of a graph source by source, and tells those between the same two
definitions apart by their call sites. Reading gives back every node and every edge with its
attributes, unless an integer is too long to be written or the halves of a surrogate pair meet in a
text.
-/

namespace Xref

open CallGraph List OrderedMap

/-! ## Records -/

namespace Json

/-- The value that is read where a value was saved. -/
def reread (v : Json) : Json :=
  rejoin v.sorted

/-- A field whose value is read where it was saved. -/
def rereadField (f : String × Json) : String × Json :=
  (f.1, f.2.reread)

variable {fs : List (String × Json)}

/-- A record is read field by field if its names are whole and different. -/
theorem exists_reread_obj (hnames : (fs.map Prod.fst).Nodup)
    (hwhole : ∀ f ∈ fs, isWhole f.1.toList) :
    ∃ gs, (obj fs).reread = obj gs ∧ gs.Perm (fs.map rereadField) := by
  have hperm :
    ((sortOn (byText Prod.fst) (sortedFields fs)).map rejoinField).Perm (fs.map rereadField) := by
    have hfields : (sortedFields fs).map rejoinField = fs.map rereadField := by
      rw [sortedFields_eq_map, map_map]
      refine map_congr_left fun f hf => ?_
      exact Prod.ext ((ofList_rejoined_eq_iff f.1).mpr (hwhole f hf)) rfl
    rw [← hfields]
    exact (sortOn_perm _ _).map rejoinField
  have hnodup :
    (((sortOn (byText Prod.fst) (sortedFields fs)).map rejoinField).map Prod.fst).Nodup := by
    rw [(hperm.map Prod.fst).nodup_iff, map_map]
    exact hnames
  refine ⟨_, ?_, hperm⟩
  rw [reread, sorted, rejoin, rejoinFields_of_nodup hnodup, nil_append]

theorem field?_of_perm {gs : List (String × Json)} (hperm : gs.Perm fs)
    (hnames : (fs.map Prod.fst).Nodup) {f : String × Json} (h : f ∈ fs) :
    field? f.1 gs = some f.2 :=
  field?_eq_some_of_mem ((hperm.map Prod.fst).nodup_iff.mpr hnames) (hperm.mem_iff.mpr h)

/-- A plain value has no fields to be sorted. -/
theorem reread_eq_iff {v : Json} (hv : Layered 0 v) :
    v.reread = v ↔ ∀ s ∈ v.strings, isWhole s.toList := by
  have hsorted : v.sorted = v := by cases hv <;> rfl
  rw [reread, hsorted]
  exact rejoin_eq_iff hv

theorem reread_arr (vs : List Json) : (arr vs).reread = arr (vs.map reread) := by
  rw [reread, sorted, rejoin, rejoinItems_eq_map, sortedItems_eq_map, map_map]
  rfl

/-- The text that is read where a text was saved. -/
def rereadText (s : String) : String :=
  String.ofList (rejoined s.toList)

theorem reread_str (s : String) : (str s).reread = str (rereadText s) :=
  rfl

/-- Plain fields with different names are the same after reading exactly if each of them is. -/
theorem perm_map_rereadField_iff (hnames : (fs.map Prod.fst).Nodup) :
    (fs.map rereadField).Perm fs ↔ ∀ f ∈ fs, f.2.reread = f.2 := by
  constructor
  · intro hperm f hf
    have hread : rereadField f ∈ fs := hperm.mem_iff.mp (mem_map_of_mem hf)
    exact congrArg Prod.snd (inj_on_of_nodup_map hnames hread hf rfl)
  · intro h
    have hfixed : ∀ f ∈ fs, rereadField f = f := fun f hf => Prod.ext rfl (h f hf)
    rw [map_congr_left hfixed, map_id']

theorem forall_strings_obj {p : String → Prop} :
    (∀ s ∈ (obj fs).strings, p s) ↔ ∀ f ∈ fs, p f.1 ∧ ∀ s ∈ f.2.strings, p s := by
  simp only [strings, mem_stringsOfFields]
  constructor
  · intro h f hf
    exact ⟨h f.1 ⟨f, hf, .inl rfl⟩, fun s hs => h s ⟨f, hf, .inr hs⟩⟩
  · rintro h s ⟨f, hf, rfl | hs⟩
    · exact (h f hf).1
    · exact (h f hf).2 s hs

theorem forall_strings_arr {p : String → Prop} {vs : List Json} :
    (∀ s ∈ (arr vs).strings, p s) ↔ ∀ v ∈ vs, ∀ s ∈ v.strings, p s := by
  simp only [strings, mem_stringsOfItems]
  constructor
  · intro h v hv s hs
    exact h s ⟨v, hv, hs⟩
  · rintro h s ⟨v, hv, hs⟩
    exact h v hv s hs

/-- A record of plain values with whole names is whole exactly if each of its values is read
back. -/
theorem whole_obj_iff (hplain : ∀ f ∈ fs, Layered 0 f.2) (hwhole : ∀ f ∈ fs, isWhole f.1.toList) :
    (∀ s ∈ (obj fs).strings, isWhole s.toList) ↔ ∀ f ∈ fs, f.2.reread = f.2 := by
  rw [forall_strings_obj]
  refine forall₂_congr fun f hf => ?_
  rw [reread_eq_iff (hplain f hf), and_iff_right (hwhole f hf)]

end Json

namespace CallGraph

open Json Number

/-! ## Nodes and links -/

/-- The source, target and call site of an edge. -/
def edgeKey (e : CallEdge) : String × String × String :=
  (e.source, e.target, e.site)

/-- The source, target and call site of an edge as they are read. -/
def readKey (e : CallEdge) : String × String × String :=
  (rereadText e.source, rereadText e.target, rereadText e.site)

/-- A record in which attributes stand before the fields that tell the identity. -/
theorem exists_reread_record {as own : Attributes} (hnames : ((as ++ own).map Prod.fst).Nodup)
    (hwhole : ∀ f ∈ as ++ own, isWhole f.1.toList) :
    ∃ gs, (obj (as ++ own)).reread = obj gs ∧
      (attributes (own.map Prod.fst) gs).Perm (as.map rereadField) ∧
      ∀ name text, (name, str text) ∈ own → textField? name gs = some (rereadText text) := by
  obtain ⟨gs, hgs, hperm⟩ := exists_reread_obj hnames hwhole
  have hnames' : (((as ++ own).map rereadField).map Prod.fst).Nodup := by
    rw [map_map]
    exact hnames
  refine ⟨gs, hgs, ?_, fun name text htext => ?_⟩
  · rw [map_append, nodup_append] at hnames
    have hkept :
      attributes (own.map Prod.fst) ((as ++ own).map rereadField) = as.map rereadField := by
      rw [attributes, map_append, filter_append]
      have hfirst : (as.map rereadField).filter (fun f => !(own.map Prod.fst).contains f.1) =
          as.map rereadField := by
        refine filter_eq_self.mpr (forall_mem_map.mpr fun a ha => ?_)
        have hnot : a.1 ∉ own.map Prod.fst :=
          fun hmem => hnames.2.2 a.1 (mem_map_of_mem ha) a.1 hmem rfl
        simpa [rereadField] using hnot
      have hlast :
        (own.map rereadField).filter (fun f => !(own.map Prod.fst).contains f.1) = [] := by
        refine filter_eq_nil_iff.mpr (forall_mem_map.mpr fun a ha => ?_)
        have hmem : a.1 ∈ own.map Prod.fst := mem_map_of_mem ha
        simpa [rereadField] using hmem
      rw [hfirst, hlast, append_nil]
    rw [← hkept]
    exact hperm.filter _
  · have hfield := field?_of_perm hperm hnames'
      (mem_map_of_mem (f := rereadField) (mem_append_right as htext))
    rw [textField?]
    rw [show field? name gs = some (str (rereadText text)) from hfield]

theorem nodup_nodeFields (id : DefId) (d : Option Definition) :
    ((nodeAttributes id d ++ [("id", str id)]).map Prod.fst).Nodup := by
  cases d <;> simp [nodeAttributes]

theorem whole_nodeFields (id : DefId) (d : Option Definition) :
    ∀ f ∈ nodeAttributes id d ++ [("id", str id)], isWhole f.1.toList := by
  cases d <;> simp only [nodeAttributes, cons_append, nil_append, forall_mem_cons] <;> decide

theorem plain_nodeFields (id : DefId) (d : Option Definition) :
    ∀ f ∈ nodeAttributes id d ++ [("id", str id)], Layered 0 f.2 := by
  cases d <;>
    simp only [nodeAttributes, cons_append, nil_append, forall_mem_cons, not_mem_nil,
      false_implies, implies_true, and_true]
  · exact ⟨.str _, .str _, .str _⟩
  · exact ⟨.str _, .str _, .str _, .str _, .int _, .str _⟩

variable (e : CallEdge)

theorem nodup_linkFields : ((edgeAttributes e ++ edgeIdentity e).map Prod.fst).Nodup := by
  simp [edgeAttributes, edgeIdentity]

theorem whole_linkFields : ∀ f ∈ edgeAttributes e ++ edgeIdentity e, isWhole f.1.toList := by
  simp only [edgeAttributes, edgeIdentity, cons_append, nil_append, forall_mem_cons]
  decide

theorem plain_linkFields : ∀ f ∈ edgeAttributes e ++ edgeIdentity e, Layered 0 f.2 := by
  simp only [edgeAttributes, edgeIdentity, cons_append, nil_append, forall_mem_cons,
    not_mem_nil, false_implies, implies_true, and_true]
  exact ⟨.str _, .str _, .str _, .str _, .int _, .str _, .str _, .str _⟩

/-- What is read of an item: its key, and its attributes in any order. -/
def ReadAs (key : α → κ) (as : α → Attributes) (x : α) (r : κ × Attributes) : Prop :=
  r.1 = key x ∧ r.2.Perm ((as x).map rereadField)

theorem exists_loadNode? (n : DefId × Option Definition) :
    ∃ r, loadNode? (nodeRecord n.1 n.2).reread = some r ∧
      ReadAs (fun n => rereadText n.1) (fun n => nodeAttributes n.1 n.2) n r := by
  obtain ⟨gs, hgs, hperm, htext⟩ :=
    exists_reread_record (nodup_nodeFields n.1 n.2) (whole_nodeFields n.1 n.2)
  refine ⟨(rereadText n.1, attributes ["id"] gs), ?_, rfl, hperm⟩
  rw [nodeRecord, hgs, loadNode?, htext "id" n.1 (by simp), Option.map_some]

theorem exists_loadLink? :
    ∃ r, loadLink? (linkRecord e).reread = some r ∧ ReadAs (readKey) edgeAttributes e r := by
  obtain ⟨gs, hgs, hperm, htext⟩ := exists_reread_record (nodup_linkFields e) (whole_linkFields e)
  refine ⟨(readKey e, attributes ["source", "target", "key"] gs), ?_, rfl, hperm⟩
  have hrecord : (linkRecord e).reread = obj gs := hgs
  rw [hrecord, loadLink?, htext "source" e.source (by simp [edgeIdentity]),
    htext "target" e.target (by simp [edgeIdentity]), htext "key" e.site (by simp [edgeIdentity])]
  rfl

/-- Items that are read one by one. -/
theorem exists_mapM {f : α → β} {load : β → Option γ} {R : α → γ → Prop}
    (h : ∀ x, ∃ y, load (f x) = some y ∧ R x y) (xs : List α) :
    ∃ ys, (xs.map f).mapM load = some ys ∧ Forall₂ R xs ys := by
  induction xs with
  | nil => exact ⟨[], rfl, .nil⟩
  | cons x xs ih =>
    obtain ⟨y, hy, hr⟩ := h x
    obtain ⟨ys, hys, hrs⟩ := ih
    refine ⟨y :: ys, ?_, .cons hr hrs⟩
    rw [map_cons, mapM_cons, hy, hys]
    rfl

theorem whole_parts (g : CallGraph) : ∀ f ∈ g.parts, isWhole f.1.toList := by
  simp only [parts, forall_mem_cons]
  decide

variable {g : CallGraph}

/-- The parts of a graph are found where it is read. -/
theorem get?_reread_toData {f : String × Json} (hf : f ∈ g.parts) :
    g.toData.reread.get? f.1 = some f.2.reread := by
  have hnames : (g.parts.map Prod.fst).Nodup := by simp [parts]
  obtain ⟨gs, hgs, hperm⟩ := exists_reread_obj hnames g.whole_parts
  have hnames' : ((g.parts.map rereadField).map Prod.fst).Nodup := by
    rw [map_map]
    exact hnames
  have hdata : g.toData.reread = obj gs := hgs
  rw [hdata]
  exact field?_of_perm hperm hnames' (mem_map_of_mem hf)

/-- What is read of a graph, before anything is said of its texts. -/
theorem exists_ofData?_reread (g : CallGraph) :
    ∃ ns ls,
    ofData? g.toData.reread = some ⟨withEnds (.ofList ns) (ls.map Prod.fst), .ofList ls⟩ ∧
      Forall₂ (ReadAs (fun n => rereadText n.1) fun n =>
        nodeAttributes n.1 n.2) g.nodes.entries ns ∧
      Forall₂ (ReadAs (readKey) edgeAttributes) g.links ls := by
  obtain ⟨ns, hns, hnodes⟩ := exists_mapM exists_loadNode? g.nodes.entries
  obtain ⟨ls, hls, hlinks⟩ := exists_mapM exists_loadLink? g.links
  refine ⟨ns, ls, ?_, hnodes, hlinks⟩
  have hdirected : claims "directed" g.toData.reread := by
    rw [claims, get?_reread_toData (f := ("directed", .bool true)) (by simp [parts])]
    rfl
  have hmultigraph : claims "multigraph" g.toData.reread := by
    rw [claims, get?_reread_toData (f := ("multigraph", .bool true)) (by simp [parts])]
    rfl
  have hnodesField : listField? "nodes" g.toData.reread =
      some (g.nodes.entries.map fun n => (nodeRecord n.1 n.2).reread) := by
    rw [listField?,
      get?_reread_toData (f := ("nodes", .arr (g.nodes.entries.map fun n => nodeRecord n.1 n.2)))
      (by simp [parts]), reread_arr, map_map]
    rfl
  have hlinksField : listField? "links" g.toData.reread =
      some (g.links.map fun e => (linkRecord e).reread) := by
    rw [listField?, get?_reread_toData (f := ("links", .arr (g.links.map linkRecord)))
      (by simp [parts]), reread_arr, map_map]
    rfl
  rw [ofData?, hdirected, hmultigraph, hnodesField, hlinksField]
  simp only [Option.bind_eq_bind, Option.bind_some, hns, hls]
  rfl

/-! ## Items by key -/

section Items

variable {α κ : Type} {read key : α → κ} {as : α →
  Attributes} {xs : List α} {ys : List (κ × Attributes)}

theorem map_fst_of_readAs (h : Forall₂ (ReadAs read as) xs ys) : ys.map Prod.fst = xs.map read := by
  induction h with
  | nil => rfl
  | cons hxy _ ih => rw [map_cons, map_cons, hxy.1, ih]

theorem exists_mem_of_readAs (h : Forall₂ (ReadAs read as) xs ys) {x : α} (hx : x ∈ xs) :
    ∃ bs, (read x, bs) ∈ ys ∧ bs.Perm ((as x).map rereadField) := by
  induction h with
  | nil => exact absurd hx not_mem_nil
  | @cons x' y _ _ hxy _ ih =>
    rcases mem_cons.mp hx with rfl | hx
    · exact ⟨y.2, by simp [← hxy.1], hxy.2⟩
    · obtain ⟨bs, hbs, hperm⟩ := ih hx
      exact ⟨bs, mem_cons_of_mem _ hbs, hperm⟩

variable [DecidableEq κ]

/-- A map describes some items: it has their keys in their order, and under each the attributes of
the item. -/
def MapDescribes (m : OrderedMap κ Attributes) (key : α → κ) (as : α → Attributes)
    (xs : List α) : Prop :=
  m.keys = xs.map key ∧ ∀ x ∈ xs, ∃ bs, m.get? (key x) = some bs ∧ bs.Perm (as x)

/-- A map of items with different keys describes them exactly if their keys and attributes are read
back. -/
theorem mapDescribes_iff (h : Forall₂ (ReadAs read as) xs ys) (hkeys : (xs.map key).Nodup)
    (hnames : ∀ x ∈ xs, ((as x).map Prod.fst).Nodup) :
    MapDescribes (.ofList ys) key as xs ↔ ∀ x ∈ xs, read x = key x ∧ ∀ a ∈ as x,
      a.2.reread = a.2 := by
  have hread := map_fst_of_readAs h
  constructor
  · rintro ⟨hall, hget⟩
    -- as many keys as items leave no room for two items under one key
    have hsame : ys.map Prod.fst = xs.map key := by
      have hlength : (ys.map Prod.fst).length ≤ (ofList ys).keys.length := by
        rw [hall, hread, length_map, length_map]
      rw [← (keys_ofList_sublist ys).eq_of_length_le hlength, hall]
    have hkey : ∀ x ∈ xs, read x = key x := map_inj_left.mp (hread.symm.trans hsame)
    have hnodup : (ys.map Prod.fst).Nodup := hsame ▸ hkeys
    intro x hx
    refine ⟨hkey x hx, (perm_map_rereadField_iff (hnames x hx)).mp ?_⟩
    obtain ⟨bs, hbs, hperm⟩ := exists_mem_of_readAs h hx
    obtain ⟨cs, hcs, hperm'⟩ := hget x hx
    rw [hkey x hx] at hbs
    rw [(get?_ofList_of_nodup hnodup).mpr hbs] at hcs
    cases hcs
    exact hperm.symm.trans hperm'
  · intro hback
    have hsame : ys.map Prod.fst = xs.map key :=
      hread.trans (map_inj_left.mpr fun x hx => (hback x hx).1)
    have hnodup : (ys.map Prod.fst).Nodup := hsame ▸ hkeys
    refine ⟨(keys_ofList_of_nodup hnodup).trans hsame, fun x hx => ?_⟩
    obtain ⟨bs, hbs, hperm⟩ := exists_mem_of_readAs h hx
    rw [(hback x hx).1] at hbs
    refine ⟨bs, (get?_ofList_of_nodup hnodup).mpr hbs, hperm.trans ?_⟩
    exact (perm_map_rereadField_iff (hnames x hx)).mpr (hback x hx).2

end Items

/-- Ends that are nodes bring nothing new. -/
theorem withEnds_eq_self {nodes : OrderedMap String Attributes}
    {ends : List (String × String × String)}
    (h : ∀ e ∈ ends, e.1 ∈ nodes.keys ∧ e.2.1 ∈ nodes.keys) : withEnds nodes ends = nodes := by
  have hids : ∀ id ∈ ends.flatMap fun e => [e.1, e.2.1], nodes.contains id := by
    intro id hid
    obtain ⟨e, he, hid⟩ := mem_flatMap.mp hid
    rw [contains_eq_true_iff]
    rcases mem_pair.mp hid with rfl | rfl
    · exact (h e he).1
    · exact (h e he).2
  rw [withEnds]
  generalize (ends.flatMap fun e => [e.1, e.2.1]) = ids at hids
  induction ids with
  | nil => rfl
  | cons id ids ih =>
    rw [foldl_cons, if_pos (hids id mem_cons_self)]
    exact ih fun id hid => hids id (mem_cons_of_mem _ hid)

/-! ## Graphs -/

/-- A graph that was read describes a call graph: it has its nodes, and its edges by source, target
and call site, with their attributes. -/
structure Loaded.Describes (l : Loaded) (g : CallGraph) : Prop where
  nodes : MapDescribes l.nodes Prod.fst (fun n => nodeAttributes n.1 n.2) g.nodes.entries
  edges : MapDescribes l.edges edgeKey edgeAttributes g.links

theorem rereadText_eq_iff {s : String} : rereadText s = s ↔ (str s).reread = str s := by
  rw [reread_str, str.injEq]

/-- The texts of the data are whole exactly if all attributes and identities are read back. -/
theorem whole_toData_iff (g : CallGraph) :
    (∀ s ∈ g.toData.strings, isWhole s.toList) ↔
      (∀ n ∈ g.nodes.entries, rereadText n.1 = n.1 ∧ ∀ a ∈ nodeAttributes n.1 n.2,
        a.2.reread = a.2) ∧
        ∀ e ∈ g.links, readKey e = edgeKey e ∧ ∀ a ∈ edgeAttributes e, a.2.reread = a.2 := by
  have hnode : ∀ n : DefId × Option Definition, (∀ s ∈ (nodeRecord n.1 n.2).strings,
    isWhole s.toList) ↔
      rereadText n.1 = n.1 ∧ ∀ a ∈ nodeAttributes n.1 n.2, a.2.reread = a.2 := by
    intro n
    rw [nodeRecord, whole_obj_iff (plain_nodeFields n.1 n.2) (whole_nodeFields n.1 n.2),
      rereadText_eq_iff, forall_mem_append, forall_mem_singleton, and_comm]
  have hlink : ∀ e : CallEdge, (∀ s ∈ (linkRecord e).strings, isWhole s.toList) ↔
      readKey e = edgeKey e ∧ ∀ a ∈ edgeAttributes e, a.2.reread = a.2 := by
    intro e
    rw [linkRecord, whole_obj_iff (plain_linkFields e) (whole_linkFields e),
      forall_mem_append, and_comm]
    simp [edgeIdentity, readKey, edgeKey, rereadText_eq_iff]
  have hparts : (∀ s ∈ g.toData.strings, isWhole s.toList) ↔
      ∀ f ∈ g.parts, ∀ s ∈ f.2.strings, isWhole s.toList := by
    rw [toData, forall_strings_obj]
    exact forall₂_congr fun f hf => and_iff_right (g.whole_parts f hf)
  rw [hparts]
  simp only [parts, forall_mem_cons, forall_strings_arr, forall_mem_map, hnode, hlink]
  simp [strings, stringsOfFields]

theorem layered_toData (g : CallGraph) : Layered 3 g.toData := by
  refine .obj ?_ (by simp [parts])
  simp only [parts, forall_mem_cons, not_mem_nil, false_implies, implies_true, and_true]
  refine ⟨.bool _, .bool _, .obj (by simp) (by simp), .arr ?_, .arr ?_⟩
  · exact forall_mem_map.mpr fun n _ => .obj (plain_nodeFields n.1 n.2) (nodup_nodeFields n.1 n.2)
  · exact forall_mem_map.mpr fun e _ => .obj (plain_linkFields e) (nodup_linkFields e)

/-- A text with a field is longer than the data of a graph is deep. -/
theorem depth_le_length_pretty (g : CallGraph) : 3 ≤ g.toData.pretty.length := by
  have hlength : (sortOn (byText Prod.fst) (sortedFields g.parts)).length = 5 := by
    rw [(sortOn_perm _ _).length_eq, sortedFields_eq_map, length_map]
    rfl
  rw [toData, pretty, sorted]
  obtain ⟨⟨name, v⟩, fs, hfs⟩ := exists_cons_of_length_eq_add_one hlength
  simp only [hfs, renderChars, stringText, String.length_ofList, length_append, length_cons]
  omega

theorem ofText?_pretty (hint : ∀ n ∈ g.toData.integers, n.natAbs < digitLimit) :
    ofText? g.toData.pretty = ofData? g.toData.reread := by
  rw [ofText?, parse?, parse_pretty (layered_toData g) (depth_le_length_pretty g) hint]
  rfl

/-- A graph whose edges have their ends among the nodes and different keys is described by what is
read exactly if all texts are whole. -/
theorem describes_ofData?_iff
    (hends : ∀ e ∈ g.links, e.source ∈ g.nodes.keys ∧ e.target ∈ g.nodes.keys)
    (hkeys : (g.links.map edgeKey).Nodup) :
    (∃ l, ofData? g.toData.reread = some l ∧ l.Describes g) ↔ ∀ s ∈ g.toData.strings,
      isWhole s.toList := by
  obtain ⟨ns, ls, hread, hnodes, hlinks⟩ := exists_ofData?_reread g
  have hself : withEnds (.ofList ns) (ls.map Prod.fst) = .ofList ns := by
    refine withEnds_eq_self ?_
    have hmem : ∀ id ∈ g.nodes.keys, rereadText id ∈ (ofList ns).keys := by
      intro id hid
      obtain ⟨n, hn, rfl⟩ := mem_map.mp hid
      rw [mem_keys_ofList, map_fst_of_readAs hnodes]
      exact mem_map_of_mem hn
    rw [map_fst_of_readAs hlinks, forall_mem_map]
    intro e he
    exact ⟨hmem _ (hends e he).1, hmem _ (hends e he).2⟩
  have hnames : ∀ n ∈ g.nodes.entries, ((nodeAttributes n.1 n.2).map Prod.fst).Nodup := by
    intro n _
    have h := nodup_nodeFields n.1 n.2
    rw [map_append] at h
    exact h.of_append_left
  have hnames' : ∀ e ∈ g.links, ((edgeAttributes e).map Prod.fst).Nodup := by
    intro e _
    simp [edgeAttributes]
  rw [whole_toData_iff, ← mapDescribes_iff hnodes g.nodes.distinct hnames,
    ← mapDescribes_iff hlinks hkeys hnames', hread, hself]
  constructor
  · rintro ⟨l, hl, hdescribes⟩
    cases hl
    exact ⟨hdescribes.nodes, hdescribes.edges⟩
  · rintro ⟨hnodes, hedges⟩
    exact ⟨_, rfl, hnodes, hedges⟩

end CallGraph

namespace Index.Linked

variable {x : Index}

theorem mem_links (h : x.Linked) {e : CallEdge} : e ∈ x.graph.links ↔ e ∈ x.graph.edges := by
  simp only [links, mem_flatMap, mem_edgesFrom]
  constructor
  · rintro ⟨_, _, he, _⟩
    exact he
  · intro he
    refine ⟨e.source, ?_, he, rfl⟩
    rw [h.graph_eq, keys_nodes_build]
    exact (h.spanned.ends e he).1

/-- Source by source, every edge is listed once. -/
theorem links_perm (h : x.Linked) : x.graph.links.Perm x.graph.edges := by
  refine (perm_ext_iff_of_nodup ?_ h.nodup_edges).mpr fun e => h.mem_links
  rw [links, nodup_flatMap]
  refine ⟨fun source _ => nodup_edgesFrom h.nodup_edges source, x.graph.nodes.distinct.imp ?_⟩
  intro a b hne e ha hb
  exact hne ((mem_edgesFrom.mp ha).2.symm.trans (mem_edgesFrom.mp hb).2)

/-- Edges differ in their source, target or call site. -/
theorem nodup_edgeKeys (h : x.Linked) : (x.graph.links.map edgeKey).Nodup := by
  refine (nodup_map_iff_inj_on (h.links_perm.nodup_iff.mpr h.nodup_edges)).mpr ?_
  intro a ha b hb hab
  obtain ⟨s, hs, ha⟩ := h.mem_edges.mp (h.mem_links.mp ha)
  obtain ⟨t, ht, hb⟩ := h.mem_edges.mp (h.mem_links.mp hb)
  obtain ⟨_, _, rfl⟩ := mem_edgesOf.mp ha
  obtain ⟨_, _, rfl⟩ := mem_edgesOf.mp hb
  obtain ⟨_, hrest⟩ := Prod.mk.inj hab
  obtain ⟨rfl, hid⟩ := Prod.mk.inj hrest
  cases h.eq_of_id_eq hs ht hid
  rfl

end Index.Linked

namespace Index

open Json Number

/-- Whatever the history of an index: its graph is written, and what is read is a graph with the
same nodes, the same edges by source, target and call site, and the same attributes of both, exactly
if no integer of the data has more than the greatest count of digits and every text of it is whole.
The links of the data are the edges of the graph, each once. -/
theorem saved_graph_reads_back_iff {policy : Policy} {files : String → Option Outline} {m : Made}
    (h : Reached policy files m) :
    ((∃ text l, m.index.graph.written = .ok text ∧ ofText? text = some l ∧
        l.Describes m.index.graph) ↔
      (∀ n ∈ m.index.graph.toData.integers, n.natAbs < digitLimit) ∧
        ∀ s ∈ m.index.graph.toData.strings, isWhole s.toList = true) ∧
      m.index.graph.links.Perm m.index.graph.edges := by
  have hx := h.linked
  have hends : ∀ e ∈ m.index.graph.links,
      e.source ∈ m.index.graph.nodes.keys ∧ e.target ∈ m.index.graph.nodes.keys := by
    intro e he
    rw [hx.graph_eq, keys_nodes_build]
    exact hx.spanned.ends e (hx.mem_links.mp he)
  have hdescribes := describes_ofData?_iff hends hx.nodup_edgeKeys
  refine ⟨⟨?_, ?_⟩, hx.links_perm⟩
  · rintro ⟨text, l, hwritten, hread, hl⟩
    obtain ⟨hint, rfl⟩ := write_eq_ok_iff.mp hwritten
    rw [ofText?_pretty hint] at hread
    exact ⟨hint, hdescribes.mp ⟨l, hread, hl⟩⟩
  · rintro ⟨hint, hwhole⟩
    obtain ⟨l, hread, hl⟩ := hdescribes.mpr hwhole
    exact ⟨_, l, write_eq_ok_iff.mpr ⟨hint, rfl⟩, (ofText?_pretty hint).trans hread, hl⟩

/-- The graph of a function that calls a method twice and itself is read back with all five
edges. -/
theorem saved_graph_reads_back_on_repeats :
    ∃ m, build [repeatingFile] .standard none = .ok m ∧
      m.index.graph.links.map edgeKey =
        [("m.py::m.use", "m.py::m.Base.stop", "m.py#last"),
          ("m.py::m.use", "m.py::m.Base.stop", "m.py#first"),
         ("m.py::m.use", "m.py::m.Job.stop", "m.py#last"), ("m.py::m.use", "m.py::m.Job.stop",
           "m.py#first"),
         ("m.py::m.use", "m.py::m.use", "m.py#again")] ∧
      ∃ text l, m.index.graph.written = .ok text ∧ ofText? text = some l ∧
        l.Describes m.index.graph := by
  have hbuilt : (build [repeatingFile] .standard none).toOption.any (fun m =>
      decide (m.index.graph.links.map edgeKey =
        [("m.py::m.use", "m.py::m.Base.stop", "m.py#last"),
          ("m.py::m.use", "m.py::m.Base.stop", "m.py#first"),
         ("m.py::m.use", "m.py::m.Job.stop", "m.py#last"), ("m.py::m.use", "m.py::m.Job.stop",
           "m.py#first"),
         ("m.py::m.use", "m.py::m.use", "m.py#again")]) &&
      (m.index.graph.toData.integers.all (fun n => n.natAbs < digitLimit) &&
        m.index.graph.toData.strings.all fun s => isWhole s.toList)) := by
    decide +kernel
  obtain ⟨m, hm, hview⟩ := exists_of_any hbuilt
  obtain ⟨hlinks, hrest⟩ := Bool.and_eq_true_iff.mp hview
  obtain ⟨hint, hwhole⟩ := Bool.and_eq_true_iff.mp hrest
  refine ⟨m, hm, of_decide_eq_true hlinks, (saved_graph_reads_back_iff (.built hm)).1.mpr ⟨?_, ?_⟩⟩
  · intro n hn
    exact of_decide_eq_true (all_eq_true.mp hint n hn)
  · exact all_eq_true.mp hwhole

/-- A file of so many lines that their count has one digit too many, with a call. -/
def tallCaller : Outline :=
  ⟨"m.py", "m", .fileBody ⟨some "file", ⟨digitLimit, 1⟩⟩
    [Small.functionItem "f" "f" false [], Small.callItem "call" "f"], false, true⟩

/-- An index is made of that file, but its graph cannot be saved. -/
theorem tall_graph_is_not_saved :
    ∃ m, build [tallCaller] .standard none = .ok m ∧
      m.index.graph.written = .error .integerTooLong := by
  have hbuilt : (build [tallCaller] .standard none).toOption.any
      (fun m => m.index.graph.toData.integers.any fun n => !decide (n.natAbs < digitLimit)) := by
    decide +kernel
  obtain ⟨m, hm, hlong⟩ := exists_of_any hbuilt
  refine ⟨m, hm, ?_⟩
  rw [CallGraph.written, write, if_neg]
  rw [all_eq_not_any_not, hlong]
  decide

end Index

end Xref
