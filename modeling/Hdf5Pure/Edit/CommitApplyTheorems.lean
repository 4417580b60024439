import Hdf5Pure.Edit.CommitApply
import Hdf5Pure.Edit.CommitPaths

/-!
# What applying a plan leaves in the file

A rebuilt group is described by what a lookup of each name finds: the links of the old group without
the deleted ones, overridden by the new ones. The objects that were in the file stay as they are.
-/

namespace Hdf5Pure.Edit

open List

/-! ## Lookups in link lists -/

def lookupLink (links : List LinkRecord) (name : String) : Option LinkTarget :=
  (findNamed links name).map LinkRecord.target

def linkNames (links : List LinkRecord) : List String := links.map LinkRecord.name

def overrideWith (assoc : List (String × ObjectId)) (f : String → Option LinkTarget) :
    String → Option LinkTarget :=
  assoc.foldl (fun f e => Function.update f e.1 (some (.hard e.2 false))) f

variable {links : List LinkRecord} {name : String}

/-- A lookup fails exactly where no link has the name. -/
lemma lookupLink_eq_none : lookupLink links name = none ↔ name ∉ linkNames links := by
  unfold lookupLink findNamed linkNames
  simp

variable {r : LinkRecord} {object : ObjectId} {position : ℕ} {region located : List LinkRecord}
  {assoc : List (String × ObjectId)}

/-- With distinct names, a link is found under its own name. -/
lemma mem_iff_lookupLink (hnd : (linkNames links).Nodup) :
    r ∈ links ↔ lookupLink links r.name = some r.target := by
  unfold lookupLink
  constructor
  · intro hr
    rw [File.findNamed_of_nodup hnd hr]
    rfl
  · intro h
    obtain ⟨r', hfind, htgt⟩ := Option.map_eq_some_iff.mp h
    obtain ⟨hr', hname⟩ := File.findNamed_name hfind
    cases r
    cases r'
    simp_all

lemma linkNames_concat (links : List LinkRecord) (r : LinkRecord) :
    linkNames (links ++ [r]) = linkNames links ++ [r.name] := map_append

/-- A link of a new name is found, and the others are found as before. -/
lemma lookupLink_append (hnew : r.name ∉ linkNames links) :
    lookupLink (links ++ [r]) = Function.update (lookupLink links) r.name (some r.target) := by
  funext name
  by_cases hname : name = r.name
  · subst hname
    have hnone : findNamed links r.name = none :=
      Option.map_eq_none_iff.mp (lookupLink_eq_none.mpr hnew)
    unfold findNamed at hnone
    simp [lookupLink, findNamed, find?_append, hnone]
  · rw [Function.update_of_ne hname]
    have hne : ¬ r.name = name := fun h => hname h.symm
    simp [lookupLink, findNamed, find?_append, hne]

def retarget (name : String) (object : ObjectId) (r : LinkRecord) : LinkRecord :=
  if r.name = name then { r with target := .hard object false } else r

@[simp] lemma retarget_name (name : String) (object : ObjectId) (r : LinkRecord) :
    (retarget name object r).name = r.name := by
  unfold retarget
  split <;> rfl

lemma linkNames_retarget (name : String) (object : ObjectId) (links : List LinkRecord) :
    linkNames (links.map (retarget name object)) = linkNames links := by
  simp [linkNames]

/-- A lookup of a repointed name finds its new object. -/
lemma lookupLink_retarget (hmem : name ∈ linkNames links) :
    lookupLink (links.map (retarget name object)) =
      Function.update (lookupLink links) name (some (.hard object false)) := by
  funext n
  have hfind : findNamed (links.map (retarget name object)) n =
      (findNamed links n).map (retarget name object) := by
    unfold findNamed
    simp
  unfold lookupLink
  rw [hfind, Option.map_map]
  cases hn : findNamed links n with
  | none =>
    have hne : n ≠ name := by
      rintro rfl
      have hnone : lookupLink links n = none := by rw [lookupLink, hn]; rfl
      exact lookupLink_eq_none.mp hnone hmem
    rw [Function.update_of_ne hne, hn]
    rfl
  | some r =>
    have hrname := (File.findNamed_name hn).2
    by_cases hne : n = name
    · subst hne
      simp [retarget, hrname]
    · rw [Function.update_of_ne hne, hn]
      simp [retarget, hrname, hne]

/-! ## Region edits -/

/-- Removing names by their first links leaves the links of the other names. -/
lemma removeLinks_ok {remaining : List String} {out : List LinkRecord}
    (hnd : (linkNames links).Nodup) (h : removeLinks links remaining = .ok out) :
    out = links.filter fun r => decide (r.name ∉ remaining) := by
  induction links generalizing remaining out with
  | nil => cases remaining with
    | nil => cases h; rfl
    | cons name remaining => cases h
  | cons r links ih =>
    unfold linkNames at hnd
    rw [map_cons, nodup_cons] at hnd
    unfold removeLinks at h
    by_cases hmem : r.name ∈ remaining
    · rw [if_pos hmem] at h
      rw [filter_cons_of_neg (by simpa using hmem), ih hnd.2 h]
      -- no other link has the erased name
      apply filter_congr
      intro s hs
      have hne : s.name ≠ r.name := fun heq => hnd.1 (heq ▸ mem_map_of_mem hs)
      simp only [mem_erase_of_ne hne]
    · rw [if_neg hmem] at h
      obtain ⟨rest, hrest, h⟩ := bind_eq_ok.mp h
      cases h
      rw [filter_cons_of_pos (by simpa using hmem), ih hnd.2 hrest]

/-- A filter by name hides the other names. -/
lemma lookupLink_filter {p : String → Bool} (name : String) :
    lookupLink (links.filter fun r => p r.name) name =
      if p name then lookupLink links name else none := by
  unfold lookupLink findNamed
  rw [find?_filter]
  by_cases hp : p name
  · rw [if_pos hp]
    congr 2
    funext r
    by_cases hr : r.name = name
    · simp [hr, hp]
    · simp [hr]
  · rw [if_neg hp, Option.map_eq_none_iff, find?_eq_none]
    intro r _ hr
    obtain ⟨hpr, hname⟩ := of_decide_eq_true hr
    exact hp (of_decide_eq_true hname ▸ hpr)

/-- With distinct names, changing the link at the position of a name repoints that link alone. -/
lemma modify_eq_map_retarget (hnd : (linkNames region).Nodup) (hr : region[position]? = some r)
    (object : ObjectId) :
    (region.modify position fun r => { r with target := .hard object false }) =
      region.map (retarget r.name object) := by
  apply ext_getElem?
  intro j
  rw [getElem?_modify, getElem?_map]
  cases hs : region[j]? with
  | none => simp
  | some s =>
    by_cases hj : position = j
    · subst hj
      rw [hr, Option.some_inj] at hs
      subst hs
      simp [retarget]
    · have hne : s.name ≠ r.name := by
        intro heq
        have hlt := (List.getElem?_eq_some_iff.mp hr).1
        exact hj ((List.getElem?_inj (by simpa [linkNames] using hlt) hnd).mp
          (by simp [linkNames, hr, hs, heq]))
      simp [retarget, hj, hne]

/-- A located field is that of the name looked for. -/
lemma patchField_address (h : patchField located name = .address position) :
    (linkNames located)[position]? = some name := by
  unfold patchField at h
  cases hidx : located.findIdx? fun r => decide (r.name = name) with
  | none => rw [hidx] at h; cases h
  | some i =>
    rw [hidx] at h
    obtain ⟨hlt, hname, -⟩ := findIdx?_eq_some_iff_getElem.mp hidx
    have hi : i = position := by
      simp only at h
      split at h <;> simp_all
    subst hi
    rw [linkNames, getElem?_map, getElem?_eq_getElem hlt]
    simpa using hname

/-- A patch through a field located in a list with the same names at the front repoints the link of
the name. -/
lemma patchLink_ok {out : List LinkRecord} (hnd : (linkNames region).Nodup)
    (hfront : linkNames located <+: linkNames region)
    (h : patchLink region (patchField located name) object = .ok out) :
    name ∈ linkNames region ∧ out = region.map (retarget name object) := by
  cases hfield : patchField located name with
  | missing => rw [hfield] at h; cases h
  | symbolic => rw [hfield] at h; cases h
  | trailing => rw [hfield] at h; cases h
  | address position =>
    rw [hfield] at h
    cases h
    have hname : (linkNames region)[position]? = some name := by
      obtain ⟨rest, hrest⟩ := hfront
      have hlocated := patchField_address hfield
      rw [← hrest, List.getElem?_append_left (List.getElem?_eq_some_iff.mp hlocated).1]
      exact hlocated
    refine ⟨mem_of_getElem? hname, ?_⟩
    rw [linkNames, getElem?_map, Option.map_eq_some_iff] at hname
    obtain ⟨r, hr, rfl⟩ := hname
    exact modify_eq_map_retarget hnd hr object

/-! ## Overrides -/

/-- A name without an override is looked up as before. -/
lemma overrideWith_of_not_mem {f : String → Option LinkTarget} (h : name ∉ assoc.map Prod.fst) :
    overrideWith assoc f name = f name := by
  induction assoc generalizing f with
  | nil => rfl
  | cons e assoc ih =>
    rw [map_cons, mem_cons, not_or] at h
    show overrideWith assoc (Function.update f e.1 _) name = f name
    rw [ih h.2, Function.update_of_ne h.1]

/-- With distinct names, every override is found. -/
lemma overrideWith_of_mem {e : String × ObjectId} {f : String → Option LinkTarget}
    (hnd : (assoc.map Prod.fst).Nodup) (he : e ∈ assoc) :
    overrideWith assoc f e.1 = some (.hard e.2 false) := by
  induction assoc generalizing f with
  | nil => cases he
  | cons e' assoc ih =>
    rw [map_cons, nodup_cons] at hnd
    show overrideWith assoc (Function.update f e'.1 _) e.1 = _
    rcases mem_cons.mp he with rfl | he
    · rw [overrideWith_of_not_mem hnd.1, Function.update_self]
    · exact ih hnd.2 he

/-! ## Placement -/

def FreshAlloc (alloc : OrdMap ObjectId FileObject → ObjectId) : Prop :=
  ∀ objects : OrdMap ObjectId FileObject, objects.get? (alloc objects) = none

namespace Placement

variable {alloc : OrdMap ObjectId FileObject → ObjectId}

/-- A placed object takes an address nothing had. -/
lemma place_extends (halloc : FreshAlloc alloc) (p : Placement) (o : FileObject) :
    p.objects.Extends (p.place alloc o).2.objects [(p.place alloc o).1] :=
  .insert (halloc _) o

/-- A placed object is found at its address. -/
lemma place_object (p : Placement) (o : FileObject) :
    (p.place alloc o).2.objects.get? (p.place alloc o).1 = some o := by
  show (p.objects.insert (alloc p.objects) o).get? (alloc p.objects) = some o
  rw [OrdMap.get?_insert, if_pos rfl]

/-- What creating the datasets of a group does, with the address of each. -/
structure DatasetsPlaced (key : ObjectPath) (names : List String) (region region' : List LinkRecord)
    (p p' : Placement) (assoc : List (String × ObjectId)) : Prop where
  assoc_names : assoc.map Prod.fst = names
  lookup : lookupLink region' = overrideWith assoc (lookupLink region)
  region_names : linkNames region' = linkNames region ++ names
  objects : p.objects.Extends p'.objects (assoc.map Prod.snd)
  datasets : ∀ e ∈ assoc, p'.objects.get? e.2 = some .dataset
  pathAddr : ∀ k, (∀ n ∈ names, k ≠ key ++ [n]) → p'.pathAddr.get? k = p.pathAddr.get? k
  relocations : p'.relocations = p.relocations

/-- Every new dataset gets an address and a link. -/
lemma placeDatasets_spec (halloc : FreshAlloc alloc) {key : ObjectPath} {names : List String}
    {region region' : List LinkRecord} {p p' : Placement} (hnd : (linkNames region ++ names).Nodup)
    (h : placeDatasets alloc key names region p = (region', p')) :
    ∃ assoc, DatasetsPlaced key names region region' p p' assoc := by
  induction names generalizing region region' p p' with
  | nil =>
    cases h
    exact ⟨[], rfl, rfl, by simp, .refl _, by simp, fun _ _ => rfl, rfl⟩
  | cons name names ih =>
    have hnew : name ∉ linkNames region :=
      fun hmem => disjoint_of_nodup_append hnd hmem mem_cons_self
    have hnames := linkNames_concat region ⟨name, .hard (p.place alloc .dataset).1 false⟩
    rw [append_cons, ← hnames] at hnd
    obtain ⟨assoc, hassoc⟩ := ih hnd h
    have hext := place_extends halloc p .dataset
    refine ⟨(name, (p.place alloc .dataset).1) :: assoc, ?_, ?_, ?_, ?_, ?_, ?_, ?_⟩
    · rw [map_cons, hassoc.assoc_names]
    · rw [hassoc.lookup, lookupLink_append hnew]
      rfl
    · rw [hassoc.region_names, hnames, append_assoc]
      rfl
    · exact hext.trans hassoc.objects
    · exact forall_mem_cons.mpr ⟨hassoc.objects.grows (place_object p .dataset), hassoc.datasets⟩
    · intro k hk
      rw [hassoc.pathAddr k fun n hn => hk n (mem_cons_of_mem _ hn)]
      show (p.pathAddr.insert (key ++ [name]) _).get? k = p.pathAddr.get? k
      rw [OrdMap.get?_insert, if_neg (hk name mem_cons_self)]
    · rw [hassoc.relocations]

/-- What moving the datasets of a group does, with the new address of each. -/
structure WritesPlaced (writes : List RelocatedDataset) (region region' : List LinkRecord)
    (p p' : Placement) (moved : List (RelocatedDataset × ObjectId)) : Prop where
  moved_writes : moved.map Prod.fst = writes
  lookup : lookupLink region' =
    overrideWith (moved.map fun e => (e.1.link, e.2)) (lookupLink region)
  region_names : linkNames region' = linkNames region
  objects : p.objects.Extends p'.objects (moved.map Prod.snd)
  copies : ∀ e ∈ moved, ∃ o, p'.objects.get? e.2 = some o ∧
    ∀ source, p.objects.get? e.1.source = some source → o = source
  pathAddr : p'.pathAddr = p.pathAddr
  relocated : ∀ x y, p'.relocations.get? x = some y → p.relocations.get? x = some y ∨
    ∃ e ∈ moved, e.1.source = x ∧ e.2 = y
  kept : ∀ x, (p.relocations.get? x).isSome → (p'.relocations.get? x).isSome
  moves : ∀ e ∈ moved, (p'.relocations.get? e.1.source).isSome

/-- Every moved dataset is copied and its link repointed. -/
lemma placeWrites_spec (halloc : FreshAlloc alloc) {writes : List RelocatedDataset}
    {region region' : List LinkRecord} {p p' : Placement} (hnd : (linkNames region).Nodup)
    (hfront : linkNames located <+: linkNames region)
    (h : placeWrites alloc (writes.map fun w => (w, patchField located w.link)) region p =
      .ok (region', p')) : ∃ moved, WritesPlaced writes region region' p p' moved := by
  induction writes generalizing region region' p p' with
  | nil =>
    cases h
    exact ⟨[], rfl, rfl, rfl, .refl _, by simp, rfl, fun _ _ h => .inl h, fun _ h => h, by simp⟩
  | cons w writes ih =>
    obtain ⟨patched, hpatch, h⟩ := bind_eq_ok.mp h
    obtain ⟨hmem, rfl⟩ := patchLink_ok hnd hfront hpatch
    have hnames := linkNames_retarget w.link
      (p.place alloc ((p.objects.get? w.source).getD .dataset)).1 region
    obtain ⟨moved, hmoved⟩ := ih (hnames ▸ hnd) (hnames ▸ hfront) h
    have hext := place_extends halloc p ((p.objects.get? w.source).getD .dataset)
    have hinsert : ∀ x addr, (p.relocations.insert w.source addr).get? x =
        if x = w.source then some addr else p.relocations.get? x :=
      fun x addr => OrdMap.get?_insert _ _ _ _
    refine ⟨(w, (p.place alloc ((p.objects.get? w.source).getD .dataset)).1) :: moved,
      ?_, ?_, ?_, ?_, ?_, ?_, ?_, ?_, ?_⟩
    · rw [map_cons, hmoved.moved_writes]
    · rw [hmoved.lookup, lookupLink_retarget hmem]
      rfl
    · exact hmoved.region_names.trans hnames
    · exact hext.trans hmoved.objects
    · refine forall_mem_cons.mpr ⟨?_, fun e he => ?_⟩
      · refine ⟨_, hmoved.objects.grows (place_object p _), fun source hsrc => ?_⟩
        rw [hsrc]
        rfl
      · obtain ⟨o, ho, hcopy⟩ := hmoved.copies e he
        exact ⟨o, ho, fun source hsrc => hcopy source (hext.grows hsrc)⟩
    · rw [hmoved.pathAddr]
    · intro x y hx
      rcases hmoved.relocated x y hx with hbefore | ⟨e, he, hsrc⟩
      · rw [show _ = _ from hinsert x _] at hbefore
        split at hbefore
        · exact .inr ⟨_, mem_cons_self, ‹x = w.source›.symm, Option.some_inj.mp hbefore⟩
        · exact .inl hbefore
      · exact .inr ⟨e, mem_cons_of_mem _ he, hsrc⟩
    · intro x hx
      apply hmoved.kept
      rw [show _ = _ from hinsert x _]
      split
      · rfl
      · exact hx
    · refine forall_mem_cons.mpr ⟨hmoved.kept _ ?_, hmoved.moves⟩
      rw [show _ = _ from hinsert _ _, if_pos rfl]
      rfl

variable {p : Placement}

/-- The address of a child is the one recorded for its path. -/
lemma childAddr_ok {path : ObjectPath} {addr : ObjectId} (h : p.childAddr path = .ok addr) :
    p.pathAddr.get? path = some addr := by
  grind [childAddr]

@[simp] lemma replacedLeaves_insert (path : ObjectPath) (leaf : String)
    (children : List ChildLink) :
    replacedLeaves (.insert path leaf :: children) = replacedLeaves children := rfl

@[simp] lemma replacedLeaves_replace (path : ObjectPath) (leaf : String)
    (children : List ChildLink) :
    replacedLeaves (.replace path leaf :: children) = leaf :: replacedLeaves children := rfl

/-- What linking the child groups does, with the address of each. -/
structure ChildrenLinked (children : List ChildLink) (region region' : List LinkRecord)
    (p : Placement) (assoc : List (ChildLink × ObjectId)) : Prop where
  assoc_children : assoc.map Prod.fst = children
  addresses : ∀ e ∈ assoc, p.pathAddr.get? e.1.path = some e.2
  lookup : lookupLink region' =
    overrideWith (assoc.map fun e => (e.1.leaf, e.2)) (lookupLink region)
  region_names : linkNames region' = linkNames region ++ insertedLeaves children

/-- Every dirty child group is linked at its new address. -/
lemma linkChildren_spec {children : List ChildLink} {region region' : List LinkRecord}
    (hnd : (linkNames region ++ insertedLeaves children).Nodup)
    (hfront : linkNames located <+: linkNames region)
    (h : p.linkChildren children ((replacedLeaves children).map (patchField located)) region =
      .ok region') : ∃ assoc, ChildrenLinked children region region' p assoc := by
  induction children generalizing region region' with
  | nil =>
    cases h
    exact ⟨[], rfl, by simp, rfl, by simp [insertedLeaves]⟩
  | cons child children ih =>
    cases child with
    | insert path leaf =>
      obtain ⟨addr, haddr, h⟩ := bind_eq_ok.mp h
      have hnames := linkNames_concat region ⟨leaf, .hard addr false⟩
      have hnew : leaf ∉ linkNames region :=
        fun hmem => disjoint_of_nodup_append hnd hmem mem_cons_self
      rw [insertedLeaves_insert, append_cons, ← hnames] at hnd
      have hlonger := hfront.trans (hnames ▸ prefix_append _ [leaf])
      obtain ⟨assoc, hassoc⟩ := ih hnd hlonger h
      refine ⟨(.insert path leaf, addr) :: assoc, ?_, ?_, ?_, ?_⟩
      · rw [map_cons, hassoc.assoc_children]
      · exact forall_mem_cons.mpr ⟨childAddr_ok haddr, hassoc.addresses⟩
      · rw [hassoc.lookup, lookupLink_append hnew]
        rfl
      · rw [hassoc.region_names, hnames, ← append_cons]
        rfl
    | replace path leaf =>
      obtain ⟨addr, haddr, h⟩ := bind_eq_ok.mp h
      obtain ⟨patched, hpatch, h⟩ := bind_eq_ok.mp h
      have hreg : (linkNames region).Nodup := (nodup_append.mp hnd).1
      obtain ⟨hmem, rfl⟩ := patchLink_ok hreg hfront hpatch
      have hnames := linkNames_retarget leaf addr region
      obtain ⟨assoc, hassoc⟩ := ih (by rw [hnames]; exact hnd) (by rw [hnames]; exact hfront) h
      refine ⟨(.replace path leaf, addr) :: assoc, ?_, ?_, ?_, ?_⟩
      · rw [map_cons, hassoc.assoc_children]
      · exact forall_mem_cons.mpr ⟨childAddr_ok haddr, hassoc.addresses⟩
      · rw [hassoc.lookup, lookupLink_retarget hmem]
        rfl
      · rw [hassoc.region_names, hnames]
        rfl

end Placement

/-! ## One group -/

/-- Where a group, its new datasets and its moved datasets were placed, and the links it got. -/
structure GroupPlacement where
  addr : ObjectId
  links : List LinkRecord
  datasets : List (String × ObjectId)
  moved : List (RelocatedDataset × ObjectId)

def GroupPlacement.addresses (g : GroupPlacement) : List ObjectId :=
  g.datasets.map Prod.snd ++ g.moved.map Prod.snd ++ [g.addr]

/-- The links of a rebuilt group: its dirty children at `addrOf`, the moved and the new datasets,
and the old links that are not deleted. -/
structure GroupLinks (tree : PreparedTree) (key : ObjectPath) (node : Node)
    (addrOf : ObjectPath → Option ObjectId) (g : GroupPlacement) : Prop where
  nodup : (linkNames g.links).Nodup
  datasets_names : g.datasets.map Prod.fst = datasetsOf tree.staged key
  moved_writes : g.moved.map Prod.fst = node.writes
  child : ∀ n, tree.HasKey (key ++ [n]) →
    ∃ addr, addrOf (key ++ [n]) = some addr ∧ lookupLink g.links n = some (.hard addr false)
  write : ∀ e ∈ g.moved, ¬ tree.HasKey (key ++ [e.1.link]) →
    lookupLink g.links e.1.link = some (.hard e.2 false)
  dataset : ∀ e ∈ g.datasets, e.1 ∉ node.writes.map RelocatedDataset.link →
    lookupLink g.links e.1 = some (.hard e.2 false)
  other : ∀ n, ¬ tree.HasKey (key ++ [n]) → n ∉ node.writes.map RelocatedDataset.link →
    n ∉ datasetsOf tree.staged key → lookupLink g.links n =
      if key ++ [n] ∈ tree.staged.deletes then none else lookupLink node.region n

/-- What rebuilding one group does. -/
structure GroupPlaced (tree : PreparedTree) (key : ObjectPath) (node : Node) (p p' : Placement)
    (g : GroupPlacement) : Prop where
  links : GroupLinks tree key node p.pathAddr.get? g
  objects : p.objects.Extends p'.objects g.addresses
  header : p'.objects.get? g.addr = some (.group g.links)
  datasets : ∀ e ∈ g.datasets, p'.objects.get? e.2 = some .dataset
  copies : ∀ e ∈ g.moved, ∃ o, p'.objects.get? e.2 = some o ∧
    ∀ source, p.objects.get? e.1.source = some source → o = source
  moved_ne : ∀ e ∈ g.moved, e.2 ≠ g.addr
  pathAddr_key : p'.pathAddr.get? key = some g.addr
  pathAddr : ∀ k, tree.HasKey k → k ≠ key → p'.pathAddr.get? k = p.pathAddr.get? k
  relocated : ∀ x y, p'.relocations.get? x = some y → p.relocations.get? x = some y ∨
    ∃ e ∈ g.moved, e.1.source = x ∧ e.2 = y
  kept : ∀ x, (p.relocations.get? x).isSome → (p'.relocations.get? x).isSome
  moves : ∀ w ∈ node.writes, (p'.relocations.get? w.source).isSome

section

variable {file : File} {staged : StagedEdits} {tree : PreparedTree} {key : ObjectPath} {node : Node}
  {alloc : OrdMap ObjectId FileObject → ObjectId} {p p' : Placement}

/-- The names of a rebuilt group are distinct: what it keeps, its new datasets and new groups. -/
lemma names_nodup (h : tree.Planned file staged) (hmem : (key, node) ∈ tree.groups) :
    (linkNames (node.region.filter fun r =>
        decide (r.name ∉ (node.deletes.map PlannedDeletion.name).dedup)) ++
      (datasetsOf staged key ++ insertedLeaves (childLinks tree.groups key))).Nodup := by
  rw [nodup_append]
  refine ⟨?_, (h.added hmem).1, ?_⟩
  · exact (h.region_nodup hmem).sublist (filter_sublist.map _)
  · rintro n hkept _ hadded rfl
    obtain ⟨r, hr, rfl⟩ := mem_map.mp hkept
    obtain ⟨hr, hnot⟩ := mem_filter.mp hr
    have hdel := (h.added hmem).2 r.name hadded (mem_map_of_mem hr)
    rw [← h.deletes hmem, ← mem_dedup] at hdel
    exact of_decide_eq_true hnot hdel

/-- The links of a group after its datasets, moves and children are those of a rebuilt one. -/
lemma groupLinks_of (h : tree.Planned file staged) (hmem : (key, node) ∈ tree.groups)
    {kept : List LinkRecord} {p₁ p₂ : Placement} {datasets : List (String × ObjectId)}
    {moved : List (RelocatedDataset × ObjectId)} {children : List (ChildLink × ObjectId)}
    (hkept : ∀ n, lookupLink kept n =
      if key ++ [n] ∈ staged.deletes then none else lookupLink node.region n)
    (hdatasets : Placement.DatasetsPlaced key (datasetsOf staged key) kept located p p₁ datasets)
    (hwrites : Placement.WritesPlaced node.writes located region p₁ p₂ moved)
    (hchildren : Placement.ChildrenLinked (childLinks tree.groups key) region links p₂ children)
    (hnd : (linkNames links).Nodup) (addr : ObjectId) :
    GroupLinks tree key node p.pathAddr.get? ⟨addr, links, datasets, moved⟩ := by
  have hlookup : lookupLink links = overrideWith (children.map fun e => (e.1.leaf, e.2))
      (overrideWith (moved.map fun e => (e.1.link, e.2))
        (overrideWith datasets (lookupLink kept))) := by
    rw [hchildren.lookup, hwrites.lookup, hdatasets.lookup]
  have hleaves : (children.map fun e => (e.1.leaf, e.2)).map Prod.fst =
      (childLinks tree.groups key).map ChildLink.leaf := by
    rw [← hchildren.assoc_children, map_map, map_map]
    rfl
  have hlinks : (moved.map fun e => (e.1.link, e.2)).map Prod.fst =
      node.writes.map RelocatedDataset.link := by
    rw [← hwrites.moved_writes, map_map, map_map]
    rfl
  -- a name without a dirty child is not among the child links
  have hnotchild : ∀ {n}, ¬ tree.HasKey (key ++ [n]) →
      n ∉ (children.map fun e => (e.1.leaf, e.2)).map Prod.fst := by
    intro n hn hleaf
    rw [hleaves, mem_map] at hleaf
    obtain ⟨child, hchild, rfl⟩ := hleaf
    obtain ⟨n, node', hnode, rfl⟩ := mem_childLinks.mp hchild
    apply hn
    split <;> exact ⟨node', hnode⟩
  refine ⟨hnd, ?_, hwrites.moved_writes, ?_, ?_, ?_, ?_⟩
  · rw [h.staged_eq]
    exact hdatasets.assoc_names
  · rintro n ⟨node', hnode⟩
    have hchild := mem_childLinks.mpr ⟨n, node', hnode, rfl⟩
    rw [← hchildren.assoc_children, mem_map] at hchild
    obtain ⟨e, he, heq⟩ := hchild
    have hpath : e.1.path = key ++ [n] := by rw [heq]; split <;> rfl
    have hleaf : e.1.leaf = n := by rw [heq]; split <;> rfl
    refine ⟨e.2, ?_, ?_⟩
    · rw [← hpath, ← hchildren.addresses e he, hwrites.pathAddr, hdatasets.pathAddr]
      intro m hm heq
      exact h.not_hasKey_dataset hmem hm ⟨node', heq ▸ hpath ▸ hnode⟩
    · have hover := overrideWith_of_mem (f := overrideWith (moved.map fun e => (e.1.link, e.2))
        (overrideWith datasets (lookupLink kept)))
        (hleaves ▸ childLinks_leaves_nodup h.keys_nodup key)
        (mem_map_of_mem he)
      rw [← hlookup, hleaf] at hover
      exact hover
  · intro e he hkey
    show lookupLink links e.1.link = _
    rw [hlookup, overrideWith_of_not_mem (hnotchild hkey)]
    exact overrideWith_of_mem (hlinks ▸ h.writes_nodup hmem)
      (mem_map_of_mem he)
  · intro e he hwrite
    have hname : e.1 ∈ datasetsOf staged key :=
      hdatasets.assoc_names ▸ mem_map_of_mem he
    have hdistinct : (datasets.map Prod.fst).Nodup := by
      have hadded := (h.added hmem).1
      rw [addedNames_eq, nodup_append] at hadded
      exact hdatasets.assoc_names ▸ hadded.1
    show lookupLink links e.1 = _
    rw [hlookup, overrideWith_of_not_mem (hnotchild (h.not_hasKey_dataset hmem hname)),
      overrideWith_of_not_mem (hlinks ▸ hwrite)]
    exact overrideWith_of_mem hdistinct he
  · intro n hkey hwrite hdataset
    rw [h.staged_eq] at hdataset ⊢
    show lookupLink links n = _
    rw [hlookup, overrideWith_of_not_mem (hnotchild hkey),
      overrideWith_of_not_mem (hlinks ▸ hwrite),
      overrideWith_of_not_mem (hdatasets.assoc_names ▸ hdataset), hkept]

/-- Rebuilding a planned group places it. -/
lemma placeGroup_spec (h : tree.Planned file staged) (halloc : FreshAlloc alloc)
    (hmem : (key, node) ∈ tree.groups) (hplace : placeGroup alloc tree (key, node) p = .ok p') :
    ∃ g, GroupPlaced tree key node p p' g := by
  obtain ⟨kept, hkept, hplace⟩ := bind_eq_ok.mp hplace
  have hnd := names_nodup h hmem
  rw [← removeLinks_ok (h.region_nodup hmem) hkept, ← append_assoc] at hnd
  have hlookup : ∀ n, lookupLink kept n =
      if key ++ [n] ∈ staged.deletes then none else lookupLink node.region n := by
    intro n
    rw [removeLinks_ok (h.region_nodup hmem) hkept, lookupLink_filter (p := fun n =>
      decide (n ∉ (node.deletes.map PlannedDeletion.name).dedup))]
    simp only [mem_dedup, h.deletes hmem, decide_eq_true_eq, ite_not]
  rw [h.staged_eq] at hplace
  simp only at hplace
  cases hplaced : Placement.placeDatasets alloc key (datasetsOf staged key) kept p with
  | mk located p₁ =>
  rw [hplaced] at hplace
  obtain ⟨⟨region, p₂⟩, hwrites, hplace⟩ := bind_eq_ok.mp hplace
  obtain ⟨links, hchildren, hplace⟩ := bind_eq_ok.mp hplace
  cases hplace
  obtain ⟨datasets, hdatasets⟩ :=
    Placement.placeDatasets_spec halloc (nodup_append.mp hnd).1 hplaced
  rw [← hdatasets.region_names] at hnd
  obtain ⟨moved, hmoved⟩ := Placement.placeWrites_spec halloc (nodup_append.mp hnd).1
    prefix_rfl hwrites
  rw [← hmoved.region_names] at hnd
  obtain ⟨children, hlinked⟩ := Placement.linkChildren_spec hnd
    (by rw [hmoved.region_names]) hchildren
  have hext := Placement.place_extends halloc p₂ (.group links)
  refine ⟨⟨(p₂.place alloc (.group links)).1, links, datasets, moved⟩,
    groupLinks_of h hmem hlookup hdatasets hmoved hlinked (hlinked.region_names ▸ hnd) _,
    (hdatasets.objects.trans hmoved.objects).trans hext, ?_, ?_, ?_, ?_, ?_, ?_, ?_, ?_, ?_⟩
  · exact Placement.place_object p₂ _
  · intro e he
    exact hext.grows (hmoved.objects.grows (hdatasets.datasets e he))
  · intro e he
    obtain ⟨o, ho, hcopy⟩ := hmoved.copies e he
    exact ⟨o, hext.grows ho, fun source hsrc =>
      hcopy source (hdatasets.objects.grows hsrc)⟩
  · intro e he heq
    -- the header is placed after the copies
    obtain ⟨o, ho, -⟩ := hmoved.copies e he
    rw [heq, hext.fresh _ mem_cons_self] at ho
    cases ho
  · rw [OrdMap.get?_insert, if_pos rfl]
  · intro k hk hne
    rw [OrdMap.get?_insert, if_neg hne]
    show p₂.pathAddr.get? k = _
    rw [hmoved.pathAddr, hdatasets.pathAddr]
    rintro n hn rfl
    exact h.not_hasKey_dataset hmem hn hk
  · intro x y hxy
    rw [← hdatasets.relocations]
    exact hmoved.relocated x y hxy
  · intro x hx
    rw [← hdatasets.relocations] at hx
    exact hmoved.kept x hx
  · intro w hw
    rw [← hmoved.moved_writes, mem_map] at hw
    obtain ⟨e, he, rfl⟩ := hw
    exact hmoved.moves e he

end

/-! ## All groups -/

/-- The objects hold the groups of `done`, each as `G` says. -/
structure HoldsGroups (file : File) (tree : PreparedTree) (done : List (ObjectPath × Node))
    (image : OrdMap ObjectId FileObject) (addrOf : ObjectPath → Option ObjectId)
    (G : ObjectPath → GroupPlacement) : Prop where
  objects : ∃ new, file.objects.Extends image new ∧
    ∀ x ∈ new, ∃ group ∈ done, x ∈ (G group.1).addresses
  fresh : ∀ group ∈ done, ∀ x ∈ (G group.1).addresses, file.objects.get? x = none
  links : ∀ group ∈ done, GroupLinks tree group.1 group.2 addrOf (G group.1)
  header : ∀ group ∈ done, image.get? (G group.1).addr = some (.group (G group.1).links)
  datasets : ∀ group ∈ done, ∀ e ∈ (G group.1).datasets, image.get? e.2 = some .dataset
  copies : ∀ group ∈ done, ∀ e ∈ (G group.1).moved, ∃ o, image.get? e.2 = some o ∧
    ∀ source, file.objects.get? e.1.source = some source → o = source
  distinct : ∀ a ∈ done, ∀ b ∈ done, (G a.1).addr = (G b.1).addr → a.1 = b.1
  moved_ne : ∀ a ∈ done, ∀ b ∈ done, ∀ e ∈ (G a.1).moved, e.2 ≠ (G b.1).addr

/-- The groups of `done` are placed, each as `G` says. -/
structure PlacedGroups (file : File) (tree : PreparedTree) (done : List (ObjectPath × Node))
    (p : Placement) (G : ObjectPath → GroupPlacement) : Prop
    extends HoldsGroups file tree done p.objects p.pathAddr.get? G where
  addr : ∀ group ∈ done, p.pathAddr.get? group.1 = some (G group.1).addr
  pending : ∀ k, tree.HasKey k → k ∉ done.map Prod.fst → p.pathAddr.get? k = none
  relocated : ∀ x y, p.relocations.get? x = some y →
    ∃ group ∈ done, ∃ e ∈ (G group.1).moved, e.1.source = x ∧ e.2 = y
  moves : ∀ group ∈ done, ∀ w ∈ group.2.writes, (p.relocations.get? w.source).isSome

variable {g : GroupPlacement}

/-- More known addresses do not change the links of a group. -/
lemma GroupLinks.mono {tree : PreparedTree} {key : ObjectPath} {node : Node}
    {addrOf addrOf' : ObjectPath → Option ObjectId} (h : GroupLinks tree key node addrOf g)
    (hmono : ∀ k addr, tree.HasKey k → addrOf k = some addr → addrOf' k = some addr) :
    GroupLinks tree key node addrOf' g := by
  refine ⟨h.nodup, h.datasets_names, h.moved_writes, ?_, h.write, h.dataset, h.other⟩
  intro n hn
  obtain ⟨addr, haddr, hlookup⟩ := h.child n hn
  exact ⟨addr, hmono _ addr hn haddr, hlookup⟩

section

variable {file : File} {staged : StagedEdits} {tree : PreparedTree}
  {done rest : List (ObjectPath × Node)} {p p' : Placement} {G : ObjectPath → GroupPlacement}

/-- The order of the groups does not matter. -/
lemma HoldsGroups.perm {image : OrdMap ObjectId FileObject}
    {addrOf addrOf' : ObjectPath → Option ObjectId} (h : HoldsGroups file tree done image addrOf G)
    (hmem : ∀ {a}, a ∈ rest ↔ a ∈ done)
    (hmono : ∀ k addr, tree.HasKey k → addrOf k = some addr → addrOf' k = some addr) :
    HoldsGroups file tree rest image addrOf' G := by
  constructor
  case objects =>
    simp only [hmem]
    exact h.objects
  case fresh => exact fun a ha => h.fresh a (hmem.mp ha)
  case links => exact fun a ha => (h.links a (hmem.mp ha)).mono hmono
  case header => exact fun a ha => h.header a (hmem.mp ha)
  case datasets => exact fun a ha => h.datasets a (hmem.mp ha)
  case copies => exact fun a ha => h.copies a (hmem.mp ha)
  case distinct => exact fun a ha b hb => h.distinct a (hmem.mp ha) b (hmem.mp hb)
  case moved_ne => exact fun a ha b hb => h.moved_ne a (hmem.mp ha) b (hmem.mp hb)

/-- Before the first group nothing is placed. -/
lemma placedGroups_nil (file : File) (tree : PreparedTree) (G : ObjectPath → GroupPlacement) :
    PlacedGroups file tree [] ⟨file.objects, .empty, .empty⟩ G := by
  refine ⟨⟨⟨[], .refl _, by simp⟩, ?_, ?_, ?_, ?_, ?_, ?_, ?_⟩, ?_, ?_, ?_, ?_⟩
  all_goals simp

section

variable (h : PlacedGroups file tree done p G) {key : ObjectPath} {node : Node}
  (hkey : key ∉ done.map Prod.fst) (hg : GroupPlaced tree key node p p' g)

omit h hg in
include hkey in
/-- The groups placed before keep their placement. -/
lemma update_done : ∀ a ∈ done, Function.update G key g a.1 = G a.1 := by
  intro a ha
  have hne : a.1 ≠ key := fun heq => hkey (heq ▸ mem_map_of_mem ha)
  exact Function.update_of_ne hne _ _

omit h hg in
include hkey in
/-- What holds of the groups placed before and of the new one holds of all. -/
lemma forall_update {P : ObjectPath × Node → GroupPlacement → Prop}
    (hdone : ∀ a ∈ done, P a (G a.1)) (hlast : P (key, node) g) :
    ∀ a ∈ done ++ [(key, node)], P a (Function.update G key g a.1) := by
  rw [forall_mem_append, forall_mem_singleton, Function.update_self]
  exact ⟨fun a ha => update_done hkey a ha ▸ hdone a ha, hlast⟩

include h hkey hg

/-- No address of a group changes. -/
lemma PlacedGroups.addr_mono {k : ObjectPath} {addr : ObjectId} (hk : tree.HasKey k)
    (haddr : p.pathAddr.get? k = some addr) : p'.pathAddr.get? k = some addr := by
  rw [hg.pathAddr k hk]
  · exact haddr
  · rintro rfl
    rw [h.pending k hk hkey] at haddr
    cases haddr

omit h hkey in
/-- Nothing had an address of the new group. -/
lemma GroupPlaced.not_mem_addresses {x : ObjectId} {o : FileObject}
    (hx : p.objects.get? x = some o) : x ∉ g.addresses := by
  intro hin
  rw [hg.objects.fresh x hin] at hx
  cases hx

/-- Placing a group keeps the objects of the groups placed before. -/
lemma PlacedGroups.holds_step : HoldsGroups file tree (done ++ [(key, node)]) p'.objects
    p'.pathAddr.get? (Function.update G key g) := by
  obtain ⟨new, hext, htaken⟩ := h.objects
  have hmono : ∀ k addr, tree.HasKey k → p.pathAddr.get? k = some addr →
      p'.pathAddr.get? k = some addr := fun _ _ => h.addr_mono hkey hg
  have haddr : g.addr ∈ g.addresses := mem_append_right _ mem_cons_self
  have hne : ∀ a ∈ done, (G a.1).addr ≠ g.addr :=
    fun a ha heq => hg.not_mem_addresses (h.header a ha) (heq ▸ haddr)
  constructor
  case objects =>
    refine ⟨new ++ g.addresses, hext.trans hg.objects, forall_mem_append.mpr ⟨?_, ?_⟩⟩
    · intro x hx
      obtain ⟨a, ha, hxa⟩ := htaken x hx
      exact ⟨a, mem_append_left _ ha, update_done hkey a ha ▸ hxa⟩
    · intro x hx
      refine ⟨(key, node), mem_append_right _ mem_cons_self, ?_⟩
      rwa [Function.update_self]
  case fresh =>
    exact forall_update (P := fun _ g => ∀ x ∈ g.addresses, file.objects.get? x = none) hkey h.fresh
      fun x hx => hext.absent (hg.objects.fresh x hx)
  case links =>
    exact forall_update hkey
      (fun a ha => (h.links a ha).mono hmono) (hg.links.mono hmono)
  case header =>
    exact forall_update (P := fun _ g => p'.objects.get? g.addr = some (.group g.links)) hkey
      (fun a ha => hg.objects.grows (h.header a ha)) hg.header
  case datasets =>
    exact forall_update (P := fun _ g => ∀ e ∈ g.datasets, p'.objects.get? e.2 = some .dataset) hkey
      (fun a ha e he => hg.objects.grows (h.datasets a ha e he)) hg.datasets
  case copies =>
    apply forall_update (P := fun _ g => ∀ e ∈ g.moved, ∃ o, p'.objects.get? e.2 = some o ∧
      ∀ source, file.objects.get? e.1.source = some source → o = source) hkey
    · intro a ha e he
      obtain ⟨o, ho, hcopy⟩ := h.copies a ha e he
      exact ⟨o, hg.objects.grows ho, hcopy⟩
    · intro e he
      obtain ⟨o, ho, hcopy⟩ := hg.copies e he
      exact ⟨o, ho, fun source hsrc => hcopy source (hext.grows hsrc)⟩
  case distinct =>
    apply forall_update (P := fun a ga => ∀ b ∈ done ++ [(key, node)],
      ga.addr = (Function.update G key g b.1).addr → a.1 = b.1) hkey
    · exact fun a ha => forall_update (P := fun b gb => (G a.1).addr = gb.addr → a.1 = b.1) hkey
        (h.distinct a ha) fun heq => absurd heq (hne a ha)
    · exact forall_update (P := fun b gb => g.addr = gb.addr → key = b.1) hkey
        (fun b hb heq => absurd heq.symm (hne b hb)) fun _ => rfl
  case moved_ne =>
    apply forall_update (P := fun _ ga => ∀ b ∈ done ++ [(key, node)], ∀ e ∈ ga.moved,
      e.2 ≠ (Function.update G key g b.1).addr) hkey
    · intro a ha
      apply forall_update (P := fun _ gb => ∀ e ∈ (G a.1).moved, e.2 ≠ gb.addr) hkey (h.moved_ne a ha)
      intro e he heq
      obtain ⟨o, ho, -⟩ := h.copies a ha e he
      exact hg.not_mem_addresses ho (heq ▸ haddr)
    · apply forall_update (P := fun _ gb => ∀ e ∈ g.moved, e.2 ≠ gb.addr) hkey _ hg.moved_ne
      intro b hb e he heq
      apply hg.not_mem_addresses (h.header b hb)
      rw [← heq]
      exact mem_append_left _ (mem_append_right _ (mem_map_of_mem he))

/-- Placing a group keeps what is said of the groups placed before. -/
lemma PlacedGroups.step (hdone : ∀ a ∈ done, a ∈ tree.groups) :
    PlacedGroups file tree (done ++ [(key, node)]) p' (Function.update G key g) := by
  refine ⟨h.holds_step hkey hg, ?_, ?_, ?_, ?_⟩
  · exact forall_update (P := fun a g => p'.pathAddr.get? a.1 = some g.addr) hkey
      (fun a ha => h.addr_mono hkey hg ⟨a.2, hdone a ha⟩ (h.addr a ha)) hg.pathAddr_key
  · intro k hk hnot
    rw [map_append, mem_append, not_or] at hnot
    rw [hg.pathAddr k hk (by simpa using hnot.2)]
    exact h.pending k hk hnot.1
  · intro x y hxy
    rcases hg.relocated x y hxy with hbefore | ⟨e, he, hsrc⟩
    · obtain ⟨a, ha, e, he, hsrc⟩ := h.relocated x y hbefore
      exact ⟨a, mem_append_left _ ha, e, update_done hkey a ha ▸ he, hsrc⟩
    · refine ⟨(key, node), mem_append_right _ mem_cons_self, e, ?_, hsrc⟩
      rwa [Function.update_self]
  · rw [forall_mem_append, forall_mem_singleton]
    exact ⟨fun a ha w hw => hg.kept _ (h.moves a ha w hw), hg.moves⟩

end

/-- A run over the groups places every one of them. -/
lemma placeGroups_spec {alloc : OrdMap ObjectId FileObject → ObjectId}
    (hplan : tree.Planned file staged) (halloc : FreshAlloc alloc) {done : List (ObjectPath × Node)}
    {p p' : Placement} {G : ObjectPath → GroupPlacement} (hnd : ((done ++ rest).map Prod.fst).Nodup)
    (hmem : ∀ a ∈ done ++ rest, a ∈ tree.groups) (h : PlacedGroups file tree done p G)
    (hplace : placeGroups alloc tree rest p = .ok p') :
    ∃ G', PlacedGroups file tree (done ++ rest) p' G' := by
  induction rest generalizing done p p' G with
  | nil =>
    cases hplace
    exact ⟨G, by rw [append_nil]; exact h⟩
  | cons group rest ih =>
    obtain ⟨p₁, hgroup, hplace⟩ := bind_eq_ok.mp hplace
    have hgroup_mem := hmem group (mem_append_right _ mem_cons_self)
    obtain ⟨g, hg⟩ := placeGroup_spec hplan halloc hgroup_mem hgroup
    have hkey : group.1 ∉ done.map Prod.fst := by
      rw [map_append] at hnd
      exact fun hin => disjoint_of_nodup_append hnd hin mem_cons_self
    have hstep := h.step hkey hg fun a ha => hmem a (mem_append_left _ ha)
    rw [append_cons] at hnd hmem ⊢
    exact ih hnd hmem hstep hplace

end

/-! ## The whole commit -/

/-- Each replaced header is recorded as moved to the group that replaces it. -/
lemma recordSuperseded_spec {l : List (ObjectPath × ObjectId)} {p p' : Placement}
    (h : recordSuperseded l p = .ok p') :
    p'.objects = p.objects ∧ p'.pathAddr = p.pathAddr ∧
      (∀ x, x ∉ l.map Prod.snd → p'.relocations.get? x = p.relocations.get? x) ∧
      ∀ x ∈ l.map Prod.snd, ∃ e ∈ l, e.2 = x ∧ ∃ addr, p.pathAddr.get? e.1 = some addr ∧
        p'.relocations.get? x = some addr := by
  induction l generalizing p p' with
  | nil =>
    cases h
    exact ⟨rfl, rfl, fun _ _ => rfl, by simp⟩
  | cons e l ih =>
    unfold recordSuperseded at h
    cases haddr : p.pathAddr.get? e.1 with
    | none => rw [haddr] at h; cases h
    | some addr =>
      rw [haddr] at h
      obtain ⟨hobjects, hpathAddr, hother, hrec⟩ := ih h
      refine ⟨hobjects, hpathAddr, fun x hx => ?_, fun x hx => ?_⟩
      · rw [map_cons, mem_cons, not_or] at hx
        rw [hother x hx.2]
        show (p.relocations.insert e.2 addr).get? x = _
        rw [OrdMap.get?_insert, if_neg hx.1]
      · -- the last entry of an object counts
        by_cases hlater : x ∈ l.map Prod.snd
        · obtain ⟨e', he', hrest⟩ := hrec x hlater
          exact ⟨e', mem_cons_of_mem _ he', hrest⟩
        · obtain rfl : x = e.2 := (mem_cons.mp hx).resolve_right hlater
          refine ⟨e, mem_cons_self, rfl, addr, haddr, ?_⟩
          rw [hother _ hlater]
          show (p.relocations.insert e.2 addr).get? e.2 = _
          rw [OrdMap.get?_insert, if_pos rfl]

/-- The file and the replacements a commit leaves, with each group as `G` says. -/
structure TreeApplied (file : File) (staged : StagedEdits) (tree : PreparedTree)
    (applied : AppliedTree) (G : ObjectPath → GroupPlacement) : Prop
    extends HoldsGroups file tree tree.groups applied.file.objects (fun k => some (G k).addr) G where
  plan : tree.Planned file staged
  root : applied.file.root = (G []).addr
  superseded : ∀ group ∈ tree.groups, ∀ x, group.2.replaces = some x →
    ∃ a ∈ tree.groups, a.2.replaces = some x ∧ applied.relocations.get? x = some (G a.1).addr
  relocated : ∀ x y, (∀ group ∈ tree.groups, group.2.replaces ≠ some x) →
    applied.relocations.get? x = some y →
      ∃ group ∈ tree.groups, ∃ e ∈ (G group.1).moved, e.1.source = x ∧ e.2 = y
  moves : ∀ group ∈ tree.groups, ∀ w ∈ group.2.writes,
    (applied.relocations.get? w.source).isSome

/-- A header is superseded when some group replaces it. -/
lemma PreparedTree.mem_superseded {tree : PreparedTree} {k : ObjectPath} {x : ObjectId} :
    (k, x) ∈ tree.superseded ↔ ∃ node, (k, node) ∈ tree.groups ∧ node.replaces = some x := by
  simp only [superseded, mem_filterMap, Option.map_eq_some_iff, Prod.exists, Prod.mk.injEq]
  grind

/-- Applying a plan leaves the file it describes. -/
lemma applyTree_applied {file : File} {staged : StagedEdits} {tree : PreparedTree}
    {applied : AppliedTree} {alloc : OrdMap ObjectId FileObject → ObjectId}
    (hplan : tree.Planned file staged) (halloc : FreshAlloc alloc)
    (happly : applyTree alloc file tree = .ok applied) :
    ∃ G, TreeApplied file staged tree applied G := by
  obtain ⟨p, hplace, happly⟩ := bind_eq_ok.mp happly
  obtain ⟨p', hrecord, happly⟩ := bind_eq_ok.mp happly
  obtain ⟨root, hroot, happly⟩ := bind_eq_ok.mp happly
  cases happly
  have hperm : tree.order.Perm tree.groups := perm_insertionSort _ _
  have hmem : ∀ {a}, a ∈ tree.groups ↔ a ∈ tree.order := fun {a} => (hperm.mem_iff).symm
  have hnodup : (([] ++ tree.order).map Prod.fst).Nodup :=
    (hperm.map Prod.fst).nodup_iff.mpr hplan.keys_nodup
  obtain ⟨G, hG⟩ := placeGroups_spec hplan halloc hnodup (fun a ha => hmem.mpr ha)
    (placedGroups_nil file tree fun _ => ⟨0, [], [], []⟩) hplace
  obtain ⟨hobjects, hpathAddr, hother, hrec⟩ := recordSuperseded_spec hrecord
  have hsuperseded : ∀ {x}, x ∈ tree.superseded.map Prod.snd ↔
      ∃ group ∈ tree.groups, group.2.replaces = some x := by
    intro x
    simp only [mem_map, Prod.exists, PreparedTree.mem_superseded]
    grind
  refine ⟨G, ?_, hplan, ?_, ?_, ?_, ?_⟩
  · rw [hobjects]
    apply hG.perm hmem
    rintro k addr ⟨node, hnode⟩ haddr
    rw [hG.addr _ (hmem.mp hnode)] at haddr
    exact haddr
  · obtain ⟨node, hnode, -⟩ := hplan.root
    have haddr := hG.addr _ (hmem.mp hnode)
    rw [← hpathAddr, Placement.childAddr_ok hroot] at haddr
    exact Option.some_inj.mp haddr
  · intro group hgroup x hx
    obtain ⟨e, he, rfl, addr, haddr, hreloc⟩ := hrec x (hsuperseded.mpr ⟨group, hgroup, hx⟩)
    obtain ⟨node, hnode, hrepl⟩ := PreparedTree.mem_superseded.mp he
    refine ⟨_, hnode, hrepl, ?_⟩
    rw [hreloc, ← haddr, hG.addr _ (hmem.mp hnode)]
  · intro x y hnot hreloc
    have hold : x ∉ tree.superseded.map Prod.snd := by
      rw [hsuperseded]
      exact fun ⟨group, hgroup, hx⟩ => hnot group hgroup hx
    rw [hother x hold] at hreloc
    obtain ⟨group, hgroup, he⟩ := hG.relocated x y hreloc
    exact ⟨group, hmem.mpr hgroup, he⟩
  · intro group hgroup w hw
    by_cases hold : w.source ∈ tree.superseded.map Prod.snd
    · obtain ⟨_, _, _, addr, _, hreloc⟩ := hrec _ hold
      rw [hreloc]
      rfl
    · rw [hother _ hold]
      exact hG.moves group (hmem.mp hgroup) w hw

end Hdf5Pure.Edit
