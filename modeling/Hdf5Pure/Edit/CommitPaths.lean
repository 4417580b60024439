import Hdf5Pure.Edit.CommitPlanTheorems

/-!
# The paths of a planned commit

A path survives a commit when its links can be followed without meeting a deletion. While no
surviving path leads back to the root, what the commit rewrites has no other surviving path.
-/

namespace Hdf5Pure.Edit

open List

/-! ## Child links -/

def ChildLink.path : ChildLink → ObjectPath
  | .insert path _ | .replace path _ => path

def ChildLink.leaf : ChildLink → String
  | .insert _ leaf | .replace _ leaf => leaf

def insertedLeaves (children : List ChildLink) : List String :=
  children.filterMap fun child =>
    match child with
    | .insert _ leaf => some leaf
    | .replace _ _ => none

section

variable (path : ObjectPath) (leaf : String) (children : List ChildLink)

@[simp] lemma insertedLeaves_insert :
    insertedLeaves (.insert path leaf :: children) = leaf :: insertedLeaves children := rfl

end

variable {groups : List (ObjectPath × Node)}

variable {parent : ObjectPath} {child : ChildLink} {y : ObjectId}

lemma mem_childLinks : child ∈ childLinks groups parent ↔
      ∃ n node, (parent ++ [n], node) ∈ groups ∧
        child = if node.isNew then .insert (parent ++ [n]) n else .replace (parent ++ [n]) n := by
  unfold childLinks
  rw [mem_filterMap]
  constructor
  · rintro ⟨⟨path, node⟩, hmem, hchild⟩
    cases hsplit : path.splitLeaf with
    | none => rw [hsplit] at hchild; cases hchild
    | some s =>
      rw [hsplit] at hchild
      simp only at hchild
      by_cases hparent : s.1 = parent
      · rw [if_pos hparent, Option.some_inj] at hchild
        obtain rfl := splitLeaf_eq_some.mp hsplit
        subst hparent
        exact ⟨s.2, node, hmem, hchild.symm⟩
      · rw [if_neg hparent] at hchild
        cases hchild
  · rintro ⟨n, node, hmem, rfl⟩
    refine ⟨(parent ++ [n], node), hmem, ?_⟩
    have hsplit : (parent ++ [n]).splitLeaf = some (parent, n) := splitLeaf_eq_some.mpr rfl
    simp only [hsplit, if_pos]

lemma childLinks_paths_sublist (groups : List (ObjectPath × Node)) (parent : ObjectPath) :
    ((childLinks groups parent).map ChildLink.path).Sublist (groups.map Prod.fst) := by
  induction groups with
  | nil => exact .slnil
  | cons group groups ih =>
    unfold childLinks at ih ⊢
    rw [filterMap_cons, map_cons]
    cases hsplit : group.1.splitLeaf with
    | none => exact ih.cons _
    | some s =>
      simp only
      by_cases hparent : s.1 = parent
      · rw [if_pos hparent]
        have hpath : (if group.2.isNew then ChildLink.insert group.1 s.2
            else .replace group.1 s.2).path = group.1 := by
          split <;> rfl
        simp only [map_cons, hpath]
        exact ih.cons_cons _
      · rw [if_neg hparent]
        exact ih.cons _

lemma childLinks_leaves_nodup (h : (groups.map Prod.fst).Nodup) (parent : ObjectPath) :
    ((childLinks groups parent).map ChildLink.leaf).Nodup := by
  apply List.Nodup.of_map fun n => parent ++ [n]
  have hpaths : ((childLinks groups parent).map ChildLink.leaf).map (fun n => parent ++ [n]) =
      (childLinks groups parent).map ChildLink.path := by
    rw [map_map]
    refine map_congr_left fun child hchild => ?_
    obtain ⟨n, node, -, rfl⟩ := mem_childLinks.mp hchild
    split <;> rfl
  rw [hpaths]
  exact h.sublist (childLinks_paths_sublist groups parent)

lemma mem_insertedLeaves {n : String} {node : Node} (hmem : (parent ++ [n], node) ∈ groups)
    (hnew : node.isNew = true) :
    n ∈ insertedLeaves (childLinks groups parent) := by
  apply mem_filterMap.mpr
  refine ⟨.insert (parent ++ [n]) n, ?_, rfl⟩
  exact mem_childLinks.mpr ⟨n, node, hmem, by rw [hnew, if_pos rfl]⟩

lemma addedNames_eq (staged : StagedEdits) (groups : List (ObjectPath × Node)) (key : ObjectPath) :
    addedNames staged groups key = datasetsOf staged key ++ insertedLeaves (childLinks groups key) :=
  rfl

/-! ## Surviving paths -/

namespace File

/-- The hard links of a path lead to an object, none of them deleted. -/
inductive Survives (file : File) (deletes : List ObjectPath) : ObjectPath → ObjectId → Prop where
  | root : Survives file deletes [] file.root
  | step {q : ObjectPath} {x y : ObjectId} {r : LinkRecord} : Survives file deletes q x →
      r ∈ file.linksOf x → r.hardTarget = some y → q ++ [r.name] ∉ deletes →
      Survives file deletes (q ++ [r.name]) y

variable {file : File} {deletes : List ObjectPath}

variable {q : ObjectPath} {x : ObjectId}

lemma Survives.reaches (h : file.Survives deletes q x) : file.Reaches x := by
  induction h with
  | root => exact .refl
  | step _ hr htgt _ ih => exact ih.tail ⟨_, hr, htgt⟩

lemma Survives.inv (h : file.Survives deletes q x) :
    (q = [] ∧ x = file.root) ∨ ∃ k z r, file.Survives deletes k z ∧ r ∈ file.linksOf z ∧
      r.hardTarget = some x ∧ q = k ++ [r.name] ∧ q ∉ deletes := by
  cases h with
  | root => exact .inl ⟨rfl, rfl⟩
  | step hq hr htgt hdel => exact .inr ⟨_, _, _, hq, hr, htgt, rfl, hdel⟩

lemma survives_of_follow {path : ObjectPath} {x : ObjectId}
    (h : file.follow file.root path = some x) (hdel : ∀ d ∈ deletes, ¬ d <+: path) :
    file.Survives deletes path x := by
  induction path using reverseRecOn generalizing x with
  | nil =>
    cases h
    exact .root
  | append_singleton path n ih =>
    obtain ⟨z, hz, hchild⟩ := follow_concat.mp h
    obtain ⟨r, hr, htgt⟩ := Option.bind_eq_some_iff.mp hchild
    obtain ⟨hmem, rfl⟩ := findNamed_name hr
    refine .step (ih hz fun d hd hle => ?_) hmem htgt fun hd => hdel _ hd prefix_rfl
    exact hdel d hd (hle.trans (prefix_append _ _))

end File

/-! ## Dirty groups on surviving paths -/

def PreparedTree.HasKey (tree : PreparedTree) (k : ObjectPath) : Prop :=
  ∃ node, (k, node) ∈ tree.groups

def File.RootUnlinked (file : File) (deletes : List ObjectPath) : Prop :=
  ∀ q, file.Survives deletes q file.root → q = []

namespace PreparedTree

/-- A path whose header moves, with the object it leads to: a group to rewrite or an edited
dataset. -/
inductive Moves (tree : PreparedTree) : ObjectPath → ObjectId → Prop where
  | group {k : ObjectPath} {node : Node} {x : ObjectId} : (k, node) ∈ tree.groups →
      node.replaces = some x → Moves tree k x
  | write {k : ObjectPath} {node : Node} {w : RelocatedDataset} : (k, node) ∈ tree.groups →
      w ∈ node.writes → Moves tree (k ++ [w.link]) w.source

lemma mem_reclaimed {tree : PreparedTree} {x : ObjectId} :
    x ∈ tree.reclaimed ↔ ∃ q, tree.Moves q x := by
  unfold reclaimed superseded
  simp only [mem_append, mem_map, mem_filterMap, mem_flatMap,
    Option.map_eq_some_iff]
  constructor
  · rintro (⟨_, ⟨group, hmem, addr, hrepl, rfl⟩, rfl⟩ | ⟨group, hmem, w, hw, rfl⟩)
    · exact ⟨group.1, .group hmem hrepl⟩
    · exact ⟨group.1 ++ [w.link], .write hmem hw⟩
  · rintro ⟨q, hq⟩
    cases hq with
    | group hmem hrepl => exact .inl ⟨_, ⟨_, hmem, x, hrepl, rfl⟩, rfl⟩
    | write hmem hw => exact .inr ⟨_, hmem, _, hw, rfl⟩

namespace Planned

variable {file : File} {staged : StagedEdits} {tree : PreparedTree} {key : ObjectPath} {node : Node}

lemma node_unique (h : tree.Planned file staged) {node' : Node} (hmem : (key, node) ∈ tree.groups)
    (hmem' : (key, node') ∈ tree.groups) : node = node' :=
  (Prod.mk.inj (inj_on_of_nodup_map h.keys_nodup hmem hmem' rfl)).2

lemma region_nodup (h : tree.Planned file staged) (hmem : (key, node) ∈ tree.groups) :
    (node.region.map LinkRecord.name).Nodup := by
  cases hnew : node.isNew with
  | true =>
    rw [(h.created hmem hnew).1]
    exact nodup_nil
  | false =>
    obtain ⟨x, -, -, -, hnd, -⟩ := h.existing hmem hnew
    exact hnd

variable {n : String} {q : ObjectPath}

/-- A name the group gains is free, or its link is deleted. -/
lemma added_deleted (h : tree.Planned file staged) (hmem : (key, node) ∈ tree.groups)
    (hn : n ∈ datasetsOf staged key ∨ n ∈ insertedLeaves (childLinks tree.groups key))
    (hreg : n ∈ node.region.map LinkRecord.name) : key ++ [n] ∈ staged.deletes :=
  (h.added hmem).2 n (mem_append.mpr hn) hreg

variable {x : ObjectId}

section

variable (h : tree.Planned file staged)

include h

lemma existing_of_replaces (hmem : (key, node) ∈ tree.groups) (hx : node.replaces = some x) :
    node.isNew = false ∧ file.follow file.root key = some x ∧
      file.objects.get? x = some (.group node.region) ∧ (key ≠ [] → file.SingleLink x) := by
  cases hnew : node.isNew with
  | true =>
    rw [(h.created hmem hnew).2] at hx
    cases hx
  | false =>
    obtain ⟨x', hrepl, hfollow, hobj, -, hsingle⟩ := h.existing hmem hnew
    rw [hx, Option.some_inj] at hrepl
    subst hrepl
    exact ⟨rfl, hfollow, hobj, hsingle⟩

/-- The link of a name in a rewritten group is the first of its name. -/
lemma child_of_mem (hmem : (key, node) ∈ tree.groups) (hx : node.replaces = some x)
    {r : LinkRecord} (hr : r ∈ file.linksOf x) (htgt : r.hardTarget = some y) :
    file.child x r.name = some y := by
  have hobj := (h.existing_of_replaces hmem hx).2.2.1
  unfold File.child
  rw [File.linksOf_group hobj] at hr ⊢
  rw [File.findNamed_of_nodup (h.region_nodup hmem) hr]
  exact htgt

/-- **A dirty group on a surviving path is rewritten, not created.** -/
theorem replaces_of_survives (hq : file.Survives staged.deletes q x) {node : Node}
    (hmem : (q, node) ∈ tree.groups) : node.replaces = some x := by
  induction hq generalizing node with
  | root =>
    obtain ⟨node', hroot, hold⟩ := h.root
    obtain rfl := h.node_unique hmem hroot
    obtain ⟨x, hrepl, hfollow, -⟩ := h.existing hmem hold
    cases hfollow
    exact hrepl
  | @step q x y r hq hr htgt hdel ih =>
    obtain ⟨parent, hparent⟩ := h.closed hmem
    have hx := ih hparent
    obtain ⟨-, hfollow, hobj, -⟩ := h.existing_of_replaces hparent hx
    have hreg : r.name ∈ parent.region.map LinkRecord.name := by
      rw [File.linksOf_group hobj] at hr
      exact mem_map_of_mem hr
    cases hnew : node.isNew with
    | true => exact absurd (h.added_deleted hparent (.inr (mem_insertedLeaves hmem hnew)) hreg) hdel
    | false =>
      obtain ⟨y', hrepl, hfollow', -⟩ := h.existing hmem hnew
      rw [File.follow_append, hfollow] at hfollow'
      have hchild := h.child_of_mem hparent hx hr htgt
      simp only [Option.bind_some, File.follow, hchild] at hfollow'
      cases hfollow'
      exact hrepl

lemma link_of_survives (hmem : (key, node) ∈ tree.groups)
    (hq : file.Survives staged.deletes (key ++ [n]) y) :
    ∃ z r, file.Survives staged.deletes key z ∧ node.replaces = some z ∧ r ∈ node.region ∧
      r.name = n ∧ r.hardTarget = some y ∧ key ++ [n] ∉ staged.deletes := by
  rcases hq.inv with ⟨hnil, -⟩ | ⟨k, z, r, hz, hr, htgt, heq, hdel⟩
  · simp at hnil
  obtain ⟨rfl, hn⟩ := append_inj' heq rfl
  have hrepl := h.replaces_of_survives hz hmem
  rw [File.linksOf_group (h.existing_of_replaces hmem hrepl).2.2.1] at hr
  exact ⟨z, r, hz, hrepl, hr, by simpa using hn.symm, htgt, hdel⟩

/-- A name on a surviving path is not given to anything new. -/
lemma not_added_of_survives (hmem : (key, node) ∈ tree.groups)
    (hq : file.Survives staged.deletes (key ++ [n]) y) :
    n ∉ datasetsOf staged key := by
  obtain ⟨z, r, -, -, hr, rfl, -, hdel⟩ := h.link_of_survives hmem hq
  exact fun hn => hdel (h.added_deleted hmem (.inl hn) (mem_map_of_mem hr))

lemma survives_of_moves (hq : tree.Moves q x) : file.Survives staged.deletes q x := by
  cases hq with
  | group hmem hrepl =>
    obtain ⟨hold, hfollow, -⟩ := h.existing_of_replaces hmem hrepl
    exact File.survives_of_follow hfollow (h.kept hmem hold)
  | write hmem hw =>
    obtain ⟨hfollow, -, hkept⟩ := h.writes hmem hw
    exact File.survives_of_follow hfollow hkept

lemma not_hasKey_dataset (hmem : (key, node) ∈ tree.groups)
    (hn : n ∈ datasetsOf staged key) : ¬ tree.HasKey (key ++ [n]) := by
  rintro ⟨child, hchild⟩
  cases hnew : child.isNew with
  | true =>
    -- the dataset and the new group would add one name twice
    have hnd := (h.added hmem).1
    rw [addedNames_eq, nodup_append] at hnd
    exact hnd.2.2 n hn n (mem_insertedLeaves hchild hnew) rfl
  | false =>
    obtain ⟨x, hrepl, -⟩ := h.existing hchild hnew
    exact h.not_added_of_survives hmem (h.survives_of_moves (.group hchild hrepl)) hn

lemma singleLink_of_moves (hq : tree.Moves q x) (hne : q ≠ []) : file.SingleLink x := by
  cases hq with
  | group hmem hrepl => exact (h.existing_of_replaces hmem hrepl).2.2.2 hne
  | write hmem hw => exact (h.writes hmem hw).2.1

/-- The parent of a path that moves is a dirty group. -/
lemma hasKey_of_moves {k : ObjectPath} (hq : tree.Moves (k ++ [n]) x) : tree.HasKey k := by
  generalize hpath : k ++ [n] = q at hq
  cases hq with
  | group hmem _ =>
    subst hpath
    exact h.closed hmem
  | write hmem _ =>
    obtain ⟨rfl, -⟩ := append_inj' hpath rfl
    exact ⟨_, hmem⟩

/-- **A header that moves has one surviving path.** -/
theorem survives_unique (hroot : file.RootUnlinked staged.deletes) {q' : ObjectPath} {x : ObjectId}
    (hmoves : tree.Moves q x) (hq' : file.Survives staged.deletes q' x) : q' = q := by
  induction q using reverseRecOn generalizing q' x with
  | nil =>
    rcases (h.survives_of_moves hmoves).inv with ⟨-, rfl⟩ | ⟨k, z, r, -, -, -, hnil, -⟩
    · exact hroot q' hq'
    · simp at hnil
  | append_singleton k n ih =>
    have hsingle := h.singleLink_of_moves hmoves (by simp)
    have hsurvives := h.survives_of_moves hmoves
    rcases hsurvives.inv with ⟨hnil, -⟩ | ⟨k₁, z, r, hz, hr, htgt, heq, -⟩
    · simp at hnil
    obtain ⟨rfl, hn⟩ := append_inj' heq rfl
    obtain rfl : n = r.name := by simpa using hn
    -- the parent moves too
    have hparent : tree.Moves k z := by
      obtain ⟨node, hmem⟩ := h.hasKey_of_moves hmoves
      exact .group hmem (h.replaces_of_survives hz hmem)
    rcases hq'.inv with ⟨rfl, rfl⟩ | ⟨k', z', r', hz', hr', htarget', rfl, -⟩
    · exact absurd (hroot _ hsurvives) (by simp)
    -- the single link has one owner and one name
    obtain rfl := hsingle.owner z' z hz'.reaches hz.reaches ⟨r', hr', htarget'⟩ ⟨r, hr, htgt⟩
    rw [ih hparent hz']
    have hname : r' = r :=
      eq_of_countP_le_one (hsingle.count _ hz.reaches) hr' (by simpa using htarget') hr
        (by simpa using htgt)
    rw [hname]

end

end Planned

end PreparedTree

end Hdf5Pure.Edit
