import Hdf5Pure.Edit.CommitApplyTheorems

/-!
# What a commit keeps

A tree commit rewrites the dirty groups bottom up and repoints the one link of each. The links to
the root are not counted, so the old root stays reachable exactly when a surviving path leads back
to it. Without such a path no replaced header is reachable.
-/

namespace Hdf5Pure.Edit

open List

/-! ## Links of the new file -/

def LinkTarget.object? : LinkTarget → Option ObjectId
  | .hard object _ => some object
  | .symbolic => none

lemma hardTarget_eq (r : LinkRecord) : r.hardTarget = r.target.object? := by
  unfold LinkRecord.hardTarget
  cases r.target <;> rfl

lemma File.child_eq_lookupLink (file : File) (x : ObjectId) (n : String) :
    file.child x n = (lookupLink (file.linksOf x) n).bind LinkTarget.object? := by
  unfold File.child lookupLink
  rw [Option.bind_map]
  exact congrArg _ (funext hardTarget_eq)

variable {r : LinkRecord} {o : FileObject} {n : String} {w : RelocatedDataset}

lemma File.exists_object_of_mem_linksOf {file : File} {x : ObjectId} (h : r ∈ file.linksOf x) :
    ∃ links, file.objects.get? x = some (.group links) := by
  unfold File.linksOf at h
  split at h
  · exact ⟨_, ‹_›⟩
  · cases h

namespace TreeApplied

variable {file : File} {staged : StagedEdits} {tree : PreparedTree} {applied : AppliedTree}
  {G : ObjectPath → GroupPlacement} {key : ObjectPath} {node : Node}

def IsWrite (tree : PreparedTree) (G : ObjectPath → GroupPlacement) (q : ObjectPath)
    (e : RelocatedDataset × ObjectId) : Prop :=
  ∃ k node, (k, node) ∈ tree.groups ∧ e ∈ (G k).moved ∧ q = k ++ [e.1.link] ∧ ¬ tree.HasKey q

def Unlinked (tree : PreparedTree) (applied : AppliedTree) : Prop :=
  ∀ x ∈ tree.reclaimed, ¬ applied.file.Reaches x

/-- Every path under no deletion resolves to the object it named or to its replacement. -/
def Resolves (file : File) (staged : StagedEdits) (applied : AppliedTree) : Prop :=
  ∀ path x, file.resolve path = .ok x → (∀ d ∈ staged.deletes, ¬ d <+: path) →
    applied.file.resolve path = .ok ((applied.relocations.get? x).getD x)

/-- What the new root reaches: new headers, new datasets, copies, and objects of the old file that
do not move. -/
inductive Good (file : File) (staged : StagedEdits) (tree : PreparedTree)
    (G : ObjectPath → GroupPlacement) : ObjectId → Prop where
  | header {k : ObjectPath} {node : Node} : (k, node) ∈ tree.groups →
      Good file staged tree G (G k).addr
  | dataset {k : ObjectPath} {node : Node} {e : String × ObjectId} : (k, node) ∈ tree.groups →
      e ∈ (G k).datasets → Good file staged tree G e.2
  | copy {q : ObjectPath} {e : RelocatedDataset × ObjectId} : IsWrite tree G q e →
      Good file staged tree G e.2
  | old {q : ObjectPath} {x : ObjectId} : file.Survives staged.deletes q x → x ∉ tree.reclaimed →
      Good file staged tree G x

variable {x y : ObjectId} {e : RelocatedDataset × ObjectId} {q : ObjectPath}
  (h : TreeApplied file staged tree applied G)

include h

lemma linksOf_header (hmem : (key, node) ∈ tree.groups) :
    applied.file.linksOf (G key).addr = (G key).links :=
  File.linksOf_group (h.header _ hmem)

lemma linksOf_old (hx : file.objects.get? x = some o) :
    applied.file.linksOf x = file.linksOf x := by
  obtain ⟨new, hext, -⟩ := h.objects
  unfold File.linksOf
  rw [hx, hext.grows hx]

section

variable (hmem : (key, node) ∈ tree.groups)

include hmem

lemma linksOf_copy (he : e ∈ (G key).moved) (ho : file.objects.get? e.1.source = some o) :
    applied.file.linksOf e.2 = file.linksOf e.1.source := by
  obtain ⟨copy, hcopy, hsrc⟩ := h.copies _ hmem e he
  unfold File.linksOf
  rw [hcopy, hsrc o ho, ho]

lemma child_of_lookup (hlookup : lookupLink (G key).links n = some (.hard y false)) :
    applied.file.child (G key).addr n = some y := by
  rw [File.child_eq_lookupLink, h.linksOf_header hmem, hlookup]
  rfl

/-- A link that survives and leads to nothing that moves is in the new group as it was. -/
lemma child_other (hq : file.Survives staged.deletes (key ++ [n]) y)
    (hkey : ¬ tree.HasKey (key ++ [n])) (hwrite : n ∉ node.writes.map RelocatedDataset.link) :
    applied.file.child (G key).addr n = some y := by
  obtain ⟨z, r, -, -, hr, rfl, htgt, hdel⟩ := h.plan.link_of_survives hmem hq
  have hother := (h.links _ hmem).other r.name hkey hwrite
    (h.plan.staged_eq ▸ h.plan.not_added_of_survives hmem hq)
  rw [h.plan.staged_eq, if_neg hdel, (mem_iff_lookupLink (h.plan.region_nodup hmem)).mp hr] at hother
  rw [File.child_eq_lookupLink, h.linksOf_header hmem, hother]
  exact (hardTarget_eq r).symm.trans htgt

end

lemma follow_key
    {k : ObjectPath} : tree.HasKey k →
      applied.file.follow applied.file.root k = some (G k).addr := by
  induction k using reverseRecOn with
  | nil =>
    intro _
    rw [h.root]
    rfl
  | append_singleton k n ih =>
    rintro ⟨node, hmem⟩
    obtain ⟨parent, hparent⟩ := h.plan.closed hmem
    obtain ⟨_, haddr, hlookup⟩ := (h.links _ hparent).child n ⟨node, hmem⟩
    cases haddr
    exact File.follow_concat.mpr
      ⟨(G k).addr, ih ⟨parent, hparent⟩, h.child_of_lookup hparent hlookup⟩

lemma follow_write (hmem : (key, node) ∈ tree.groups) (he : e ∈ (G key).moved)
    (hnot : ¬ tree.HasKey (key ++ [e.1.link])) :
    applied.file.follow applied.file.root (key ++ [e.1.link]) = some e.2 :=
  File.follow_concat.mpr ⟨(G key).addr, h.follow_key ⟨node, hmem⟩,
    h.child_of_lookup hmem ((h.links _ hmem).write e he hnot)⟩

lemma exists_moved (hmem : (key, node) ∈ tree.groups) (hw : w ∈ node.writes) :
    ∃ e ∈ (G key).moved, e.1 = w := by
  rw [← (h.links _ hmem).moved_writes] at hw
  exact mem_map.mp hw

lemma mem_writes (hmem : (key, node) ∈ tree.groups)
    (he : e ∈ (G key).moved) : e.1 ∈ node.writes := by
  have hlinks := (h.links _ hmem).moved_writes
  rw [← hlinks]
  exact mem_map_of_mem he

/-! ## A surviving path to the root -/

/-- The object of an edited dataset is the one its path survives to. -/
lemma source_of_survives (hmem : (key, node) ∈ tree.groups) (hw : w ∈ node.writes)
    (hq : file.Survives staged.deletes (key ++ [w.link]) y) : w.source = y := by
  obtain ⟨z, r, hz, hrepl, hr, hname, htgt, -⟩ := h.plan.link_of_survives hmem hq
  obtain ⟨-, hfollow, hobj, -⟩ := h.plan.existing_of_replaces hmem hrepl
  rw [← File.linksOf_group hobj] at hr
  have hchild := h.plan.child_of_mem hmem hrepl hr htgt
  obtain ⟨z', hz', hsrc⟩ := File.follow_concat.mp (h.plan.writes hmem hw).1
  rw [hfollow, Option.some_inj] at hz'
  subst hz'
  rw [← hname, hchild, Option.some_inj] at hsrc
  exact hsrc.symm

/-- Where a surviving path leads in the new file. -/
lemma survives_cases (hq : file.Survives staged.deletes q x) :
    applied.file.Reaches x ∨ tree.HasKey q ∨ ∃ e, IsWrite tree G q e ∧ e.1.source = x := by
  induction hq with
  | root =>
    obtain ⟨node, hnode, -⟩ := h.plan.root
    exact .inr (.inl ⟨node, hnode⟩)
  | @step q x y r hq hr htgt hdel ih =>
    have hstep := File.Survives.step hq hr htgt hdel
    rcases ih with hreaches | ⟨node, hmem⟩ | ⟨e, ⟨k, node, hmem, he, rfl, hnot⟩, rfl⟩
    · obtain ⟨links, hx⟩ := File.exists_object_of_mem_linksOf hr
      exact .inl (hreaches.tail ⟨r, h.linksOf_old hx ▸ hr, htgt⟩)
    · by_cases hkey : tree.HasKey (q ++ [r.name])
      · exact .inr (.inl hkey)
      by_cases hwrite : r.name ∈ node.writes.map RelocatedDataset.link
      · obtain ⟨w, hw, hname⟩ := mem_map.mp hwrite
        obtain ⟨e, he, rfl⟩ := h.exists_moved hmem hw
        rw [← hname] at hstep hkey ⊢
        exact .inr (.inr ⟨e, ⟨q, node, hmem, he, rfl, hkey⟩,
          h.source_of_survives hmem hw hstep⟩)
      · have hchild := h.child_other hmem hstep hkey hwrite
        have hheader := File.reaches_of_follow (h.follow_key ⟨node, hmem⟩)
        exact .inl (hheader.tail (File.child_links hchild))
    · -- the copy holds the links of its source
      obtain ⟨links, hx⟩ := File.exists_object_of_mem_linksOf hr
      have hcopy := File.reaches_of_follow (h.follow_write hmem he hnot)
      exact .inl (hcopy.tail ⟨r, h.linksOf_copy hmem he hx ▸ hr, htgt⟩)

/-- A path that survives to the root breaks one of the two. -/
lemma rootUnlinked_of
    (hunlinked : Unlinked tree applied) (hresolves : Resolves file staged applied) :
    file.RootUnlinked staged.deletes := by
  obtain ⟨root, hroot, -⟩ := h.plan.root
  have hrootdel : ∀ d ∈ staged.deletes, ¬ d <+: [] := by
    intro d hd hle
    rw [prefix_nil] at hle
    exact h.plan.delete_root (hle ▸ hd)
  -- the empty path resolves to the new root, so every path to the old root has to
  have hsame : ∀ {q addr}, file.follow file.root q = some file.root →
      (∀ d ∈ staged.deletes, ¬ d <+: q) → applied.file.follow applied.file.root q = some addr →
      addr = (G []).addr := by
    intro q addr hfollow hdel haddr
    have hq := hresolves q file.root (File.resolve_eq_ok.mpr hfollow) hdel
    have hempty := hresolves [] file.root (File.resolve_eq_ok.mpr rfl) hrootdel
    rw [File.resolve_eq_ok] at hq hempty
    rw [haddr, Option.some_inj] at hq
    rw [hq, ← h.root]
    exact (Option.some_inj.mp hempty).symm
  intro q hq
  rcases h.survives_cases hq with
    hreaches | ⟨node, hmem⟩ | ⟨e, ⟨k, node, hmem, he, rfl, hnot⟩, hsrc⟩
  · have hrepl := h.plan.replaces_of_survives .root hroot
    exact absurd hreaches (hunlinked _ (PreparedTree.mem_reclaimed.mpr ⟨[], .group hroot hrepl⟩))
  · obtain ⟨hold, hfollow, -⟩ :=
      h.plan.existing_of_replaces hmem (h.plan.replaces_of_survives hq hmem)
    have haddr := hsame hfollow (h.plan.kept hmem hold) (h.follow_key ⟨node, hmem⟩)
    exact h.distinct _ hmem _ hroot haddr
  · obtain ⟨hfollow, -, hdel⟩ := h.plan.writes hmem (h.mem_writes hmem he)
    have haddr := hsame (hsrc ▸ hfollow) hdel (h.follow_write hmem he hnot)
    exact absurd haddr (h.moved_ne _ hmem _ hroot e he)

/-! ## No surviving path to the root -/

/-- What a path that does not move survives to does not move. -/
lemma not_reclaimed (hroot : file.RootUnlinked staged.deletes)
    (hq : file.Survives staged.deletes q x)
    (hnot : ∀ x, ¬ tree.Moves q x) : x ∉ tree.reclaimed := by
  intro hx
  obtain ⟨q', hmoves⟩ := PreparedTree.mem_reclaimed.mp hx
  obtain rfl := h.plan.survives_unique hroot hmoves hq
  exact hnot x hmoves

/-- A link of a dirty group moves only as a dirty group or an edited dataset. -/
lemma not_moves_other (hmem : (key, node) ∈ tree.groups) (hkey : ¬ tree.HasKey (key ++ [n]))
    (hwrite : n ∉ node.writes.map RelocatedDataset.link) (x : ObjectId) :
    ¬ tree.Moves (key ++ [n]) x := by
  intro hmoves
  generalize hpath : key ++ [n] = q at hmoves
  cases hmoves with
  | group hmem' _ => exact hkey ⟨_, hpath ▸ hmem'⟩
  | write hmem' hw =>
    obtain ⟨rfl, hn⟩ := append_inj' hpath rfl
    obtain rfl := h.plan.node_unique hmem hmem'
    obtain rfl : n = _ := singleton_inj.mp hn
    exact hwrite (mem_map_of_mem hw)

/-- A link under a path of no dirty group survives and does not move. -/
lemma good_of_link (hroot : file.RootUnlinked staged.deletes)
    (hq : file.Survives staged.deletes q x) (hnot : ¬ tree.HasKey q) (hr : r ∈ file.linksOf x)
    (htgt : r.hardTarget = some y) : Good file staged tree G y := by
  have hdel : q ++ [r.name] ∉ staged.deletes := fun hd => hnot (h.plan.delete_parent hd)
  have hstep := File.Survives.step hq hr htgt hdel
  exact .old hstep (h.not_reclaimed hroot hstep fun _ hm => hnot (h.plan.hasKey_of_moves hm))

lemma good_of_header (hroot : file.RootUnlinked staged.deletes) (hmem : (key, node) ∈ tree.groups)
    (hr : r ∈ (G key).links) (htgt : r.hardTarget = some y) : Good file staged tree G y := by
  have hlinks := h.links _ hmem
  have hlookup := (mem_iff_lookupLink hlinks.nodup).mp hr
  have hobj : ∀ {a}, lookupLink (G key).links r.name = some (.hard a false) → y = a := by
    intro a ha
    rw [hlookup, Option.some_inj] at ha
    rw [hardTarget_eq, ha] at htgt
    exact (Option.some_inj.mp htgt).symm
  by_cases hkey : tree.HasKey (key ++ [r.name])
  · obtain ⟨addr, haddr, hchild⟩ := hlinks.child _ hkey
    cases haddr
    obtain ⟨child, hchildmem⟩ := hkey
    rw [hobj hchild]
    exact .header hchildmem
  by_cases hwrite : r.name ∈ node.writes.map RelocatedDataset.link
  · obtain ⟨w, hw, hname⟩ := mem_map.mp hwrite
    obtain ⟨e, he, rfl⟩ := h.exists_moved hmem hw
    rw [← hname] at hkey hobj
    rw [hobj (hlinks.write e he hkey)]
    exact .copy ⟨key, node, hmem, he, rfl, hkey⟩
  by_cases hdataset : r.name ∈ datasetsOf tree.staged key
  · have hnames := hlinks.datasets_names
    rw [← hnames] at hdataset
    obtain ⟨e, he, hname⟩ := mem_map.mp hdataset
    rw [← hname] at hwrite hobj
    rw [hobj (hlinks.dataset e he hwrite)]
    exact .dataset hmem he
  -- what is left is an old link
  have hother := hlinks.other r.name hkey hwrite hdataset
  rw [hlookup, h.plan.staged_eq] at hother
  obtain ⟨hdel, hold⟩ := Option.ite_none_left_eq_some.mp hother.symm
  have hreg := (mem_iff_lookupLink (h.plan.region_nodup hmem)).mpr hold
  cases hnew : node.isNew with
  | true =>
    rw [(h.plan.created hmem hnew).1] at hreg
    cases hreg
  | false =>
    obtain ⟨x, hrepl, -, hgroup, -⟩ := h.plan.existing hmem hnew
    have hq := h.plan.survives_of_moves (.group hmem hrepl)
    rw [← File.linksOf_group hgroup] at hreg
    have hstep := File.Survives.step hq hreg htgt hdel
    exact .old hstep (h.not_reclaimed hroot hstep (h.not_moves_other hmem hkey hwrite))

lemma good_of_copy (hroot : file.RootUnlinked staged.deletes) (hwrite : IsWrite tree G q e)
    (hr : r ∈ applied.file.linksOf e.2) (htgt : r.hardTarget = some y) :
    Good file staged tree G y := by
  obtain ⟨k, node, hmem, he, rfl, hnot⟩ := hwrite
  have hw := h.mem_writes hmem he
  have hq := h.plan.survives_of_moves (.write hmem hw)
  obtain ⟨o, ho⟩ := (h.plan.writes hmem hw).2.1.present _ hq.reaches
  rw [h.linksOf_copy hmem he ho] at hr
  exact h.good_of_link hroot hq hnot hr htgt

/-- What is good links to what is good. -/
lemma good_step (hroot : file.RootUnlinked staged.deletes) (hx : Good file staged tree G x)
    (hlink : applied.file.Links x y) : Good file staged tree G y := by
  obtain ⟨r, hr, htgt⟩ := hlink
  cases hx with
  | header hmem =>
    rw [h.linksOf_header hmem] at hr
    exact h.good_of_header hroot hmem hr htgt
  | dataset hmem he =>
    rw [File.linksOf, h.datasets _ hmem _ he] at hr
    cases hr
  | copy hwrite =>
    exact h.good_of_copy hroot hwrite hr htgt
  | @old q x hq hold =>
    cases hobj : file.objects.get? x with
    | some o =>
      rw [h.linksOf_old hobj] at hr
      apply h.good_of_link hroot hq _ hr htgt
      -- a dirty group on a surviving path is replaced
      rintro ⟨node, hmem⟩
      exact hold (PreparedTree.mem_reclaimed.mpr
        ⟨q, .group hmem (h.plan.replaces_of_survives hq hmem)⟩)
    | none =>
      -- a dangling link of the old file names an address the commit took
      obtain ⟨new, hext, htaken⟩ := h.objects
      have hnew : x ∈ new := by
        by_contra hnot
        obtain ⟨links, hlinks⟩ := File.exists_object_of_mem_linksOf hr
        rw [hext.old x hnot, hobj] at hlinks
        cases hlinks
      obtain ⟨⟨k, node⟩, hmem, hx⟩ := htaken x hnew
      unfold GroupPlacement.addresses at hx
      rw [mem_append, mem_append, mem_map, mem_map, mem_singleton] at hx
      rcases hx with (⟨e, he, rfl⟩ | ⟨e, he, rfl⟩) | rfl
      · rw [File.linksOf, h.datasets _ hmem e he] at hr
        cases hr
      · -- with a dangling link there is no topology, and no dataset moves
        have hw := h.mem_writes hmem he
        obtain ⟨o, ho⟩ := (h.plan.writes hmem hw).2.1.present _ hq.reaches
        rw [hobj] at ho
        cases ho
      · rw [h.linksOf_header hmem] at hr
        exact h.good_of_header hroot hmem hr htgt

lemma present_of_reclaimed (hx : x ∈ tree.reclaimed) : ∃ o, file.objects.get? x = some o := by
  obtain ⟨q, hmoves⟩ := PreparedTree.mem_reclaimed.mp hx
  have hq := h.plan.survives_of_moves hmoves
  cases hmoves with
  | group hmem hrepl => exact ⟨_, (h.plan.existing_of_replaces hmem hrepl).2.2.1⟩
  | write hmem hw => exact (h.plan.writes hmem hw).2.1.present _ hq.reaches

/-- No replaced header is reachable. -/
lemma unlinked (hroot : file.RootUnlinked staged.deletes) : Unlinked tree applied := by
  intro x hx hreaches
  have hgood : Good file staged tree G x := by
    clear hx
    induction hreaches with
    | refl =>
      obtain ⟨node, hnode, -⟩ := h.plan.root
      rw [h.root]
      exact .header hnode
    | tail _ hlink ih => exact h.good_step hroot ih hlink
  obtain ⟨o, ho⟩ := h.present_of_reclaimed hx
  -- the addresses of the commit are new
  have hfresh : ∀ {k node}, (k, node) ∈ tree.groups → x ∉ (G k).addresses := by
    intro k node hmem hin
    rw [h.fresh _ hmem x hin] at ho
    cases ho
  cases hgood with
  | header hmem => exact hfresh hmem (by simp [GroupPlacement.addresses])
  | dataset hmem he =>
    exact hfresh hmem (mem_append_left _ (mem_append_left _ (mem_map_of_mem he)))
  | copy hwrite =>
    obtain ⟨k, node, hmem, he, -⟩ := hwrite
    exact hfresh hmem (mem_append_left _ (mem_append_right _ (mem_map_of_mem he)))
  | old _ hold => exact hold hx

/-! ## Resolution -/

/-- Where a path under no deletion leads in the new file. -/
lemma follow_cases
    {path : ObjectPath} : ∀ {x : ObjectId}, file.follow file.root path = some x →
      (∀ d ∈ staged.deletes, ¬ d <+: path) → tree.HasKey path ∨
        (∃ e, IsWrite tree G path e ∧ e.1.source = x) ∨
        ¬ tree.HasKey path ∧ applied.file.follow applied.file.root path = some x := by
  induction path using reverseRecOn with
  | nil =>
    intro x _ _
    obtain ⟨node, hnode, -⟩ := h.plan.root
    exact .inl ⟨node, hnode⟩
  | append_singleton path n ih =>
    intro y hfollow hdel
    have hstep := File.survives_of_follow hfollow hdel
    obtain ⟨x, hx, hchild⟩ := File.follow_concat.mp hfollow
    by_cases hkey : tree.HasKey (path ++ [n])
    · exact .inl hkey
    right
    have hpresent : ∃ links, file.objects.get? x = some (.group links) := by
      obtain ⟨r, hr, -⟩ := Option.bind_eq_some_iff.mp hchild
      exact File.exists_object_of_mem_linksOf (File.findNamed_name hr).1
    obtain ⟨links, hobj⟩ := hpresent
    -- an object with the links of `x` has the child of `x`
    have hsame : ∀ {a}, applied.file.follow applied.file.root path = some a →
        applied.file.linksOf a = file.linksOf x →
        applied.file.follow applied.file.root (path ++ [n]) = some y := by
      intro a ha hlinks
      refine File.follow_concat.mpr ⟨a, ha, ?_⟩
      rw [File.child_eq_lookupLink, hlinks, ← File.child_eq_lookupLink]
      exact hchild
    rcases ih hx fun d hd hle => hdel d hd (hle.trans (prefix_append _ _)) with
      ⟨node, hmem⟩ | ⟨e, ⟨k, node, hmem, he, rfl, hnot⟩, rfl⟩ | ⟨hnot, hsamepath⟩
    · by_cases hwrite : n ∈ node.writes.map RelocatedDataset.link
      · obtain ⟨w, hw, rfl⟩ := mem_map.mp hwrite
        obtain ⟨e, he, rfl⟩ := h.exists_moved hmem hw
        exact .inl ⟨e, ⟨path, node, hmem, he, rfl, hkey⟩, h.source_of_survives hmem hw hstep⟩
      · exact .inr ⟨hkey, File.follow_concat.mpr ⟨_, h.follow_key ⟨node, hmem⟩,
          h.child_other hmem hstep hkey hwrite⟩⟩
    · exact .inr ⟨hkey, hsame (h.follow_write hmem he hnot) (h.linksOf_copy hmem he hobj)⟩
    · exact .inr ⟨hkey, hsame hsamepath (h.linksOf_old hobj)⟩

lemma relocations_write
    (hroot : file.RootUnlinked staged.deletes) (hmem : (key, node) ∈ tree.groups)
    (he : e ∈ (G key).moved) (hnot : ¬ tree.HasKey (key ++ [e.1.link])) :
    applied.relocations.get? e.1.source = some e.2 := by
  have hw := h.mem_writes hmem he
  have hq := h.plan.survives_of_moves (.write hmem hw)
  obtain ⟨y, hy⟩ := Option.isSome_iff_exists.mp (h.moves _ hmem _ hw)
  have hgroups : ∀ group ∈ tree.groups, group.2.replaces ≠ some e.1.source := by
    intro group hgroup hrepl
    have hkey := h.plan.survives_unique hroot (.group hgroup hrepl) hq
    exact hnot ⟨group.2, hkey ▸ hgroup⟩
  obtain ⟨⟨k', node'⟩, hmem', e', he', hsrc, rfl⟩ := h.relocated _ y hgroups hy
  have hpath := h.plan.survives_unique hroot (.write hmem' (h.mem_writes hmem' he'))
    (hsrc ▸ hq)
  obtain ⟨rfl, hlink⟩ := append_inj' hpath rfl
  -- one copy for each link
  have hnd : ((G key).moved.map fun e => e.1.link).Nodup := by
    have hnodup := h.plan.writes_nodup hmem
    rw [← (h.links _ hmem).moved_writes, map_map] at hnodup
    exact hnodup
  rw [hy, inj_on_of_nodup_map hnd he he' (singleton_inj.mp hlink)]

/-- Only headers that move have a replacement. -/
lemma relocations_none (hx : x ∉ tree.reclaimed) : applied.relocations.get? x = none := by
  by_contra hne
  obtain ⟨y, hy⟩ := Option.ne_none_iff_exists'.mp hne
  apply hx
  rw [PreparedTree.mem_reclaimed]
  by_cases hgroups : ∀ group ∈ tree.groups, group.2.replaces ≠ some x
  · obtain ⟨group, hmem, e, he, rfl, -⟩ := h.relocated x y hgroups hy
    exact ⟨_, .write hmem (h.mem_writes hmem he)⟩
  · push Not at hgroups
    obtain ⟨group, hmem, hrepl⟩ := hgroups
    exact ⟨_, .group hmem hrepl⟩

/-- Every path under no deletion resolves as recorded. -/
lemma resolves (hroot : file.RootUnlinked staged.deletes) : Resolves file staged applied := by
  intro path x hx hdel
  rw [File.resolve_eq_ok] at hx ⊢
  have hq := File.survives_of_follow hx hdel
  rcases h.follow_cases hx hdel with
    ⟨node, hmem⟩ | ⟨e, ⟨k, node, hmem, he, rfl, hnot⟩, rfl⟩ | ⟨-, hsame⟩
  · -- the replacement of a rewritten group is its new header
    obtain ⟨a, ha, hrepl, hreloc⟩ := h.superseded _ hmem x (h.plan.replaces_of_survives hq hmem)
    rw [h.follow_key ⟨node, hmem⟩, hreloc, h.plan.survives_unique hroot (.group ha hrepl) hq]
    rfl
  · rw [h.follow_write hmem he hnot, h.relocations_write hroot hmem he hnot]
    rfl
  · -- the new root reaches the object, so it does not move
    have hold : x ∉ tree.reclaimed := fun hmoved =>
      h.unlinked hroot x hmoved (File.reaches_of_follow hsame)
    rw [hsame, h.relocations_none hold]
    rfl

end TreeApplied

/-! ## Commits -/

/-- **A commit leaves no link to a header it replaces, and keeps every path that is not deleted,
exactly when no surviving path leads back to the root.** -/
theorem commit_keeps_paths_iff {alloc : OrdMap ObjectId FileObject → ObjectId} {file : File}
    {staged : StagedEdits} {tree : PreparedTree} {applied : AppliedTree}
    (halloc : FreshAlloc alloc) (hplan : planCommit file staged = .ok (.tree tree))
    (happly : applyTree alloc file tree = .ok applied) :
    ((∀ x ∈ tree.reclaimed, ¬ applied.file.Reaches x) ∧
      ∀ path x, file.resolve path = .ok x → (∀ d ∈ staged.deletes, ¬ d <+: path) →
        applied.file.resolve path = .ok ((applied.relocations.get? x).getD x)) ↔
      file.RootUnlinked staged.deletes := by
  have hplanned := planCommit_planned hplan
  obtain ⟨G, hG⟩ := applyTree_applied hplanned halloc happly
  constructor
  · rintro ⟨hunlinked, hresolves⟩
    exact hG.rootUnlinked_of hunlinked hresolves
  · intro hroot
    exact ⟨hG.unlinked hroot, hG.resolves hroot⟩

def appendAlloc (objects : OrdMap ObjectId FileObject) : ObjectId :=
  (objects.entries.getLast?.map Prod.fst).getD 0 + 100

lemma freshAlloc_append : FreshAlloc appendAlloc := by
  intro objects
  by_contra hne
  obtain ⟨o, ho⟩ := Option.ne_none_iff_exists'.mp hne
  rw [OrdMap.get?_eq_some_iff] at ho
  have hlast := objects.sorted
  cases hents : objects.entries using reverseRecOn with
  | nil =>
    rw [hents] at ho
    cases ho
  | append_singleton entries last =>
    rw [hents, pairwise_append] at hlast
    have haddr : appendAlloc objects = last.1 + 100 := by simp [appendAlloc, hents]
    rw [haddr, hents, mem_append, mem_singleton] at ho
    rcases ho with ho | ho
    · exact absurd (hlast.2.2 _ ho last mem_cons_self) (Nat.not_lt.mpr (Nat.le_add_right _ _))
    · exact absurd (congrArg Prod.fst ho) (Nat.lt_add_of_pos_right (by decide)).ne'

/-- A file with the dataset `d`, and the group `a`, which links back to the root under `back`. -/
def linkedBack : File where
  objects := OrdMap.collect [(96, .group [⟨"a", .hard 200 false⟩, ⟨"d", .hard 400 false⟩]),
    (200, .group [⟨"back", .hard 96 false⟩]), (400, .dataset)]
  root := 96

def rootAttr : StagedEdits := ⟨[], [], [], [], [], [[]], []⟩

/-- With a link back to the root, the old root stays reachable after it is replaced. -/
theorem commit_linkedBack_reaches_old_root : ∃ tree applied,
    planCommit linkedBack rootAttr = .ok (.tree tree) ∧
      applyTree appendAlloc linkedBack tree = .ok applied ∧
      96 ∈ tree.reclaimed ∧ applied.file.Reaches 96 := by
  refine ⟨_, _, rfl, rfl, by decide, ?_⟩
  exact File.reaches_of_follow (show File.follow _ _ ["a", "back"] = some 96 from rfl)

def oneDataset : File where
  objects := OrdMap.collect [(96, .group [⟨"d", .hard 400 false⟩]), (400, .dataset)]
  root := 96

def moveAndCreate : StagedEdits := ⟨[(["d"], .moving)], [], [], [["g"]], [], [], []⟩

lemma rootUnlinked_oneDataset : oneDataset.RootUnlinked moveAndCreate.deletes := by
  have hpaths : ∀ {q x}, oneDataset.Survives moveAndCreate.deletes q x →
      (q = [] ∧ x = 96) ∨ x = 400 := by
    intro q x h
    induction h with
    | root => exact .inl ⟨rfl, rfl⟩
    | step _ hr htgt _ ih =>
      rcases ih with ⟨-, rfl⟩ | rfl
      · have hlinks : oneDataset.linksOf 96 = [⟨"d", .hard 400 false⟩] := rfl
        rw [hlinks, mem_singleton] at hr
        subst hr
        exact .inr (Option.some_inj.mp htgt).symm
      · cases hr
  intro q hq
  rcases hpaths hq with ⟨hnil, -⟩ | hroot
  · exact hnil
  · exact absurd hroot (by decide)

theorem commit_oneDataset_keeps_paths : ∃ tree applied,
    planCommit oneDataset moveAndCreate = .ok (.tree tree) ∧
      applyTree appendAlloc oneDataset tree = .ok applied ∧ tree.reclaimed = [96, 400] ∧
      (∀ x ∈ tree.reclaimed, ¬ applied.file.Reaches x) ∧
      ∀ path x, oneDataset.resolve path = .ok x → (∀ d ∈ moveAndCreate.deletes, ¬ d <+: path) →
        applied.file.resolve path = .ok ((applied.relocations.get? x).getD x) :=
  ⟨_, _, rfl, rfl, rfl,
    (commit_keeps_paths_iff freshAlloc_append rfl rfl).mpr rootUnlinked_oneDataset⟩

end Hdf5Pure.Edit
