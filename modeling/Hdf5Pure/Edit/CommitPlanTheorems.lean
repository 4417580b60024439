import Hdf5Pure.Edit.FileTheorems

/-!
# What an accepted plan guarantees

Every existing dirty group has its header read from the file and, except for the root, a single hard
link. No deletion is above one of them or above an edited dataset, and every added name is free.
-/

namespace Hdf5Pure.Edit

open List

/-! ## Dirty groups -/

variable {q' : Request} {leaf : String} {targets : EditTargets} {d key : ObjectPath}
  {addr : ObjectId} {groups : List (ObjectPath × Node)}

namespace Nodes

lemma get?_modify (nodes : Nodes) (path k : ObjectPath) (f : Node → Node) :
    OrdMap.get? (nodes.modify path f) k =
      if k = path then some (f ((OrdMap.get? nodes path).getD .default))
      else OrdMap.get? nodes k := by
  rw [modify, OrdMap.get?_insert]
  congr

private lemma get?_ensure_range (path k : ObjectPath) (n : ℕ) :
    ∀ nodes : Nodes, OrdMap.get? ((range n).foldl
        (fun nodes len => Nodes.modify nodes (path.take len) id) nodes) k =
      if ∃ len < n, k = path.take len then some ((OrdMap.get? nodes k).getD .default)
      else OrdMap.get? nodes k := by
  induction n with
  | zero => simp
  | succ n ih =>
    intro nodes
    rw [range_succ, foldl_append, foldl_cons, foldl_nil, get?_modify, ih]
    by_cases hk : k = path.take n
    · subst hk
      rw [if_pos rfl, if_pos ⟨n, Nat.lt_succ_self n, rfl⟩, ih]
      split_ifs <;> rfl
    · simp only [Nat.lt_succ_iff_lt_or_eq, or_and_right, exists_or, exists_eq_left, hk, or_false,
        if_false]

/-- The prefixes of a path get a node, the other nodes stay. -/
lemma get?_ensureAncestors (nodes : Nodes) (path k : ObjectPath) :
    OrdMap.get? (nodes.ensureAncestors path) k =
      if k <+: path then some ((OrdMap.get? nodes k).getD .default) else OrdMap.get? nodes k := by
  rw [ensureAncestors, get?_ensure_range]
  have hiff : (∃ len < path.length + 1, k = path.take len) ↔ k <+: path := by
    constructor
    · rintro ⟨len, -, rfl⟩
      exact take_prefix _ _
    · intro hk
      exact ⟨k.length, Nat.lt_succ_of_le hk.length_le, prefix_iff_eq_take.mp hk⟩
  rw [if_congr hiff rfl rfl]

/-- What the edits so far ask for: dirty paths, groups to create, and the moving writes and
deletions by parent group. -/
structure Request where
  causes : List ObjectPath
  groups : List ObjectPath
  writes : List DatasetRelocation
  deletes : List (ObjectPath × PlannedDeletion)

variable {k : ObjectPath}

namespace Request

def Dirty (q : Request) (k : ObjectPath) : Prop := k = [] ∨ ∃ path ∈ q.causes, k <+: path

def node (q : Request) (k : ObjectPath) : Node where
  isNew := q.groups.any fun g => decide (g = k)
  region := []
  replaces := none
  deletes := (q.deletes.filter fun d => decide (d.1 = k)).map Prod.snd
  writes := (q.writes.filter fun w => decide (w.parent = k)).map DatasetRelocation.edit

lemma node_isNew {q : Request} : (q.node k).isNew = true ↔ k ∈ q.groups := by
  simp [node]

/-- The edits name dirty groups only. -/
structure WellFormed (q : Request) : Prop where
  groups : ∀ k ∈ q.groups, q.Dirty k
  writes : ∀ w ∈ q.writes, q.Dirty w.parent
  deletes : ∀ d ∈ q.deletes, q.Dirty d.1

lemma node_of_not_dirty {q : Request} (h : q.WellFormed) (hk : ¬ q.Dirty k) :
    q.node k = .default := by
  have hgroups : (q.groups.any fun g => decide (g = k)) = false :=
    Bool.eq_false_iff.mpr fun hnew => hk (h.groups k (node_isNew.mp hnew))
  have hdeletes : q.deletes.filter (fun d => decide (d.1 = k)) = [] := by
    rw [filter_eq_nil_iff]
    intro d hd hdk
    exact hk (of_decide_eq_true hdk ▸ h.deletes d hd)
  have hwrites : q.writes.filter (fun w => decide (w.parent = k)) = [] := by
    rw [filter_eq_nil_iff]
    intro w hw hwk
    exact hk (of_decide_eq_true hwk ▸ h.writes w hw)
  unfold node
  rw [hgroups, hdeletes, hwrites]
  rfl

end Request

open Classical in
def Describes (nodes : Nodes) (q : Request) : Prop :=
  q.WellFormed ∧ ∀ k, OrdMap.get? nodes k = if q.Dirty k then some (q.node k) else none

variable {nodes : Nodes} {q : Request}

lemma Describes.get?_eq_some {n : Node} (h : nodes.Describes q) :
    OrdMap.get? nodes k = some n ↔ q.Dirty k ∧ q.node k = n := by
  rw [h.2 k, Option.ite_none_right_eq_some, Option.some_inj]

lemma Describes.getD (h : nodes.Describes q) (k : ObjectPath) :
    (OrdMap.get? nodes k).getD .default = q.node k := by
  rw [h.2 k]
  by_cases hk : q.Dirty k
  · rw [if_pos hk]
    rfl
  · rw [if_neg hk, Request.node_of_not_dirty h.1 hk]
    rfl

lemma Request.Dirty.mono (h : ∀ path ∈ q.causes, path ∈ q'.causes) (hk : q.Dirty k) : q'.Dirty k :=
  hk.imp id fun ⟨path, hpath, hfront⟩ => ⟨path, h path hpath, hfront⟩

lemma Describes.ensureAncestors (h : nodes.Describes q) (path : ObjectPath) :
    (nodes.ensureAncestors path).Describes { q with causes := path :: q.causes } := by
  classical
  have hmono : ∀ {k}, q.Dirty k → Request.Dirty { q with causes := path :: q.causes } k :=
    Request.Dirty.mono fun p hp => mem_cons_of_mem _ hp
  refine ⟨⟨fun k hk => hmono (h.1.groups k hk), fun w hw => hmono (h.1.writes w hw),
    fun d hd => hmono (h.1.deletes d hd)⟩, fun k => ?_⟩
  rw [get?_ensureAncestors, h.getD]
  by_cases hk : k <+: path
  · have hdirty : Request.Dirty { q with causes := path :: q.causes } k :=
      .inr ⟨path, mem_cons_self, hk⟩
    rw [if_pos hk, if_pos hdirty]
    rfl
  · rw [if_neg hk, h.2 k]
    have hiff : Request.Dirty { q with causes := path :: q.causes } k ↔ q.Dirty k := by
      simp [Request.Dirty, hk]
    rw [if_congr hiff rfl rfl]
    rfl

/-- An edit makes `path` dirty and changes its node, with the request changed to match. -/
lemma Describes.edit (h : nodes.Describes q) {path : ObjectPath} {f : Node → Node}
    (hcauses : q'.causes = path :: q.causes)
    (hgroups : ∀ k ∈ q'.groups, k ∈ q.groups ∨ k = path)
    (hwrites : ∀ w ∈ q'.writes, w ∈ q.writes ∨ w.parent = path)
    (hdeletes : ∀ d ∈ q'.deletes, d ∈ q.deletes ∨ d.1 = path)
    (hpath : q'.node path = f (q.node path)) (hother : ∀ k ≠ path, q'.node k = q.node k) :
    ((nodes.ensureAncestors path).modify path f).Describes q' := by
  classical
  have hens := h.ensureAncestors path
  have hiff : ∀ k, q'.Dirty k ↔ Request.Dirty { q with causes := path :: q.causes } k := fun k => by
    unfold Request.Dirty
    rw [hcauses]
  have hdirty : q'.Dirty path := .inr ⟨path, hcauses ▸ mem_cons_self, prefix_rfl⟩
  refine ⟨⟨fun k hk => ?_, fun w hw => ?_, fun d hd => ?_⟩, fun k => ?_⟩
  · exact (hgroups k hk).elim (fun hk => (hiff k).mpr (hens.1.groups k hk)) (· ▸ hdirty)
  · exact (hwrites w hw).elim (fun hw => (hiff _).mpr (hens.1.writes w hw)) (· ▸ hdirty)
  · exact (hdeletes d hd).elim (fun hd => (hiff _).mpr (hens.1.deletes d hd)) (· ▸ hdirty)
  · rw [get?_modify, hens.getD]
    by_cases hk : k = path
    · rw [if_pos hk, hk, if_pos hdirty, hpath]
      rfl
    · rw [if_neg hk, hens.2 k, hother k hk, if_congr (hiff k) rfl rfl]
      rfl

lemma Describes.addGroup (h : nodes.Describes q) (path : ObjectPath) :
    ((nodes.ensureAncestors path).modify path fun node => { node with isNew := true }).Describes
      { q with causes := path :: q.causes, groups := path :: q.groups } := by
  refine h.edit rfl (by simp [or_comm]) (fun w hw => .inl hw) (fun d hd => .inl hd) ?_ ?_
  · simp [Request.node]
  · intro k hk
    simp [Request.node, Ne.symm hk]

lemma Describes.addWrite (h : nodes.Describes q) (w : DatasetRelocation) :
    ((nodes.ensureAncestors w.parent).modify w.parent fun node =>
        { node with writes := node.writes ++ [w.edit] }).Describes
      { q with causes := w.parent :: q.causes, writes := q.writes ++ [w] } := by
  refine h.edit rfl (fun k hk => .inl hk) ?_ (fun d hd => .inl hd) ?_ ?_
  · exact forall_mem_append.mpr ⟨fun w' hw' => .inl hw', by simp⟩
  · simp [Request.node, filter_append]
  · intro k hk
    simp [Request.node, filter_append, Ne.symm hk]

lemma Describes.addDelete (h : nodes.Describes q) (parent : ObjectPath) (d : PlannedDeletion) :
    ((nodes.ensureAncestors parent).modify parent fun node =>
        { node with deletes := node.deletes ++ [d] }).Describes
      { q with causes := parent :: q.causes, deletes := q.deletes ++ [(parent, d)] } := by
  refine h.edit rfl (fun k hk => .inl hk) (fun w hw => .inl hw) ?_ ?_ ?_
  · exact forall_mem_append.mpr ⟨fun d' hd' => .inl hd', by simp⟩
  · simp [Request.node, filter_append]
  · intro k hk
    simp [Request.node, filter_append, Ne.symm hk]

lemma describes_root : (Nodes.modify .empty [] id).Describes ⟨[], [], [], []⟩ := by
  refine ⟨⟨by simp, by simp, by simp⟩, fun k => ?_⟩
  rw [get?_modify, OrdMap.get?_empty]
  by_cases hk : k = []
  · have hd : Request.Dirty ⟨[], [], [], []⟩ k := .inl hk
    rw [if_pos hk, if_pos hd]
    simp [Request.node, Node.default]
  have hnot : ¬ Request.Dirty ⟨[], [], [], []⟩ k := by simp [Request.Dirty, hk]
  rw [if_neg hk, if_neg hnot]
  rfl

lemma addGroups_spec {groups : List ObjectPath} {nodes nodes' : Nodes} {q : Request}
    (h : nodes.Describes q) (hr : addGroups groups nodes = .ok nodes') :
    [] ∉ groups ∧ nodes'.Describes
      { q with causes := groups.reverse ++ q.causes, groups := groups.reverse ++ q.groups } := by
  induction groups generalizing nodes nodes' q with
  | nil =>
    cases hr
    exact ⟨not_mem_nil, h⟩
  | cons path rest ih =>
    obtain ⟨hempty, hr⟩ := ite_error_eq_ok.mp hr
    obtain ⟨hroot, hd⟩ := ih (h.addGroup path) hr
    exact ⟨not_mem_cons_of_ne_of_not_mem (fun heq => hempty (heq ▸ rfl)) hroot,
      by simpa using hd⟩

lemma ensureAll_spec (paths : List ObjectPath) {nodes : Nodes} {q : Request} (h : nodes.Describes q)
    :
    (paths.foldl ensureAncestors nodes).Describes
      { q with causes := paths.reverse ++ q.causes } := by
  induction paths generalizing nodes q with
  | nil => exact h
  | cons path rest ih =>
    simpa using ih (h.ensureAncestors path)

lemma addWrites_spec (moving : List DatasetRelocation) {nodes : Nodes} {q : Request}
    (h : nodes.Describes q) :
    (addWrites moving nodes).Describes
      { q with
        causes := (moving.map DatasetRelocation.parent).reverse ++ q.causes
        writes := q.writes ++ moving } := by
  induction moving generalizing nodes q with
  | nil => simpa [addWrites] using h
  | cons w moving ih =>
    have hd := ih (h.addWrite w)
    simpa [addWrites] using hd

end Nodes

/-! ## Deletions -/

lemma splitLeaf_eq_some {path parent : ObjectPath} :
    path.splitLeaf = some (parent, leaf) ↔ path = parent ++ [leaf] := by
  unfold ObjectPath.splitLeaf
  constructor
  · intro h
    obtain ⟨last, hlast, heq⟩ := Option.map_eq_some_iff.mp h
    obtain ⟨rfl, rfl⟩ := Prod.mk.inj heq
    exact (dropLast_append_getLast? last hlast).symm
  · rintro rfl
    simp

/-- What the conflict checks of one deletion leave. -/
structure DeletionOk (nodes : Nodes) (targets : EditTargets) (index : ℕ) (d : ObjectPath) :
    Prop where
  recreated : d ∈ targets.adds → ∀ k node, OrdMap.get? nodes k = some node → d <+: k →
    node.isNew = true
  adds : d ∉ targets.adds → ∀ t ∈ targets.adds, ¬ d <+: t
  attrs : d ∉ targets.adds → ∀ t ∈ targets.attrs, ¬ d <+: t
  writes : ∀ t ∈ targets.writes, ¬ d <+: t
  deletes : ∀ (j : ℕ) d', targets.deletes[j]? = some d' → j ≠ index → ¬ d <+: d'

lemma checkDeletion_spec {nodes : Nodes} {index : ℕ}
    (h : checkDeletion nodes targets index d = .ok ()) : DeletionOk nodes targets index d := by
  unfold checkDeletion at h
  simp only at h
  have hrec : (targets.adds.any fun t => decide (t = d)) = decide (d ∈ targets.adds) := by
    rw [Bool.eq_iff_iff]
    simp
  rw [hrec] at h
  split_ifs at h with h₁ h₂ h₃ h₄ h₅
  constructor
  · intro hd k node hnode hfront
    have hall : ∀ k node, (k, node) ∈ nodes.entries → d <+: k → node.isNew = true := by
      simpa [hd] using h₁
    exact hall k node (OrdMap.get?_eq_some_iff.mp hnode) hfront
  · intro hd t ht hfront
    refine h₂ (any_eq_true.mpr ⟨t, ht, ?_⟩)
    simp [hd, hfront]
  · intro hd t ht hfront
    refine h₃ (any_eq_true.mpr ⟨t, ht, ?_⟩)
    simp [hd, hfront]
  · intro t ht hfront
    exact h₄ (any_eq_true.mpr ⟨t, ht, isPrefixOf_iff_prefix.mpr hfront⟩)
  · intro j d' hj hne hfront
    refine h₅ (any_eq_true.mpr ⟨(d', j), mk_mem_zipIdx_iff_getElem?.mpr hj, ?_⟩)
    simp [hne, hfront]

variable {topology : Option CompleteTopology}

/-- A planned deletion removes the link its path ends in. -/
lemma planDeletion_name {file : File} {parent : ObjectPath} {deletion : PlannedDeletion}
    (hd : d = parent ++ [leaf]) (h : planDeletion file topology d leaf = .ok deletion) :
    deletion.name = leaf := by
  unfold planDeletion at h
  cases ht : topology.bind fun t => t.deletion d with
  | some found =>
    rw [ht] at h
    cases h
    obtain ⟨t, -, hfound⟩ := Option.bind_eq_some_iff.mp ht
    unfold CompleteTopology.deletion at hfound
    rw [splitLeaf_eq_some.mpr hd] at hfound
    simp only [Option.bind_eq_bind, Option.bind_some, Option.bind_eq_some_iff,
      Option.some_inj] at hfound
    obtain ⟨-, -, rfl⟩ := hfound
    rfl
  | none =>
    rw [ht] at h
    obtain ⟨target, -, h⟩ := bind_eq_ok.mp h
    cases h
    rfl

/-- Every deletion of an accepted plan passed its checks while the nodes of the other edits were
present, and its parent group drops the link it names. -/
structure DeletionsOk (targets : EditTargets) (causes : List ObjectPath) (groups : List ObjectPath)
    (index : ℕ) (ds : List ObjectPath) (planned : List (ObjectPath × PlannedDeletion)) : Prop where
  paths : planned.map (fun p => p.1 ++ [p.2.name]) = ds
  checks : ∀ (j : ℕ) d, ds[j]? = some d → ∃ nodes q, DeletionOk nodes targets (index + j) d ∧
    nodes.Describes q ∧ q.groups = groups ∧ ∀ path ∈ causes, path ∈ q.causes

lemma planDeletions_spec {file : File} {ds : List ObjectPath} {index : ℕ} {nodes nodes' : Nodes}
    {q : Nodes.Request} (h : nodes.Describes q)
    (hr : planDeletions file topology targets index ds nodes = .ok nodes') :
    ∃ planned, DeletionsOk targets q.causes q.groups index ds planned ∧
      nodes'.Describes { q with
        causes := (planned.map Prod.fst).reverse ++ q.causes
        deletes := q.deletes ++ planned } := by
  induction ds generalizing index nodes nodes' q with
  | nil =>
    cases hr
    exact ⟨[], ⟨rfl, by simp⟩, by simpa using h⟩
  | cons d ds ih =>
    unfold planDeletions at hr
    cases hsplit : d.splitLeaf with
    | none => rw [hsplit] at hr; cases hr
    | some split =>
      obtain ⟨parent, leaf⟩ := split
      have hd := splitLeaf_eq_some.mp hsplit
      rw [hsplit] at hr
      obtain ⟨deletion, hplan, hr⟩ := bind_eq_ok.mp hr
      obtain ⟨u, hcheck, hr⟩ := bind_eq_ok.mp hr
      obtain ⟨planned, hok, hdesc⟩ := ih (h.addDelete parent deletion) hr
      refine ⟨(parent, deletion) :: planned, ⟨?_, ?_⟩, by simpa using hdesc⟩
      · rw [map_cons, hok.paths, planDeletion_name hd hplan, hd]
      · intro j d' hj
        cases j with
        | zero =>
          rw [getElem?_cons_zero, Option.some_inj] at hj
          exact ⟨nodes, q, hj ▸ checkDeletion_spec hcheck, h, rfl, fun _ hp => hp⟩
        | succ j =>
          obtain ⟨nodes₁, q₁, hok₁, hdesc₁, hgroups₁, hcauses₁⟩ := hok.checks j d' hj
          refine ⟨nodes₁, q₁, ?_, hdesc₁, hgroups₁,
            fun path hpath => hcauses₁ path (mem_cons_of_mem _ hpath)⟩
          rwa [Nat.add_assoc, Nat.add_comm 1 j] at hok₁

/-! ## Moving writes -/

/-- Every moving write names a dataset with one counted link, each dataset once. -/
structure DatasetEdits.Ok (file : File) (topology : Option CompleteTopology) (edits : DatasetEdits) :
    Prop where
  source : ∀ w ∈ edits.movingWrites,
    file.follow file.root (w.parent ++ [w.edit.link]) = some w.edit.source
  single : ∀ w ∈ edits.movingWrites,
    topology.bind (fun t => t.incomingLinks w.edit.source) = some 1
  target : ∀ w ∈ edits.movingWrites, w.parent ++ [w.edit.link] ∈ edits.writeTargets
  nodup : (edits.movingWrites.map fun w => w.parent ++ [w.edit.link]).Nodup

section

variable {file : File} {topology : Option CompleteTopology} {edits edits' : DatasetEdits}

lemma requireSingleLink_ok {error : Error} (h : requireSingleLink topology addr error = .ok ()) :
    topology.bind (fun t => t.incomingLinks addr) = some 1 :=
  (ite_else_error_eq_ok.mp h).1

lemma DatasetEdits.Ok.move (h : edits.Ok file topology) {full parent : ObjectPath}
    (hnew : full ∉ edits.writeTargets) (hfull : full = parent ++ [leaf])
    (hresolve : file.resolve full = .ok addr)
    (hsingle : topology.bind (fun t => t.incomingLinks addr) = some 1) :
    (edits.move full parent leaf addr).Ok file topology := by
  unfold DatasetEdits.move
  subst hfull
  refine ⟨forall_mem_append.mpr ⟨h.source, ?_⟩, forall_mem_append.mpr ⟨h.single, ?_⟩,
    forall_mem_append.mpr ⟨fun w hw => mem_append_left _ (h.target w hw), by simp⟩, ?_⟩
  · exact forall_mem_singleton.mpr (File.resolve_eq_ok.mp hresolve)
  · exact forall_mem_singleton.mpr hsingle
  · rw [map_append, nodup_append]
    refine ⟨h.nodup, nodup_singleton _, ?_⟩
    intro p hp p' hp' heq
    obtain ⟨w, hw, rfl⟩ := mem_map.mp hp
    rw [map_singleton, mem_singleton] at hp'
    exact hnew (hp' ▸ heq ▸ h.target w hw)

/-- The step an append and an attribute edit share: a target no other edit has named moves. -/
lemma DatasetEdits.Ok.relocate (h : edits.Ok file topology) {full parent : ObjectPath}
    {leaf : String} {twice shared : Error} {next : DatasetEdits → Except Error DatasetEdits}
    (hsplit : full.splitLeaf = some (parent, leaf))
    (hr : (if full ∈ edits.writeTargets then .error twice else do
      let addr ← file.resolve full
      requireSingleLink topology addr shared
      next (edits.move full parent leaf addr)) = .ok edits') :
    ∃ moved : DatasetEdits, moved.Ok file topology ∧ next moved = .ok edits' := by
  obtain ⟨hmem, hr⟩ := ite_error_eq_ok.mp hr
  obtain ⟨addr, hresolve, hr⟩ := bind_eq_ok.mp hr
  obtain ⟨u, hsingle, hr⟩ := bind_eq_ok.mp hr
  exact ⟨_, h.move hmem (splitLeaf_eq_some.mp hsplit) hresolve (requireSingleLink_ok hsingle), hr⟩

lemma prepareValueWrites_ok {writes : List (ObjectPath × WritePlan)} (h : edits.Ok file topology)
    (hr : prepareValueWrites file topology writes edits = .ok edits') :
    edits'.Ok file topology := by
  induction writes generalizing edits with
  | nil =>
    cases hr
    exact h
  | cons write writes ih =>
    obtain ⟨full, plan⟩ := write
    obtain ⟨hmem, hr⟩ := ite_error_eq_ok.mp hr
    obtain ⟨addr, hresolve, hr⟩ := bind_eq_ok.mp hr
    cases plan with
    | inPlace =>
      refine ih ?_ hr
      exact ⟨h.source, h.single, fun w hw => mem_append_left _ (h.target w hw), h.nodup⟩
    | moving =>
      obtain ⟨u, hsingle, hr⟩ := bind_eq_ok.mp hr
      cases hsplit : full.splitLeaf with
      | none => rw [hsplit] at hr; cases hr
      | some split =>
        rw [hsplit] at hr
        exact ih (h.move hmem (splitLeaf_eq_some.mp hsplit) hresolve
          (requireSingleLink_ok hsingle)) hr

lemma prepareAppends_ok {appends : List (ObjectPath × Bool)} (h : edits.Ok file topology)
    (hr : prepareAppends file topology appends edits = .ok edits') : edits'.Ok file topology := by
  induction appends generalizing edits with
  | nil =>
    cases hr
    exact h
  | cons append appends ih =>
    obtain ⟨full, empty⟩ := append
    unfold prepareAppends at hr
    cases hsplit : full.splitLeaf with
    | none => rw [hsplit] at hr; cases hr
    | some split =>
      rw [hsplit] at hr
      cases empty with
      | true => exact ih h hr
      | false =>
        obtain ⟨moved, hmoved, hr⟩ := h.relocate hsplit hr
        exact ih hmoved hr

lemma prepareDatasetAttributes_ok {paths : List ObjectPath} (h : edits.Ok file topology)
    (hr : prepareDatasetAttributes file topology paths edits = .ok edits') :
    edits'.Ok file topology := by
  induction paths generalizing edits with
  | nil =>
    cases hr
    exact h
  | cons full paths ih =>
    unfold prepareDatasetAttributes at hr
    cases hsplit : full.splitLeaf with
    | none => rw [hsplit] at hr; cases hr
    | some split =>
      rw [hsplit] at hr
      obtain ⟨moved, hmoved, hr⟩ := h.relocate hsplit hr
      exact ih hmoved hr

lemma prepareDatasetEdits_ok {staged : StagedEdits}
    (hr : prepareDatasetEdits file topology staged = .ok edits) : edits.Ok file topology := by
  obtain ⟨edits₁, hwrites, hr⟩ := bind_eq_ok.mp hr
  obtain ⟨edits₂, happends, hr⟩ := bind_eq_ok.mp hr
  have hnone : DatasetEdits.Ok file topology ⟨[], []⟩ := ⟨by simp, by simp, by simp, by simp⟩
  exact prepareDatasetAttributes_ok
    (prepareAppends_ok (prepareValueWrites_ok hnone hwrites) happends) hr

end

/-! ## Headers and added names -/

section

variable {file : File} {topology : Option CompleteTopology}

lemma inspectGroup_ok {links : List LinkRecord} (h : file.inspectGroup addr = .ok links) :
    file.objects.get? addr = some (.group links) ∧ (links.map LinkRecord.name).Nodup := by
  unfold File.inspectGroup at h
  split at h
  · cases h
  · cases h
  · obtain ⟨hnodup, h⟩ := ite_else_error_eq_ok.mp h
    exact Except.ok.inj h ▸ ⟨‹_›, hnodup⟩

/-- The header of an existing group is read from the file, and has one counted link unless it is
the root. -/
lemma prepareHeader_old {node node' : Node} (hold : node.isNew = false)
    (h : prepareHeader file topology key node = .ok node') :
    ∃ x links, node' = { node with region := links, replaces := some x } ∧
      file.follow file.root key = some x ∧ file.objects.get? x = some (.group links) ∧
      (links.map LinkRecord.name).Nodup ∧
      (key ≠ [] → topology.bind (fun t => t.incomingLinks x) = some 1) := by
  unfold prepareHeader at h
  rw [if_neg (by simp [hold])] at h
  simp only [bind_eq_ok, Except.ok.injEq] at h
  obtain ⟨x, hresolve, u, hsingle, links, hlinks, rfl⟩ := h
  obtain ⟨hobj, hnodup⟩ := inspectGroup_ok hlinks
  refine ⟨x, links, rfl, File.resolve_eq_ok.mp hresolve, hobj, hnodup, ?_⟩
  intro hkey
  unfold requireEditable at hsingle
  rw [if_neg (by simpa using hkey)] at hsingle
  split at hsingle
  · assumption
  · cases hsingle
  · cases hsingle

lemma prepareHeader_new {node node' : Node} (hnew : node.isNew = true)
    (h : prepareHeader file topology key node = .ok node') :
    node' = { node with region := [] } := by
  unfold prepareHeader at h
  rw [if_pos hnew] at h
  cases h
  rfl

/-- The prepared groups are the dirty ones, in their order. -/
lemma prepareGroupHeaders_spec {nodes : List (ObjectPath × Node)}
    {groups : List (ObjectPath × Node)} (h : prepareGroupHeaders file topology nodes = .ok groups) :
    List.Forall₂ (fun n g => g.1 = n.1 ∧ prepareHeader file topology n.1 n.2 = .ok g.2)
      nodes groups := by
  induction nodes generalizing groups with
  | nil =>
    cases h
    exact .nil
  | cons node nodes ih =>
    simp only [prepareGroupHeaders, bind_eq_ok, Except.ok.injEq] at h
    obtain ⟨node', hnode, rest, hrest, rfl⟩ := h
    exact .cons ⟨rfl, hnode⟩ (ih hrest)

end

lemma prepareGroupHeaders_keys {file : File} {nodes : List (ObjectPath × Node)}
    (h : prepareGroupHeaders file topology nodes = .ok groups) :
    groups.map Prod.fst = nodes.map Prod.fst := by
  have hspec := prepareGroupHeaders_spec h
  clear h
  induction hspec with
  | nil => rfl
  | cons hhead _ ih => rw [map_cons, map_cons, ih, hhead.1]

lemma insertNames_ok {rest : List String} {names : List String}
    (h : insertNames names rest = .ok ()) : rest.Nodup ∧ ∀ n ∈ rest, n ∉ names := by
  induction rest generalizing names with
  | nil => exact ⟨nodup_nil, by simp⟩
  | cons name rest ih =>
    obtain ⟨hmem, h⟩ := ite_error_eq_ok.mp h
    obtain ⟨hnodup, hfresh⟩ := ih h
    exact ⟨nodup_cons.mpr ⟨fun hrest => hfresh name hrest mem_cons_self, hnodup⟩,
      forall_mem_cons.mpr
        ⟨hmem, fun n hn hnames => hfresh n hn (mem_cons_of_mem _ hnames)⟩⟩

lemma checkGroupAdditions_ok {staged : StagedEdits} {rest : List (ObjectPath × Node)}
    (h : checkGroupAdditions staged groups rest = .ok ()) :
    ∀ group ∈ rest, checkAdditions staged groups group = .ok () := by
  induction rest with
  | nil => simp
  | cons group rest ih =>
    obtain ⟨u, hgroup, h⟩ := bind_eq_ok.mp h
    exact forall_mem_cons.mpr ⟨hgroup, ih h⟩

/-! ## Plans -/

/-- What an accepted plan of a tree commit guarantees. -/
structure PreparedTree.Planned (file : File) (staged : StagedEdits) (tree : PreparedTree) :
    Prop where
  staged_eq : tree.staged = staged
  keys_nodup : (tree.groups.map Prod.fst).Nodup
  root : ∃ node, ([], node) ∈ tree.groups ∧ node.isNew = false
  closed : ∀ {k n node}, (k ++ [n], node) ∈ tree.groups → ∃ node', (k, node') ∈ tree.groups
  created : ∀ {k node}, (k, node) ∈ tree.groups → node.isNew = true →
    node.region = [] ∧ node.replaces = none
  existing : ∀ {k node}, (k, node) ∈ tree.groups → node.isNew = false →
    ∃ x, node.replaces = some x ∧ file.follow file.root k = some x ∧
      file.objects.get? x = some (.group node.region) ∧
      (node.region.map LinkRecord.name).Nodup ∧ (k ≠ [] → file.SingleLink x)
  writes : ∀ {k node w}, (k, node) ∈ tree.groups → w ∈ node.writes →
    file.follow file.root (k ++ [w.link]) = some w.source ∧ file.SingleLink w.source ∧
      ∀ d ∈ staged.deletes, ¬ d <+: k ++ [w.link]
  writes_nodup : ∀ {k node}, (k, node) ∈ tree.groups →
    (node.writes.map RelocatedDataset.link).Nodup
  deletes : ∀ {k node n}, (k, node) ∈ tree.groups →
    (n ∈ node.deletes.map PlannedDeletion.name ↔ k ++ [n] ∈ staged.deletes)
  delete_parent : ∀ {k n}, k ++ [n] ∈ staged.deletes → ∃ node, (k, node) ∈ tree.groups
  delete_root : [] ∉ staged.deletes
  kept : ∀ {k node}, (k, node) ∈ tree.groups → node.isNew = false →
    ∀ d ∈ staged.deletes, ¬ d <+: k
  added : ∀ {k node}, (k, node) ∈ tree.groups → (addedNames staged tree.groups k).Nodup ∧
    ∀ n ∈ addedNames staged tree.groups k, n ∈ node.region.map LinkRecord.name →
      k ++ [n] ∈ staged.deletes

section

variable {file : File} {topology : Option CompleteTopology} {staged : StagedEdits}
  {edits : DatasetEdits}

def Nodes.Request.deleting (q : Request) (planned : List (ObjectPath × PlannedDeletion)) :
    Request :=
  { q with causes := (planned.map Prod.fst).reverse ++ q.causes, deletes := planned }

/-- The dirty groups of a commit: `q` holds the edits other than deletions. -/
structure DirtyGroups (staged : StagedEdits) (edits : DatasetEdits) (nodes : Nodes)
    (q : Nodes.Request) (planned : List (ObjectPath × PlannedDeletion)) : Prop where
  describes : nodes.Describes (q.deleting planned)
  deletions : DeletionsOk (staged.targets edits) q.causes q.groups 0 staged.deletes planned
  groups : ∀ k, k ∈ q.groups ↔ k ∈ staged.groups
  writes : q.writes = edits.movingWrites
  causes : ∀ p, p ∈ q.causes ↔ p ∈ staged.groups ∨ p ∈ staged.datasets.map Prod.fst ∨
    p ∈ edits.movingWrites.map DatasetRelocation.parent ∨ p ∈ staged.groupAttrs
  root : [] ∉ staged.groups

lemma planDirtyGroups_spec (h : planDirtyGroups file topology staged edits = .ok nodes) :
    ∃ q planned, DirtyGroups staged edits nodes q planned := by
  obtain ⟨nodes₁, hgroups, h⟩ := bind_eq_ok.mp h
  obtain ⟨hroot, hd₁⟩ := Nodes.addGroups_spec Nodes.describes_root hgroups
  have hd₂ := Nodes.ensureAll_spec staged.groupAttrs (Nodes.addWrites_spec edits.movingWrites
    (Nodes.ensureAll_spec (staged.datasets.map Prod.fst) hd₁))
  obtain ⟨planned, hok, hd₃⟩ := planDeletions_spec hd₂ h
  refine ⟨_, planned, ?_, hok, ?_, ?_, ?_, hroot⟩
  · simpa [Nodes.Request.deleting] using hd₃
  · simp
  · simp
  · intro p
    simp only [mem_append, mem_reverse, not_mem_nil, or_false]
    tauto

variable {nodes : Nodes} {q : Nodes.Request} {planned : List (ObjectPath × PlannedDeletion)}

/-- The parent and name of a deletion come back as its path. -/
lemma DirtyGroups.mem_planned (h : DirtyGroups staged edits nodes q planned) :
    d ∈ staged.deletes ↔ ∃ p ∈ planned, d = p.1 ++ [p.2.name] := by
  rw [← h.deletions.paths, mem_map]
  exact exists_congr fun p => and_congr_right fun _ => eq_comm

variable {k : ObjectPath}

/-- No deletion is a prefix of a dirty group the commit does not create. -/
lemma DirtyGroups.kept (h : DirtyGroups staged edits nodes q planned)
    (hedits : edits.Ok file topology) {node : Node} (hnode : OrdMap.get? nodes k = some node)
    (hold : node.isNew = false) : ∀ d ∈ staged.deletes, ¬ d <+: k := by
  intro d hd hfront
  obtain ⟨j, hj⟩ := getElem?_of_mem hd
  obtain ⟨nodes₁, q₁, hok, hdesc₁, hgroups₁, hcauses₁⟩ := h.deletions.checks j d hj
  rw [Nat.zero_add] at hok
  have hdne : d ≠ [] := by
    obtain ⟨p, -, rfl⟩ := h.mem_planned.mp hd
    simp
  obtain ⟨hdirty, hget⟩ := h.describes.get?_eq_some.mp hnode
  have hnotgroup : k ∉ q.groups := by
    rw [← hget] at hold
    exact fun hmem => absurd (Nodes.Request.node_isNew.mpr hmem) (Bool.eq_false_iff.mp hold)
  -- a cause of `k` among the other edits was present when the deletion was checked
  have hother : ∀ path ∈ q.causes, k <+: path → d ∉ (staged.targets edits).adds := by
    intro path hpath hk hadd
    have hdirty₁ : q₁.Dirty k := .inr ⟨path, hcauses₁ path hpath, hk⟩
    have hnew := hok.recreated hadd k _ (hdesc₁.get?_eq_some.mpr ⟨hdirty₁, rfl⟩) hfront
    rw [Nodes.Request.node_isNew, hgroups₁] at hnew
    exact hnotgroup hnew
  rcases hdirty with rfl | ⟨path, hpath, hk⟩
  · exact hdne (prefix_nil.mp hfront)
  have hdpath := hfront.trans hk
  rcases mem_append.mp hpath with hpath | hpath
  · -- the parent of a deletion: the deletions would overlap
    rw [mem_reverse, mem_map] at hpath
    obtain ⟨p, hp, rfl⟩ := hpath
    obtain ⟨j', hj'⟩ := getElem?_of_mem (h.mem_planned.mpr ⟨p, hp, rfl⟩)
    by_cases hjj : j' = j
    · rw [hjj, hj, Option.some_inj] at hj'
      have hlen := hdpath.length_le
      rw [hj', length_append, length_singleton] at hlen
      omega
    · exact hok.deletes j' _ hj' hjj (hdpath.trans (prefix_append _ _))
  · have hnotadd := hother path hpath hk
    rcases (h.causes path).mp hpath with hgroup | hdataset | hwrite | hattr
    · exact hok.adds hnotadd path (mem_append_left _ hgroup) hdpath
    · obtain ⟨ds, hds, rfl⟩ := mem_map.mp hdataset
      exact hok.adds hnotadd _ (mem_append_right _ (mem_map.mpr ⟨ds, hds, rfl⟩))
        (hdpath.trans (prefix_append _ _))
    · obtain ⟨w, hw, rfl⟩ := mem_map.mp hwrite
      exact hok.writes _ (hedits.target w hw) (hdpath.trans (prefix_append _ _))
    · exact hok.attrs hnotadd path hattr hdpath

lemma prepareHeader_edits {n node : Node} (h : prepareHeader file topology k n = .ok node) :
    node.isNew = n.isNew ∧ node.deletes = n.deletes ∧ node.writes = n.writes := by
  cases hnew : n.isNew with
  | true => exact prepareHeader_new hnew h ▸ ⟨hnew, rfl, rfl⟩
  | false =>
    obtain ⟨x, links, rfl, -⟩ := prepareHeader_old hnew h
    exact ⟨hnew, rfl, rfl⟩

lemma singleLink_of_bind {x : ObjectId}
    (h : file.topology.bind (fun t => t.incomingLinks x) = some 1) : file.SingleLink x := by
  obtain ⟨t, ht, hx⟩ := Option.bind_eq_some_iff.mp h
  exact CompleteTopology.singleLink_of_incoming ht hx

namespace DirtyGroups

variable (h : DirtyGroups staged edits nodes q planned)

include h

/-- A prepared group is dirty, and is its request with the header read. -/
lemma request (hprep : prepareGroupHeaders file topology nodes.entries = .ok groups) {node : Node}
    (hmem : (k, node) ∈ groups) : (q.deleting planned).Dirty k ∧
      prepareHeader file topology k ((q.deleting planned).node k) = .ok node := by
  obtain ⟨⟨k', n⟩, hn, rfl, hheader⟩ :=
    exists_left_of_forall₂ (prepareGroupHeaders_spec hprep) _ hmem
  obtain ⟨hdirty, hnode⟩ := h.describes.get?_eq_some.mp (OrdMap.get?_eq_some_iff.mpr hn)
  exact ⟨hdirty, hnode ▸ hheader⟩

/-- Every dirty group is prepared. -/
lemma prepared (hprep : prepareGroupHeaders file topology nodes.entries = .ok groups)
    (hk : (q.deleting planned).Dirty k) : ∃ node, (k, node) ∈ groups := by
  obtain ⟨⟨k', node⟩, hmem, hkey, -⟩ :=
    exists_left_of_forall₂ (prepareGroupHeaders_spec hprep).flip _
      (OrdMap.get?_eq_some_iff.mp (h.describes.get?_eq_some.mpr ⟨hk, rfl⟩))
  simp only at hkey
  exact ⟨node, hkey ▸ hmem⟩

omit h in
/-- The parent of a dirty group is dirty. -/
lemma dirty_parent {name : String} (hk : (q.deleting planned).Dirty (k ++ [name])) :
    (q.deleting planned).Dirty k := by
  rcases hk with hroot | ⟨path, hpath, hfront⟩
  · simp at hroot
  · exact .inr ⟨path, hpath, (prefix_append _ _).trans hfront⟩

/-- The parent of a deletion is dirty. -/
lemma dirty_of_delete {name : String} (hd : k ++ [name] ∈ staged.deletes) :
    (q.deleting planned).Dirty k := by
  obtain ⟨p, hp, heq⟩ := h.mem_planned.mp hd
  obtain ⟨rfl, -⟩ := append_inj' heq rfl
  exact .inr ⟨p.1, mem_append_left _ (mem_reverse.mpr (mem_map_of_mem hp)), prefix_rfl⟩

/-- A group deletes the names of the deletions under it. -/
lemma deletes_iff {name : String} :
    name ∈ ((q.deleting planned).node k).deletes.map PlannedDeletion.name ↔
      k ++ [name] ∈ staged.deletes := by
  rw [h.mem_planned]
  show name ∈ ((planned.filter fun d => decide (d.1 = k)).map Prod.snd).map PlannedDeletion.name ↔ _
  simp only [map_map, mem_map, mem_filter, decide_eq_true_eq, Function.comp_apply]
  constructor
  · rintro ⟨p, ⟨hp, rfl⟩, rfl⟩
    exact ⟨p, hp, rfl⟩
  · rintro ⟨p, hp, heq⟩
    obtain ⟨hk, hname⟩ := append_inj' heq rfl
    exact ⟨p, ⟨hp, hk.symm⟩, by simpa using hname.symm⟩

/-- The writes of a group are the moving writes under it. -/
lemma node_writes : ((q.deleting planned).node k).writes =
    (edits.movingWrites.filter fun w => decide (w.parent = k)).map DatasetRelocation.edit :=
  h.writes ▸ rfl

/-- A write moves a dataset that has one link, which no deletion removes. -/
lemma write (hok : edits.Ok file file.topology) {w : RelocatedDataset}
    (hw : w ∈ ((q.deleting planned).node k).writes) :
    file.follow file.root (k ++ [w.link]) = some w.source ∧ file.SingleLink w.source ∧
      ∀ d ∈ staged.deletes, ¬ d <+: k ++ [w.link] := by
  rw [h.node_writes] at hw
  obtain ⟨r, hfilter, rfl⟩ := mem_map.mp hw
  obtain ⟨hr, hparent⟩ := mem_filter.mp hfilter
  rw [← of_decide_eq_true hparent]
  refine ⟨hok.source r hr, singleLink_of_bind (hok.single r hr), ?_⟩
  intro d hd
  obtain ⟨j, hj⟩ := getElem?_of_mem hd
  obtain ⟨_, _, hdel, -⟩ := h.deletions.checks j d hj
  exact hdel.writes _ (hok.target r hr)

/-- Writes of one group with one link would have one path. -/
lemma writes_nodup (hok : edits.Ok file topology) :
    (((q.deleting planned).node k).writes.map RelocatedDataset.link).Nodup := by
  rw [h.node_writes, map_map]
  apply List.Nodup.map_on _ (List.Nodup.filter _ (List.Nodup.of_map _ hok.nodup))
  intro w hw w' hw' hlink
  obtain ⟨hw, hp⟩ := mem_filter.mp hw
  obtain ⟨hw', hp'⟩ := mem_filter.mp hw'
  apply inj_on_of_nodup_map hok.nodup hw hw'
  rw [of_decide_eq_true hp, of_decide_eq_true hp']
  exact congrArg (fun n => k ++ [n]) hlink

/-- The root is no new group. -/
lemma root_old : ((q.deleting planned).node []).isNew = false :=
  Bool.eq_false_iff.mpr fun hnew => h.root ((h.groups []).mp (Nodes.Request.node_isNew.mp hnew))

end DirtyGroups

/-- A name is added to a group only if no link keeps it. -/
lemma checkAdditions_ok {node : Node} (h : checkAdditions staged groups (k, node) = .ok ()) :
    (addedNames staged groups k).Nodup ∧
      ∀ n ∈ addedNames staged groups k, n ∈ node.region.map LinkRecord.name →
        n ∈ node.deletes.map PlannedDeletion.name := by
  obtain ⟨hnodup, hfresh⟩ := insertNames_ok h
  refine ⟨hnodup, fun n hadd hreg => ?_⟩
  by_contra hkept
  refine hfresh n hadd (mem_filter.mpr ⟨hreg, ?_⟩)
  simpa using hkept

/-- **An accepted plan is sound.** -/
theorem planCommit_planned {tree : PreparedTree} (h : planCommit file staged = .ok (.tree tree)) :
    tree.Planned file staged := by
  obtain ⟨edits, hedits, h⟩ := bind_eq_ok.mp h
  split at h
  · cases h
  simp only [bind_eq_ok] at h
  obtain ⟨nodes, hnodes, groups, hprep, u, hcheck, h⟩ := h
  cases h
  have hok := prepareDatasetEdits_ok hedits
  obtain ⟨q, planned, hdirty⟩ := planDirtyGroups_spec hnodes
  -- a prepared group has the edits of its request
  have hnode : ∀ {k node}, (k, node) ∈ groups →
      prepareHeader file file.topology k ((q.deleting planned).node k) = .ok node ∧
        node.isNew = ((q.deleting planned).node k).isNew ∧
        node.deletes = ((q.deleting planned).node k).deletes ∧
        node.writes = ((q.deleting planned).node k).writes := fun hmem =>
    ⟨(hdirty.request hprep hmem).2, prepareHeader_edits (hdirty.request hprep hmem).2⟩
  have hdeletes : ∀ {k node n}, (k, node) ∈ groups →
      (n ∈ node.deletes.map PlannedDeletion.name ↔ k ++ [n] ∈ staged.deletes) := fun hmem => by
    rw [(hnode hmem).2.2.1, hdirty.deletes_iff]
  refine ⟨rfl, ?_, ?_, ?_, ?_, ?_, ?_, ?_, hdeletes, ?_, ?_, ?_, ?_⟩
  · rw [prepareGroupHeaders_keys hprep]
    exact nodes.nodup_keys
  · obtain ⟨node, hmem⟩ := hdirty.prepared hprep (.inl rfl)
    exact ⟨node, hmem, (hnode hmem).2.1.trans hdirty.root_old⟩
  · intro k name node hmem
    exact hdirty.prepared hprep (DirtyGroups.dirty_parent (hdirty.request hprep hmem).1)
  · intro k node hmem hnew
    obtain ⟨hheader, hisNew, -⟩ := hnode hmem
    rw [prepareHeader_new (hisNew ▸ hnew) hheader]
    exact ⟨rfl, rfl⟩
  · intro k node hmem hold
    obtain ⟨hheader, hisNew, -⟩ := hnode hmem
    obtain ⟨x, links, rfl, hfollow, hobj, hnodup, hsingle⟩ :=
      prepareHeader_old (hisNew ▸ hold) hheader
    exact ⟨x, rfl, hfollow, hobj, hnodup, fun hk => singleLink_of_bind (hsingle hk)⟩
  · intro k node w hmem hw
    exact hdirty.write hok ((hnode hmem).2.2.2 ▸ hw)
  · intro k node hmem
    rw [(hnode hmem).2.2.2]
    exact hdirty.writes_nodup hok
  · intro k name hd
    exact hdirty.prepared hprep (hdirty.dirty_of_delete hd)
  · intro hd
    obtain ⟨p, -, heq⟩ := hdirty.mem_planned.mp hd
    simp at heq
  · intro k node hmem hold
    exact hdirty.kept hok (hdirty.describes.get?_eq_some.mpr ⟨(hdirty.request hprep hmem).1, rfl⟩)
      ((hnode hmem).2.1 ▸ hold)
  · intro k node hmem
    obtain ⟨hnodup, hfree⟩ := checkAdditions_ok (checkGroupAdditions_ok hcheck _ hmem)
    exact ⟨hnodup, fun n hadd hreg => (hdeletes hmem).mp (hfree n hadd hreg)⟩

end

end Hdf5Pure.Edit
