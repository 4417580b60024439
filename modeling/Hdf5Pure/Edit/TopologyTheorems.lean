import Hdf5Pure.Utils.Counting
import Hdf5Pure.Utils.Multigraph
import Hdf5Pure.Edit.Topology
import Hdf5Pure.Edit.ObjectGraphTheorems

/-!
# What a complete topology says about the link graph

A discovered topology is a multigraph over object identities whose edges are the positions of links.
Its counts are the numbers of edges into each object.
-/

namespace Hdf5Pure.Edit

open List

variable {stored : List (HardLink Unit ObjectIndex)} {w : Worklist TopologyObject Unit}
  {budget : TraversalBudget} {identity : ℕ} {e : LinkIndex}

namespace CompleteTopology

def linkGraph (t : CompleteTopology) : Multigraph ObjectId LinkIndex where
  Edge e a b := ∃ o l o', t.object e.object = some o ∧ o.value.id = a ∧
    o.links[e.position]? = some l ∧ t.object l.target = some o' ∧ o'.value.id = b

def idAt (t : CompleteTopology) (index : ObjectIndex) : Option ObjectId :=
  (t.object index).map fun o => o.value.id

def linksTo (t : CompleteTopology) (x : ObjectId) : ℕ :=
  (t.graph.objects.map fun o => o.links).flatten.countP fun l => decide (t.idAt l.target = some x)

/-- The root comes first, positions are unique, links stay inside the graph, and the counts are
right. -/
structure Complete (t : CompleteTopology) (root : ObjectId) : Prop where
  root : t.idAt 0 = some root
  indexed : ∀ (id : ObjectId) (i : ℕ), t.indices.get? id = some i ↔ t.idAt i = some id
  targets : ∀ o ∈ t.graph.objects, ∀ l ∈ o.links, l.target < t.graph.objects.length
  counts : ∀ x, (t.incomingLinks x).getD 0 = t.linksTo x

/-! ## Counting -/

lemma countLinks_spec {links : List (HardLink String ObjectId)}
    {incoming incoming' : OrdMap ObjectId ℕ} (h : countLinks links incoming = .ok incoming') :
    ∀ x, (incoming'.get? x).getD 0 =
      (incoming.get? x).getD 0 + links.countP fun l => decide (l.target = x) := by
  induction links generalizing incoming incoming' with
  | nil =>
    intro x
    cases h
    simp
  | cons link links ih =>
    intro x
    obtain ⟨-, h⟩ := ite_else_error_eq_ok.mp h
    rw [ih h x, OrdMap.get?_insert, countP_cons]
    by_cases hx : x = link.target
    · subst hx
      simp only [if_true, decide_true, Option.getD_some]
      omega
    · rw [if_neg hx, if_neg (by simpa using Ne.symm hx), Nat.add_zero]

variable {addresses : AddressContext} {cached : OrdMap ObjectId ObjectLinks}
  {read : ObjectId → Except Error (List GroupEntry)} {root : ObjectId}

section

variable {id : ObjectId} {incoming incoming' : OrdMap ObjectId ℕ}
  {expansion : Expansion TopologyObject Unit}

lemma expand_eq_ok (h : expand addresses cached read id incoming = .ok (expansion, incoming')) :
    ∃ object, objectLinks addresses cached read id = .ok object ∧ object.topologyError = none ∧
      countLinks object.links incoming = .ok incoming' ∧ expansion.value.id = id ∧
      expansion.links = object.links.map fun link => ⟨(), link.target⟩ := by
  obtain ⟨object, hlinks, h⟩ := bind_eq_ok.mp h
  cases herr : object.topologyError with
  | some e => rw [herr] at h; cases h
  | none =>
    rw [herr] at h
    obtain ⟨counted, hcount, h⟩ := bind_eq_ok.mp h
    cases h
    exact ⟨object, hlinks, herr, hcount, rfl, rfl⟩

/-- The expansion of an object keeps its identity and counts its links. -/
lemma expand_spec (h : expand addresses cached read id incoming = .ok (expansion, incoming')) :
    expansion.value.id = id ∧ ∀ x, (incoming'.get? x).getD 0 =
      (incoming.get? x).getD 0 + expansion.links.countP fun l => decide (l.target = x) := by
  obtain ⟨object, -, -, hcount, hid, hlinks⟩ := expand_eq_ok h
  refine ⟨hid, fun x => ?_⟩
  rw [countLinks_spec hcount x, hlinks, countP_map]
  rfl

end

/-! ## Discovery -/

/-- The invariant of the walk: expanded objects keep their identity, and the counts cover the
links of the expanded objects. -/
structure Counted (root : ObjectId)
    (d : Discovery TopologyObject Unit (OrdMap ObjectId ℕ)) : Prop where
  root : d.worklist.admitted[0]? = some root
  ids : ∀ (i : ℕ) o, d.worklist.expanded[i]? = some o → d.worklist.admitted[i]? = some o.value.id
  counts : ∀ x, (d.state.get? x).getD 0 =
    (d.worklist.expanded.map fun o => o.links).flatten.countP
      fun l => decide (d.worklist.admitted[l.target]? = some x)

/-- Stored links are counted like the links of the expansion. -/
lemma countP_of_stores {links : List (HardLink Unit ObjectId)} (h : w.Stores links stored)
    (x : ObjectId) :
    (stored.countP fun l => decide (w.admitted[l.target]? = some x)) =
      links.countP fun l => decide (l.target = x) := by
  induction h with
  | nil => rfl
  | cons hhead _ ih => simp only [countP_cons, ih, hhead.2, Option.some_inj]

lemma counted_step {id : ObjectId} {d d' : Discovery TopologyObject Unit (OrdMap ObjectId ℕ)}
    {expansion : Expansion TopologyObject Unit} (hinv : d.worklist.Inv) (h : Counted root d)
    (hnext : d.worklist.next = some id)
    (hexp : ObjectGraph.Expanded (expand addresses cached read) id d d' expansion stored) :
    Counted root d' := by
  obtain ⟨hid, hcounts⟩ := expand_spec hexp.expand_eq
  obtain ⟨new, hnew⟩ := hexp.admitted
  have hkeep : ∀ {i : ℕ}, i < d.worklist.admitted.length →
      d'.worklist.admitted[i]? = d.worklist.admitted[i]? := by
    intro i hi
    rw [← hnew, getElem?_append_left hi]
  constructor
  · rw [hkeep (List.getElem?_eq_some_iff.mp h.root).1]
    exact h.root
  · intro i o ho
    rw [hexp.expanded] at ho
    rcases Nat.lt_trichotomy i d.worklist.expanded.length with hlt | rfl | hgt
    · rw [getElem?_append_left hlt] at ho
      rw [hkeep (lt_of_lt_of_le hlt hinv.expanded_le)]
      exact h.ids i o ho
    · rw [List.getElem?_concat_length, Option.some_inj] at ho
      rw [hkeep (List.getElem?_eq_some_iff.mp hnext).1, ← ho, hid]
      exact hnext
    · rw [getElem?_eq_none (by simp; omega)] at ho
      cases ho
  · intro x
    rw [hcounts x, hexp.expanded, map_append, flatten_append, countP_append,
      h.counts x]
    congr 1
    · -- the links stored before keep their targets
      apply countP_congr
      intro l hl
      obtain ⟨links, hlinks, hl⟩ := mem_flatten.mp hl
      obtain ⟨o, ho, rfl⟩ := mem_map.mp hlinks
      rw [hkeep (hinv.targets o ho l hl)]
    · simp only [map_cons, map_nil, flatten_cons, flatten_nil, append_nil]
      exact (countP_of_stores hexp.stores x).symm

variable {t : CompleteTopology}

/-- After the last expansion the objects are the admitted ones. -/
lemma Counted.idAt_eq {d : Discovery TopologyObject Unit (OrdMap ObjectId ℕ)} (h : Counted root d)
    (hnext : d.worklist.next = none) (ht : t.graph.objects = d.worklist.expanded)
    (i : ℕ) : t.idAt i = d.worklist.admitted[i]? := by
  have hlen : d.worklist.admitted.length ≤ d.worklist.expanded.length :=
    getElem?_eq_none_iff.mp hnext
  unfold idAt object
  rw [ht]
  cases ho : d.worklist.expanded[i]? with
  | some o => exact (h.ids i o ho).symm
  | none =>
    have hi := getElem?_eq_none_iff.mp ho
    exact (getElem?_eq_none (hlen.trans hi)).symm

/-- **Induction over a topology.** What holds of the root alone and is kept by every expansion
holds of the walk a topology was read off. -/
theorem discoverCached_induct
    (h : discoverCached addresses root budget cached read identity = .ok t)
    {P : Discovery TopologyObject Unit (OrdMap ObjectId ℕ) → Prop}
    (hstart : ∀ w, w.admitted = [root] → w.expanded = [] → P ⟨w, 0, .empty⟩)
    (hstep : ∀ id d d' expansion stored, d.worklist.Inv → P d → d.worklist.next = some id →
      ObjectGraph.Expanded (expand addresses cached read) id d d' expansion stored → P d') :
    ∃ d, t = ⟨identity, ⟨d.worklist.expanded⟩, d.worklist.indices, d.state⟩ ∧
      d.worklist.Inv ∧ P d ∧ d.worklist.next = none := by
  unfold discoverCached at h
  cases hdiscover : ObjectGraph.discoverIndexed budget root (expand addresses cached read) .empty with
  | error e => rw [hdiscover] at h; cases h
  | ok r =>
    rw [hdiscover] at h
    cases h
    obtain ⟨⟨i, w⟩, hadm, h⟩ := bind_eq_ok.mp hdiscover
    obtain ⟨hw, -⟩ := Worklist.admitObject_spec (Worklist.inv_new _) hadm
    obtain ⟨d, hloop, h⟩ := bind_eq_ok.mp h
    cases h
    -- a worklist starts with the root alone
    cases (ite_error_eq_ok.mp hadm).2
    exact ⟨d, rfl, ObjectGraph.discoverLoop_induct hstep budget.objects hw (hstart _ rfl rfl)
      (Nat.le_add_right _ _) hloop⟩

/-- **A discovered topology is complete.** -/
theorem discoverCached_complete
    (h : discoverCached addresses root budget cached read identity = .ok t) : t.Complete root := by
  obtain ⟨d, rfl, hinv, hcounted, hnext⟩ := discoverCached_induct h (P := Counted root)
    (fun w hadm hexpanded => ⟨by simp [hadm], by simp [hexpanded], by simp [hexpanded]⟩)
    (fun _ _ _ _ _ => counted_step)
  have hid := fun i => hcounted.idAt_eq (t := ⟨identity, ⟨d.worklist.expanded⟩,
    d.worklist.indices, d.state⟩) hnext rfl i
  constructor
  · rw [hid]
    exact hcounted.root
  · intro id i
    rw [hid]
    exact hinv.indexed id i
  · intro o ho l hl
    exact lt_of_lt_of_le (hinv.targets o ho l hl) (getElem?_eq_none_iff.mp hnext)
  · intro x
    simp only [linksTo, hid]
    exact hcounted.counts x

/-! ## The links of the file -/

/-- The objects the entries of `x` target, their stored addresses taken past the base. -/
def targetsOf (addresses : AddressContext) (read : ObjectId → Except Error (List GroupEntry))
    (x : ObjectId) : List ObjectId :=
  match read x with
  | .ok entries => entries.map fun entry => entry.objectHeaderAddress + addresses.base
  | .error _ => []

/-- Hard links lead from `root` to `x`. -/
def ReachedFrom (addresses : AddressContext) (read : ObjectId → Except Error (List GroupEntry))
    (root x : ObjectId) : Prop :=
  Relation.ReflTransGen (fun a b => b ∈ targetsOf addresses read a) root x

def Agrees (addresses : AddressContext) (read : ObjectId → Except Error (List GroupEntry))
    (cached : OrdMap ObjectId ObjectLinks) : Prop :=
  ∀ id links, cached.get? id = some links →
    ∃ entries, read id = .ok entries ∧ ObjectLinks.read addresses entries = .ok links

/-- Entries that are all defined are read as links to the objects they name. -/
lemma readEntries_spec {entries : List GroupEntry} {links result : ObjectLinks}
    (h : ObjectLinks.readEntries addresses entries links = .ok result)
    (hnone : result.topologyError = none) :
    links.topologyError = none ∧
      result.links.map HardLink.target = links.links.map HardLink.target ++
        entries.map fun entry => entry.objectHeaderAddress + addresses.base := by
  induction entries generalizing links result with
  | nil =>
    cases h
    exact ⟨hnone, by simp⟩
  | cons entry entries ih =>
    unfold ObjectLinks.readEntries at h
    by_cases hundef : entry.objectHeaderAddress = addresses.undefinedAddress
    · -- the error of an undefined entry stays
      rw [if_pos hundef] at h
      cases (ih h hnone).1
    rw [if_neg hundef] at h
    cases hresolve : ObjectId.resolve addresses entry.objectHeaderAddress with
    | error e => rw [hresolve] at h; cases h
    | ok target =>
      rw [hresolve] at h
      obtain ⟨hbefore, htargets⟩ := ih h hnone
      have htgt : target = entry.objectHeaderAddress + addresses.base := by
        unfold ObjectId.resolve at hresolve
        split at hresolve
        · rename_i hadd
          cases hresolve
          exact (checkedAdd_eq_some.mp hadd).2.symm
        · cases hresolve
      exact ⟨hbefore, by simp [htargets, htgt]⟩

/-- The links of an expansion target what the entries of the object target. -/
lemma expand_targets {incoming incoming' : OrdMap ObjectId ℕ} {id : ObjectId}
    {expansion : Expansion TopologyObject Unit} (hcached : Agrees addresses read cached)
    (h : expand addresses cached read id incoming = .ok (expansion, incoming')) :
    (∃ entries, read id = .ok entries) ∧
      expansion.links.map HardLink.target = targetsOf addresses read id := by
  obtain ⟨object, hobj, herr, -, -, hlinks⟩ := expand_eq_ok h
  obtain ⟨entries, hents, hread⟩ :
      ∃ entries, read id = .ok entries ∧ ObjectLinks.read addresses entries = .ok object := by
    unfold objectLinks at hobj
    split at hobj
    · rename_i hget
      cases hobj
      exact hcached id _ hget
    · split at hobj
      · cases hobj
      · exact ⟨_, ‹_›, hobj⟩
  refine ⟨⟨entries, hents⟩, ?_⟩
  rw [hlinks, map_map, targetsOf, hents]
  simpa [Function.comp_def] using (readEntries_spec hread herr).2

/-- The walk has admitted what the root reaches, and stored the links of what it expanded. -/
structure Faithful (addresses : AddressContext) (read : ObjectId → Except Error (List GroupEntry))
    (root : ObjectId) (d : Discovery TopologyObject Unit (OrdMap ObjectId ℕ)) : Prop where
  reached : ∀ x ∈ d.worklist.admitted, ReachedFrom addresses read root x
  links : ∀ o ∈ d.worklist.expanded, (∃ entries, read o.value.id = .ok entries) ∧
    o.links.map (fun l => d.worklist.admitted[l.target]?) =
      (targetsOf addresses read o.value.id).map some

lemma map_of_stores {links : List (HardLink Unit ObjectId)} (h : w.Stores links stored) :
    stored.map (fun l => w.admitted[l.target]?) = (links.map HardLink.target).map some := by
  induction h with
  | nil => rfl
  | cons hhead _ ih => simp only [map_cons, ih, hhead.2]

lemma faithful_step {id : ObjectId} {d d' : Discovery TopologyObject Unit (OrdMap ObjectId ℕ)}
    {expansion : Expansion TopologyObject Unit} (hcached : Agrees addresses read cached)
    (hinv : d.worklist.Inv) (h : Faithful addresses read root d)
    (hnext : d.worklist.next = some id)
    (hexp : ObjectGraph.Expanded (expand addresses cached read) id d d' expansion stored) :
    Faithful addresses read root d' := by
  obtain ⟨hpresent, htargets⟩ := expand_targets hcached hexp.expand_eq
  constructor
  · intro x hx
    rcases hexp.targets x hx with hx | ⟨l, hl, rfl⟩
    · exact h.reached x hx
    · apply (h.reached id (mem_of_getElem? hnext)).tail
      rw [← htargets]
      exact mem_map_of_mem hl
  · intro o ho
    rw [hexp.expanded] at ho
    rcases mem_append.mp ho with ho | ho
    · refine ⟨(h.links o ho).1, ?_⟩
      rw [← (h.links o ho).2]
      apply map_congr_left
      intro l hl
      obtain ⟨new, hnew⟩ := hexp.admitted
      rw [← hnew, getElem?_append_left (hinv.targets o ho l hl)]
    · rw [mem_singleton] at ho
      subst ho
      have hid := (expand_spec hexp.expand_eq).1
      refine ⟨hid ▸ hpresent, ?_⟩
      show stored.map _ = (targetsOf addresses read expansion.value.id).map some
      rw [map_of_stores hexp.stores, htargets, hid]

section

variable (hcached : Agrees addresses read cached)
  (h : discoverCached addresses root budget cached read identity = .ok t)

include hcached h

/-- The objects of a topology are reached from the root and hold their links. -/
lemma discoverCached_faithful :
    ∀ o ∈ t.graph.objects, ReachedFrom addresses read root o.value.id ∧
      (∃ entries, read o.value.id = .ok entries) ∧
      o.links.map (fun l => t.idAt l.target) =
        (targetsOf addresses read o.value.id).map some := by
  obtain ⟨d, rfl, hinv, ⟨hcounted, hfaithful⟩, hnext⟩ := discoverCached_induct h
    (P := fun d => Counted root d ∧ Faithful addresses read root d)
    (fun w hadm hexpanded =>
      ⟨⟨by simp [hadm], by simp [hexpanded], by simp [hexpanded]⟩,
        by simp [hadm, ReachedFrom, Relation.ReflTransGen.refl], by simp [hexpanded]⟩)
    (fun _ _ _ _ _ hinv hP hnext hexp =>
      ⟨counted_step hinv hP.1 hnext hexp, faithful_step hcached hinv hP.2 hnext hexp⟩)
  intro o ho
  obtain ⟨i, hi⟩ := getElem?_of_mem ho
  refine ⟨hfaithful.reached _ (mem_of_getElem? (hcounted.ids i o hi)),
    (hfaithful.links o ho).1, ?_⟩
  rw [← (hfaithful.links o ho).2]
  apply map_congr_left
  intro l _
  exact hcounted.idAt_eq hnext rfl l.target

/-- A link in the file of an object of the topology is one of its stored links. -/
lemma exists_stored_of_mem {o : GraphObject TopologyObject Unit} {x : ObjectId}
    (ho : o ∈ t.graph.objects) (hx : x ∈ targetsOf addresses read o.value.id) :
    ∃ l ∈ o.links, t.idAt l.target = some x := by
  have hmem : some x ∈ o.links.map (fun l => t.idAt l.target) := by
    rw [(discoverCached_faithful hcached h o ho).2.2]
    exact mem_map_of_mem hx
  exact mem_map.mp hmem

lemma exists_idAt_of_reached {x : ObjectId} (hx : ReachedFrom addresses read root x) :
    ∃ i, t.idAt i = some x := by
  induction hx with
  | refl => exact ⟨0, (discoverCached_complete h).root⟩
  | tail _ hlink ih =>
    obtain ⟨i, hi⟩ := ih
    obtain ⟨o, ho, rfl⟩ := Option.map_eq_some_iff.mp hi
    obtain ⟨l, -, hl⟩ := exists_stored_of_mem hcached h (mem_of_getElem? ho) hlink
    exact ⟨l.target, hl⟩

end

/-- **A topology is what the root reaches.** Whatever the base and the width of addresses, and
whatever adjacency an earlier query has cached, it has the objects hard links of the file lead to
from the root, and no others, each at one position and with its hard links in their order. -/
theorem topology_exact (hcached : Agrees addresses read cached)
    (h : discoverCached addresses root budget cached read identity = .ok t) :
    (∀ x, (∃ i, t.idAt i = some x) ↔ ReachedFrom addresses read root x) ∧
      (∀ i j x, t.idAt i = some x → t.idAt j = some x → i = j) ∧
      ∀ o ∈ t.graph.objects,
        o.links.map (fun l => t.idAt l.target) =
          (targetsOf addresses read o.value.id).map some := by
  refine ⟨fun x => ⟨?_, exists_idAt_of_reached hcached h⟩, fun i j x hi hj => ?_,
    fun o ho => (discoverCached_faithful hcached h o ho).2.2⟩
  · rintro ⟨i, hi⟩
    obtain ⟨o, ho, rfl⟩ := Option.map_eq_some_iff.mp hi
    exact (discoverCached_faithful hcached h o (mem_of_getElem? ho)).1
  · rw [← (discoverCached_complete h).indexed] at hi hj
    exact Option.some_inj.mp (hi.symm.trans hj)

/-- The root at 608 links to a group that links back, both stored below a base of 512. -/
def backLinked (id : ObjectId) : Except Error (List GroupEntry) :=
  if id = 608 then .ok [⟨"a", 200⟩] else if id = 712 then .ok [⟨"back", 96⟩] else .ok []

/-- The links of the group below `backLinked`, as an earlier query has cached them. -/
def cachedBack : OrdMap ObjectId ObjectLinks := OrdMap.empty.insert 712 ⟨[⟨"back", 608⟩], none⟩

theorem topology_exact_cached :
    ∃ t, discoverCached ⟨512, 4⟩ 608 ⟨8, 8⟩ cachedBack backLinked 0 = .ok t ∧
      (t.idAt 0, t.idAt 1, t.idAt 2) = (some 608, some 712, none) ∧
      ∀ x, (∃ i, t.idAt i = some x) ↔ ReachedFrom ⟨512, 4⟩ backLinked 608 x := by
  have hcached : Agrees ⟨512, 4⟩ backLinked cachedBack := by
    intro id links h
    obtain ⟨rfl, rfl⟩ | ⟨-, h⟩ := OrdMap.get?_insert_eq_some.mp h
    · exact ⟨_, rfl, rfl⟩
    · rw [OrdMap.get?_empty] at h
      cases h
  obtain ⟨t, ht⟩ : ∃ t, discoverCached ⟨512, 4⟩ 608 ⟨8, 8⟩ cachedBack backLinked 0 = .ok t :=
    ⟨_, rfl⟩
  refine ⟨t, ht, ?_, (topology_exact hcached ht).1⟩
  cases ht
  rfl

/-! ## Edges -/

section

variable {t : CompleteTopology} {root : ObjectId}

variable {x : ObjectId}

lemma object_of_idAt {i : ℕ} (h : t.idAt i = some x) : ∃ o, t.object i = some o ∧ o.value.id = x :=
  Option.map_eq_some_iff.mp h

lemma exists_edge_of_mem_children (h : t.Complete root) {child : ObjectId}
    (hchild : child ∈ t.children x) : ∃ e, t.linkGraph.Edge e x child := by
  unfold children at hchild
  cases hindex : t.indices.get? x with
  | none => rw [hindex] at hchild; cases hchild
  | some index =>
    rw [hindex] at hchild
    obtain ⟨o, ho, hx⟩ := object_of_idAt ((h.indexed x index).mp hindex)
    simp only [ho, mem_filterMap] at hchild
    obtain ⟨l, hl, htgt⟩ := hchild
    obtain ⟨o', ho', hid⟩ := Option.map_eq_some_iff.mp htgt
    obtain ⟨position, hposition⟩ := getElem?_of_mem hl
    exact ⟨⟨index, position⟩, o, l, o', ho, hx, hposition, ho', hid⟩

private lemma exists_edge_of_findLinkFrom (path : ObjectPath) {index : ObjectIndex}
    {found : Option (LinkIndex × ObjectId)} {e : LinkIndex} {x : ObjectId}
    (h : t.findLinkFrom index found path = some (e, x))
    (hfound : ∀ e x, found = some (e, x) → ∃ a, t.linkGraph.Edge e a x) :
    ∃ a, t.linkGraph.Edge e a x := by
  induction path generalizing index found e x with
  | nil => exact hfound e x h
  | cons name path ih =>
    simp only [findLinkFrom, Option.bind_eq_bind, Option.bind_eq_some_iff] at h
    obtain ⟨o, ho, position, -, l, hl, o', ho', h⟩ := h
    apply ih h
    rintro e x ⟨⟩
    exact ⟨o.value.id, o, l, o', ho, rfl, hl, ho', rfl⟩

/-- A link found by path is an edge to the object found. -/
lemma exists_edge_of_findLink {path : ObjectPath} (h : t.findLink path = some (e, x)) :
    ∃ a, t.linkGraph.Edge e a x :=
  exists_edge_of_findLinkFrom path h (fun _ _ hnone => nomatch hnone)

lemma edge_target_unique {a a' b b' : ObjectId} (h : t.linkGraph.Edge e a b)
    (h' : t.linkGraph.Edge e a' b') : b = b' := by
  obtain ⟨o, l, target, ho, -, hl, htgt, rfl⟩ := h
  obtain ⟨o', l', target', ho', -, hl', htarget', rfl⟩ := h'
  cases ho.symm.trans ho'
  cases hl.symm.trans hl'
  cases htgt.symm.trans htarget'
  rfl

/-- An object with one counted link is the target of one edge. -/
lemma Complete.soleTarget (h : t.Complete root)
    (hx : t.incomingLinks x = some 1) : t.linkGraph.SoleTarget x := by
  have hcount : t.linksTo x ≤ 1 := by
    rw [← h.counts x, hx]
    exact le_rfl
  rintro ⟨i, p⟩ ⟨i', p'⟩ a a' ⟨o, l, o₁, ho, ha, hl, ho₁, hx₁⟩ ⟨o', l', o₁', ho', ha', hl', ho₁', hx₁'⟩
  have hobjects : ∀ {j : ℕ} {o : GraphObject TopologyObject Unit}, t.object j = some o →
      (t.graph.objects.map fun o => o.links)[j]? = some o.links := by
    intro j o hj
    rw [getElem?_map]
    exact congrArg _ hj
  obtain ⟨rfl, rfl⟩ := countP_flatten_position_unique hcount (hobjects ho) hl
    (by simp [idAt, ho₁, hx₁]) (hobjects ho') hl' (by simp [idAt, ho₁', hx₁'])
  have hsame : o = o' := Option.some_inj.mp (ho.symm.trans ho')
  exact ⟨rfl, by rw [← ha, ← ha', hsame]⟩

end

end CompleteTopology

end Hdf5Pure.Edit
