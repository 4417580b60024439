import Hdf5Pure.Edit.CommitPlan
import Hdf5Pure.Edit.TopologyTheorems

/-!
# Paths and links of a file

Resolution of a path as repeated lookup of a hard link, the objects the root reaches, and what the
topology of a phase says about the links to one object.
-/

namespace Hdf5Pure.Edit

open List

variable {name : String} {r : LinkRecord} {y id : ObjectId}
  {expansion : Expansion TopologyObject Unit} {stored : List (HardLink Unit ObjectIndex)}
  {o : GraphObject TopologyObject Unit}

namespace File

variable (file : File)

def linksOf (x : ObjectId) : List LinkRecord :=
  match file.objects.get? x with
  | some (.group links) => links
  | _ => []

def child (x : ObjectId) (name : String) : Option ObjectId :=
  (findNamed (file.linksOf x) name).bind LinkRecord.hardTarget

def follow : ObjectId → ObjectPath → Option ObjectId
  | x, [] => some x
  | x, name :: path => (file.child x name).bind fun y => follow y path

def Links (a b : ObjectId) : Prop := ∃ r ∈ file.linksOf a, r.hardTarget = some b

/-- The root reaches `x` through hard links. -/
def Reaches (x : ObjectId) : Prop := Relation.ReflTransGen file.Links file.root x

variable {file}

variable {x : ObjectId} {path : ObjectPath}

variable {links : List LinkRecord}

lemma linksOf_group (h : file.objects.get? x = some (.group links)) : file.linksOf x = links := by
  rw [linksOf, h]

lemma findNamed_name (h : findNamed links name = some r) : r ∈ links ∧ r.name = name :=
  ⟨mem_of_find?_eq_some h, by simpa using find?_some h⟩

/-- With distinct names the first link of a name is any link of it. -/
lemma findNamed_of_nodup (hnd : (links.map LinkRecord.name).Nodup) (hr : r ∈ links) :
    findNamed links r.name = some r := by
  cases hfind : findNamed links r.name with
  | none => simpa using find?_eq_none.mp hfind r hr
  | some r' =>
    obtain ⟨hr', hname⟩ := findNamed_name hfind
    rw [inj_on_of_nodup_map hnd hr' hr hname]

lemma child_links (h : file.child x name = some y) : file.Links x y := by
  obtain ⟨r, hr, htgt⟩ := Option.bind_eq_some_iff.mp h
  exact ⟨r, (findNamed_name hr).1, htgt⟩

lemma follow_append (path rest : ObjectPath) :
    ∀ x, file.follow x (path ++ rest) = (file.follow x path).bind fun y => file.follow y rest := by
  induction path with
  | nil => intro x; rfl
  | cons name path ih =>
    intro x
    show (file.child x name).bind (fun y => file.follow y (path ++ rest)) = _
    simp only [ih, follow, Option.bind_assoc]

lemma follow_concat :
    file.follow x (path ++ [name]) = some y ↔
      ∃ z, file.follow x path = some z ∧ file.child z name = some y := by
  rw [follow_append, Option.bind_eq_some_iff]
  simp [follow]

lemma reflTransGen_of_follow {x y : ObjectId} (h : file.follow x path = some y) :
    Relation.ReflTransGen file.Links x y := by
  induction path generalizing x y with
  | nil =>
    cases h
    exact .refl
  | cons name path ih =>
    obtain ⟨z, hz, hy⟩ := Option.bind_eq_some_iff.mp h
    exact .head (child_links hz) (ih hy)

lemma reaches_of_follow (h : file.follow file.root path = some x) : file.Reaches x :=
  reflTransGen_of_follow h

/-- Resolution is repeated lookup. -/
lemma resolveFrom_eq_ok {rest : ObjectPath} {current x : ObjectId} {walked : ObjectPath} :
    file.resolveFrom current walked rest = .ok x ↔ file.follow current rest = some x := by
  induction rest generalizing current x walked with
  | nil =>
    rw [resolveFrom, follow, Except.ok.injEq, Option.some_inj]
  | cons name rest ih =>
    rw [resolveFrom, follow, child, linksOf]
    cases hobj : file.objects.get? current with
    | none => simp [findNamed]
    | some object =>
      cases object with
      | dataset => simp [findNamed]
      | group links =>
        simp only
        cases htgt : (findNamed links name).bind LinkRecord.hardTarget with
        | none => simp
        | some y => simpa using ih

lemma resolve_eq_ok : file.resolve path = .ok x ↔ file.follow file.root path = some x :=
  resolveFrom_eq_ok

/-! ## Counted links -/

/-- The number of hard links of `a` to `x`. -/
def countTo (file : File) (a x : ObjectId) : ℕ :=
  (file.linksOf a).countP fun r => decide (r.hardTarget = some x)

/-- The objects the root reaches are in the file, and among them one hard link targets `x`. -/
structure SingleLink (file : File) (x : ObjectId) : Prop where
  present : ∀ a, file.Reaches a → ∃ object, file.objects.get? a = some object
  owner : ∀ a b, file.Reaches a → file.Reaches b → file.Links a x → file.Links b x → a = b
  count : ∀ a, file.Reaches a → file.countTo a x ≤ 1

end File

namespace CompleteTopology

open File

variable {file : File}

def hardTargets (file : File) (x : ObjectId) : List ObjectId :=
  (file.linksOf x).filterMap LinkRecord.hardTarget

variable {x : ObjectId}

/-- The entries of a file, which has base 0, target what its hard links target. -/
lemma targetsOf_entries (file : File) (x : ObjectId) :
    targetsOf ⟨0, 8⟩ file.entries x = hardTargets file x := by
  unfold targetsOf File.entries hardTargets linksOf
  cases file.objects.get? x with
  | none => rfl
  | some object =>
    cases object with
    | dataset => rfl
    | group links =>
      simp only [map_filterMap, Option.map_map, Function.comp_def, Option.map_id', Nat.add_zero]

lemma reachedFrom_entries : ReachedFrom ⟨0, 8⟩ file.entries file.root x ↔ file.Reaches x := by
  have hlinks : (fun a b => b ∈ targetsOf ⟨0, 8⟩ file.entries a) = file.Links := by
    funext a b
    rw [targetsOf_entries]
    exact propext mem_filterMap
  rw [ReachedFrom, hlinks]
  rfl

lemma agrees_empty (read : ObjectId → Except Error (List GroupEntry)) :
    Agrees ⟨0, 8⟩ read .empty := by
  intro id links h
  cases h

variable {t : CompleteTopology}

section

variable (h : file.topology = some t)

include h

lemma discover_of_topology :
    discoverCached ⟨0, 8⟩ file.root ⟨2 ^ 24, 2 ^ 64 - 1⟩ .empty file.entries 0 = .ok t := by
  unfold File.topology at h
  cases hd : discoverCached ⟨0, 8⟩ file.root ⟨2 ^ 24, 2 ^ 64 - 1⟩ .empty file.entries 0 with
  | error e => rw [hd] at h; cases h
  | ok t' =>
    rw [hd] at h
    cases h
    rfl

/-- A topology of the file holds objects of the file and their links. -/
lemma topology_links :
    ∀ o ∈ t.graph.objects, (∃ object, file.objects.get? o.value.id = some object) ∧
      o.links.map (fun l => t.idAt l.target) = (hardTargets file o.value.id).map some := by
  intro o ho
  obtain ⟨-, ⟨entries, hents⟩, hlinks⟩ :=
    discoverCached_faithful (agrees_empty _) (discover_of_topology h) o ho
  rw [targetsOf_entries] at hlinks
  refine ⟨?_, hlinks⟩
  unfold File.entries at hents
  cases hobj : file.objects.get? o.value.id with
  | none => rw [hobj] at hents; cases hents
  | some object => exact ⟨object, rfl⟩

lemma exists_idAt_of_reaches (hx : file.Reaches x) : ∃ i, t.idAt i = some x :=
  exists_idAt_of_reached (agrees_empty _) (discover_of_topology h) (reachedFrom_entries.mpr hx)

/-- The counted links of an object of the topology are its hard links in the file. -/
lemma countP_links (ho : o ∈ t.graph.objects) (x : ObjectId) :
    (o.links.countP fun l => decide (t.idAt l.target = some x)) = file.countTo o.value.id x := by
  have hcount := congrArg (countP fun y => decide (y = some x)) (topology_links h o ho).2
  rw [countP_map, countP_map, hardTargets, countP_filterMap] at hcount
  refine hcount.trans (countP_congr ?_)
  intro r _
  cases r.hardTarget <;> simp

/-- A link of a reachable object is an edge of the topology. -/
lemma exists_edge_of_links {a : ObjectId} (ha : file.Reaches a)
    (hlink : file.Links a x) : ∃ e, t.linkGraph.Edge e a x := by
  obtain ⟨i, hi⟩ := exists_idAt_of_reaches h ha
  obtain ⟨o, ho, rfl⟩ := object_of_idAt hi
  have hmem : x ∈ targetsOf ⟨0, 8⟩ file.entries o.value.id := by
    rw [targetsOf_entries]
    exact mem_filterMap.mpr hlink
  obtain ⟨l, hl, hid⟩ := exists_stored_of_mem (agrees_empty _) (discover_of_topology h)
    (mem_of_getElem? ho) hmem
  obtain ⟨o', ho', hx⟩ := object_of_idAt hid
  obtain ⟨position, hposition⟩ := getElem?_of_mem hl
  exact ⟨⟨i, position⟩, o, l, o', ho, rfl, hposition, ho', hx⟩

/-- **One counted link is one hard link.** -/
theorem singleLink_of_incoming (hx : t.incomingLinks x = some 1) : file.SingleLink x := by
  have hcomplete := discoverCached_complete (discover_of_topology h)
  constructor
  · intro a ha
    obtain ⟨i, hi⟩ := exists_idAt_of_reaches h ha
    obtain ⟨o, ho, rfl⟩ := object_of_idAt hi
    exact (topology_links h o (mem_of_getElem? ho)).1
  · intro a b ha hb hlink hlink'
    obtain ⟨e, hedge⟩ := exists_edge_of_links h ha hlink
    obtain ⟨e', hedge'⟩ := exists_edge_of_links h hb hlink'
    exact (hcomplete.soleTarget hx hedge hedge').2
  · intro a ha
    obtain ⟨i, hi⟩ := exists_idAt_of_reaches h ha
    obtain ⟨o, ho, rfl⟩ := object_of_idAt hi
    have hmem := mem_of_getElem? ho
    rw [← countP_links h hmem]
    have hle : _ ≤ t.linksTo x :=
      (sublist_flatten_of_mem (mem_map_of_mem hmem)).countP_le
    have hone : t.linksTo x = 1 := by rw [← hcomplete.counts x, hx]; rfl
    exact hone ▸ hle

end

end CompleteTopology

end Hdf5Pure.Edit
