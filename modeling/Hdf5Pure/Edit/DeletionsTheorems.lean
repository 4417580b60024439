import Hdf5Pure.Edit.Deletions
import Hdf5Pure.Edit.TopologyTheorems

/-!
# Which objects a deletion frees

The walk frees an object it enters through the object's only counted link, which is removed or
belongs to a group freed just before. The root is the exception: the superblock holds it, and no
link.
-/

namespace Hdf5Pure.Edit

open List

/-- A list without consecutive repetitions of a key keeps every key. -/
lemma exists_mem_destutter {α κ : Type} [DecidableEq κ] (f : α → κ) {l : List α} {a : α}
    (h : a ∈ l) : ∃ b ∈ l.destutter fun a b => f a ≠ f b, f b = f a := by
  cases l with
  | nil => cases h
  | cons c l =>
    rw [destutter_cons']
    induction l generalizing a c with
    | nil =>
      rw [mem_singleton.mp h]
      exact ⟨c, by simp, rfl⟩
    | cons d l ih =>
      by_cases hkey : f c ≠ f d
      · rw [destutter'_cons_pos l hkey]
        rcases mem_cons.mp h with rfl | h
        · exact ⟨a, mem_cons_self, rfl⟩
        · obtain ⟨b, hb, hbkey⟩ := ih d h
          exact ⟨b, mem_cons_of_mem _ hb, hbkey⟩
      · rw [destutter'_cons_neg l hkey]
        rcases mem_cons.mp h with rfl | h
        · exact ih a mem_cons_self
        · rcases mem_cons.mp h with rfl | h
          · -- the dropped element has the key of the one before it
            obtain ⟨b, hb, hbkey⟩ := ih c mem_cons_self
            exact ⟨b, hb, hbkey.trans (not_not.mp hkey)⟩
          · exact ih c (mem_cons_of_mem _ h)

variable {Span : Type} (storage : ObjectId → Option (List Span × ObjectStorageKind))

def spansOf (x : ObjectId) : List Span := ((storage x).map Prod.fst).getD []

namespace CompleteTopology

def freedWithin (t : CompleteTopology) : ℕ → ObjectId → List ObjectId
  | 0, _ => []
  | remaining + 1, addr =>
    if t.incomingLinks addr ≠ some 1 then []
    else
      match storage addr with
      | none => []
      | some (_, .dataset) => [addr]
      | some (_, .group) => addr :: (t.children addr).flatMap (freedWithin t remaining)

variable {storage} {t : CompleteTopology} {root : ObjectId}

/-- The walk appends the allocations of the objects it frees. -/
lemma collectFreeSpansWithin_eq (remaining : ℕ) :
    ∀ (addr : ObjectId) (out : List Span), t.collectFreeSpansWithin storage remaining addr out =
      out ++ (t.freedWithin storage remaining addr).flatMap (spansOf storage) := by
  induction remaining with
  | zero =>
    intro addr out
    simp [collectFreeSpansWithin, freedWithin]
  | succ remaining ih =>
    intro addr out
    unfold collectFreeSpansWithin freedWithin
    by_cases hin : t.incomingLinks addr ≠ some 1
    · rw [if_pos hin, if_pos hin, flatMap_nil, append_nil]
    rw [if_neg hin, if_neg hin]
    cases hs : storage addr with
    | none => simp
    | some s =>
      obtain ⟨spans, kind⟩ := s
      have hspans : spansOf storage addr = spans := by simp [spansOf, hs]
      cases kind with
      | dataset => simp [hspans]
      | group =>
        -- the children append one after the other
        have hfold : ∀ (children : List ObjectId) (out : List Span),
            children.foldl (fun out child => t.collectFreeSpansWithin storage remaining child out)
              out = out ++ (children.flatMap (t.freedWithin storage remaining)).flatMap
                (spansOf storage) := by
          intro children
          induction children with
          | nil => simp
          | cons child children ihc =>
            intro out
            rw [foldl_cons, ihc, ih, flatMap_cons, flatMap_append,
              append_assoc]
        simp only [hfold, flatMap_cons, hspans, append_assoc]

lemma freedWithin_succ_of_incoming {remaining : ℕ} {addr : ObjectId}
    (hin : t.incomingLinks addr = some 1) (x : ObjectId) :
    x ∈ t.freedWithin storage (remaining + 1) addr ↔
      (x = addr ∧ (storage addr).isSome) ∨ ((storage addr).map Prod.snd = some .group ∧
        ∃ child ∈ t.children addr, x ∈ t.freedWithin storage remaining child) := by
  rw [freedWithin, if_neg (not_not.mpr hin)]
  cases hs : storage addr with
  | none => simp
  | some s =>
    obtain ⟨spans, kind⟩ := s
    cases kind with
    | dataset => simp
    | group => simp

/-- What a freed object is entered through: its only link, which is removed or cut off. -/
lemma freed_not_reaches (h : t.Complete root) {removed : Set LinkIndex} (remaining : ℕ)
    {addr a : ObjectId} {e : LinkIndex} (hedge : t.linkGraph.Edge e a addr)
    (hcut : e ∈ removed ∨ ¬ t.linkGraph.Reaches root removed a)
    (hroot : root ∉ t.freedWithin storage remaining addr) :
    ∀ x ∈ t.freedWithin storage remaining addr, ¬ t.linkGraph.Reaches root removed x := by
  induction remaining generalizing addr a e with
  | zero =>
    intro x hx
    cases hx
  | succ remaining ih =>
    intro x hx
    by_cases hin : t.incomingLinks addr = some 1
    · rw [freedWithin_succ_of_incoming hin] at hroot hx
      have hcutoff : (storage addr).isSome → ¬ t.linkGraph.Reaches root removed addr := by
        intro hsome
        apply Multigraph.not_reaches_of_soleTarget (h.soleTarget hin) _ hedge hcut
        exact fun heq => hroot (.inl ⟨heq.symm, hsome⟩)
      rcases hx with ⟨rfl, hsome⟩ | ⟨hgroup, child, hchild, hx⟩
      · exact hcutoff hsome
      · -- a child is entered from the freed group
        obtain ⟨e', hedge'⟩ := exists_edge_of_mem_children h hchild
        obtain ⟨s, hs, -⟩ := Option.map_eq_some_iff.mp hgroup
        apply ih hedge' (.inr (hcutoff (by simp [hs]))) _ x hx
        exact fun hmem => hroot (.inr ⟨hgroup, child, hchild, hmem⟩)
    · rw [freedWithin, if_pos hin] at hx
      cases hx

/-- A descent of the walk: at most `levels` objects, each a child of the group before it, with one
counted link. -/
def Descends (t : CompleteTopology) (storage : ObjectId → Option (List Span × ObjectStorageKind))
    (levels : ℕ) (target x : ObjectId) : Prop :=
  ∃ chain : List ObjectId, (target :: chain).getLast? = some x ∧ chain.length < levels ∧
    (target :: chain).IsChain (fun a b => b ∈ t.children a ∧
      (storage a).map Prod.snd = some .group) ∧
    (∀ a ∈ target :: chain, t.incomingLinks a = some 1) ∧ (storage x).isSome

/-- The objects the walk frees are those it descends to. -/
lemma mem_freedWithin_iff (levels : ℕ) {target x : ObjectId} :
    x ∈ t.freedWithin storage levels target ↔ t.Descends storage levels target x := by
  induction levels generalizing target x with
  | zero =>
    constructor
    · intro hx
      cases hx
    · rintro ⟨chain, -, hlen, -⟩
      exact absurd hlen (Nat.not_lt_zero _)
  | succ levels ih =>
    by_cases hin : t.incomingLinks target = some 1
    · rw [freedWithin_succ_of_incoming hin]
      constructor
      · rintro (⟨rfl, hsome⟩ | ⟨hgroup, child, hchild, hx⟩)
        · exact ⟨[], rfl, Nat.succ_pos _, isChain_singleton _, by simpa using hin, hsome⟩
        · -- the child's descent, with the target in front
          obtain ⟨chain, hlast, hlen, hchain, hsingle, hsome⟩ := ih.mp hx
          refine ⟨child :: chain, by rw [getLast?_cons_cons]; exact hlast, ?_, ?_, ?_, hsome⟩
          · rw [length_cons]
            omega
          · exact isChain_cons_cons.mpr ⟨⟨hchild, hgroup⟩, hchain⟩
          · intro a ha
            rcases mem_cons.mp ha with rfl | ha
            · exact hin
            · exact hsingle a ha
      · rintro ⟨chain, hlast, hlen, hchain, hsingle, hsome⟩
        cases chain with
        | nil =>
          have htgt : target = x := by simpa using hlast
          exact .inl ⟨htgt.symm, htgt ▸ hsome⟩
        | cons child chain =>
          rw [isChain_cons_cons] at hchain
          rw [length_cons] at hlen
          refine .inr ⟨hchain.1.2, child, hchain.1.1, ih.mpr ⟨chain, hlast, by omega, hchain.2, ?_,
            hsome⟩⟩
          exact fun a ha => hsingle a (mem_cons_of_mem _ ha)
    · rw [freedWithin, if_pos hin]
      constructor
      · intro hx
        cases hx
      · rintro ⟨chain, -, -, -, hsingle, -⟩
        exact absurd (hsingle target mem_cons_self) hin

end CompleteTopology

variable {edges : List (LinkIndex × ObjectId)} {x : ObjectId} {removed : RemovedLinks}
  {paths : List ObjectPath} {topology : Option CompleteTopology}

namespace RemovedLinks

variable {storage} {t : CompleteTopology} {root : ObjectId}

def freed (storage : ObjectId → Option (List Span × ObjectStorageKind)) (removed : RemovedLinks) :
    List ObjectId :=
  match removed.topology with
  | none => []
  | some t => removed.targets.flatMap (t.freedWithin storage maxLinkWalkDepth)

lemma collectFreeSpans_eq (removed : RemovedLinks) (out : List Span) :
    removed.collectFreeSpans storage out =
      (out ++ (removed.freed storage).flatMap (spansOf storage), removed.targets) := by
  unfold collectFreeSpans freed
  cases removed.topology with
  | none => simp
  | some t =>
    simp only [Prod.mk.injEq, and_true]
    generalize removed.targets = targets
    induction targets generalizing out with
    | nil => simp
    | cons target targets ih =>
      rw [foldl_cons, ih, CompleteTopology.collectFreeSpans,
        CompleteTopology.collectFreeSpansWithin_eq, flatMap_cons, flatMap_append,
        append_assoc]
      rfl

lemma mem_distinctEdges {p : LinkIndex × ObjectId} (h : p ∈ distinctEdges edges) : p ∈ edges :=
  (mem_insertionSort _).mp ((destutter_sublist _ _).subset h)

lemma mem_targets : x ∈ removed.targets ↔ x ∈ removed.edges.map Prod.snd ++ removed.unresolved := by
  constructor
  · intro h
    exact (mem_insertionSort _).mp ((destutter_sublist _ _).subset h)
  · intro h
    obtain ⟨x', hmem, rfl⟩ := exists_mem_destutter id ((mem_insertionSort (· ≤ ·)).mpr h)
    exact hmem

lemma bindEach_planned (removed : RemovedLinks) {deletions : List PlannedDeletion}
    (h : paths.mapM t.deletion = some deletions) :
    ∃ edges, bindEach (some t) deletions removed =
        .ok { removed with edges := removed.edges ++ edges } ∧
      ∀ e x, (e, x) ∈ edges ↔ ∃ path ∈ paths, t.findLink path = some (e, x) := by
  induction paths generalizing removed deletions with
  | nil =>
    cases h
    exact ⟨[], by simp [bindEach], by simp⟩
  | cons path paths ih =>
    rw [mapM_cons] at h
    simp only [Option.bind_eq_bind, Option.bind_eq_some_iff] at h
    obtain ⟨d, hd, rest, hrest, hcons⟩ := h
    cases hcons
    simp only [CompleteTopology.deletion, Option.bind_eq_bind, Option.bind_eq_some_iff,
      Option.some_inj] at hd
    obtain ⟨⟨-, name⟩, -, ⟨e, x⟩, hfind, rfl⟩ := hd
    obtain ⟨edges, hbind, hedges⟩ :=
      ih { removed with edges := removed.edges ++ [(e, x)] } hrest
    refine ⟨(e, x) :: edges, ?_, ?_⟩
    · simp [bindEach, hbind]
    · intro e' x'
      rw [mem_cons, hedges]
      simp only [mem_cons, exists_eq_or_imp, hfind, Option.some_inj]
      rw [eq_comm]

variable {deletions : List PlannedDeletion}

/-- Deletions planned in a topology bind to it, and their targets are the targets of links the
paths name. -/
lemma bind_planned (h : paths.mapM t.deletion = some deletions) :
    ∃ removed, bind (some t) deletions = .ok removed ∧ removed.topology = some t ∧
      ∀ x, x ∈ removed.targets ↔ ∃ path ∈ paths, ∃ e, t.findLink path = some (e, x) := by
  obtain ⟨edges, hbind, hedges⟩ := bindEach_planned ⟨some t, [], []⟩ h
  refine ⟨⟨some t, distinctEdges edges, []⟩, by simp [bind, hbind], rfl, ?_⟩
  intro x
  rw [mem_targets, append_nil, mem_map]
  constructor
  · rintro ⟨⟨e, x⟩, hex, rfl⟩
    obtain ⟨path, hpath, hfind⟩ := (hedges e x).mp (mem_distinctEdges hex)
    exact ⟨path, hpath, e, hfind⟩
  · rintro ⟨path, hpath, e, hfind⟩
    obtain ⟨⟨e, x'⟩, hex', rfl⟩ := exists_mem_destutter Prod.fst
      ((mem_insertionSort edgeOrder).mpr ((hedges e x).mpr ⟨path, hpath, hfind⟩))
    obtain ⟨path', -, hfind'⟩ := (hedges e x').mp (mem_distinctEdges hex')
    -- an edge has one target, whichever path names it
    obtain ⟨a, hedge⟩ := CompleteTopology.exists_edge_of_findLink hfind
    obtain ⟨a', hedge'⟩ := CompleteTopology.exists_edge_of_findLink hfind'
    rw [CompleteTopology.edge_target_unique hedge hedge']
    exact ⟨_, hex', rfl⟩

/-- Without a topology only the targets are known. -/
lemma bindEach_topology {removed removed' : RemovedLinks}
    (h : bindEach topology deletions removed = .ok removed') :
    removed'.topology = removed.topology := by
  induction deletions generalizing removed removed' with
  | nil =>
    cases h
    rfl
  | cons d deletions ih =>
    unfold bindEach at h
    cases htgt : d.target with
    | complete identity e x =>
      rw [htgt] at h
      rw [ih (ite_else_error_eq_ok.mp h).2]
    | unresolved x =>
      rw [htgt] at h
      rw [ih h]

lemma bind_topology (h : bind topology deletions = .ok removed) : removed.topology = topology := by
  unfold bind at h
  cases hbind : bindEach topology deletions ⟨topology, [], []⟩ with
  | error e => rw [hbind] at h; cases h
  | ok r =>
    rw [hbind] at h
    cases h
    exact bindEach_topology hbind

end RemovedLinks

/-! ## Soundness of a removal -/

def CompleteTopology.edgesAt (t : CompleteTopology) (paths : List ObjectPath) : Set LinkIndex :=
  {e | ∃ path ∈ paths, ∃ x, t.findLink path = some (e, x)}

/-- **The storage a removal collects.** Deletions planned by paths of a discovered topology append
the allocations of the freed objects. These are all cut off from the root by the removed edges
exactly if no removed link leads down to the root through objects with one counted link each.
Without a topology nothing is appended. -/
theorem RemovedLinks.freed_unreachable_iff {addresses : AddressContext} {root : ObjectId}
    {budget : TraversalBudget} {cached : OrdMap ObjectId ObjectLinks}
    {read : ObjectId → Except Error (List GroupEntry)} {identity : ℕ} {t : CompleteTopology}
    (hdiscover : CompleteTopology.discoverCached addresses root budget cached read identity = .ok t)
    {paths : List ObjectPath} {deletions : List PlannedDeletion}
    (hplan : paths.mapM t.deletion = some deletions)
    (storage : ObjectId → Option (List Span × ObjectStorageKind)) (out : List Span) :
    (∃ removed, RemovedLinks.bind (some t) deletions = .ok removed ∧
      (removed.collectFreeSpans storage out).1 =
        out ++ (removed.freed storage).flatMap (spansOf storage) ∧
      ((∀ x ∈ removed.freed storage, ¬ t.linkGraph.Reaches root (t.edgesAt paths) x) ↔
        ¬ ∃ path ∈ paths, ∃ e target, t.findLink path = some (e, target) ∧
          t.Descends storage maxLinkWalkDepth target root)) ∧
    ∀ deletions removed, RemovedLinks.bind none deletions = .ok removed →
      (removed.collectFreeSpans storage out).1 = out := by
  have hcomplete := CompleteTopology.discoverCached_complete hdiscover
  obtain ⟨removed, hbind, htopology, htargets⟩ := RemovedLinks.bind_planned hplan
  have hfreed : removed.freed storage =
      removed.targets.flatMap (t.freedWithin storage maxLinkWalkDepth) := by
    rw [RemovedLinks.freed, htopology]
  have hroot : root ∈ removed.freed storage ↔
      ∃ path ∈ paths, ∃ e target, t.findLink path = some (e, target) ∧
        t.Descends storage maxLinkWalkDepth target root := by
    simp only [hfreed, mem_flatMap, htargets, CompleteTopology.mem_freedWithin_iff]
    constructor
    · rintro ⟨target, ⟨path, hpath, e, hfind⟩, hdescends⟩
      exact ⟨path, hpath, e, target, hfind, hdescends⟩
    · rintro ⟨path, hpath, e, target, hfind, hdescends⟩
      exact ⟨target, ⟨path, hpath, e, hfind⟩, hdescends⟩
  constructor
  · refine ⟨removed, hbind, by rw [RemovedLinks.collectFreeSpans_eq], ?_⟩
    rw [← hroot]
    constructor
    · -- the root reaches itself whatever is removed
      intro hall hmem
      exact hall root hmem .root
    · intro hnot x hx
      rw [hfreed] at hnot hx
      obtain ⟨target, htgt, hx⟩ := mem_flatMap.mp hx
      obtain ⟨path, hpath, e, hfind⟩ := (htargets target).mp htgt
      obtain ⟨a, hedge⟩ := CompleteTopology.exists_edge_of_findLink hfind
      have hremoved : e ∈ t.edgesAt paths := ⟨path, hpath, target, hfind⟩
      apply CompleteTopology.freed_not_reaches hcomplete _ hedge (.inl hremoved) _ x hx
      intro hmem
      exact hnot (mem_flatMap.mpr ⟨target, htgt, hmem⟩)
  · intro deletions removed hnone
    rw [RemovedLinks.collectFreeSpans_eq, RemovedLinks.freed, RemovedLinks.bind_topology hnone]
    simp

/-! ## A file with a link back to its root

The root at 96 holds the group `a` at 200 and the dataset `d` at 400, and `a/back` is a hard link
to the root. Once `a` is deleted the superblock alone keeps the root, but the one counted link
makes the walk free the root and go on to `d`.
-/

def linkedRoot : ObjectId → Except Error (List GroupEntry)
  | 96 => .ok [⟨"a", 200⟩, ⟨"d", 400⟩]
  | 200 => .ok [⟨"back", 96⟩]
  | _ => .ok []

def linkTree : ObjectId → Except Error (List GroupEntry)
  | 96 => .ok [⟨"a", 200⟩, ⟨"d", 400⟩]
  | _ => .ok []

def headerStorage : ObjectId → Option (List (ℕ × ℕ) × ObjectStorageKind)
  | 400 => some ([(400, 64)], .dataset)
  | x => some ([(x, 48)], .group)

def linkedRootTopology : CompleteTopology :=
  ⟨0, ⟨[⟨⟨96, (OrdMap.empty.insert "a" 0).insert "d" 1⟩, [⟨(), 1⟩, ⟨(), 2⟩]⟩,
      ⟨⟨200, OrdMap.empty.insert "back" 0⟩, [⟨(), 0⟩]⟩, ⟨⟨400, .empty⟩, []⟩]⟩,
    ((OrdMap.empty.insert 96 0).insert 200 1).insert 400 2,
    ((OrdMap.empty.insert 200 1).insert 400 1).insert 96 1⟩

/-- From `a` the walk comes to the root, and from there to `d`. -/
lemma mem_freedWithin_linkedRoot (remaining : ℕ) :
    400 ∈ linkedRootTopology.freedWithin headerStorage (remaining + 3) 200 := by
  have hd : 400 ∈ linkedRootTopology.freedWithin headerStorage (remaining + 1) 400 :=
    mem_singleton.mpr rfl
  have hroot : 400 ∈ linkedRootTopology.freedWithin headerStorage (remaining + 2) 96 :=
    mem_cons_of_mem _ (mem_flatMap.mpr ⟨400, by decide, hd⟩)
  exact mem_cons_of_mem _ (mem_flatMap.mpr ⟨96, by decide, hroot⟩)

/-- Deleting `a` frees `d`, which the root still reaches. -/
theorem RemovedLinks.freed_linkedRoot_reachable :
    CompleteTopology.discoverCached ⟨0, 8⟩ 96 ⟨2 ^ 24, 2 ^ 64 - 1⟩ .empty linkedRoot 0 =
        .ok linkedRootTopology ∧
      ∃ deletions removed, [["a"]].mapM linkedRootTopology.deletion = some deletions ∧
        RemovedLinks.bind (some linkedRootTopology) deletions = .ok removed ∧
        400 ∈ removed.freed headerStorage ∧
        linkedRootTopology.linkGraph.Reaches 96 (linkedRootTopology.edgesAt [["a"]]) 400 := by
  refine ⟨rfl, _, _, rfl, rfl, ?_, ?_⟩
  · exact mem_flatMap.mpr ⟨200, mem_singleton.mpr rfl, mem_freedWithin_linkedRoot 997⟩
  · -- the link `d` of the root is not the removed one
    refine .step (e := ⟨0, 1⟩) .root ⟨_, _, _, rfl, rfl, rfl, rfl, rfl⟩ ?_
    rintro ⟨path, hpath, x, hfind⟩
    rw [mem_singleton.mp hpath] at hfind
    cases hfind

def linkTreeTopology : CompleteTopology :=
  ⟨0, ⟨[⟨⟨96, (OrdMap.empty.insert "a" 0).insert "d" 1⟩, [⟨(), 1⟩, ⟨(), 2⟩]⟩,
      ⟨⟨200, .empty⟩, []⟩, ⟨⟨400, .empty⟩, []⟩]⟩,
    ((OrdMap.empty.insert 96 0).insert 200 1).insert 400 2,
    (OrdMap.empty.insert 200 1).insert 400 1⟩

theorem RemovedLinks.freed_linkTree_unreachable :
    ∃ removed, RemovedLinks.bind (some linkTreeTopology) [⟨"a", .complete 0 ⟨0, 0⟩ 200⟩] =
        .ok removed ∧
      ∀ x ∈ removed.freed headerStorage,
        ¬ linkTreeTopology.linkGraph.Reaches 96 (linkTreeTopology.edgesAt [["a"]]) x := by
  have hdiscover : CompleteTopology.discoverCached ⟨0, 8⟩ 96 ⟨2 ^ 24, 2 ^ 64 - 1⟩ .empty linkTree 0 =
      .ok linkTreeTopology := rfl
  have hplan : [["a"]].mapM linkTreeTopology.deletion = some [⟨"a", .complete 0 ⟨0, 0⟩ 200⟩] := rfl
  obtain ⟨⟨removed, hbind, -, hiff⟩, -⟩ :=
    RemovedLinks.freed_unreachable_iff hdiscover hplan headerStorage []
  refine ⟨removed, hbind, hiff.mpr ?_⟩
  -- no link leads to the root, so no descent ends there
  rintro ⟨path, -, e, target, -, chain, hlast, -, -, hsingle, -⟩
  have hroot := hsingle 96 (mem_of_getLast? hlast)
  cases hroot

end Hdf5Pure.Edit
