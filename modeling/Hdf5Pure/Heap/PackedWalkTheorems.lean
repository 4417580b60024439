import Hdf5Pure.Heap.EncodeTheorems

/-!
# Walks over packed collections

A plan applied to the bytes it was made from leaves a collection whose walk gives the members that stay,
with the entries they had.
-/

namespace Hdf5Pure.Heap

open List

/-- The bytes after the moves of a plan, in order, and then its free space header. -/
def GlobalHeapCompaction.applyTo (plan : GlobalHeapCompaction) (bytes : Bytes) : Bytes :=
  let moved := plan.moves.foldl GlobalHeapMove.copyIn bytes
  match plan.freeSpace with
  | none => moved
  | some free => patch moved free.header.start free.bytes

/-! ## Plans succeed -/

variable {members : List GlobalHeapObject} {remove : GlobalHeapObject → Bool}

lemma exists_packRecords (remove : GlobalHeapObject → Bool) {start destination : ℕ}
    (hchained : Chained start members) (hle : destination ≤ start) :
    ∃ moves removed stop, packRecords remove members destination = .ok (moves, removed, stop) := by
  induction members generalizing start destination with
  | nil => exact ⟨[], 0, destination, rfl⟩
  | cons object rest ih =>
    obtain ⟨rfl, hrest⟩ := hchained
    have hbound := object.range.bound
    have hnext : object.range.stop = object.range.start + object.range.length := rfl
    unfold packRecords
    cases remove object with
    | true =>
      obtain ⟨moves, removed, stop, hpack⟩ := ih hrest (show destination ≤ _ by omega)
      exact ⟨moves, removed + 1, stop, by rw [if_pos rfl, hpack]; rfl⟩
    | false =>
      obtain ⟨moves, removed, stop, hpack⟩ :=
        ih hrest (show destination + object.range.length ≤ _ by omega)
      rw [if_neg (by decide), FileRange.new, dif_pos (by omega)]
      show ∃ moves removed stop, (packRecords remove rest (destination + object.range.length) >>= _) =
        .ok (moves, removed, stop)
      rw [hpack]
      by_cases hmoved : destination ≠ object.range.start
      · exact ⟨_, removed, stop, if_pos hmoved⟩
      · exact ⟨moves, removed, stop, if_neg hmoved⟩

variable {m : GlobalHeapMembers} {content : Bytes} {lengths : LengthWidth} {address : ℕ}

lemma exists_freeSpace {destination : ℕ} (hroom : destination + 16 ≤ m.collection.range.stop)
    (hsize : m.collection.range.stop - destination < 256 ^ m.collection.lengths.get) :
    ∃ free, m.freeSpace destination = .ok free := by
  have hbound := m.collection.range.bound
  have hwidth := m.collection.lengths.get_le
  have hstop : m.collection.range.stop = m.collection.range.start + m.collection.range.length := rfl
  unfold GlobalHeapMembers.freeSpace freeHeaderLen fixedHeaderLen
  dsimp only
  rw [FileRange.new_of_lt (by omega), FileRange.new_of_lt (by omega), writeLengthAt,
    if_neg (by omega), if_pos (by rw [length_replicate]; omega)]
  exact ⟨_, rfl⟩

/-- With nothing to remove nothing moves. -/
lemma Packs.moves_eq_nil {destination removed stop : ℕ} {moves : List GlobalHeapMove}
    (h : Packs remove members destination moves removed stop)
    (hchained : Chained destination members) (hnone : ∀ object ∈ members, remove object = false) :
    moves = [] := by
  induction h with
  | nil => rfl
  | removed hrem =>
    rw [hnone _ mem_cons_self] at hrem
    cases hrem
  | retained _ _ _ _ ih =>
    obtain ⟨rfl, hrest⟩ := hchained
    rw [if_neg (by simp)]
    exact ih hrest fun o ho => hnone o (by simp [ho])

/-- **A move overwrites no record that stays and is still in place.** -/
theorem Packs.disjoint {start destination removed stop : ℕ}
    {moves before after : List GlobalHeapMove} {movement : GlobalHeapMove}
    (h : Packs remove members destination moves removed stop) (hchained : Chained start members)
    (hle : destination ≤ start) (hsplit : moves = before ++ movement :: after)
    {object : GlobalHeapObject} (hmem : object ∈ members) (hstays : remove object = false)
    (hplace : object ∉ before.map GlobalHeapMove.object) (hother : object ≠ movement.object) :
    movement.destination.stop ≤ object.range.start ∨
      object.range.stop ≤ movement.destination.start := by
  induction h generalizing start before with
  | nil => cases hmem
  | @removed first _ _ _ _ _ hrem _ ih =>
    obtain ⟨rfl, hrest⟩ := hchained
    have hnext : first.range.stop = first.range.start + first.range.length := rfl
    rcases mem_cons.mp hmem with rfl | hmem
    · rw [hrem] at hstays
      cases hstays
    · exact ih hrest (by omega) hsplit hmem hplace
  | @retained first rest destination moves _ _ range _ hstart hlen hpacks ih =>
    obtain ⟨rfl, hrest⟩ := hchained
    have hnext : first.range.stop = first.range.start + first.range.length := rfl
    have hle' : destination + first.range.length ≤ first.range.stop := by omega
    by_cases hmoved : destination ≠ first.range.start
    · rw [if_pos hmoved] at hsplit
      cases before with
      | nil =>
        -- the first record moves, and the others follow it
        obtain ⟨rfl, -⟩ := cons.inj hsplit
        rcases mem_cons.mp hmem with rfl | hmem
        · exact absurd rfl hother
        · have hlow := (GlobalHeapCollection.chained_pairwise hrest).1 object hmem
          left
          show range.start + range.length ≤ _
          omega
      | cons earlier before =>
        obtain ⟨rfl, hsplit'⟩ := cons.inj hsplit
        rw [map_cons, mem_cons, not_or] at hplace
        rcases mem_cons.mp hmem with rfl | hmem
        · exact absurd rfl hplace.1
        · exact ih hrest hle' hsplit' hmem hplace.2
    · rw [if_neg hmoved] at hsplit
      rcases mem_cons.mp hmem with rfl | hmem
      · -- a record that does not move lies before the destinations
        have hlow := (hpacks.towards hrest hle' movement (by simp [hsplit])).1
        right
        omega
      · exact ih hrest hle' hsplit hmem hplace

/-! ## The packed collection -/

lemma freeHeader_eq (lengths : LengthWidth) (n : ℕ) :
    freeHeader lengths n = objectHeader lengths 0 0 n := by
  cases lengths <;> rfl

lemma slice_patch_self {l : Bytes} {start : ℕ} (h : start ≤ l.length) (xs ys : Bytes) :
    slice (patch l start (xs ++ ys)) start xs.length = xs ∧
      slice (patch l start (xs ++ ys)) (start + xs.length) ys.length = ys := by
  have htake : (l.take start).length = start := length_take_of_le h
  unfold patch
  constructor
  · rw [append_assoc, append_assoc]
    exact slice_append_append htake rfl
  · rw [← append_assoc, append_assoc]
    apply slice_append_append _ rfl
    rw [length_append, htake]

lemma GlobalHeapCollection.parse_congr {content' : Bytes}
    (hfits : address + 16 ≤ content.length) (hfits' : address + 16 ≤ content'.length)
    (h : slice content' address 16 = slice content address 16) :
    parse content' address lengths = parse content address lengths := by
  have hreg : ∀ range, FileRange.new address (headerLen lengths) = .ok range →
      regionAt content' range = regionAt content range := by
    intro range hrange
    obtain ⟨hstart, hlen⟩ := FileRange.new_eq_ok hrange
    rw [headerLen_eq] at hlen
    unfold regionAt
    rw [FileRange.stop, hstart, hlen, if_pos hfits, if_pos hfits', h]
  unfold parse
  cases hrange : FileRange.new address (headerLen lengths) with
  | error e => rfl
  | ok range =>
    dsimp only [bind, Except.bind]
    rw [hreg range hrange]

lemma retained_entries {c : GlobalHeapCollection} (hstop : c.range.stop ≤ content.length)
    (hmembers : ∀ object ∈ members, c.Describes content object) :
    List.Forall₂ (fun r e => r.length = e.extent ∧ EntryAt r c.lengths 0 e)
      (members.map fun object => slice content object.range.start object.range.length)
      (members.map (GlobalHeapObject.entry content)) := by
  rw [forall₂_map_left_iff, forall₂_map_right_iff, forall₂_same]
  intro object hmem
  have hd := hmembers object hmem
  have hle := le_aligned object.payload.length
  have hrange : object.range.start + object.range.length ≤ content.length :=
    hd.stop_le.trans hstop
  have hpayload : (slice content object.payload.start object.payload.length).length =
      object.payload.length := by
    apply length_slice
    rw [hd.payload]
    have := hd.length
    omega
  have hextent : (object.entry content).extent = object.range.length := by
    rw [hd.length, Entry.extent, GlobalHeapObject.entry, hpayload]
  have hentry : EntryAt content c.lengths object.range.start (object.entry content) := by
    refine ⟨by rw [hextent]; exact hrange, ?_, ?_⟩
    · show GlobalHeapCollection.HeaderAt _ _ _ _ _ (slice content _ _).length
      rw [hpayload]
      exact hd.header
    · show slice content _ (slice content _ _).length = slice content _ _
      rw [hpayload, hd.payload]
  have hlen : (slice content object.range.start object.range.length).length =
      object.range.length := length_slice hrange
  refine ⟨by rw [hlen, hextent], hentry.copy (by rw [hextent, hlen, Nat.zero_add]) ?_⟩
  rw [hextent, slice_slice content (by omega), Nat.add_zero]

lemma collectMembers_packed (h : collectMembers content address lengths = .ok m)
    (hstop : m.collection.range.stop ≤ content.length) {packed : Bytes}
    (hpacked : packed = patch content m.collection.first.start
      (retainedBytes content remove m.members ++ freeHeader m.collection.lengths
        (m.collection.range.stop -
          (m.collection.first.start + (retainedBytes content remove m.members).length))))
    (hroom : m.collection.first.start + (retainedBytes content remove m.members).length + 16 ≤
      m.collection.range.stop) :
    ∃ m', collectMembers packed address lengths = .ok m' ∧ m'.collection = m.collection ∧
      m'.members.map (GlobalHeapObject.entry packed) =
        (m.members.filter fun object => !remove object).map (GlobalHeapObject.entry content) := by
  obtain ⟨c, members⟩ := m
  obtain ⟨hparse, hwalk⟩ := collectMembers_eq_ok.mp h
  dsimp only at hparse hwalk hstop hpacked hroom ⊢
  obtain ⟨hstart, rfl, hsize, hfirst, hfirst_length, hwide⟩ :=
    GlobalHeapCollection.parse_spec hparse
  obtain ⟨-, hdescribes, hnodup⟩ := GlobalHeapCollection.walk_spec _
    (fun r hr => by cases hr; exact ⟨rfl, hfirst_length.le⟩) hwalk
  have hrange : c.range.stop = c.range.start + c.range.length := rfl
  have hlow : c.first.start ≤ content.length := by omega
  have hlen : packed.length = content.length := by
    rw [hpacked, length_patch hlow, length_append, length_freeHeader]
    omega
  obtain ⟨hrecords, hfree⟩ := slice_patch_self hlow (retainedBytes content remove members)
    (freeHeader c.lengths (c.range.stop - (c.first.start +
      (retainedBytes content remove members).length)))
  rw [← hpacked] at hrecords hfree
  rw [length_freeHeader, freeHeader_eq] at hfree
  -- the header of the collection lies before the records
  have hparse' : GlobalHeapCollection.parse packed address c.lengths = .ok c := by
    have hheader : slice packed address 16 = slice content address 16 := by
      apply slice_congr
      intro p _ hp
      rw [hpacked, getElem?_patch hlow, if_neg (by omega)]
    rw [GlobalHeapCollection.parse_congr (by omega) (by omega) hheader, hparse]
  have hflatten : retainedBytes content remove members = (((members.filter fun object =>
      !remove object).map fun object => slice content object.range.start
        object.range.length).flatten) := flatMap_def
  have hretained : ∀ object ∈ members.filter fun object => !remove object,
      c.Describes content object :=
    fun object hmem => (hdescribes object (mem_filter.mp hmem).1).1
  obtain ⟨hents, hend⟩ := entries_of_slice (retained_entries hstop hretained)
    (show c.first.start + _ ≤ packed.length by rw [← hflatten]; omega) hrecords
  rw [← hflatten] at hend
  have hunseen : ∀ e ∈ (members.filter fun object => !remove object).map
      (GlobalHeapObject.entry content), e.index ≠ 0 ∧ e.index ∉ ([] : List ℕ) := by
    intro e he
    obtain ⟨object, hmem, rfl⟩ := mem_map.mp he
    exact ⟨(hretained object hmem).index_ne, not_mem_nil⟩
  have hdistinct : (((members.filter fun object => !remove object).map
      (GlobalHeapObject.entry content)).map Entry.index).Nodup := by
    rw [map_map]
    exact hnodup.sublist (filter_sublist.map _)
  obtain ⟨members', hwalk', hmembers'⟩ := GlobalHeapCollection.walk_entries hents hunseen
    hdistinct (by omega) (by omega)
    ⟨0, by rw [hend]; exact headerAt_of_slice (by decide) (by decide) (by omega) hfree⟩
    rfl hfirst_length (show c.range.stop ≤ c.first.start + 16 * c.range.length by omega)
  exact ⟨⟨c, members'⟩, collectMembers_eq_ok.mpr ⟨hparse', hwalk'⟩, rfl, hmembers'⟩

/-- **Compaction preserves the members that stay.** For every collection that a walk accepts and every
choice of members to remove there is a plan, and applied in place it leaves a collection of the same
range whose walk gives the other members in order, each with the index, the count and the data it had.
Every move is towards the start and spares the records that are still to be moved or stay in place, and
the free space header fits after the packed records. -/
theorem collectMembers_compact {content : Bytes} {address : ℕ} {lengths : LengthWidth}
    {m : GlobalHeapMembers} (h : collectMembers content address lengths = .ok m)
    (hstop : m.collection.range.stop ≤ content.length) (remove : GlobalHeapObject → Bool) :
    ∃ plan, m.compact remove = .ok plan ∧
      (∃ m', collectMembers (plan.applyTo content) address lengths = .ok m' ∧
        m'.collection = m.collection ∧
        m'.members.map (GlobalHeapObject.entry (plan.applyTo content)) =
          (m.members.filter fun object => !remove object).map (GlobalHeapObject.entry content)) ∧
      (∀ movement ∈ plan.moves, movement.destination.start < movement.object.range.start ∧
        movement.destination.length = movement.object.range.length) ∧
      (∀ before after movement, plan.moves = before ++ movement :: after →
        ∀ object ∈ m.members, remove object = false →
          object ∉ before.map GlobalHeapMove.object → object ≠ movement.object →
          movement.destination.stop ≤ object.range.start ∨
            object.range.stop ≤ movement.destination.start) ∧
      (m.members.any remove = true → ∃ free, plan.freeSpace = some free ∧
        free.header.start = m.collection.first.start +
          (retainedBytes content remove m.members).length ∧
        free.header.length = 16 ∧ free.header.stop ≤ m.collection.range.stop) := by
  have hframed := collectMembers_framed h
  have hcontent : ∀ object ∈ m.members, object.range.stop ≤ content.length :=
    fun object hmem => (hframed.bounds object hmem).2.trans hstop
  obtain ⟨moves, removed, stop, hpack⟩ := exists_packRecords remove hframed.chained le_rfl
  have hpacks := packs_of_packRecords hpack
  obtain ⟨hremoved, hend⟩ := hpacks.counts hcontent
  have hfits : m.collection.first.start + (retainedBytes content remove m.members).length +
      16 * (m.members.filter remove).length ≤ m.collection.range.stop :=
    length_retainedBytes hcontent hframed.chained hframed.room hframed.bounds
  have hmoves := hpacks.towards hframed.chained le_rfl
  have hany : m.members.any remove = true ↔ removed ≠ 0 := by
    rw [hremoved, any_eq_true, ← Nat.pos_iff_ne_zero, length_filter_pos_iff]
  by_cases hzero : removed = 0
  · -- every record stays where it is
    have hnone : ∀ object ∈ m.members, remove object = false := by
      have hnot := hany.not.mpr (not_not_intro hzero)
      rw [any_eq_true] at hnot
      intro object hmem
      exact Bool.eq_false_iff.mpr fun htrue => hnot ⟨object, hmem, htrue⟩
    obtain rfl := hpacks.moves_eq_nil hframed.chained hnone
    refine ⟨⟨m.collection.range, [], none, m.members.length - removed⟩, ?_, ⟨m, h, rfl, ?_⟩, by simp,
      by simp, fun htrue => absurd hzero (hany.mp htrue)⟩
    · unfold GlobalHeapMembers.compact
      rw [hpack]
      dsimp only [bind, Except.bind]
      rw [if_pos hzero]
    · rw [filter_eq_self.mpr fun object hmem => by rw [hnone object hmem]; rfl]
      rfl
  · obtain ⟨-, hlengths, -, hfirst, -, hwide⟩ :=
      GlobalHeapCollection.parse_spec (collectMembers_eq_ok.mp h).1
    have hrange : m.collection.range.stop =
        m.collection.range.start + m.collection.range.length := rfl
    rw [← hlengths] at hwide
    obtain ⟨free, hfree⟩ := exists_freeSpace (m := m) (show stop + 16 ≤ _ by omega) (by omega)
    obtain ⟨hheader, hheader_length, hbytes⟩ := GlobalHeapMembers.freeSpace_eq_ok hfree
    have hcopied : moves.foldl GlobalHeapMove.copyIn content =
        patch content m.collection.first.start (retainedBytes content remove m.members) :=
      hpacks.foldl_copyIn hstop hframed.chained le_rfl
        (fun object hmem => (hframed.bounds object hmem).2) rfl fun _ _ _ => rfl
    refine ⟨⟨m.collection.range, moves, some free, m.members.length - removed⟩, ?_, ?_,
      fun movement hmem => (hmoves movement hmem).2, fun _ _ _ hsplit _ => hpacks.disjoint hframed.chained le_rfl hsplit,
      fun _ => ⟨free, rfl, hheader.trans hend, hheader_length, ?_⟩⟩
    · unfold GlobalHeapMembers.compact
      rw [hpack]
      dsimp only [bind, Except.bind]
      rw [if_neg hzero, hfree]
      rfl
    · apply collectMembers_packed h hstop _ (by omega)
      show patch (moves.foldl GlobalHeapMove.copyIn content) free.header.start free.bytes = _
      rw [hcopied, hheader, hbytes, hend, patch_append (by omega)]
    · rw [FileRange.stop]
      omega

theorem collectMembers_compact_first :
    ∃ content m plan, collectMembers content 0 .two = .ok m ∧ m.members.length = 2 ∧
      m.compact (fun object => object.index == 1) = .ok plan ∧
      ∃ m', collectMembers (plan.applyTo content) 0 .two = .ok m' ∧ m'.collection = m.collection := by
  obtain ⟨bytes, h⟩ : ∃ bytes, encodeGlobalHeapCollection .two [[7, 8, 9], []] = .ok bytes :=
    ⟨_, rfl⟩
  obtain ⟨hfits, hat, hbound⟩ := encode_alone h
  obtain ⟨c, members, hparse, hsize, hwalk, hmembers⟩ := walk_encode h hfits hat hbound
  have hcollect : collectMembers bytes 0 .two = .ok ⟨c, members⟩ :=
    collectMembers_eq_ok.mpr ⟨hparse, hwalk⟩
  have hlen : members.length = 2 := by
    rw [← length_map (GlobalHeapObject.entry bytes), hmembers]
    rfl
  have hstop : c.range.stop ≤ bytes.length := by
    rw [FileRange.stop, (GlobalHeapCollection.parse_spec hparse).1, hsize]
    exact hfits
  obtain ⟨plan, hplan, ⟨m', hm', hsame, -⟩, -⟩ :=
    collectMembers_compact hcollect hstop fun object => object.index == 1
  exact ⟨bytes, ⟨c, members⟩, plan, hcollect, hlen, hplan, m', hm', hsame⟩

end Hdf5Pure.Heap
