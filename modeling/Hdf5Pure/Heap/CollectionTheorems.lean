import Hdf5Pure.Heap.Collection

/-!
# Where the records of a collection lie

The members of a parsed collection follow one another within it, and the packed records of a plan take
no more room than the records they come from.
-/

namespace Hdf5Pure.Heap

open List

lemma headerLen_eq (lengths : LengthWidth) : headerLen lengths = 16 := by
  cases lengths <;> rfl

def Chained : ℕ → List GlobalHeapObject → Prop
  | _, [] => True
  | start, object :: rest => object.range.start = start ∧ Chained object.range.stop rest

variable {lengths : LengthWidth} {address start : ℕ} {range : FileRange}

namespace GlobalHeapCollection

variable {c : GlobalHeapCollection} {content : Bytes}

lemma parse_spec (h : parse content address lengths = .ok c) :
    c.range.start = address ∧ c.lengths = lengths ∧ minCollectionSize ≤ c.range.length ∧
      c.first.start = c.range.start + 16 ∧ c.first.length = 16 ∧
      c.range.length < 256 ^ lengths.get := by
  simp only [parse, bind_eq_ok, ite_error_eq_ok, Except.ok.injEq] at h
  obtain ⟨header, -, region, -, -, version, -, -, size, hfield, hsize, -, range, hrange, start, hstart,
    first, hfirst, rfl⟩ := h
  obtain ⟨hrange_start, hrange_length⟩ := FileRange.new_eq_ok hrange
  obtain ⟨hfirst_start, hfirst_length⟩ := FileRange.new_eq_ok hfirst
  refine ⟨hrange_start, rfl, ?_, ?_, ?_, ?_⟩
  · rw [hrange_length]
    exact Nat.le_of_not_lt hsize
  · rw [hfirst_start, addressAdd_eq_ok hstart, hrange_start, headerLen_eq]
  · rw [hfirst_length, headerLen_eq]
  · -- the size was read from a field of this width
    unfold uintAt at hfield
    split at hfield
    · rename_i hfits
      cases hfield
      rw [hrange_length]
      calc _ < 256 ^ (slice region 8 lengths.get).length := leNat_lt _
        _ = 256 ^ lengths.get := by rw [length_slice hfits]
    · cases hfield

/-- The fields of an object header. -/
structure HeaderAt (content : Bytes) (lengths : LengthWidth) (pos index count size : ℕ) : Prop where
  index : leNat (slice content pos 2) = index
  count : leNat (slice content (pos + 2) 2) = count
  size : leNat (slice content (pos + 8) lengths.get) = size

lemma objectExtent_eq_some {size remaining extent : ℕ} (hremaining : remaining < 2 ^ 64) :
    c.objectExtent size remaining = some extent ↔ extent = 16 + aligned size ∧ extent ≤ remaining := by
  unfold objectExtent aligned alignment
  rw [Option.bind_eq_some_iff, headerLen_eq]
  constructor
  · rintro ⟨padded, hpadded, hfits⟩
    obtain ⟨-, ⟨k, rfl⟩, hle, hlt, -⟩ := checkedNextMultipleOf_spec hpadded
    obtain ⟨hadd, hle'⟩ := Option.filter_eq_some_iff.mp hfits
    have hsum := (checkedAdd_eq_some.mp hadd).2
    have hextent := of_decide_eq_true hle'
    omega
  · rintro ⟨rfl, hle⟩
    obtain ⟨padded, hpadded, hpadded_le⟩ :=
      checkedNextMultipleOf_of_le (a := size) (b := (size + (8 - 1)) / 8 * 8) (by omega)
        (by omega) ⟨_, Nat.mul_comm _ _⟩ (by omega)
    obtain ⟨-, ⟨k, rfl⟩, hle', hlt, -⟩ := checkedNextMultipleOf_spec hpadded
    refine ⟨_, hpadded, Option.filter_eq_some_iff.mpr ⟨checkedAdd_eq_some.mpr ⟨by omega, by omega⟩, ?_⟩⟩
    exact decide_eq_true hle

lemma remaining_eq_ok {n : ℕ} :
    c.remaining start = .ok n ↔ start ≤ c.range.stop ∧ n = c.range.stop - start := by
  unfold remaining checkedSub
  by_cases h : start ≤ c.range.stop
  · simp [h, eq_comm]
  · simp [h]

/-- An object begins where its header does, has the fields of the header and lies in the
collection. -/
lemma parseObject_spec {object : GlobalHeapObject}
    (h : c.parseObject range (slice content range.start range.length) = .ok (some object)) :
    HeaderAt content c.lengths range.start object.index object.referenceCount
        object.payload.length ∧
      object.index ≠ 0 ∧ object.range.start = range.start ∧
      object.payload.start = range.stop ∧ 16 ≤ range.length ∧
      object.range.length = 16 + aligned object.payload.length ∧
      object.range.stop ≤ c.range.stop := by
  obtain ⟨index, hindex, h⟩ := bind_eq_ok.mp h
  split at h
  · split at h <;> cases h
  rename_i hlong
  rw [headerLen_eq] at hlong
  simp only [bind_eq_ok] at h
  obtain ⟨count, hcount, size, hsize, remaining, hremaining, h⟩ := h
  split at h
  · split at h <;> cases h
  rename_i hne
  obtain ⟨hstart, hroom⟩ := remaining_eq_ok.mp hremaining
  have hbound := c.range.bound
  cases hextent : c.objectExtent size remaining with
  | none => rw [hextent] at h; cases h
  | some extent =>
    rw [hextent] at h
    simp only [bind_eq_ok] at h
    obtain ⟨whole, hwhole, payload, hpayload, h⟩ := h
    cases h
    obtain ⟨hwhole_start, hwhole_length⟩ := FileRange.new_eq_ok hwhole
    obtain ⟨hpayload_start, hpayload_length⟩ := FileRange.new_eq_ok hpayload
    have hfits : remaining < 2 ^ 64 := by
      unfold FileRange.stop at hroom
      omega
    obtain ⟨hextent_eq, hextent_le⟩ := (objectExtent_eq_some hfits).mp hextent
    refine ⟨⟨uintAt_slice_eq_ok hindex, uintAt_slice_eq_ok hcount, ?_⟩, hne, hwhole_start,
      hpayload_start, by omega, ?_, ?_⟩
    · rw [uintAt_slice_eq_ok hsize]
      exact hpayload_length.symm
    · show whole.length = 16 + aligned payload.length
      rw [hwhole_length, hpayload_length, hextent_eq]
    · show whole.start + whole.length ≤ c.range.stop
      omega

lemma headerRange_spec (h : c.headerRange start = .ok (some range)) :
    range.start = start ∧ range.length ≤ 16 ∧ start < c.range.stop := by
  obtain ⟨remaining, hremaining, h⟩ := bind_eq_ok.mp h
  split at h
  · cases h
  obtain ⟨r, hr, h⟩ := bind_eq_ok.mp h
  cases h
  obtain ⟨hle, hroom⟩ := remaining_eq_ok.mp hremaining
  obtain ⟨hstart, hlen⟩ := FileRange.new_eq_ok hr
  rw [headerLen_eq] at hlen
  exact ⟨hstart, by omega, by omega⟩

/-- A member as its header and its place in the collection describe it. -/
structure Describes (c : GlobalHeapCollection) (content : Bytes) (object : GlobalHeapObject) :
    Prop where
  header : HeaderAt content c.lengths object.range.start object.index object.referenceCount
    object.payload.length
  index_ne : object.index ≠ 0
  payload : object.payload.start = object.range.start + 16
  length : object.range.length = 16 + aligned object.payload.length
  stop_le : object.range.stop ≤ c.range.stop

/-- What a step finds at a header: an object with a new index, and the header after it. -/
structure Found (c : GlobalHeapCollection) (content : Bytes) (range : FileRange)
    (seen : List ℕ) (object : GlobalHeapObject) (next : Option FileRange) : Prop where
  start : object.range.start = range.start
  length : 16 ≤ object.range.length
  describes : range.length ≤ 16 → c.Describes content object
  unseen : object.index ∉ seen
  next : ∀ r ∈ next,
    r.start = object.range.stop ∧ r.length ≤ 16 ∧ object.range.stop < c.range.stop

lemma step_spec {range : FileRange} {seen seen' : List ℕ} {found : Option GlobalHeapObject}
    {next : Option FileRange} (h : c.step content range seen = .ok (found, next, seen')) :
    (found = none ∧ next = none) ∨ ∃ object, found = some object ∧
      seen' = object.index :: seen ∧ c.Found content range seen object next := by
  unfold step at h
  simp only [bind_eq_ok] at h
  obtain ⟨region, hreg, parsed, hparsed, h⟩ := h
  cases parsed with
  | none =>
    cases h
    exact .inl ⟨rfl, rfl⟩
  | some object =>
    rw [(regionAt_eq_ok.mp hreg).2] at hparsed
    obtain ⟨hheader, hne, hstart, hpayload, hlong, hlen, hstop⟩ := parseObject_spec hparsed
    obtain ⟨after, hafter, h⟩ := bind_eq_ok.mp h
    split at h
    · cases h
    rename_i hunseen
    cases h
    refine .inr ⟨object, rfl, rfl, hstart, by rw [hlen]; exact Nat.le_add_right _ _,
      fun hshort => ⟨by rw [hstart]; exact hheader, hne, ?_, hlen, hstop⟩, by simpa using hunseen,
      fun r hr => ?_⟩
    · rw [hpayload, FileRange.stop, hstart]
      omega
    · rw [Option.mem_def] at hr
      rw [hr] at hafter
      exact headerRange_spec hafter

/-- **The members of a walk.** -/
theorem walk_spec (fuel : ℕ) {next : Option FileRange} {seen : List ℕ}
    {members : List GlobalHeapObject} {start : ℕ}
    (hnext : ∀ range ∈ next, range.start = start ∧ range.length ≤ 16)
    (h : c.walk content fuel next seen = .ok members) :
    Chained start members ∧
    (∀ object ∈ members, c.Describes content object ∧ object.index ∉ seen) ∧
    (members.map GlobalHeapObject.index).Nodup := by
  induction fuel generalizing next seen members start with
  | zero =>
    cases h
    exact ⟨trivial, by simp, nodup_nil⟩
  | succ fuel ih =>
    cases next with
    | none =>
      cases h
      exact ⟨trivial, by simp, nodup_nil⟩
    | some range =>
      obtain ⟨⟨found, after, seen'⟩, hstep, h⟩ := bind_eq_ok.mp h
      rcases step_spec hstep with ⟨rfl, rfl⟩ | ⟨object, rfl, rfl, hfound⟩
      · cases h
        exact ⟨trivial, by simp, nodup_nil⟩
      · obtain ⟨hrange, hshort⟩ := hnext range rfl
        obtain ⟨rest, hrest, h⟩ := bind_eq_ok.mp h
        cases h
        obtain ⟨htail, hdescribes, hnodup⟩ :=
          ih (fun r hr => ⟨(hfound.next r hr).1, (hfound.next r hr).2.1⟩) hrest
        refine ⟨⟨hfound.start.trans hrange, htail⟩, ?_, ?_⟩
        · exact forall_mem_cons.mpr ⟨⟨hfound.describes hshort, hfound.unseen⟩, fun o ho =>
            ⟨(hdescribes o ho).1, fun hmem => (hdescribes o ho).2 (mem_cons_of_mem _ hmem)⟩⟩
        · rw [map_cons, nodup_cons]
          refine ⟨fun hmem => ?_, hnodup⟩
          obtain ⟨o, ho, heq⟩ := mem_map.mp hmem
          exact (hdescribes o ho).2 (by rw [heq]; exact mem_cons_self)

end GlobalHeapCollection

/-- The members of a collection, as the parser gives them. -/
structure GlobalHeapMembers.Framed (m : GlobalHeapMembers) : Prop where
  first : m.collection.first.start = m.collection.range.start + 16
  room : m.collection.first.start ≤ m.collection.range.stop
  chained : Chained m.collection.first.start m.members
  bounds : ∀ object ∈ m.members,
    16 ≤ object.range.length ∧ object.range.stop ≤ m.collection.range.stop

lemma collectMembers_eq_ok {content : Bytes} {m : GlobalHeapMembers} :
    collectMembers content address lengths = .ok m ↔
      GlobalHeapCollection.parse content address lengths = .ok m.collection ∧
      m.collection.walk content m.collection.range.length (some m.collection.first) [] =
        .ok m.members := by
  simp only [collectMembers, bind_eq_ok, Except.ok.injEq]
  exact ⟨fun ⟨_, hc, _, hmembers, h⟩ => h ▸ ⟨hc, hmembers⟩,
    fun ⟨hc, hmembers⟩ => ⟨_, hc, _, hmembers, rfl⟩⟩

lemma collectMembers_framed {content : Bytes} {m : GlobalHeapMembers}
    (h : collectMembers content address lengths = .ok m) : m.Framed := by
  obtain ⟨hc, hmembers⟩ := collectMembers_eq_ok.mp h
  obtain ⟨-, -, hsize, hfirst, hlen, -⟩ := GlobalHeapCollection.parse_spec hc
  obtain ⟨hchained, hdescribes, -⟩ :=
    GlobalHeapCollection.walk_spec _ (fun r hr => by cases hr; exact ⟨rfl, hlen.le⟩) hmembers
  refine ⟨hfirst, ?_, hchained, fun object hobj => ?_⟩
  · rw [FileRange.stop]
    unfold minCollectionSize at hsize
    omega
  · have hd := (hdescribes object hobj).1
    exact ⟨by rw [hd.length]; exact Nat.le_add_right _ _, hd.stop_le⟩

/-! ## Packed records -/

def retainedBytes (content : Bytes) (remove : GlobalHeapObject → Bool)
    (members : List GlobalHeapObject) : Bytes :=
  (members.filter fun object => !remove object).flatMap fun object =>
    slice content object.range.start object.range.length

section Packed

variable {content : Bytes} {remove : GlobalHeapObject → Bool} {members : List GlobalHeapObject}

lemma retainedBytes_cons_removed {object : GlobalHeapObject} (h : remove object = true) :
    retainedBytes content remove (object :: members) = retainedBytes content remove members := by
  simp [retainedBytes, h]

lemma retainedBytes_cons_retained {object : GlobalHeapObject} (h : remove object = false) :
    retainedBytes content remove (object :: members) =
      slice content object.range.start object.range.length ++
        retainedBytes content remove members := by
  simp [retainedBytes, h]

/-- The packed records take no more than the room up to the end, and a removed record leaves the room
of its header. -/
lemma length_retainedBytes (hcontent : ∀ object ∈ members, object.range.stop ≤ content.length)
    {stop : ℕ} (hchained : Chained start members) (hstart : start ≤ stop)
    (hbounds : ∀ object ∈ members, 16 ≤ object.range.length ∧ object.range.stop ≤ stop) :
    start + (retainedBytes content remove members).length +
      16 * (members.filter remove).length ≤ stop := by
  induction members generalizing start with
  | nil => simpa [retainedBytes] using hstart
  | cons object rest ih =>
    obtain ⟨rfl, hrest⟩ := hchained
    obtain ⟨hlen, hstop⟩ := hbounds object (by simp)
    have hrec := ih (fun o ho => hcontent o (by simp [ho])) hrest hstop
      (fun o ho => hbounds o (by simp [ho]))
    unfold FileRange.stop at hrec
    cases hrem : remove object with
    | true =>
      rw [retainedBytes_cons_removed hrem, filter_cons_of_pos hrem, length_cons]
      omega
    | false =>
      have hslice : (slice content object.range.start object.range.length).length =
          object.range.length := length_slice (hcontent object (by simp))
      rw [retainedBytes_cons_retained hrem, length_append, hslice,
        filter_cons_of_neg (by simp [hrem])]
      omega

/-- What packing members towards a destination gives: the moves, the number of removed records and the
end of those that stay. -/
inductive Packs (remove : GlobalHeapObject → Bool) :
    List GlobalHeapObject → ℕ → List GlobalHeapMove → ℕ → ℕ → Prop
  | nil (destination : ℕ) : Packs remove [] destination [] 0 destination
  | removed {object rest destination moves removed stop} (hremove : remove object = true)
      (hrest : Packs remove rest destination moves removed stop) :
      Packs remove (object :: rest) destination moves (removed + 1) stop
  -- a record that stays is moved unless it already lies there
  | retained {object rest destination moves removed stop} {range : FileRange}
      (hremove : remove object = false) (hstart : range.start = destination)
      (hlength : range.length = object.range.length)
      (hrest : Packs remove rest (destination + object.range.length) moves removed stop) :
      Packs remove (object :: rest) destination
        (if destination ≠ object.range.start then ⟨object, range⟩ :: moves else moves) removed stop

section Packs

variable {destination removed stop : ℕ} {moves : List GlobalHeapMove}

/-- A packing that returns is one of these. -/
lemma packs_of_packRecords
    (h : packRecords remove members destination = .ok (moves, removed, stop)) :
    Packs remove members destination moves removed stop := by
  induction members generalizing destination moves removed with
  | nil =>
    cases h
    exact .nil _
  | cons object rest ih =>
    cases hrem : remove object with
    | true =>
      simp only [packRecords, hrem, if_true, bind_eq_ok] at h
      obtain ⟨⟨moves', removed', stop'⟩, hpack, h⟩ := h
      cases h
      exact .removed hrem (ih hpack)
    | false =>
      simp only [packRecords, hrem, Bool.false_eq_true, if_false, bind_eq_ok] at h
      obtain ⟨range, hrange, ⟨moves', removed', stop'⟩, hpack, h⟩ := h
      obtain ⟨hstart, hlen⟩ := FileRange.new_eq_ok hrange
      rw [FileRange.stop, hstart, hlen] at hpack
      split at h
      all_goals
        rename_i hmoved
        cases h
        have hpacks := Packs.retained hrem hstart hlen (ih hpack)
      · rwa [if_pos hmoved] at hpacks
      · rwa [if_neg hmoved] at hpacks

/-- Packing counts the removed records and ends after the bytes of the others. -/
lemma Packs.counts (h : Packs remove members destination moves removed stop)
    (hcontent : ∀ object ∈ members, object.range.stop ≤ content.length) :
    removed = (members.filter remove).length ∧
      stop = destination + (retainedBytes content remove members).length := by
  induction h with
  | nil => exact ⟨rfl, rfl⟩
  | removed hrem _ ih =>
    obtain ⟨rfl, rfl⟩ := ih fun o ho => hcontent o (by simp [ho])
    rw [retainedBytes_cons_removed hrem, filter_cons_of_pos hrem]
    exact ⟨rfl, rfl⟩
  | retained hrem _ _ _ ih =>
    obtain ⟨rfl, rfl⟩ := ih fun o ho => hcontent o (by simp [ho])
    rw [filter_cons_of_neg (by simp [hrem]), retainedBytes_cons_retained hrem, length_append,
      length_slice (hcontent _ mem_cons_self)]
    exact ⟨rfl, by omega⟩

/-- Records move towards the start, as wholes. -/
lemma Packs.towards (h : Packs remove members destination moves removed stop)
    (hchained : Chained start members) (hle : destination ≤ start) :
    ∀ movement ∈ moves, destination ≤ movement.destination.start ∧
      movement.destination.start < movement.object.range.start ∧
      movement.destination.length = movement.object.range.length := by
  induction h generalizing start with
  | nil => exact forall_mem_nil _
  | removed _ _ ih =>
    obtain ⟨rfl, hrest⟩ := hchained
    exact ih hrest (hle.trans (Nat.le_add_right _ _))
  | @retained _ _ destination moves _ _ _ _ hstart hlen _ ih =>
    obtain ⟨rfl, hrest⟩ := hchained
    have htail : ∀ movement ∈ moves, destination ≤ movement.destination.start ∧ _ :=
      fun movement hmem =>
        have hrec := ih hrest (Nat.add_le_add_right hle _) movement hmem
        ⟨(Nat.le_add_right _ _).trans hrec.1, hrec.2⟩
    split
    · exact forall_mem_cons.mpr ⟨⟨hstart.ge, hstart.trans_lt (lt_of_le_of_ne hle ‹_›), hlen⟩, htail⟩
    · exact htail

/-- The moves are of members. -/
lemma Packs.mem (h : Packs remove members destination moves removed stop) :
    ∀ movement ∈ moves, movement.object ∈ members := by
  induction h with
  | nil => exact forall_mem_nil _
  | removed _ _ ih => exact fun movement hmem => mem_cons_of_mem _ (ih movement hmem)
  | retained _ _ _ _ ih =>
    split
    · exact forall_mem_cons.mpr
        ⟨mem_cons_self, fun movement hmem => mem_cons_of_mem _ (ih movement hmem)⟩
    · exact fun movement hmem => mem_cons_of_mem _ (ih movement hmem)

def GlobalHeapMove.copyIn (bytes : Bytes) (movement : GlobalHeapMove) : Bytes :=
  patch bytes movement.destination.start
    (slice bytes movement.object.range.start movement.object.range.length)

/-- **The moves of packed records**, on bytes that from the first record on are still those of the
collection. -/
theorem Packs.foldl_copyIn {limit : ℕ} {bytes : Bytes} (hlimit : limit ≤ content.length)
    (h : Packs remove members destination moves removed stop) (hchained : Chained start members)
    (hle : destination ≤ start) (hbounds : ∀ object ∈ members, object.range.stop ≤ limit)
    (hlen : bytes.length = content.length)
    (hagree : ∀ p, start ≤ p → p < limit → bytes[p]? = content[p]?) :
    moves.foldl GlobalHeapMove.copyIn bytes =
      patch bytes destination (retainedBytes content remove members) := by
  induction h generalizing start bytes with
  | nil destination => exact (patch_nil destination).symm
  | @removed object _ _ _ _ _ hrem _ ih =>
    obtain ⟨rfl, hrest⟩ := hchained
    rw [retainedBytes_cons_removed hrem]
    have hnext : object.range.stop = object.range.start + object.range.length := rfl
    exact ih hrest (by omega) (fun o ho => hbounds o (by simp [ho])) hlen
      fun p hp => hagree p (by omega)
  | @retained object rest destination _ _ _ _ hrem hstart _ _ ih =>
    obtain ⟨rfl, hrest⟩ := hchained
    have hbound : object.range.start + object.range.length ≤ limit := hbounds object (by simp)
    have hnext : object.range.stop = object.range.start + object.range.length := rfl
    -- the record in hand is still in place
    have hrecord : slice bytes object.range.start object.range.length =
        slice content object.range.start object.range.length :=
      slice_congr fun p hlow hhigh => hagree p hlow (by omega)
    have hsize : (slice content object.range.start object.range.length).length =
        object.range.length := length_slice (by omega)
    have hdest : destination ≤ bytes.length := by omega
    set moved := patch bytes destination (slice content object.range.start object.range.length)
      with hmoved
    have hlength' : moved.length = content.length := by
      rw [hmoved, length_patch hdest, hsize]
      omega
    have hagree' : ∀ p, object.range.stop ≤ p → p < limit → moved[p]? = content[p]? := by
      intro p hlow hhigh
      rw [hmoved, getElem?_patch hdest, if_neg (by omega)]
      exact hagree p (by omega) hhigh
    have happend := patch_append hdest
      (slice content object.range.start object.range.length) (retainedBytes content remove rest)
    rw [hsize, ← hmoved] at happend
    rw [retainedBytes_cons_retained hrem, ← happend,
      ← ih hrest (by omega) (fun o ho => hbounds o (by simp [ho])) hlength' hagree']
    by_cases hstay : destination = object.range.start
    · have hsame : moved = bytes := by
        rw [hmoved, hstay, ← hrecord]
        exact patch_slice_of_outside rfl (by omega) fun _ _ => rfl
      rw [if_neg (by simpa using hstay), hsame]
    · rw [if_pos hstay, foldl_cons, GlobalHeapMove.copyIn, hstart, hrecord]

end Packs

end Packed

/-! ## Plans -/

def freeHeader (lengths : LengthWidth) (n : ℕ) : Bytes :=
  patch (replicate freeHeaderLen 0) fixedHeaderLen (leBytes lengths.get n)

lemma length_freeHeader (lengths : LengthWidth) (n : ℕ) : (freeHeader lengths n).length = 16 := by
  cases lengths <;> rfl

namespace GlobalHeapMembers

variable {m : GlobalHeapMembers}

lemma freeSpace_eq_ok {destination : ℕ} {free : GlobalHeapFreeSpace}
    (h : m.freeSpace destination = .ok free) :
    free.header.start = destination ∧ free.header.length = 16 ∧
      free.bytes = freeHeader m.collection.lengths (m.collection.range.stop - destination) := by
  simp only [freeSpace, bind_eq_ok] at h
  obtain ⟨range, -, header, hheader, bytes, hbytes, h⟩ := h
  cases h
  obtain ⟨hstart, hlen⟩ := FileRange.new_eq_ok hheader
  refine ⟨hstart, hlen, ?_⟩
  simp only [writeLengthAt, ite_error_eq_ok, ite_else_error_eq_ok, Except.ok.injEq] at hbytes
  exact hbytes.2.2.symm

lemma compact_eq_ok {remove : GlobalHeapObject → Bool} {plan : GlobalHeapCompaction}
    (h : m.compact remove = .ok plan) :
    plan.collection = m.collection.range ∧ ∃ removed stop,
      Packs remove m.members m.collection.first.start plan.moves removed stop ∧
      ((removed = 0 ∧ plan.freeSpace = none) ∨
        (removed ≠ 0 ∧ ∃ free, m.freeSpace stop = .ok free ∧ plan.freeSpace = some free)) := by
  simp only [compact] at h
  obtain ⟨⟨moves, removed, stop⟩, hpack, h⟩ := bind_eq_ok.mp h
  replace hpack := packs_of_packRecords hpack
  split at h
  · rename_i hzero
    cases h
    exact ⟨rfl, removed, stop, hpack, .inl ⟨hzero, rfl⟩⟩
  rename_i hne
  cases hfree : m.freeSpace stop with
  | error e => rw [hfree] at h; cases h
  | ok free =>
    rw [hfree] at h
    cases h
    exact ⟨rfl, removed, stop, hpack, .inr ⟨hne, free, hfree, rfl⟩⟩

end GlobalHeapMembers

end Hdf5Pure.Heap
