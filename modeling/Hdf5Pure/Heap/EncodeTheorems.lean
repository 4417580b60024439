import Hdf5Pure.Heap.WalkTheorems

/-!
# Encoded collections

A collection is encoded as its header, the records of its objects, and the free space. A walk over it
gives back the objects.
-/

namespace Hdf5Pure.Heap

open List

/-! ## Sizes -/

variable {n : ℕ} {buf : Bytes}

/-- Without overflow a size is padded to the alignment. -/
lemma alignedCollectionSize_eq_ok {size : ℕ} (h : alignedCollectionSize n = .ok size) :
    size = aligned n := by
  rw [addressAdd_eq_ok h]
  unfold aligned alignment
  omega

variable {objects : List Bytes} {lengths : LengthWidth}

/-- Each object takes a header and its padded data. -/
lemma addObjectSizes_eq_ok {start size : ℕ} (h : addObjectSizes 16 objects start = .ok size) :
    size = start + (objects.map fun object => 16 + aligned object.length).sum := by
  induction objects generalizing start with
  | nil =>
    cases h
    rfl
  | cons object rest ih =>
    simp only [addObjectSizes, bind_eq_ok] at h
    obtain ⟨withHeader, hheader, padded, hpadded, next, hnext, h⟩ := h
    rw [ih h, addressAdd_eq_ok hnext, addressAdd_eq_ok hheader, alignedCollectionSize_eq_ok hpadded,
      map_cons, sum_cons]
    omega

/-- The size of a collection is that of its header, its records and a free-space header. -/
lemma collectionSizes_eq_ok {headerSize padded : ℕ}
    (h : collectionSizes lengths objects = .ok (headerSize, padded)) :
    headerSize = 16 ∧ padded = aligned
      (max (16 + (objects.map fun object => 16 + aligned object.length).sum + 16)
        minCollectionSize) := by
  simp only [collectionSizes, bind_eq_ok] at h
  obtain ⟨header, hheader, size, hsize, withFree, hfree, total, htotal, h⟩ := h
  cases h
  have hlen : headerSize = 16 := (alignedCollectionSize_eq_ok hheader).trans (headerLen_eq lengths)
  rw [hlen] at hsize hfree
  refine ⟨hlen, ?_⟩
  rw [alignedCollectionSize_eq_ok htotal, addressAdd_eq_ok hfree, addObjectSizes_eq_ok hsize]

/-! ## Records -/

lemma resize_of_le {l : Bytes} (h : l.length ≤ n) :
    resize l n = l ++ replicate (n - l.length) 0 := by
  rw [resize, take_of_length_le h]

def objectHeader (lengths : LengthWidth) (index count size : ℕ) : Bytes :=
  leBytes 2 index ++ (leBytes 2 count ++ ([0, 0, 0, 0] ++
    (leBytes lengths.get size ++ replicate (8 - lengths.get) 0)))

def objectRecord (lengths : LengthWidth) (object : Bytes) (index : ℕ) : Bytes :=
  objectHeader lengths index 1 object.length ++
    (object ++ replicate (aligned object.length - object.length) 0)

/-- Every record header takes 16 bytes. -/
lemma length_objectHeader (lengths : LengthWidth) (index count size : ℕ) :
    (objectHeader lengths index count size).length = 16 := by
  have hwidth := lengths.get_le
  simp only [objectHeader, length_append, length_leBytes, length_cons, length_nil,
    length_replicate]
  omega

/-- A record takes its header and its padded data. -/
lemma length_objectRecord (lengths : LengthWidth) (object : Bytes) (index : ℕ) :
    (objectRecord lengths object index).length = 16 + aligned object.length := by
  have hle := le_aligned object.length
  rw [objectRecord, length_append, length_objectHeader, length_append,
    length_replicate]
  omega

/-- What is appended at a position is found there. -/
lemma slice_append_append {a b c : Bytes} {start : ℕ} (hstart : a.length = start)
    (hn : b.length = n) : slice (a ++ (b ++ c)) start n = b := by
  rw [slice, drop_left' hstart, take_left' hn]

/-- A record header decodes to the fields it was written from. -/
lemma objectHeader_headerAt {index count size : ℕ} (hindex : index < 65536)
    (hcount : count < 65536) (hsize : size < 256 ^ lengths.get) (tail : Bytes) :
    GlobalHeapCollection.HeaderAt (objectHeader lengths index count size ++ tail) lengths 0 index
      count size := by
  unfold objectHeader
  refine ⟨?_, ?_, ?_⟩
  · rw [append_assoc, slice, drop_zero, take_left' (length_leBytes _ _)]
    exact leNat_leBytes_of_lt hindex
  · rw [append_assoc, append_assoc, slice_append_append (by simp) (by simp)]
    exact leNat_leBytes_of_lt hcount
  · have hsplit : leBytes 2 index ++ (leBytes 2 count ++ ([0, 0, 0, 0] ++
        (leBytes lengths.get size ++ replicate (8 - lengths.get) 0))) ++ tail =
        (leBytes 2 index ++ leBytes 2 count ++ [0, 0, 0, 0]) ++
          (leBytes lengths.get size ++ (replicate (8 - lengths.get) 0 ++ tail)) := by
      simp
    rw [hsplit, slice_append_append (by simp) (by simp)]
    exact leNat_leBytes_of_lt hsize

/-- A record header decodes wherever it lies. -/
lemma headerAt_of_slice {content : Bytes} {pos index count size : ℕ} (hindex : index < 65536)
    (hcount : count < 65536) (hsize : size < 256 ^ lengths.get)
    (h : slice content pos 16 = objectHeader lengths index count size) :
    GlobalHeapCollection.HeaderAt content lengths pos index count size := by
  apply (objectHeader_headerAt hindex hcount hsize []).copy
  rw [h, append_nil, slice, drop_zero,
    take_of_length_le (length_objectHeader _ _ _ _).le]

/-- A record decodes to its object. -/
lemma objectRecord_entryAt {object : Bytes} {index : ℕ} (hindex : index < 65536)
    (hsize : object.length < 256 ^ lengths.get) :
    EntryAt (objectRecord lengths object index) lengths 0 ⟨index, 1, object⟩ := by
  refine ⟨?_, objectHeader_headerAt hindex (by decide) hsize _, ?_⟩
  · rw [length_objectRecord, Nat.zero_add]
    rfl
  · exact slice_append_append (length_objectHeader _ _ _ _) rfl

/-- Padding behind a written header ends its reserved bytes. -/
lemma resize_objectHeader (h : buf.length + 16 ≤ n) (index count size : ℕ) :
    resize (buf ++ leBytes 2 index ++ leBytes 2 count ++ [0, 0, 0, 0] ++ leBytes lengths.get size)
      n = buf ++ (objectHeader lengths index count size ++
        replicate (n - (buf.length + 16)) 0) := by
  have hwidth := lengths.get_le
  have hlen : (buf ++ leBytes 2 index ++ leBytes 2 count ++ [0, 0, 0, 0] ++
      leBytes lengths.get size).length = buf.length + 8 + lengths.get := by
    simp only [length_append, length_leBytes, length_cons, length_nil]
  rw [resize_of_le (by omega), hlen, objectHeader]
  simp only [append_assoc, replicate_append_replicate]
  rw [show n - (buf.length + 8 + lengths.get) = 8 - lengths.get + (n - (buf.length + 16)) by omega]

/-- Behind aligned records an object is appended as its record. -/
lemma appendObject_eq (h : 8 ∣ buf.length) (object : Bytes × ℕ) :
    appendObject lengths 16 buf object = buf ++ objectRecord lengths object.1 (object.2 + 1) := by
  unfold appendObject
  dsimp only
  rw [resize_objectHeader le_rfl, Nat.sub_self, replicate_zero, append_nil]
  have hlen : (buf ++ objectHeader lengths (object.2 + 1) 1 object.1.length ++ object.1).length =
      buf.length + 16 + object.1.length := by
    rw [length_append, length_append, length_objectHeader]
  -- the records before end at a multiple of the alignment
  have haligned : aligned (buf.length + 16 + object.1.length) =
      buf.length + 16 + aligned object.1.length := by
    unfold aligned alignment
    omega
  have hle := le_aligned object.1.length
  rw [hlen, resize_of_le (by omega), hlen, haligned, objectRecord]
  simp only [append_assoc]
  rw [Nat.add_sub_add_left]

lemma dvd_aligned (n : ℕ) : 8 ∣ aligned n := Dvd.intro_left _ rfl

def objectRecords (lengths : LengthWidth) (objects : List (Bytes × ℕ)) : List Bytes :=
  objects.map fun object => objectRecord lengths object.1 (object.2 + 1)

/-- The objects are appended as their records, one after the other. -/
lemma foldl_appendObject {objects : List (Bytes × ℕ)} (h : 8 ∣ buf.length) :
    objects.foldl (appendObject lengths 16) buf =
      buf ++ (objectRecords lengths objects).flatten := by
  induction objects generalizing buf with
  | nil => exact (append_nil _).symm
  | cons object rest ih =>
    have hnext : 8 ∣ (buf ++ objectRecord lengths object.1 (object.2 + 1)).length := by
      have hdvd := dvd_aligned object.1.length
      rw [length_append, length_objectRecord]
      omega
    rw [foldl_cons, appendObject_eq h, ih hnext, objectRecords, objectRecords, map_cons,
      flatten_cons, append_assoc]

/-! ## Collections -/

def collectionHeader (lengths : LengthWidth) (size : ℕ) : Bytes :=
  gcolSignature ++ ([1] ++ ([0, 0, 0] ++
    (leBytes lengths.get size ++ replicate (8 - lengths.get) 0)))

lemma length_collectionHeader (lengths : LengthWidth) (size : ℕ) :
    (collectionHeader lengths size).length = 16 := by
  have hwidth := lengths.get_le
  simp only [collectionHeader, gcolSignature, length_append, length_leBytes, length_cons,
    length_nil, length_replicate]
  omega

def recordBytes (lengths : LengthWidth) (objects : List Bytes) : Bytes :=
  (objectRecords lengths objects.zipIdx).flatten

def encodedSize (lengths : LengthWidth) (objects : List Bytes) : ℕ :=
  aligned (max (16 + (recordBytes lengths objects).length + 16) minCollectionSize)

/-- The records take the sizes the encoder adds up. -/
lemma length_recordBytes (lengths : LengthWidth) (objects : List Bytes) :
    (recordBytes lengths objects).length =
      (objects.map fun object => 16 + aligned object.length).sum := by
  have hmap : (objects.zipIdx.map fun object => 16 + aligned object.1.length) =
      objects.map fun object => 16 + aligned object.length := by
    conv_rhs => rw [← zipIdx_map_fst 0 objects, map_map]
    rfl
  rw [recordBytes, length_flatten, objectRecords, map_map, ← hmap]
  exact congrArg _ (map_congr_left fun object _ => length_objectRecord _ _ _)

/-- A collection has room for its records and a free-space header. -/
lemma le_encodedSize (lengths : LengthWidth) (objects : List Bytes) :
    16 + (recordBytes lengths objects).length + 16 ≤ encodedSize lengths objects ∧
      4096 ≤ encodedSize lengths objects :=
  ⟨(le_max_left _ _).trans (le_aligned _), (le_max_right _ _).trans (le_aligned _)⟩

/-- **The encoding**: the header, the records, and the free space up to the end. -/
theorem encode_eq_ok {bytes : Bytes} (h : encodeGlobalHeapCollection lengths objects = .ok bytes) :
    objects.length ≤ 65535 ∧ encodedSize lengths objects < 256 ^ lengths.get ∧
      bytes = collectionHeader lengths (encodedSize lengths objects) ++
        (recordBytes lengths objects ++ (objectHeader lengths 0 0 (encodedSize lengths objects -
            (16 + (recordBytes lengths objects).length)) ++
          replicate (encodedSize lengths objects -
            (16 + (recordBytes lengths objects).length + 16)) 0)) := by
  obtain ⟨hroom, -⟩ := le_encodedSize lengths objects
  have hwidth := lengths.get_le
  unfold encodeGlobalHeapCollection at h
  split at h
  · cases h
  rename_i hcount
  cases hsizes : collectionSizes lengths objects with
  | error e => rw [hsizes] at h; cases h
  | ok sizes =>
    obtain ⟨headerSize, padded⟩ := sizes
    obtain ⟨rfl, hpadded⟩ := collectionSizes_eq_ok hsizes
    rw [← length_recordBytes lengths] at hpadded
    change padded = encodedSize lengths objects at hpadded
    rw [hsizes] at h
    dsimp only at h
    rw [hpadded] at h
    split at h
    · cases h
    rename_i hwide
    have hheader : resize (gcolSignature ++ [1] ++ [0, 0, 0] ++
        leBytes lengths.get (encodedSize lengths objects)) 16 =
        collectionHeader lengths (encodedSize lengths objects) := by
      rw [resize_of_le (by simp [gcolSignature]; omega), collectionHeader]
      simp only [append_assoc, gcolSignature, length_append, length_leBytes,
        length_cons, length_nil]
      rw [show 16 - (0 + 1 + 1 + 1 + 1 + (0 + 1 + (0 + 1 + 1 + 1 + lengths.get))) =
        8 - lengths.get by omega]
    have hbuf : (collectionHeader lengths (encodedSize lengths objects) ++
        recordBytes lengths objects).length = 16 + (recordBytes lengths objects).length := by
      rw [length_append, length_collectionHeader]
    rw [hheader, foldl_appendObject (by rw [length_collectionHeader]; decide), ← recordBytes,
      resize_objectHeader (by rw [hbuf]; exact hroom), hbuf, append_assoc] at h
    exact ⟨Nat.le_of_not_lt hcount, Nat.lt_of_not_le hwide, (Except.ok.inj h).symm⟩

/-- An encoded collection has the size it states. -/
lemma length_encode {bytes : Bytes} (h : encodeGlobalHeapCollection lengths objects = .ok bytes) :
    bytes.length = encodedSize lengths objects := by
  obtain ⟨-, -, hbytes⟩ := encode_eq_ok h
  obtain ⟨hroom, -⟩ := le_encodedSize lengths objects
  rw [hbytes, length_append, length_append, length_append, length_replicate,
    length_collectionHeader, length_objectHeader]
  omega

/-- A collection alone in a file is encoded at its start. -/
lemma encode_alone {bytes : Bytes} (h : encodeGlobalHeapCollection lengths objects = .ok bytes) :
    0 + bytes.length ≤ bytes.length ∧ slice bytes 0 bytes.length = bytes ∧
      0 + bytes.length < 2 ^ 64 := by
  have hwide : bytes.length < 256 ^ 8 := by
    rw [length_encode h]
    exact (encode_eq_ok h).2.1.trans_le (Nat.pow_le_pow_right (by decide) lengths.get_le)
  refine ⟨(Nat.zero_add _).le, ?_, by omega⟩
  rw [slice, drop_zero, take_length]

def encodedEntries (objects : List Bytes) : List Entry :=
  objects.zipIdx.map fun object => ⟨object.2 + 1, 1, object.1⟩

/-- The indices count from 1. -/
lemma encodedEntries_index (objects : List Bytes) :
    (encodedEntries objects).map Entry.index = (range' 0 objects.length).map (· + 1) := by
  rw [← zipIdx_map_snd 0 objects, encodedEntries, map_map, map_map]
  rfl

lemma encodedEntries_nodup (objects : List Bytes) :
    ((encodedEntries objects).map Entry.index).Nodup := by
  rw [encodedEntries_index]
  exact List.Nodup.map (add_left_injective 1) nodup_range'

/-- Every record decodes to the entry of its object. -/
lemma objectRecords_entries (hcount : objects.length ≤ 65535)
    (hsize : (recordBytes lengths objects).length < 256 ^ lengths.get) :
    List.Forall₂ (fun r e => r.length = e.extent ∧ EntryAt r lengths 0 e)
      (objectRecords lengths objects.zipIdx) (encodedEntries objects) := by
  unfold objectRecords encodedEntries
  rw [forall₂_map_left_iff, forall₂_map_right_iff, forall₂_same]
  intro object hmem
  have hindex : object.2 < objects.length := by
    have := snd_lt_add_of_mem_zipIdx hmem
    omega
  have hlen : 16 + aligned object.1.length ≤ (recordBytes lengths objects).length := by
    rw [length_recordBytes]
    apply le_sum_of_mem
    exact mem_map.mpr ⟨object.1, fst_mem_of_mem_zipIdx hmem, rfl⟩
  have hle := le_aligned object.1.length
  exact ⟨length_objectRecord _ _ _, objectRecord_entryAt (by omega) (by omega)⟩

section Decode

variable {lengths : LengthWidth} {objects : List Bytes} {bytes content : Bytes}
  {address : ℕ} (h : encodeGlobalHeapCollection lengths objects = .ok bytes)
  (hfits : address + bytes.length ≤ content.length) (hat : slice content address bytes.length = bytes)

include hat in
omit h hfits in
/-- A field of a collection lies in the file as far behind its address. -/
lemma slice_encoded {a n : ℕ} (hle : a + n ≤ bytes.length) :
    slice content (address + a) n = slice bytes a n := by
  rw [← slice_slice content hle, hat]

include h hfits hat

/-- The header of an encoded collection parses. -/
lemma parse_encode (hbound : address + bytes.length < 2 ^ 64) :
    ∃ c, GlobalHeapCollection.parse content address lengths = .ok c ∧
      c.range.length = bytes.length := by
  obtain ⟨-, hwide, hbytes⟩ := encode_eq_ok h
  obtain ⟨-, hmin⟩ := le_encodedSize lengths objects
  have hwidth := lengths.get_le
  have hlen := length_encode h
  rw [hlen] at hfits hbound ⊢
  apply GlobalHeapCollection.parse_of_header (by omega) hbound
  · rw [← Nat.add_zero address, slice_encoded hat (by omega), hbytes, collectionHeader]
    rfl
  · rw [slice_encoded hat (by omega), hbytes, collectionHeader]
    rfl
  · rw [slice_encoded hat (by omega), hbytes, collectionHeader]
    have hsplit : ∀ field zeros tail : Bytes,
        gcolSignature ++ ([1] ++ ([0, 0, 0] ++ (field ++ zeros))) ++ tail =
          (gcolSignature ++ [1] ++ [0, 0, 0]) ++ (field ++ (zeros ++ tail)) := by
      intro field zeros tail
      simp
    rw [hsplit, slice_append_append (by decide) (length_leBytes _ _)]
    exact leNat_leBytes_of_lt hwide
  · exact hmin
  · exact dvd_aligned _

/-- Behind the header lie the entries of the objects, and then the free space. -/
lemma entries_encode :
    Entries content lengths (address + 16) (encodedEntries objects) ∧
      entriesEnd (address + 16) (encodedEntries objects) =
        address + 16 + (recordBytes lengths objects).length ∧
      GlobalHeapCollection.HeaderAt content lengths
        (address + 16 + (recordBytes lengths objects).length) 0 0
        (bytes.length - (16 + (recordBytes lengths objects).length)) := by
  obtain ⟨hcount, hwide, hbytes⟩ := encode_eq_ok h
  obtain ⟨hroom, -⟩ := le_encodedSize lengths objects
  have hlen := length_encode h
  have hrecords : slice content (address + 16) (recordBytes lengths objects).length =
      recordBytes lengths objects := by
    rw [slice_encoded hat (by omega), hbytes, slice_append_append (length_collectionHeader _ _) rfl]
  obtain ⟨hents, hend⟩ := entries_of_slice (objectRecords_entries hcount (by omega))
    (show address + 16 + (recordBytes lengths objects).length ≤ content.length by omega) hrecords
  refine ⟨hents, hend, ?_⟩
  have hfree : slice content (address + 16 + (recordBytes lengths objects).length) 16 =
      objectHeader lengths 0 0 (bytes.length - (16 + (recordBytes lengths objects).length)) := by
    rw [Nat.add_assoc, slice_encoded hat (by omega), hlen]
    conv_lhs => rw [hbytes, ← append_assoc]
    apply slice_append_append
    · rw [length_append, length_collectionHeader]
    · exact length_objectHeader _ _ _ _
  exact headerAt_of_slice (by decide) (by decide) (by omega) hfree

/-- **The walk over an encoded collection.** -/
theorem walk_encode (hbound : address + bytes.length < 2 ^ 64) :
    ∃ c members, GlobalHeapCollection.parse content address lengths = .ok c ∧
      c.range.length = bytes.length ∧
      c.walk content c.range.length (some c.first) [] = .ok members ∧
      members.map (GlobalHeapObject.entry content) = encodedEntries objects := by
  obtain ⟨hroom, hmin⟩ := le_encodedSize lengths objects
  have hlen := length_encode h
  obtain ⟨c, hparse, hsize⟩ := parse_encode h hfits hat hbound
  obtain ⟨hstart, rfl, -, hfirst, hfirst_length, -⟩ := GlobalHeapCollection.parse_spec hparse
  obtain ⟨hents, hend, hfree⟩ := entries_encode h hfits hat
  have hstop : c.range.stop = address + bytes.length := by rw [FileRange.stop, hstart, hsize]
  have hunseen : ∀ e ∈ encodedEntries objects, e.index ≠ 0 ∧ e.index ∉ ([] : List ℕ) := by
    intro e he
    obtain ⟨object, -, rfl⟩ := mem_map.mp he
    exact ⟨Nat.succ_ne_zero _, not_mem_nil⟩
  rw [hstart] at hfirst
  obtain ⟨members, hwalk, hmembers⟩ := GlobalHeapCollection.walk_entries hents hunseen
    (encodedEntries_nodup objects) (by omega) (by omega)
    ⟨0, by
      rw [hend, show c.range.stop - (address + 16 + (recordBytes c.lengths objects).length) =
        bytes.length - (16 + (recordBytes c.lengths objects).length) by omega]
      exact hfree⟩
    hfirst hfirst_length (show c.range.stop ≤ address + 16 + 16 * c.range.length by omega)
  exact ⟨c, members, hparse, hsize, hwalk, hmembers⟩

end Decode

/-- **Collections decode to the objects they were encoded from**, wherever they lie in a file: a walk
gives the objects at the indices from 1, and a lookup finds those and no others. Whatever the bytes of
a collection are, its walk ends, and the members have distinct indices and lie one after the other
within the collection. -/
theorem decode_encodeGlobalHeapCollection :
    (∀ {lengths : LengthWidth} {objects : List Bytes} {bytes content : Bytes}
        {address : ℕ}, encodeGlobalHeapCollection lengths objects = .ok bytes →
      address + bytes.length ≤ content.length → slice content address bytes.length = bytes →
      address + bytes.length < 2 ^ 64 →
      8 ∣ bytes.length ∧ 4096 ≤ bytes.length ∧
      ∃ c members, GlobalHeapCollection.parse content address lengths = .ok c ∧
        c.range.start = address ∧ c.range.length = bytes.length ∧
        c.walk content c.range.length (some c.first) [] = .ok members ∧
        members.map (GlobalHeapObject.entry content) =
          objects.zipIdx.map (fun object => ⟨object.2 + 1, 1, object.1⟩) ∧
        (∀ i (hi : i < objects.length), ∃ object ∈ members,
          c.lookup content (i + 1) c.range.length c.first [] none = .ok object ∧
          object.entry content = ⟨i + 1, 1, objects[i]⟩) ∧
        ∀ index, objects.length < index →
          c.lookup content index c.range.length c.first [] none =
            .error (.globalHeapObjectNotFound address index)) ∧
    (∀ {lengths : LengthWidth} {content : Bytes} {address : ℕ} {c : GlobalHeapCollection},
      GlobalHeapCollection.parse content address lengths = .ok c →
      (∀ more, c.walk content (c.range.length + more) (some c.first) [] =
        c.walk content c.range.length (some c.first) []) ∧
      ∀ members, c.walk content c.range.length (some c.first) [] = .ok members →
        (members.map GlobalHeapObject.index).Nodup ∧
        (∀ object ∈ members, object.index ≠ 0 ∧ c.range.start ≤ object.range.start ∧
          object.range.stop ≤ c.range.stop) ∧
        members.Pairwise fun a b => a.range.stop ≤ b.range.start) := by
  refine ⟨?_, fun hparse => GlobalHeapCollection.walk_parsed hparse⟩
  intro lengths objects bytes content address h hfits hat hbound
  obtain ⟨-, hmin⟩ := le_encodedSize lengths objects
  have hlen := length_encode h
  obtain ⟨c, members, hparse, hsize, hwalk, hmembers⟩ := walk_encode h hfits hat hbound
  obtain ⟨hstart, -, -, hfirst, -, -⟩ := GlobalHeapCollection.parse_spec hparse
  have hstop : c.range.stop = c.range.start + c.range.length := rfl
  have hindex : members.map GlobalHeapObject.index = (range' 0 objects.length).map (· + 1) := by
    rw [← encodedEntries_index, ← hmembers, map_map]
    rfl
  refine ⟨by rw [hlen]; exact dvd_aligned _, by omega, c, members, hparse, hstart, hsize, hwalk,
    hmembers, fun i hi => ?_, fun index hlt => ?_⟩
  · have hentry : (⟨i + 1, 1, objects[i]⟩ : Entry) ∈ encodedEntries objects :=
      mem_map.mpr ⟨(objects[i], i), by simp [mem_zipIdx_iff_getElem?, hi], rfl⟩
    rw [← hmembers] at hentry
    obtain ⟨object, hmem, heq⟩ := mem_map.mp hentry
    refine ⟨object, hmem, ?_, heq⟩
    have hnumber : object.index = i + 1 := congrArg Entry.index heq
    rw [← hnumber]
    apply GlobalHeapCollection.lookup_of_mem (by omega) (by omega) hwalk _ hmem
    rw [hindex, ← encodedEntries_index]
    exact encodedEntries_nodup objects
  · rw [GlobalHeapCollection.lookup_of_notMem (by omega) (by omega) hwalk, hstart]
    intro object hmem heq
    have hin : index ∈ members.map GlobalHeapObject.index := mem_map.mpr ⟨object, hmem, heq⟩
    rw [hindex] at hin
    simp at hin
    omega

theorem decode_encodeGlobalHeapCollection_small :
    ∃ bytes, encodeGlobalHeapCollection .two [[7, 8, 9], []] = .ok bytes ∧ 4096 ≤ bytes.length ∧
      ∃ c, GlobalHeapCollection.parse bytes 0 .two = .ok c ∧ c.range.length = bytes.length := by
  obtain ⟨bytes, h⟩ : ∃ bytes, encodeGlobalHeapCollection .two [[7, 8, 9], []] = .ok bytes :=
    ⟨_, rfl⟩
  obtain ⟨hfits, hat, hbound⟩ := encode_alone h
  obtain ⟨-, hmin, c, -, hparse, -, hsize, -⟩ :=
    decode_encodeGlobalHeapCollection.1 h hfits hat hbound
  exact ⟨bytes, h, hmin, c, hparse, hsize⟩

end Hdf5Pure.Heap
