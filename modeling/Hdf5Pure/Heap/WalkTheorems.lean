import Hdf5Pure.Heap.CollectionTheorems

/-!
# Walks over the records of a collection

Records that follow one another up to a free space object are walked as the entries they encode. A
walk is complete, whatever the bytes are, since every record takes a header.
-/

namespace Hdf5Pure.Heap

open List

/-- What a record holds. -/
structure Entry where
  index : ℕ
  count : ℕ
  data : Bytes

def GlobalHeapObject.entry (content : Bytes) (object : GlobalHeapObject) : Entry :=
  ⟨object.index, object.referenceCount,
    slice content object.payload.start object.payload.length⟩

def Entry.extent (e : Entry) : ℕ := 16 + aligned e.data.length

lemma le_aligned (n : ℕ) : n ≤ aligned n := by
  unfold aligned alignment
  omega

/-- The record of an entry lies at a position. -/
structure EntryAt (content : Bytes) (lengths : LengthWidth) (pos : ℕ) (e : Entry) : Prop where
  fits : pos + e.extent ≤ content.length
  header : GlobalHeapCollection.HeaderAt content lengths pos e.index e.count e.data.length
  data : slice content (pos + 16) e.data.length = e.data

variable {content content' : Bytes} {lengths : LengthWidth}

variable {pos index : ℕ} {entries : List Entry}

lemma slice_field {pos' n : ℕ} (h : slice content' pos' n = slice content pos n) {a m : ℕ}
    (hle : a + m ≤ n) : slice content' (pos' + a) m = slice content (pos + a) m := by
  rw [← slice_slice content' hle, h, slice_slice content hle]

lemma GlobalHeapCollection.HeaderAt.copy {pos' count size : ℕ}
    (h : HeaderAt content lengths pos index count size)
    (heq : slice content' pos' 16 = slice content pos 16) :
    HeaderAt content' lengths pos' index count size := by
  have hwidth := lengths.get_le
  refine ⟨?_, ?_, ?_⟩
  · have hindex : slice content' pos' 2 = slice content pos 2 := slice_field heq (a := 0) (by omega)
    rw [hindex]
    exact h.index
  · rw [slice_field heq (by omega)]
    exact h.count
  · rw [slice_field heq (by omega)]
    exact h.size

lemma EntryAt.copy {pos' : ℕ} {e : Entry} (h : EntryAt content lengths pos e)
    (hfits : pos' + e.extent ≤ content'.length)
    (heq : slice content' pos' e.extent = slice content pos e.extent) :
    EntryAt content' lengths pos' e := by
  have hdata := le_aligned e.data.length
  unfold Entry.extent at heq
  refine ⟨hfits, h.header.copy (slice_field heq (a := 0) (by omega)), ?_⟩
  rw [slice_field heq (by omega)]
  exact h.data

def Entries (content : Bytes) (lengths : LengthWidth) : ℕ → List Entry → Prop
  | _, [] => True
  | pos, e :: rest => EntryAt content lengths pos e ∧ Entries content lengths (pos + e.extent) rest

def entriesEnd (start : ℕ) (entries : List Entry) : ℕ :=
  start + (entries.map Entry.extent).sum

lemma entriesEnd_cons (start : ℕ) (e : Entry) (rest : List Entry) :
    entriesEnd start (e :: rest) = entriesEnd (start + e.extent) rest := by
  unfold entriesEnd
  rw [map_cons, sum_cons, Nat.add_assoc]

lemma entries_of_slice {records : List Bytes}
    (h : List.Forall₂ (fun r e => r.length = e.extent ∧ EntryAt r lengths 0 e) records entries)
    {start : ℕ} (hfits : start + records.flatten.length ≤ content.length)
    (hslice : slice content start records.flatten.length = records.flatten) :
    Entries content lengths start entries ∧
      entriesEnd start entries = start + records.flatten.length := by
  induction h generalizing start with
  | nil => exact ⟨trivial, rfl⟩
  | @cons r e records entries hr _ ih =>
    rw [flatten_cons, length_append] at hfits hslice
    rw [← slice_append] at hslice
    have hlen : (slice content start r.length).length = r.length := length_slice (by omega)
    obtain ⟨hfirst, hrest⟩ := append_inj hslice hlen
    obtain ⟨hents, hend⟩ := ih (by omega) hrest
    refine ⟨⟨?_, by rw [← hr.1]; exact hents⟩, ?_⟩
    · apply hr.2.copy (by omega)
      rw [← hr.1, hfirst]
      simp [slice]
    · rw [entriesEnd_cons, ← hr.1, hend, flatten_cons, length_append]
      omega

namespace GlobalHeapCollection

variable {c : GlobalHeapCollection} {content : Bytes}

lemma parse_of_header {address size : ℕ} (hfits : address + 16 ≤ content.length)
    (hbound : address + size < 2 ^ 64) (hsignature : slice content address 4 = gcolSignature)
    (hversion : leNat (slice content (address + 4) 1) = 1)
    (hsize : leNat (slice content (address + 8) lengths.get) = size)
    (hmin : minCollectionSize ≤ size) (hdvd : alignment ∣ size) :
    ∃ c, parse content address lengths = .ok c ∧ c.range.length = size := by
  have hwidth := lengths.get_le
  have hlong : 4096 ≤ size := hmin
  have hslice : slice (slice content address 16) 0 4 = gcolSignature := by
    rw [slice_slice content (by omega), Nat.add_zero]
    exact hsignature
  have hreg : ∀ h, regionAt content ⟨address, 16, h⟩ = .ok (slice content address 16) :=
    fun h => regionAt_eq_ok.mpr ⟨hfits, rfl⟩
  refine ⟨⟨⟨address, size, hbound⟩, lengths, ⟨address + 16, 16, by omega⟩⟩, ?_, rfl⟩
  unfold parse
  rw [headerLen_eq, FileRange.new, dif_pos (by omega)]
  dsimp only [bind, Except.bind]
  rw [hreg]
  dsimp only
  rw [if_neg (by rw [hslice]; exact fun h => h rfl), uintAt_slice hfits (by omega), hversion]
  dsimp only
  rw [if_neg (by decide), uintAt_slice hfits (by omega), hsize]
  dsimp only
  rw [if_neg (by omega), if_neg (by rw [Nat.mod_eq_zero_of_dvd hdvd]; decide), FileRange.new,
    dif_pos hbound, addressAdd, checkedAdd_eq_some.mpr ⟨by omega, rfl⟩]
  dsimp only
  rw [FileRange.new, dif_pos (by omega)]

/-! ## Walks -/

/-- **A walk is complete**: with a step for every header that the collection has room for, more steps
change nothing. -/
theorem walk_complete {fuel : ℕ} {range : FileRange} {seen : List ℕ}
    (hlt : range.start < c.range.stop) (hle : c.range.stop ≤ range.start + 16 * fuel) :
    ∀ more,
  c.walk content (fuel + more) (some range) seen = c.walk content fuel (some range) seen := by
  induction fuel generalizing range seen with
  | zero =>
    omega
  | succ fuel ih =>
    intro more
    rw [Nat.add_right_comm, walk, walk]
    cases hstep : c.step content range seen with
    | error e => rfl
    | ok s =>
      obtain ⟨found, next, seen'⟩ := s
      rcases step_spec hstep with ⟨rfl, -⟩ | ⟨object, rfl, -, hfound⟩
      · rfl
      cases next with
      | none => cases fuel <;> cases more <;> rfl
      | some r =>
        obtain ⟨hr, -, hhigh⟩ := hfound.next r rfl
        have hlow := hfound.length
        rw [← hr] at hhigh
        rw [FileRange.stop, hfound.start] at hr
        show (c.walk content (fuel + more) (some r) seen' >>= _) =
          (c.walk content fuel (some r) seen' >>= _)
        rw [ih hhigh (by omega)]

lemma chained_pairwise {members : List GlobalHeapObject} {start : ℕ} (h : Chained start members) :
    (∀ object ∈ members, start ≤ object.range.start) ∧
    members.Pairwise fun a b => a.range.stop ≤ b.range.start := by
  induction members generalizing start with
  | nil => exact ⟨by simp, List.Pairwise.nil⟩
  | cons object rest ih =>
    obtain ⟨rfl, hrest⟩ := h
    obtain ⟨hlow, hpairwise⟩ := ih hrest
    have hle : object.range.start ≤ object.range.stop := Nat.le_add_right _ _
    refine ⟨fun o ho => ?_, pairwise_cons.mpr ⟨hlow, hpairwise⟩⟩
    rcases mem_cons.mp ho with rfl | ho
    · exact le_rfl
    · exact hle.trans (hlow o ho)

/-- **The walk over a parsed collection**, whatever the bytes of its records are. -/
theorem walk_parsed {address : ℕ} (h : parse content address lengths = .ok c) :
    (∀ more, c.walk content (c.range.length + more) (some c.first) [] =
        c.walk content c.range.length (some c.first) []) ∧
      ∀ members, c.walk content c.range.length (some c.first) [] = .ok members →
        (members.map GlobalHeapObject.index).Nodup ∧
        (∀ object ∈ members, object.index ≠ 0 ∧ c.range.start ≤ object.range.start ∧
          object.range.stop ≤ c.range.stop) ∧
        members.Pairwise fun a b => a.range.stop ≤ b.range.start := by
  obtain ⟨-, -, hsize, hfirst, hlen, -⟩ := parse_spec h
  have hlong : 4096 ≤ c.range.length := hsize
  have hstop : c.range.stop = c.range.start + c.range.length := rfl
  refine ⟨walk_complete (by omega) (by omega), fun members hwalk => ?_⟩
  obtain ⟨hchained, hdescribes, hnodup⟩ :=
    walk_spec _ (fun r hr => by cases hr; exact ⟨rfl, hlen.le⟩) hwalk
  obtain ⟨hlow, hpairwise⟩ := chained_pairwise hchained
  refine ⟨hnodup, fun object hmem => ⟨(hdescribes object hmem).1.index_ne, ?_,
    (hdescribes object hmem).1.stop_le⟩, hpairwise⟩
  have := hlow object hmem
  omega

/-! ## The walk over entries -/

/-- The header of an entry is parsed as its member. -/
lemma step_entry {e : Entry} (h : EntryAt content c.lengths pos e) (hne : e.index ≠ 0)
    (hstop : pos + e.extent + 16 ≤ c.range.stop) {range : FileRange} (hstart : range.start = pos)
    (hlen : range.length = 16) {seen : List ℕ} (hseen : e.index ∉ seen) :
    ∃ object next, c.step content range seen = .ok (some object, some next, e.index :: seen) ∧
      object.entry content = e ∧ object.range.start = pos ∧ object.range.length = e.extent ∧
      next.start = pos + e.extent ∧ next.length = 16 := by
  have hwidth := c.lengths.get_le
  have hbound := c.range.bound
  have hdata := le_aligned e.data.length
  have hfits := h.fits
  have hextent : e.extent = 16 + aligned e.data.length := rfl
  have hroom : c.range.stop = c.range.start + c.range.length := rfl
  have hreg : regionAt content range = .ok (slice content pos 16) :=
    regionAt_eq_ok.mpr ⟨by rw [FileRange.stop]; omega, by rw [hstart, hlen]⟩
  have hfield : ∀ a n, a + n ≤ 16 →
      uintAt (slice content pos 16) a n = .ok (leNat (slice content (pos + a) n)) :=
    fun a n hle => uintAt_slice (by omega) hle
  have hremaining : ∀ p, p ≤ c.range.stop → c.remaining p = .ok (c.range.stop - p) :=
    fun p hp => remaining_eq_ok.mpr ⟨hp, rfl⟩
  have hnew : ∀ a n, a + n ≤ c.range.stop → ∃ r, FileRange.new a n = .ok r ∧ r.start = a ∧ r.length = n :=
    fun a n hle => ⟨⟨a, n, by omega⟩, dif_pos (by omega), rfl, rfl⟩
  obtain ⟨whole, hwhole, hwhole_start, hwhole_length⟩ := hnew pos e.extent (by omega)
  obtain ⟨payload, hpayload, hpayload_start, hpayload_length⟩ :=
    hnew (pos + 16) e.data.length (by omega)
  obtain ⟨next, hnext, hnext_start, hnext_length⟩ := hnew (pos + e.extent) 16 (by omega)
  have hrange : range.stop = pos + 16 := by rw [FileRange.stop, hstart, hlen]
  have hparse : c.parseObject range (slice content pos 16) =
      .ok (some ⟨e.index, e.count, whole, payload⟩) := by
    unfold parseObject
    rw [hfield 0 2 (by omega), hfield 2 2 (by omega), hfield 8 _ (by omega), hlen, headerLen_eq,
      hrange, hstart, hremaining pos (by omega), Nat.add_zero, h.header.index, h.header.count,
      h.header.size]
    dsimp only [bind, Except.bind]
    rw [if_neg (by omega), if_neg hne,
      (objectExtent_eq_some (by omega)).mpr ⟨rfl, by omega⟩]
    dsimp only
    rw [← hextent, hwhole, hpayload]
  have hheader : c.headerRange whole.stop = .ok (some next) := by
    unfold headerRange
    rw [FileRange.stop, hwhole_start, hwhole_length, hremaining _ (by omega), headerLen_eq]
    dsimp only [bind, Except.bind]
    rw [if_neg (by omega), Nat.min_eq_right (by omega), hnext]
  refine ⟨⟨e.index, e.count, whole, payload⟩, next, ?_, ?_, hwhole_start, hwhole_length, hnext_start,
    hnext_length⟩
  · unfold step
    rw [hreg]
    dsimp only [bind, Except.bind]
    rw [hparse]
    dsimp only
    rw [hheader]
    dsimp only
    rw [if_neg (by simpa using hseen)]
  · show Entry.mk e.index e.count (slice content payload.start payload.length) = e
    rw [hpayload_start, hpayload_length, h.data]

lemma step_free (hfits : pos + 16 ≤ content.length) (hstop : pos + 16 ≤ c.range.stop) {count : ℕ}
    (h : HeaderAt content c.lengths pos 0 count (c.range.stop - pos)) {range : FileRange}
    (hstart : range.start = pos) (hlen : range.length = 16) (seen : List ℕ) :
    c.step content range seen = .ok (none, none, seen) := by
  have hwidth := c.lengths.get_le
  have hreg : regionAt content range = .ok (slice content pos 16) :=
    regionAt_eq_ok.mpr ⟨by rw [FileRange.stop]; omega, by rw [hstart, hlen]⟩
  have hfield : ∀ a n, a + n ≤ 16 →
      uintAt (slice content pos 16) a n = .ok (leNat (slice content (pos + a) n)) :=
    fun a n hle => uintAt_slice (by omega) hle
  have hparse : c.parseObject range (slice content pos 16) = .ok none := by
    unfold parseObject
    rw [hfield 0 2 (by omega), hfield 2 2 (by omega), hfield 8 _ (by omega), hlen, headerLen_eq,
      hstart, remaining_eq_ok.mpr ⟨by omega, rfl⟩, Nat.add_zero, h.index, h.size]
    dsimp only [bind, Except.bind]
    rw [if_neg (by omega), if_pos rfl, if_neg (by simp)]
  unfold step
  rw [hreg]
  dsimp only [bind, Except.bind]
  rw [hparse]

/-- **The walk over entries** and the free space after them. -/
theorem walk_entries {pos fuel : ℕ} {seen : List ℕ} {range : FileRange}
    (hents : Entries content c.lengths pos entries)
    (hindex : ∀ e ∈ entries, e.index ≠ 0 ∧ e.index ∉ seen)
    (hnodup : (entries.map Entry.index).Nodup) (hstop : entriesEnd pos entries + 16 ≤ c.range.stop)
    (hfits : entriesEnd pos entries + 16 ≤ content.length)
    (hfree : ∃ count, HeaderAt content c.lengths (entriesEnd pos entries) 0 count
    (c.range.stop - entriesEnd pos entries)) (hstart : range.start = pos)
    (hlen : range.length = 16) (hfuel : c.range.stop ≤ pos + 16 * fuel) :
    ∃ members, c.walk content fuel (some range) seen = .ok members ∧
    members.map (GlobalHeapObject.entry content) = entries := by
  induction entries generalizing pos fuel seen range with
  | nil =>
    have hend : entriesEnd pos [] = pos := rfl
    obtain ⟨fuel, rfl⟩ := Nat.exists_eq_succ_of_ne_zero (show fuel ≠ 0 by omega)
    obtain ⟨count, hfree⟩ := hfree
    refine ⟨[], ?_, rfl⟩
    rw [walk, step_free hfits hstop hfree hstart hlen]
    rfl
  | cons e rest ih =>
    obtain ⟨hentry, hrest⟩ := hents
    rw [entriesEnd_cons] at hstop hfits hfree
    obtain ⟨hne, hseen⟩ := hindex e (by simp)
    rw [map_cons, nodup_cons] at hnodup
    have hstep : pos + e.extent ≤ entriesEnd (pos + e.extent) rest := Nat.le_add_right _ _
    have hheader : 16 ≤ e.extent := Nat.le_add_right _ _
    obtain ⟨fuel, rfl⟩ := Nat.exists_eq_succ_of_ne_zero (show fuel ≠ 0 by omega)
    obtain ⟨object, next, hobj, heq, hobject_start, hobject_length, hnext_start, hnext_length⟩ :=
      step_entry hentry hne (by omega) hstart hlen hseen
    have hindex' : ∀ e' ∈ rest, e'.index ≠ 0 ∧ e'.index ∉ e.index :: seen := by
      intro e' he'
      refine ⟨(hindex e' (by simp [he'])).1, fun hmem => ?_⟩
      rcases mem_cons.mp hmem with hsame | hmem
      · exact hnodup.1 (by rw [← hsame]; exact mem_map_of_mem he')
      · exact (hindex e' (by simp [he'])).2 hmem
    obtain ⟨members, hwalk, hmembers⟩ := ih hrest hindex' hnodup.2 hstop hfits hfree
      hnext_start hnext_length (show c.range.stop ≤ pos + e.extent + 16 * fuel by omega)
    refine ⟨object :: members, ?_, by rw [map_cons, heq, hmembers]⟩
    rw [walk, hobj]
    show (c.walk content fuel (some next) (e.index :: seen) >>= _) = _
    rw [hwalk]
    rfl

/-! ## Lookups -/

/-- **A lookup finds what the walk finds.** -/
theorem lookup_eq {fuel : ℕ} {range : FileRange} {seen : List ℕ} {found : Option GlobalHeapObject}
    {members : List GlobalHeapObject} (hlt : range.start < c.range.stop)
    (hle : c.range.stop ≤ range.start + 16 * fuel)
    (h : c.walk content fuel (some range) seen = .ok members) :
    c.lookup content index fuel range seen found =
    ((members.reverse.find? fun o => o.index == index).or found).elim
      (.error (.globalHeapObjectNotFound c.range.start index)) .ok := by
  induction fuel generalizing range seen found members with
  | zero =>
    omega
  | succ fuel ih =>
    obtain ⟨⟨parsed, next, seen'⟩, hstep, h⟩ := bind_eq_ok.mp h
    unfold lookup
    rw [hstep]
    dsimp only [bind, Except.bind]
    rcases step_spec hstep with ⟨rfl, rfl⟩ | ⟨object, rfl, -, hfound⟩
    · cases h
      cases found <;> rfl
    · obtain ⟨rest, hrest, h⟩ := bind_eq_ok.mp h
      cases h
      have hor : ((object :: rest).reverse.find? fun o => o.index == index).or found =
          (rest.reverse.find? fun o => o.index == index).or
            (((some object).filter fun o => o.index == index).or found) := by
        rw [reverse_cons, find?_append, Option.or_assoc, find?_singleton,
          Option.filter_some]
      rw [hor]
      cases next with
      | none =>
        have hnil : rest = [] := by
          cases fuel <;> cases hrest <;> rfl
        rw [hnil]
        cases ((some object).filter fun o => o.index == index).or found <;> rfl
      | some r =>
        obtain ⟨hr, -, hhigh⟩ := hfound.next r rfl
        have hlow := hfound.length
        rw [← hr] at hhigh
        rw [FileRange.stop, hfound.start] at hr
        exact ih hhigh (by omega) hrest

section Lookup

variable {range : FileRange} {members : List GlobalHeapObject} {fuel : ℕ}
  (hstart : range.start < c.range.stop) (hfuel : c.range.stop ≤ range.start + 16 * fuel)
  (hwalk : c.walk content fuel (some range) [] = .ok members)

include hstart hfuel hwalk

lemma lookup_of_mem (hnodup : (members.map GlobalHeapObject.index).Nodup)
    {object : GlobalHeapObject} (hmem : object ∈ members) :
    c.lookup content object.index fuel range [] none = .ok object := by
  rw [lookup_eq hstart hfuel hwalk]
  cases hfind : members.reverse.find? fun o => o.index == object.index with
  | none => exact absurd (find?_eq_none.mp hfind object (by simpa using hmem)) (by simp)
  | some o =>
    have ho : o ∈ members := by simpa using mem_of_find?_eq_some hfind
    have hindex : o.index = object.index := by simpa using find?_some hfind
    rw [inj_on_of_nodup_map hnodup ho hmem hindex]
    rfl

lemma lookup_of_notMem (hindex : ∀ object ∈ members, object.index ≠ index) :
    c.lookup content index fuel range [] none =
      .error (.globalHeapObjectNotFound c.range.start index) := by
  have hfind : (members.reverse.find? fun o => o.index == index) = none := by
    rw [find?_eq_none]
    intro o ho
    simpa using hindex o (by simpa using ho)
  rw [lookup_eq hstart hfuel hwalk, hfind]
  rfl

end Lookup

end GlobalHeapCollection

end Hdf5Pure.Heap
