import Hdf5Pure.Heap.CollectionTheorems
import Hdf5Pure.Heap.JournalTheorems

/-!
# The packed form of a collection

A plan, applied to bytes that agree with those it was made from, gives the records that stay and
then the free space. Records move towards the start in pieces that overwrite nothing still to be
read.
-/

namespace Hdf5Pure.Heap

open Edit (Error)
open WriteEngine

section Copy

variable {ι : Type} {img : FileImage ι} {e₀ : WriteEngine ι} {R : ℕ → Prop} {c : Bytes}
  {parent : FileRange} {G : Prop}

lemma pieceAt_eq_ok {record range : FileRange} {copied length : ℕ}
    (h : pieceAt record copied length = .ok range) :
    range.start = record.start + copied ∧ range.length = length := by
  unfold pieceAt at h
  cases hadd : addressAdd record.start copied with
  | error e => rw [hadd] at h; cases h
  | ok start =>
    rw [hadd] at h
    dsimp only at h
    cases hnew : FileRange.new start length with
    | error e => rw [hnew] at h; cases h
    | ok r =>
      rw [hnew] at h
      cases h
      obtain ⟨hstart, hlen⟩ := FileRange.new_eq_ok hnew
      exact ⟨hstart.trans (addressAdd_eq_ok hadd), hlen⟩

/-- A piece that ends in the collection is in it. -/
lemma exists_pieceAt {record : FileRange} {copied length : ℕ} (hlow : parent.start ≤ record.start)
    (hhigh : record.start + copied + length ≤ parent.stop) :
    ∃ piece, pieceAt record copied length = .ok piece ∧ contained parent piece = .ok () := by
  have hbound : record.start + copied + length < 2 ^ 64 := hhigh.trans_lt parent.bound
  refine ⟨⟨record.start + copied, length, hbound⟩, ?_, if_pos ?_⟩
  · rw [pieceAt, addressAdd, checkedAdd_eq_some.mpr ⟨by omega, rfl⟩]
    dsimp only
    rw [FileRange.new_of_lt hbound]
  · exact FileRange.contains_iff.mpr ⟨hlow.trans (Nat.le_add_right _ _), hhigh⟩

/-- The next piece of a copy towards the start. -/
lemma patch_piece {source destination copied n : ℕ} (hle : destination ≤ source)
    (hfits : source + copied + n ≤ c.length) :
    patch (patch c destination (slice c source copied)) (destination + copied)
        (slice (patch c destination (slice c source copied)) (source + copied) n) =
      patch c destination (slice c source (copied + n)) := by
  have hlen : (slice c source copied).length = copied := length_slice (by omega)
  have hstart : destination ≤ c.length := by omega
  have happend := patch_append hstart (slice c source copied) (slice c (source + copied) n)
  rw [hlen] at happend
  have hslice : slice (patch c destination (slice c source copied)) (source + copied) n =
      slice c (source + copied) n :=
    slice_congr fun p hlow hhigh => by rw [getElem?_patch hstart, if_neg (by omega)]
  rw [hslice, happend, slice_append]

variable (hlawful : img.Lawful) (hR : ∀ p, parent.start ≤ p → p < parent.stop → R p)

include hlawful hR

/-- **Copying in pieces.** The bytes `c` with the first `copied` bytes of the record moved, and then
with the whole of it. -/
theorem copyRecord_holds {source destination : FileRange} (hle : destination.start ≤ source.start)
    (hG : G → parent.start ≤ destination.start ∧ source.stop ≤ parent.stop ∧
      parent.stop ≤ c.length) (fuel : ℕ) {copied : ℕ} (hfuel : source.length ≤ copied + fuel)
    (hcopied : copied ≤ source.length) (hfits : copied = 0 ∨ source.start + copied ≤ c.length) :
    (copyRecord img parent source destination fuel copied).Holds
      (RecordedAs img e₀ R (patch c destination.start (slice c source.start copied)))
      (fun _ => RecordedAs img e₀ R
        (patch c destination.start (slice c source.start source.length)))
      (Refused img e₀ R G) := by
  induction fuel generalizing copied with
  | zero =>
    have hdone : copied = source.length := by omega
    rw [hdone]
    exact Fallible.Holds.pure fun _ h => h
  | succ fuel ih =>
    unfold copyRecord
    by_cases hmore : copied < source.length
    · rw [if_pos hmore]
      set n := min (source.length - copied) copyBytes with hn
      have hn_pos : 0 < n := by
        rw [hn, copyBytes]
        omega
      have hn_le : source.start + copied + n ≤ source.stop := by
        unfold FileRange.stop
        omega
      -- pieces of records in the collection are in it
      have hsrc : G → ∃ piece, pieceAt source copied n = .ok piece ∧
          contained parent piece = .ok () := by
        intro hgranted
        obtain ⟨hlow, hhigh, -⟩ := hG hgranted
        exact exists_pieceAt (hlow.trans hle) (hn_le.trans hhigh)
      have hdest : G → ∃ piece, pieceAt destination copied n = .ok piece ∧
          contained parent piece = .ok () := by
        intro hgranted
        obtain ⟨hlow, hhigh, -⟩ := hG hgranted
        exact exists_pieceAt hlow (by omega)
      apply lift_bind_holds (fun hg => (hsrc hg).imp fun _ h => h.1)
      intro read hread
      apply lift_bind_holds (fun hg => (hdest hg).imp fun _ h => h.1)
      intro write hwrite
      rw [hread] at hsrc
      rw [hwrite] at hdest
      apply lift_bind_holds (fun hg => ?_)
      swap
      · obtain ⟨_, ⟨⟩, h⟩ := hsrc hg
        exact ⟨(), h⟩
      intro _ _
      apply lift_bind_holds (fun hg => ?_)
      swap
      · obtain ⟨_, ⟨⟩, h⟩ := hdest hg
        exact ⟨(), h⟩
      intro _ hcontained
      obtain ⟨hread_start, hread_length⟩ := pieceAt_eq_ok hread
      obtain ⟨hwrite_start, hwrite_length⟩ := pieceAt_eq_ok hwrite
      rw [contained, ite_else_error_eq_ok] at hcontained
      obtain ⟨hlow, hhigh⟩ : _ ∧ write.start + write.length ≤ parent.stop :=
        FileRange.contains_iff.mp hcontained.1
      rw [hread_start, hread_length, hwrite_start]
      -- the bytes moved so far lie before the piece, within the image
      have hsame : (patch c destination.start (slice c source.start copied)).length = c.length := by
        rcases hfits with rfl | hfits
        · rw [slice_zero, patch_nil]
        · rw [length_patch (by omega), length_slice hfits]
          omega
      apply Fallible.Holds.bind (readAt_holds hlawful fun hgranted => ?_)
      swap
      · obtain ⟨-, hhigh, hlen⟩ := hG hgranted
        omega
      intro bytes
      apply Fallible.Holds.of_and
      rintro ⟨hbound, rfl⟩
      rw [hsame] at hbound
      have hpiece : (slice (patch c destination.start (slice c source.start copied))
          (source.start + copied) n).length = n := length_slice (by omega)
      refine Fallible.Holds.bind (writeInplaceJournaled_holds hlawful (fun _ => ?_) ?_) fun _ => ?_
      · rw [hsame, hpiece]
        exact ⟨by omega, by have := write.bound; omega⟩
      · intro p hlow hhigh
        exact hR p (by omega) (by omega)
      · rw [patch_piece hle hbound]
        exact ih (by omega) (by omega) (.inr (by omega))
    · rw [if_neg hmore]
      have hdone : copied = source.length := by omega
      rw [hdone]
      exact Fallible.Holds.pure fun _ h => h

/-- **Copying in pieces is moving at once.** -/
theorem copyRecord_whole {e : WriteEngine ι} {source destination : FileRange}
    (hle : destination.start ≤ source.start)
    (hG : G → parent.start ≤ destination.start ∧ source.stop ≤ parent.stop ∧
      parent.stop ≤ c.length) :
    (copyRecord img parent source destination source.length 0).Holds (RecordedAs img e R c)
      (fun _ => RecordedAs img e R
        (patch c destination.start (slice c source.start source.length)))
      (Refused img e R G) := by
  have hstart : patch c destination.start (slice c source.start 0) = c := by
    rw [slice_zero, patch_nil]
  have hcopy : (copyRecord img parent source destination source.length 0).Holds
      (RecordedAs img e R (patch c destination.start (slice c source.start 0))) _ _ :=
    copyRecord_holds hlawful hR hle hG source.length (Nat.le_add_left _ _) (Nat.zero_le _) (.inl rfl)
  rw [hstart] at hcopy
  exact hcopy

/-- **The moves of a plan**, one after the other. -/
theorem applyMoves_holds {moves : List GlobalHeapMove} {bytes : Bytes}
    (hle : ∀ movement ∈ moves, movement.destination.start ≤ movement.object.range.start)
    (hG : G → parent.stop ≤ bytes.length ∧ ∀ movement ∈ moves,
    parent.start ≤ movement.destination.start ∧ movement.object.range.stop ≤ parent.stop) :
    (applyMoves img parent moves).Holds (RecordedAs img e₀ R bytes)
    (fun _ => RecordedAs img e₀ R (moves.foldl GlobalHeapMove.copyIn bytes))
    (Refused img e₀ R G) := by
  induction moves generalizing bytes with
  | nil => exact Fallible.Holds.pure fun _ h => h
  | cons movement rest ih =>
    have hcopy := copyRecord_whole (e := e₀) hlawful hR (hle movement (by simp))
      (fun hgranted => ⟨((hG hgranted).2 movement (by simp)).1,
        ((hG hgranted).2 movement (by simp)).2, (hG hgranted).1⟩)
    apply hcopy.bind
    intro _
    apply ih (fun m hm => hle m (by simp [hm]))
    intro hgranted
    obtain ⟨hlen, hmoves⟩ := hG hgranted
    refine ⟨?_, fun m hm => hmoves m (by simp [hm])⟩
    -- a copied record leaves the number of bytes
    have hfirst := hle movement (by simp)
    have hstop : movement.object.range.start + movement.object.range.length ≤ parent.stop :=
      (hmoves movement (by simp)).2
    rw [length_patch (by omega), length_slice (by omega)]
    omega

end Copy

/-! ## Plans -/

/-- A plan made from the bytes of a file: the members of a collection without those `remove`
selects. -/
structure PlannedCompaction (content : Bytes) where
  address : ℕ
  lengths : LengthWidth
  remove : GlobalHeapObject → Bool
  members : GlobalHeapMembers
  plan : GlobalHeapCompaction
  collected : collectMembers content address lengths = .ok members
  compacted : members.compact remove = .ok plan

namespace PlannedCompaction

variable {content : Bytes} (q : PlannedCompaction content)

def range : FileRange := q.members.collection.range

def first : ℕ := q.members.collection.first.start

def records : Bytes := retainedBytes content q.remove q.members.members

/-- The bytes with the collection packed: the records that stay, then free space. Without a removed
member nothing changes. -/
def packed (bytes : Bytes) : Bytes :=
  if q.members.members.any q.remove then
    patch bytes q.first (q.records ++
      freeHeader q.members.collection.lengths (q.range.stop - (q.first + q.records.length)))
  else bytes

variable {q}

lemma framed : q.members.Framed := collectMembers_framed q.collected

lemma any_eq_true_iff {removed : ℕ} (h : removed = (q.members.members.filter q.remove).length) :
    q.members.members.any q.remove = true ↔ removed ≠ 0 := by
  rw [h, List.any_eq_true, ← Nat.pos_iff_ne_zero, List.length_filter_pos_iff]

/-- The packed records and the free space header lie in the collection. -/
lemma records_fit (hfits : q.range.stop ≤ content.length)
    (hany : q.members.members.any q.remove = true) :
    q.range.start ≤ q.first ∧ q.first + q.records.length + 16 ≤ q.range.stop := by
  have hcontent : ∀ object ∈ q.members.members, object.range.stop ≤ content.length :=
    fun object h => (framed.bounds object h).2.trans hfits
  have hsum : q.first + q.records.length +
      16 * (q.members.members.filter q.remove).length ≤ q.range.stop :=
    length_retainedBytes hcontent framed.chained framed.room framed.bounds
  have hpos := (any_eq_true_iff rfl).mp hany
  have hfirst := q.framed.first
  refine ⟨?_, by omega⟩
  show _ ≤ q.members.collection.first.start
  rw [hfirst]
  exact Nat.le_add_right _ _

variable {bytes : Bytes}

lemma length_packed (hlen : bytes.length = content.length)
    (hfits : q.range.stop ≤ content.length) : (q.packed bytes).length = content.length := by
  unfold packed
  by_cases hany : q.members.members.any q.remove = true
  · obtain ⟨-, hroom⟩ := records_fit hfits hany
    rw [if_pos hany, length_patch (by omega), List.length_append, length_freeHeader]
    omega
  · rw [if_neg hany]
    exact hlen

lemma packed_outside (hlen : bytes.length = content.length)
    (hfits : q.range.stop ≤ content.length) {p : ℕ} (hp : p < q.range.start ∨ q.range.stop ≤ p) :
    (q.packed bytes)[p]? = bytes[p]? := by
  unfold packed
  by_cases hany : q.members.members.any q.remove = true
  · obtain ⟨hfirst, hroom⟩ := records_fit hfits hany
    rw [if_pos hany, getElem?_patch (by omega), List.length_append, length_freeHeader,
      if_neg (by omega)]
  · rw [if_neg hany]

/-- The packed form takes from the bytes what it does not write. -/
lemma packed_congr (hlen : bytes.length = content.length)
    (hfits : q.range.stop ≤ content.length) {p : ℕ} (hp : bytes[p]? = content[p]?) :
    (q.packed bytes)[p]? = (q.packed content)[p]? := by
  have hroom : q.first ≤ q.range.stop := q.framed.room
  unfold packed
  split
  · rw [getElem?_patch (by omega), getElem?_patch (by omega), hp]
  · exact hp

variable {ι : Type} {img : FileImage ι} {e₀ : WriteEngine ι} {R : ℕ → Prop} {G : Prop}

/-- **Applying a plan** to bytes that agree in the collection with those it was made from. -/
theorem apply_holds (hlawful : img.Lawful) (hR : ∀ p, q.range.start ≤ p → p < q.range.stop → R p)
    (hlen : bytes.length = content.length)
    (hagree : ∀ p, q.range.start ≤ p → p < q.range.stop → bytes[p]? = content[p]?)
    (hG : G → q.range.stop ≤ content.length) :
    (apply img q.plan).Holds (RecordedAs img e₀ R bytes)
      (fun _ s => RecordedAs img e₀ R (q.packed bytes) s ∧ q.range.stop ≤ content.length)
      (Refused img e₀ R G) := by
  obtain ⟨hrange, removed, stop, hpack, hcases⟩ := GlobalHeapMembers.compact_eq_ok q.compacted
  have hread : (Fallible.read fun e => (img.content e.image).length : Action ι ℕ).Holds
      (RecordedAs img e₀ R bytes)
      (fun n s => RecordedAs img e₀ R bytes s ∧ n = content.length) (Refused img e₀ R G) :=
    Fallible.Holds.read fun s h => ⟨h, by rw [h.2, hlen]⟩
  unfold apply
  rw [hrange]
  apply hread.bind
  intro n
  apply Fallible.Holds.of_and
  rintro rfl
  by_cases hfits : content.length < q.members.collection.range.stop
  · rw [if_pos hfits]
    exact Fallible.Holds.fail.imp
      (fun _ h => ⟨h.1, fun _ hgranted => absurd (hG hgranted) (Nat.not_le.mpr hfits)⟩)
      (fun _ _ h => h) (fun _ h => h)
  rw [if_neg hfits]
  replace hfits : q.range.stop ≤ content.length := Nat.le_of_not_lt hfits
  have hcontent : ∀ object ∈ q.members.members, object.range.stop ≤ content.length :=
    fun object h => (framed.bounds object h).2.trans hfits
  obtain ⟨hremoved, hstop⟩ := hpack.counts hcontent
  have hany := any_eq_true_iff hremoved
  rcases hcases with ⟨hzero, hnone⟩ | ⟨hne, free, hfree, hsome⟩
  · -- nothing is removed
    have hpacked : q.packed bytes = bytes := if_neg (by rw [hany]; simpa using hzero)
    rw [hnone, hpacked]
    exact Fallible.Holds.pure fun _ h => ⟨h, hfits⟩
  · obtain ⟨hheader, hheader_length, hbytes⟩ := GlobalHeapMembers.freeSpace_eq_ok hfree
    rw [hsome]
    have hfirst : q.range.start ≤ q.first := (records_fit hfits (hany.mpr hne)).1
    have hmoves : (applyMoves img q.range q.plan.moves).Holds (RecordedAs img e₀ R bytes)
        (fun _ => RecordedAs img e₀ R (patch bytes q.first q.records)) (Refused img e₀ R G) := by
      have hcopied : q.plan.moves.foldl GlobalHeapMove.copyIn bytes = patch bytes q.first q.records :=
        hpack.foldl_copyIn hfits framed.chained le_rfl (fun object h => (framed.bounds object h).2)
          hlen fun p hlow hhigh => hagree p (hfirst.trans hlow) hhigh
      have hmoved := hpack.towards framed.chained le_rfl
      rw [← hcopied]
      exact applyMoves_holds hlawful hR (fun movement hmem => (hmoved movement hmem).2.1.le)
        fun _ => ⟨hfits.trans_eq hlen.symm, fun movement hmem =>
          ⟨hfirst.trans (hmoved movement hmem).1,
            (framed.bounds _ (hpack.mem movement hmem)).2⟩⟩
    apply hmoves.bind
    intro _
    have hroom := (records_fit hfits (hany.mpr hne)).2
    have hstart : free.header.start = q.first + q.records.length := hheader.trans hstop
    have hcontained : q.range.contains free.header = true := by
      refine FileRange.contains_iff.mpr ⟨by omega, ?_⟩
      show free.header.start + free.header.length ≤ _
      omega
    apply lift_bind_holds (fun _ => ⟨(), if_pos hcontained⟩)
    intro _ _
    have hpacked : q.packed bytes =
        patch (patch bytes q.first q.records) free.header.start free.bytes := by
      rw [packed, if_pos (hany.mpr hne), hbytes, hstart, patch_append (by omega), hstop]
      rfl
    rw [hpacked]
    have hin : ∀ p, free.header.start ≤ p → p < free.header.start + free.bytes.length → R p := by
      intro p hp hp'
      rw [hbytes, length_freeHeader] at hp'
      exact hR p (by omega) (by omega)
    have hwritten : free.header.start + free.bytes.length ≤ q.range.stop := by
      rw [hbytes, length_freeHeader]
      omega
    have hpatched : (patch bytes q.first q.records).length = content.length := by
      rw [length_patch (by omega)]
      omega
    exact (writeInplaceJournaled_holds hlawful (fun _ => ⟨(hwritten.trans hfits).trans_eq
      hpatched.symm, hwritten.trans_lt q.range.bound⟩) hin).imp (fun _ h => h)
      (fun _ _ h => ⟨h, hfits⟩) (fun _ h => h)

end PlannedCompaction

end Hdf5Pure.Heap
