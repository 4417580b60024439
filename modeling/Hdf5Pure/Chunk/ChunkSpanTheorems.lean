import Hdf5Pure.Chunk.ChunkSpan
import Hdf5Pure.Utils.Counting
import Hdf5Pure.Utils.Runs

/-!
# Coalesced reads serve the bytes of the source

A span is the union of planned chunks, and the buffer has the bytes of the span it is said to hold,
whichever reads fail.
-/

namespace Hdf5Pure.Chunk

open ChunkSpanReader List

variable {content : Bytes}

/-! ## Spans -/

/-- The span is the union of the ranges, and longer than the budget only if it is one of them. -/
structure Unites (part : List AddressRange) (span : AddressRange) : Prop where
  first : ∃ c ∈ part, c.start = span.start
  last : ∃ c ∈ part, c.stop = span.stop
  within : ∀ c ∈ part, span.start ≤ c.start ∧ c.stop ≤ span.stop
  covers : ∀ x, span.start ≤ x → x < span.stop → ∃ c ∈ part, c.start ≤ x ∧ x < c.stop
  size : span.length ≤ maxSpanBytes ∨ span ∈ part

def Before (a b : AddressRange) : Prop := a.stop ≤ b.start

section

variable {spans spans' part ranges : List AddressRange} {parts : List (List AddressRange)}
  {last range merged : AddressRange}

lemma unites_singleton (range : AddressRange) : Unites [range] range :=
  ⟨by simp, by simp, by simp, fun x hx hx' => ⟨range, by simp, hx, hx'⟩, by simp⟩

lemma extendSpan_eq_some (h : extendSpan last range = some merged) :
    merged.start = last.start ∧ merged.stop = max last.stop range.stop := by
  obtain ⟨length, hlength, h⟩ := Option.bind_eq_some_iff.mp h
  obtain ⟨hle, rfl⟩ := checkedSub_eq_some.mp hlength
  obtain ⟨hstart, hlen⟩ := FileRange.new_eq_ok (toOption_eq_some.mp h)
  refine ⟨hstart, ?_⟩
  rw [FileRange.stop, hstart, hlen]
  omega

lemma Unites.extend (h : Unites part last) (hle : ∀ c ∈ part, c.start ≤ range.start)
    (htouch : range.start ≤ last.stop) (hsize : range.stop - last.start ≤ maxSpanBytes)
    (hmerged : extendSpan last range = some merged) : Unites (part ++ [range]) merged := by
  obtain ⟨hstart, hstop⟩ := extendSpan_eq_some hmerged
  obtain ⟨c, hc, hfirst⟩ := h.first
  obtain ⟨c', hc', hlast⟩ := h.last
  have hlow := hle c hc
  have hlen : merged.stop = merged.start + merged.length := rfl
  refine ⟨⟨c, by simp [hc], by omega⟩, ?_, ?_, ?_, ?_⟩
  · by_cases hin : range.stop ≤ last.stop
    · exact ⟨c', by simp [hc'], by omega⟩
    · exact ⟨range, by simp, by omega⟩
  · rw [forall_mem_append, forall_mem_singleton]
    refine ⟨fun d hd => ?_, by omega, by omega⟩
    have hin := h.within d hd
    omega
  · intro x hx hx'
    by_cases hin : x < last.stop
    · obtain ⟨d, hd, hdx⟩ := h.covers x (by omega) hin
      exact ⟨d, by simp [hd], hdx⟩
    · exact ⟨range, by simp, by omega, by omega⟩
  · -- a span over the budget grows by what it contains only
    by_cases hin : range.stop ≤ last.stop
    · have hlen' : last.stop = last.start + last.length := rfl
      have heq : merged = last := FileRange.eq_iff.mpr ⟨hstart, by omega⟩
      rw [heq]
      exact h.size.imp_right (mem_append_left _)
    · exact .inl (by omega)

lemma forall₂_concat (h : List.Forall₂ Unites parts (spans ++ [last])) :
    ∃ init part, parts = init ++ [part] ∧ List.Forall₂ Unites init spans ∧ Unites part last := by
  rw [← forall₂_reverse_iff, reverse_concat] at h
  obtain ⟨part, init, hpart, hinit, hparts⟩ := forall₂_cons_right_iff.mp h
  refine ⟨init.reverse, part, by simpa using hparts, ?_, hpart⟩
  rwa [← forall₂_reverse_iff, reverse_reverse]

/-- The loop cuts the ranges into parts, of which each span is the union. -/
lemma coalesce_spec (h : List.Forall₂ Unites parts spans)
    (hsort : (parts.flatten ++ ranges).Pairwise fun a b => a.start ≤ b.start)
    (hr : coalesce spans ranges = some spans') :
    ∃ parts', parts'.flatten = parts.flatten ++ ranges ∧ List.Forall₂ Unites parts' spans' := by
  induction ranges generalizing parts spans with
  | nil =>
    cases hr
    exact ⟨parts, (append_nil _).symm, h⟩
  | cons range ranges ih =>
    have hpush : coalesce (spans ++ [range]) ranges = some spans' → ∃ parts',
        parts'.flatten = parts.flatten ++ range :: ranges ∧ List.Forall₂ Unites parts' spans' := by
      intro hr
      have hparts : List.Forall₂ Unites (parts ++ [[range]]) (spans ++ [range]) :=
        rel_append h (.cons (unites_singleton range) .nil)
      simpa using ih hparts (by simpa using hsort) hr
    unfold coalesce at hr
    cases hlast : spans.getLast? with
    | none =>
      rw [hlast] at hr
      exact hpush hr
    | some last =>
      rw [hlast] at hr
      dsimp only at hr
      by_cases htouch : range.start ≤ last.stop ∧
          (checkedSub range.stop last.start).any fun length => length ≤ maxSpanBytes
      · rw [if_pos htouch] at hr
        obtain ⟨merged, hmerged, hr⟩ := Option.bind_eq_some_iff.mp hr
        obtain ⟨parts, part, rfl, hinit, hpart⟩ := forall₂_concat
          (dropLast_append_getLast? last hlast ▸ h)
        have hle : ∀ c ∈ part, c.start ≤ range.start := fun c hc =>
          (pairwise_append.mp hsort).2.2 c (by simp [hc]) range mem_cons_self
        have hsize : range.stop - last.start ≤ maxSpanBytes := by
          by_cases hlow : last.start ≤ range.stop
          · rw [checkedSub, if_pos hlow] at htouch
            exact of_decide_eq_true htouch.2
          · omega
        have hparts := rel_append hinit
          (.cons (hpart.extend hle htouch.1 hsize hmerged) .nil)
        simpa using ih hparts (by simpa using hsort) hr
      · rw [if_neg htouch] at hr
        exact hpush hr

/-- Every range lies in a span. -/
lemma exists_span (h : List.Forall₂ Unites parts spans) {c : AddressRange}
    (hc : c ∈ parts.flatten) : ∃ span ∈ spans, span.start ≤ c.start ∧ c.stop ≤ span.stop := by
  obtain ⟨part, hpart, hc⟩ := mem_flatten.mp hc
  obtain ⟨span, hspan, hunites⟩ := exists_left_of_forall₂ h.flip part hpart
  exact ⟨span, hspan, hunites.within c hc⟩

lemma spans_apart (h : List.Forall₂ Unites parts spans) (hapart : parts.flatten.Pairwise Before) :
    spans.Pairwise Before := by
  induction h with
  | nil => exact .nil
  | cons hpart hrest ih =>
    rw [flatten_cons, pairwise_append] at hapart
    refine pairwise_cons.mpr ⟨fun span hspan => ?_, ih hapart.2.1⟩
    obtain ⟨part, hmem, hunites⟩ := exists_left_of_forall₂ hrest span hspan
    obtain ⟨c, hc, hlast⟩ := hpart.last
    obtain ⟨d, hd, hfirst⟩ := hunites.first
    have hbefore := hapart.2.2 c hc d (mem_flatten_of_mem hmem hd)
    rwa [Before, hlast, hfirst] at hbefore

end

def bounds (range : AddressRange) : ℕ × ℕ := (range.start, range.length)

variable {chunks : List (ℕ × ℕ)}

lemma mapM_new_eq_ok {ranges : List AddressRange}
    (h : (chunks.mapM fun chunk => FileRange.new chunk.1 chunk.2) = .ok ranges) :
    ranges.map bounds = chunks := by
  induction chunks generalizing ranges with
  | nil =>
    cases h
    rfl
  | cons chunk chunks ih =>
    rw [mapM_cons] at h
    obtain ⟨range, hrange, h⟩ := bind_eq_ok.mp h
    obtain ⟨rest, hrest, h⟩ := bind_eq_ok.mp h
    cases h
    obtain ⟨hstart, hlen⟩ := FileRange.new_eq_ok hrange
    rw [map_cons, ih hrest, bounds, hstart, hlen]

/-- A reader holds no span at first, and its spans are those of the planned chunks. -/
lemma new_eq_some {sort : UnstableSort} {reader : ChunkSpanReader}
    (h : ChunkSpanReader.new sort chunks = some reader) : reader.held = none ∧ ∃ parts,
      (parts.flatten.map bounds).Perm chunks ∧
      parts.flatten.Pairwise (fun a b => a.start ≤ b.start) ∧
      List.Forall₂ Unites parts reader.spans := by
  obtain ⟨ranges, hranges, h⟩ := Option.bind_eq_some_iff.mp h
  obtain ⟨-, h⟩ := Option.ite_none_left_eq_some.mp h
  obtain ⟨spans, hspans, h⟩ := Option.bind_eq_some_iff.mp h
  obtain ⟨-, h⟩ := Option.ite_none_left_eq_some.mp h
  cases h
  have hsort := sort.sorted FileRange.start ranges
  obtain ⟨parts, hparts, hunites⟩ := coalesce_spec (.nil : List.Forall₂ Unites [] []) hsort hspans
  refine ⟨rfl, parts, ?_, hparts ▸ hsort, hunites⟩
  rw [hparts, ← mapM_new_eq_ok (toOption_eq_some.mp hranges)]
  exact (sort.perm FileRange.start ranges).map bounds

/-! ## The span of a request -/

section

variable {search : BinarySearch} {reader : ChunkSpanReader} {required span : AddressRange}

/-- Among spans apart, the search finds the one around a chunk. -/
lemma spanContaining_eq (search : BinarySearch) (required : AddressRange)
    (hapart : reader.spans.Pairwise Before) (hne : ∀ span ∈ reader.spans, 0 < span.length)
    (hspan : span ∈ reader.spans) (hlen : 0 < required.length) (hin : span.contains required) :
    reader.spanContaining search required = some span := by
  obtain ⟨hlow, hhigh⟩ := FileRange.contains_iff.mp hin
  obtain ⟨left, right, hsplit⟩ := append_of_mem hspan
  have hsort : (reader.spans.map FileRange.start).Pairwise (· ≤ ·) :=
    pairwise_map.mpr (hapart.imp fun {a b} hab => (Nat.le_add_right a.start a.length).trans hab)
  rw [hsplit, pairwise_append, pairwise_cons] at hapart
  have hleft : ∀ x ∈ left.map FileRange.start, x < required.start := by
    refine forall_mem_map.mpr fun a ha => ?_
    have hbefore : a.start + a.length ≤ span.start := hapart.2.2 a ha span mem_cons_self
    have hpos := hne a (by simp [hsplit, ha])
    omega
  have hright : ∀ x ∈ right.map FileRange.start, required.start < x := by
    refine forall_mem_map.mpr fun b hb => ?_
    have hbefore : span.stop ≤ b.start := hapart.2.1.1 b hb
    unfold FileRange.stop at hhigh hbefore
    omega
  have hget : reader.spans[left.length]? = some span := by simp [hsplit]
  rw [hsplit, map_append, map_cons] at hsort
  unfold spanContaining
  rw [hsplit, map_append, map_cons, ← hsplit]
  rcases search.find_between hleft hlow hright hsort with hfind | hfind
  all_goals
    rw [hfind, length_map]
    dsimp only
    rw [Option.bind_some, hget, Option.filter_some, if_pos hin]

end

/-! ## One request -/

/-- The source has the bytes `content`. A read that fails may leave anything in its buffer. -/
structure StoredRead.Serves (source : StoredRead) (content : Bytes) : Prop where
  readAt : ∀ {reads start buf buf'}, source.readAt reads start buf = (.ok (), buf') →
    buf' = slice content start buf.length ∧ buf'.length = buf.length
  readExactAt : ∀ {reads start n bytes}, source.readExactAt reads start n = .ok bytes →
    bytes = slice content start n ∧ bytes.length = n

/-- No read within the bytes of the source fails. -/
structure StoredRead.Reliable (source : StoredRead) (content : Bytes) : Prop where
  readAt : ∀ reads {start buf}, start + buf.length ≤ content.length →
    (source.readAt reads start buf).1 = .ok ()
  readExactAt : ∀ reads {start n}, start + n ≤ content.length →
    ∃ bytes, source.readExactAt reads start n = .ok bytes

lemma length_resize (buf : Bytes) (len : ℕ) : (resize buf len).length = len := by
  simp only [resize, length_append, length_take, length_replicate]
  omega

def ChunkSpanReader.Holds (content : Bytes) (reader : ChunkSpanReader) : Prop :=
  ∀ span, reader.held = some span →
    reader.buf = slice content span.start span.length ∧ reader.buf.length = span.length

lemma ChunkSpanReader.Holds.serve {reader : ChunkSpanReader} {span required : AddressRange}
    (h : reader.Holds content) (hheld : reader.held = some span) (hin : span.contains required) :
    reader.serve required.start required.length =
        .ok (.ok (slice content required.start required.length)) ∧
      (slice content required.start required.length).length = required.length := by
  obtain ⟨hbuf, hlen⟩ := h span hheld
  obtain ⟨hlow, hhigh⟩ := FileRange.contains_iff.mp hin
  unfold FileRange.stop at hhigh
  have hbound := required.bound
  have hfit : required.start - span.start + required.length ≤ reader.buf.length := by omega
  have hslice : slice reader.buf (required.start - span.start) required.length =
      slice content required.start required.length := by
    rw [hbuf, slice_slice content (by omega), Nat.add_sub_cancel' hlow]
  constructor
  · unfold ChunkSpanReader.serve
    rw [hheld, Checked.expect_some, Checked.ok_bind, checkedSub_eq_some.mpr ⟨hlow, rfl⟩]
    dsimp only
    rw [checkedAdd_eq_some.mpr ⟨by omega, rfl⟩, Option.filter_some, if_pos (by simpa using hfit),
      hslice]
  · rw [← hslice]
    exact length_slice hfit

def Around (request : ℕ × ℕ) (span : AddressRange) : Prop :=
  span.start ≤ request.1 ∧ request.1 + request.2 ≤ span.stop

/-- The reads of a request after other reads: none if its range leaves the address space or is
held, or else a span around it, or its own range if the search finds none. Only a read that fails
makes the request fail. -/
inductive Reads (search : BinarySearch) (source : StoredRead) (reads : List (ℕ × ℕ))
    (reader : ChunkSpanReader) (request : ℕ × ℕ) :
    Except FormatError Bytes → ChunkSpanReader → List (ℕ × ℕ) → Prop
  | refused (hover : 2 ^ 64 ≤ request.1 + request.2) :
      Reads search source reads reader request (.error (.offsetOverflow request.1 request.2))
        reader []
  | held {span : AddressRange} {bytes} (hheld : reader.held = some span)
      (haround : Around request span) :
      Reads search source reads reader request (.ok bytes) reader []
  | span {span : AddressRange} {r} {reader' : ChunkSpanReader}
      (hmiss : ∀ held, reader.held = some held → ¬ Around request held)
      (hmem : span ∈ reader.spans) (haround : Around request span)
      (hread : (source.readAt reads span.start (resize reader.buf span.length)).1 =
        r.map fun _ => ())
      (hok : ∀ bytes, r = .ok bytes → reader'.held = some span) :
      Reads search source reads reader request r reader' [bounds span]
  | direct {r} {reader' : ChunkSpanReader}
      (hnone : ∀ required, bounds required = request →
        reader.spanContaining search required = none)
      (hread : source.readExactAt reads request.1 request.2 = r) :
      Reads search source reads reader request r reader' [request]

/-- A request returns the bytes of the source. -/
structure Served (search : BinarySearch) (source : StoredRead) (content : Bytes)
    (st : ChunkSpanReader × List (ℕ × ℕ)) (request : ℕ × ℕ) (r : Except FormatError Bytes)
    (st' : ChunkSpanReader × List (ℕ × ℕ)) : Prop where
  bytes : ∀ bytes, r = .ok bytes →
    bytes = slice content request.1 request.2 ∧ bytes.length = request.2
  spans : st'.1.spans = st.1.spans
  reads : ∃ reads, st'.2 = st.2 ++ reads ∧ Reads search source st.2 st.1 request r st'.1 reads

section

variable {search : BinarySearch} {source : StoredRead} {st st' : ChunkSpanReader × List (ℕ × ℕ)}

lemma step_spec (search : BinarySearch) (hserves : source.Serves content)
    (st : ChunkSpanReader × List (ℕ × ℕ)) (request : ℕ × ℕ) (hholds : st.1.Holds content) :
    ∃ r st', step search source st request = .ok (r, st') ∧ st'.1.Holds content ∧
      Served search source content st request r st' := by
  obtain ⟨reader, reads⟩ := st
  by_cases hbound : request.1 + request.2 < 2 ^ 64
  swap
  · refine ⟨.error (.offsetOverflow request.1 request.2), (reader, reads), ?_, hholds, nofun, rfl,
      [], by simp, .refused (not_lt.mp hbound)⟩
    unfold step ChunkSpanReader.chunkBytes FileRange.new
    rw [dif_neg hbound]
  obtain ⟨required, rfl⟩ : ∃ required, request = bounds required := ⟨⟨_, _, hbound⟩, rfl⟩
  unfold step ChunkSpanReader.chunkBytes
  dsimp only [bounds]
  rw [FileRange.new_of_lt required.bound]
  dsimp only
  cases hheld : reader.held.any fun span => span.contains required with
  | true =>
    obtain ⟨span, hspan, hin⟩ : ∃ span, reader.held = some span ∧ span.contains required := by
      cases hsome : reader.held <;> simp_all
    obtain ⟨hserve, hlen⟩ := hholds.serve hspan hin
    rw [if_pos rfl, hserve]
    refine ⟨_, _, rfl, hholds, ?_, rfl, [], by simp, .held hspan (FileRange.contains_iff.mp hin)⟩
    rintro _ ⟨⟩
    exact ⟨rfl, hlen⟩
  | false =>
    have hmiss : ∀ held, reader.held = some held → ¬ Around (bounds required) held := by
      intro held hsome haround
      rw [hsome, Option.any_some, FileRange.contains_iff.mpr haround] at hheld
      cases hheld
    cases hspan : reader.spanContaining search required with
    | none =>
      have hnone : ∀ required', bounds required' = bounds required →
          reader.spanContaining search required' = none := by
        intro required' h
        rwa [FileRange.eq_iff.mpr (Prod.mk.inj h)]
      cases hread : source.readExactAt reads required.start required.length with
      | error e => exact ⟨_, _, rfl, hholds, nofun, rfl, _, rfl, .direct hnone hread⟩
      | ok bytes =>
        refine ⟨_, _, rfl, hholds, ?_, rfl, _, rfl, .direct hnone hread⟩
        rintro _ ⟨⟩
        exact hserves.readExactAt hread
    | some span =>
      obtain ⟨hbind, hin⟩ := Option.filter_eq_some_iff.mp hspan
      obtain ⟨i, -, hi⟩ := Option.bind_eq_some_iff.mp hbind
      have hmem := mem_of_getElem? hi
      have haround := FileRange.contains_iff.mp hin
      dsimp only
      obtain ⟨r, buf, hread⟩ : ∃ r buf, source.readAt reads span.start
          (resize reader.buf span.length) = (r, buf) := ⟨_, _, rfl⟩
      rw [hread]
      cases r with
      | error e =>
        -- the buffer may be damaged, and no span is held
        exact ⟨_, _, rfl, nofun, nofun, rfl, _, rfl,
          .span hmiss hmem haround (congrArg Prod.fst hread) nofun⟩
      | ok _ =>
        have hbuf := hserves.readAt hread
        rw [length_resize] at hbuf
        have hholds' : ({ reader with held := some span, buf := buf } : ChunkSpanReader).Holds
            content := by
          rintro _ ⟨⟩
          exact hbuf
        obtain ⟨hserve, hlen⟩ := hholds'.serve rfl hin
        dsimp only
        rw [hserve]
        refine ⟨_, _, rfl, hholds', ?_, rfl, _, rfl,
          .span hmiss hmem haround (congrArg Prod.fst hread) fun _ _ => rfl⟩
        rintro _ ⟨⟩
        exact ⟨rfl, hlen⟩

/-- A request within a reliable source succeeds. -/
lemma Served.succeeds {q : ℕ × ℕ} {r : Except FormatError Bytes} (hrel : source.Reliable content)
    (hspans : ∀ span ∈ st.1.spans, span.stop ≤ content.length)
    (hin : q.1 + q.2 ≤ content.length) (hbound : q.1 + q.2 < 2 ^ 64)
    (h : Served search source content st q r st') : ∃ bytes, r = .ok bytes := by
  obtain ⟨-, -, reads, -, hr⟩ := h
  generalize st'.1 = reader' at hr
  cases hr with
  | refused hover => omega
  | held => exact ⟨_, rfl⟩
  | @span span _ _ _ hmem _ hread =>
    have hfit : span.start + (resize st.1.buf span.length).length ≤ content.length := by
      rw [length_resize]
      exact hspans span hmem
    rw [hrel.readAt _ hfit] at hread
    cases r with
    | ok bytes => exact ⟨bytes, rfl⟩
    | error e => cases hread
  | direct _ hread =>
    obtain ⟨bytes, hbytes⟩ := hrel.readExactAt st.2 hin
    exact ⟨bytes, hread.symm.trans hbytes⟩

/-! ## Runs -/

variable {requests : List (ℕ × ℕ)} {results : List (Except FormatError Bytes)}

lemma trace_succeeds (hrel : source.Reliable content)
    (htrace : Trace (fun st q r st' => st'.1.Holds content ∧ Served search source content st q r st')
      st requests results st') (hspans : ∀ span ∈ st.1.spans, span.stop ≤ content.length)
    (hin : ∀ q ∈ requests, q.1 + q.2 ≤ content.length ∧ q.1 + q.2 < 2 ^ 64) :
    ∀ r ∈ results, ∃ bytes, r = .ok bytes := by
  induction htrace with
  | nil => simp
  | cons head tail ih =>
    obtain ⟨⟨hfit, hbound⟩, hin⟩ := forall_mem_cons.mp hin
    exact forall_mem_cons.mpr ⟨head.2.succeeds hrel hspans hfit hbound,
      ih (head.2.spans ▸ hspans) hin⟩

lemma Around.not_later {q q' : ℕ × ℕ} {a b : AddressRange} (hpos : 0 < q'.2) (hle : q.1 ≤ q'.1)
    (ha : Around q' a) (hab : Before a b) : ¬ Around q b := by
  intro hb
  unfold Around at ha hb
  unfold Before at hab
  omega

lemma Around.unique {q : ℕ × ℕ} {spans : List AddressRange} (hapart : spans.Pairwise Before)
    (hpos : 0 < q.2) {a b : AddressRange} (ha : a ∈ spans) (hb : b ∈ spans) (hqa : Around q a)
    (hqb : Around q b) : a = b := by
  by_contra hne
  have : Std.Symm fun a b => Before a b ∨ Before b a := ⟨fun _ _ => Or.symm⟩
  have hor : spans.Pairwise fun a b => Before a b ∨ Before b a := hapart.imp .inl
  rcases hor.forall ha hb hne with hab | hba
  · exact Around.not_later hpos le_rfl hqa hab hqb
  · exact Around.not_later hpos le_rfl hqb hba hqa

/-- Requests in ascending order, each in the held span or one after it, read the spans after it
one by one. -/
lemma trace_reads {spans after : List AddressRange} (hapart : spans.Pairwise Before)
    (hne : ∀ span ∈ spans, 0 < span.length)
    (htrace : Trace (fun st q r st' => st'.1.Holds content ∧ Served search source content st q r st')
      st requests results st') (hspans : st.1.spans = spans)
    (hsub : (st.1.held.toList ++ after).Sublist spans)
    (hin : ∀ q ∈ requests, 0 < q.2 ∧ ∃ span ∈ st.1.held.toList ++ after, Around q span)
    (hall : ∀ span ∈ after, ∃ q ∈ requests, Around q span)
    (hasc : requests.Pairwise fun q q' => q.1 ≤ q'.1)
    (hok : ∀ r ∈ results, ∃ bytes, r = .ok bytes) : st'.2 = st.2 ++ after.map bounds := by
  induction htrace generalizing after with
  | nil st =>
    have hnil : after = [] := eq_nil_iff_forall_not_mem.mpr fun span hspan => by
      obtain ⟨q, hq, -⟩ := hall span hspan
      cases hq
    rw [hnil, map_nil, append_nil]
  | @cons st st' st'' q r requests results head tail ih =>
    have hpos : ∀ q' ∈ q :: requests, 0 < q'.2 := fun q' hq' => (hin q' hq').1
    obtain ⟨⟨hself, span₀, hspan₀, haround⟩, hin⟩ := forall_mem_cons.mp hin
    obtain ⟨hfirst, hasc⟩ := pairwise_cons.mp hasc
    have hmin : ∀ q' ∈ q :: requests, q.1 ≤ q'.1 := forall_mem_cons.mpr ⟨le_rfl, hfirst⟩
    obtain ⟨-, hafter, hheldafter⟩ := pairwise_append.mp (hapart.sublist hsub)
    obtain ⟨⟨bytes, rfl⟩, hrs⟩ := forall_mem_cons.mp hok
    obtain ⟨-, -, hspans', reads, hreads, hr⟩ := head
    -- a span after the one that serves the request waits for a later request
    have hrest : ∀ {a : AddressRange} {l : List AddressRange}, Around q a →
        (∀ b ∈ l, Before a b) → l ⊆ after → ∀ b ∈ l, ∃ q' ∈ requests, Around q' b := by
      intro a l ha hbefore hl b hb
      obtain ⟨q', hq', hb'⟩ := hall b (hl hb)
      rcases mem_cons.mp hq' with rfl | hq'
      · exact absurd hb' (Around.not_later hself le_rfl ha (hbefore b hb))
      · exact ⟨q', hq', hb'⟩
    have hmem₀ := hspans ▸ hsub.subset hspan₀
    generalize hreader : st'.1 = reader' at hr ih hspans'
    cases hr with
    | held hheld hheldq =>
      rw [append_nil] at hreads
      have hlog := ih (hspans'.trans hspans) hsub hin (hrest hheldq (hheldafter _ (by simp [hheld]))
        (List.Subset.refl _)) hasc hrs
      rw [hlog, hreads]
    | direct hnone =>
      have hsome := spanContaining_eq search ⟨q.1, q.2, haround.2.trans_lt span₀.bound⟩
        (hspans ▸ hapart) (hspans ▸ hne) hmem₀ hself (FileRange.contains_iff.mpr haround)
      rw [hnone _ rfl] at hsome
      cases hsome
    | span hmiss hmem hspanq _ hheld =>
      obtain rfl := Around.unique (hspans ▸ hapart) hself hmem₀ hmem haround hspanq
      -- it is the first of the spans after the held one
      obtain ⟨after', rfl⟩ : ∃ after', after = span₀ :: after' := by
        cases after with
        | nil =>
          rw [append_nil] at hspan₀
          exact absurd haround (hmiss span₀ (Option.mem_toList.mp hspan₀))
        | cons a after' =>
          obtain ⟨q', hq', ha⟩ := hall a mem_cons_self
          rcases mem_append.mp hspan₀ with hheld₀ | hafter₀
          · exact absurd haround (hmiss span₀ (Option.mem_toList.mp hheld₀))
          · rcases mem_cons.mp hafter₀ with rfl | hlater
            · exact ⟨after', rfl⟩
            · exact absurd haround (Around.not_later (hpos q' hq') (hmin q' hq') ha
                ((pairwise_cons.mp hafter).1 span₀ hlater))
      have hheld' : reader'.held.toList ++ after' = span₀ :: after' := by
        rw [hheld bytes rfl]
        rfl
      have hlog := ih (hspans'.trans hspans)
        (hheld' ▸ (sublist_append_right _ _).trans hsub) (fun q' hq' => ?_)
        (hrest haround (pairwise_cons.mp hafter).1 (subset_cons_self _ _)) hasc hrs
      · rw [hlog, hreads, append_assoc]
        rfl
      · obtain ⟨hpos', b, hb, hbq⟩ := hin q' hq'
        refine ⟨hpos', b, ?_, hbq⟩
        rw [hheld']
        rcases mem_append.mp hb with hb | hb
        · exact absurd haround (Around.not_later hpos' (hfirst q' hq') hbq
            (hheldafter b hb span₀ mem_cons_self))
        · exact hb

end

/-! ## A planned reader -/

def Disjoint (chunk other : ℕ × ℕ) : Prop :=
  chunk.1 + chunk.2 ≤ other.1 ∨ other.1 + other.2 ≤ chunk.1

lemma before_of_disjoint {ranges : List AddressRange} (hperm : (ranges.map bounds).Perm chunks)
    (hsort : ranges.Pairwise fun a b => a.start ≤ b.start)
    (hpos : ∀ range ∈ ranges, 0 < range.length) (hdisj : chunks.Pairwise Disjoint) :
    ranges.Pairwise Before := by
  have hmap : (ranges.map bounds).Pairwise Disjoint :=
    (hperm.pairwise_iff fun {_ _} h => h.symm).mpr hdisj
  refine (hsort.and (pairwise_map.mp hmap)).imp_of_mem fun {a b} ha hb h => ?_
  have hb := hpos b hb
  rcases h.2 with hbefore | hafter
  · exact hbefore
  · simp only [bounds] at hafter
    omega

/-- Every span is a union of planned chunks without a gap. Whatever is requested, and whichever
reads fail, a request that succeeds returns the bytes of the source, one that fails lies outside the
address space or had its read fail, the buffer has the bytes of the held span, and nothing but the
requested range or a span around it is read. If no read within the source fails, requests within it
succeed; and if the planned chunks are also disjoint, not empty and requested in ascending order,
each span is read once. -/
theorem ChunkSpanReader.serves_source (search : BinarySearch) (sort : UnstableSort)
    {source : StoredRead} (hserves : source.Serves content) {chunks : List (ℕ × ℕ)}
    {reader : ChunkSpanReader} (hnew : ChunkSpanReader.new sort chunks = some reader) :
    (∀ span ∈ reader.spans, ∃ part : List AddressRange, (∀ c ∈ part, bounds c ∈ chunks) ∧
      Unites part span) ∧
    ∀ requests : List (ℕ × ℕ), ∃ results st,
      runAll (step search source) (reader, []) requests = .ok (results, st) ∧
      Trace (fun st request r st' =>
          st'.1.Holds content ∧ Served search source content st request r st')
        (reader, []) requests results st ∧
      (source.Reliable content → (∀ chunk ∈ chunks, chunk.1 + chunk.2 ≤ content.length) →
        ((∀ q ∈ requests, q.1 + q.2 ≤ content.length ∧ q.1 + q.2 < 2 ^ 64) →
          ∀ r ∈ results, ∃ bytes, r = .ok bytes) ∧
        ((∀ chunk ∈ chunks, 0 < chunk.2) → chunks.Pairwise Disjoint →
          (∀ q ∈ requests, q ∈ chunks) → (∀ chunk ∈ chunks, chunk ∈ requests) →
          requests.Pairwise (fun q q' => q.1 ≤ q'.1) →
          (∀ r ∈ results, ∃ bytes, r = .ok bytes) ∧
            reader.spans.Nodup ∧ st.2 = reader.spans.map bounds)) := by
  obtain ⟨hheld, parts, hperm, hsort, hparts⟩ := new_eq_some hnew
  have hchunk : ∀ c ∈ parts.flatten, bounds c ∈ chunks := fun c hc =>
    hperm.mem_iff.mp (mem_map_of_mem hc)
  have hunites : ∀ span ∈ reader.spans, ∃ part : List AddressRange,
      (∀ c ∈ part, bounds c ∈ chunks) ∧ Unites part span := by
    intro span hspan
    obtain ⟨part, hmem, hpart⟩ := exists_left_of_forall₂ hparts span hspan
    exact ⟨part, fun c hc => hchunk c (mem_flatten_of_mem hmem hc), hpart⟩
  refine ⟨hunites, fun requests => ?_⟩
  have hallowed : AllowedRun (step search source) (fun _ _ => True) (reader, []) requests :=
    AllowedRun.of_always (fun _ _ => trivial) requests _
  obtain ⟨results, st, hrun, -, htrace⟩ := hallowed.trace (fun st => st.1.Holds content)
    (fun st request h _ => step_spec search hserves st request h) (fun span hspan => by
      rw [hheld] at hspan
      cases hspan)
  refine ⟨results, st, hrun, htrace, fun hrel hfits => ?_⟩
  have hsucceeds := trace_succeeds hrel htrace (fun span hspan => by
    obtain ⟨part, hplan, hpart⟩ := hunites span hspan
    obtain ⟨c, hc, hstop⟩ := hpart.last
    exact hstop ▸ hfits _ (hplan c hc))
  refine ⟨hsucceeds, fun hpos hdisj hplanned hall hasc => ?_⟩
  have hok := hsucceeds (fun q hq => by
    obtain ⟨c, -, rfl⟩ := mem_map.mp (hperm.mem_iff.mpr (hplanned q hq))
    exact ⟨hfits _ (hplanned _ hq), c.bound⟩)
  have hapart := spans_apart hparts
    (before_of_disjoint hperm hsort (fun c hc => hpos _ (hchunk c hc)) hdisj)
  have hne : ∀ span ∈ reader.spans, 0 < span.length := by
    intro span hspan
    obtain ⟨part, hplan, hpart⟩ := hunites span hspan
    obtain ⟨c, hc, -⟩ := hpart.first
    have hin := hpart.within c hc
    have hc : 0 < c.length := hpos _ (hplan c hc)
    unfold FileRange.stop at hin
    omega
  refine ⟨hok, hapart.imp_of_mem fun {a b} ha _ hbefore heq => ?_,
    trace_reads hapart hne htrace rfl ?_ ?_ ?_ hasc hok⟩
  · have hlen := hne a ha
    rw [← heq, Before, FileRange.stop] at hbefore
    omega
  · rw [hheld]
    exact List.Sublist.refl _
  · intro q hq
    obtain ⟨c, hc, rfl⟩ := mem_map.mp (hperm.mem_iff.mpr (hplanned q hq))
    obtain ⟨span, hspan, hin⟩ := exists_span hparts hc
    exact ⟨hpos _ (hplanned _ hq), span, mem_append_right _ hspan, hin⟩
  · intro span hspan
    obtain ⟨part, hplan, hpart⟩ := hunites span hspan
    obtain ⟨c, hc, -⟩ := hpart.first
    exact ⟨bounds c, hall _ (hplan c hc), hpart.within c hc⟩

def StoredRead.ofBytes (content : Bytes) : StoredRead where
  readAt _ start buf :=
    if start + buf.length ≤ content.length then (.ok (), slice content start buf.length)
    else (.error (.unexpectedEof (start + buf.length) content.length), buf)
  readExactAt _ start n :=
    if start + n ≤ content.length then .ok (slice content start n)
    else .error (.unexpectedEof (start + n) content.length)

lemma StoredRead.ofBytes_serves (content : Bytes) : (ofBytes content).Serves content := by
  constructor
  · intro reads start buf buf' h
    by_cases hlen : start + buf.length ≤ content.length
    · obtain rfl : slice content start buf.length = buf' := by simpa [ofBytes, hlen] using h
      exact ⟨rfl, length_slice hlen⟩
    · simp [ofBytes, hlen] at h
  · intro reads start n bytes h
    by_cases hlen : start + n ≤ content.length
    · obtain rfl : slice content start n = bytes := by simpa [ofBytes, hlen] using h
      exact ⟨rfl, length_slice hlen⟩
    · simp [ofBytes, hlen] at h

lemma StoredRead.ofBytes_reliable (content : Bytes) : (ofBytes content).Reliable content :=
  ⟨fun _ _ _ hfit => by simp [ofBytes, hfit], fun _ _ _ hfit => by simp [ofBytes, hfit]⟩

theorem ChunkSpanReader.serves_source_two : ∃ results st,
    runAll (step .first (StoredRead.ofBytes (replicate 16 7)))
      (⟨[⟨0, 16, by decide⟩], none, [], []⟩, []) [(0, 8), (8, 8)] = .ok (results, st) ∧
    (∀ r ∈ results, ∃ bytes, r = .ok bytes) ∧ st.2 = [(0, 16)] := by
  obtain ⟨results, st, hrun, -, honce⟩ := (ChunkSpanReader.serves_source .first .insertion
    (StoredRead.ofBytes_serves (replicate 16 7))
    (rfl : ChunkSpanReader.new .insertion [(0, 8), (8, 8)] =
      some ⟨[⟨0, 16, by decide⟩], none, [], []⟩)).2 [(0, 8), (8, 8)]
  obtain ⟨hok, -, hreads⟩ := (honce (StoredRead.ofBytes_reliable _) (by decide)).2 (by decide)
    (by simp [Disjoint]) (by decide) (by decide) (by decide)
  exact ⟨results, st, hrun, hok, hreads⟩

/-- Requests in one span of a source in memory make one read. -/
lemma runAll_one_read (search : BinarySearch) (reader : ChunkSpanReader)
    (span inner : AddressRange) (hfit : span.stop ≤ content.length) (hheld : reader.held = none)
    (hspan : reader.spanContaining search span = some span) (hin : span.contains inner) :
    ∃ results st, runAll (step search (StoredRead.ofBytes content)) (reader, [])
        [bounds span, bounds inner, bounds inner] = .ok (results, st) ∧
      (∀ r ∈ results, ∃ bytes, r = .ok bytes) ∧ st.2 = [bounds span] := by
  have hholds : ({ reader with held := some span, buf := slice content span.start span.length } :
      ChunkSpanReader).Holds content := by
    rintro _ ⟨⟩
    exact ⟨rfl, length_slice hfit⟩
  have hread : (StoredRead.ofBytes content).readAt [] span.start (resize reader.buf span.length) =
      (.ok (), slice content span.start span.length) := by
    unfold FileRange.stop at hfit
    simp only [StoredRead.ofBytes, length_resize, if_pos hfit]
  have hself : span.contains span := FileRange.contains_iff.mpr ⟨le_rfl, le_rfl⟩
  simp [runAll, step, chunkBytes, bounds, FileRange.new_of_lt span.bound,
    FileRange.new_of_lt inner.bound, hheld, hspan, hread, hin, (hholds.serve rfl hself).1,
    (hholds.serve rfl hin).1]

def longChunk : AddressRange := ⟨0, 262145, by decide⟩

def emptyChunk : AddressRange := ⟨262145, 0, by decide⟩

def StoredRead.failingFirst (content : Bytes) : StoredRead where
  readAt reads start buf :=
    if reads = [] then (.error (.source "read failed"), buf)
    else (ofBytes content).readAt reads start buf
  readExactAt reads start n :=
    if reads = [] then .error (.source "read failed")
    else (ofBytes content).readExactAt reads start n

lemma StoredRead.failingFirst_serves (content : Bytes) : (failingFirst content).Serves content := by
  constructor
  · intro reads start buf buf' h
    by_cases hfirst : reads = []
    · simp [failingFirst, hfirst] at h
    · exact (ofBytes_serves content).readAt (by simpa [failingFirst, hfirst] using h)
  · intro reads start n bytes h
    by_cases hfirst : reads = []
    · simp [failingFirst, hfirst] at h
    · exact (ofBytes_serves content).readExactAt (by simpa [failingFirst, hfirst] using h)

/-- **Spans are not read exactly once.** An empty chunk after a span longer than the budget is a
span of its own that is never read, and a span whose read failed is read again. -/
theorem ChunkSpanReader.span_skipped_or_reread :
    (∃ reader results st,
      new .insertion [bounds longChunk, bounds emptyChunk, bounds emptyChunk] = some reader ∧
      List.Pairwise Disjoint [bounds longChunk, bounds emptyChunk, bounds emptyChunk] ∧
      runAll (step .first (StoredRead.ofBytes (replicate 262145 0))) (reader, [])
        [bounds longChunk, bounds emptyChunk, bounds emptyChunk] = .ok (results, st) ∧
      (∀ r ∈ results, ∃ bytes, r = .ok bytes) ∧ emptyChunk ∈ reader.spans ∧
      bounds emptyChunk ∉ st.2) ∧
    ∃ reader results st, new .insertion [(0, 8), (8, 8)] = some reader ∧
      (StoredRead.failingFirst (replicate 16 7)).Serves (replicate 16 7) ∧
      runAll (step .first (StoredRead.failingFirst (replicate 16 7))) (reader, [])
        [(0, 8), (8, 8)] = .ok (results, st) ∧
      st.2 = reader.spans.map bounds ++ reader.spans.map bounds := by
  constructor
  · obtain ⟨results, st, hrun, hok, hlog⟩ := runAll_one_read .first
      ⟨[longChunk, emptyChunk], none, [], []⟩ longChunk emptyChunk length_replicate.ge rfl rfl rfl
    exact ⟨⟨[longChunk, emptyChunk], none, [], []⟩, results, st, rfl,
      by simp [Disjoint, bounds, longChunk, emptyChunk], hrun, hok, by simp,
      by simp [hlog, bounds, longChunk, emptyChunk]⟩
  · exact ⟨⟨[⟨0, 16, by decide⟩], none, [], []⟩, _, _, rfl, StoredRead.failingFirst_serves _, rfl, rfl⟩

end Hdf5Pure.Chunk
