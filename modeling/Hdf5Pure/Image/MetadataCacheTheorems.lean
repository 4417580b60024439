import Hdf5Pure.Image.MetadataCache
import Hdf5Pure.Utils.Patch

/-!
# What the metadata cache returns

Every entry is a slice of the content, so a hit returns what the file would. A write drops the
entries it overlaps before the content changes.
-/

namespace Hdf5Pure.Image

variable {key : ReadKey} {e : CachedMetadataRead} {offset : ℕ}

namespace MetadataReadCache

variable {c c' : MetadataReadCache} {content : Bytes}

/-- Every entry is a slice of the content. -/
structure Valid (c : MetadataReadCache) (content : Bytes) : Prop where
  bytes_eq : ∀ {k e}, c.entries.get? k = some e →
    e.bytes.bytes = slice content (ofLex k).1 (ofLex k).2
  stop_le : ∀ {k e}, c.entries.get? k = some e → (ofLex k).1 + (ofLex k).2 ≤ content.length
  nonempty : ∀ {k e}, c.entries.get? k = some e → 0 < (ofLex k).2
  longest : ∀ {k e}, c.entries.get? k = some e → (ofLex k).2 ≤ c.longestEntry

/-- Every entry has one access row, and the bytes are counted. -/
structure Indexed (c : MetadataReadCache) : Prop where
  row : ∀ {t k}, c.byAccess.get? t = some k ↔ ∃ e, c.entries.get? k = some e ∧ e.lastAccess = t
  tick : ∀ {k e}, c.entries.get? k = some e → e.lastAccess ≤ c.tick
  bytes : c.currentBytes = c.entries.weight fun e => e.bytes.retainedBytes

lemma valid_new (content : Bytes) : new.Valid content :=
  ⟨nofun, nofun, nofun, nofun⟩

lemma valid_of_forall (h : ∀ {k e}, c.entries.get? k = some e →
    e.bytes.bytes = slice content (ofLex k).1 (ofLex k).2 ∧
      (ofLex k).1 + (ofLex k).2 ≤ content.length ∧ 0 < (ofLex k).2 ∧ (ofLex k).2 ≤ c.longestEntry) :
    c.Valid content :=
  ⟨fun hk => (h hk).1, fun hk => (h hk).2.1, fun hk => (h hk).2.2.1, fun hk => (h hk).2.2.2⟩

lemma Valid.mono (h : c.Valid content)
    (hents : ∀ {k e}, c'.entries.get? k = some e → ∃ e', c.entries.get? k = some e' ∧
      e'.bytes = e.bytes)
    (hlongest : c.longestEntry ≤ c'.longestEntry) : c'.Valid content := by
  apply valid_of_forall
  intro k e hk
  obtain ⟨e', he', hbytes⟩ := hents hk
  exact ⟨hbytes ▸ h.bytes_eq he', h.stop_le he', h.nonempty he', (h.longest he').trans hlongest⟩

/-! ## Removal -/

lemma get?_remove (c : MetadataReadCache) (key k : ReadKey) :
    (c.remove key).entries.get? k = if k = key then none else c.entries.get? k := by
  unfold remove
  cases hkey : c.entries.get? key with
  | none => grind
  | some entry => exact OrdMap.get?_remove _ _ _

@[simp] lemma longestEntry_remove (c : MetadataReadCache) (key : ReadKey) :
    (c.remove key).longestEntry = c.longestEntry := by
  unfold remove
  split <;> rfl

@[simp] lemma tick_remove (c : MetadataReadCache) (key : ReadKey) :
    (c.remove key).tick = c.tick := by
  unfold remove
  split <;> rfl

lemma Indexed.remove (h : c.Indexed) (key : ReadKey) : (c.remove key).Indexed := by
  unfold MetadataReadCache.remove
  cases hkey : c.entries.get? key with
  | none => exact h
  | some entry =>
    refine ⟨fun {t k} => ?_, fun {k e} hk => ?_, ?_⟩
    · simp only [OrdMap.get?_remove_eq_some]
      constructor
      · rintro ⟨ht, hrow⟩
        obtain ⟨e, he, rfl⟩ := h.row.mp hrow
        refine ⟨e, ⟨?_, he⟩, rfl⟩
        rintro rfl
        cases hkey.symm.trans he
        exact ht rfl
      · rintro ⟨e, ⟨hk, he⟩, rfl⟩
        refine ⟨fun ht => hk ?_, h.row.mpr ⟨e, he, rfl⟩⟩
        -- the row of the removed entry belongs to no other one
        have hrow := h.row.mpr ⟨e, he, rfl⟩
        rw [ht, h.row.mpr ⟨entry, hkey, rfl⟩, Option.some_inj] at hrow
        exact hrow.symm
    · exact h.tick (OrdMap.get?_remove_eq_some.mp hk).2
    · show c.currentBytes - _ = _
      rw [h.bytes, OrdMap.weight_remove hkey, Nat.add_sub_cancel]

lemma Indexed.length_remove (h : c.Indexed) {entry : CachedMetadataRead}
    (hkey : c.entries.get? key = some entry) :
    (c.remove key).byAccess.entries.length + 1 = c.byAccess.entries.length := by
  unfold MetadataReadCache.remove
  simp only [hkey]
  have hrow := h.row.mpr ⟨entry, hkey, rfl⟩
  have hweight := OrdMap.weight_remove (f := fun _ => 1) hrow
  simpa [OrdMap.weight, OrdMap.values, Function.comp_def] using hweight.symm

/-- Part of the entries of another cache. -/
structure Within (c c' : MetadataReadCache) : Prop where
  entries : ∀ {k e}, c'.entries.get? k = some e → c.entries.get? k = some e
  longestEntry : c'.longestEntry = c.longestEntry
  tick : c'.tick = c.tick

lemma Within.refl (c : MetadataReadCache) : Within c c := ⟨id, rfl, rfl⟩

lemma Within.trans {c'' : MetadataReadCache} (h : Within c c') (h' : Within c' c'') :
    Within c c'' :=
  ⟨fun hk => h.entries (h'.entries hk), h'.longestEntry.trans h.longestEntry,
    h'.tick.trans h.tick⟩

lemma Within.valid (h : Within c c') (hvalid : c.Valid content) : c'.Valid content :=
  hvalid.mono (fun {_ e} hk => ⟨e, h.entries hk, rfl⟩) h.longestEntry.ge

lemma within_remove (c : MetadataReadCache) (key : ReadKey) : Within c (c.remove key) := by
  refine ⟨fun {k e} hk => ?_, c.longestEntry_remove key, c.tick_remove key⟩
  rw [get?_remove, Option.ite_none_left_eq_some] at hk
  exact hk.2

lemma removeAll_spec (keys : List ReadKey) : ∀ {c : MetadataReadCache}, c.Indexed →
    (removeAll keys c).Indexed ∧ Within c (removeAll keys c) ∧
      ∀ k ∈ keys, (removeAll keys c).entries.get? k = none := by
  induction keys with
  | nil => exact fun h => ⟨h, Within.refl _, fun k hk => absurd hk List.not_mem_nil⟩
  | cons key keys ih =>
    intro c h
    obtain ⟨hidx, hwithin, hnone⟩ := ih (h.remove key)
    refine ⟨hidx, (within_remove c key).trans hwithin, List.forall_mem_cons.mpr ⟨?_, hnone⟩⟩
    -- a key once gone does not come back
    apply Option.eq_none_iff_forall_ne_some.mpr
    intro e he
    have hremoved := hwithin.entries he
    rw [get?_remove, if_pos rfl] at hremoved
    cases hremoved

/-! ## Invalidation -/

def Overlaps (k : ReadKey) (offset len : ℕ) : Prop :=
  (ofLex k).1 < offset + len ∧ offset < (ofLex k).1 + (ofLex k).2

lemma mem_overlappingKeys (h : c.Valid content) (hcontent : content.length < 2 ^ 64) {len : ℕ}
    (hrange : offset + len < 2 ^ 64) {k : ReadKey} (hk : c.entries.get? k = some e)
    (hoverlap : Overlaps k offset len) :
    k ∈ c.overlappingKeys offset len := by
  have hmem : k ∈ c.entries.keys :=
    List.mem_map.mpr ⟨(k, e), OrdMap.get?_eq_some_iff.mp hk, rfl⟩
  have hstop := h.stop_le hk
  have hlongest := h.longest hk
  obtain ⟨hbefore, hafter⟩ := hoverlap
  simp only [overlappingKeys, List.mem_filter, Bool.and_eq_true, decide_eq_true_eq]
  exact ⟨⟨hmem, by omega, lt_min (by omega) (by omega)⟩, lt_min (by omega) (by omega)⟩

/-- **No entry that overlaps a range is left after its invalidation.** -/
theorem invalidateOverlapping_spec (hidx : c.Indexed) (h : c.Valid content)
    (hcontent : content.length < 2 ^ 64) (offset len : ℕ) (hrange : offset + len < 2 ^ 64) :
    (c.invalidateOverlapping offset len).Indexed ∧
    Within c (c.invalidateOverlapping offset len) ∧
    ∀ {k e}, (c.invalidateOverlapping offset len).entries.get? k = some e → 0 < len →
      ¬ Overlaps k offset len := by
  unfold invalidateOverlapping
  by_cases hlen : len = 0
  · rw [if_pos hlen]
    exact ⟨hidx, Within.refl c, fun _ hpos => by omega⟩
  rw [if_neg hlen]
  obtain ⟨hindexed', hwithin, hnone⟩ := removeAll_spec (c.overlappingKeys offset len)
    (c := { c with invalidations := c.invalidations + (c.overlappingKeys offset len).length })
    { hidx with }
  refine ⟨hindexed', { hwithin with }, ?_⟩
  intro k e hk _ hoverlap
  rw [hnone k (mem_overlappingKeys h hcontent hrange (hwithin.entries hk) hoverlap)] at hk
  cases hk

/-- The content may change where an invalidated range lies. -/
lemma Valid.of_invalidated (h : c.Valid content) {len : ℕ} {content' : Bytes}
    (hclear : ∀ {k e}, c.entries.get? k = some e → ¬ Overlaps k offset len)
    (hlen : ∀ a, a < content.length → ¬ (offset ≤ a ∧ a < offset + len) → a < content'.length)
    (hsame : ∀ a, ¬ (offset ≤ a ∧ a < offset + len) → a < content.length →
      content'[a]? = content[a]?) : c.Valid content' := by
  refine ⟨fun {k e} hk => ?_, fun {k e} hk => ?_, h.nonempty, h.longest⟩
  · rw [h.bytes_eq hk]
    have hstop := h.stop_le hk
    have hdisj := hclear hk
    unfold Overlaps at hdisj
    exact slice_congr fun a hlow hhigh => (hsame a (by omega) (by omega)).symm
  · have hstop := h.stop_le hk
    have hpos := h.nonempty hk
    have hdisj := hclear hk
    unfold Overlaps at hdisj
    have hlast := hlen ((ofLex k).1 + (ofLex k).2 - 1) (by omega) (by omega)
    omega

/-! ## Lookups and insertions -/

lemma Indexed.insert (h : c.Indexed) (hkey : c.entries.get? key = none) (bytes : MetadataBytes)
    (hents : c'.entries = c.entries.insert key ⟨bytes, c.tick + 1⟩)
    (hrows : c'.byAccess = c.byAccess.insert (c.tick + 1) key) (htick : c'.tick = c.tick + 1)
    (hbytes : c'.currentBytes = c.currentBytes + bytes.retainedBytes) : c'.Indexed := by
  refine ⟨fun {t k} => ?_, fun {k e} hk => ?_, ?_⟩
  · simp only [hrows, hents, OrdMap.get?_insert_eq_some]
    constructor
    · rintro (⟨rfl, rfl⟩ | ⟨-, hrow⟩)
      · exact ⟨_, .inl ⟨rfl, rfl⟩, rfl⟩
      · obtain ⟨e, he, hlast⟩ := h.row.mp hrow
        refine ⟨e, .inr ⟨?_, he⟩, hlast⟩
        rintro rfl
        cases hkey.symm.trans he
    · rintro ⟨e, ⟨rfl, rfl⟩ | ⟨-, he⟩, rfl⟩
      · exact .inl ⟨rfl, rfl⟩
      · -- the entries there were have earlier access times
        have hle := h.tick he
        exact .inr ⟨by omega, h.row.mpr ⟨e, he, rfl⟩⟩
  · rw [htick]
    rw [hents] at hk
    rcases OrdMap.get?_insert_eq_some.mp hk with ⟨-, rfl⟩ | ⟨-, hk⟩
    · exact le_rfl
    · exact (h.tick hk).trans (Nat.le_succ _)
  · rw [hbytes, hents, OrdMap.weight_insert _ hkey, h.bytes]

lemma get_some (hvalid : c.Valid content) (hidx : c.Indexed) {len : ℕ}
    (h : c.entries.get? (readKey offset len) = some e) :
    ∃ c', c.get offset len = (some e.bytes, c') ∧ c'.Valid content ∧ c'.Indexed := by
  have hremoved : (c.remove (readKey offset len)).entries.get? (readKey offset len) = none := by
    rw [get?_remove, if_pos rfl]
  have hbytes := (hidx.remove (readKey offset len)).bytes
  have hweight := OrdMap.weight_remove (f := fun e => e.bytes.retainedBytes) h
  unfold get
  simp only [h]
  refine ⟨_, rfl, hvalid.mono (fun {k e'} hk => ?_) le_rfl, ?_⟩
  · rcases OrdMap.get?_insert_eq_some.mp hk with ⟨rfl, rfl⟩ | ⟨-, hk⟩
    · exact ⟨e, h, rfl⟩
    · exact ⟨e', hk, rfl⟩
  · -- a hit is a removal and an insertion
    apply (hidx.remove (readKey offset len)).insert hremoved e.bytes
    · rw [tick_remove]
      unfold remove
      simp only [h]
      exact (OrdMap.insert_remove _ _ _).symm
    · rw [tick_remove]
      unfold remove
      simp only [h]
    · rw [tick_remove]
    · unfold remove at hbytes ⊢
      simp only [h] at hbytes ⊢
      rw [hidx.bytes] at hbytes ⊢
      omega

/-- The eviction loop ends with the rest within the budget, or with nothing left. -/
lemma evictLoop_spec (maxBytes : ℕ) (fuel : ℕ) {c : MetadataReadCache} (h : c.Indexed)
    (hfuel : c.byAccess.entries.length ≤ fuel) :
    (evictLoop maxBytes fuel c).Indexed ∧ Within c (evictLoop maxBytes fuel c) ∧
    ((evictLoop maxBytes fuel c).currentBytes ≤ maxBytes ∨
      (evictLoop maxBytes fuel c).byAccess = .empty) := by
  induction fuel generalizing c with
  | zero =>
    have hempty : c.byAccess = .empty :=
      OrdMap.ext (List.length_eq_zero_iff.mp (Nat.le_zero.mp hfuel))
    exact ⟨h, Within.refl c, .inr hempty⟩
  | succ fuel ih =>
    unfold evictLoop
    by_cases hover : maxBytes < c.currentBytes
    · rw [if_pos hover]
      cases hpop : c.byAccess.popFirst with
      | none => exact ⟨h, Within.refl c, .inr (OrdMap.popFirst_eq_none.mp hpop)⟩
      | some row =>
        obtain ⟨⟨t, key⟩, rest⟩ := row
        obtain ⟨hrows, -, -⟩ := OrdMap.popFirst_eq_some hpop
        have hrow : c.byAccess.get? t = some key := by
          rw [hrows, OrdMap.get?_insert_self]
        obtain ⟨e, he, -⟩ := h.row.mp hrow
        -- the row of the least access time has an entry, so a row goes in every round
        have hcounted : ({ c with evictions := c.evictions + 1 } : MetadataReadCache).Indexed :=
          { h with }
        have hlen := hcounted.length_remove he
        obtain ⟨hidx, hwithin, hdone⟩ := ih (hcounted.remove key) (by
          simp only at hlen
          omega)
        exact ⟨hidx, { (within_remove _ key).trans hwithin with }, hdone⟩
    · rw [if_neg hover]
      exact ⟨h, Within.refl c, .inl (Nat.le_of_not_lt hover)⟩

lemma insertShared_spec (hvalid : c.Valid content) (hidx : c.Indexed) {len : ℕ}
    {bytes : MetadataBytes} (hbytes : bytes.bytes = slice content offset len)
    (hstop : offset + len ≤ content.length) (maxBytes : ℕ) :
    (c.insertShared offset len bytes maxBytes).Valid content ∧
      (c.insertShared offset len bytes maxBytes).Indexed := by
  unfold insertShared
  by_cases hskip : len = 0 ∨ maxBytes < bytes.retainedBytes
  · rw [if_pos hskip]
    exact ⟨hvalid, hidx⟩
  rw [if_neg hskip]
  simp only
  have hremoved : (c.remove (readKey offset len)).entries.get? (readKey offset len) = none := by
    rw [get?_remove, if_pos rfl]
  have hvalid₁ := (within_remove c (readKey offset len)).valid hvalid
  have hindexed₁ := hidx.remove (readKey offset len)
  generalize c.remove (readKey offset len) = c₁ at hremoved hvalid₁ hindexed₁ ⊢
  have hinserted : Indexed { c₁ with
      tick := c₁.tick + 1
      longestEntry := max c₁.longestEntry len
      currentBytes := c₁.currentBytes + bytes.retainedBytes
      entries := c₁.entries.insert (readKey offset len) ⟨bytes, c₁.tick + 1⟩
      byAccess := c₁.byAccess.insert (c₁.tick + 1) (readKey offset len) } :=
    hindexed₁.insert hremoved bytes rfl rfl rfl rfl
  obtain ⟨hindexed₂, hwithin, -⟩ := evictLoop_spec maxBytes _ hinserted le_rfl
  refine ⟨hwithin.valid (valid_of_forall fun {k e} hk => ?_), hindexed₂⟩
  rcases OrdMap.get?_insert_eq_some.mp hk with ⟨rfl, rfl⟩ | ⟨-, hold⟩
  · exact ⟨hbytes, hstop, show 0 < len by omega, le_max_right _ _⟩
  · exact ⟨hvalid₁.bytes_eq hold, hvalid₁.stop_le hold, hvalid₁.nonempty hold,
      (hvalid₁.longest hold).trans (le_max_left _ _)⟩

/-- **A read through the cache returns the bytes the file would**, or its error. -/
theorem readThrough_spec (hvalid : c.Valid content) (hidx : c.Indexed)
    (config : MetadataCacheConfig) (offset len : ℕ) (read : Except FormatError MetadataBytes)
    (hok : ∀ m, read = .ok m →
      m.bytes = slice content offset len ∧ offset + len ≤ content.length)
    (herr : ∀ e, read = .error e → ¬ offset + len ≤ content.length) :
    (c.readThrough config offset len read).1.map MetadataBytes.bytes =
        read.map MetadataBytes.bytes ∧
      (c.readThrough config offset len read).2.Valid content ∧
      (c.readThrough config offset len read).2.Indexed := by
  unfold readThrough
  by_cases hbypass : len = 0 ∨ config.isEnabled = false
  · rw [if_pos hbypass]
    exact ⟨rfl, hvalid, hidx⟩
  rw [if_neg hbypass]
  by_cases hlarge : config.maxEntryBytes < len ∨ config.maxBytes < len
  · rw [if_pos hlarge]
    exact ⟨rfl, { hvalid with }, { hidx with }⟩
  rw [if_neg hlarge]
  cases hentry : c.entries.get? (readKey offset len) with
  | some e =>
    obtain ⟨c', hget, hvalid', hindexed'⟩ := get_some hvalid hidx hentry
    rw [hget]
    refine ⟨?_, hvalid', hindexed'⟩
    cases hread : read with
    | error err => exact absurd (hvalid.stop_le hentry) (herr err hread)
    | ok m =>
      show Except.ok e.bytes.bytes = Except.ok m.bytes
      rw [hvalid.bytes_eq hentry, (hok m hread).1]
      rfl
  | none =>
    unfold get
    simp only [hentry]
    have hvalid₁ : ({ c with misses := c.misses + 1 } : MetadataReadCache).Valid content :=
      { hvalid with }
    have hindexed₁ : ({ c with misses := c.misses + 1 } : MetadataReadCache).Indexed :=
      { hidx with }
    cases hread : read with
    | error err => exact ⟨rfl, hvalid₁, hindexed₁⟩
    | ok m =>
      obtain ⟨hbytes, hstop⟩ := hok m hread
      have hexact : exactMetadata offset len m.bytes.length = .ok () := by
        rw [exactMetadata, hbytes, length_slice hstop, if_neg (not_not.mpr rfl)]
      simp only [hexact]
      unfold admitRead MetadataBytes.shared
      cases m.capacity with
      | none => exact ⟨trivial, hvalid₁, hindexed₁⟩
      | some capacity =>
        simp only [Option.map_some]
        split
        · exact ⟨trivial, insertShared_spec hvalid₁ hindexed₁ hbytes hstop _⟩
        · exact ⟨trivial, hvalid₁, hindexed₁⟩

end MetadataReadCache

/-! ## The budget -/

/-- What is done under one hold of the cache's lock. A miss releases the lock for the read. -/
inductive CacheSection where
  | oversize
  | lookup (offset len : ℕ)
  | insert (offset len : ℕ) (bytes : MetadataBytes)
  | invalidate (offset len : ℕ)

namespace MetadataReadCache

variable {c c' : MetadataReadCache} {config : MetadataCacheConfig}

def serve (config : MetadataCacheConfig) (c : MetadataReadCache) : CacheSection → MetadataReadCache
  | .oversize => { c with oversizeReads := c.oversizeReads + 1 }
  | .lookup offset len => (c.get offset len).2
  | .insert offset len bytes => c.insertShared offset len bytes config.maxBytes
  | .invalidate offset len => c.invalidateOverlapping offset len

/-- A read through the cache is a lookup, and after a miss perhaps an admission. -/
lemma readThrough_eq_serve (config : MetadataCacheConfig) (c : MetadataReadCache)
    (offset len : ℕ) (read : Except FormatError MetadataBytes) :
    ∃ sections : List CacheSection,
      (c.readThrough config offset len read).2 = sections.foldl (serve config) c := by
  unfold readThrough
  split_ifs
  · exact ⟨[], rfl⟩
  · exact ⟨[.oversize], rfl⟩
  have hlookup : (c.get offset len).2 = serve config c (.lookup offset len) := rfl
  generalize c.get offset len = found at hlookup
  obtain ⟨_ | bytes, c'⟩ := found <;> obtain rfl := hlookup
  · cases read with
    | error e => exact ⟨[.lookup offset len], rfl⟩
    | ok bytes =>
      dsimp only [admitRead]
      split
      · exact ⟨[.lookup offset len], rfl⟩
      split
      · exact ⟨[.lookup offset len], rfl⟩
      split_ifs
      · exact ⟨[.lookup offset len, .insert offset len _], rfl⟩
      · exact ⟨[.lookup offset len], rfl⟩
  · exact ⟨[.lookup offset len], rfl⟩

/-- The access rows are right, and the counted bytes are within the budget. -/
structure InBudget (config : MetadataCacheConfig) (c : MetadataReadCache) : Prop extends
    c.Indexed where
  le_maxBytes : c.currentBytes ≤ config.maxBytes

lemma currentBytes_removeAll_le (keys : List ReadKey) (c : MetadataReadCache) :
    (removeAll keys c).currentBytes ≤ c.currentBytes := by
  induction keys generalizing c with
  | nil => exact le_rfl
  | cons key keys ih =>
    apply (ih _).trans
    unfold remove
    split
    · exact le_rfl
    · exact Nat.sub_le _ _

lemma InBudget.invalidateOverlapping (h : c.InBudget config) (offset len : ℕ) :
    (c.invalidateOverlapping offset len).InBudget config := by
  unfold MetadataReadCache.invalidateOverlapping
  split_ifs
  · exact h
  · have hcounted : ({ c with invalidations := c.invalidations +
        (c.overlappingKeys offset len).length } : MetadataReadCache).Indexed := { h with }
    exact ⟨(removeAll_spec _ hcounted).1, (currentBytes_removeAll_le _ _).trans h.le_maxBytes⟩

lemma InBudget.lookup (h : c.InBudget config) (offset len : ℕ) :
    (c.get offset len).2.InBudget config := by
  unfold MetadataReadCache.get
  cases hkey : c.entries.get? (readKey offset len) with
  | none =>
    simp only [hkey]
    exact { h with }
  | some e =>
    -- a hit replaces the entry by itself with a new access row
    have hremoved : (c.remove (readKey offset len)).entries.get? (readKey offset len) = none := by
      rw [get?_remove, if_pos rfl]
    have hweight := OrdMap.weight_remove (f := fun e => e.bytes.retainedBytes) hkey
    have hbytes := h.bytes
    have hinserted c' :=
      @Indexed.insert _ _ c' (h.toIndexed.remove (readKey offset len)) hremoved e.bytes
    unfold remove at hinserted
    simp only [hkey, OrdMap.insert_remove] at hinserted ⊢
    exact ⟨hinserted _ rfl rfl rfl (by dsimp only; omega), h.le_maxBytes⟩

/-- The eviction loop ends within the budget: without an access row there is no entry. -/
lemma Indexed.evictToBudget (h : c.Indexed) (config : MetadataCacheConfig) :
    (c.evictToBudget config.maxBytes).InBudget config := by
  unfold MetadataReadCache.evictToBudget
  obtain ⟨hidx, -, hdone⟩ := evictLoop_spec config.maxBytes _ h le_rfl
  generalize evictLoop config.maxBytes c.byAccess.entries.length c = c' at hidx hdone ⊢
  refine ⟨hidx, hdone.elim id fun hempty => ?_⟩
  have hents : c'.entries = .empty := by
    apply OrdMap.ext_get?
    intro k
    apply Option.eq_none_iff_forall_ne_some.mpr
    intro e he
    have hrow := hidx.row.mpr ⟨e, he, rfl⟩
    rw [hempty] at hrow
    cases hrow
  rw [hidx.bytes, hents]
  exact Nat.zero_le _

lemma InBudget.insertShared (h : c.InBudget config) (offset len : ℕ) (bytes : MetadataBytes) :
    (c.insertShared offset len bytes config.maxBytes).InBudget config := by
  unfold MetadataReadCache.insertShared
  split_ifs
  · exact h
  · have hremoved : (c.remove (readKey offset len)).entries.get? (readKey offset len) = none := by
      rw [get?_remove, if_pos rfl]
    apply Indexed.evictToBudget
    exact (h.toIndexed.remove (readKey offset len)).insert hremoved bytes rfl rfl rfl rfl

lemma InBudget.serve (h : c.InBudget config) (op : CacheSection) :
    (MetadataReadCache.serve config c op).InBudget config := by
  cases op with
  | oversize => exact { h with }
  | lookup offset len => exact h.lookup offset len
  | insert offset len bytes => exact h.insertShared offset len bytes
  | invalidate offset len => exact h.invalidateOverlapping offset len

lemma InBudget.run (h : c.InBudget config) (sections : List CacheSection) :
    (sections.foldl (MetadataReadCache.serve config) c).InBudget config := by
  induction sections generalizing c with
  | nil => exact h
  | cons op sections ih => exact ih (h.serve op)

/-- **The cache stays within its budget.** However the reads and writes of several threads
interleave, and whatever the file returns, the bytes counted are those the entries retain, and never
more than the budget. -/
theorem serve_within_budget (config : MetadataCacheConfig) (sections : List CacheSection) :
    (sections.foldl (serve config) new).currentBytes =
        (sections.foldl (serve config) new).entries.weight (fun e => e.bytes.retainedBytes) ∧
      (sections.foldl (serve config) new).currentBytes ≤ config.maxBytes ∧
      ∀ offset len read c',
        ((sections.foldl (serve config) new).readThrough config offset len read).2 = c' →
        c'.currentBytes = c'.entries.weight (fun e => e.bytes.retainedBytes) ∧
          c'.currentBytes ≤ config.maxBytes := by
  have hstart : InBudget config new := ⟨⟨by simp [new], by simp [new], rfl⟩, Nat.zero_le _⟩
  have hend := hstart.run sections
  refine ⟨hend.bytes, hend.le_maxBytes, ?_⟩
  intro offset len read c' hread
  -- a read through the cache is a few of the sections it locks for
  obtain ⟨more, hmore⟩ := readThrough_eq_serve config _ offset len read
  rw [← hread, hmore]
  exact ⟨(hend.run more).bytes, (hend.run more).le_maxBytes⟩

end MetadataReadCache

end Hdf5Pure.Image
