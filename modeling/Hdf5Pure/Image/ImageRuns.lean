import Hdf5Pure.Image.ImageTheorems

/-!
# Runs of operations on both images

The step theorem of each image, with one case per operation, and the theorem on whole runs.
-/

namespace Hdf5Pure.Image

open Edit (Error)

variable {content : Bytes} {op : ImageOp}

lemma plainRead_eq (content : Bytes) (offset n : ℕ) :
    plainRead content offset n = readResult (MirrorImage.bytesIn content offset n) := by
  unfold plainRead MirrorImage.bytesIn
  by_cases hover : 2 ^ 64 ≤ offset + n
  · rw [if_pos hover, checkedAdd, if_neg (not_lt.mpr hover)]
    rfl
  · rw [if_neg hover, checkedAdd_of_lt (not_le.mp hover)]
    simp only
    by_cases hend : content.length < offset + n
    · rw [if_pos hend, if_pos hend]
      rfl
    · rw [if_neg hend, if_neg hend]
      rfl

lemma plainStep_fillZeros (content : Bytes) (start length : ℕ) :
    (∃ append, appends start length content.length = .ok append ∧
      plainStep content (.fillZeros start length) =
        (.ok .unit, patch content start (List.replicate length 0))) ∨
    (∃ e, appends start length content.length = .error e ∧
      plainStep content (.fillZeros start length) = (.error e, content)) := by
  simp only [plainStep]
  unfold appends
  by_cases hlen : length = 0
  · exact .inl ⟨false, by rw [if_pos hlen], by rw [if_neg (by omega)]⟩
  rw [if_neg hlen]
  by_cases hstart : start = content.length
  · exact .inl ⟨true, by rw [if_pos hstart], by rw [if_neg (by omega)]⟩
  · rw [if_neg hstart]
    by_cases hstop : content.length < start + length
    · exact .inr ⟨_, by rw [if_pos hstop], by rw [if_pos ⟨hlen, hstart, hstop⟩]⟩
    · exact .inl ⟨false, by rw [if_neg hstop], by rw [if_neg (by omega)]⟩

lemma BufferedWrites.Settled.matches {before after : BufferedWrites} {r plain : ImageResult}
    (h : after.Settled content) (hres : r = plain ∨ (op.faults ≠ [] ∧ r = .error .io))
    (hdone : r = plain → op.Completes before.mode → after.disk = content) :
    Matches op before after r plain content :=
  ⟨hres, hdone, h.coherent.invariantsHold, h.coherent.covers le_rfl le_rfl⟩

/-- A drain against the plain image, which it does not change. -/
lemma BufferedWrites.Settled.matches_drain {b : BufferedWrites} (h : b.Settled content)
    (hcontent : content.length < 2 ^ 64) (drain : Drain) (faults : List (Option ℕ)) :
    Matches (.drain drain faults) b (b.drain drain faults).2 (b.drain drain faults).1
      (.ok .unit) content := by
  obtain ⟨hsettled, hcases⟩ := h.drain_spec hcontent drain faults
  apply hsettled.matches
  · rcases hcases with ⟨hok, -⟩ | ⟨hfail, hne⟩
    · exact .inl hok
    · exact .inr ⟨hne, hfail⟩
  · intro hok hcompletes
    rcases hcases with ⟨-, hempty⟩ | ⟨hfail, -⟩
    · exact (hsettled.coherent.disk_eq (hempty hcompletes)).1
    · rw [hfail] at hok
      cases hok

/-- **An operation on the image without a mirror.** -/
theorem HandleImage.Shows.step {image : HandleImage} (h : image.Shows content)
    (capacity : ℕ → ℕ) (hop : Admits content op) :
    ∃ r image', image.step capacity op = .ok (r, image') ∧
      image'.Shows (plainStep content op).2 ∧
      Matches op image.writes image'.writes r (plainStep content op).1 (plainStep content op).2 := by
  cases op with
  | append bytes =>
    obtain ⟨image', happend, hshows⟩ := h.append_eq hop
    refine ⟨_, image', ?_, hshows, hshows.settled.matches (.inl rfl) nofun⟩
    simp only [HandleImage.step, happend, Checked.ok_bind]
    rfl
  | writeAt offset bytes =>
    obtain ⟨image', hwrite, hshows⟩ := h.writeAt_eq hop
    refine ⟨_, image', ?_, hshows, hshows.settled.matches (.inl rfl) nofun⟩
    simp only [HandleImage.step, hwrite]
    rfl
  | fillZeros start length =>
    rcases plainStep_fillZeros content start length with ⟨append, happends, hplain⟩ |
      ⟨e, happends, hplain⟩
    · obtain ⟨image', hfill, hshows⟩ := h.fillZeros_eq hop happends
      rw [hplain]
      refine ⟨_, image', ?_, hshows, hshows.settled.matches (.inl rfl) nofun⟩
      simp only [HandleImage.step, hfill, Checked.ok_bind]
      rfl
    · rw [hplain]
      refine ⟨_, image, ?_, h, h.settled.matches (.inl rfl) nofun⟩
      simp only [HandleImage.step, h.fillZeros_error happends, Checked.ok_bind]
      rfl
  | truncate len =>
    obtain ⟨image', htruncate, hshows⟩ := h.truncate_eq hop
    refine ⟨_, image', ?_, hshows, hshows.settled.matches (.inl rfl) nofun⟩
    simp only [HandleImage.step, htruncate, Checked.ok_bind]
    rfl
  | drain drain faults =>
    have hmatches := h.settled.matches_drain h.bound drain faults
    exact ⟨_, _, rfl, ⟨(h.settled.drain_spec h.bound drain faults).1, h.len, h.cache, h.bound⟩,
      hmatches⟩
  | readAt offset n =>
    refine ⟨_, image, ?_, h, h.settled.matches (.inl rfl) nofun⟩
    simp only [HandleImage.step, h.readAt_eq, Checked.ok_bind]
    exact congrArg (fun r => Except.ok (r, image)) (plainRead_eq content offset n).symm
  | readExactAt offset n =>
    refine ⟨_, image, ?_, h, h.settled.matches (.inl rfl) nofun⟩
    simp only [HandleImage.step, h.readExactAt_eq, Checked.ok_bind]
    exact congrArg (fun r => Except.ok (r, image)) (plainRead_eq content offset n).symm
  | readMetadata offset len =>
    obtain ⟨r, image', hread, hbytes, hshows⟩ := h.readMetadata_eq capacity offset len
    refine ⟨_, image', ?_, hshows, hshows.settled.matches (.inl rfl) nofun⟩
    simp only [HandleImage.step, hread, Checked.ok_bind, hbytes]
    exact congrArg (fun r => Except.ok (r, image')) (plainRead_eq content offset len).symm

/-- **An operation on the image with a mirror.** -/
theorem MirrorImage.Shows.step {image : MirrorImage} (h : image.Shows content)
    (hop : Admits content op) :
    ∃ r image', image.step op = .ok (r, image') ∧ image'.Shows (plainStep content op).2 ∧
      Matches op image.writes image'.writes r (plainStep content op).1 (plainStep content op).2 := by
  cases op with
  | append bytes =>
    obtain ⟨image', happend, hshows⟩ := h.append_eq hop
    refine ⟨_, image', ?_, hshows, hshows.settled.matches (.inl rfl) nofun⟩
    simp only [MirrorImage.step, happend]
    rfl
  | writeAt offset bytes =>
    obtain ⟨image', hwrite, hshows⟩ := h.writeAt_eq hop
    refine ⟨_, image', ?_, hshows, hshows.settled.matches (.inl rfl) nofun⟩
    simp only [MirrorImage.step, hwrite, Checked.ok_bind]
    rfl
  | fillZeros start length =>
    rcases plainStep_fillZeros content start length with ⟨append, happends, hplain⟩ |
      ⟨e, happends, hplain⟩
    · obtain ⟨image', hfill, hshows⟩ := h.fillZeros_eq hop happends
      rw [hplain]
      refine ⟨_, image', ?_, hshows, hshows.settled.matches (.inl rfl) nofun⟩
      simp only [MirrorImage.step, hfill, Checked.ok_bind]
      rfl
    · rw [hplain]
      refine ⟨_, image, ?_, h, h.settled.matches (.inl rfl) nofun⟩
      simp only [MirrorImage.step, h.fillZeros_error happends, Checked.ok_bind]
      rfl
  | truncate len =>
    obtain ⟨image', htruncate, hshows⟩ := h.truncate_eq hop
    refine ⟨_, image', ?_, hshows, hshows.settled.matches (.inl rfl) nofun⟩
    simp only [MirrorImage.step, htruncate, Checked.ok_bind]
    rfl
  | drain drain faults =>
    have hmatches := h.settled.matches_drain h.bound drain faults
    exact ⟨_, _, rfl, ⟨(h.settled.drain_spec h.bound drain faults).1, h.data, h.bound⟩, hmatches⟩
  | readAt offset n =>
    refine ⟨_, image, ?_, h, h.settled.matches (.inl rfl) nofun⟩
    simp only [MirrorImage.step, h.readAt_eq]
    exact congrArg (fun r => Except.ok (r, image)) (plainRead_eq content offset n).symm
  | readExactAt offset n =>
    refine ⟨_, image, ?_, h, h.settled.matches (.inl rfl) nofun⟩
    simp only [MirrorImage.step, h.readExactAt_eq]
    exact congrArg (fun r => Except.ok (r, image)) (plainRead_eq content offset n).symm
  | readMetadata offset len =>
    refine ⟨_, image, ?_, h, h.settled.matches (.inl rfl) nofun⟩
    simp only [MirrorImage.step, h.readMetadata_eq]
    exact congrArg (fun r => Except.ok (r, image)) (plainRead_eq content offset len).symm

/-! ## Runs -/

variable {capacity : ℕ → ℕ}

namespace Images

def Shown (s : Images) : Prop := s.handle.Shows s.content ∧ s.mirror.Shows s.content

lemma step_spec (capacity : ℕ → ℕ) {s : Images} (h : s.Shown) (hop : Admits s.content op) :
    ∃ r s', step capacity s op = .ok (r, s') ∧ s'.Shown ∧
      (r.plain, s'.content) = plainStep s.content op ∧
      Matches op s.handle.writes s'.handle.writes r.handle r.plain s'.content ∧
      Matches op s.mirror.writes s'.mirror.writes r.mirror r.plain s'.content := by
  obtain ⟨r, handle, hstep, hshows, hmatches⟩ := h.1.step capacity hop
  obtain ⟨r', mirror, hstep', hshows', hmatches'⟩ := h.2.step hop
  refine ⟨⟨r, r', (plainStep s.content op).1⟩, ⟨handle, mirror, (plainStep s.content op).2⟩,
    ?_, ⟨hshows, hshows'⟩, rfl, hmatches, hmatches'⟩
  simp only [step, hstep, hstep', Checked.ok_bind]

lemma allowedRun {ops : List ImageOp} :
    ∀ {s : Images}, AdmitsAll s.content ops →
      AllowedRun (step capacity) (fun s => Admits s.content) s ops := by
  induction ops with
  | nil => exact fun _ => trivial
  | cons op ops ih =>
    intro s h
    refine ⟨h.1, fun r s' hstep => ih ?_⟩
    obtain ⟨handle, -, hstep⟩ := bind_eq_ok.mp hstep
    obtain ⟨mirror, -, hstep⟩ := bind_eq_ok.mp hstep
    cases hstep
    exact h.2

/-- **Both images behave as a plain list of bytes over every run of operations.** Whatever the cache,
the buffering modes and the faults, each result is the plain one or the error of a failed write, the
file has the bytes after an operation that completes, and the pending runs keep their invariants. -/
theorem images_behave_as_bytes (capacity : ℕ → ℕ) (cache : MetadataCacheConfig)
    {disk : Bytes} (hdisk : disk.length < 2 ^ 64) {ops : List ImageOp}
    (hops : AdmitsAll disk ops) :
    ∃ rs s', runAll (step capacity) (new disk cache) ops = .ok (rs, s') ∧
      Trace (fun s op r s' =>
        (r.plain, s'.content) = plainStep s.content op ∧
        Matches op s.handle.writes s'.handle.writes r.handle r.plain s'.content ∧
        Matches op s.mirror.writes s'.mirror.writes r.mirror r.plain s'.content ∧
        s'.handle.len = s'.content.length ∧ s'.mirror.data = s'.content)
        (new disk cache) ops rs s' := by
  have hrun : AllowedRun (step capacity) (fun s => Admits s.content) (new disk cache) ops :=
    allowedRun hops
  obtain ⟨rs, s', hall, -, htrace⟩ := hrun.trace Shown (fun s op h hop => step_spec capacity h hop)
    ⟨HandleImage.shows_new hdisk cache, MirrorImage.shows_new hdisk⟩
  refine ⟨rs, s', hall, htrace.imp fun s op r s' h => ?_⟩
  obtain ⟨⟨hhandle, hmirror⟩, hplain, hmatches, hmatches'⟩ := h
  exact ⟨hplain, hmatches, hmatches', hhandle.len, hmirror.data⟩

/-- A session that buffers, whose first flush fails after one byte. -/
def sessionOps : List ImageOp :=
  [.drain (.setWriteBuffering (.session 4 16)) [], .readMetadata 0 2, .append [9, 9],
    .writeAt 1 [7], .fillZeros 2 2, .drain .flush [some 1], .readMetadata 0 2, .drain .flush [],
    .truncate 4, .readAt 0 4]

theorem sessionOps_behave_as_bytes :
    (∃ rs s', runAll (step id) (new [1, 2, 3] ⟨64, 64⟩) sessionOps = .ok (rs, s') ∧
      Trace (fun s op r s' =>
        (r.plain, s'.content) = plainStep s.content op ∧
        Matches op s.handle.writes s'.handle.writes r.handle r.plain s'.content ∧
        Matches op s.mirror.writes s'.mirror.writes r.mirror r.plain s'.content ∧
        s'.handle.len = s'.content.length ∧ s'.mirror.data = s'.content)
        (new [1, 2, 3] ⟨64, 64⟩) sessionOps rs s') :=
  images_behave_as_bytes id ⟨64, 64⟩ (by simp) (by
    simp [sessionOps, AdmitsAll, Admits, plainStep, patch])

end Images

end Hdf5Pure.Image
