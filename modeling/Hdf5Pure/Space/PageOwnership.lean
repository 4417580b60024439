import Hdf5Pure.Space.Paged

/-!
# Page ownership

What keeps metadata and raw data on separate pages, apart from any data structure: no page holds
bytes of both types, and an unaligned end of allocation lies in a page of the type appended last.
-/

namespace Hdf5Pure.Space

@[simp] lemma PageType.other_other (t : PageType) : t.other.other = t := by cases t <;> rfl

lemma PageType.eq_or_eq_other (t u : PageType) : u = t ∨ u = t.other := by
  cases t <;> cases u <;> simp [PageType.other]

lemma PageType.forall (t : PageType) {p : PageType → Prop} (ht : p t) (hother : p t.other)
    (u : PageType) : p u := by
  rcases PageType.eq_or_eq_other t u with rfl | rfl
  · exact ht
  · exact hother

lemma PageType.ne_other (t : PageType) : t ≠ t.other := by cases t <;> simp [PageType.other]

def WholePages (ps : ℕ) (s : Set ℕ) : Prop := ∀ x ∈ s, ∀ y, y / ps = x / ps → y ∈ s

/-- An interval between page boundaries is a union of whole pages. -/
lemma wholePages_Ico {ps a b : ℕ} (ha : ps ∣ a) (hb : ps ∣ b) : WholePages ps (Set.Ico a b) := by
  rintro x ⟨hax, hxb⟩ y hxy
  obtain ⟨i, rfl⟩ := ha
  obtain ⟨j, rfl⟩ := hb
  rcases Nat.eq_zero_or_pos ps with rfl | hps
  · simp at hxb
  have h1 : i ≤ x / ps := (Nat.le_div_iff_mul_le hps).mpr (by rwa [mul_comm])
  have h2 : x / ps < j := (Nat.div_lt_iff_lt_mul hps).mpr (by rwa [mul_comm])
  rw [← hxy] at h1 h2
  have h3 := (Nat.le_div_iff_mul_le hps).mp h1
  have h4 := (Nat.div_lt_iff_lt_mul hps).mp h2
  exact ⟨by rwa [mul_comm], by rwa [mul_comm]⟩

def pagesWithin (ps : ℕ) (s : Set ℕ) : Set ℕ := {x | ∀ y, y / ps = x / ps → y ∈ s}

lemma wholePages_pagesWithin (ps : ℕ) (s : Set ℕ) : WholePages ps (pagesWithin ps s) :=
  fun _ hx _ hxy z hzy => hx z (hzy.trans hxy)

lemma pagesWithin_subset (ps : ℕ) (s : Set ℕ) : pagesWithin ps s ⊆ s := fun x hx => hx x rfl

/-- No page holds bytes of both types, and the tail page belongs to the type of the last append. -/
structure PageOwnership (ps : ℕ) (own : PageType → Set ℕ) (eoa : ℕ) (last : Option PageType) :
    Prop where
  apart : ∀ t, ∀ x ∈ own t, ∀ y ∈ own t.other, x / ps ≠ y / ps
  below : ∀ t, ∀ x ∈ own t, x < eoa
  tail : ¬ ps ∣ eoa → ∃ t, last = some t ∧ ∀ y ∈ own t.other, y / ps ≠ eoa / ps

variable {w : Set ℕ}

namespace PageOwnership

variable {ps eoa : ℕ} {own own' : PageType → Set ℕ} {last : Option PageType}

lemma empty (h : ps ∣ eoa) : PageOwnership ps (fun _ => ∅) eoa last :=
  ⟨by simp, by simp, fun hn => absurd h hn⟩

lemma mono (h : PageOwnership ps own eoa last) (hsub : ∀ t, own' t ⊆ own t) :
    PageOwnership ps own' eoa last := by
  refine ⟨fun t x hx y hy => h.apart t x (hsub t hx) y (hsub _ hy),
    fun t x hx => h.below t x (hsub t hx), fun hn => ?_⟩
  obtain ⟨t, hlast, htail⟩ := h.tail hn
  exact ⟨t, hlast, fun y hy => htail y (hsub _ hy)⟩

/-- One type takes whole pages over: bytes of the other type or free ones, which the other type
no longer owns. -/
lemma takePages (h : PageOwnership ps own eoa last) (hw : WholePages ps w)
    (hbelow : ∀ x ∈ w, x < eoa) (t : PageType) (ht : own' t ⊆ own t ∪ w)
    (hother : own' t.other ⊆ own t.other \ w) : PageOwnership ps own' eoa last := by
  -- a byte of the new owner and one of the other type
  have hcross : ∀ x ∈ own' t, ∀ y ∈ own' t.other, x / ps ≠ y / ps := by
    intro x hx y hy heq
    obtain ⟨hy, hyw⟩ := hother hy
    rcases ht hx with hx | hx
    · exact h.apart t x hx y hy heq
    · exact hyw (hw x hx y heq.symm)
  refine ⟨?_, ?_, ?_⟩
  · refine PageType.forall t hcross fun x hx y hy => ?_
    rw [PageType.other_other] at hy
    exact (hcross y hy x hx).symm
  · exact PageType.forall t (fun x hx => (ht hx).elim (h.below t x) (hbelow x))
      fun x hx => h.below _ x (hother hx).1
  · intro hn
    obtain ⟨u, hlast, htail⟩ := h.tail hn
    refine ⟨u, hlast, fun y hy => ?_⟩
    rcases PageType.eq_or_eq_other t u with rfl | rfl
    · exact htail y (hother hy).1
    · rw [PageType.other_other] at hy htail
      rcases ht hy with hy | hy
      · exact htail y hy
      · exact fun heq => lt_irrefl eoa (hbelow eoa (hw y hy eoa heq.symm))

/-- The end of allocation moves to a page boundary above everything owned. -/
lemma setEoa (h : PageOwnership ps own eoa last) {eoa' : ℕ} (hdvd : ps ∣ eoa')
    (hbelow : ∀ t, ∀ x ∈ own t, x < eoa') (last' : Option PageType) :
    PageOwnership ps own eoa' last' :=
  ⟨h.apart, hbelow, fun hn => absurd hdvd hn⟩

/-- Bytes at the end of allocation join the type of the tail page, up to its end at most, or any
type at a page boundary. -/
lemma append (h : PageOwnership ps own eoa last) (hps : 0 < ps) {t : PageType} {stop : ℕ}
    (hok : ps ∣ eoa ∨ last = some t) (hle : eoa ≤ stop)
    (ht : own' t ⊆ own t ∪ Set.Ico eoa stop) (hother : own' t.other ⊆ own t.other) :
    PageOwnership ps own' stop (some t) := by
  -- the other type owns nothing on the pages from that of `eoa` on
  have hfar : ∀ y ∈ own t.other, y / ps < eoa / ps ∨ (ps ∣ eoa ∧ y < eoa) := by
    intro y hy
    have hlt := h.below _ y hy
    rcases hok with hdvd | hlast
    · exact .inr ⟨hdvd, hlt⟩
    · by_cases hdvd : ps ∣ eoa
      · exact .inr ⟨hdvd, hlt⟩
      · obtain ⟨u, hu, htail⟩ := h.tail hdvd
        obtain rfl : t = u := Option.some.inj (hlast.symm.trans hu)
        exact .inl (lt_of_le_of_ne (Nat.div_le_div_right hlt.le) (htail y hy))
  have hpage : ∀ y ∈ own t.other, ∀ z, eoa ≤ z → z / ps ≠ y / ps := by
    intro y hy z hz heq
    have hzpage : eoa / ps ≤ z / ps := Nat.div_le_div_right hz
    rcases hfar y hy with hlt | ⟨hdvd, hlt⟩
    · omega
    · have : y / ps < eoa / ps := (Nat.div_lt_iff_lt_mul hps).mpr (by rwa [Nat.div_mul_cancel hdvd])
      omega
  have hcross : ∀ x ∈ own' t, ∀ y ∈ own' t.other, x / ps ≠ y / ps := by
    intro x hx y hy
    rcases ht hx with hx | hx
    · exact h.apart t x hx y (hother hy)
    · exact hpage y (hother hy) x hx.1
  refine ⟨?_, ?_, ?_⟩
  · refine PageType.forall t hcross fun x hx y hy => ?_
    rw [PageType.other_other] at hy
    exact (hcross y hy x hx).symm
  · exact PageType.forall t
      (fun x hx => (ht hx).elim (fun hx => (h.below t x hx).trans_le hle) And.right)
      fun x hx => (h.below _ x (hother hx)).trans_le hle
  · intro _
    exact ⟨t, rfl, fun y hy => (hpage y (hother hy) stop hle).symm⟩

end PageOwnership

end Hdf5Pure.Space
