import Hdf5Pure.Mat.Identifier
import Hdf5Pure.Utils.Runs

/-!
# Names resolved in a scope are valid and distinct

Two suffixes give different candidates, since the digits after the last underscore differ, so a
scope with fewer names than attempts leaves one free.
-/

namespace Hdf5Pure.Mat

open List

/-! ## Shape -/

/-- A letter followed by letters, digits and underscores. -/
def Shaped (name : Text) : Prop := ∃ ch rest, name = ch :: rest ∧ ch.isAlpha ∧ rest.all isWordChar

variable {name base : Text} {used : Finset Text}

lemma utf8Size_of_isWordChar {ch : Char} (h : isWordChar ch) : ch.utf8Size = 1 := by
  have hle : ch.val ≤ 127 := by
    simp only [isWordChar, Char.isAlphanum, Char.isAlpha, Char.isUpper, Char.isLower, Char.isDigit,
      Bool.or_eq_true, Bool.and_eq_true, decide_eq_true_eq, beq_iff_eq] at h
    rcases h with ((⟨-, h⟩ | ⟨-, h⟩) | ⟨-, h⟩) | rfl
    iterate 3 · exact UInt32.le_trans h (by decide)
    · decide
  exact if_pos hle

lemma Shaped.isWordChar (h : Shaped name) : ∀ ch ∈ name, Mat.isWordChar ch := by
  obtain ⟨ch, rest, rfl, hch, hrest⟩ := h
  exact forall_mem_cons.mpr ⟨by simp [Mat.isWordChar, Char.isAlphanum, hch], all_eq_true.mp hrest⟩

lemma byteLen_of_isWordChar (h : ∀ ch ∈ name, isWordChar ch) : byteLen name = name.length := by
  have hmap : name.map Char.utf8Size = name.map fun _ => 1 :=
    map_congr_left fun ch hch => utf8Size_of_isWordChar (h ch hch)
  rw [byteLen, hmap]
  simp

lemma takeBytes_of_isWordChar (h : ∀ ch ∈ name, isWordChar ch) {n : ℕ} (hn : n ≤ name.length) :
    takeBytes name n = .ok (name.take n) := by
  induction name generalizing n with
  | nil => rw [Nat.le_zero.mp hn]; rfl
  | cons ch name ih =>
    cases n with
    | zero => rfl
    | succ n =>
      obtain ⟨hch, h⟩ := forall_mem_cons.mp h
      rw [takeBytes, utf8Size_of_isWordChar hch, if_neg (by omega), Nat.add_sub_cancel,
        ih h (by simpa using hn)]
      rfl

lemma isValidName_iff : isValidName name ↔
    Shaped name ∧ name.length ≤ matlabNameMax ∧ name ∉ matlabKeywords := by
  have hshape : isValidName name ↔
      Shaped name ∧ byteLen name ≤ matlabNameMax ∧ name ∉ matlabKeywords := by
    unfold isValidName Shaped isKeyword
    cases name with
    | nil => simp
    | cons ch rest =>
      simp
      tauto
  rw [hshape]
  refine and_congr_right fun h => ?_
  rw [byteLen_of_isWordChar h.isWordChar]

lemma Shaped.append (h : Shaped name) {more : Text} (hmore : more.all Mat.isWordChar) :
    Shaped (name ++ more) := by
  obtain ⟨ch, rest, rfl, hch, hrest⟩ := h
  exact ⟨ch, rest ++ more, rfl, hch, by rw [all_append, hrest, hmore]; rfl⟩

lemma Shaped.take (h : Shaped name) {n : ℕ} (hn : n ≠ 0) : Shaped (name.take n) := by
  obtain ⟨ch, rest, rfl, hch, hrest⟩ := h
  obtain ⟨n, rfl⟩ := Nat.exists_eq_succ_of_ne_zero hn
  refine ⟨ch, rest.take n, rfl, hch, all_eq_true.mpr fun c hc => ?_⟩
  exact all_eq_true.mp hrest c (mem_of_mem_take hc)

lemma not_keyword_of_underscore (h : '_' ∈ name) : name ∉ matlabKeywords := by
  have hnone : ∀ k ∈ matlabKeywords, '_' ∉ k := by decide
  exact fun hmem => hnone name hmem h

/-! ## Sanitizing -/

lemma sanitized_shaped (raw : Text) :
    raw = [] ∨ Shaped (raw.zipIdx.flatMap fun c => sanitizeChar c.1 c.2) := by
  cases raw with
  | nil => exact .inl rfl
  | cons ch raw =>
    have hrest : ((raw.zipIdx 1).flatMap fun c => sanitizeChar c.1 c.2).all isWordChar := by
      refine all_eq_true.mpr fun c hc => ?_
      obtain ⟨⟨c', i⟩, hmem, hc⟩ := mem_flatMap.mp hc
      have hi : i ≠ 0 := by
        have := (mem_zipIdx hmem).1
        omega
      simp only [sanitizeChar, if_neg hi] at hc
      split_ifs at hc with hword
      · rwa [mem_singleton.mp hc]
      · rw [mem_singleton.mp hc]
        rfl
    rw [zipIdx_cons, flatMap_cons]
    refine .inr (Shaped.append ?_ hrest)
    unfold sanitizeChar
    rw [if_pos rfl, if_pos rfl]
    split_ifs with halpha hword
    · exact ⟨ch, [], rfl, halpha, rfl⟩
    · exact ⟨'x', [ch], rfl, rfl, by simp [hword]⟩
    · exact ⟨'x', ['_'], rfl, rfl, rfl⟩

lemma sanitizeName_spec (raw : Text) : ∃ name, sanitizeName raw = .ok name ∧ isValidName name := by
  unfold sanitizeName
  generalize hout : (if raw.zipIdx.flatMap (fun c => sanitizeChar c.1 c.2) = [] then ['x']
    else raw.zipIdx.flatMap fun c => sanitizeChar c.1 c.2) = out
  have hshaped : Shaped out := by
    subst hout
    split_ifs with hnil
    · exact ⟨'x', [], rfl, rfl, rfl⟩
    · refine (sanitized_shaped raw).resolve_left ?_
      rintro rfl
      exact hnil rfl
  generalize hname : (if isKeyword out then out ++ ['_'] else out) = name
  have hvalid : Shaped name ∧ name ∉ matlabKeywords := by
    subst hname
    split_ifs with hkeyword
    · exact ⟨hshaped.append rfl, not_keyword_of_underscore (by simp)⟩
    · exact ⟨hshaped, by simpa [isKeyword] using hkeyword⟩
  simp only [hout, hname, byteLen_of_isWordChar hvalid.1.isWordChar]
  split_ifs with hlong
  · refine ⟨_, takeBytes_of_isWordChar hvalid.1.isWordChar hlong.le, isValidName_iff.mpr
      ⟨hvalid.1.take (by decide), length_take_le _ _, fun hmem => ?_⟩⟩
    -- no keyword is that long
    have hshort : ∀ k ∈ matlabKeywords, k.length < matlabNameMax := by decide
    have hlt := hshort _ hmem
    rw [length_take, min_eq_left hlong.le] at hlt
    omega
  · exact ⟨name, rfl, isValidName_iff.mpr ⟨hvalid.1, not_lt.mp hlong, hvalid.2⟩⟩

lemma sanitizeName_of_valid {raw : Text} (h : isValidName raw) : sanitizeName raw = .ok raw := by
  obtain ⟨hshaped, hlen, hkeyword⟩ := isValidName_iff.mp h
  have hsame : raw.zipIdx.flatMap (fun c => sanitizeChar c.1 c.2) = raw := by
    obtain ⟨ch, rest, rfl, hch, hrest⟩ := hshaped
    have hone : ∀ c ∈ (ch :: rest).zipIdx, sanitizeChar c.1 c.2 = [c.1] := by
      rw [zipIdx_cons, forall_mem_cons]
      refine ⟨by simp [sanitizeChar, hch], fun c hc => ?_⟩
      obtain ⟨hi, -, hmem⟩ := mem_zipIdx hc
      have hword := all_eq_true.mp hrest c.1 (hmem ▸ getElem_mem _)
      simp [sanitizeChar, hword, show c.2 ≠ 0 by omega]
    rw [flatMap_congr hone, ← map_eq_flatMap, zipIdx_map_fst]
  have hne : raw ≠ [] := by
    obtain ⟨ch, rest, rfl, -⟩ := hshaped
    exact cons_ne_nil _ _
  unfold sanitizeName
  simp only [hsame, if_neg hne, isKeyword, hkeyword, decide_false, Bool.false_eq_true, if_false,
    byteLen_of_isWordChar hshaped.isWordChar, if_neg (not_lt.mpr hlen)]

/-! ## Suffixes -/

lemma isWordChar_suffix (k : ℕ) : ('_' :: Nat.toDigits 10 k).all isWordChar := by
  refine all_eq_true.mpr (forall_mem_cons.mpr ⟨rfl, fun ch hch => ?_⟩)
  have hdigit := Nat.isDigit_of_mem_toDigits (by omega) (by omega) hch
  simp [isWordChar, Char.isAlphanum, hdigit]

def withSuffix (base : Text) (k : ℕ) : Text :=
  base.take (matlabNameMax - (Nat.toDigits 10 k).length - 1) ++ '_' :: Nat.toDigits 10 k

/-- The digits after the last underscore are the suffix. -/
lemma withSuffix_injective (base : Text) : Function.Injective (withSuffix base) := by
  intro k k' h
  have hdigits : ∀ k, (withSuffix base k).reverse.takeWhile (fun ch => ch ≠ '_') =
      (Nat.toDigits 10 k).reverse := by
    intro k
    have hne : ∀ ch ∈ (Nat.toDigits 10 k).reverse, decide (ch ≠ '_') = true := by
      intro ch hch
      have hdigit := Nat.isDigit_of_mem_toDigits (by omega) (by omega) (mem_reverse.mp hch)
      rw [decide_eq_true_eq]
      rintro rfl
      cases hdigit
    rw [withSuffix, reverse_append, reverse_cons, append_assoc,
      takeWhile_append_of_pos hne]
    simp
  have heq : Nat.toDigits 10 k = Nat.toDigits 10 k' := by
    rw [← reverse_inj, ← hdigits, ← hdigits, h]
  rw [← Nat.ofDigitChars_toDigits (b := 10) (n := k) (by omega) (by omega), heq,
    Nat.ofDigitChars_toDigits (by omega) (by omega)]

lemma suffixed_spec (hbase : isValidName base) {k : ℕ} (hk : k ≤ maxDedupeAttempts) :
    suffixed base k = .ok (withSuffix base k) ∧ isValidName (withSuffix base k) := by
  obtain ⟨hshaped, -, -⟩ := isValidName_iff.mp hbase
  have hdigits : (Nat.toDigits 10 k).length ≤ 7 := by
    apply Nat.toDigits_length 10 k 7 (by omega)
    unfold maxDedupeAttempts at hk
    omega
  have hcut : matlabNameMax - (Nat.toDigits 10 k).length - 1 ≠ 0 := by
    unfold matlabNameMax
    omega
  constructor
  · unfold suffixed withSuffix
    dsimp only
    rw [byteLen_of_isWordChar (all_eq_true.mp (isWordChar_suffix k)),
      byteLen_of_isWordChar hshaped.isWordChar, length_cons, Nat.sub_add_eq, if_neg hcut]
    split_ifs with hlong
    · rw [takeBytes_of_isWordChar hshaped.isWordChar hlong.le]
      rfl
    · rw [take_of_length_le (not_lt.mp hlong)]
      rfl
  · refine isValidName_iff.mpr ⟨(hshaped.take hcut).append (isWordChar_suffix k), ?_,
      not_keyword_of_underscore (by simp [withSuffix])⟩
    rw [withSuffix, length_append, length_cons, length_take]
    omega

lemma dedupeLoop_spec (hbase : isValidName base) (attempts : ℕ) : ∀ {suffix : ℕ},
    suffix + attempts ≤ maxDedupeAttempts + 1 →
    (∃ k, suffix ≤ k ∧ k < suffix + attempts ∧ withSuffix base k ∉ used) →
    ∃ k, suffix ≤ k ∧ k ≤ maxDedupeAttempts ∧
      dedupeLoop base used attempts suffix = .ok (withSuffix base k) ∧ withSuffix base k ∉ used := by
  induction attempts with
  | zero =>
    rintro suffix - ⟨k, hle, hlt, -⟩
    omega
  | succ attempts ih =>
    rintro suffix hbound ⟨k, hle, hlt, hfree⟩
    rw [dedupeLoop, (suffixed_spec hbase (by omega)).1, Checked.ok_bind]
    by_cases hnew : withSuffix base suffix ∉ used
    · exact ⟨suffix, le_rfl, by omega, if_pos hnew, hnew⟩
    · have hne : k ≠ suffix := fun heq => hnew (heq ▸ hfree)
      obtain ⟨k', hle', hk', hloop, hfree'⟩ :=
        ih (by omega) ⟨k, Nat.lt_of_le_of_ne hle hne.symm, by omega, hfree⟩
      exact ⟨k', by omega, hk', by rw [if_neg hnew, hloop], hfree'⟩

/-- Fewer names than attempts leave a suffix free. -/
lemma exists_free_suffix (base : Text) (hcard : used.card < maxDedupeAttempts) :
    ∃ k, 1 ≤ k ∧ k < 1 + maxDedupeAttempts ∧ withSuffix base k ∉ used := by
  have himage : ((Finset.Ico 1 (1 + maxDedupeAttempts)).image (withSuffix base)).card =
      maxDedupeAttempts := by
    rw [Finset.card_image_of_injective _ (withSuffix_injective base), Nat.card_Ico]
    omega
  obtain ⟨name, hname, hfree⟩ := Finset.exists_mem_notMem_of_card_lt_card (hcard.trans_eq himage.symm)
  obtain ⟨k, hk, rfl⟩ := Finset.mem_image.mp hname
  exact ⟨k, (Finset.mem_Ico.mp hk).1, (Finset.mem_Ico.mp hk).2, hfree⟩

/-- The name stays as it is if it is not used, and gets a free suffix if it is. -/
lemma dedupeName_spec (hbase : isValidName base) (hcard : used.card < maxDedupeAttempts) :
    ∃ name, dedupeName base used = .ok name ∧ isValidName name ∧ name ∉ used ∧
      (base ∉ used → name = base) ∧ (base ∈ used → ∃ k, 1 ≤ k ∧ name = withSuffix base k) := by
  unfold dedupeName
  by_cases hnew : base ∉ used
  · exact ⟨base, if_pos hnew, hbase, hnew, fun _ => rfl, fun h => absurd h hnew⟩
  · obtain ⟨k, hle, hk, hloop, hfree⟩ := dedupeLoop_spec hbase maxDedupeAttempts (by omega)
      (exists_free_suffix base hcard)
    exact ⟨_, by rw [if_neg hnew, hloop], (suffixed_spec hbase hk).2, hfree,
      fun h => absurd h hnew, fun _ => ⟨k, hle, rfl⟩⟩

/-! ## Scopes -/

/-- The effect of resolving `raw` where the names `used` are taken. -/
structure Resolves (policy : InvalidNamePolicy) (used : Finset Text) (raw : Text)
    (r : Except MatError Text) (used' : Finset Text) : Prop where
  resolved : ∀ name, r = .ok name → isValidName name ∧ name ∉ used ∧ used' = insert name used
  refused : ∀ e, r = .error e → policy = .error ∧ isValidName raw = false ∧ used' = used
  unchanged : isValidName raw → raw ∉ used → r = .ok raw
  repeated : isValidName raw → raw ∈ used → ∃ k, 1 ≤ k ∧ r = .ok (withSuffix raw k)

lemma normalizeName_spec (policy : InvalidNamePolicy) (used : Finset Text) (raw : Text)
    (hcard : used.card < maxDedupeAttempts) :
    ∃ r used', normalizeName policy used raw = .ok (r, used') ∧
      Resolves policy used raw r used' := by
  -- past the check of the policy, the candidate is valid, and is `raw` if that is
  have hcandidate : ∀ candidate, isValidName candidate → (isValidName raw → candidate = raw) →
      ∃ unique, dedupeName candidate used = .ok unique ∧
        Resolves policy used raw (.ok unique) (insert unique used) := by
    intro candidate hvalid hsame
    obtain ⟨unique, hunique, hname, hfree, hkeep, hsuffix⟩ := dedupeName_spec hvalid hcard
    refine ⟨unique, hunique, ?_, nofun, fun hraw hnew => ?_, fun hraw hused => ?_⟩
    · rintro _ ⟨⟩
      exact ⟨hname, hfree, rfl⟩
    · obtain rfl := hsame hraw
      rw [hkeep hnew]
    · obtain rfl := hsame hraw
      obtain ⟨k, hk, rfl⟩ := hsuffix hused
      exact ⟨k, hk, rfl⟩
  cases policy with
  | error =>
    by_cases hraw : isValidName raw
    · obtain ⟨unique, hunique, h⟩ := hcandidate raw hraw fun _ => rfl
      exact ⟨_, _, by rw [normalizeName, if_pos hraw, hunique]; rfl, h⟩
    · refine ⟨_, _, if_neg hraw, nofun, fun _ _ => ⟨rfl, by simpa using hraw, rfl⟩, ?_, ?_⟩
      · exact fun h => absurd h hraw
      · exact fun h => absurd h hraw
  | sanitize =>
    obtain ⟨candidate, hsanitize, hvalid⟩ := sanitizeName_spec raw
    obtain ⟨unique, hunique, h⟩ := hcandidate candidate hvalid fun hraw =>
      Except.ok.inj (hsanitize.symm.trans (sanitizeName_of_valid hraw))
    exact ⟨_, _, by rw [normalizeName, hsanitize, Checked.ok_bind, hunique]; rfl, h⟩

def resolvedNames (results : List (Except MatError Text)) : List Text :=
  results.filterMap Except.toOption

lemma runAll_normalizeName (policy : InvalidNamePolicy) (names : List Text) :
    ∀ used : Finset Text, used.card + names.length ≤ maxDedupeAttempts →
      ∃ results used', runAll (normalizeName policy) used names = .ok (results, used') ∧
        Trace (Resolves policy) used names results used' ∧
        used' = used ∪ (resolvedNames results).toFinset ∧ (resolvedNames results).Nodup ∧
        ∀ name ∈ resolvedNames results, name ∉ used := by
  induction names with
  | nil => exact fun used _ => ⟨[], used, rfl, .nil used, by simp [resolvedNames]⟩
  | cons raw names ih =>
    intro used hbound
    rw [length_cons] at hbound
    obtain ⟨r, used₁, hstep, hr⟩ := normalizeName_spec policy used raw (by omega)
    cases r with
    | error e =>
      obtain ⟨-, -, rfl⟩ := hr.refused e rfl
      obtain ⟨results, used', hrun, htrace, hrest⟩ := ih used₁ (by omega)
      exact ⟨.error e :: results, used', by rw [runAll_cons hstep, hrun]; rfl, .cons hr htrace,
        hrest⟩
    | ok name =>
      obtain ⟨-, hfree, rfl⟩ := hr.resolved name rfl
      have hcard := Finset.card_insert_of_notMem hfree
      obtain ⟨results, used', hrun, htrace, hused, hnodup, hrest⟩ := ih (insert name used) (by omega)
      have hnames : resolvedNames (.ok name :: results) = name :: resolvedNames results := rfl
      refine ⟨.ok name :: results, used', by rw [runAll_cons hstep, hrun]; rfl, .cons hr htrace, ?_⟩
      rw [hnames, toFinset_cons, nodup_cons, forall_mem_cons]
      refine ⟨?_, ⟨fun hmem => ?_, hnodup⟩, hfree, fun name' hname' hmem => ?_⟩
      · rw [hused, Finset.union_insert, Finset.insert_union]
      · exact hrest name hmem (Finset.mem_insert_self _ _)
      · exact hrest name' hname' (Finset.mem_insert_of_mem hmem)

/-- **Resolved names are valid and distinct.** No call panics, a call fails only for an invalid name
under the error policy, and a scope has the names it returned. -/
theorem normalizeName_valid_distinct (policy : InvalidNamePolicy) (names : List Text)
    (hcount : names.length < 1000000) :
    ∃ results used, runAll (normalizeName policy) ∅ names = .ok (results, used) ∧
      Trace (Resolves policy) ∅ names results used ∧
      used = (resolvedNames results).toFinset ∧ (resolvedNames results).Nodup := by
  obtain ⟨results, used, hrun, htrace, hused, hnodup, -⟩ := runAll_normalizeName policy names ∅ (by
    rw [Finset.card_empty, Nat.zero_add]
    exact hcount.le)
  exact ⟨results, used, hrun, htrace, hused, hnodup⟩

theorem normalizeName_valid_distinct_twice : ∃ used,
    runAll (normalizeName .sanitize) ∅ ["end".toList, "1 a".toList, "end_".toList] =
        .ok ([.ok "end_".toList, .ok "x1_a".toList, .ok "end__1".toList], used) ∧
      used = ["end_".toList, "x1_a".toList, "end__1".toList].toFinset := by
  obtain ⟨results, used, hrun, -, hused, -⟩ := normalizeName_valid_distinct .sanitize
    ["end".toList, "1 a".toList, "end_".toList] (by simp)
  have heval : results = [.ok "end_".toList, .ok "x1_a".toList, .ok "end__1".toList] :=
    congrArg Prod.fst (Except.ok.inj (hrun.symm.trans rfl))
  subst heval
  exact ⟨used, hrun, hused⟩

end Hdf5Pure.Mat
