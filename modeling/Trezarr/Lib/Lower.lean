import Trezarr.Lib.Text

/-! Lower case is settled: a second pass over a text changes nothing. -/
namespace Text

/-- A character is its own lower case, in every place. -/
def IsLower (c : Char) : Prop := c ≠ 'Σ' ∧ lowerChar c = [c]

instance (c : Char) : Decidable (IsLower c) := inferInstanceAs (Decidable (_ ∧ _))

/-- The images of a range are out of reach of another: before it, after it or between its steps. -/
def Clear (r s : ℕ × ℕ × ℕ × ℕ) : Prop :=
  r.2.2.2 + (r.2.1 - r.1) < s.1 ∨ s.2.1 < r.2.2.2 ∨
    ((r.2.2.1 = 2 ∨ r.1 = r.2.1) ∧ s.2.2.1 = 2 ∧ r.2.2.2 % 2 ≠ s.1 % 2)

instance (r s : ℕ × ℕ × ℕ × ℕ) : Decidable (Clear r s) := inferInstanceAs (Decidable (_ ∨ _))

/-- The same as a computation, for the many pairs there are. -/
def isClear (r s : ℕ × ℕ × ℕ × ℕ) : Bool :=
  Nat.blt (r.2.2.2 + (r.2.1 - r.1)) s.1 || Nat.blt s.2.1 r.2.2.2 ||
    ((r.2.2.1 == 2 || r.1 == r.2.1) && s.2.2.1 == 2 && r.2.2.2 % 2 != s.1 % 2)

theorem clear_of_isClear {r s : ℕ × ℕ × ℕ × ℕ} (h : isClear r s = true) : Clear r s := by
  simpa [isClear, Clear, or_assoc, and_assoc] using h

theorem clear_lowerRanges : ∀ r ∈ lowerRanges, ∀ s ∈ lowerRanges, Clear r s := by
  have hall : (lowerRanges.all fun r => lowerRanges.all (isClear r)) = true := by
    decide +kernel
  intro r hr s hs
  exact clear_of_isClear (List.all_eq_true.mp (List.all_eq_true.mp hall r hr) s hs)

theorem lowerCode_cases (rs : List (ℕ × ℕ × ℕ × ℕ)) (n : ℕ) : lowerCode rs n = n ∨
    ∃ r ∈ rs, r.1 ≤ n ∧ n ≤ r.2.1 ∧ (n - r.1) % r.2.2.1 = 0 ∧
      lowerCode rs n = r.2.2.2 + (n - r.1) := by
  induction rs with
  | nil => exact .inl rfl
  | cons r rs ih =>
    obtain ⟨lo, hi, gap, image⟩ := r
    unfold lowerCode
    split
    next => exact .inl rfl
    next hlo =>
      split
      next hhi =>
        split
        next hgap => exact .inr ⟨_, List.mem_cons_self, Nat.le_of_not_lt hlo, hhi, hgap, rfl⟩
        next => exact .inl rfl
      next =>
        rcases ih with hsame | ⟨r, hr, hrest⟩
        · exact .inl hsame
        · exact .inr ⟨r, List.mem_cons_of_mem _ hr, hrest⟩

theorem lowerCode_lowerCode (n : ℕ) :
    lowerCode lowerRanges (lowerCode lowerRanges n) = lowerCode lowerRanges n := by
  rcases lowerCode_cases lowerRanges n with hsame | ⟨r, hr, hlo, hhi, hgap, himage⟩
  · rw [hsame, hsame]
  · rcases lowerCode_cases lowerRanges (lowerCode lowerRanges n) with
      hsame | ⟨s, hs, hlo', hhi', hgap', _⟩
    · exact hsame
    · rw [himage] at hlo' hhi' hgap'
      exfalso
      rcases clear_lowerRanges r hr s hs with hbefore | hafter | ⟨hr2 | hone, hs2, hparity⟩
      · omega
      · omega
      · rw [hr2] at hgap
        rw [hs2] at hgap'
        omega
      · rw [hs2] at hgap'
        omega

/-- Neither of the two letters with a rule of their own is the image of another. -/
theorem lowerCode_ne {n m : ℕ} (hm : m = 0x130 ∨ m = 0x3A3) (hne : n ≠ m) :
    lowerCode lowerRanges n ≠ m := by
  have himages : ∀ r ∈ lowerRanges, r.2.2.2 + (r.2.1 - r.1) < 0x130 ∨
      0x130 < r.2.2.2 ∧ r.2.2.2 + (r.2.1 - r.1) < 0x3A3 ∨ 0x3A3 < r.2.2.2 := by
    decide +kernel
  intro h
  rcases lowerCode_cases lowerRanges n with hsame | ⟨r, hr, hlo, hhi, _, himage⟩
  · exact hne (hsame.symm.trans h)
  · have := himages r hr
    omega

/-- What stands before the letters is the lower case of nothing else. -/
theorem eq_of_mem_lowerChar {c d : Char} (hd : d.toNat < 0x61) (h : d ∈ lowerChar c) : c = d := by
  have himages : ∀ r ∈ lowerRanges, 0x61 ≤ r.2.2.2 ∧ (r.2.2.2 + (r.2.1 - r.1) < 0xD800 ∨
      0xDFFF < r.2.2.2 ∧ r.2.2.2 + (r.2.1 - r.1) < 0x110000) := by
    decide +kernel
  unfold lowerChar at h
  split at h
  next =>
    rcases List.mem_cons.mp h with rfl | h
    · exact absurd hd (by decide)
    · rw [List.mem_singleton.mp h] at hd
      exact absurd hd (by decide)
  next =>
    rw [List.mem_singleton] at h
    rcases lowerCode_cases lowerRanges c.toNat with hsame | ⟨r, hr, hlo, hhi, _, himage⟩
    · rw [h, hsame, Char.ofNat_toNat]
    · obtain ⟨hlarge, hrange⟩ := himages r hr
      have hvalid : (lowerCode lowerRanges c.toNat).isValidChar := by
        unfold Nat.isValidChar
        omega
      rw [h, toNat_charOfNat hvalid, himage] at hd
      omega

theorem isLower_of_mem_lowerChar {c d : Char} (hsigma : c ≠ 'Σ') (h : d ∈ lowerChar c) :
    IsLower d := by
  unfold lowerChar at h
  split at h
  next =>
    rcases List.mem_cons.mp h with rfl | h
    · decide
    · rw [List.mem_singleton.mp h]
      decide
  next hdot =>
    rw [List.mem_singleton.mp h]
    by_cases hvalid : (lowerCode lowerRanges c.toNat).isValidChar
    · have hcode : (Char.ofNat (lowerCode lowerRanges c.toNat)).toNat =
          lowerCode lowerRanges c.toNat := toNat_charOfNat hvalid
      refine ⟨fun heq => ?_, ?_⟩
      · rw [heq] at hcode
        exact lowerCode_ne (.inr rfl) (fun hc => hsigma (Char.toNat_inj.mp hc)) hcode.symm
      · unfold lowerChar
        rw [if_neg, hcode, lowerCode_lowerCode]
        intro heq
        rw [heq] at hcode
        exact lowerCode_ne (.inl rfl) (fun hc => hdot (Char.toNat_inj.mp hc)) hcode.symm
    · rw [Char.ofNat, dif_neg hvalid]
      decide

theorem isLower_of_mem_lowerFrom {before s : Str} {d : Char} (h : d ∈ lowerFrom before s) :
    IsLower d := by
  induction s generalizing before with
  | nil => cases h
  | cons c s ih =>
    rcases List.mem_append.mp h with h | h
    · split at h
      next =>
        split at h
        next =>
          rw [List.mem_singleton.mp h]
          decide
        next =>
          rw [List.mem_singleton.mp h]
          decide
      next hsigma => exact isLower_of_mem_lowerChar hsigma h
    · exact ih h

theorem mem_of_mem_lowerFrom {before s : Str} {d : Char} (hd : d.toNat < 0x61)
    (h : d ∈ lowerFrom before s) : d ∈ s := by
  induction s generalizing before with
  | nil => cases h
  | cons c s ih =>
    rcases List.mem_append.mp h with h | h
    · split at h
      next =>
        split at h
        next =>
          rw [List.mem_singleton.mp h] at hd
          exact absurd hd (by decide)
        next =>
          rw [List.mem_singleton.mp h] at hd
          exact absurd hd (by decide)
      next => exact List.mem_cons.mpr (.inl (eq_of_mem_lowerChar hd h).symm)
    · exact List.mem_cons_of_mem c (ih h)

theorem lowerFrom_eq_self {before s : Str} (h : ∀ c ∈ s, IsLower c) : lowerFrom before s = s := by
  induction s generalizing before with
  | nil => rfl
  | cons c s ih =>
    obtain ⟨hsigma, hlower⟩ := h c List.mem_cons_self
    unfold lowerFrom
    rw [if_neg hsigma, hlower, ih fun d hd => h d (List.mem_cons_of_mem c hd)]
    rfl

@[simp] theorem lower_lower (s : Str) : lower (lower s) = lower s :=
  lowerFrom_eq_self fun _ => isLower_of_mem_lowerFrom

theorem lowerFrom_append {before s : Str} : ∀ {a : Str}, (∀ c ∈ a, IsLower c) →
    lowerFrom before (a ++ s) = a ++ lowerFrom (a.reverse ++ before) s := by
  intro a
  induction a generalizing before with
  | nil => exact fun _ => rfl
  | cons c a ih =>
    intro h
    obtain ⟨hsigma, hlower⟩ := h c List.mem_cons_self
    have hrest := @ih (c :: before) fun d hd => h d (List.mem_cons_of_mem c hd)
    rw [List.cons_append, lowerFrom, if_neg hsigma, hlower, hrest, List.reverse_cons,
      List.append_assoc]
    rfl

/-- The two small sigmas as one. -/
def oneSigma (c : Char) : Char := if c = 'ς' then 'σ' else c

/-- What is before a text decides its sigmas at most. -/
theorem map_oneSigma_lowerFrom (before before' s : Str) :
    (lowerFrom before s).map oneSigma = (lowerFrom before' s).map oneSigma := by
  induction s generalizing before before' with
  | nil => rfl
  | cons c s ih =>
    simp only [lowerFrom, List.map_append]
    rw [ih (c :: before) (c :: before')]
    congr 1
    by_cases hsigma : c = 'Σ'
    · have hall : ∀ b : Bool, (if b then ['ς'] else ['σ']).map oneSigma = ['σ'] := by decide
      rw [if_pos hsigma, if_pos hsigma, hall, hall]
    · rw [if_neg hsigma, if_neg hsigma]

theorem infix_map_oneSigma {w s : Str} (hw : ∀ c ∈ w, c ≠ 'σ' ∧ c ≠ 'ς') :
    w <:+: s.map oneSigma ↔ w <:+: s := by
  have hkeep : ∀ {c : Char}, oneSigma c ≠ 'σ' → oneSigma c = c := by
    intro c hc
    unfold oneSigma at hc ⊢
    split
    next h => simp [h] at hc
    next => rfl
  constructor
  · intro h
    obtain ⟨t, ht, hmap⟩ := List.infix_map_iff.mp h
    have hsame : t.map oneSigma = t := by
      refine (List.map_congr_left fun c hc => hkeep ?_).trans (List.map_id t)
      exact (hw _ (hmap ▸ List.mem_map_of_mem hc)).1
    rw [hmap, hsame]
    exact ht
  · intro h
    have hsame : w.map oneSigma = w := by
      refine (List.map_congr_left fun c hc => ?_).trans (List.map_id w)
      exact if_neg (hw c hc).2
    rw [← hsame]
    exact h.map oneSigma

/-- A word without sigmas is in the lower case of a text wherever the text stands. -/
theorem infix_lowerFrom_iff {w before before' s : Str} (hw : ∀ c ∈ w, c ≠ 'σ' ∧ c ≠ 'ς') :
    w <:+: lowerFrom before s ↔ w <:+: lowerFrom before' s := by
  rw [← infix_map_oneSigma hw, map_oneSigma_lowerFrom before before', infix_map_oneSigma hw]

/-- No end of the text and the word start alike. -/
def apart (w : Str) : Str → Bool
  | [] => true
  | c :: a => !w.isPrefixOf (c :: a) && !(c :: a).isPrefixOf w && apart w a

theorem infix_append_of_apart {w a b : Str} (h : apart w a = true) : w <:+: a ++ b ↔ w <:+: b := by
  induction a with
  | nil => exact Iff.rfl
  | cons c a ih =>
    simp only [apart, Bool.and_eq_true, Bool.not_eq_true'] at h
    obtain ⟨⟨hword, htext⟩, hrest⟩ := h
    rw [List.cons_append, List.infix_cons_iff, ih hrest]
    refine or_iff_right fun hprefix => ?_
    rcases List.prefix_or_prefix_of_prefix hprefix (List.prefix_append (c :: a) b) with h | h
    · rw [List.isPrefixOf_iff_prefix.mpr h] at hword
      cases hword
    · rw [List.isPrefixOf_iff_prefix.mpr h] at htext
      cases htext

/-- After a fixed text in lower case, a word is looked for in the rest alone. -/
theorem infix_lower_append {w a s : Str} (hw : ∀ c ∈ w, c ≠ 'σ' ∧ c ≠ 'ς')
    (ha : ∀ c ∈ a, IsLower c) (hapart : apart w a = true) :
    w <:+: lower (a ++ s) ↔ w <:+: lower s := by
  unfold lower
  rw [lowerFrom_append ha, infix_append_of_apart hapart]
  exact infix_lowerFrom_iff hw

end Text
