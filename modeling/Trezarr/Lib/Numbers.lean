import Mathlib.Tactic.Ring
import Trezarr.Lib.Lines
import Trezarr.Lib.Lower

/-! Numbers and their digits. -/
namespace Text

variable {n : ℕ} {c : Char}

def valueOf (digits : Str) : ℕ := digits.foldl (fun n c => 10 * n + digitValue c) 0

theorem isDigit_of_mem_natStr (h : c ∈ natStr n) : c.isDigit = true := by
  refine Nat.isDigit_of_mem_toDigits (by omega) le_rfl (n := n) ?_
  simpa [natStr, Nat.repr] using h

theorem digitValue_of_isDigit (h : c.isDigit = true) : digitValue c = c.toNat - '0'.toNat := by
  have hbounds : 48 ≤ c.toNat ∧ c.toNat ≤ 57 := by
    simpa [Char.isDigit, UInt32.le_iff_toNat_le] using h
  have hstart : rangeStart digitRanges c.toNat = 48 := by
    simp [digitRanges, rangeStart, hbounds.2]
  have hzero : '0'.toNat = 48 := rfl
  rw [digitValue, hstart, hzero]
  omega

theorem valueOf_natStr (n : ℕ) : valueOf (natStr n) = n := by
  have hdigits : natStr n = Nat.toDigits 10 n := by simp [natStr, Nat.repr]
  have hvalue : valueOf (natStr n) = Nat.ofDigitChars 10 (natStr n) 0 := by
    rw [Nat.ofDigitChars_eq_foldl]
    refine List.foldl_ext _ _ _ fun k c hc => ?_
    rw [digitValue_of_isDigit (isDigit_of_mem_natStr hc)]
  rw [hvalue, hdigits, Nat.ofDigitChars_ten_toDigits]

theorem natStr_injective : Function.Injective natStr := fun m n h => by
  rw [← valueOf_natStr m, h, valueOf_natStr]

theorem isDigit_natStr (h : c ∈ natStr n) : isDigit c = true := by
  have hascii := isDigit_of_mem_natStr h
  have hbounds : 48 ≤ c.toNat ∧ c.toNat ≤ 57 := by
    simpa [Char.isDigit, UInt32.le_iff_toNat_le] using hascii
  simp [isDigit, digitRanges, inRanges, hbounds]

theorem natStr_ne_nil (n : ℕ) : natStr n ≠ [] := by
  simp [natStr]

theorem digits_have_no_case : (lowerRanges.all fun r => digitRanges.all fun q =>
    Nat.blt r.2.1 q.1 || Nat.blt q.2 r.1) = true := by
  decide +kernel

theorem simpleLower_of_isDigit (h : isDigit c = true) : simpleLower c = c := by
  unfold simpleLower
  rw [if_neg (by rintro rfl; revert h; decide)]
  rcases lowerCode_cases lowerRanges c.toNat with hsame | ⟨r, hr, hlo, hhi, _⟩
  · rw [hsame, Char.ofNat_toNat]
  · exfalso
    obtain ⟨q, hq, hbounds⟩ := inRanges_some h
    have hapart := List.all_eq_true.mp (List.all_eq_true.mp digits_have_no_case r hr) q hq
    simp only [Bool.or_eq_true, Nat.blt_eq] at hapart
    omega

theorem valueOf_zeros (k : ℕ) (digits : Str) :
    valueOf (List.replicate k '0' ++ digits) = valueOf digits := by
  have hzero : digitValue '0' = 0 := by decide
  unfold valueOf
  rw [List.foldl_append]
  congr 1
  induction k with
  | zero => rfl
  | succ k ih => simpa [List.replicate_succ, hzero] using ih

theorem valueOf_append (a b : Str) : valueOf (a ++ b) = valueOf a * 10 ^ b.length + valueOf b := by
  have hfrom : ∀ (b : Str) (k : ℕ), b.foldl (fun n c => 10 * n + digitValue c) k =
      k * 10 ^ b.length + valueOf b := by
    intro b
    induction b with
    | nil => simp [valueOf]
    | cons c b ih =>
      intro k
      have hone := ih (10 * 0 + digitValue c)
      rw [List.foldl_cons, ih]
      unfold valueOf at hone ⊢
      rw [List.foldl_cons, hone, List.length_cons]
      ring
  unfold valueOf
  rw [List.foldl_append]
  exact hfrom b _

theorem valueOf_lt (digits : Str) : valueOf digits < 10 ^ digits.length := by
  induction digits using List.reverseRecOn with
  | nil => exact Nat.one_pos
  | append_singleton digits c ih =>
    have hc : valueOf [c] < 10 := by
      simp only [valueOf, List.foldl_cons, List.foldl_nil, digitValue]
      omega
    rw [valueOf_append, List.length_append, pow_add]
    simp only [List.length_singleton, pow_one]
    omega

/-- The digits in front are what is left of a number without those behind them. -/
theorem valueOf_div (a b : Str) : valueOf (a ++ b) / 10 ^ b.length = valueOf a := by
  rw [valueOf_append]
  exact Nat.div_eq_of_lt_le (by omega) (by
    have hlt := valueOf_lt b
    rw [Nat.succ_mul]
    omega)

/-- A fraction cut, or filled with zeros, to so many digits. -/
theorem valueOf_fraction (fraction : Str) (n : ℕ) :
    valueOf ((fraction ++ List.replicate (n - fraction.length) '0').take n) =
      valueOf fraction * 10 ^ n / 10 ^ fraction.length := by
  have hzeros : ∀ k, valueOf (List.replicate k '0') = 0 := by
    intro k
    simpa [valueOf] using valueOf_zeros k []
  rcases Nat.le_total fraction.length n with hshort | hlong
  · have hlength : (fraction ++ List.replicate (n - fraction.length) '0').length = n := by
      simp only [List.length_append, List.length_replicate]
      omega
    have hpow : 10 ^ n = 10 ^ (n - fraction.length) * 10 ^ fraction.length := by
      rw [← pow_add, Nat.sub_add_cancel hshort]
    rw [List.take_of_length_le hlength.le, valueOf_append, hzeros, List.length_replicate, hpow,
      ← Nat.mul_assoc, Nat.mul_div_cancel _ (Nat.pow_pos (by decide)), Nat.add_zero]
  · rw [Nat.sub_eq_zero_of_le hlong, List.replicate_zero, List.append_nil]
    have hpow : 10 ^ fraction.length = 10 ^ (fraction.drop n).length * 10 ^ n := by
      rw [← pow_add, List.length_drop, Nat.sub_add_cancel hlong]
    rw [hpow, Nat.mul_div_mul_right _ _ (Nat.pow_pos (by decide))]
    have hdiv := valueOf_div (fraction.take n) (fraction.drop n)
    rw [List.take_append_drop] at hdiv
    exact hdiv.symm

end Text
