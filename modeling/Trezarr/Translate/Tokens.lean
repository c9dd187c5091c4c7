import Mathlib.Data.List.Dedup
import Trezarr.Lib.Lines
import Trezarr.Lib.Numbers
import Trezarr.Lib.RegexFinds
import Trezarr.Translate.Visible

/-! Placeholders in a text, and the tags that come back for them. -/
namespace Trezarr
open Text Regex Regex.Pattern

/-- What `sentinelRe` matches. -/
def IsToken (w : Str) : Prop :=
  ∃ digits : Str, digits ≠ [] ∧ (∀ d ∈ digits, isDigit d = true) ∧
    w = '<' :: '<' :: 'T' :: (digits ++ ['>', '>'])

section Tokens

variable {w w' a b x y z : Str}

theorem sentinelRe_looksAhead : sentinelRe.LooksAhead := by
  simp [sentinelRe, seqs, lit, plus, char, digit, LooksAhead]

theorem mem_rests_sentinelRe {s r : Str} :
    r ∈ sentinelRe.rests s ↔ ∃ w, IsToken w ∧ s = w ++ r := by
  have hseq : r ∈ sentinelRe.rests s ↔ ∃ t ∈ (lit "<<T").rests s, ∃ u ∈ (plus digit).rests t,
      ∃ v ∈ (lit ">>").rests u, r ∈ eps.rests v := by
    simp only [sentinelRe, seqs, List.foldr_cons, List.foldr_nil, mem_rests_seq]
  rw [hseq]
  constructor
  · rintro ⟨t, ht, u, hu, v, hv, hr⟩
    cases List.mem_singleton.mp hr
    obtain ⟨t', ht', hstar⟩ := mem_rests_seq.mp hu
    obtain ⟨d, hd, rfl⟩ := mem_rests_set.mp ht'
    obtain ⟨digits, hdigits, rfl⟩ := mem_rests_star_set.mp hstar
    rw [mem_rests_lit] at ht hv
    refine ⟨_, ⟨d :: digits, List.cons_ne_nil d digits, ?_, rfl⟩, ?_⟩
    · intro c hc
      rcases List.mem_cons.mp hc with rfl | hc
      · exact hd
      · exact hdigits c hc
    · rw [ht, hv]
      simp
  · rintro ⟨_, ⟨digits, hne, hdigits, rfl⟩, rfl⟩
    cases digits with
    | nil => exact absurd rfl hne
    | cons d digits =>
      refine ⟨d :: digits ++ '>' :: '>' :: r, mem_rests_lit.mpr (by simp), '>' :: '>' :: r,
        mem_rests_seq.mpr ⟨_, mem_rests_set.mpr ⟨d, hdigits d List.mem_cons_self, rfl⟩, ?_⟩, r,
        mem_rests_lit.mpr rfl, List.mem_singleton.mpr rfl⟩
      exact mem_rests_star_set.mpr ⟨digits, fun c hc => hdigits c (List.mem_cons_of_mem d hc), rfl⟩

theorem found_sentinelRe_iff {s : Str} :
    found sentinelRe s = true ↔ ∃ w, IsToken w ∧ w <:+: s :=
  found_iff sentinelRe_looksAhead mem_rests_sentinelRe

/-- No place inside a token looks like the start of another. -/
theorem IsToken.tail_ne (hw : IsToken w) (h : w = x ++ y) (hx : x ≠ []) (hy : y ≠ []) :
    y ++ b ≠ '<' :: '<' :: 'T' :: z := by
  obtain ⟨digits, _, hdigits, rfl⟩ := hw
  intro heq
  match x, h with
  | [], _ => exact hx rfl
  | [_], h =>
    have hrest : '<' :: 'T' :: (digits ++ ['>', '>']) = y := (List.cons.inj h).2
    rw [← hrest] at heq
    cases heq
  | [_, _], h =>
    have hrest : 'T' :: (digits ++ ['>', '>']) = y := (List.cons.inj (List.cons.inj h).2).2
    rw [← hrest] at heq
    cases heq
  | _ :: _ :: _ :: x, h =>
    have hdrop : digits ++ ['>', '>'] = x ++ y :=
      (List.cons.inj (List.cons.inj (List.cons.inj h).2).2).2
    cases y with
    | nil => exact hy rfl
    | cons c y =>
      obtain ⟨rfl, _⟩ := List.cons.inj heq
      have hmem : '<' ∈ digits ++ ['>', '>'] := by
        rw [hdrop]
        simp
      rcases List.mem_append.mp hmem with hmem | hmem
      · exact absurd (hdigits _ hmem) (by decide)
      · simp at hmem

/-- What looks like a token starts at the token, before it or after it. -/
theorem IsToken.apart (hw : IsToken w) (hz : z = '<' :: '<' :: 'T' :: y)
    (h : a ++ (w ++ b) = x ++ z) :
    (∃ u, a = x ++ u ∧ z = u ++ (w ++ b)) ∨ ∃ u, x = a ++ (w ++ u) ∧ b = u ++ z := by
  rcases List.append_eq_append_iff.mp h with ⟨u, rfl, hwb⟩ | ⟨u, ha, hz'⟩
  · rcases List.append_eq_append_iff.mp hwb with ⟨v, rfl, hb⟩ | ⟨v, hwu, hzv⟩
    · exact .inr ⟨v, rfl, hb⟩
    · by_cases hu : u = []
      · subst hu
        exact .inl ⟨[], by simp, by simpa using hwb.symm⟩
      · by_cases hv : v = []
        · subst hv
          rw [List.append_nil] at hwu
          subst hwu
          exact .inr ⟨[], by simp, by simpa using hzv.symm⟩
        · exact absurd (hzv.symm.trans hz) (hw.tail_ne hwu hu hv)
  · exact .inl ⟨u, ha, hz'⟩

theorem IsToken.starts (hw : IsToken w) (b : Str) : ∃ y, w ++ b = '<' :: '<' :: 'T' :: y := by
  obtain ⟨digits, _, _, rfl⟩ := hw
  exact ⟨_, rfl⟩

/-- The token at a place is the only one there. -/
theorem IsToken.unique (hw : IsToken w) (hw' : IsToken w') (h : w ++ a = w' ++ b) :
    w = w' ∧ a = b := by
  obtain ⟨digits, _, hdigits, rfl⟩ := hw
  obtain ⟨digits', _, hdigits', rfl⟩ := hw'
  simp only [List.cons_append, List.append_assoc, List.cons.injEq, true_and] at h
  have hstop : isDigit '>' = false := by decide
  obtain ⟨rfl, htail⟩ := run_unique hdigits hdigits' (by simp [hstop]) (by simp [hstop]) h
  simp at htail
  exact ⟨rfl, htail⟩

end Tokens

theorem isToken_sentinelKey (n : ℕ) : IsToken (sentinelKey n) :=
  ⟨natStr n, natStr_ne_nil n, fun _ h => isDigit_natStr h, by simp [sentinelKey]⟩

/-- The key restored is the first token of its text. -/
theorem replaceFirst_token {w new b : Str} (hw : IsToken w) : ∀ {a : Str},
    (¬ w <:+: a) → replaceFirst w new (a ++ (w ++ b)) = a ++ (new ++ b) := by
  intro a
  induction a with
  | nil =>
    intro _
    obtain ⟨y, hy⟩ := hw.starts b
    rw [List.nil_append, List.nil_append]
    unfold replaceFirst
    split
    · next heq => rw [heq] at hy; cases hy
    · next c s heq =>
      rw [← heq, if_pos (List.prefix_append w b)]
      simp
  | cons c a ih =>
    intro hno
    rw [List.cons_append, replaceFirst, if_neg, ih, List.cons_append]
    · exact fun hin => hno (hin.trans (List.suffix_cons c a).isInfix)
    · rintro ⟨z, hz⟩
      obtain ⟨y, hy⟩ := hw.starts b
      rcases hw.apart (a := []) (x := c :: a) hy hz with ⟨u, hu, -⟩ | ⟨u, hu, -⟩
      · cases hu
      · refine hno ⟨[], u, ?_⟩
        simpa using hu.symm

theorem sentinelRe_consumes : sentinelRe.Consumes :=
  consumes_seq _ (consumes_seq _ (consumes_set _))

/-- What `findIter` finds are the tokens of the text. -/
theorem isToken_of_found {s : Str} {f : Found} (h : f ∈ findIter sentinelRe s) :
    IsToken f.text ∧ f.text <:+: s := by
  obtain ⟨hsuffix, hrest⟩ :=
    (finds_findIter sentinelRe_looksAhead sentinelRe_consumes s).mem_rests h
  obtain ⟨w, hw, heq⟩ := mem_rests_sentinelRe.mp hrest
  rw [List.append_cancel_right heq]
  rw [heq] at hsuffix
  exact ⟨hw, (List.prefix_append w f.rest).isInfix.trans hsuffix.isInfix⟩

section RoundTrip

variable {s w : Str} {f : Found} {fs : List Found}

/-- The placeholders of tags numbered from a number on. -/
def sentinelsFrom (n : ℕ) (fs : List Found) : SentinelMap :=
  (fs.zipIdx n).map fun (f, n) => (sentinelKey n, f.text)

def NoToken (s : Str) : Prop := ∀ w, IsToken w → ¬ w <:+: s

theorem NoToken.of_isInfix {s' : Str} (h : NoToken s) (hin : s' <:+: s) : NoToken s' :=
  fun w hw hsub => h w hw (hsub.trans hin)

theorem lastRest_cons : lastRest s (f :: fs) = lastRest f.rest fs := by
  cases fs with
  | nil => rfl
  | cons g fs => simp [lastRest, List.getLast?_eq_some_getLast]

/-- The text with its tags in their places. -/
def withTags (rest : Str) : List Found → Str
  | [] => rest
  | f :: fs => f.skipped ++ f.text ++ withTags rest fs

theorem withTags_of_finds {p : Pattern} (h : Finds p s fs) : withTags (lastRest s fs) fs = s := by
  induction h with
  | none _ => rfl
  | @some s f fs hfirst _ ih =>
    rw [lastRest_cons, withTags, ih, List.append_assoc]
    exact hfirst.eq.symm

/-- With the tags so far restored, the next key is the first token of the text. -/
theorem restoreKeys_withKeys (rest : Str) (fs : List Found) : ∀ {a : Str} {n : ℕ},
    NoToken (a ++ withTags rest fs) →
    restoreKeys (a ++ withKeys rest n fs) (sentinelsFrom n fs) = (a ++ withTags rest fs, true) := by
  induction fs with
  | nil =>
    intro a n _
    rfl
  | cons f fs ih =>
    intro a n hno
    have hsplit : a ++ withTags rest (f :: fs) = a ++ f.skipped ++ f.text ++ withTags rest fs := by
      simp [withTags]
    have hskipped : ¬ sentinelKey n <:+: a ++ f.skipped := by
      refine hno.of_isInfix ?_ _ (isToken_sentinelKey n)
      rw [hsplit, List.append_assoc]
      exact (List.prefix_append _ _).isInfix
    have hkeys : a ++ withKeys rest n (f :: fs) =
        (a ++ f.skipped) ++ (sentinelKey n ++ withKeys rest (n + 1) fs) := by
      simp [withKeys]
    have hcontains : contains ((a ++ f.skipped) ++
        (sentinelKey n ++ withKeys rest (n + 1) fs)) (sentinelKey n) = true :=
      decide_eq_true ⟨a ++ f.skipped, _, List.append_assoc _ _ _⟩
    rw [hkeys, show sentinelsFrom n (f :: fs) =
      (sentinelKey n, f.text) :: sentinelsFrom (n + 1) fs from rfl, restoreKeys, if_pos hcontains,
      replaceFirst_token (isToken_sentinelKey n) hskipped, ← List.append_assoc, ih, hsplit]
    rwa [← hsplit]

/-- Keys are the only tokens that stand for the tags. -/
theorem mem_sentinelsFrom (rest : Str) (hw : IsToken w) : ∀ {n : ℕ}, NoToken (withTags rest fs) →
    w <:+: withKeys rest n fs → w ∈ (sentinelsFrom n fs).map Prod.fst := by
  induction fs with
  | nil =>
    intro n hno hin
    exact absurd hin (hno w hw)
  | cons f fs ih =>
    intro n hno hin
    rw [withKeys] at hin
    obtain ⟨a, b, heq⟩ := hin
    obtain ⟨y, hy⟩ := hw.starts b
    have hplace : f.skipped ++ (sentinelKey n ++ withKeys rest (n + 1) fs) = a ++ (w ++ b) := by
      rw [← List.append_assoc, ← List.append_assoc, heq]
    have hfrom : sentinelsFrom n (f :: fs) = (sentinelKey n, f.text) :: sentinelsFrom (n + 1) fs :=
      rfl
    rw [hfrom, List.map_cons, List.mem_cons]
    rcases (isToken_sentinelKey n).apart hy hplace with ⟨u, hskipped, hu⟩ | ⟨u, -, hu⟩
    · obtain ⟨y', hy'⟩ := (isToken_sentinelKey n).starts (withKeys rest (n + 1) fs)
      rcases hw.apart (a := []) (x := u) hy' hu with ⟨v, hv, -⟩ | ⟨v, hv, -⟩
      · have hnil : u = [] := (List.append_eq_nil_iff.mp hv.symm).1
        subst hnil
        exact .inl (hw.unique (isToken_sentinelKey n) hu).1
      · refine absurd ?_ (hno w hw)
        rw [withTags, hskipped, hv]
        exact ⟨a, v ++ (f.text ++ withTags rest fs), by simp⟩
    · refine .inr (ih (hno.of_isInfix ?_) ⟨u, b, ?_⟩)
      · rw [withTags]
        exact (List.suffix_append _ _).isInfix
      · rw [hu, List.append_assoc]

/-- No part of such a text has a token that is not a key. -/
theorem orphansOf_part (rest : Str) {t : Str} {n : ℕ} (h : NoToken (withTags rest fs))
    (hin : t <:+: withKeys rest n fs) : orphansOf t (sentinelsFrom n fs) = [] := by
  have hnone : (((findIter sentinelRe t).map Found.text).dedup.filter
      (· ∉ (sentinelsFrom n fs).map Prod.fst)) = [] := by
    rw [List.filter_eq_nil_iff]
    intro w hmem
    obtain ⟨f, hf, rfl⟩ := List.mem_map.mp (List.mem_dedup.mp hmem)
    obtain ⟨hw, hsub⟩ := isToken_of_found hf
    have hkey : f.text ∈ (sentinelsFrom n fs).map Prod.fst :=
      mem_sentinelsFrom rest hw h (hsub.trans hin)
    simpa using hkey
  rw [orphansOf, hnone]
  rfl

theorem reinsertSentinels_withKeys (rest : Str) (fs : List Found) (h : NoToken (withTags rest fs)) :
    reinsertSentinels (withKeys rest 0 fs) (sentinelsFrom 0 fs) = (withTags rest fs, true) := by
  have hrestored := restoreKeys_withKeys rest fs (a := []) (n := 0) h
  have hfound : found sentinelRe (withTags rest fs) = false := by
    rw [← Bool.not_eq_true, found_sentinelRe_iff]
    rintro ⟨w, hw, hin⟩
    exact h w hw hin
  rw [List.nil_append, List.nil_append] at hrestored
  rw [reinsertSentinels, orphansOf_part rest h List.infix_rfl, stripOrphans, if_pos rfl, hrestored]
  simp [hfound]

theorem noToken_of_found (h : found sentinelRe s = false) : NoToken s := by
  intro w hw hin
  rw [found_sentinelRe_iff.mpr ⟨w, hw, hin⟩] at h
  cases h

/-- A text without a token of its own gets its tags back as they were. -/
theorem reinsertSentinels_extractSentinels (h : found sentinelRe s = false) :
    reinsertSentinels (extractSentinels s).1 (extractSentinels s).2 = (s, true) := by
  have hfinds := finds_findIter tagRe_looksAhead tagRe_consumes s
  have hback := reinsertSentinels_withKeys (lastRest s (findIter tagRe s)) (findIter tagRe s)
  rw [withTags_of_finds hfinds] at hback
  exact hback (noToken_of_found h)

/-- Tags of each kind, one with a bracket inside and one after a bracket of the text. -/
def nestedTags : Str :=
  "\x7b\\an8\x7d<<i>A < B\\N<font color=\"red\">C</font><<T>"

theorem nestedTags_return :
    reinsertSentinels (extractSentinels nestedTags).1 (extractSentinels nestedTags).2 =
      (nestedTags, true) :=
  reinsertSentinels_extractSentinels (by decide)

end RoundTrip

end Trezarr
