import Trezarr.Lib.Places
import Trezarr.Lib.RegexAnchored
import Trezarr.Translate.PromptText
import Trezarr.Translate.Tokens

/-! Line breaks of a cue, marked in the prompt and restored from the reply. -/
namespace Trezarr
open Text Regex Regex.Pattern

/-- What `brRe` matches. -/
def IsBreakMark (w : Str) : Prop :=
  ∃ u v : Str, (∀ c ∈ u, isSpace c = true) ∧ (∀ c ∈ v, isSpace c = true) ∧
    w = '<' :: '<' :: (u ++ 'B' :: 'R' :: (v ++ ['>', '>']))

section Marks

variable {s w r t : Str} {c : Char} {f : Found} {fs : List Found}

theorem brRe_looksAhead : brRe.LooksAhead := by
  simp [brRe, seqs, lit, char, space, LooksAhead]

theorem brRe_consumes : brRe.Consumes := consumes_seq _ (consumes_seq _ (consumes_set _))

theorem mem_rests_brRe : r ∈ brRe.rests s ↔ ∃ w, IsBreakMark w ∧ s = w ++ r := by
  have hseq : r ∈ brRe.rests s ↔ ∃ a ∈ (lit "<<").rests s, ∃ b ∈ (star space).rests a,
      ∃ d ∈ (lit "BR").rests b, ∃ e ∈ (star space).rests d, ∃ g ∈ (lit ">>").rests e,
        r ∈ eps.rests g := by
    simp only [brRe, seqs, List.foldr_cons, List.foldr_nil, mem_rests_seq]
  rw [hseq]
  constructor
  · rintro ⟨a, ha, b, hb, d, hd, e, he, g, hg, hr⟩
    cases List.mem_singleton.mp hr
    obtain ⟨u, hu, rfl⟩ := mem_rests_star_set.mp hb
    obtain ⟨v, hv, rfl⟩ := mem_rests_star_set.mp he
    rw [mem_rests_lit] at ha hd hg
    refine ⟨_, ⟨u, v, hu, hv, rfl⟩, ?_⟩
    rw [ha, hd, hg]
    simp
  · rintro ⟨w, ⟨u, v, hu, hv, rfl⟩, rfl⟩
    refine ⟨u ++ 'B' :: 'R' :: (v ++ '>' :: '>' :: r), mem_rests_lit.mpr (by simp),
      'B' :: 'R' :: (v ++ '>' :: '>' :: r), mem_rests_star_set.mpr ⟨u, hu, rfl⟩,
      v ++ '>' :: '>' :: r, mem_rests_lit.mpr (by simp), '>' :: '>' :: r,
      mem_rests_star_set.mpr ⟨v, hv, rfl⟩, r, mem_rests_lit.mpr rfl, List.mem_singleton.mpr rfl⟩

theorem found_brRe_iff : found brRe s = true ↔ ∃ w, IsBreakMark w ∧ w <:+: s :=
  found_iff brRe_looksAhead mem_rests_brRe

/-- A mark in a text is inside what would be a tag. -/
theorem IsBreakMark.tagAt (hw : IsBreakMark w) (r : Str) : TagAt (w ++ r) ('>' :: r) := by
  obtain ⟨u, v, hu, hv, rfl⟩ := hw
  refine .inl ⟨'<' :: (u ++ 'B' :: 'R' :: v), List.cons_ne_nil _ _, ?_, by simp⟩
  have hspace : ∀ {x : Str}, (∀ c ∈ x, isSpace c = true) → '>' ∉ x := by
    intro x hx hmem
    exact absurd (hx '>' hmem) (by decide)
  simp [hspace hu, hspace hv]

theorem NoMatchIn.of_isInfix {p : Pattern} {t u : Str} (h : p.NoMatchIn t u) (hin : w <:+: t)
    (hne : w ≠ []) : ∃ r, p.rests (w ++ r) = [] := by
  obtain ⟨a, b, rfl⟩ := hin
  have hw := (noMatchIn_append.mp (noMatchIn_append.mp h).1).2
  obtain ⟨c, w, rfl⟩ := List.exists_cons_of_ne_nil hne
  exact ⟨b ++ u, hw.1⟩

theorem IsBreakMark.not_isInfix {t u : Str} (hw : IsBreakMark w) (h : tagRe.NoMatchIn t u) :
    ¬ w <:+: t := by
  intro hin
  have hne : w ≠ [] := by
    obtain ⟨u, v, -, -, rfl⟩ := hw
    exact List.cons_ne_nil _ _
  obtain ⟨r, hr⟩ := NoMatchIn.of_isInfix h hin hne
  have hmem := mem_rests_tagRe.mpr (hw.tagAt r)
  rw [hr] at hmem
  cases hmem

/-- The text between tags has no mark of its own, and keys bring none. -/
theorem IsBreakMark.not_mem_withKeys (hw : IsBreakMark w) (h : Finds tagRe s fs) :
    ∀ n, ¬ w <:+: withKeys (lastRest s fs) n fs := by
  induction h with
  | none hno => exact fun n => hw.not_isInfix hno
  | @some s f fs hfirst _ ih =>
    intro n hin
    rw [lastRest_cons, withKeys] at hin
    obtain ⟨u, v, hu, hv, heq⟩ := id hw
    have hsplit : f.skipped ++ sentinelKey n ++ withKeys (lastRest f.rest fs) (n + 1) fs =
        (f.skipped ++ ['<', '<']) ++ 'T' ::
          ((natStr n ++ ['>', '>']) ++ withKeys (lastRest f.rest fs) (n + 1) fs) := by
      simp [sentinelKey]
    have hspace : ∀ {x : Str} {c : Char}, (∀ c ∈ x, isSpace c = true) → isSpace c = false →
        c ∉ x := by
      intro x c hx hc hmem
      rw [hx c hmem] at hc
      cases hc
    have hno : 'T' ∉ w := by
      rw [heq]
      simp [hspace hu (by decide : isSpace 'T' = false), hspace hv (by decide : isSpace 'T' = false)]
    rw [hsplit] at hin
    rcases infix_of_not_mem hno hin with hin | hin
    · -- the mark ends with a bracket that the start of a key does not have
      have hlast : w = ('<' :: '<' :: (u ++ 'B' :: 'R' :: (v ++ ['>']))) ++ ['>'] := by simp [heq]
      have hfront := infix_front (y := ['<', '<']) (by decide) (hlast ▸ hin)
      exact hw.not_isInfix hfirst.before (hlast ▸ hfront)
    · have hdigits : '<' ∉ natStr n ++ ['>', '>'] := by
        intro hmem
        rcases List.mem_append.mp hmem with hmem | hmem
        · exact absurd (isDigit_natStr hmem) (by decide)
        · exact absurd hmem (by decide)
      rw [heq] at hin
      exact ih (n + 1) (heq ▸ infix_back hdigits hin)

theorem found_brRe_extractSentinels (s : Str) : found brRe (extractSentinels s).1 = false := by
  rw [← Bool.not_eq_true, found_brRe_iff]
  rintro ⟨w, hw, hin⟩
  exact hw.not_mem_withKeys (finds_findIter tagRe_looksAhead tagRe_consumes s) 0 hin

theorem markBreak_newline : markBreak '\n' = ['<', '<', 'B', 'R', '>', '>'] := by
  simp [markBreak]

theorem markBreak_of_ne (hc : c ≠ '\n') : markBreak c = [c] := if_neg hc

/-- A front without an angle bracket is the same with and without marks. -/
theorem unmark_front {x y : Str} (hx : '<' ∉ x) : ∀ {s : Str}, s.flatMap markBreak = x ++ y →
    ∃ s', s = x ++ s' ∧ s'.flatMap markBreak = y := by
  induction x with
  | nil => exact fun {s} h => ⟨s, rfl, h⟩
  | cons c x ih =>
    intro s h
    have hc : c ≠ '<' := fun heq => hx (heq ▸ List.mem_cons_self)
    cases s with
    | nil => cases h
    | cons d s =>
      rw [List.flatMap_cons] at h
      by_cases hd : d = '\n'
      · rw [hd, markBreak_newline] at h
        exact absurd (List.cons.inj h).1.symm hc
      · rw [markBreak_of_ne hd] at h
        obtain ⟨rfl, hrest⟩ := List.cons.inj h
        obtain ⟨s', rfl, hs'⟩ := ih (fun hmem => hx (List.mem_cons_of_mem d hmem)) hrest
        exact ⟨s', rfl, hs'⟩

/-- No mark starts at a character of the text itself. -/
theorem rests_brRe_unmarked (hc : c ≠ '\n') (h : found brRe (c :: s) = false) :
    brRe.rests (c :: s.flatMap markBreak) = [] := by
  rw [List.eq_nil_iff_forall_not_mem]
  intro r hr
  obtain ⟨w, hw, heq⟩ := mem_rests_brRe.mp hr
  refine Bool.eq_false_iff.mp h (found_brRe_iff.mpr ⟨w, hw, ?_⟩)
  obtain ⟨u, v, hu, hv, rfl⟩ := hw
  have hspace : ∀ {x : Str}, (∀ c ∈ x, isSpace c = true) → '<' ∉ x := by
    intro x hx hmem
    exact absurd (hx '<' hmem) (by decide)
  obtain ⟨rfl, hmarked⟩ := List.cons.inj heq
  cases s with
  | nil => cases hmarked
  | cons d s =>
    rw [List.flatMap_cons] at hmarked
    by_cases hd : d = '\n'
    · -- a marked break after a bracket: the mark would need a blank or a letter next
      rw [hd, markBreak_newline] at hmarked
      have hnext := (List.cons.inj hmarked).2
      cases u with
      | nil => cases hnext
      | cons a u =>
        obtain ⟨ha, -⟩ := List.cons.inj hnext
        exact absurd (hu a List.mem_cons_self) (by rw [← ha]; decide)
    · rw [markBreak_of_ne hd] at hmarked
      obtain ⟨rfl, hrest⟩ := List.cons.inj hmarked
      have hx : '<' ∉ u ++ 'B' :: 'R' :: (v ++ ['>', '>']) := by simp [hspace hu, hspace hv]
      obtain ⟨s', rfl, -⟩ := unmark_front hx hrest
      exact ⟨[], s', by simp⟩

theorem rests_brRe_mark (r : Str) :
    brRe.rests ('<' :: '<' :: 'B' :: 'R' :: '>' :: '>' :: r) = [r] := by
  have hstar : ∀ {c : Char} (s : Str), isSpace c = false → (star space).rests (c :: s) = [c :: s] := by
    intro c s hc
    refine (rests_star (consumes_set isSpace) (c :: s)).trans ?_
    simp [hc]
  have hB : isSpace 'B' = false := by decide
  have hangle : isSpace '>' = false := by decide
  simp [brRe, seqs, lit, char, hstar _ hB, hstar _ hangle]

theorem sub_brRe_marked (h : found brRe s = false) :
    sub brRe (fun _ => "\n") (s.flatMap markBreak) = s := by
  induction s with
  | nil => exact sub_nil brRe_looksAhead brRe_consumes
  | cons c s ih =>
    have hrest : found brRe s = false := by
      rw [found_eq_false_iff brRe_looksAhead] at h ⊢
      exact fun t ht => h t (ht.trans (List.suffix_cons c s))
    rw [List.flatMap_cons]
    by_cases hc : c = '\n'
    · rw [hc, markBreak_newline]
      refine (sub_of_match brRe_looksAhead brRe_consumes (r := s.flatMap markBreak) ?_).trans ?_
      · simp [rests_brRe_mark]
      · rw [ih hrest]
        rfl
    · rw [markBreak_of_ne hc, List.singleton_append,
        sub_cons brRe_looksAhead brRe_consumes (rests_brRe_unmarked hc h), ih hrest]

theorem not_mem_marked (s : Str) : '\n' ∉ s.flatMap markBreak := by
  intro hmem
  obtain ⟨c, -, hc⟩ := List.mem_flatMap.mp hmem
  by_cases hne : c = '\n'
  · rw [hne, markBreak_newline] at hc
    exact absurd hc (by decide)
  · rw [markBreak_of_ne hne] at hc
    exact hne (List.mem_singleton.mp hc).symm

/-- The reader gets back what was marked. -/
theorem restoreBreaks_marked (h : found brRe s = false) :
    restoreBreaks (s.flatMap markBreak) = s := by
  have hnone : ∀ {p : Pattern}, p.LooksAhead → (∀ t, ∀ r ∈ p.rests t, '\n' ∈ t) →
      sub p (fun _ => "\n") (s.flatMap markBreak) = s.flatMap markBreak := by
    intro p hp hneeds
    have hfound : found p (s.flatMap markBreak) = false := by
      rw [found_eq_false_iff hp]
      intro t ht
      rw [List.eq_nil_iff_forall_not_mem]
      intro r hr
      exact not_mem_marked s (ht.mem (hneeds t r hr))
    exact sub_of_found_eq_false hfound
  have hbefore : ∀ t, ∀ r ∈ (seqs [brRe, star (oneOf " \t"), char '\n']).rests t, '\n' ∈ t := by
    intro t r hr
    simp only [seqs, List.foldr_cons, List.foldr_nil] at hr
    obtain ⟨a, ha, hr⟩ := mem_rests_seq.mp hr
    obtain ⟨b, hb, hr⟩ := mem_rests_seq.mp hr
    obtain ⟨d, hd, -⟩ := mem_rests_seq.mp hr
    rw [mem_rests_char.mp hd] at hb
    have hsuffix := (suffix_of_mem_rests _ _ hb).trans (suffix_of_mem_rests _ _ ha)
    exact hsuffix.mem List.mem_cons_self
  have hafter : ∀ t, ∀ r ∈ (seqs [char '\n', star (oneOf " \t"), brRe]).rests t, '\n' ∈ t := by
    intro t r hr
    simp only [seqs, List.foldr_cons, List.foldr_nil] at hr
    obtain ⟨a, ha, -⟩ := mem_rests_seq.mp hr
    rw [mem_rests_char.mp ha]
    exact List.mem_cons_self
  have hspaces : (star (oneOf " \t")).LooksAhead := trivial
  have hnewline : (char '\n').LooksAhead := trivial
  have hfirst := hnone (p := seqs [brRe, star (oneOf " \t"), char '\n'])
    ⟨brRe_looksAhead, hspaces, hnewline, trivial⟩ hbefore
  have hsecond := hnone (p := seqs [char '\n', star (oneOf " \t"), brRe])
    ⟨hnewline, hspaces, brRe_looksAhead, trivial⟩ hafter
  unfold restoreBreaks
  dsimp only
  rw [hfirst, hsecond]
  exact sub_brRe_marked h

end Marks

end Trezarr
