import Trezarr.Lib.Brackets
import Trezarr.Lib.Lines
import Trezarr.Translate.Assemble

/-! The brackets around a cue: what the source has, and what the translation is given. -/
namespace Trezarr
open Text Brackets

section Scan

variable {opener closer : Char} {text inner : Str} {depth : ℤ}

theorem spans_cons (opener closer x : Char) (depth : ℤ) (rest : Str) :
    spans opener closer depth (x :: rest) =
      if depth + weight opener closer x = 0 ∧ rest ≠ [] then false
      else spans opener closer (depth + weight opener closer x) rest := by
  have hstep : (if x = opener then depth + 1 else if x = closer then depth - 1 else depth) =
      depth + weight opener closer x := by
    rw [weight]
    split_ifs <;> omega
  rw [spans, hstep]

/-- The scan of what follows an open bracket, up to the closer at the end. -/
theorem spans_concat (hne : opener ≠ closer) (hd : 1 ≤ depth) :
    spans opener closer depth (inner ++ [closer]) = true ↔
      (∀ p, p <+: inner → 1 ≤ depth + Brackets.depth opener closer p) ∧
        depth + Brackets.depth opener closer inner = 1 := by
  induction inner generalizing depth with
  | nil =>
    have hcloser : weight opener closer closer = -1 := by rw [weight, if_neg hne.symm, if_pos rfl]
    simp only [List.nil_append, spans_cons, hcloser, ne_eq, not_true_eq_false, and_false, if_false,
      spans, decide_eq_true_eq, List.prefix_nil, forall_eq, depth_nil]
    omega
  | cons x inner ih =>
    have hrest : inner ++ [closer] ≠ [] := by simp
    rw [List.cons_append, spans_cons, forall_prefix_cons]
    simp only [depth_cons hne, depth_nil, ← Int.add_assoc]
    by_cases hopen : 1 ≤ depth + weight opener closer x
    · rw [if_neg fun h => by omega, ih hopen]
      constructor
      · intro h
        exact ⟨⟨by omega, h.1⟩, h.2⟩
      · intro h
        exact ⟨h.1.2, h.2⟩
    · -- the bracket is closed here, though the text goes on
      have hzero : depth + weight opener closer x = 0 := by
        rw [weight] at hopen ⊢
        split_ifs at hopen ⊢ <;> omega
      rw [if_pos ⟨hzero, hrest⟩]
      refine iff_of_false Bool.false_ne_true fun h => ?_
      have hfirst := h.1.2 [] List.nil_prefix
      rw [depth_nil] at hfirst
      omega

theorem spans_enclosed (hne : opener ≠ closer) :
    spans opener closer 0 (opener :: inner ++ [closer]) = true ↔
      Balanced opener closer inner := by
  have hopener : (0 : ℤ) + weight opener closer opener = 1 := by rw [weight, if_pos rfl]; rfl
  rw [List.cons_append, spans_cons, hopener, if_neg fun h => by omega, spans_concat hne le_rfl]
  constructor
  · rintro ⟨hp, hw⟩
    exact ⟨fun p h => by have := hp p h; omega, by omega⟩
  · exact fun hb => ⟨fun p h => by have := hb.prefixes p h; omega, by have := hb.whole; omega⟩

end Scan

/-- The stripped text is one outer pair of brackets and what is in it. -/
def Encloses (opener closer : Char) (text : Str) : Prop :=
  closerOf opener = some closer ∧ Enclosed opener closer (strip text)

section Envelopes

variable {opener closer : Char} {text : Str} {src trn : SubLine}

theorem ne_of_closerOf (h : closerOf opener = some closer) : opener ≠ closer := by
  unfold closerOf at h
  split_ifs at h with hround hsquare
  · rw [hround, ← Option.some.inj h]
    decide
  · rw [hsquare, ← Option.some.inj h]
    decide

theorem not_isSpace_of_closerOf (h : closerOf opener = some closer) :
    isSpace opener = false ∧ isSpace closer = false := by
  unfold closerOf at h
  split_ifs at h with hround hsquare
  · rw [hround, ← Option.some.inj h]
    decide
  · rw [hsquare, ← Option.some.inj h]
    decide

theorem isWrapped_iff : isWrapped opener closer text = true ↔
    (strip text).head? = some opener ∧ (strip text).getLast? = some closer := by
  rw [isWrapped, Bool.and_eq_true, decide_eq_true_eq, decide_eq_true_eq]

theorem eq_enclosed {s : Str} (hne : opener ≠ closer) (hfirst : s.head? = some opener)
    (hlast : s.getLast? = some closer) : ∃ inner, s = opener :: inner ++ [closer] := by
  obtain ⟨rest, rfl⟩ := List.head?_eq_some_iff.mp hfirst
  obtain ⟨init, hinit⟩ := List.getLast?_eq_some_iff.mp hlast
  cases init with
  | nil => exact absurd (List.cons.inj hinit).1 hne
  | cons first inner =>
    rw [hinit, ← (List.cons.inj hinit).1]
    exact ⟨inner, rfl⟩

theorem envelopeOf_eq_some_iff :
    envelopeOf text = some (opener, closer) ↔ Encloses opener closer text := by
  constructor
  · intro h
    unfold envelopeOf at h
    dsimp only at h
    split at h
    · cases h
    · split at h
      · cases h
      · next _ first hfirst =>
        split at h
        · cases h
        · next _ last hcloser =>
          split at h
          · next hscan =>
            obtain ⟨rfl, rfl⟩ := Prod.mk.inj (Option.some.inj h)
            have hne := ne_of_closerOf hcloser
            obtain ⟨inner, hinner⟩ := eq_enclosed hne hfirst hscan.1
            refine ⟨hcloser, inner, hinner, (spans_enclosed hne).mp ?_⟩
            rw [← hinner]
            exact hscan.2
          · cases h
  · intro ⟨hcloser, henclosed⟩
    have hfirst := henclosed.head?
    have hlast := henclosed.getLast?
    obtain ⟨inner, hinner, hb⟩ := henclosed
    have hscan : spans opener closer 0 (strip text) = true := by
      rw [hinner]
      exact (spans_enclosed (ne_of_closerOf hcloser)).mpr hb
    have hlength : ¬ (strip text).length < 2 := by
      rw [hinner]
      simp
    simp only [envelopeOf, if_neg hlength, hfirst, hcloser, hlast, hscan, and_self, if_true]

/-- The translated line in the brackets of its source line, and in that one's frame. -/
def wrapped (opener closer : Char) (src trn : SubLine) : SubLine :=
  ⟨src.index, src.startTc, src.endTc, opener :: trn.text ++ [closer], none⟩

theorem strip_wrapped (h : closerOf opener = some closer) :
    strip (wrapped opener closer src trn).text = opener :: trn.text ++ [closer] := by
  obtain ⟨hopen, hclose⟩ := not_isSpace_of_closerOf h
  refine strip_eq_self (fun c hc => ?_) fun c hc => ?_
  · rwa [← Option.some.inj hc]
  · have hlast : (opener :: trn.text ++ [closer]).getLast? = some closer := List.getLast?_concat
    rwa [← Option.some.inj (hlast.symm.trans hc)]

theorem encloses_wrapped (h : closerOf opener = some closer) :
    Encloses opener closer (wrapped opener closer src trn).text ↔
      Balanced opener closer trn.text := by
  rw [Encloses, strip_wrapped h, enclosed_iff]
  exact and_iff_right h

theorem Encloses.isWrapped (h : Encloses opener closer text) :
    isWrapped opener closer text = true :=
  isWrapped_iff.mpr ⟨h.2.head?, h.2.getLast?⟩

theorem isWrapped_wrapped (h : closerOf opener = some closer) :
    isWrapped opener closer (wrapped opener closer src trn).text = true := by
  rw [isWrapped_iff, strip_wrapped h]
  exact ⟨rfl, List.getLast?_concat⟩

/-- The three cases of a cue. -/
theorem preserveEnvelope_cases (src trn : SubLine) :
    (preserveEnvelope src trn = trn ∧
      (trn.raw.isSome = true ∨ ∀ opener closer, ¬ Encloses opener closer src.text)) ∨
    ∃ opener closer, trn.raw = none ∧ Encloses opener closer src.text ∧
      preserveEnvelope src trn =
        if isWrapped opener closer trn.text then trn else wrapped opener closer src trn := by
  cases hraw : trn.raw with
  | some raw =>
    refine .inl ⟨?_, .inl rfl⟩
    rw [preserveEnvelope, hraw]
    rfl
  | none =>
    cases henv : envelopeOf src.text with
    | none =>
      refine .inl ⟨?_, .inr fun opener closer h => ?_⟩
      · rw [preserveEnvelope, hraw, henv]
        rfl
      · rw [envelopeOf_eq_some_iff.mpr h] at henv
        cases henv
    | some pair =>
      refine .inr ⟨pair.1, pair.2, rfl, envelopeOf_eq_some_iff.mp henv, ?_⟩
      rw [preserveEnvelope, hraw, henv]
      rfl

theorem Encloses.unique {opener' closer' : Char} (h : Encloses opener closer text)
    (h' : Encloses opener' closer' text) : opener = opener' ∧ closer = closer' := by
  rw [← envelopeOf_eq_some_iff] at h h'
  exact Prod.mk.inj (Option.some.inj (h.symm.trans h'))

theorem preserveEnvelope_idem (src trn : SubLine) :
    preserveEnvelope src (preserveEnvelope src trn) = preserveEnvelope src trn := by
  rcases preserveEnvelope_cases src trn with ⟨hsame, -⟩ | ⟨opener, closer, hraw, hsrc, hout⟩
  · rw [hsame, hsame]
  · by_cases hw : isWrapped opener closer trn.text = true
    · rw [if_pos hw] at hout
      rw [hout, hout]
    · rw [if_neg hw] at hout
      rw [hout, preserveEnvelope, envelopeOf_eq_some_iff.mpr hsrc]
      simp only [wrapped, Option.isSome_none, Bool.false_eq_true, if_false]
      exact if_pos (isWrapped_wrapped hsrc.1)

/-- A cue after the step, against its source line and its translation. -/
structure EnvelopeKept (src trn out : SubLine) : Prop where
  others : trn.raw.isSome = true ∨ (∀ opener closer, ¬ Encloses opener closer src.text) → out = trn
  frame : out = trn ∨ ∃ opener closer, Encloses opener closer src.text ∧
    out = wrapped opener closer src trn
  ends : ∀ opener closer, trn.raw = none → Encloses opener closer src.text →
    (strip out.text).head? = some opener ∧ (strip out.text).getLast? = some closer
  already : ∀ opener closer, Encloses opener closer src.text → Encloses opener closer trn.text →
    out = trn
  pair : ∀ opener closer, trn.raw = none → Encloses opener closer src.text →
    ¬ ((strip trn.text).head? = some opener ∧ (strip trn.text).getLast? = some closer) →
    (Encloses opener closer out.text ↔ Balanced opener closer trn.text)

theorem envelopeKept_preserveEnvelope (src trn : SubLine) :
    EnvelopeKept src trn (preserveEnvelope src trn) := by
  rcases preserveEnvelope_cases src trn with ⟨hsame, hwhy⟩ | ⟨opener, closer, hraw, hsrc, hout⟩
  · have hnot : ∀ opener closer, trn.raw = none → ¬ Encloses opener closer src.text := by
      rcases hwhy with hr | hnot
      · intro opener closer hraw
        rw [hraw] at hr
        cases hr
      · exact fun opener closer _ => hnot opener closer
    exact ⟨fun _ => hsame, .inl hsame, fun o c hraw h => absurd h (hnot o c hraw),
      fun _ _ _ _ => hsame, fun o c hraw h => absurd h (hnot o c hraw)⟩
  · have hothers : ¬ (trn.raw.isSome = true ∨
        ∀ opener closer, ¬ Encloses opener closer src.text) := by
      rintro (hr | hnot)
      · rw [hraw] at hr
        cases hr
      · exact hnot opener closer hsrc
    by_cases hw : isWrapped opener closer trn.text = true
    · rw [if_pos hw] at hout
      refine ⟨fun _ => hout, .inl hout, fun o c _ h => ?_, fun _ _ _ _ => hout,
        fun o c _ h hn => ?_⟩
      · obtain ⟨rfl, rfl⟩ := hsrc.unique h
        rw [hout]
        exact isWrapped_iff.mp hw
      · obtain ⟨rfl, rfl⟩ := hsrc.unique h
        exact absurd (isWrapped_iff.mp hw) hn
    · rw [if_neg hw] at hout
      refine ⟨fun h => absurd h hothers, .inr ⟨opener, closer, hsrc, hout⟩, fun o c _ h => ?_,
        fun o c h ht => ?_, fun o c _ h _ => ?_⟩
      · obtain ⟨rfl, rfl⟩ := hsrc.unique h
        rw [hout]
        exact isWrapped_iff.mp (isWrapped_wrapped hsrc.1)
      · obtain ⟨rfl, rfl⟩ := hsrc.unique h
        exact absurd ht.isWrapped hw
      · obtain ⟨rfl, rfl⟩ := hsrc.unique h
        rw [hout]
        exact encloses_wrapped hsrc.1

theorem zipWith_idem {α β : Type} {f : α → β → β} (h : ∀ a b, f a (f a b) = f a b) (as : List α)
    (bs : List β) : List.zipWith f as (List.zipWith f as bs) = List.zipWith f as bs := by
  induction as generalizing bs with
  | nil => rfl
  | cons a as ih =>
    cases bs with
    | nil => rfl
    | cons b bs => rw [List.zipWith_cons_cons, List.zipWith_cons_cons, h, ih]

/-- The lines of a document with the brackets of its source, and what a second step would add. -/
theorem envelopes_preserved (source translated : SubDoc) (settings : TrezarrSettings)
    (hlen : source.lines.length = translated.lines.length)
    (hon : settings.enableEnvelopePreservation = true) :
    ∃ lines : List SubLine,
      preserveSourceEnvelopes translated source settings = withLines translated lines ∧
      lines.length = translated.lines.length ∧
      (∀ (i : ℕ) (src trn : SubLine), source.lines[i]? = some src →
        translated.lines[i]? = some trn → ∃ out, lines[i]? = some out ∧ EnvelopeKept src trn out) ∧
      preserveSourceEnvelopes (preserveSourceEnvelopes translated source settings) source settings =
        preserveSourceEnvelopes translated source settings := by
  simp only [preserveSourceEnvelopes, if_pos hon]
  refine ⟨_, rfl, by rw [List.length_zipWith, hlen, min_self], fun i src trn hsrc htrn => ?_, ?_⟩
  · refine ⟨preserveEnvelope src trn, ?_, envelopeKept_preserveEnvelope src trn⟩
    rw [List.getElem?_zipWith, hsrc, htrn]
  · simp only [withLines, zipWith_idem preserveEnvelope_idem]

end Envelopes

/-- Two title cards, and a translation of the first with two groups of brackets. -/
def titleCards : SubDoc where
  lines := [⟨"1", "00:00:01,000", "00:00:02,000", "(Part one: the start)", none⟩,
    ⟨"2", "00:00:02,000", "00:00:03,000", "[Later]", none⟩]
  encoding := "utf-8"
  lineEnding := "\n"
  separators := []

def twoGroups : SubDoc where
  lines := [⟨"1", "00:00:01,000", "00:00:02,000", "(Phần một) mở đầu (1)", none⟩,
    ⟨"2", "00:00:02,500", "00:00:03,000", "Sau đó", none⟩]
  encoding := "utf-8"
  lineEnding := "\n"
  separators := []

theorem title_cards_preserved :
    ∃ lines : List SubLine,
      preserveSourceEnvelopes twoGroups titleCards {} = withLines twoGroups lines ∧
      lines.length = twoGroups.lines.length ∧
      (∀ (i : ℕ) (src trn : SubLine), titleCards.lines[i]? = some src →
        twoGroups.lines[i]? = some trn → ∃ out, lines[i]? = some out ∧ EnvelopeKept src trn out) ∧
      preserveSourceEnvelopes (preserveSourceEnvelopes twoGroups titleCards {}) titleCards {} =
        preserveSourceEnvelopes twoGroups titleCards {} :=
  envelopes_preserved titleCards twoGroups {} (by decide) (by decide)

/-- The first card is left with its two groups, and the second takes the source's start. -/
theorem two_groups_kept :
    (preserveSourceEnvelopes twoGroups titleCards {}).lines =
      [⟨"1", "00:00:01,000", "00:00:02,000", "(Phần một) mở đầu (1)", none⟩,
        ⟨"2", "00:00:02,000", "00:00:03,000", "[Sau đó]", none⟩] ∧
    Encloses '(' ')' "(Part one: the start)" ∧ ¬ Encloses '(' ')' "(Phần một) mở đầu (1)" := by
  refine ⟨by decide, envelopeOf_eq_some_iff.mp (by decide), fun h => ?_⟩
  rw [← envelopeOf_eq_some_iff] at h
  revert h
  decide

end Trezarr
