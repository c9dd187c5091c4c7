import Trezarr.Lib.Lines
import Trezarr.Subtitles.Framing

/-! Texts that stay inside their cue: the blank lines and line ends they may not make. -/
namespace Trezarr
open Text Regex Regex.Pattern

/-- No carriage return is left before a line feed. -/
def NoReturns (s : Str) : Prop := contains s "\r\n" = false

instance (s : Str) : Decidable (NoReturns s) := inferInstanceAs (Decidable (_ = _))

theorem NoReturns.of_within {s t : Str} (h : NoReturns s) (hin : t <:+: s) : NoReturns t := by
  unfold NoReturns contains at h ⊢
  rw [decide_eq_false_iff_not] at h ⊢
  exact fun hreturns => h (hreturns.trans hin)

/-- A text that ends no cue early: no blank line is in it, or made with what is after it. -/
structure Fits (lineEnding text after : Str) : Prop where
  returns : lineEnding = ['\n'] → NoReturns text
  inside : sepRe.NoMatchIn ('\n' :: text) after

/-- The last cue gives nothing to the blank line that ends the file. -/
def EndsCue (text trailer : Str) : Prop :=
  ¬ IsSep trailer → trailRe.NoMatchIn ('\n' :: text) trailer

theorem rests_sepRe_newline {le : Str} (hle : IsNewline le) (s : Str) :
    sepRe.rests (le ++ s) = sepRe.rests ('\n' :: s) := by
  cases hle with
  | lf => rfl
  | crlf => simp [rests_sepRe, newline?]

theorem rests_sepRe_other {c : Char} (hn : c ≠ '\n') (hr : c ≠ '\r') (s : Str) :
    sepRe.rests (c :: s) = [] := by
  rw [rests_sepRe]
  have hnone : newline? (c :: s) = none := by
    unfold newline?
    split
    next heq => exact absurd (List.cons.inj heq).1 hn
    next heq => exact absurd (List.cons.inj heq).1 hr
    next => rfl
  rw [hnone]
  rfl

/-- No separator starts in a line. -/
theorem noMatchIn_line {line : Str} (h : ∀ c ∈ line, isLineBreak c = false) (u s : Str) :
    sepRe.NoMatchIn (line ++ u) s ↔ sepRe.NoMatchIn u s := by
  induction line with
  | nil => rfl
  | cons c line ih =>
    have hc := h c List.mem_cons_self
    have hn : c ≠ '\n' := by
      rintro rfl
      exact absurd hc (by decide)
    have hr : c ≠ '\r' := by
      rintro rfl
      exact absurd hc (by decide)
    rw [List.cons_append, NoMatchIn, ih fun d hd => h d (List.mem_cons_of_mem c hd)]
    exact and_iff_right (rests_sepRe_other hn hr (line ++ u ++ s))

theorem noMatchIn_newline {le : Str} (hle : IsNewline le) (u s : Str) :
    sepRe.NoMatchIn (le ++ u) s ↔ sepRe.NoMatchIn ('\n' :: u) s := by
  cases hle with
  | lf => rfl
  | crlf =>
    have hrests : sepRe.rests ('\r' :: '\n' :: (u ++ s)) = sepRe.rests ('\n' :: (u ++ s)) :=
      rests_sepRe_newline .crlf (u ++ s)
    simp only [List.cons_append, List.nil_append, NoMatchIn, hrests]
    exact and_self_left

theorem contains_crlf_append {a b : Str} : contains (a ++ b) "\r\n" = true ↔
    contains a "\r\n" = true ∨ contains b "\r\n" = true ∨
      a.getLast? = some '\r' ∧ b.head? = some '\n' := by
  have hcut : ∀ l₁ l₂ : Str, l₁ ≠ [] ∧ l₂ ≠ [] ∧ ("\r\n" : Str) = l₁ ++ l₂ ∧ l₁ <:+ a ∧ l₂ <+: b →
      a.getLast? = some '\r' ∧ b.head? = some '\n' := by
    rintro l₁ l₂ ⟨hne, hne', heq, ⟨u, rfl⟩, ⟨v, rfl⟩⟩
    have hchars : ['\r', '\n'] = l₁ ++ l₂ := heq
    cases l₁ with
    | nil => exact absurd rfl hne
    | cons c l₁ =>
      cases l₁ with
      | nil =>
        cases hchars
        exact ⟨by simp, rfl⟩
      | cons d l₁ =>
        have hnil : l₁ ++ l₂ = [] := (List.cons.inj (List.cons.inj hchars).2).2.symm
        exact absurd (List.append_eq_nil_iff.mp hnil).2 hne'
  simp only [contains, decide_eq_true_eq]
  rw [List.infix_append_iff_ne_nil]
  constructor
  · rintro (ha | hb | ⟨l₁, l₂, h⟩)
    · exact .inl ha
    · exact .inr (.inl hb)
    · exact .inr (.inr (hcut l₁ l₂ h))
  · rintro (ha | hb | ⟨ha, hb⟩)
    · exact .inl ha
    · exact .inr (.inl hb)
    · obtain ⟨u, rfl⟩ := List.getLast?_eq_some_iff.mp ha
      obtain ⟨v, rfl⟩ := List.head?_eq_some_iff.mp hb
      exact .inr (.inr ⟨['\r'], ['\n'], by simp, by simp, rfl, ⟨u, rfl⟩, ⟨v, rfl⟩⟩)

theorem detectLineEnding_eq {s le : Str} (hle : IsNewline le) :
    detectLineEnding s = le ↔ (le = ['\n'] ↔ NoReturns s) := by
  unfold detectLineEnding NoReturns
  cases hle with
  | lf =>
    cases contains s "\r\n" <;> decide
  | crlf =>
    cases contains s "\r\n" <;> decide

theorem lineSpans_newline {le line : Str} (hle : IsNewline le)
    (h : ∀ c ∈ line, isLineBreak c = false) (s : Str) :
    lineSpans (line ++ (le ++ s)) = (line, le) :: lineSpans s := by
  cases hle with
  | lf => exact lineSpans_line h s
  | crlf =>
    induction line with
    | nil => rfl
    | cons c line ih =>
      rw [List.cons_append, lineSpans_cons_of_no_break (h c List.mem_cons_self),
        ih fun d hd => h d (List.mem_cons_of_mem c hd)]

theorem noReturns_append {a b : Str} : NoReturns (a ++ b) ↔
    NoReturns a ∧ NoReturns b ∧ ¬ (a.getLast? = some '\r' ∧ b.head? = some '\n') := by
  unfold NoReturns
  rw [← Bool.not_eq_true, ← Bool.not_eq_true, ← Bool.not_eq_true, contains_crlf_append]
  tauto

theorem noReturns_line {line : Str} (h : ∀ c ∈ line, isLineBreak c = false) (s : Str) :
    NoReturns (line ++ s) ↔ NoReturns s := by
  have hfront : NoReturns line := by
    unfold NoReturns contains
    rw [decide_eq_false_iff_not]
    intro hinside
    have hbreak := h '\n' (hinside.subset (by simp))
    exact absurd hbreak (by decide)
  have hend : line.getLast? ≠ some '\r' := by
    intro hlast
    have hbreak := h '\r' (List.mem_of_getLast? hlast)
    exact absurd hbreak (by decide)
  rw [noReturns_append]
  exact ⟨fun hno => hno.2.1, fun hno => ⟨hfront, hno, fun hcut => hend hcut.1⟩⟩

theorem noReturns_newline {le : Str} (hle : IsNewline le) (s : Str) :
    NoReturns (le ++ s) ↔ le = ['\n'] ∧ NoReturns s := by
  rw [noReturns_append]
  cases hle with
  | lf =>
    have hfront : NoReturns ['\n'] := by decide
    simp [hfront]
  | crlf =>
    have hfront : ¬ NoReturns ['\r', '\n'] := by decide
    simp [hfront]

theorem blankLine?_of_not_space {c : Char} (h : isSpace c = false) (s : Str) :
    blankLine? (c :: s) = none := by
  cases hblank : blankLine? (c :: s) with
  | none => rfl
  | some r =>
    obtain ⟨l, hl, heq⟩ := blankLine?_some.mp hblank
    have hc : c ∈ l := by
      obtain ⟨w, nl, _, hnl, rfl⟩ := hl
      cases w with
      | nil => cases hnl <;> simp_all
      | cons d w => simp_all
    rw [hl.isSpace c hc] at h
    cases h

/-- A line that shows something is not blank. -/
theorem blankLine?_of_visible {line : Str} (hno : ∀ c ∈ line, isLineBreak c = false)
    (h : ∃ c ∈ line, isSpaceOrTab c = false) (s : Str) : blankLine? (line ++ s) = none := by
  cases hblank : blankLine? (line ++ s) with
  | none => rfl
  | some r =>
    obtain ⟨l, ⟨w, nl, hw, hnl, rfl⟩, heq⟩ := blankLine?_some.mp hblank
    obtain ⟨c, hc, hvisible⟩ := h
    rw [List.append_assoc] at heq
    have hlast : ∃ e ∈ nl, isLineBreak e = true ∧ nl.head? = some e := by
      cases hnl with
      | lf => exact ⟨_, List.mem_cons_self, by decide, rfl⟩
      | crlf => exact ⟨_, List.mem_cons_self, by decide, rfl⟩
    obtain ⟨e, he, hbreak, hhead⟩ := hlast
    rcases List.append_eq_append_iff.mp heq with ⟨z, hz, _⟩ | ⟨z, hz, hrest⟩
    · rw [hw c (by rw [hz]; exact List.mem_append_left z hc)] at hvisible
      cases hvisible
    · cases z with
      | nil =>
        rw [hz, List.append_nil] at hc
        rw [hw c hc] at hvisible
        cases hvisible
      | cons d z =>
        obtain ⟨rest, rfl⟩ := List.head?_eq_some_iff.mp hhead
        obtain ⟨rfl, _⟩ := List.cons.inj hrest
        rw [hno _ (by rw [hz]; simp)] at hbreak
        cases hbreak

theorem rests_sepRe_newline_eq_nil {s : Str} (h : blankLine? s = none) :
    sepRe.rests ('\n' :: s) = [] := by
  rw [rests_sepRe]
  simp [newline?, h]

theorem rests_trailRe_eq_nil {s : Str} : trailRe.rests s = [] ↔ ¬ (BlankLines s ∧ s ≠ []) := by
  have hhead := head_trailRe (s := s) (r := [])
  constructor
  · intro h hblank
    rw [h] at hhead
    cases hhead.mpr ⟨rfl, hblank⟩
  · intro h
    cases hrests : trailRe.rests s with
    | nil => rfl
    | cons r rs =>
      have hr := head_trailRe (s := s) (r := r)
      rw [hrests] at hr
      exact absurd (hr.mp rfl).2 h

/-- The blank lines at the end start after what is no white space. -/
theorem noMatchIn_trailRe_of_last {t : Str} {c : Char} (hlast : t.getLast? = some c)
    (hc : isSpace c = false) (s : Str) : trailRe.NoMatchIn t s := by
  induction t with
  | nil => trivial
  | cons d t ih =>
    refine ⟨rests_trailRe_eq_nil.mpr fun hblank => ?_, ?_⟩
    · have hmem : c ∈ d :: t ++ s := List.mem_append_left s (List.mem_of_getLast? hlast)
      rw [hblank.1.isSpace c hmem] at hc
      cases hc
    · cases t with
      | nil => trivial
      | cons e t => exact ih (by rwa [List.getLast?_cons_cons] at hlast)

theorem noMatchIn_trailRe_newline {le : Str} (hle : IsNewline le) (u s : Str) :
    trailRe.NoMatchIn (le ++ u) s ↔ trailRe.NoMatchIn ('\n' :: u) s := by
  cases hle with
  | lf => rfl
  | crlf =>
    have hrests : trailRe.rests ('\r' :: '\n' :: (u ++ s)) = trailRe.rests ('\n' :: (u ++ s)) := by
      rw [rests_trailRe, rests_trailRe]
      rfl
    simp only [List.cons_append, List.nil_append, NoMatchIn, hrests]
    exact and_self_left

theorem isSep_rests {S : Str} (h : IsSep S) : sepRe.rests S ≠ [] := by
  obtain ⟨nl, B, hnl, hB, hne, rfl⟩ := h
  cases hB with
  | nil => exact absurd rfl hne
  | @cons l s hl hs => exact rests_sepRe_ne_nil.mpr ⟨nl, l, s, hnl, hl, rfl⟩

/-- Whether a text starts with a blank line is settled by its first line end. -/
theorem blankLine?_append_sep {u S : Str} (hS : IsSep S) (r r' : Str)
    (h : blankLine? (u ++ (S ++ r)) = none) : blankLine? (u ++ (S ++ r')) = none := by
  cases hblank : blankLine? (u ++ (S ++ r')) with
  | none => rfl
  | some x =>
    obtain ⟨l, hl, heq⟩ := blankLine?_some.mp hblank
    have hcount : l.count '\n' ≤ (u ++ S).count '\n' := by
      have hsep := hS.count
      rw [List.count_append, hl.count]
      omega
    obtain ⟨z, hz⟩ := prefix_of_count (a := l) (b := x) (x := u ++ S) (y := r')
      (by simpa using heq.symm) hl.ends hcount
    rw [← List.append_assoc, hz, List.append_assoc, hl.blankLine?] at h
    cases h

theorem BlankLines.last {B : Str} (h : BlankLines B) : B.getLast? ≠ some '\r' := by
  induction h with
  | nil => simp
  | @cons l s hl hs ih =>
    cases hs with
    | nil =>
      obtain ⟨front, rfl⟩ := hl.ends
      simp
    | @cons l' s' hl' hs' =>
      obtain ⟨front, rfl⟩ := hl'.ends
      rw [List.getLast?_append_of_ne_nil _ (by simp)]
      exact ih

/-- A carriage return at the end of a text would be part of the separator. -/
theorem Fits.last {le text S : Str} (h : Fits le text S) (hS : IsSep S) :
    ¬ (text.getLast? = some '\r' ∧ S.head? = some '\n') := by
  rintro ⟨hlast, hhead⟩
  obtain ⟨front, rfl⟩ := List.getLast?_eq_some_iff.mp hlast
  have hno : sepRe.NoMatchIn ['\r'] S := by
    have hinside := h.inside
    rw [← List.cons_append, noMatchIn_append] at hinside
    exact hinside.2
  obtain ⟨nl, B, hnl, hB, hne, rfl⟩ := hS
  cases hnl with
  | crlf => cases hhead
  | lf =>
    cases hB with
    | nil => exact absurd rfl hne
    | @cons l s hl hs => exact rests_sepRe_ne_nil.mpr ⟨_, l, s, .crlf, hl, rfl⟩ hno.1

theorem EndsCue.last {text trailer : Str} (h : EndsCue text trailer) (hsep : ¬ IsSep trailer)
    (hblank : BlankLines trailer) : ¬ (text.getLast? = some '\r' ∧ trailer.head? = some '\n') := by
  rintro ⟨hlast, hhead⟩
  obtain ⟨front, rfl⟩ := List.getLast?_eq_some_iff.mp hlast
  have hno : trailRe.NoMatchIn ['\r'] trailer := by
    have hinside := h hsep
    rw [← List.cons_append, noMatchIn_append] at hinside
    exact hinside.2
  refine rests_trailRe_eq_nil.mp hno.1 ⟨?_, List.cons_ne_nil _ _⟩
  cases hblank with
  | nil => cases hhead
  | @cons l s hl hs =>
    obtain ⟨w, nl, hw, hnl, rfl⟩ := hl
    cases w with
    | cons c w =>
      cases hhead
      exact absurd (hw '\n' List.mem_cons_self) (by decide)
    | nil =>
      cases hnl with
      | crlf => cases hhead
      | lf =>
        have hlines : BlankLines (['\r', '\n'] ++ s) := .cons IsNewline.crlf.blankLine hs
        exact hlines

/-- Pieces put together with what ends each of them. -/
def flat (ps : List (Str × Str)) : Str := (ps.map fun b => b.1 ++ b.2).flatten

theorem flat_cons (block sep : Str) (ps : List (Str × Str)) :
    flat ((block, sep) :: ps) = block ++ (sep ++ flat ps) := by
  simp [flat]

end Trezarr
