import Trezarr.Lib.Columns
import Trezarr.Subtitles.CueTexts
import Trezarr.Subtitles.Totality

/-! The lines of an events section and the sections of a file, taken apart and put together. -/
namespace Trezarr
open Text Regex Regex.Pattern Fallible

/-- The columns before the text column, each with the comma after it. -/
structure Columns (k : ℕ) (linePrefix : Str) (front : List Str) : Prop where
  length : front.length = k
  commaless : ∀ column ∈ front, ',' ∉ column
  eq : linePrefix = front.flatMap fun column => column ++ [',']

namespace Columns

variable {k : ℕ} {linePrefix : Str} {front : List Str}

theorem split (h : Columns k linePrefix front) (t : Str) :
    splitMax ',' k (linePrefix ++ t) = front ++ [t] := by
  rw [h.eq, ← h.length]
  exact splitMax_columns h.commaless t

theorem count (h : Columns k linePrefix front) : linePrefix.count ',' = k := by
  obtain ⟨rfl, hall, rfl⟩ := h
  induction front with
  | nil => rfl
  | cons column front ih =>
    have hrest := ih fun c hc => hall c (List.mem_cons_of_mem column hc)
    have hcolumn := List.count_eq_zero.mpr (hall column List.mem_cons_self)
    simp only [List.flatMap_cons, List.count_append, hrest, hcolumn, List.length_cons]
    simp
    omega

theorem last (h : Columns k linePrefix front) (hk : 1 ≤ k) : linePrefix.getLast? = some ',' := by
  obtain ⟨rfl, _, rfl⟩ := h
  obtain ⟨front, column, rfl⟩ := List.eq_nil_or_concat front |>.resolve_left fun hnil => by
    rw [hnil] at hk
    exact absurd hk (by simp)
  simp

end Columns

/-- Whether the next character is at the start of a line. -/
def endState (b : Bool) (s : Str) : Bool :=
  match s.getLast? with
  | none => b
  | some c => c = '\n'

theorem endState_append (b : Bool) (s t : Str) :
    endState b (s ++ t) = endState (endState b s) t := by
  unfold endState
  rw [List.getLast?_append]
  cases t.getLast? <;> simp

/-- No section starts in the text. -/
def NoHeader (b : Bool) (s : Str) : Prop := (cutSections b s).2 = []

theorem cutSections_append {s : Str} (y : Str) : ∀ {b : Bool}, NoHeader b s →
    cutSections b (s ++ y) =
      (s ++ (cutSections (endState b s) y).1, (cutSections (endState b s) y).2) := by
  induction s with
  | nil => exact fun _ => rfl
  | cons c s ih =>
    intro b h
    unfold NoHeader at h
    simp only [cutSections] at h
    split at h
    next => cases h
    next hnot =>
      have hrest := ih (b := c = '\n') h
      have hstate : endState b (c :: s) = endState (c = '\n') s := by
        have happend := endState_append b [c] s
        exact happend
      simp only [List.cons_append, cutSections, hrest, if_neg hnot, hstate]

theorem noHeader_append {s t : Str} {b : Bool} (h : NoHeader b s) (ht : NoHeader (endState b s) t) :
    NoHeader b (s ++ t) := by
  unfold NoHeader
  rw [cutSections_append t h]
  exact ht

theorem noHeader_of_append {s t : Str} : ∀ {b : Bool}, NoHeader b (s ++ t) →
    NoHeader b s ∧ NoHeader (endState b s) t := by
  induction s with
  | nil => exact fun h => ⟨rfl, h⟩
  | cons c s ih =>
    intro b h
    unfold NoHeader at h ⊢
    simp only [List.cons_append, cutSections] at h ⊢
    split at h
    next => cases h
    next hnot =>
      obtain ⟨hs, ht⟩ := ih (b := c = '\n') h
      have hstate : endState b (c :: s) = endState (c = '\n') s := endState_append b [c] s
      rw [if_neg hnot, hstate]
      exact ⟨hs, ht⟩

/-- A text in one line starts a section only at its first character. -/
theorem noHeader_line {s : Str} : ∀ {b : Bool}, (∀ c ∈ s.dropLast, c ≠ '\n') →
    (b = true → s.head? ≠ some '[') → NoHeader b s := by
  induction s with
  | nil => exact fun _ _ => rfl
  | cons c s ih =>
    intro b hlines hhead
    have hnot : ¬ (b = true ∧ c = '[') := by
      rintro ⟨hb, rfl⟩
      exact hhead hb rfl
    unfold NoHeader
    simp only [cutSections, if_neg hnot]
    cases s with
    | nil => rfl
    | cons d s =>
      rw [List.dropLast_cons_cons] at hlines
      have hc : c ≠ '\n' := hlines c List.mem_cons_self
      exact ih (fun e he => hlines e (List.mem_cons_of_mem c he)) (fun hb => by simp [hc] at hb)

/-- Texts that each start a section at the start of a line, and no other. -/
def SectionsAt : Bool → List Str → Prop
  | _, [] => True
  | b, text :: texts =>
    b = true ∧ text.head? = some '[' ∧ NoHeader false text ∧ SectionsAt (endState false text) texts

theorem cutSections_spec (s : Str) : ∀ b, NoHeader b (cutSections b s).1 ∧
    SectionsAt (endState b (cutSections b s).1) (cutSections b s).2 := by
  induction s with
  | nil => exact fun b => ⟨rfl, trivial⟩
  | cons c s ih =>
    intro b
    obtain ⟨hfront, hsections⟩ := ih (c = '\n')
    simp only [cutSections]
    split
    next hstart =>
      refine ⟨rfl, hstart.1, by simp [hstart.2], ?_, ?_⟩
      · unfold NoHeader
        simp only [cutSections, Bool.false_eq_true, false_and, if_false]
        exact hfront
      · have hstate := endState_append false [c] (cutSections (c = '\n') s).1
        rw [List.singleton_append] at hstate
        rw [hstate]
        exact hsections
    next hnot =>
      refine ⟨?_, ?_⟩
      · unfold NoHeader
        simp only [cutSections, if_neg hnot]
        exact hfront
      · have hstate := endState_append b [c] (cutSections (c = '\n') s).1
        rw [List.singleton_append] at hstate
        rw [hstate]
        exact hsections

theorem cutSections_flatten {texts : List Str} : ∀ {b : Bool}, SectionsAt b texts →
    cutSections b texts.flatten = ([], texts) := by
  induction texts with
  | nil => exact fun _ => rfl
  | cons text texts ih =>
    rintro b ⟨rfl, hhead, hno, hrest⟩
    obtain ⟨body, rfl⟩ := List.head?_eq_some_iff.mp hhead
    have hbody := cutSections_append texts.flatten hno
    rw [ih hrest] at hbody
    simp only [List.cons_append, cutSections, Bool.false_eq_true, false_and, if_false] at hbody
    simp only [List.flatten_cons, List.cons_append, cutSections, true_and, if_true]
    obtain ⟨hfront, htexts⟩ := Prod.mk.inj hbody
    rw [htexts, hfront, List.append_nil]

/-- The sections are found where they start. -/
theorem cutSections_eq {front : Str} {texts : List Str} {b : Bool} (hfront : NoHeader b front)
    (h : SectionsAt (endState b front) texts) :
    cutSections b (front ++ texts.flatten) = (front, texts) := by
  rw [cutSections_append _ hfront, cutSections_flatten h, List.append_nil]

theorem sectionsAt_append {texts : List Str} (rest : List Str) : ∀ {b : Bool},
    SectionsAt b (texts ++ rest) ↔
      SectionsAt b texts ∧ SectionsAt (endState b texts.flatten) rest := by
  induction texts with
  | nil => exact fun {b} => by simp [SectionsAt, endState]
  | cons text texts ih =>
    intro b
    simp only [List.cons_append, SectionsAt, List.flatten_cons, endState_append, ih]
    constructor
    · rintro ⟨hb, hhead, hno, htexts, hrest⟩
      refine ⟨⟨hb, hhead, hno, htexts⟩, ?_⟩
      have hsame : endState b text = endState false text := by
        obtain ⟨body, rfl⟩ := List.head?_eq_some_iff.mp hhead
        simp [endState, List.getLast?_cons]
      rwa [hsame]
    · rintro ⟨⟨hb, hhead, hno, htexts⟩, hrest⟩
      have hsame : endState b text = endState false text := by
        obtain ⟨body, rfl⟩ := List.head?_eq_some_iff.mp hhead
        simp [endState, List.getLast?_cons]
      rw [hsame] at hrest
      exact ⟨hb, hhead, hno, htexts, hrest⟩

/-- Lines that are the lines of the text they make. -/
inductive Spanned : List (Str × Str) → Prop
  | nil : Spanned []
  | cons {line ending : Str} {spans : List (Str × Str)}
    (hline : ∀ c ∈ line, isLineBreak c = false) (hend : LineEnd ending (flat spans))
    (hne : line ++ ending ≠ []) (hrest : Spanned spans) : Spanned ((line, ending) :: spans)

theorem Spanned.tail {span : Str × Str} {spans : List (Str × Str)}
    (h : Spanned (span :: spans)) : Spanned spans := by
  cases h
  assumption

theorem Spanned.eq_nil {spans : List (Str × Str)} (h : Spanned spans) (hflat : flat spans = []) :
    spans = [] := by
  cases h with
  | nil => rfl
  | cons _ _ hne _ =>
    rw [flat_cons, ← List.append_assoc] at hflat
    exact absurd (List.append_eq_nil_iff.mp hflat).1 hne

theorem lineSpans_single {c : Char} {s : Str} (hc : isLineBreak c = true)
    (hs : c = '\r' → s.head? ≠ some '\n') : lineSpans (c :: s) = ([], [c]) :: lineSpans s := by
  rw [lineSpans]
  · exact if_pos hc
  · rintro t rfl rfl
    exact absurd rfl (hs rfl)

theorem lineSpans_ended {ending s line : Str} (hend : LineEnd ending s) (hne : ending ≠ [])
    (hline : ∀ c ∈ line, isLineBreak c = false) :
    lineSpans (line ++ (ending ++ s)) = (line, ending) :: lineSpans s := by
  induction line with
  | nil =>
    cases hend with
    | crlf => rfl
    | single hc hrest => exact lineSpans_single hc hrest
    | finish => exact absurd rfl hne
  | cons c line ih =>
    rw [List.cons_append, lineSpans_cons_of_no_break (hline c List.mem_cons_self),
      ih fun d hd => hline d (List.mem_cons_of_mem c hd)]

theorem lineSpans_flat {spans : List (Str × Str)} (h : Spanned spans) :
    lineSpans (flat spans) = spans := by
  induction h with
  | nil => rfl
  | @cons line ending spans hline hend hne hrest ih =>
    rw [flat_cons]
    by_cases hnil : ending = []
    · subst hnil
      have hflat : flat spans = [] := by
        generalize flat spans = s at hend
        cases hend
        rfl
      have hspans := hrest.eq_nil hflat
      subst hspans
      rw [List.append_nil] at hne
      rw [hflat, List.append_nil, List.append_nil]
      exact lineSpans_last hline hne
    · rw [lineSpans_ended hend hnil hline, ih]

theorem flat_lineSpans (s : Str) : flat (lineSpans s) = s := flatten_lineSpans s

theorem spanned_lineSpans (s : Str) : Spanned (lineSpans s) := by
  induction hn : s.length using Nat.strong_induction_on generalizing s with
  | _ n ih =>
    cases hspans : lineSpans s with
    | nil => exact .nil
    | cons span spans =>
      obtain ⟨line, ending⟩ := span
      obtain ⟨rest, hs, hrest, hend⟩ := lineSpans_cons hspans
      have hne : line ++ ending ≠ [] := by
        intro hnil
        obtain ⟨rfl, rfl⟩ := List.append_eq_nil_iff.mp hnil
        cases hend
        rw [hs] at hspans
        cases hspans
      have hlt : rest.length < n := by
        have hpos := List.length_pos_iff.mpr hne
        have hlen := congrArg List.length hs
        simp only [List.length_append] at hlen hpos
        omega
      rw [hrest]
      refine .cons (fun c hc => ?_) (by rwa [flat_lineSpans]) hne (ih _ hlt rest rfl)
      exact not_isLineBreak_of_mem_line (s := s) (line, ending) (by simp [hspans]) c hc

end Trezarr
