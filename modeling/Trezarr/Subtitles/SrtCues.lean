import Trezarr.Subtitles.Clocks
import Trezarr.Subtitles.CueTexts
import Trezarr.Subtitles.SrtIdentity

/-! The cues of the SubRip reader, written and read again. -/
namespace Trezarr
open Text Regex Regex.Pattern

/-- The number and the clocks of a cue, as the reader takes them. -/
structure SrtCue (line : SubLine) : Prop where
  number : (matchStart indexRe line.index).isSome
  stripped : strip line.index = line.index
  oneLine : ∀ c ∈ line.index, isLineBreak c = false
  starts : IsClock line.startTc
  ends : IsClock line.endTc

theorem srtCue_parseBlock {block : Str} (h : (parseBlock block).raw = none) :
    SrtCue (parseBlock block) := by
  by_cases hheader : ∃ index tcLine tc, Header block index tcLine tc
  · obtain ⟨index, tcLine, tc, hheader⟩ := hheader
    obtain ⟨text, _, hparse⟩ := hheader.exists_text
    have hclocks := (tcLine_of_fullMatch hheader.clocks).clocks
    rw [hparse]
    exact ⟨hheader.number, strip_strip index,
      fun c hc => hheader.no_break_index c (mem_of_mem_strip hc), hclocks.1, hclocks.2⟩
  · push Not at hheader
    rw [(parseBlock_kept hheader).2] at h
    cases h

def timingLine (line : SubLine) : Str := line.startTc ++ " --> " ++ line.endTc

theorem renderBlock_cue {le : Str} {line : SubLine} (h : line.raw = none) :
    renderBlock le line = line.index ++ (le ++ (timingLine line ++ (le ++ line.text))) := by
  unfold renderBlock
  rw [h]
  simp [timingLine]

theorem IsClock.last {g : Str} (h : IsClock g) (s : Str) :
    ∃ c, (s ++ g).getLast? = some c ∧ isDigit c = true := by
  cases h with
  | @mk a b c d e f p x fraction hours minutes seconds point hx hfraction =>
    have hne : x :: fraction ≠ [] := List.cons_ne_nil x fraction
    refine ⟨(x :: fraction).getLast hne, ?_, ?_⟩
    · simp [List.getLast?_append, List.getLast?_cons_cons, List.getLast?_eq_getLast_of_ne_nil hne]
    · rcases List.mem_cons.mp (List.getLast_mem hne) with heq | hmem
      · rw [heq]
        exact hx
      · exact hfraction _ hmem

theorem not_isLineBreak_of_isDigit {c : Char} (h : isDigit c = true) : isLineBreak c = false := by
  cases hc : isLineBreak c with
  | false => rfl
  | true =>
    have hspace := isSpace_of_isLineBreak hc
    rw [not_isSpace_of_isDigit h] at hspace
    cases hspace

theorem IsClock.no_break {g : Str} (h : IsClock g) : ∀ c ∈ g, isLineBreak c = false := by
  cases h with
  | @mk a b c d e f p x fraction hours minutes seconds point hx hfraction =>
    have hcolon : isLineBreak ':' = false := by decide
    have hpoint : isLineBreak p = false := by
      have hp : p = ',' ∨ p = '.' := by simpa using point
      rcases hp with rfl | rfl <;> decide
    have hdigits : ∀ y ∈ fraction, isLineBreak y = false :=
      fun y hy => not_isLineBreak_of_isDigit (hfraction y hy)
    have hdigit := fun {y : Char} => not_isLineBreak_of_isDigit (c := y)
    simp only [List.forall_mem_cons]
    exact ⟨hdigit hours.1, hdigit hours.2, hcolon, hdigit minutes.1, hdigit minutes.2, hcolon,
      hdigit seconds.1, hdigit seconds.2, hpoint, hdigit hx, hdigits⟩

namespace SrtCue

variable {line : SubLine}

theorem tcLine (h : SrtCue line) : TcLine line.startTc line.endTc (timingLine line) := by
  have hspace : ∀ c ∈ [' '], isSpace c = true := by simp; decide
  have hline := TcLine.mk h.starts hspace hspace h.ends
  simpa [timingLine] using hline

theorem strip_timingLine (h : SrtCue line) : strip (timingLine line) = timingLine line := by
  apply strip_eq_self
  · intro c hc
    apply not_isSpace_of_clock (x := " --> ".toList ++ line.endTc) h.starts
    simpa [timingLine] using hc
  · intro c hc
    obtain ⟨d, hd, hdigit⟩ := h.ends.last (line.startTc ++ " --> ")
    cases hc.symm.trans hd
    exact not_isSpace_of_isDigit hdigit

theorem no_break_timingLine (h : SrtCue line) : ∀ c ∈ timingLine line, isLineBreak c = false := by
  intro c hc
  simp only [timingLine, List.mem_append] at hc
  rcases hc with (hc | hc) | hc
  · exact h.starts.no_break c hc
  · have hc' : c ∈ [' ', '-', '-', '>', ' '] := hc
    fin_cases hc' <;> rfl
  · exact h.ends.no_break c hc

end SrtCue

/-- A cue is written so that it is read again. -/
theorem parseBlock_renderBlock {le : Str} {line : SubLine} (hle : IsNewline le)
    (hcue : SrtCue line) (hraw : line.raw = none)
    (h : le = ['\n'] → NoReturns line.text) :
    parseBlock (renderBlock le line) = line := by
  have hblock : renderBlock le line = _ := renderBlock_cue hraw
  have hends : detectLineEnding (renderBlock le line) = le := by
    rw [detectLineEnding_eq hle, hblock, noReturns_line hcue.oneLine, noReturns_newline hle,
      noReturns_line hcue.no_break_timingLine, noReturns_newline hle]
    exact ⟨fun heq => ⟨heq, heq, h heq⟩, fun hno => hno.1⟩
  obtain ⟨tc, htc, hone, htwo⟩ := fullMatch_of_tcLine hcue.tcLine
  have hheader : Header (renderBlock le line) line.index (timingLine line) tc := by
    refine ⟨⟨splitlines line.text, ?_⟩, ?_, ?_, ?_⟩
    · rw [hblock, splitlines, lineSpans_newline hle hcue.oneLine,
        lineSpans_newline hle hcue.no_break_timingLine]
      rfl
    · rw [hcue.strip_timingLine]
      exact htc
    · rw [hcue.stripped]
      exact hcue.number
    · rw [hends, hblock]
      exact ⟨line.text, by simp⟩
  obtain ⟨text, htext, hparse⟩ := hheader.exists_text
  rw [hends, hblock] at htext
  simp only [List.append_cancel_left_eq] at htext
  rw [hparse, hcue.stripped, hone, htwo, ← htext, ← hraw]

namespace SrtCue

variable {line : SubLine}

theorem head (h : SrtCue line) : ∃ c rest, line.index = c :: rest ∧ isSpace c = false := by
  cases hindex : line.index with
  | nil =>
    have hnumber := h.number
    rw [hindex] at hnumber
    cases hnumber
  | cons c rest =>
    refine ⟨c, rest, rfl, head_strip (s := line.index) ?_⟩
    rw [h.stripped, hindex]
    rfl

theorem blankLine?_renderBlock (h : SrtCue line) (hraw : line.raw = none) (le s : Str) :
    blankLine? (renderBlock le line ++ s) = none := by
  obtain ⟨c, rest, hindex, hc⟩ := h.head
  rw [renderBlock_cue hraw, hindex]
  exact blankLine?_of_not_space hc _

theorem renderBlock_ne_nil (h : SrtCue line) (hraw : line.raw = none) (le : Str) :
    renderBlock le line ≠ [] := by
  obtain ⟨c, rest, hindex, hc⟩ := h.head
  rw [renderBlock_cue hraw, hindex]
  exact List.cons_ne_nil _ _

theorem blankLine?_timingLine (h : SrtCue line) (s : Str) :
    blankLine? (timingLine line ++ s) = none := by
  obtain ⟨c, hc, hdigit⟩ := h.starts.head (" --> ".toList ++ line.endTc ++ s)
  have htiming : timingLine line ++ s = line.startTc ++ (" --> ".toList ++ line.endTc ++ s) := by
    simp [timingLine]
  rw [htiming]
  cases hfront : line.startTc ++ (" --> ".toList ++ line.endTc ++ s) with
  | nil =>
    rw [hfront] at hc
    cases hc
  | cons d rest =>
    rw [hfront] at hc
    cases hc
    exact blankLine?_of_not_space (not_isSpace_of_isDigit hdigit) rest

/-- A separator in a cue starts at its text. -/
theorem noMatchIn_renderBlock (h : SrtCue line) (hraw : line.raw = none) {le : Str}
    (hle : IsNewline le) (s : Str) :
    sepRe.NoMatchIn (renderBlock le line) s ↔ sepRe.NoMatchIn ('\n' :: line.text) s := by
  rw [renderBlock_cue hraw, noMatchIn_line h.oneLine, noMatchIn_newline hle, NoMatchIn,
    noMatchIn_line h.no_break_timingLine, noMatchIn_newline hle]
  apply and_iff_right
  have hblank := h.blankLine?_timingLine (le ++ line.text ++ s)
  rw [List.cons_append]
  apply rests_sepRe_newline_eq_nil
  simpa using hblank

end SrtCue

theorem SrtCue.noMatchIn_trailRe {line : SubLine} (h : SrtCue line) (hraw : line.raw = none)
    {le : Str} (hle : IsNewline le) (s : Str) :
    trailRe.NoMatchIn (renderBlock le line) s ↔ trailRe.NoMatchIn ('\n' :: line.text) s := by
  obtain ⟨c, hc, hdigit⟩ := h.ends.last (line.index ++ (le ++ (line.startTc ++ " --> ")))
  have hfront := noMatchIn_trailRe_of_last hc (not_isSpace_of_isDigit hdigit) (le ++ line.text ++ s)
  have hblock : renderBlock le line =
      line.index ++ (le ++ (line.startTc ++ " --> ")) ++ line.endTc ++ (le ++ line.text) := by
    rw [renderBlock_cue hraw]
    simp [timingLine]
  rw [hblock, noMatchIn_append, noMatchIn_trailRe_newline hle]
  exact and_iff_right hfront

theorem parseBlock_raw {block raw : Str} (h : (parseBlock block).raw = some raw) : raw = block := by
  by_cases hheader : ∃ index tcLine tc, Header block index tcLine tc
  · obtain ⟨index, tcLine, tc, hheader⟩ := hheader
    obtain ⟨text, _, hparse⟩ := hheader.exists_text
    rw [hparse] at h
    cases h
  · push Not at hheader
    rw [(parseBlock_kept hheader).2] at h
    exact (Option.some.inj h).symm

/-- In a document of line feeds, cues of line feeds are written with line feeds. -/
theorem SrtCue.noReturns_renderBlock {line : SubLine} (h : SrtCue line) (hraw : line.raw = none)
    {s : Str} (htext : NoReturns line.text)
    (hlast : ¬ (line.text.getLast? = some '\r' ∧ s.head? = some '\n')) (hs : NoReturns s) :
    NoReturns (renderBlock ['\n'] line ++ s) := by
  rw [renderBlock_cue hraw]
  have hback : NoReturns (line.text ++ s) := noReturns_append.mpr ⟨htext, hs, hlast⟩
  simp only [List.append_assoc]
  rw [noReturns_line h.oneLine, noReturns_newline .lf, noReturns_line h.no_break_timingLine,
    noReturns_newline .lf]
  exact ⟨rfl, rfl, hback⟩

end Trezarr
