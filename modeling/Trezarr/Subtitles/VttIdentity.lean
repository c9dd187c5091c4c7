import Trezarr.Lib.Lines
import Trezarr.Subtitles.Framing
import Trezarr.Subtitles.Vtt

/-! Which texts the WebVTT writer gives back as they were read. -/
namespace Trezarr
open Text Regex Regex.Pattern

/-- A block whose timing line is its first or second line, and what is after that line. -/
inductive TimingAt : Str → Option Str → Str → Str → Prop
  | first {timing e rest : Str} (hno : ∀ c ∈ timing, isLineBreak c = false) (hne : timing ≠ [])
    (hend : LineEnd e rest) : TimingAt (timing ++ (e ++ rest)) none timing (e ++ rest)
  | second {identifier e timing e' rest : Str} (hid : ∀ c ∈ identifier, isLineBreak c = false)
    (hend : LineEnd e (timing ++ (e' ++ rest))) (hno : ∀ c ∈ timing, isLineBreak c = false)
    (hne : timing ≠ []) (hend' : LineEnd e' rest) :
    TimingAt (identifier ++ (e ++ (timing ++ (e' ++ rest)))) (some identifier) timing (e' ++ rest)

theorem ne_nil_of_contains_arrow {line : Str} (h : contains line "-->" = true) : line ≠ [] := by
  rintro rfl
  cases h

theorem timingAt_of_timingOf {block timing : Str} {identifierLine : Option Str}
    (h : timingOf (splitlines block) = some (identifierLine, timing)) :
    ∃ tail, TimingAt block identifierLine timing tail := by
  have hlines := not_isLineBreak_of_mem_line (s := block)
  unfold splitlines at h
  cases hspans : lineSpans block with
  | nil => simp [hspans, timingOf] at h
  | cons span spans =>
    obtain ⟨line, e⟩ := span
    obtain ⟨rest, hblock, hrest, hend⟩ := lineSpans_cons hspans
    rw [hspans] at hlines
    have hno := hlines _ List.mem_cons_self
    simp only [hspans, List.map_cons, timingOf] at h
    split at h
    next => cases h
    next =>
      split at h
      next harrow =>
        cases h
        rw [hblock]
        exact ⟨_, .first hno (ne_nil_of_contains_arrow harrow) hend⟩
      next =>
        cases hspans' : spans with
        | nil => simp [hspans'] at h
        | cons span' spans' =>
          obtain ⟨line', e'⟩ := span'
          rw [hspans'] at hrest hlines
          obtain ⟨rest', hblock', _, hend'⟩ := lineSpans_cons hrest.symm
          have hno' := hlines (line', e') (List.mem_cons_of_mem _ List.mem_cons_self)
          simp only [hspans', List.map_cons] at h
          split at h
          next harrow =>
            cases h
            rw [hblock'] at hblock hend
            rw [hblock]
            exact ⟨_, .second hno hend hno' (ne_nil_of_contains_arrow harrow) hend'⟩
          next => cases h

theorem afterFirst_append (part s : Str) : afterFirst part (part ++ s) = some s := by
  cases part with
  | nil => cases s <;> simp [afterFirst]
  | cons c part => simp [afterFirst]

theorem skipLine_append (line s : Str) : skipLine line (line ++ s) = skipBreak s := by
  rw [skipLine, afterFirst_append]

/-- Line feeds and carriage returns are skipped, no other break is. -/
theorem skipBreak_of_lineEnd {e rest : Str} (h : LineEnd e rest) :
    skipBreak (e ++ rest) = rest ∨
      ∃ c, e = [c] ∧ isLineBreak c = true ∧ skipBreak (e ++ rest) = c :: rest := by
  cases h with
  | crlf => exact .inl rfl
  | finish => exact .inl rfl
  | @single c _ hc hrest =>
    by_cases hn : c = '\n'
    · subst hn
      exact .inl rfl
    · by_cases hr : c = '\r'
      · subst hr
        have hhead := hrest rfl
        left
        rw [List.singleton_append]
        unfold skipBreak
        split
        next heq =>
          cases heq
          exact absurd rfl hhead
        next heq =>
          cases heq
          rfl
        next heq => cases heq
        next _ hcr _ => exact (hcr rest rfl).elim
      · right
        refine ⟨c, rfl, hc, ?_⟩
        rw [List.singleton_append]
        unfold skipBreak
        split
        next heq =>
          cases heq
          exact absurd rfl hr
        next heq =>
          cases heq
          exact absurd rfl hr
        next heq =>
          cases heq
          exact absurd rfl hn
        next => rfl

/-- The search for the timing line goes past a break that was not skipped. -/
theorem skipLine_skipBreak {timing e tail : Str} (hno : ∀ c ∈ timing, isLineBreak c = false)
    (hne : timing ≠ []) (hend : LineEnd e (timing ++ tail)) :
    skipLine timing (skipBreak (e ++ (timing ++ tail))) = skipBreak tail := by
  rcases skipBreak_of_lineEnd hend with hskip | ⟨c, rfl, hc, hskip⟩
  · rw [hskip, skipLine_append]
  · have hnot : ¬ timing <+: c :: (timing ++ tail) := by
      rintro ⟨t, ht⟩
      obtain ⟨d, ds, rfl⟩ := List.exists_cons_of_ne_nil hne
      cases (List.cons.inj ht).1
      have hd := hno c List.mem_cons_self
      rw [hc] at hd
      cases hd
    rw [hskip, skipLine, afterFirst, if_neg hnot, afterFirst_append]

theorem extractPayload_of_timingAt {block timing tail : Str} {identifierLine : Option Str}
    (h : TimingAt block identifierLine timing tail) :
    extractPayload block identifierLine timing = skipBreak tail := by
  cases h with
  | first hno hne hend => exact skipLine_append _ _
  | second hid hend hno hne hend' =>
    unfold extractPayload
    simp only [skipLine_append]
    exact skipLine_skipBreak hno hne hend

/-- A block the reader takes for a cue. -/
structure VttCue (block : Str) (identifierLine : Option Str) (timing : Str) (tc : Found) : Prop where
  lines : timingOf (splitlines block) = some (identifierLine, timing)
  clocks : matchStart vttTcSplitRe (strip timing) = some tc

/-- The identifier as the writer ends it. -/
def identifierPart (le : Str) : Option Str → Str
  | some identifier => identifier ++ le
  | none => []

/-- What is written for a block with the payload it was read with. -/
def shownBlock (le block : Str) : Str :=
  match timingOf (splitlines block) with
  | none => block
  | some (identifierLine, timing) =>
    match matchStart vttTcSplitRe (strip timing) with
    | none => block
    | some _ =>
      identifierPart le identifierLine ++ timing ++ le ++
        extractPayload block identifierLine timing

/-- The blocks write `s`, whatever cues come after the ones they name. -/
def VttRenders (le : Str) (st : VttState) (s : Str) : Prop :=
  ∀ more, (st.blocks.mapM (renderVttBlock le (st.lines ++ more))).map List.flatten = some s

namespace VttRenders

variable {le : Str} {st : VttState} {s : Str}

theorem addOpaque (h : VttRenders le st s) (raw trailingSep : Str) :
    VttRenders le { st with blocks := st.blocks ++ [.opaqueBlock raw trailingSep] }
      (s ++ (raw ++ trailingSep)) := by
  intro more
  obtain ⟨pieces, hpieces, rfl⟩ := Option.map_eq_some_iff.mp (h more)
  simp [List.mapM_append, hpieces, renderVttBlock]

theorem parseVttBlock (h : VttRenders le st s) (block trailingSep : Str) :
    VttRenders le (parseVttBlock le st block trailingSep)
      (s ++ (shownBlock le block ++ trailingSep)) := by
  unfold Trezarr.parseVttBlock shownBlock
  cases timingOf (splitlines block) with
  | none => exact h.addOpaque block trailingSep
  | some found =>
    obtain ⟨identifierLine, timing⟩ := found
    dsimp only
    cases matchStart vttTcSplitRe (strip timing) with
    | none => exact h.addOpaque block trailingSep
    | some tc =>
      intro more
      obtain ⟨pieces, hpieces, rfl⟩ := Option.map_eq_some_iff.mp (h (⟨[], tc.group 1, tc.group 2,
        extractPayload block identifierLine timing, none⟩ :: more))
      cases identifierLine <;>
        simp [List.mapM_append, hpieces, renderVttBlock, SubLine.shown, identifierPart]

theorem foldl (blocks : List (Str × Str)) : ∀ {st : VttState} {s : Str}, VttRenders le st s →
    VttRenders le (blocks.foldl (fun st b => Trezarr.parseVttBlock le st b.1 b.2) st)
      (s ++ (blocks.map fun b => shownBlock le b.1 ++ b.2).flatten) := by
  induction blocks with
  | nil =>
    intro st s h
    simpa using h
  | cons b blocks ih =>
    intro st s h
    have hrest := ih (h.parseVttBlock b.1 b.2)
    simpa using hrest

end VttRenders

theorem pairBlocks_of_pieces {s : Str} {ps : List (Str × Str)} (h : Pieces s ps) :
    pairBlocks (split sepRe s) = ps := by
  induction h with
  | last hno => rw [split_last hno]; rfl
  | more hno hS hr hps ih => rw [split_more hno hS hr, pairBlocks, ih]

theorem Pieces.ne_nil {s : Str} {ps : List (Str × Str)} (h : Pieces s ps) : ps ≠ [] := by
  cases h <;> simp

theorem Pieces.eq {s : Str} {ps : List (Str × Str)} (h : Pieces s ps) :
    s = (ps.map fun b => b.1 ++ b.2).flatten := by
  induction h with
  | last => simp
  | more hno hS hr hps ih =>
    rw [List.map_cons, List.flatten_cons, ← ih]
    simp

theorem writeVtt_readVtt_eq {encoding text header sep : Str} {blocks : List (Str × Str)}
    (h : Pieces text ((header, sep) :: blocks)) : writeVtt (readVtt encoding text) =
      some (header ++ sep ++
        (blocks.map fun b => shownBlock (detectLineEnding text) b.1 ++ b.2).flatten) := by
  have hstart : VttRenders (detectLineEnding text) { blocks := [.opaqueBlock header sep] }
      (header ++ sep) := by
    intro more
    simp [renderVttBlock]
  have hrenders := (VttRenders.foldl blocks hstart) []
  rw [List.append_nil] at hrenders
  simpa only [writeVtt, readVtt, pairBlocks_of_pieces h] using hrenders

/-- The identifier and the timing line of a cue are ended by the document's line end. -/
def VttNormal (le block : Str) : Prop :=
  ∀ identifierLine timing tc, VttCue block identifierLine timing tc →
    identifierPart le identifierLine ++ timing ++ le <+: block

theorem shownBlock_of_cue {le block timing tail : Str} {identifierLine : Option Str} {tc : Found}
    (h : VttCue block identifierLine timing tc) (hat : TimingAt block identifierLine timing tail) :
    shownBlock le block = identifierPart le identifierLine ++ timing ++ le ++ skipBreak tail := by
  simp only [shownBlock, h.lines, h.clocks, extractPayload_of_timingAt hat]

theorem shownBlock_opaque {le block : Str}
    (h : ∀ identifierLine timing tc, ¬ VttCue block identifierLine timing tc) :
    shownBlock le block = block := by
  unfold shownBlock
  split
  next => rfl
  next identifierLine timing hlines =>
    split
    next => rfl
    next tc hclocks => exact absurd ⟨hlines, hclocks⟩ (h identifierLine timing tc)

theorem skipBreak_newline {le : Str} (h : IsNewline le) (s : Str) : skipBreak (le ++ s) = s := by
  cases h <;> rfl

/-- A line that goes on with a line feed, or a carriage return and one, ends with it. -/
theorem lineEnd_eq_of_front {e rest le : Str} (h : LineEnd e rest) (hle : IsNewline le)
    (hfront : le <+: e ++ rest) : e = le := by
  obtain ⟨t, ht⟩ := hfront
  cases hle with
  | lf =>
    cases h with
    | crlf => cases ht
    | single hc hrest =>
      cases ht
      rfl
    | finish => cases ht
  | crlf =>
    cases h with
    | crlf => rfl
    | single hc hrest =>
      cases ht
      exact absurd rfl (hrest rfl)
    | finish => cases ht

theorem shownBlock_of_normal {le block : Str} (hle : IsNewline le) (h : VttNormal le block) :
    shownBlock le block = block := by
  by_cases hcue : ∃ identifierLine timing tc, VttCue block identifierLine timing tc
  · obtain ⟨identifierLine, timing, tc, hcue⟩ := hcue
    obtain ⟨tail, hat⟩ := timingAt_of_timingOf hcue.lines
    have hfront := h identifierLine timing tc hcue
    rw [shownBlock_of_cue hcue hat]
    cases hat with
    | @first _ e rest hno hne hend =>
      simp only [identifierPart, List.nil_append] at hfront ⊢
      rw [List.prefix_append_right_inj] at hfront
      rw [lineEnd_eq_of_front hend hle hfront, skipBreak_newline hle, List.append_assoc]
    | @second identifier e _ e' rest hid hend hno hne hend' =>
      simp only [identifierPart, List.append_assoc] at hfront ⊢
      rw [List.prefix_append_right_inj] at hfront
      have he : e = le := lineEnd_eq_of_front hend hle ((List.prefix_append le _).trans hfront)
      subst he
      rw [List.prefix_append_right_inj, List.prefix_append_right_inj] at hfront
      rw [lineEnd_eq_of_front hend' hle hfront, skipBreak_newline hle]
  · push Not at hcue
    exact shownBlock_opaque hcue

/-- What comes after a block: a separator and a text without leading blank lines, or nothing. -/
def Follows (S y : Str) : Prop := S = [] ∧ y = [] ∨ IsSep S ∧ blankLine? y = none

/-- The identifier is followed by the timing line, so its end shows in equal texts. -/
theorem lineEnd_eq_before_line {e rest le timing tail x y : Str} (h : LineEnd e rest)
    (hle : IsNewline le) (hno : ∀ c ∈ timing, isLineBreak c = false) (hne : timing ≠ [])
    (hrest : rest = timing ++ tail) (heq : le ++ x = e ++ (timing ++ y)) : e = le := by
  obtain ⟨d, ds, rfl⟩ := List.exists_cons_of_ne_nil hne
  have hd := hno d List.mem_cons_self
  cases hle with
  | lf =>
    cases h with
    | crlf => cases heq
    | single hc _ =>
      cases heq
      rfl
    | finish => cases hrest
  | crlf =>
    cases h with
    | crlf => rfl
    | finish => cases hrest
    | single hc _ =>
      cases heq
      cases hd

theorem lineEnd_eq_at_end {e rest le S x y : Str} (h : LineEnd e rest) (hle : IsNewline le)
    (hno : sepRe.NoMatchIn (e ++ rest) S) (hafter : Follows S y)
    (heq : le ++ (skipBreak (e ++ rest) ++ (S ++ x)) = e ++ (rest ++ (S ++ y))) : e = le := by
  cases h with
  | crlf =>
    cases hle with
    | lf => cases heq
    | crlf => rfl
  | finish =>
    -- the writer's line end would be one more blank line of the separator
    have hrun : (le ++ S) ++ x = S ++ y := by
      rw [List.append_assoc]
      exact heq
    rcases hafter with ⟨rfl, rfl⟩ | ⟨hS, hy⟩
    · cases hle <;> cases hrun
    · have hlines : BlankLines (le ++ S) := .cons hle.blankLine hS.blankLines
      obtain ⟨z, _, hSz⟩ := hlines.prefix_of_run hS.blankLines hy hrun
      have hlen := congrArg List.length hSz
      have hpos : 0 < le.length := by cases hle <;> simp
      simp only [List.length_append] at hlen
      omega
  | @single c rest hc hrest =>
    cases hle with
    | lf =>
      simp only [List.cons_append, List.nil_append, List.cons.injEq] at heq
      rw [heq.1]
    | crlf =>
      -- a lone carriage return before a line feed that belongs to something else
      simp only [List.cons_append, List.nil_append, List.cons.injEq] at heq
      obtain ⟨rfl, heq⟩ := heq
      cases rest with
      | cons d rest =>
        obtain ⟨rfl, _⟩ := List.cons.inj heq
        exact absurd rfl (hrest rfl)
      | nil =>
        rcases hafter with ⟨rfl, rfl⟩ | ⟨⟨nl, B, hnl, hB, hBne, rfl⟩, _⟩
        · cases heq
        · cases hnl with
          | crlf => cases heq
          | lf =>
            cases hB with
            | nil => exact absurd rfl hBne
            | @cons l B hl hB =>
              have hmatch : sepRe.rests ('\r' :: [] ++ (['\n'] ++ (l ++ B))) ≠ [] :=
                rests_sepRe_ne_nil.mpr ⟨_, l, B, .crlf, hl, rfl⟩
              exact absurd hno.1 hmatch

/-- In front of equal texts, a block written otherwise would show. -/
theorem normal_of_shownBlock {le block S x y : Str} (hle : IsNewline le)
    (hno : sepRe.NoMatchIn block S) (hafter : Follows S y)
    (h : shownBlock le block ++ (S ++ x) = block ++ (S ++ y)) : VttNormal le block := by
  intro identifierLine timing tc hcue
  obtain ⟨tail, hat⟩ := timingAt_of_timingOf hcue.lines
  rw [shownBlock_of_cue hcue hat] at h
  cases hat with
  | @first _ e rest hbreaks hne hend =>
    simp only [identifierPart, List.nil_append, List.append_assoc, List.append_cancel_left_eq] at h ⊢
    have he := lineEnd_eq_at_end hend hle (noMatchIn_append.mp hno).2 hafter h
    rw [List.prefix_append_right_inj, he]
    exact List.prefix_append le rest
  | @second identifier e _ e' rest hid hend hbreaks hne hend' =>
    simp only [identifierPart, List.append_assoc, List.append_cancel_left_eq] at h ⊢
    have he := lineEnd_eq_before_line hend hle hbreaks hne rfl h
    subst he
    simp only [List.append_cancel_left_eq] at h
    have hno' := (noMatchIn_append.mp (noMatchIn_append.mp (noMatchIn_append.mp hno).2).2).2
    have he' := lineEnd_eq_at_end hend' hle hno' hafter h
    rw [List.prefix_append_right_inj, List.prefix_append_right_inj, List.prefix_append_right_inj, he']
    exact List.prefix_append e rest

theorem vttNormal_of_flatten {le r : Str} {ps : List (Str × Str)} (hle : IsNewline le)
    (h : Pieces r ps) (heq : (ps.map fun b => shownBlock le b.1 ++ b.2).flatten = r) :
    ∀ b ∈ ps, VttNormal le b.1 := by
  induction h with
  | @last t hno =>
    intro b hb
    rw [List.mem_singleton.mp hb]
    refine normal_of_shownBlock (x := []) (y := []) hle hno (.inl ⟨rfl, rfl⟩) ?_
    simpa using heq
  | @more t S r ps hno hS hr hps ih =>
    rw [List.map_cons, List.flatten_cons, List.append_assoc] at heq
    have hnormal := normal_of_shownBlock hle hno (.inr ⟨hS, hr⟩) heq
    rw [shownBlock_of_normal hle hnormal, List.append_cancel_left_eq,
      List.append_cancel_left_eq] at heq
    intro b hb
    rcases List.mem_cons.mp hb with rfl | hb
    · exact hnormal
    · exact ih heq b hb

/-- The writer gives a text back just when, in every cue after the header block, the lines up to
the timing line are ended by the document's line end. -/
theorem vtt_byte_identity (encoding text : Str) :
    writeVtt (readVtt encoding text) = some text ↔
      ∀ b ∈ (pairBlocks (split sepRe text)).tail, VttNormal (detectLineEnding text) b.1 := by
  obtain ⟨ps, hps⟩ := exists_pieces text
  rw [pairBlocks_of_pieces hps]
  have hle := isNewline_detectLineEnding text
  cases ps with
  | nil => exact absurd rfl hps.ne_nil
  | cons first blocks =>
    obtain ⟨header, sep⟩ := first
    rw [writeVtt_readVtt_eq hps, List.tail_cons, Option.some.injEq]
    have htext := hps.eq
    rw [List.map_cons, List.flatten_cons] at htext
    constructor
    · intro heq
      have hrest := List.append_cancel_left (heq.trans htext)
      cases hps with
      | last => simp
      | more hno hS hr hrestps =>
        rw [← hrestps.eq] at hrest
        exact vttNormal_of_flatten hle hrestps hrest
    · intro hnormal
      have hmap : (blocks.map fun b => shownBlock (detectLineEnding text) b.1 ++ b.2) =
          blocks.map fun b => b.1 ++ b.2 :=
        List.map_congr_left fun b hb => by rw [shownBlock_of_normal hle (hnormal b hb)]
      rw [hmap]
      exact htext.symm

/-- A cue without a payload, at the end of the text. -/
def noPayload : Str := "WEBVTT\n\n00:01.000 --> 00:02.000"

theorem noPayload_longer : ¬ ∀ text, writeVtt (readVtt "utf-8" text) = some text := by
  intro h
  have hsame := h noPayload
  revert hsame
  decide

end Trezarr
