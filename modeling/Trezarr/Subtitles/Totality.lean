import Trezarr.Subtitles.AssReading
import Trezarr.Subtitles.SrtIdentity
import Trezarr.Subtitles.VttIdentity

/-! Readers that end on every text, and what they keep of the blocks and lines they do not know. -/
namespace Trezarr
open Text Regex Regex.Pattern Fallible

/-- A line of an events section, with the number of commas before the text column there. -/
structure EventLine where
  commas : ℕ
  content : Str
  ending : Str

namespace EventLine

def isDialogue (line : EventLine) : Bool := "Dialogue:".toList <+: line.content

/-- A dialogue line that has the text column of a format line with two columns. -/
def TwoColumns (line : EventLine) : Prop :=
  line.isDialogue ∧ line.commas = 1 ∧ ',' ∈ line.content

instance (line : EventLine) : Decidable line.TwoColumns := by
  unfold TwoColumns
  infer_instance

/-- The cue of a dialogue line, kept as it is when there are too few columns. -/
def cue (line : EventLine) : SubLine :=
  let parts := splitMax ',' line.commas line.content
  if line.content.count ',' < line.commas then ⟨[], [], [], line.content, some line.content⟩
  else
    let text := (parts[line.commas]?).getD []
    ⟨[], strip ((parts[1]?).getD []), strip ((parts[2]?).getD []), text,
      if found karaokeRe text || found drawingRe text then some text else none⟩

def cues (line : EventLine) : List SubLine := if line.isDialogue then [line.cue] else []

theorem cue_of_short {line : EventLine} (h : line.content.count ',' < line.commas) :
    line.cue = ⟨[], [], [], line.content, some line.content⟩ := if_pos h

theorem cues_of_dialogue {line : EventLine} (h : line.isDialogue = true) :
    line.cues = [line.cue] := if_pos h

theorem cues_of_other {line : EventLine} (h : line.isDialogue = false) : line.cues = [] := by
  rw [cues, h]
  rfl

end EventLine

def eventLine (commas : ℕ) (span : Str × Str) : EventLine :=
  let (content, ending) := lineOfSpan span
  if "Format:".toList <+: content then
    ⟨formatCommaIdx { textCommaIdx := commas } content, content, ending⟩
  else ⟨commas, content, ending⟩

/-- The lines of an events section from one where the text column is known. -/
def eventLines : ℕ → List (Str × Str) → List EventLine
  | _, [] => []
  | commas, span :: spans =>
    let line := eventLine commas span
    line :: eventLines line.commas spans

/-- Segments and cues that hold this line, as it is unless it has all its columns. -/
structure Keeps (segments : List AssSegment) (cues : List SubLine) (line : EventLine) : Prop where
  other : line.isDialogue = false → .opaqueSegment (line.content ++ line.ending) ∈ segments
  short : line.isDialogue = true → line.content.count ',' < line.commas →
    ∃ i, .dialogueSlot [] line.ending i ∈ segments ∧
      cues[i]? = some ⟨[], [], [], line.content, some line.content⟩

/-- What was read stays. -/
def Extends (st st' : EventsState) : Prop :=
  st.segments <+: st'.segments ∧ st.lines <+: st'.lines

theorem Extends.refl (st : EventsState) : Extends st st :=
  ⟨List.prefix_refl _, List.prefix_refl _⟩

theorem Extends.trans {a b c : EventsState} (hab : Extends a b) (hbc : Extends b c) :
    Extends a c :=
  ⟨hab.1.trans hbc.1, hab.2.trans hbc.2⟩

theorem extends_addOpaque (st : EventsState) (raw : Str) : Extends st (st.addOpaque raw) :=
  ⟨List.prefix_append _ _, List.prefix_refl _⟩

theorem extends_addSlot (st : EventsState) (linePrefix lineEnding : Str) (line : SubLine) :
    Extends st (st.addSlot linePrefix lineEnding line) :=
  ⟨List.prefix_append _ _, List.prefix_append _ _⟩

theorem Keeps.mono {st st' : EventsState} {line : EventLine} (h : Keeps st.segments st.lines line)
    (hext : Extends st st') : Keeps st'.segments st'.lines line where
  other hline := hext.1.mem (h.other hline)
  short hline hcount := by
    obtain ⟨i, hslot, hget⟩ := h.short hline hcount
    refine ⟨i, hext.1.mem hslot, ?_⟩
    obtain ⟨hlt, _⟩ := List.getElem?_eq_some_iff.mp hget
    obtain ⟨lines, hlines⟩ := hext.2
    rw [← hlines, List.getElem?_append_left hlt]
    exact hget

/-- What a dialogue line does. -/
theorem parseDialogueLine_cases (st : EventsState) (content ending : Str)
    (hcommas : 1 ≤ st.textCommaIdx) :
    (st.textCommaIdx = 1 ∧ ',' ∈ content ∧
      parseDialogueLine st content ending = .error .indexError) ∨
    (¬ (st.textCommaIdx = 1 ∧ ',' ∈ content) ∧ ∃ linePrefix,
      parseDialogueLine st content ending =
          .ok (st.addSlot linePrefix ending (EventLine.cue ⟨st.textCommaIdx, content, ending⟩)) ∧
        (content.count ',' < st.textCommaIdx → linePrefix = [])) := by
  have hlen := splitMax_length ',' st.textCommaIdx content
  by_cases hshort : content.count ',' < st.textCommaIdx
  · right
    refine ⟨fun h => ?_, [], ?_, fun _ => rfl⟩
    · have hpos := List.count_pos_iff.mpr h.2
      omega
    · simp only [parseDialogueLine, EventLine.cue, if_pos hshort,
        if_pos (show (splitMax ',' st.textCommaIdx content).length < st.textCommaIdx + 1 by omega)]
  · have hmem : ',' ∈ content := List.count_pos_iff.mp (by omega)
    have hget : ∀ i, i ≤ st.textCommaIdx → (splitMax ',' st.textCommaIdx content)[i]? =
        some ((splitMax ',' st.textCommaIdx content)[i]?.getD []) := by
      intro i hi
      rw [List.getElem?_eq_getElem (by omega), Option.getD_some]
    simp only [parseDialogueLine, EventLine.cue, if_neg hshort,
      if_neg (show ¬ (splitMax ',' st.textCommaIdx content).length < st.textCommaIdx + 1 by omega)]
    by_cases hone : st.textCommaIdx = 1
    · left
      have hend : (splitMax ',' st.textCommaIdx content)[2]? = none :=
        List.getElem?_eq_none (by omega)
      rw [hget 1 hcommas, hend]
      exact ⟨hone, hmem, rfl⟩
    · right
      rw [hget 1 hcommas, hget 2 (by omega), hget st.textCommaIdx (Nat.le_refl _)]
      exact ⟨fun h => hone h.1, _, rfl, fun h => absurd h hshort⟩

theorem eventLine_commas_pos {commas : ℕ} (h : 1 ≤ commas) (span : Str × Str) :
    1 ≤ (eventLine commas span).commas := by
  unfold eventLine
  dsimp only
  split
  · simp only [formatCommaIdx]
    split <;> omega
  · exact h

/-- A line that is not dialogue goes into a segment of its own. -/
theorem addOpaque_keeps (st : EventsState) {line : EventLine} (h : line.isDialogue = false) :
    Extends st (st.addOpaque (line.content ++ line.ending)) ∧
      Keeps (st.addOpaque (line.content ++ line.ending)).segments st.lines line ∧
        st.lines = st.lines ++ line.cues := by
  refine ⟨extends_addOpaque _ _, ⟨fun _ => ?_, fun hyes => ?_⟩, ?_⟩
  · exact List.mem_append_right _ List.mem_cons_self
  · rw [h] at hyes
    cases hyes
  · rw [line.cues_of_other h, List.append_nil]

/-- A line with too few columns becomes a cue that is kept as it is. -/
theorem addSlot_keeps (st : EventsState) {line : EventLine} {linePrefix : Str}
    (h : line.isDialogue = true) (hshort : line.content.count ',' < line.commas →
      linePrefix = []) :
    Extends st (st.addSlot linePrefix line.ending line.cue) ∧
      Keeps (st.addSlot linePrefix line.ending line.cue).segments
        (st.addSlot linePrefix line.ending line.cue).lines line ∧
      (st.addSlot linePrefix line.ending line.cue).lines = st.lines ++ line.cues := by
  refine ⟨extends_addSlot _ _ _ _, ⟨fun hno => ?_, fun _ hcount => ⟨st.lines.length, ?_⟩⟩, ?_⟩
  · rw [h] at hno
    cases hno
  · rw [hshort hcount, line.cue_of_short hcount]
    exact ⟨List.mem_append_right _ List.mem_cons_self, by simp [EventsState.addSlot]⟩
  · rw [line.cues_of_dialogue h]
    rfl

theorem not_dialogue_of_format {content : Str} (h : "Format:".toList <+: content) :
    ¬ "Dialogue:".toList <+: content := by
  rintro ⟨s, rfl⟩
  obtain ⟨t, ht⟩ := h
  exact absurd (List.cons.inj ht).1 (by decide)

theorem not_dialogue_of_comment {content : Str} (h : "Comment:".toList <+: content) :
    ¬ "Dialogue:".toList <+: content := by
  rintro ⟨s, rfl⟩
  obtain ⟨t, ht⟩ := h
  exact absurd (List.cons.inj ht).1 (by decide)

/-- One line of the section: an index past the end, or everything read so far and the line. -/
theorem parseEventLine_cases (st : EventsState) (span : Str × Str)
    (hcommas : 1 ≤ st.textCommaIdx) :
    ((eventLine st.textCommaIdx span).TwoColumns ∧
      parseEventLine st span = .error .indexError) ∨
    (¬ (eventLine st.textCommaIdx span).TwoColumns ∧ ∃ st', parseEventLine st span = .ok st' ∧
      st'.textCommaIdx = (eventLine st.textCommaIdx span).commas ∧ Extends st st' ∧
        Keeps st'.segments st'.lines (eventLine st.textCommaIdx span) ∧
          st'.lines = st.lines ++ (eventLine st.textCommaIdx span).cues) := by
  obtain ⟨content, ending, hspan⟩ : ∃ content ending, lineOfSpan span = (content, ending) :=
    ⟨_, _, rfl⟩
  simp only [parseEventLine, eventLine, hspan]
  by_cases hformat : "Format:".toList <+: content
  · -- the format line is where the number of columns changes
    have hnot : EventLine.isDialogue ⟨formatCommaIdx st content, content, ending⟩ = false :=
      decide_eq_false (not_dialogue_of_format hformat)
    have hkeeps := addOpaque_keeps { st with textCommaIdx := formatCommaIdx st content } hnot
    rw [if_pos hformat, if_pos hformat]
    refine .inr ⟨fun htwo => ?_, _, rfl, rfl, hkeeps⟩
    exact not_dialogue_of_format hformat (of_decide_eq_true htwo.1)
  · rw [if_neg hformat, if_neg hformat]
    by_cases hdialogue : "Dialogue:".toList <+: content
    · have hyes : EventLine.isDialogue ⟨st.textCommaIdx, content, ending⟩ = true :=
        decide_eq_true hdialogue
      rw [if_neg fun hcomment => not_dialogue_of_comment hcomment hdialogue, if_pos hdialogue]
      rcases parseDialogueLine_cases st content ending hcommas with
        ⟨hone, hmem, herror⟩ | ⟨hnot, linePrefix, hok, hshort⟩
      · exact .inl ⟨⟨hyes, hone, hmem⟩, herror⟩
      · have hkeeps := addSlot_keeps st hyes hshort
        exact .inr ⟨fun htwo => hnot htwo.2, _, hok, rfl, hkeeps⟩
    · have hno : EventLine.isDialogue ⟨st.textCommaIdx, content, ending⟩ = false :=
        decide_eq_false hdialogue
      have hkeeps := addOpaque_keeps st hno
      rw [if_neg hdialogue, ite_self]
      refine .inr ⟨fun htwo => ?_, _, rfl, rfl, hkeeps⟩
      exact hdialogue (of_decide_eq_true htwo.1)

/-- The lines of a section up to the first one that indexes past the end of its columns. -/
theorem foldlM_parseEventLine (spans : List (Str × Str)) : ∀ (st : EventsState),
    1 ≤ st.textCommaIdx →
      (∀ line ∈ eventLines st.textCommaIdx spans, ¬ line.TwoColumns) ∧
        (∃ st', spans.foldlM parseEventLine st = .ok st' ∧ Extends st st' ∧
          (∀ line ∈ eventLines st.textCommaIdx spans, Keeps st'.segments st'.lines line) ∧
            st'.lines = st.lines ++ (eventLines st.textCommaIdx spans).flatMap EventLine.cues) ∨
      (∃ line ∈ eventLines st.textCommaIdx spans, line.TwoColumns) ∧
        spans.foldlM parseEventLine st = .error .indexError := by
  induction spans with
  | nil => exact fun st _ => .inl ⟨nofun, st, rfl, .refl st, nofun, (List.append_nil _).symm⟩
  | cons span spans ih =>
    intro st hcommas
    have hpos := eventLine_commas_pos hcommas span
    rw [List.foldlM_cons]
    simp only [eventLines, List.forall_mem_cons]
    rcases parseEventLine_cases st span hcommas with
      ⟨htwo, herror⟩ | ⟨hnot, st₁, hok, hidx, hext, hkeeps, hcues⟩
    · rw [herror]
      exact .inr ⟨⟨_, List.mem_cons_self, htwo⟩, rfl⟩
    · rw [hok, ok_bind, ← hidx]
      rw [← hidx] at hpos
      rcases ih st₁ hpos with ⟨hnone, st', hrest, hext', hall, hcues'⟩ | ⟨⟨line, hline, htwo⟩, herror⟩
      · refine .inl ⟨⟨hnot, hnone⟩, st', hrest, hext.trans hext', ⟨hkeeps.mono hext', hall⟩, ?_⟩
        rw [hcues', hcues, List.flatMap_cons, List.append_assoc]
      · exact .inr ⟨⟨line, List.mem_cons_of_mem _ hline, htwo⟩, herror⟩

theorem extends_foldl_addOpaque (texts : List Str) : ∀ (st : EventsState),
    Extends st (texts.foldl EventsState.addOpaque st) ∧
      (∀ text ∈ texts, .opaqueSegment text ∈ (texts.foldl EventsState.addOpaque st).segments) ∧
        (texts.foldl EventsState.addOpaque st).lines = st.lines := by
  induction texts with
  | nil => exact fun st => ⟨.refl st, nofun, rfl⟩
  | cons text texts ih =>
    intro st
    obtain ⟨hext, hmem, hlines⟩ := ih (st.addOpaque text)
    refine ⟨(extends_addOpaque st text).trans hext, List.forall_mem_cons.mpr ⟨?_, hmem⟩, hlines⟩
    exact hext.1.mem (List.mem_append_right _ List.mem_cons_self)

/-- The section whose dialogue lines are read. -/
def eventsText (le : Str) (texts : List Str) : Option Str := texts.find? (isEventsSection le)

/-- The lines of that section. -/
def eventsLines (le : Str) (texts : List Str) : List EventLine :=
  (eventsText le texts).elim [] fun text => eventLines 9 (lineSpans text)

/-- The other sections are segments, and so are the lines of that section that are no cues. -/
structure KeepsSections (le : Str) (texts : List Str) (segments : List AssSegment)
    (cues : List SubLine) : Prop where
  sections : ∀ text ∈ texts, eventsText le texts = some text ∨ .opaqueSegment text ∈ segments
  lines : ∀ line ∈ eventsLines le texts, Keeps segments cues line

theorem parseSections_cases (le : Str) (texts : List Str) : ∀ (st : EventsState),
    (∀ line ∈ eventsLines le texts, ¬ line.TwoColumns) ∧
      (∃ st', parseSections le st texts = .ok st' ∧ Extends st st' ∧
        KeepsSections le texts st'.segments st'.lines ∧
          st'.lines = st.lines ++ (eventsLines le texts).flatMap EventLine.cues) ∨
    (∃ line ∈ eventsLines le texts, line.TwoColumns) ∧
      parseSections le st texts = .error .indexError := by
  induction texts with
  | nil => exact fun st => .inl ⟨nofun, st, rfl, .refl st, ⟨nofun, nofun⟩, (List.append_nil _).symm⟩
  | cons text texts ih =>
    intro st
    simp only [parseSections]
    by_cases hevents : isEventsSection le text = true
    · have hfirst : eventsText le (text :: texts) = some text := List.find?_cons_of_pos hevents
      have hlines : eventsLines le (text :: texts) = eventLines 9 (lineSpans text) := by
        rw [eventsLines, hfirst]
        rfl
      rw [if_pos hevents, hlines]
      rcases foldlM_parseEventLine (lineSpans text) { st with textCommaIdx := 9 }
        (show 1 ≤ 9 by decide) with ⟨hnone, st₁, hok, hext, hall, hcues⟩ | ⟨htwo, herror⟩
      · obtain ⟨hext', hmem, hsame⟩ := extends_foldl_addOpaque texts st₁
        refine .inl ⟨hnone, texts.foldl EventsState.addOpaque st₁, ?_, ?_, ⟨?_, ?_⟩, ?_⟩
        · rw [parseEventsSection, hok]
          rfl
        · exact Extends.trans (a := { st with textCommaIdx := 9 }) hext hext'
        · exact List.forall_mem_cons.mpr ⟨.inl hfirst, fun s hs => .inr (hmem s hs)⟩
        · rw [hlines]
          exact fun line hline => (hall line hline).mono hext'
        · rw [hsame, hcues]
      · refine .inr ⟨htwo, ?_⟩
        rw [parseEventsSection, herror]
        rfl
    · have hlater : eventsText le (text :: texts) = eventsText le texts :=
        List.find?_cons_of_neg hevents
      have hlines : eventsLines le (text :: texts) = eventsLines le texts := by
        rw [eventsLines, hlater]
        rfl
      rw [if_neg hevents, hlines]
      rcases ih (st.addOpaque text) with ⟨hnone, st', hok, hext, hkeeps, hcues⟩ | hbad
      · refine .inl ⟨hnone, st', hok, (extends_addOpaque st text).trans hext, ⟨?_, ?_⟩, hcues⟩
        · rw [hlater]
          refine List.forall_mem_cons.mpr ⟨.inr ?_, hkeeps.sections⟩
          exact hext.1.mem (List.mem_append_right _ List.mem_cons_self)
        · rw [hlines]
          exact hkeeps.lines
      · exact .inr hbad

def SubDoc.assSegments (doc : SubDoc) : List AssSegment :=
  match doc.envelope with
  | .ass ass => ass.segments
  | _ => []

def SubDoc.vttBlocks (doc : SubDoc) : List VttBlock :=
  match doc.envelope with
  | .vtt vtt => vtt.blocks
  | _ => []

/-- All three readers return, and keep as they are the blocks and lines they do not know. -/
structure ReadsAll (encoding text : Str) : Prop where
  srt : ∀ block ∈ srtBlocks text, block ≠ [] →
    (∀ index tcLine tc, ¬ Header block index tcLine tc) →
      ∃ line ∈ (readSrt encoding text).lines, line.text = block ∧ line.raw = some block
  vtt : ∀ b ∈ (pairBlocks (split sepRe text)).tail,
    (∀ identifierLine timing tc, ¬ VttCue b.1 identifierLine timing tc) →
      .opaqueBlock b.1 b.2 ∈ (readVtt encoding text).vttBlocks
  ass : ∃ doc, readAss encoding text = .ok doc ∧
    ((cutSections true text).1 ≠ [] → .opaqueSegment (cutSections true text).1 ∈ doc.assSegments) ∧
      KeepsSections (detectLineEnding text) (cutSections true text).2 doc.assSegments doc.lines

theorem srt_keeps {encoding text block : Str} (hblock : block ∈ srtBlocks text) (hne : block ≠ [])
    (h : ∀ index tcLine tc, ¬ Header block index tcLine tc) :
    ∃ line ∈ (readSrt encoding text).lines, line.text = block ∧ line.raw = some block := by
  refine ⟨parseBlock block, ?_, parseBlock_kept h⟩
  rw [lines_readSrt]
  exact List.mem_map_of_mem (List.mem_filter.mpr ⟨hblock, decide_eq_true hne⟩)

theorem parseVttBlock_kept {le block trailingSep : Str} (st : VttState)
    (h : ∀ identifierLine timing tc, ¬ VttCue block identifierLine timing tc) :
    parseVttBlock le st block trailingSep =
      { st with blocks := st.blocks ++ [.opaqueBlock block trailingSep] } := by
  unfold parseVttBlock
  dsimp only
  split
  next => rfl
  next identifierLine timing hlines =>
    split
    next => rfl
    next tc hclocks => exact absurd ⟨hlines, hclocks⟩ (h identifierLine timing tc)

theorem parseVttBlock_blocks (le : Str) (st : VttState) (block trailingSep : Str) :
    st.blocks <+: (parseVttBlock le st block trailingSep).blocks := by
  unfold parseVttBlock
  dsimp only
  split
  · exact List.prefix_append _ _
  · split <;> exact List.prefix_append _ _

theorem foldl_parseVttBlock (le : Str) (bs : List (Str × Str)) : ∀ (st : VttState),
    st.blocks <+: (bs.foldl (fun st b => parseVttBlock le st b.1 b.2) st).blocks ∧
      ∀ b ∈ bs, (∀ identifierLine timing tc, ¬ VttCue b.1 identifierLine timing tc) →
        .opaqueBlock b.1 b.2 ∈ (bs.foldl (fun st b => parseVttBlock le st b.1 b.2) st).blocks := by
  induction bs with
  | nil => exact fun st => ⟨List.prefix_refl _, nofun⟩
  | cons b bs ih =>
    intro st
    obtain ⟨hext, hmem⟩ := ih (parseVttBlock le st b.1 b.2)
    refine ⟨(parseVttBlock_blocks le st b.1 b.2).trans hext,
      List.forall_mem_cons.mpr ⟨fun hnot => ?_, hmem⟩⟩
    apply hext.mem
    rw [parseVttBlock_kept st hnot]
    exact List.mem_append_right _ List.mem_cons_self

theorem vtt_keeps {encoding text : Str} {b : Str × Str}
    (hb : b ∈ (pairBlocks (split sepRe text)).tail)
    (h : ∀ identifierLine timing tc, ¬ VttCue b.1 identifierLine timing tc) :
    .opaqueBlock b.1 b.2 ∈ (readVtt encoding text).vttBlocks := by
  unfold readVtt SubDoc.vttBlocks
  cases hpairs : pairBlocks (split sepRe text) with
  | nil => simp [hpairs] at hb
  | cons first bs =>
    rw [hpairs] at hb
    exact (foldl_parseVttBlock (detectLineEnding text) bs _).2 b hb h

/-- The readers return a document that keeps what they do not know for every text whose first
events section has no dialogue line with a comma under a format line of two columns; the
Advanced SubStation reader raises on every other one. -/
theorem reader_totality (encoding text : Str) : ReadsAll encoding text ↔
    ∀ line ∈ eventsLines (detectLineEnding text) (cutSections true text).2,
      ¬ line.TwoColumns := by
  have hread := readAss_eq encoding text
  cases hpieces : cutSections true text with
  | mk front texts =>
    rw [hpieces] at hread
    have hall : (∀ line ∈ eventsLines (detectLineEnding text) texts, ¬ line.TwoColumns) ∧
          (∃ st, readPieces (detectLineEnding text) (front, texts) = .ok st ∧
            (front ≠ [] → .opaqueSegment front ∈ st.segments) ∧
              KeepsSections (detectLineEnding text) texts st.segments st.lines) ∨
        (∃ line ∈ eventsLines (detectLineEnding text) texts, line.TwoColumns) ∧
          readPieces (detectLineEnding text) (front, texts) = .error .indexError := by
      cases texts with
      | nil => exact .inl ⟨nofun, _, rfl, fun _ => List.mem_cons_self, nofun, nofun⟩
      | cons first texts =>
        rcases parseSections_cases (detectLineEnding text) (first :: texts)
          (if front = [] then {} else EventsState.addOpaque {} front) with
          ⟨hnone, st, hok, hext, hkeeps, _⟩ | hbad
        · refine .inl ⟨hnone, st, hok, fun hne => hext.1.mem ?_, hkeeps⟩
          rw [if_neg hne]
          exact List.mem_cons_self
        · exact .inr hbad
    rcases hall with ⟨hnone, st, hok, hfront, hkeeps⟩ | ⟨⟨line, hline, htwo⟩, herror⟩
    · rw [hok] at hread
      refine iff_of_true ⟨fun _ => srt_keeps, fun _ => vtt_keeps, _, hread, ?_⟩ hnone
      rw [hpieces]
      exact ⟨hfront, hkeeps⟩
    · rw [herror] at hread
      refine iff_of_false (fun hreads => ?_) fun hnone => hnone line hline htwo
      obtain ⟨doc, hdoc, _⟩ := hreads.ass
      rw [hread] at hdoc
      cases hdoc

/-- A format line of two columns, as a file with only times and texts may have. -/
def twoColumns : Str := "[Events]\nFormat: Start, Text\nDialogue: 0:00:01.00,Hi.\n"

theorem twoColumns_raises : ¬ ∀ text, ReadsAll "utf-8" text := by
  intro h
  obtain ⟨doc, hdoc, _⟩ := (h twoColumns).ass
  have hnone : (readAss "utf-8" twoColumns).toOption = none := by decide
  rw [hdoc] at hnone
  cases hnone

end Trezarr
