import Trezarr.Lib.Fallible
import Trezarr.Lib.Lines
import Trezarr.Subtitles.Ass

/-! What the Advanced SubStation reader takes apart, the writer puts together. -/
namespace Trezarr
open Text Regex Regex.Pattern Fallible

def atLineStart (before : Str) : Bool := before = [] ∨ before.head? = some '\n'

/-- The text before the first header and the sections, read from left to right. -/
def cutSections : Bool → Str → Str × List Str
  | _, [] => ([], [])
  | atStart, c :: s =>
    let (front, rest) := cutSections (c = '\n') s
    if atStart ∧ c = '[' then ([], (c :: front) :: rest) else (c :: front, rest)

theorem flatten_cutSections (s : Str) :
    ∀ b, (cutSections b s).1 ++ (cutSections b s).2.flatten = s := by
  induction s with
  | nil => exact fun b => rfl
  | cons c s ih =>
    intro b
    have hrest := ih (c = '\n')
    simp only [cutSections]
    split <;> simpa using hrest

theorem matchAt_header_nil (before : Str) : matchAt sectionHeaderRe before [] = none := by
  by_cases h : before = [] ∨ before.head? = some '\n' <;>
    simp [matchAt, sectionHeaderRe, Pattern.char, results, h]

theorem matchAt_header (before : Str) (c : Char) (s : Str) :
    matchAt sectionHeaderRe before (c :: s) =
      if atLineStart before ∧ c = '[' then some ⟨[], before, ['['], s, []⟩ else none := by
  by_cases h : before = [] ∨ before.head? = some '\n'
  · by_cases hc : c = '['
    · simp [matchAt, sectionHeaderRe, Pattern.char, results, atLineStart, h, hc, Cursor.upTo]
    · simp [matchAt, sectionHeaderRe, Pattern.char, results, h, hc]
  · simp [matchAt, sectionHeaderRe, results, atLineStart, h]

/-- What the reader makes of the headers it found. -/
def piecesOf (s : Str) : List Found → Str × List Str
  | [] => (s, [])
  | f :: fs => (f.skipped, sections f fs)

theorem piecesOf_nil (s : Str) : piecesOf s [] = (s, []) := rfl

theorem piecesOf_cons (s : Str) (f : Found) (fs : List Found) : piecesOf s (f :: fs) =
    (f.skipped, (f.text ++ (piecesOf f.rest fs).1) :: (piecesOf f.rest fs).2) := by
  cases fs <;> rfl

theorem piecesOf_findFrom (s : Str) : ∀ (before : Str) {n : ℕ}, s.length < n →
    piecesOf s (findFrom sectionHeaderRe n before s) = cutSections (atLineStart before) s := by
  induction s with
  | nil =>
    intro before n hn
    obtain ⟨n, rfl⟩ : ∃ k, n = k + 1 := ⟨n - 1, by simp at hn; omega⟩
    simp [findFrom, searchFrom, matchAt_header_nil, piecesOf_nil, cutSections]
  | cons c s ih =>
    intro before n hn
    simp only [List.length_cons] at hn
    obtain ⟨n, rfl⟩ : ∃ k, n = k + 1 := ⟨n - 1, by omega⟩
    by_cases h : atLineStart before ∧ c = '['
    · have hrest := ih ('[' :: before) (show s.length < n by omega)
      obtain ⟨hstart, rfl⟩ := h
      simp only [findFrom, searchFrom, matchAt_header, hstart, and_self, if_true, piecesOf_cons,
        cutSections, List.reverse_cons, List.reverse_nil, List.nil_append, List.singleton_append,
        hrest]
      rfl
    · have hrest := ih (c :: before) (show s.length < n + 1 by omega)
      have hstart : atLineStart (c :: before) = decide (c = '\n') := by simp [atLineStart]
      rw [hstart] at hrest
      simp only [cutSections, if_neg h, ← hrest]
      simp only [findFrom, searchFrom, matchAt_header, if_neg h]
      cases searchFrom sectionHeaderRe (c :: before) s with
      | none => rfl
      | some f => simp only [Option.map_some, piecesOf_cons]

theorem piecesOf_findIter (text : Str) :
    piecesOf text (findIter sectionHeaderRe text) = cutSections true text :=
  piecesOf_findFrom text [] (Nat.lt_succ_self _)

/-- Reading from the pieces of the text. -/
def readPieces (le : Str) : Str × List Str → Except IndexError EventsState
  | (front, []) => .ok (EventsState.addOpaque {} front)
  | (front, texts) =>
    parseSections le (if front = [] then {} else EventsState.addOpaque {} front) texts

theorem readAss_eq (encoding text : Str) : readAss encoding text =
    (readPieces (detectLineEnding text) (cutSections true text)).map fun st =>
      { lines := st.lines
        encoding := encoding
        lineEnding := detectLineEnding text
        separators := []
        envelope := .ass ⟨st.segments, encoding, detectLineEnding text⟩ } := by
  rw [← piecesOf_findIter]
  unfold readAss
  cases findIter sectionHeaderRe text with
  | nil => rfl
  | cons f fs =>
    simp only [bind_pure_comp]
    cases fs <;> rfl

/-- The segments write `s`, whatever cues come after the ones they name. -/
def Renders (st : EventsState) (s : Str) : Prop :=
  ∀ more, (st.segments.mapM (renderSegment (st.lines ++ more))).map List.flatten = some s

namespace Renders

variable {st : EventsState} {s : Str}

theorem empty : Renders {} [] := fun _ => rfl

theorem addOpaque (h : Renders st s) (raw : Str) : Renders (st.addOpaque raw) (s ++ raw) := by
  intro more
  obtain ⟨pieces, hpieces, rfl⟩ := Option.map_eq_some_iff.mp (h more)
  simp [EventsState.addOpaque, List.mapM_append, hpieces, renderSegment]

theorem addSlot (h : Renders st s) (linePrefix lineEnding : Str) (line : SubLine) :
    Renders (st.addSlot linePrefix lineEnding line)
      (s ++ (linePrefix ++ line.shown ++ lineEnding)) := by
  intro more
  obtain ⟨pieces, hpieces, rfl⟩ := Option.map_eq_some_iff.mp (h (line :: more))
  simp [EventsState.addSlot, List.mapM_append, hpieces, renderSegment]

end Renders

/-- A comma-separated line is cut before its last column. -/
theorem parseDialogueLine_ok {st st' : EventsState} {content lineEnding : Str}
    (h : parseDialogueLine st content lineEnding = .ok st') :
    ∃ linePrefix line, st' = st.addSlot linePrefix lineEnding line ∧
      linePrefix ++ line.shown = content := by
  simp only [parseDialogueLine] at h
  split at h
  next =>
    cases h
    exact ⟨[], _, rfl, rfl⟩
  next hlen =>
    split at h
    next startTc endTc text _ hend htext =>
      cases h
      refine ⟨_, _, rfl, ?_⟩
      obtain ⟨hidx, htext⟩ := List.getElem?_eq_some_iff.mp htext
      obtain ⟨hidx2, _⟩ := List.getElem?_eq_some_iff.mp hend
      have hle : (splitMax ',' st.textCommaIdx content).length ≤ st.textCommaIdx + 1 := by
        rw [splitMax_length]
        omega
      have hcut := List.take_append_drop st.textCommaIdx (splitMax ',' st.textCommaIdx content)
      rw [List.drop_eq_getElem_cons hidx, htext, List.drop_of_length_le hle] at hcut
      have hne : (splitMax ',' st.textCommaIdx content).take st.textCommaIdx ≠ [] := by
        intro hnil
        have hlen := congrArg List.length hnil
        simp only [List.length_take, List.length_nil] at hlen
        omega
      have hjoin := join_splitMax ',' st.textCommaIdx content
      rw [← hcut, join_concat _ _ hne] at hjoin
      have hshown : (if found karaokeRe text || found drawingRe text then some text else none).getD
          text = text := by
        split <;> rfl
      simp only [SubLine.shown, hshown]
      exact hjoin
    next => cases h

theorem lineOfSpan_append (span : Str × Str) :
    (lineOfSpan span).1 ++ (lineOfSpan span).2 = span.1 ++ span.2 := by
  obtain ⟨line, ending⟩ := span
  simp only [lineOfSpan]
  split
  · rfl
  · simp

theorem renders_parseEventLine {st st' : EventsState} {s : Str} {span : Str × Str}
    (h : parseEventLine st span = .ok st') (hst : Renders st s) :
    Renders st' (s ++ (span.1 ++ span.2)) := by
  rw [← lineOfSpan_append]
  simp only [parseEventLine] at h
  split at h
  next =>
    cases h
    have hst' : Renders { st with textCommaIdx := formatCommaIdx st (lineOfSpan span).1 } s := hst
    exact hst'.addOpaque _
  next =>
    split at h
    next =>
      cases h
      exact hst.addOpaque _
    next =>
      split at h
      next =>
        obtain ⟨linePrefix, line, rfl, hline⟩ := parseDialogueLine_ok h
        rw [← hline]
        exact hst.addSlot _ _ _
      next =>
        cases h
        exact hst.addOpaque _

theorem renders_foldlM (spans : List (Str × Str)) : ∀ {st st' : EventsState} {s : Str},
    spans.foldlM parseEventLine st = .ok st' → Renders st s →
      Renders st' (s ++ (spans.map fun (l, e) => l ++ e).flatten) := by
  induction spans with
  | nil =>
    intro st st' s h hst
    cases h
    simpa using hst
  | cons span spans ih =>
    intro st st' s h hst
    rw [List.foldlM_cons] at h
    obtain ⟨st₁, hstep, hrest⟩ := bind_ok h
    have hst' := ih hrest (renders_parseEventLine hstep hst)
    simpa using hst'

theorem renders_parseEventsSection {st st' : EventsState} {s sectionText : Str}
    (h : parseEventsSection st sectionText = .ok st') (hst : Renders st s) :
    Renders st' (s ++ sectionText) := by
  have hstart : Renders { st with textCommaIdx := 9 } s := hst
  have hst' := renders_foldlM (lineSpans sectionText) h hstart
  rwa [flatten_lineSpans] at hst'

theorem renders_foldl_addOpaque (texts : List Str) : ∀ {st : EventsState} {s : Str},
    Renders st s → Renders (texts.foldl EventsState.addOpaque st) (s ++ texts.flatten) := by
  induction texts with
  | nil =>
    intro st s hst
    simpa using hst
  | cons text texts ih =>
    intro st s hst
    have hst' := ih (hst.addOpaque text)
    simpa using hst'

theorem renders_parseSections {le : Str} (texts : List Str) : ∀ {st st' : EventsState} {s : Str},
    parseSections le st texts = .ok st' → Renders st s → Renders st' (s ++ texts.flatten) := by
  induction texts with
  | nil =>
    intro st st' s h hst
    cases h
    simpa using hst
  | cons text texts ih =>
    intro st st' s h hst
    rw [List.flatten_cons, ← List.append_assoc]
    simp only [parseSections] at h
    split at h
    next =>
      obtain ⟨st₁, hsection, hrest⟩ := bind_ok h
      cases hrest
      exact renders_foldl_addOpaque texts (renders_parseEventsSection hsection hst)
    next => exact ih h (hst.addOpaque text)

/-- Whatever the sections, columns and line ends, the document writes the text it was read from,
in the encoding it was read with. -/
theorem ass_byte_identity {encoding text : Str} {doc : SubDoc}
    (h : readAss encoding text = .ok doc) : writeAss doc = some text ∧ doc.encoding = encoding := by
  rw [readAss_eq] at h
  obtain ⟨st, hst, rfl⟩ := map_ok h
  have htext := flatten_cutSections text true
  have hrenders : Renders st text := by
    rw [← htext]
    unfold readPieces at hst
    split at hst
    next front hpieces =>
      cases hst
      simpa [hpieces] using Renders.empty.addOpaque front
    next front texts _ hpieces =>
      rw [hpieces]
      refine renders_parseSections _ hst ?_
      split
      next hfront =>
        rw [hfront]
        exact .empty
      next => simpa using Renders.empty.addOpaque front
  have hwrite := hrenders []
  rw [List.append_nil] at hwrite
  exact ⟨hwrite, rfl⟩

/-- Three columns, a line too short for them, four kinds of line end and a second events section. -/
def threeColumns : Str :=
  "; by hand\n[Script Info]\r\n[Events]\r\nFormat: Layer, Start, Text\nDialogue: 0,0:01,Hi, you\u2028" ++
    "\rComment: 0,,\x0c\nDialogue: 0\r\n[Events]\nDialogue: 0,0:02,Bye"

theorem threeColumns_identity : ∃ doc, readAss "utf-8" threeColumns = .ok doc ∧
    writeAss doc = some threeColumns ∧ doc.encoding = "utf-8" := by
  obtain ⟨doc, h⟩ := isOk_elim (x := readAss "utf-8" threeColumns) (by decide +kernel)
  exact ⟨doc, h, ass_byte_identity h⟩

end Trezarr
