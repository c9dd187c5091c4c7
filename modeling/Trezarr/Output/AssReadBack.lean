import Trezarr.Subtitles.AssEvents
import Trezarr.Translate.Assembly

/-! When a translated Advanced SubStation document is read back from its sidecar. -/
namespace Trezarr
open Text Regex Regex.Pattern Fallible

/-- A cue that is read back in the line it is written in. -/
structure AssFits (linePrefix ending : Str) (last : Prop) (line : SubLine) : Prop where
  plain : found karaokeRe line.text = false ∧ found drawingRe line.text = false
  /-- With three columns the text is also the end time. -/
  endTime : linePrefix.count ',' = 2 → strip line.text = line.endTc
  oneLine : OneLine ending last line.text

/-- Every cue that is not kept raw fits in its line. -/
def AllFitAss (i : ℕ) (segments : List AssSegment) (lines : List SubLine) : Prop :=
  ∀ before linePrefix ending j after line,
    segments = before ++ .dialogueSlot linePrefix ending j :: after → lines[j - i]? = some line →
      line.raw = none → AssFits linePrefix ending (after = []) line

theorem AssParsed.le_index {k i : ℕ} {spans : List (Str × Str)} {segments : List AssSegment}
    {lines : List SubLine} (h : AssParsed k i spans segments lines) :
    ∀ {linePrefix ending j}, .dialogueSlot linePrefix ending j ∈ segments → i ≤ j := by
  induction h with
  | nil => nofun
  | other _ _ ih =>
    intro linePrefix ending j hmem
    rcases List.mem_cons.mp hmem with hhead | hthere
    · cases hhead
    · exact ih hthere
  | short _ _ _ _ ih =>
    intro linePrefix ending j hmem
    rcases List.mem_cons.mp hmem with hhead | hthere
    · cases hhead
      exact Nat.le_refl _
    · exact Nat.le_of_succ_le (ih hthere)
  | slot _ _ _ _ _ ih =>
    intro linePrefix ending j hmem
    rcases List.mem_cons.mp hmem with hhead | hthere
    · cases hhead
      exact Nat.le_refl _
    · exact Nat.le_of_succ_le (ih hthere)

/-- Segments that are no cues. -/
def AllOpaque (segments : List AssSegment) : Prop :=
  ∀ segment ∈ segments, ∃ raw, segment = .opaqueSegment raw

theorem AssParsed.slot_index {k i : ℕ} {spans : List (Str × Str)}
    {segments others before after : List AssSegment} {lines : List SubLine}
    {linePrefix ending : Str} {j : ℕ} (h : AssParsed k i spans segments lines)
    (hothers : AllOpaque others)
    (heq : segments ++ others = before ++ .dialogueSlot linePrefix ending j :: after) : i ≤ j := by
  have hall : .dialogueSlot linePrefix ending j ∈ segments ++ others := by
    rw [heq]
    simp
  rcases List.mem_append.mp hall with hmem | hmem
  · exact h.le_index hmem
  · obtain ⟨raw, hraw⟩ := hothers _ hmem
    cases hraw

theorem AllFitAss.of_other {i : ℕ} {raw : Str} {segments : List AssSegment} {lines : List SubLine}
    (h : AllFitAss i (.opaqueSegment raw :: segments) lines) : AllFitAss i segments lines := by
  intro before linePrefix ending j after line heq
  exact h (.opaqueSegment raw :: before) _ _ _ _ _ (by rw [heq]; rfl)

/-- Fitting of the cues after the first one. -/
theorem AllFitAss.of_cue {k i : ℕ} {linePrefix ending : Str} {spans : List (Str × Str)}
    {segments others : List AssSegment} {line : SubLine} {olds lines : List SubLine}
    (h : AllFitAss i (.dialogueSlot linePrefix ending i :: segments ++ others) (line :: lines))
    (hparsed : AssParsed k (i + 1) spans segments olds) (hothers : AllOpaque others) :
    AllFitAss (i + 1) (segments ++ others) lines := by
  intro before linePrefix' ending' j after line' heq hget hraw
  refine h (.dialogueSlot linePrefix ending i :: before) _ _ j _ _
    (by rw [List.cons_append, heq]; rfl) ?_ hraw
  have hindex := hparsed.slot_index hothers heq
  have hj : j - i = (j - (i + 1)) + 1 := by omega
  rw [hj, List.getElem?_cons_succ]
  exact hget

theorem AssParsed.segments_eq_nil {k i : ℕ} {spans : List (Str × Str)}
    {segments : List AssSegment} {lines : List SubLine}
    (h : AssParsed k i spans segments lines) : segments = [] ↔ spans = [] := by
  cases h <;> simp

theorem columnsCue_of_fits {linePrefix ending : Str} {last : Prop} {k : ℕ} {front : List Str}
    {old : Str} {line : SubLine} (hcolumns : Columns k linePrefix front) (hk : 2 ≤ k)
    (hframe : SameFrame (columnsCue front old) line) (hraw : line.raw = none)
    (h : AssFits linePrefix ending last line) : columnsCue front line.text = line := by
  obtain ⟨hindex, hstart, hend, _, _⟩ := hframe
  have hlen := hcolumns.length
  have hkind : (if found karaokeRe line.text || found drawingRe line.text then some line.text
      else none) = none := by
    rw [h.plain.1, h.plain.2]
    rfl
  have hfinish : strip (((front ++ [line.text])[2]?).getD []) = line.endTc := by
    by_cases htwo : k = 2
    · have hget : (front ++ [line.text])[2]? = some line.text := by
        rw [List.getElem?_append_right (by omega), hlen, htwo]
        rfl
      rw [hget]
      exact h.endTime (hcolumns.count.trans htwo)
    · rw [hend]
      simp only [columnsCue]
      rw [List.getElem?_append_left (by omega), List.getElem?_append_left (by omega)]
  have hcue : columnsCue front line.text = ⟨[], line.startTc, line.endTc, line.text, none⟩ := by
    unfold columnsCue
    rw [hkind, hfinish, hstart]
    rfl
  rw [hcue]
  cases line
  simp_all [columnsCue]

/-- The lines of a section with other texts in their cues. -/
theorem AssParsed.retext {others : List AssSegment} (hothers : AllOpaque others) {k i : ℕ}
    {spans : List (Str × Str)} {segments : List AssSegment} {olds : List SubLine}
    (h : AssParsed k i spans segments olds) : Spanned spans → ∀ {lines : List SubLine},
      List.Forall₂ SameFrame olds lines → AllFitAss i (segments ++ others) lines →
        ∃ spans', AssParsed k i spans' segments lines ∧ SameShape spans spans' := by
  induction h with
  | nil =>
    intro _ lines hframes _
    cases hframes
    exact ⟨[], .nil, .nil⟩
  | other hno hrest ih =>
    intro hspanned lines hframes hfit
    obtain ⟨spans', hparsed, halike⟩ := ih hspanned.tail hframes hfit.of_other
    exact ⟨_, .other hno hparsed, halike.kept hspanned⟩
  | @short k i span content ending spans segments olds hyes hspan hcount hrest ih =>
    intro hspanned lines hframes hfit
    cases hframes with
    | @cons _ line _ lines hframe hframes =>
      obtain ⟨spans', hparsed, halike⟩ := ih hspanned.tail hframes
        (hfit.of_cue hrest hothers)
      rw [hframe.verbatim (by simp)]
      exact ⟨_, .short hyes hspan hcount hparsed, halike.kept hspanned⟩
  | @slot k i span linePrefix text ending front spans segments _ hyes hspan hcolumns hk hrest ih =>
    intro hspanned lines hframes hfit
    cases hframes with
    | @cons _ line _ lines hframe hframes =>
      obtain ⟨spans', hparsed, halike⟩ := ih hspanned.tail hframes
        (hfit.of_cue hrest hothers)
      cases hold : (columnsCue front text).raw with
      | some raw =>
        rw [hframe.verbatim (by simp [hold])]
        exact ⟨_, .slot hyes hspan hcolumns hk hparsed, halike.kept hspanned⟩
      | none =>
        have hraw := hframe.sent hold
        have hfits := hfit [] linePrefix ending i (segments ++ others) line rfl (by simp) hraw
        have hcontent := content_lineOfSpan hspanned
        have hdialogue : "Dialogue:".toList <+: (lineOfSpan span).1 := of_decide_eq_true hyes
        rw [hspan] at hcontent hdialogue
        have hfront := hcontent.isFront hdialogue hcolumns hk
        have hempty : spans = [] → spans' = [] := fun hnil =>
          hparsed.segments_eq_nil.mp (hrest.segments_eq_nil.mpr hnil)
        have hlast : segments ++ others = [] → spans = [] := fun hnil =>
          hrest.segments_eq_nil.mp (List.append_eq_nil_iff.mp hnil).1
        have hone := hfits.oneLine.mono hlast
        obtain ⟨span', hspan', hspanned'⟩ :=
          exists_retext_span hspanned hspan hfront halike hempty hone
        have hyes' : isDialogueLine span' = true := by
          have hstarts := hfront.dialogue.trans (List.prefix_append linePrefix line.text)
          simp only [isDialogueLine, hspan']
          exact decide_eq_true hstarts
        have hslot := AssParsed.slot hyes' hspan' hcolumns hk hparsed
        rw [columnsCue_of_fits hcolumns hk hframe hraw hfits] at hslot
        have hno := hcontent.not_mem
        simp only [List.mem_append, not_or] at hno
        exact ⟨_, hslot, halike.slot hfront hspan hspan' hspanned' ⟨hno.1.2, hno.2.2⟩ hone.not_mem⟩

/-- The text before the first separator is settled by what ends with it. -/
theorem beforeFirst_cases (sep : Str) : ∀ s, beforeFirst sep s = s ∨
    ∃ rest, s = beforeFirst sep s ++ (sep ++ rest) ∧
      ∀ rest', beforeFirst sep (beforeFirst sep s ++ (sep ++ rest')) = beforeFirst sep s := by
  intro s
  induction s with
  | nil => exact .inl rfl
  | cons c s ih =>
    by_cases hhere : sep <+: c :: s
    · have hnil : beforeFirst sep (c :: s) = [] := by simp [beforeFirst, hhere]
      obtain ⟨rest, hrest⟩ := hhere
      refine .inr ⟨rest, by rw [hnil, List.nil_append, hrest], fun rest' => ?_⟩
      rw [hnil, List.nil_append]
      cases hsep : sep ++ rest' with
      | nil => rfl
      | cons d t =>
        have hprefix : sep <+: d :: t := hsep ▸ List.prefix_append sep rest'
        simp [beforeFirst, hprefix]
    · have hcons : beforeFirst sep (c :: s) = c :: beforeFirst sep s := by
        simp [beforeFirst, hhere]
      rw [hcons]
      rcases ih with hall | ⟨rest, hs, hfirst⟩
      · exact .inl (by rw [hall])
      · refine .inr ⟨rest, by rw [List.cons_append, ← hs], fun rest' => ?_⟩
        have hnot : ¬ sep <+: c :: (beforeFirst sep s ++ (sep ++ rest')) := by
          intro hprefix
          apply hhere
          have hwhole : c :: (beforeFirst sep s ++ sep) <+:
              c :: (beforeFirst sep s ++ (sep ++ rest')) :=
            ⟨rest', by simp⟩
          have hlen : sep.length ≤ (c :: (beforeFirst sep s ++ sep)).length := by
            simp only [List.length_cons, List.length_append]
            omega
          refine (List.prefix_of_prefix_length_le hprefix hwhole hlen).trans ⟨rest, ?_⟩
          conv => rhs; rw [hs]
          simp
        simp only [List.cons_append, beforeFirst, if_neg hnot, hfirst rest']

theorem isSpace_or_mem_strip {s : Str} {c : Char} (h : c ∈ s) :
    isSpace c = true ∨ c ∈ strip s := by
  rw [← List.takeWhile_append_dropWhile (p := isSpace) (l := s)] at h
  rcases List.mem_append.mp h with h | h
  · exact .inl (List.mem_takeWhile_imp h)
  · have hl : s.dropWhile isSpace = strip s ++ (lstrip s).rtakeWhile isSpace :=
      (List.rdropWhile_append_rtakeWhile (p := isSpace) (l := lstrip s)).symm
    rw [hl] at h
    rcases List.mem_append.mp h with h | h
    · exact .inr h
    · exact .inl (List.mem_rtakeWhile_imp h)

theorem detectLineEnding_congr {s s' : Str} (h : NoReturns s' ↔ NoReturns s) :
    detectLineEnding s' = detectLineEnding s := by
  rw [detectLineEnding_eq (isNewline_detectLineEnding s)]
  rw [h]
  exact (detectLineEnding_eq (isNewline_detectLineEnding s)).mp rfl

/-- The first line of the section is before its cues. -/
theorem isEventsSection_retext {le old new front : Str} (hle : IsNewline le)
    (hsame : old = new ∨ old.head? = some 'D')
    (hreturns : NoReturns (front ++ new) ↔ NoReturns (front ++ old))
    (h : isEventsSection le (front ++ old) = true) : isEventsSection le (front ++ new) = true := by
  rcases hsame with rfl | hhead
  · exact h
  · obtain ⟨rest, rfl⟩ := List.head?_eq_some_iff.mp hhead
    have hsep : (if contains (front ++ new) le then le else "\n") =
        if contains (front ++ 'D' :: rest) le then le else "\n" := by
      cases hle with
      | lf => rw [show ("\n" : Str) = ['\n'] from rfl, ite_self, ite_self]
      | crlf =>
        have hcontains : contains (front ++ new) ['\r', '\n'] =
            contains (front ++ 'D' :: rest) ['\r', '\n'] := by
          unfold NoReturns at hreturns
          rw [Bool.eq_iff_iff, ← Bool.not_eq_false, ← Bool.not_eq_false]
          exact not_congr hreturns
        rw [hcontains]
    unfold isEventsSection at h ⊢
    rw [hsep]
    generalize hsepDef : (if contains (front ++ 'D' :: rest) le then le else "\n") = sep at h ⊢
    have hD : 'D' ∉ sep := by
      rw [← hsepDef]
      cases hle <;> split <;> decide
    have hfirst : 'D' ∉ beforeFirst sep (front ++ 'D' :: rest) := by
      intro hmem
      rcases isSpace_or_mem_strip hmem with hspace | hmem
      · exact absurd hspace (by decide)
      · rw [of_decide_eq_true h] at hmem
        exact absurd hmem (by decide)
    rcases beforeFirst_cases sep (front ++ 'D' :: rest) with hall | ⟨tail, hcut, hany⟩
    · rw [hall] at hfirst
      exact absurd (by simp) hfirst
    · have hfront : ∃ z, front = beforeFirst sep (front ++ 'D' :: rest) ++ sep ++ z := by
        have hcut' := hcut
        rw [← List.append_assoc] at hcut'
        rcases List.append_eq_append_iff.mp hcut' with ⟨z, hz, hrest⟩ | ⟨z, hz, _⟩
        · cases z with
          | nil => exact ⟨[], by simpa using hz.symm⟩
          | cons d z =>
            obtain ⟨rfl, _⟩ := List.cons.inj hrest
            have hmem : 'D' ∈ beforeFirst sep (front ++ 'D' :: rest) ++ sep := by
              rw [hz]
              simp
            rcases List.mem_append.mp hmem with hmem | hmem
            · exact absurd hmem hfirst
            · exact absurd hmem hD
        · exact ⟨z, hz⟩
      obtain ⟨z, hz⟩ := hfront
      have hnew : front ++ new =
          beforeFirst sep (front ++ 'D' :: rest) ++ (sep ++ (z ++ new)) := by
        conv => lhs; rw [hz]
        simp
      rw [hnew, hany]
      exact h

theorem foldl_addOpaque (texts : List Str) : ∀ st : EventsState,
    texts.foldl EventsState.addOpaque st =
      { st with segments := st.segments ++ texts.map .opaqueSegment } := by
  induction texts with
  | nil =>
    intro st
    simp
  | cons text texts ih =>
    intro st
    rw [List.foldl_cons, ih]
    simp [EventsState.addOpaque]

theorem parseSections_events {le : Str} {before after : List Str} {events : Str}
    (hbefore : ∀ text ∈ before, isEventsSection le text = false)
    (hevents : isEventsSection le events = true) : ∀ st : EventsState,
      parseSections le st (before ++ events :: after) =
        (parseEventsSection (before.foldl EventsState.addOpaque st) events).map
          (after.foldl EventsState.addOpaque) := by
  induction before with
  | nil =>
    intro st
    simp only [List.nil_append, parseSections, hevents, if_true, List.foldl_nil]
    rfl
  | cons text before ih =>
    intro st
    have hno := hbefore text List.mem_cons_self
    simp only [List.cons_append, parseSections, hno, List.foldl_cons]
    exact ih (fun t ht => hbefore t (List.mem_cons_of_mem text ht)) _

theorem parseSections_none {le : Str} {texts : List Str}
    (h : ∀ text ∈ texts, isEventsSection le text = false) : ∀ st : EventsState,
      parseSections le st texts = .ok (texts.foldl EventsState.addOpaque st) := by
  induction texts with
  | nil => exact fun _ => rfl
  | cons text texts ih =>
    intro st
    have hno := h text List.mem_cons_self
    simp only [parseSections, hno, List.foldl_cons]
    exact ih (fun t ht => h t (List.mem_cons_of_mem text ht)) _

def frontSegments (front : Str) : List AssSegment :=
  if front = [] then [] else [.opaqueSegment front]

/-- What a text with an events section was read as. -/
structure AssReadAs (encoding text front : Str) (before : List Str) (events : Str)
    (after : List Str) (segments : List AssSegment) (doc : SubDoc) : Prop where
  cut : cutSections true text = (front, before ++ events :: after)
  others : ∀ section_ ∈ before, isEventsSection (detectLineEnding text) section_ = false
  isEvents : isEventsSection (detectLineEnding text) events = true
  parsed : AssParsed 9 0 (lineSpans events) segments doc.lines
  doc_eq : doc = { lines := doc.lines
                   encoding := encoding
                   lineEnding := detectLineEnding text
                   separators := []
                   envelope := .ass ⟨frontSegments front ++ before.map .opaqueSegment ++
                     (segments ++ after.map .opaqueSegment), encoding, detectLineEnding text⟩ }

theorem startState (front : Str) : (if front = [] then ({} : EventsState)
    else EventsState.addOpaque {} front) = { segments := frontSegments front } := by
  unfold frontSegments
  split <;> simp [EventsState.addOpaque]

theorem exists_first_events (le : Str) (texts : List Str) :
    (∀ text ∈ texts, isEventsSection le text = false) ∨
      ∃ before events after, texts = before ++ events :: after ∧
        (∀ text ∈ before, isEventsSection le text = false) ∧
          isEventsSection le events = true := by
  induction texts with
  | nil => exact .inl nofun
  | cons text texts ih =>
    cases hevents : isEventsSection le text with
    | true => exact .inr ⟨[], text, texts, rfl, nofun, hevents⟩
    | false =>
      rcases ih with hnone | ⟨before, events, after, rfl, hbefore, hfirst⟩
      · exact .inl (List.forall_mem_cons.mpr ⟨hevents, hnone⟩)
      · exact .inr ⟨text :: before, events, after, rfl,
          List.forall_mem_cons.mpr ⟨hevents, hbefore⟩, hfirst⟩

/-- A text is read with cues only from the first events section. -/
theorem readAss_cases {encoding text : Str} {doc : SubDoc} (h : readAss encoding text = .ok doc) :
    doc.lines = [] ∨ ∃ front before events after segments,
      AssReadAs encoding text front before events after segments doc := by
  rw [readAss_eq] at h
  obtain ⟨st, hst, rfl⟩ := map_ok h
  obtain ⟨front, texts, hcut⟩ : ∃ front texts, cutSections true text = (front, texts) :=
    ⟨_, _, rfl⟩
  rw [hcut] at hst
  cases texts with
  | nil =>
    cases hst
    exact .inl rfl
  | cons first texts =>
    simp only [readPieces, startState] at hst
    rcases exists_first_events (detectLineEnding text) (first :: texts) with
      hnone | ⟨before, events, after, htexts, hbefore, hevents⟩
    · rw [parseSections_none hnone, foldl_addOpaque] at hst
      cases hst
      exact .inl rfl
    · rw [htexts, parseSections_events hbefore hevents, foldl_addOpaque] at hst
      obtain ⟨st', hsection, rfl⟩ := map_ok hst
      obtain ⟨segments, lines, hparsed, hsegments, hlines⟩ := exists_assParsed _ hsection
      simp only [List.nil_append] at hlines hsegments
      refine .inr ⟨front, before, events, after, segments, by rw [hcut, htexts], hbefore, hevents,
        ?_, ?_⟩
      · rw [foldl_addOpaque]
        rw [hlines]
        exact hparsed
      · rw [foldl_addOpaque]
        simp only [hsegments, List.append_assoc]

theorem AssReadAs.unique {encoding text front events : Str} {before after : List Str}
    {segments : List AssSegment} {doc : SubDoc}
    (h : AssReadAs encoding text front before events after segments doc) :
    readAss encoding text = .ok doc := by
  obtain ⟨k', hfold⟩ := h.parsed.foldlM
    { segments := frontSegments front ++ before.map .opaqueSegment } rfl rfl
  rw [readAss_eq, h.cut]
  have hpieces : readPieces (detectLineEnding text) (front, before ++ events :: after) =
      parseSections (detectLineEnding text) { segments := frontSegments front }
        (before ++ events :: after) := by
    cases before <;> simp only [List.nil_append, List.cons_append, readPieces, startState]
  rw [hpieces, parseSections_events h.others h.isEvents, foldl_addOpaque]
  simp only [parseEventsSection, hfold]
  have hdoc := h.doc_eq
  simp only [Except.map, foldl_addOpaque, List.nil_append, List.append_assoc] at hdoc ⊢
  rw [← hdoc]

theorem allOpaque_map (texts : List Str) : AllOpaque (texts.map .opaqueSegment) := by
  intro segment hsegment
  obtain ⟨raw, _, rfl⟩ := List.mem_map.mp hsegment
  exact ⟨raw, rfl⟩

theorem allOpaque_front (front : Str) (before : List Str) :
    AllOpaque (frontSegments front ++ before.map .opaqueSegment) := by
  intro segment hsegment
  rcases List.mem_append.mp hsegment with h | h
  · unfold frontSegments at h
    split at h
    next => cases h
    next => exact ⟨front, List.mem_singleton.mp h⟩
  · exact allOpaque_map before segment h

/-- The cues are all after the segments of the sections before. -/
theorem allFitAss_append {before segments : List AssSegment} (hbefore : AllOpaque before) {i : ℕ}
    {lines : List SubLine} :
    AllFitAss i (before ++ segments) lines ↔ AllFitAss i segments lines := by
  constructor
  · intro h init linePrefix ending j after line heq
    exact h (before ++ init) _ _ _ _ _ (by rw [heq, List.append_assoc])
  · intro h init linePrefix ending j after line heq
    rcases List.append_eq_append_iff.mp heq with ⟨z, _, hsegments⟩ | ⟨z, hz, hrest⟩
    · exact h z _ _ _ _ _ hsegments
    · cases z with
      | nil => exact h [] _ _ _ _ _ hrest.symm
      | cons segment z =>
        obtain ⟨rfl, _⟩ := List.cons.inj hrest
        obtain ⟨raw, hraw⟩ := hbefore (.dialogueSlot linePrefix ending j) (by rw [hz]; simp)
        cases hraw

theorem head?_flatten {texts : List Str} {b : Bool} (h : SectionsAt b texts) :
    texts.flatten.head? ≠ some '\n' := by
  cases texts with
  | nil => simp
  | cons text texts =>
    obtain ⟨rest, hrest⟩ := List.head?_eq_some_iff.mp h.2.1
    rw [List.flatten_cons, hrest]
    simp

/-- The text with the cues retexted is what the document is read from. -/
theorem AssReadAs.retext {encoding text front events : Str} {before after : List Str}
    {segments : List AssSegment} {doc : SubDoc} {lines : List SubLine}
    {spans' : List (Str × Str)}
    (h : AssReadAs encoding text front before events after segments doc)
    (hparsed : AssParsed 9 0 spans' segments lines) (halike : SameShape (lineSpans events) spans') :
    AssReadAs encoding (front ++ (before ++ flat spans' :: after).flatten) front before
      (flat spans') after segments (withLines doc lines) := by
  obtain ⟨hfront, hsections⟩ := cutSections_spec text true
  have htext := flatten_cutSections text true
  rw [h.cut] at hfront hsections htext
  dsimp only at hfront hsections htext
  obtain ⟨hbefore, hb, hhead, hno, hafter⟩ := (sectionsAt_append _).mp hsections
  have hflat := flat_lineSpans events
  have hheads := halike.head
  obtain ⟨hno', hstate⟩ := halike.headers false (by rwa [hflat])
  rw [hflat] at hheads hstate
  have hsections' : SectionsAt (endState true front) (before ++ flat spans' :: after) :=
    (sectionsAt_append _).mpr ⟨hbefore, hb, hheads.trans hhead, hno', by rwa [hstate]⟩
  have hreturns : NoReturns (front ++ (before ++ flat spans' :: after).flatten) ↔
      NoReturns text := by
    rw [← htext]
    apply noReturns_append_congr
    · simp only [List.flatten_append, List.flatten_cons]
      apply head?_append_of_head?
      rw [List.head?_append, List.head?_append, hheads]
    · simp only [List.flatten_append, List.flatten_cons]
      apply noReturns_append_congr
      · rw [List.head?_append, List.head?_append, hheads]
      · have hends := halike.returns
        rw [hflat] at hends
        rw [noReturns_append, noReturns_append, hends]
        have hhead' := head?_flatten hafter
        simp [hhead']
  have hle := detectLineEnding_congr hreturns
  refine ⟨cutSections_eq hfront hsections', ?_, ?_, ?_, ?_⟩
  · rw [hle]
    exact h.others
  · rw [hle]
    obtain ⟨start, old, new, hold, hnew, hsame⟩ := halike.front
    have hback := halike.returns
    rw [hold, hnew] at hback
    have hevents := h.isEvents
    rw [← hflat, hold] at hevents
    rw [hnew]
    exact isEventsSection_retext (isNewline_detectLineEnding text) hsame hback hevents
  · rw [lineSpans_flat halike.spanned]
    exact hparsed
  · rw [hle]
    have hdoc := h.doc_eq
    rw [hdoc]
    rfl

/-- The text of a cue in its line. -/
theorem Content.oneLine {span : Str × Str} {linePrefix text ending : Str}
    (h : Content span (linePrefix ++ text) ending) (hfront : IsFront linePrefix) {last : Prop}
    (hlast : span.2 = [] → last) : OneLine ending last text := by
  generalize hcontent : linePrefix ++ text = content at h
  have htail : ∀ {s : Str}, NoBreaks (linePrefix ++ s) → NoBreaks s :=
    fun hs c hc => hs c (List.mem_append_right _ hc)
  cases h with
  | ended hline hne _ =>
    rw [← hcontent] at hline
    exact .ended hne (htail hline)
  | atEnd hline =>
    rw [← hcontent] at hline
    exact .atEnd rfl (hlast rfl) (htail hline)
  | @broken line c hline hc hother =>
    rcases List.eq_nil_or_concat text with rfl | ⟨front, d, rfl⟩
    · rw [List.append_nil] at hcontent
      have hc' := hfront.oneLine c (by rw [hcontent]; simp)
      rw [hc] at hc'
      cases hc'
    · rw [List.concat_eq_append, ← List.append_assoc] at hcontent
      obtain ⟨rfl, hd⟩ := List.append_inj' hcontent rfl
      cases hd
      rw [List.concat_eq_append]
      exact .broken rfl (htail hline) hc hother

/-- More sections come after a line feed. -/
def EndsLine (spans : List (Str × Str)) (others : List AssSegment) : Prop :=
  others = [] ∨ spans = [] ∨ (flat spans).getLast? = some '\n'

theorem EndsLine.tail {span : Str × Str} {spans : List (Str × Str)} {others : List AssSegment}
    (h : EndsLine (span :: spans) others) (hspanned : Spanned spans) : EndsLine spans others := by
  rcases h with hnil | hnil | hlast
  · exact .inl hnil
  · cases hnil
  · by_cases hempty : flat spans = []
    · exact .inr (.inl (hspanned.eq_nil hempty))
    · obtain ⟨line, ending⟩ := span
      rw [flat_cons, ← List.append_assoc, List.getLast?_append_of_ne_nil _ hempty] at hlast
      exact .inr (.inr hlast)

/-- A cue that was read fits in its line. -/
theorem columnsCue_fits {span : Str × Str} {spans : List (Str × Str)} {linePrefix text ending : Str}
    {front : List Str} {k : ℕ} {others : List AssSegment} (hspanned : Spanned (span :: spans))
    (hyes : isDialogueLine span = true) (hspan : lineOfSpan span = (linePrefix ++ text, ending))
    (hcolumns : Columns k linePrefix front) (hk : 2 ≤ k) (hends : EndsLine (span :: spans) others)
    (hraw : (columnsCue front text).raw = none) :
    AssFits linePrefix ending (spans = [] ∧ others = []) (columnsCue front text) := by
  have hcontent := content_lineOfSpan hspanned
  have hdialogue : "Dialogue:".toList <+: (lineOfSpan span).1 := of_decide_eq_true hyes
  rw [hspan] at hcontent hdialogue
  have hfront := hcontent.isFront hdialogue hcolumns hk
  refine ⟨?_, fun htwo => ?_, hcontent.oneLine hfront fun hnil => ?_⟩
  · cases hkaraoke : found karaokeRe text <;> cases hdrawing : found drawingRe text <;>
      simp_all [columnsCue]
  · have hlen : front.length = 2 := hcolumns.length.trans (hcolumns.count.symm.trans htwo)
    have hget : (front ++ [text])[2]? = some text := by
      rw [List.getElem?_append_right (by omega), hlen]
      rfl
    simp only [columnsCue, hget, Option.getD_some]
  · -- nothing comes after a line that is not ended
    obtain ⟨line, e⟩ := span
    dsimp only at hnil
    subst hnil
    cases hspanned with
    | cons hline hend hne hrest =>
      have hflat : flat spans = [] := by
        generalize flat spans = rest at hend
        cases hend
        rfl
      have hspans := hrest.eq_nil hflat
      refine ⟨hspans, ?_⟩
      rcases hends with hnone | hnil | hlast
      · exact hnone
      · cases hnil
      · rw [flat_cons, hflat, List.append_nil, List.append_nil] at hlast
        have hbreak := hline '\n' (List.mem_of_getLast? hlast)
        exact absurd hbreak (by decide)

theorem AssParsed.allFit {others : List AssSegment} (hothers : AllOpaque others) {k i : ℕ}
    {spans : List (Str × Str)} {segments : List AssSegment} {lines : List SubLine}
    (h : AssParsed k i spans segments lines) : Spanned spans → EndsLine spans others →
      AllFitAss i (segments ++ others) lines := by
  have hstep : ∀ {k i : ℕ} {spans : List (Str × Str)} {segments : List AssSegment}
      {cue : SubLine} {lines : List SubLine} {before after : List AssSegment}
      {linePrefix ending : Str} {j : ℕ} {line : SubLine}, AssParsed k (i + 1) spans segments lines →
        AllFitAss (i + 1) (segments ++ others) lines →
          segments ++ others = before ++ .dialogueSlot linePrefix ending j :: after →
            (cue :: lines)[j - i]? = some line → line.raw = none →
              AssFits linePrefix ending (after = []) line := by
    intro k i spans segments cue lines before after linePrefix ending j line hparsed hfit heq hget
    refine hfit before _ _ j _ _ heq ?_
    have hindex := hparsed.slot_index hothers heq
    have hj : j - i = (j - (i + 1)) + 1 := by omega
    rw [hj, List.getElem?_cons_succ] at hget
    exact hget
  induction h with
  | nil =>
    intro _ _ before linePrefix ending j after line heq
    obtain ⟨raw, hraw⟩ := hothers (.dialogueSlot linePrefix ending j)
      (by rw [← List.nil_append others, heq]; simp)
    cases hraw
  | other hno hrest ih =>
    intro hspanned hends before linePrefix ending j after line heq hget hraw
    cases before with
    | nil => cases heq
    | cons segment before =>
      exact ih hspanned.tail (hends.tail hspanned.tail) before _ _ j _ _ (List.cons.inj heq).2
        hget hraw
  | short hyes hspan hcount hrest ih =>
    intro hspanned hends before linePrefix ending j after line heq hget hraw
    cases before with
    | nil =>
      cases heq
      rw [Nat.sub_self] at hget
      cases hget
      cases hraw
    | cons segment before =>
      have hfit := ih hspanned.tail (hends.tail hspanned.tail)
      exact hstep hrest hfit (List.cons.inj heq).2 hget hraw
  | slot hyes hspan hcolumns hk hrest ih =>
    intro hspanned hends before linePrefix ending j after line heq hget hraw
    cases before with
    | nil =>
      cases heq
      rw [Nat.sub_self] at hget
      cases hget
      have hfits := columnsCue_fits hspanned hyes hspan hcolumns hk hends hraw
      refine ⟨hfits.plain, hfits.endTime, hfits.oneLine.mono fun hlast => ?_⟩
      rw [hrest.segments_eq_nil.mpr hlast.1, hlast.2]
      rfl
    | cons segment before =>
      have hfit := ih hspanned.tail (hends.tail hspanned.tail)
      exact hstep hrest hfit (List.cons.inj heq).2 hget hraw

theorem AssReadAs.allFit {encoding text front events : Str} {before after : List Str}
    {segments : List AssSegment} {doc : SubDoc}
    (h : AssReadAs encoding text front before events after segments doc) :
    AllFitAss 0 doc.assSegments doc.lines := by
  obtain ⟨_, hsections⟩ := cutSections_spec text true
  rw [h.cut] at hsections
  obtain ⟨_, _, hhead, _, hafter⟩ := (sectionsAt_append _).mp hsections
  have hends : EndsLine (lineSpans events) (after.map AssSegment.opaqueSegment) := by
    cases after with
    | nil => exact .inl rfl
    | cons text after =>
      obtain ⟨rest, rfl⟩ := List.head?_eq_some_iff.mp hhead
      refine .inr (.inr ?_)
      have hstart := hafter.1
      rw [flat_lineSpans]
      cases hlast : ('[' :: rest).getLast? with
      | none => simp at hlast
      | some c =>
        rw [endState_of_last hlast] at hstart
        rw [of_decide_eq_true hstart]
  have hfit := h.parsed.allFit (allOpaque_map after) (spanned_lineSpans events) hends
  have hsegments : doc.assSegments = frontSegments front ++ before.map .opaqueSegment ++
      (segments ++ after.map .opaqueSegment) := by
    rw [h.doc_eq]
    rfl
  rw [hsegments]
  exact (allFitAss_append (allOpaque_front front before)).mpr hfit

/-- A document with other texts in its cues is read back from what is written for it just when
every text that is not kept raw stays in its line, shows no karaoke or drawing tag and, where it
is the end time too, leaves that time as it is. -/
theorem readAss_writeAss_iff {encoding text : Str} {doc : SubDoc}
    (h : readAss encoding text = .ok doc) {lines : List SubLine}
    (hframes : List.Forall₂ SameFrame doc.lines lines) :
    (writeAss (withLines doc lines)).map (readAss encoding) = some (.ok (withLines doc lines)) ↔
      AllFitAss 0 doc.assSegments lines := by
  constructor
  · intro hsame
    obtain ⟨out, _, hback⟩ := Option.map_eq_some_iff.mp hsame
    rcases readAss_cases hback with hnil | ⟨front, before, events, after, segments, hread⟩
    · intro _ _ _ _ _ _ _ hget
      rw [show lines = [] from hnil] at hget
      cases hget
    · exact hread.allFit
  · intro hfit
    rcases readAss_cases h with hnil | ⟨front, before, events, after, segments, hread⟩
    · rw [hnil] at hframes
      cases hframes
      have hdoc : withLines doc [] = doc := by
        rw [← hnil]
        rfl
      rw [hdoc, (ass_byte_identity h).1, Option.map_some, h]
    · have hsegments : doc.assSegments = frontSegments front ++ before.map .opaqueSegment ++
          (segments ++ after.map .opaqueSegment) := by
        rw [hread.doc_eq]
        rfl
      rw [hsegments, allFitAss_append (allOpaque_front front before)] at hfit
      obtain ⟨spans', hparsed, halike⟩ := hread.parsed.retext (allOpaque_map after)
        (spanned_lineSpans events) hframes hfit
      have hback := (hread.retext hparsed halike).unique
      rw [(ass_byte_identity hback).1, Option.map_some, hback]

def assGreeting : Str :=
  "[Events]\nFormat: Layer, Start, End, Text\nDialogue: 0,0:01,0:02,Hi.\n[Fonts]\n"

def assGreetingCue (text : Str) : SubLine := ⟨[], "0:01", "0:02", text, none⟩

def assGreetingDoc : SubDoc :=
  ⟨[assGreetingCue "Hi."], "utf-8", "\n", [], [], [],
    .ass ⟨[.opaqueSegment "[Events]\n", .opaqueSegment "Format: Layer, Start, End, Text\n",
      .dialogueSlot "Dialogue: 0,0:01,0:02," "\n" 0, .opaqueSegment "[Fonts]\n"], "utf-8", "\n"⟩⟩

theorem assGreeting_read : readAss "utf-8" assGreeting = .ok assGreetingDoc := by decide +kernel

/-- A comma in the translation is text, a line feed is the end of the line. -/
theorem assGreeting_reads_back :
    AllFitAss 0 assGreetingDoc.assSegments [assGreetingCue "Xin, chào."] ∧
      ¬ AllFitAss 0 assGreetingDoc.assSegments [assGreetingCue "Xin\nchào."] := by
  have hframes : ∀ text, List.Forall₂ SameFrame assGreetingDoc.lines [assGreetingCue text] :=
    fun text => .cons (.of_sent rfl text) .nil
  constructor
  · apply (readAss_writeAss_iff assGreeting_read (hframes _)).mp
    decide +kernel
  · intro hfit
    have hback := (readAss_writeAss_iff assGreeting_read (hframes _)).mpr hfit
    revert hback
    decide +kernel

end Trezarr
