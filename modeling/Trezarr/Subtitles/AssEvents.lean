import Trezarr.Subtitles.AssLines

/-! The lines of an events section as segments and cues, and what another text does to them. -/
namespace Trezarr
open Text Regex Regex.Pattern Fallible

def isDialogueLine (span : Str × Str) : Bool := "Dialogue:".toList <+: (lineOfSpan span).1

theorem parseEventLine_other {st : EventsState} {span : Str × Str}
    (h : isDialogueLine span = false) : parseEventLine st span =
      .ok ({ st with textCommaIdx := (eventLine st.textCommaIdx span).commas }.addOpaque
        (span.1 ++ span.2)) := by
  have hno : ¬ "Dialogue:".toList <+: (lineOfSpan span).1 := of_decide_eq_false h
  rw [← lineOfSpan_append span]
  simp only [parseEventLine, eventLine]
  by_cases hformat : "Format:".toList <+: (lineOfSpan span).1
  · rw [if_pos hformat, if_pos hformat]
    rfl
  · rw [if_neg hformat, if_neg hformat, if_neg hno]
    split <;> rfl

theorem parseEventLine_dialogue {st : EventsState} {span : Str × Str}
    (h : isDialogueLine span = true) : parseEventLine st span =
      parseDialogueLine st (lineOfSpan span).1 (lineOfSpan span).2 := by
  have hyes : "Dialogue:".toList <+: (lineOfSpan span).1 := of_decide_eq_true h
  simp only [parseEventLine]
  rw [if_neg fun hformat => not_dialogue_of_format hformat hyes,
    if_neg fun hcomment => not_dialogue_of_comment hcomment hyes, if_pos hyes]

/-- The cue of a dialogue line with these columns. -/
def columnsCue (front : List Str) (text : Str) : SubLine :=
  ⟨[], strip ((front[1]?).getD []), strip (((front ++ [text])[2]?).getD []), text,
    if found karaokeRe text || found drawingRe text then some text else none⟩

theorem parseDialogueLine_short {st : EventsState} {content ending : Str}
    (h : content.count ',' < st.textCommaIdx) : parseDialogueLine st content ending =
      .ok (st.addSlot [] ending ⟨[], [], [], content, some content⟩) := by
  have hlen := splitMax_length ',' st.textCommaIdx content
  simp only [parseDialogueLine]
  rw [if_pos (by omega)]

theorem parseDialogueLine_columns {st : EventsState} {linePrefix text ending : Str}
    {front : List Str} (h : Columns st.textCommaIdx linePrefix front) (hk : 2 ≤ st.textCommaIdx) :
    parseDialogueLine st (linePrefix ++ text) ending =
      .ok (st.addSlot linePrefix ending (columnsCue front text)) := by
  have hlen := h.length
  obtain ⟨start, hstart⟩ : ∃ start, front[1]? = some start :=
    ⟨_, List.getElem?_eq_getElem (by omega)⟩
  obtain ⟨finish, hfinish⟩ : ∃ finish, (front ++ [text])[2]? = some finish :=
    ⟨_, List.getElem?_eq_getElem (by rw [List.length_append, hlen, List.length_singleton]; omega)⟩
  have hone : (front ++ [text])[1]? = some start := by
    rw [List.getElem?_append_left (by omega), hstart]
  have hlast : (front ++ [text])[st.textCommaIdx]? = some text := by
    rw [← hlen, List.getElem?_append_right (Nat.le_refl _), Nat.sub_self]
    rfl
  have htake : (front ++ [text]).take st.textCommaIdx = front := by
    rw [← hlen, List.take_left]
  have hne : front ≠ [] := by
    rintro rfl
    simp only [List.length_nil] at hlen
    omega
  have hjoin : join "," front ++ "," = linePrefix := h.eq ▸ join_columns hne
  simp only [parseDialogueLine, h.split, List.length_append, hlen, List.length_singleton,
    lt_irrefl, if_false, hone, hfinish, hlast, htake, hjoin, columnsCue, hstart, Option.getD_some]

theorem parseDialogueLine_ok_cases {st st' : EventsState} {content ending : Str}
    (h : parseDialogueLine st content ending = .ok st') :
    content.count ',' < st.textCommaIdx ∧
        st' = st.addSlot [] ending ⟨[], [], [], content, some content⟩ ∨
      ∃ front linePrefix text, content = linePrefix ++ text ∧
        Columns st.textCommaIdx linePrefix front ∧ 2 ≤ st.textCommaIdx ∧
          st' = st.addSlot linePrefix ending (columnsCue front text) := by
  by_cases hshort : content.count ',' < st.textCommaIdx
  · rw [parseDialogueLine_short hshort] at h
    cases h
    exact .inl ⟨hshort, rfl⟩
  · obtain ⟨front, text, hlen, hall, rfl⟩ := exists_columns (Nat.le_of_not_lt hshort)
    have hcolumns : Columns st.textCommaIdx (front.flatMap fun column => column ++ [',']) front :=
      ⟨hlen, hall, rfl⟩
    by_cases htwo : 2 ≤ st.textCommaIdx
    · rw [parseDialogueLine_columns hcolumns htwo] at h
      cases h
      exact .inr ⟨front, _, text, rfl, hcolumns, htwo, rfl⟩
    · -- too few columns for the end time
      have hnone : (front ++ [text])[2]? = none := by
        rw [List.getElem?_eq_none]
        rw [List.length_append, hlen, List.length_singleton]
        omega
      simp only [parseDialogueLine, hcolumns.split, List.length_append, hlen,
        List.length_singleton, lt_irrefl, if_false, hnone] at h
      split at h
      next heq _ => cases heq
      next => cases h

/-- The segments and the cues that the lines of an events section are read into, the text column
after `k` commas and the `i`-th cue first. -/
inductive AssParsed : ℕ → ℕ → List (Str × Str) → List AssSegment → List SubLine → Prop
  | nil {k i : ℕ} : AssParsed k i [] [] []
  | other {k i : ℕ} {span : Str × Str} {spans : List (Str × Str)} {segments : List AssSegment}
    {lines : List SubLine} (h : isDialogueLine span = false)
    (hrest : AssParsed (eventLine k span).commas i spans segments lines) :
    AssParsed k i (span :: spans) (.opaqueSegment (span.1 ++ span.2) :: segments) lines
  | short {k i : ℕ} {span : Str × Str} {content ending : Str} {spans : List (Str × Str)}
    {segments : List AssSegment} {lines : List SubLine} (h : isDialogueLine span = true)
    (hspan : lineOfSpan span = (content, ending)) (hcount : content.count ',' < k)
    (hrest : AssParsed k (i + 1) spans segments lines) :
    AssParsed k i (span :: spans) (.dialogueSlot [] ending i :: segments)
      (⟨[], [], [], content, some content⟩ :: lines)
  | slot {k i : ℕ} {span : Str × Str} {linePrefix text ending : Str} {front : List Str}
    {spans : List (Str × Str)} {segments : List AssSegment} {lines : List SubLine}
    (h : isDialogueLine span = true) (hspan : lineOfSpan span = (linePrefix ++ text, ending))
    (hcolumns : Columns k linePrefix front) (hk : 2 ≤ k)
    (hrest : AssParsed k (i + 1) spans segments lines) :
    AssParsed k i (span :: spans) (.dialogueSlot linePrefix ending i :: segments)
      (columnsCue front text :: lines)

theorem eventLine_commas {k : ℕ} {span : Str × Str} (h : isDialogueLine span = true) :
    (eventLine k span).commas = k := by
  have hyes : "Dialogue:".toList <+: (lineOfSpan span).1 := of_decide_eq_true h
  simp only [eventLine]
  rw [if_neg fun hformat => not_dialogue_of_format hformat hyes]

theorem AssParsed.foldlM {k i : ℕ} {spans : List (Str × Str)} {segments : List AssSegment}
    {lines : List SubLine} (h : AssParsed k i spans segments lines) : ∀ st : EventsState,
      st.textCommaIdx = k → st.lines.length = i → ∃ k', spans.foldlM parseEventLine st =
        .ok { textCommaIdx := k'
              segments := st.segments ++ segments
              lines := st.lines ++ lines } := by
  induction h with
  | nil =>
    intro st hk _
    exact ⟨st.textCommaIdx, by simp only [List.append_nil]; rfl⟩
  | other hno hrest ih =>
    rintro st rfl hi
    obtain ⟨k', hfold⟩ := ih ({ st with
      textCommaIdx := _ }.addOpaque _) rfl hi
    refine ⟨k', ?_⟩
    rw [List.foldlM_cons, parseEventLine_other hno, ok_bind, hfold]
    simp [EventsState.addOpaque]
  | short hyes hspan hcount hrest ih =>
    rintro st rfl hi
    obtain ⟨k', hfold⟩ := ih (st.addSlot _ _ _) rfl (by simp [EventsState.addSlot, hi])
    refine ⟨k', ?_⟩
    rw [List.foldlM_cons, parseEventLine_dialogue hyes, hspan, parseDialogueLine_short hcount,
      ok_bind, hfold]
    simp [EventsState.addSlot, hi]
  | slot hyes hspan hcolumns hk hrest ih =>
    rintro st rfl hi
    obtain ⟨k', hfold⟩ := ih (st.addSlot _ _ _) rfl (by simp [EventsState.addSlot, hi])
    refine ⟨k', ?_⟩
    rw [List.foldlM_cons, parseEventLine_dialogue hyes, hspan,
      parseDialogueLine_columns hcolumns hk, ok_bind, hfold]
    simp [EventsState.addSlot, hi]

theorem exists_assParsed (spans : List (Str × Str)) : ∀ {st st' : EventsState},
    spans.foldlM parseEventLine st = .ok st' →
      ∃ segments lines, AssParsed st.textCommaIdx st.lines.length spans segments lines ∧
        st'.segments = st.segments ++ segments ∧ st'.lines = st.lines ++ lines := by
  induction spans with
  | nil =>
    intro st st' h
    cases h
    exact ⟨[], [], .nil, by simp, by simp⟩
  | cons span spans ih =>
    intro st st' h
    rw [List.foldlM_cons] at h
    cases hdialogue : isDialogueLine span with
    | false =>
      rw [parseEventLine_other hdialogue, ok_bind] at h
      obtain ⟨segments, lines, hparsed, hsegments, hlines⟩ := ih h
      exact ⟨_, _, .other hdialogue hparsed, by simpa [EventsState.addOpaque] using hsegments,
        by simpa [EventsState.addOpaque] using hlines⟩
    | true =>
      obtain ⟨content, ending, hspan⟩ : ∃ content ending, lineOfSpan span = (content, ending) :=
        ⟨_, _, rfl⟩
      rw [parseEventLine_dialogue hdialogue, hspan] at h
      obtain ⟨st₁, hstep, hrest⟩ := bind_ok h
      rcases parseDialogueLine_ok_cases hstep with ⟨hcount, rfl⟩ |
        ⟨front, linePrefix, text, hcontent, hcolumns, hk, rfl⟩
      · obtain ⟨segments, lines, hparsed, hsegments, hlines⟩ := ih hrest
        rw [show (st.addSlot [] ending _).lines.length = st.lines.length + 1 by
          simp [EventsState.addSlot]] at hparsed
        exact ⟨_, _, .short hdialogue hspan hcount hparsed,
          by simpa [EventsState.addSlot] using hsegments,
          by simpa [EventsState.addSlot] using hlines⟩
      · obtain ⟨segments, lines, hparsed, hsegments, hlines⟩ := ih hrest
        rw [show (st.addSlot linePrefix ending _).lines.length = st.lines.length + 1 by
          simp [EventsState.addSlot]] at hparsed
        exact ⟨_, _, .slot hdialogue (hspan.trans (Prod.ext hcontent rfl)) hcolumns hk hparsed,
          by simpa [EventsState.addSlot] using hsegments,
          by simpa [EventsState.addSlot] using hlines⟩

def NoBreaks (s : Str) : Prop := ∀ c ∈ s, isLineBreak c = false

/-- A text that is in one line with what ends it. A break that the reader takes for content is at
the end of the text, where only such a break ends the line. -/
inductive OneLine (ending : Str) (last : Prop) : Str → Prop
  | ended {text : Str} (hne : ending ≠ []) (h : NoBreaks text) : OneLine ending last text
  | atEnd {text : Str} (hnil : ending = []) (hlast : last) (h : NoBreaks text) :
    OneLine ending last text
  | broken {front : Str} {c : Char} (hnil : ending = []) (h : NoBreaks front)
    (hc : isLineBreak c = true) (hother : c ≠ '\r' ∧ c ≠ '\n') : OneLine ending last (front ++ [c])

theorem OneLine.mono {ending text : Str} {last last' : Prop} (h : OneLine ending last text)
    (himp : last → last') : OneLine ending last' text := by
  cases h with
  | ended hne h => exact .ended hne h
  | atEnd hnil hlast h => exact .atEnd hnil (himp hlast) h
  | broken hnil h hc hother => exact .broken hnil h hc hother

theorem OneLine.not_mem {ending text : Str} {last : Prop} (h : OneLine ending last text) :
    '\r' ∉ text ∧ '\n' ∉ text := by
  have hno : ∀ {s : Str}, NoBreaks s → '\r' ∉ s ∧ '\n' ∉ s := fun hs =>
    ⟨fun hmem => absurd (hs _ hmem) (by decide), fun hmem => absurd (hs _ hmem) (by decide)⟩
  cases h with
  | ended _ h => exact hno h
  | atEnd _ _ h => exact hno h
  | broken _ h _ hother =>
    obtain ⟨hr, hn⟩ := hno h
    simp only [List.mem_append, List.mem_singleton, not_or]
    exact ⟨⟨hr, hother.1.symm⟩, hn, hother.2.symm⟩

/-- The lines of two texts that differ in their cues alone. -/
structure SameShape (spans spans' : List (Str × Str)) : Prop where
  spanned : Spanned spans'
  head : (flat spans').head? = (flat spans).head?
  headers : ∀ b, NoHeader b (flat spans) →
    NoHeader b (flat spans') ∧ endState b (flat spans') = endState b (flat spans)
  returns : NoReturns (flat spans') ↔ NoReturns (flat spans)
  front : ∃ front old new, flat spans = front ++ old ∧ flat spans' = front ++ new ∧
    (old = new ∨ old.head? = some 'D')

theorem SameShape.nil : SameShape [] [] :=
  ⟨.nil, rfl, fun _ h => ⟨h, rfl⟩, Iff.rfl, [], [], [], rfl, rfl, .inl rfl⟩

theorem lineEnd_congr {ending rest rest' : Str} (h : LineEnd ending rest)
    (hhead : rest'.head? = rest.head?) : LineEnd ending rest' := by
  cases h with
  | crlf => exact .crlf
  | single hc hrest => exact .single hc (by rwa [hhead])
  | finish =>
    have hnil : rest' = [] := by simpa using hhead
    rw [hnil]
    exact .finish

theorem head?_append_of_head? {x r r' : Str} (h : r'.head? = r.head?) :
    (x ++ r').head? = (x ++ r).head? := by
  rw [List.head?_append, List.head?_append, h]

theorem noReturns_append_congr {x r r' : Str} (hhead : r'.head? = r.head?)
    (h : NoReturns r' ↔ NoReturns r) : NoReturns (x ++ r') ↔ NoReturns (x ++ r) := by
  rw [noReturns_append, noReturns_append, hhead, h]

/-- A line that is kept, in front of the others. -/
theorem SameShape.kept {span : Str × Str} {spans spans' : List (Str × Str)}
    (h : SameShape spans spans') (hspanned : Spanned (span :: spans)) : SameShape (span :: spans) (span :: spans') := by
  obtain ⟨line, ending⟩ := span
  have hflat : ∀ ps, flat ((line, ending) :: ps) = (line ++ ending) ++ flat ps := by
    intro ps
    rw [flat_cons, List.append_assoc]
  cases hspanned with
  | cons hline hend hne hrest =>
    refine ⟨.cons hline (lineEnd_congr hend h.head) hne h.spanned, ?_, ?_, ?_, ?_⟩
    · rw [hflat, hflat]
      exact head?_append_of_head? h.head
    · intro b hno
      rw [hflat] at hno
      obtain ⟨hspan, hthere⟩ := noHeader_of_append hno
      obtain ⟨hnew, hstate⟩ := h.headers _ hthere
      rw [hflat, hflat]
      refine ⟨noHeader_append hspan hnew, ?_⟩
      rw [endState_append b (line ++ ending), endState_append b (line ++ ending), hstate]
    · rw [hflat, hflat]
      exact noReturns_append_congr h.head h.returns
    · obtain ⟨front, old, new, hold, hnew, hsame⟩ := h.front
      refine ⟨(line ++ ending) ++ front, old, new, ?_, ?_, hsame⟩
      · rw [hflat, hold, List.append_assoc, List.append_assoc, List.append_assoc]
      · rw [hflat, hnew, List.append_assoc, List.append_assoc, List.append_assoc]

theorem endState_of_last {s : Str} {c : Char} (h : s.getLast? = some c) (b : Bool) :
    endState b s = (c = '\n' : Bool) := by
  unfold endState
  rw [h]

theorem noReturns_of_not_mem {s : Str} (h : '\r' ∉ s) (t : Str) :
    NoReturns (s ++ t) ↔ NoReturns t := by
  have hs : NoReturns s := by
    unfold NoReturns contains
    rw [decide_eq_false_iff_not]
    exact fun hinside => h (hinside.subset (by simp))
  rw [noReturns_append]
  exact ⟨fun hno => hno.2.1, fun hno => ⟨hs, hno, fun hcut => h (List.mem_of_getLast? hcut.1)⟩⟩

/-- What ends the content of a line. -/
inductive IsEnding : Str → Prop
  | nil : IsEnding []
  | crlf : IsEnding ['\r', '\n']
  | lf : IsEnding ['\n']
  | cr : IsEnding ['\r']

theorem isEnding_lineOfSpan (span : Str × Str) : IsEnding (lineOfSpan span).2 := by
  obtain ⟨line, ending⟩ := span
  simp only [lineOfSpan]
  split
  next h =>
    rcases h with rfl | rfl | rfl
    · exact .crlf
    · exact .lf
    · exact .cr
  next => exact .nil

theorem IsEnding.dropLast {ending : Str} (h : IsEnding ending) : '\n' ∉ ending.dropLast := by
  cases h <;> decide

/-- A dialogue line up to its text. -/
structure IsFront (linePrefix : Str) : Prop where
  dialogue : "Dialogue:".toList <+: linePrefix
  last : linePrefix.getLast? = some ','
  oneLine : NoBreaks linePrefix

theorem IsFront.first {linePrefix : Str} (h : IsFront linePrefix) :
    linePrefix.head? = some 'D' := by
  obtain ⟨t, rfl⟩ := h.dialogue
  rfl

theorem IsFront.not_mem {linePrefix : Str} (h : IsFront linePrefix) :
    '\r' ∉ linePrefix ∧ '\n' ∉ linePrefix :=
  ⟨fun hmem => absurd (h.oneLine _ hmem) (by decide),
    fun hmem => absurd (h.oneLine _ hmem) (by decide)⟩

namespace IsFront

variable {linePrefix text ending : Str}

theorem noHeader (h : IsFront linePrefix) (htext : '\n' ∉ text) (hending : IsEnding ending)
    (b : Bool) : NoHeader b (linePrefix ++ text ++ ending) := by
  obtain ⟨front, hfront⟩ := List.head?_eq_some_iff.mp h.first
  apply noHeader_line
  · have hno : '\n' ∉ linePrefix ++ text := by
      simp only [List.mem_append, not_or]
      exact ⟨h.not_mem.2, htext⟩
    rintro c hc rfl
    by_cases hnil : ending = []
    · rw [hnil, List.append_nil] at hc
      exact hno (List.mem_of_mem_dropLast hc)
    · rw [List.dropLast_append_of_ne_nil hnil] at hc
      rcases List.mem_append.mp hc with hc | hc
      · exact hno hc
      · exact hending.dropLast hc
  · intro _
    rw [hfront]
    simp

theorem last_line (h : IsFront linePrefix) (htext : '\n' ∉ text) (ending : Str) (b : Bool) :
    endState b (linePrefix ++ text ++ ending) = (ending.getLast? = some '\n' : Bool) := by
  obtain ⟨front, hfront⟩ := List.getLast?_eq_some_iff.mp h.last
  cases hending : ending.getLast? with
  | some c =>
    have hlast : (linePrefix ++ text ++ ending).getLast? = some c := by
      rw [List.getLast?_append, hending]
      rfl
    rw [endState_of_last hlast]
    simp
  | none =>
    have hnil : ending = [] := List.getLast?_eq_none_iff.mp hending
    subst hnil
    rw [List.append_nil]
    cases htextLast : text.getLast? with
    | some c =>
      have hlast : (linePrefix ++ text).getLast? = some c := by
        rw [List.getLast?_append, htextLast]
        rfl
      have hc : c ≠ '\n' := by
        rintro rfl
        exact htext (List.mem_of_getLast? htextLast)
      rw [endState_of_last hlast]
      simp [hc]
    | none =>
      have hnil : text = [] := List.getLast?_eq_none_iff.mp htextLast
      subst hnil
      rw [List.append_nil, endState_of_last h.last]
      decide

theorem noReturns (h : IsFront linePrefix) (htext : '\r' ∉ text) (s : Str) :
    NoReturns (linePrefix ++ text ++ s) ↔ NoReturns s := by
  apply noReturns_of_not_mem
  simp only [List.mem_append, not_or]
  exact ⟨h.not_mem.1, htext⟩

end IsFront

/-- A dialogue line with another text, in front of the others. -/
theorem SameShape.slot {span span' : Str × Str} {spans spans' : List (Str × Str)}
    {linePrefix old new ending : Str} (h : SameShape spans spans') (hfront : IsFront linePrefix)
    (hspan : lineOfSpan span = (linePrefix ++ old, ending))
    (hspan' : lineOfSpan span' = (linePrefix ++ new, ending)) (hspanned : Spanned (span' :: spans'))
    (hold : '\r' ∉ old ∧ '\n' ∉ old) (hnew : '\r' ∉ new ∧ '\n' ∉ new) :
    SameShape (span :: spans) (span' :: spans') := by
  have hending : IsEnding ending := by
    have hends := isEnding_lineOfSpan span
    rwa [hspan] at hends
  have hflat : ∀ {sp : Str × Str} {text : Str} (ps), lineOfSpan sp = (linePrefix ++ text, ending) →
      flat (sp :: ps) = linePrefix ++ text ++ ending ++ flat ps := by
    intro sp text ps hsp
    obtain ⟨line, e⟩ := sp
    have happend := lineOfSpan_append (line, e)
    rw [hsp] at happend
    rw [flat_cons, ← List.append_assoc, ← happend]
  have hhead : ∀ {text : Str} (s : Str), (linePrefix ++ text ++ ending ++ s).head? = some 'D' := by
    intro text s
    obtain ⟨front, rfl⟩ := List.head?_eq_some_iff.mp hfront.first
    rfl
  refine ⟨hspanned, ?_, ?_, ?_, ?_⟩
  · rw [hflat _ hspan, hflat _ hspan', hhead, hhead]
  · intro b hno
    rw [hflat _ hspan] at hno
    obtain ⟨_, hthere⟩ := noHeader_of_append hno
    have hstate : endState b (linePrefix ++ new ++ ending) =
        endState b (linePrefix ++ old ++ ending) := by
      rw [hfront.last_line hnew.2, hfront.last_line hold.2]
    obtain ⟨hrest, hlast⟩ := h.headers _ hthere
    rw [hflat _ hspan, hflat _ hspan']
    rw [← hstate] at hrest
    refine ⟨noHeader_append (hfront.noHeader hnew.2 hending b) hrest, ?_⟩
    rw [endState_append b (linePrefix ++ new ++ ending), hstate,
      endState_append b (linePrefix ++ old ++ ending), hlast]
  · rw [hflat _ hspan, hflat _ hspan', List.append_assoc, List.append_assoc (linePrefix ++ old),
      hfront.noReturns hnew.1, hfront.noReturns hold.1]
    exact noReturns_append_congr h.head h.returns
  · refine ⟨[], flat (span :: spans), flat (span' :: spans'), rfl, rfl, .inr ?_⟩
    rw [hflat _ hspan, hhead]

/-- What a line is to the reader: its content has no other break than one at its end. -/
inductive Content : Str × Str → Str → Str → Prop
  | ended {line ending : Str} (hline : NoBreaks line) (hne : ending ≠ [])
    (hending : IsEnding ending) : Content (line, ending) line ending
  | atEnd {line : Str} (hline : NoBreaks line) : Content (line, []) line []
  | broken {line : Str} {c : Char} (hline : NoBreaks line) (hc : isLineBreak c = true)
    (hother : c ≠ '\r' ∧ c ≠ '\n') : Content (line, [c]) (line ++ [c]) []

theorem Content.lineOfSpan {span : Str × Str} {content ending : Str}
    (h : Content span content ending) : lineOfSpan span = (content, ending) := by
  cases h with
  | ended hline hne hending =>
    cases hending with
    | nil => exact absurd rfl hne
    | crlf => rfl
    | lf => rfl
    | cr => rfl
  | atEnd hline => simp [Trezarr.lineOfSpan]
  | broken hline hc hother => simp [Trezarr.lineOfSpan, hother.1, hother.2]

theorem content_lineOfSpan {span : Str × Str} {spans : List (Str × Str)}
    (h : Spanned (span :: spans)) : Content span (lineOfSpan span).1 (lineOfSpan span).2 := by
  cases h with
  | @cons line ending _ hline hend hne hrest =>
    generalize flat spans = rest at hend
    cases hend with
    | crlf => exact .ended hline (by simp) .crlf
    | finish =>
      have hatEnd := Content.atEnd hline
      rw [hatEnd.lineOfSpan]
      exact hatEnd
    | @single c _ hc _ =>
      by_cases hr : c = '\r'
      · subst hr
        exact .ended hline (by simp) .cr
      · by_cases hn : c = '\n'
        · subst hn
          exact .ended hline (by simp) .lf
        · have hbroken := Content.broken hline hc ⟨hr, hn⟩
          rw [hbroken.lineOfSpan]
          exact hbroken

theorem Content.not_mem {span : Str × Str} {content ending : Str}
    (h : Content span content ending) : '\r' ∉ content ∧ '\n' ∉ content := by
  have hone : OneLine ending True content := by
    cases h with
    | ended hline hne _ => exact .ended hne hline
    | atEnd hline => exact .atEnd rfl trivial hline
    | broken hline hc hother => exact .broken rfl hline hc hother
  exact hone.not_mem

/-- The columns of a dialogue line are in one line. -/
theorem Content.isFront {span : Str × Str} {linePrefix text ending : Str} {k : ℕ}
    {front : List Str} (h : Content span (linePrefix ++ text) ending)
    (hdialogue : "Dialogue:".toList <+: linePrefix ++ text) (hcolumns : Columns k linePrefix front)
    (hk : 2 ≤ k) : IsFront linePrefix := by
  have hlast := hcolumns.last (by omega)
  refine ⟨?_, hlast, ?_⟩
  · rcases List.prefix_or_prefix_of_prefix hdialogue (List.prefix_append linePrefix text) with
      hfirst | hshort
    · exact hfirst
    · -- no comma is in the word itself
      have hcomma : ',' ∈ "Dialogue:".toList := hshort.subset (List.mem_of_getLast? hlast)
      exact absurd hcomma (by decide)
  · generalize hcontent : linePrefix ++ text = content at h
    cases h with
    | ended hline _ _ =>
      intro c hc
      exact hline c (by rw [← hcontent]; exact List.mem_append_left _ hc)
    | atEnd hline =>
      intro c hc
      exact hline c (by rw [← hcontent]; exact List.mem_append_left _ hc)
    | @broken line c hline hc hother =>
      have hfirst : linePrefix <+: line := by
        rcases List.append_eq_append_iff.mp hcontent with ⟨z, hz, _⟩ | ⟨z, hz, hrest⟩
        · exact ⟨z, hz.symm⟩
        · cases z with
          | nil => exact ⟨[], by rw [hz]; simp⟩
          | cons d z =>
            -- the last comma would be the break
            obtain ⟨rfl, hnil⟩ := List.cons.inj hrest
            obtain ⟨rfl, _⟩ := List.append_eq_nil_iff.mp hnil.symm
            rw [hz, List.getLast?_append] at hlast
            cases hlast
            exact absurd hc (by decide)
      exact fun d hd => hline d (hfirst.subset hd)

/-- A line that takes another text. -/
theorem exists_retext_span {span : Str × Str} {spans spans' : List (Str × Str)}
    {linePrefix old new ending : Str} (hspanned : Spanned (span :: spans))
    (hspan : lineOfSpan span = (linePrefix ++ old, ending)) (hfront : IsFront linePrefix)
    (halike : SameShape spans spans') (hempty : spans = [] → spans' = [])
    (hone : OneLine ending (spans = []) new) :
    ∃ span', lineOfSpan span' = (linePrefix ++ new, ending) ∧ Spanned (span' :: spans') := by
  have hjoin : ∀ {s : Str}, NoBreaks s → NoBreaks (linePrefix ++ s) := by
    intro s hs c hc
    rcases List.mem_append.mp hc with hc | hc
    · exact hfront.oneLine c hc
    · exact hs c hc
  have hne : ∀ s : Str, linePrefix ++ s ≠ [] := by
    intro s hnil
    have hfirst := hfront.first
    rw [(List.append_eq_nil_iff.mp hnil).1] at hfirst
    cases hfirst
  have hcontent := content_lineOfSpan hspanned
  rw [hspan] at hcontent
  cases hone with
  | ended hending h =>
    have hends := isEnding_lineOfSpan span
    rw [hspan] at hends
    have hnew := Content.ended (hjoin h) hending hends
    refine ⟨_, hnew.lineOfSpan, .cons (hjoin h) ?_ ?_ halike.spanned⟩
    · dsimp only at hcontent
      generalize hold : linePrefix ++ old = content at hcontent
      cases hcontent with
      | ended hline _ _ =>
        cases hspanned with
        | cons _ hend _ _ => exact lineEnd_congr hend halike.head
      | atEnd hline => exact absurd rfl hending
      | broken hline _ _ => exact absurd rfl hending
    · intro hnil
      exact hne new (List.append_eq_nil_iff.mp hnil).1
  | atEnd hnil hlast h =>
    subst hnil
    have hnew := Content.atEnd (hjoin h)
    refine ⟨_, hnew.lineOfSpan, .cons (hjoin h) ?_ ?_ halike.spanned⟩
    · rw [hempty hlast]
      exact .finish
    · rw [List.append_nil]
      exact hne new
  | @broken front c hnil h hc hother =>
    subst hnil
    have hnew := Content.broken (hjoin h) hc hother
    refine ⟨(linePrefix ++ front, [c]), ?_, .cons (hjoin h) ?_ (by simp) halike.spanned⟩
    · rw [hnew.lineOfSpan, List.append_assoc]
    · exact .single hc fun hr => absurd hr hother.1

end Trezarr
