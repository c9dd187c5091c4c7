import Trezarr.Subtitles.CueTexts
import Trezarr.Subtitles.Totality
import Trezarr.Translate.Assembly

/-! When a translated WebVTT document is read back from its sidecar as it was written. -/
namespace Trezarr
open Text Regex Regex.Pattern

/-- The blocks and the cues that the blocks of a text are read into, the `k`-th cue first. -/
inductive VttParsed (le : Str) : ℕ → List (Str × Str) → List VttBlock → List SubLine → Prop
  | nil {k : ℕ} : VttParsed le k [] [] []
  | kept {k : ℕ} {block sep : Str} {ps : List (Str × Str)} {blocks : List VttBlock}
    {lines : List SubLine} (h : ∀ identifierLine timing tc, ¬ VttCue block identifierLine timing tc)
    (hrest : VttParsed le k ps blocks lines) :
    VttParsed le k ((block, sep) :: ps) (.opaqueBlock block sep :: blocks) lines
  | cue {k : ℕ} {block sep timing : Str} {identifierLine : Option Str} {tc : Found}
    {ps : List (Str × Str)} {blocks : List VttBlock} {lines : List SubLine}
    (h : VttCue block identifierLine timing tc) (hrest : VttParsed le (k + 1) ps blocks lines) :
    VttParsed le k ((block, sep) :: ps) (.cueBlock identifierLine timing le k sep :: blocks)
      (⟨[], tc.group 1, tc.group 2, extractPayload block identifierLine timing, none⟩ :: lines)

theorem parseVttBlock_cue {le block timing : Str} {identifierLine : Option Str} {tc : Found}
    (h : VttCue block identifierLine timing tc) (st : VttState) (sep : Str) :
    parseVttBlock le st block sep =
      { blocks := st.blocks ++ [.cueBlock identifierLine timing le st.lines.length sep]
        lines := st.lines ++
          [⟨[], tc.group 1, tc.group 2, extractPayload block identifierLine timing, none⟩] } := by
  simp only [parseVttBlock, h.lines, h.clocks]

theorem VttParsed.foldl {le : Str} {k : ℕ} {ps : List (Str × Str)} {blocks : List VttBlock}
    {lines : List SubLine} (h : VttParsed le k ps blocks lines) : ∀ st : VttState,
      st.lines.length = k → ps.foldl (fun st b => parseVttBlock le st b.1 b.2) st =
        { blocks := st.blocks ++ blocks, lines := st.lines ++ lines } := by
  induction h with
  | nil =>
    intro st _
    simp
  | kept hno hrest ih =>
    intro st hk
    rw [List.foldl_cons, parseVttBlock_kept st hno, ih _ (by simpa using hk)]
    simp
  | cue hcue hrest ih =>
    intro st hk
    rw [List.foldl_cons, parseVttBlock_cue hcue, ih _ (by simp [hk])]
    simp [hk]

theorem exists_vttParsed (le : Str) (ps : List (Str × Str)) :
    ∀ k, ∃ blocks lines, VttParsed le k ps blocks lines := by
  induction ps with
  | nil => exact fun k => ⟨_, _, .nil⟩
  | cons p ps ih =>
    obtain ⟨block, sep⟩ := p
    intro k
    by_cases hcue : ∃ identifierLine timing tc, VttCue block identifierLine timing tc
    · obtain ⟨identifierLine, timing, tc, hcue⟩ := hcue
      obtain ⟨blocks, lines, hrest⟩ := ih (k + 1)
      exact ⟨_, _, .cue hcue hrest⟩
    · push Not at hcue
      obtain ⟨blocks, lines, hrest⟩ := ih k
      exact ⟨_, _, .kept hcue hrest⟩

/-- What a text was read as, block by block; its first block is the header. -/
structure VttReadAs (encoding text header sep : Str) (ps : List (Str × Str))
    (blocks : List VttBlock) (doc : SubDoc) : Prop where
  pieces : Pieces text ((header, sep) :: ps)
  parsed : VttParsed (detectLineEnding text) 0 ps blocks doc.lines
  doc_eq : doc = { lines := doc.lines
                   encoding := encoding
                   lineEnding := detectLineEnding text
                   separators := []
                   envelope := .vtt ⟨.opaqueBlock header sep :: blocks, encoding,
                     detectLineEnding text⟩ }

theorem vttReadAs_readVtt (encoding text : Str) : ∃ header sep ps blocks,
    VttReadAs encoding text header sep ps blocks (readVtt encoding text) := by
  obtain ⟨all, hpieces⟩ := exists_pieces text
  cases all with
  | nil => exact absurd rfl hpieces.ne_nil
  | cons first ps =>
    obtain ⟨header, sep⟩ := first
    obtain ⟨blocks, lines, hparsed⟩ := exists_vttParsed (detectLineEnding text) ps 0
    have hfold := hparsed.foldl { blocks := [.opaqueBlock header sep] } rfl
    have hread : readVtt encoding text = { lines := lines
                                           encoding := encoding
                                           lineEnding := detectLineEnding text
                                           separators := []
                                           envelope := .vtt ⟨.opaqueBlock header sep :: blocks,
                                             encoding, detectLineEnding text⟩ } := by
      simp only [readVtt, pairBlocks_of_pieces hpieces, hfold]
      rfl
    rw [hread]
    exact ⟨header, sep, ps, blocks, hpieces, hparsed, rfl⟩

theorem VttReadAs.unique {encoding text header sep : Str} {ps : List (Str × Str)}
    {blocks : List VttBlock} {doc : SubDoc}
    (h : VttReadAs encoding text header sep ps blocks doc) : readVtt encoding text = doc := by
  have hfold := h.parsed.foldl { blocks := [.opaqueBlock header sep] } rfl
  rw [h.doc_eq]
  simp only [readVtt, pairBlocks_of_pieces h.pieces, hfold]
  rfl

def Visible (line : Str) : Prop := ∃ c ∈ line, isSpaceOrTab c = false

theorem visible_of_arrow {line : Str} (h : contains line "-->" = true) : Visible line := by
  have hinside : ['-', '-', '>'] <:+: line := of_decide_eq_true h
  exact ⟨'-', hinside.subset (by simp), by decide⟩

/-- A cue block with a text, as it is written. -/
def writtenCue (le : Str) (identifierLine : Option Str) (timing text : Str) : Str :=
  identifierPart le identifierLine ++ (timing ++ (le ++ text))

/-- The lines that make a block a cue. -/
structure VttHead (identifierLine : Option Str) (timing : Str) : Prop where
  oneLine : ∀ c ∈ timing, isLineBreak c = false
  arrow : contains timing "-->" = true
  first : identifierLine = none → isOpaqueHead timing = false
  identifier : ∀ identifier, identifierLine = some identifier →
    (∀ c ∈ identifier, isLineBreak c = false) ∧ isOpaqueHead identifier = false ∧
      contains identifier "-->" = false

theorem vttHead_of_cue {block timing : Str} {identifierLine : Option Str} {tc : Found}
    (h : VttCue block identifierLine timing tc) : VttHead identifierLine timing := by
  have hlines := h.lines
  have hbreaks : ∀ line ∈ splitlines block, ∀ c ∈ line, isLineBreak c = false :=
    fun line hline => not_isLineBreak_of_mem_splitlines hline
  cases hsplit : splitlines block with
  | nil =>
    rw [hsplit] at hlines
    cases hlines
  | cons first rest =>
    rw [hsplit] at hlines hbreaks
    simp only [timingOf] at hlines
    split at hlines
    next => cases hlines
    next hopaque =>
      rw [Bool.not_eq_true] at hopaque
      split at hlines
      next harrow =>
        cases hlines
        exact ⟨hbreaks _ List.mem_cons_self, harrow, fun _ => hopaque, fun _ h => by cases h⟩
      next harrow =>
        rw [Bool.not_eq_true] at harrow
        split at hlines
        next second rest' =>
          split at hlines
          next harrow' =>
            cases hlines
            refine ⟨hbreaks _ (by simp), harrow', fun h => (by cases h), ?_⟩
            rintro _ ⟨⟩
            exact ⟨hbreaks _ List.mem_cons_self, hopaque, harrow⟩
          next => cases hlines
        next => cases hlines

namespace VttHead

variable {identifierLine : Option Str} {timing le : Str}

theorem lines (h : VttHead identifierLine timing) (hle : IsNewline le) (text : Str) :
    timingOf (splitlines (writtenCue le identifierLine timing text)) =
      some (identifierLine, timing) := by
  cases identifierLine with
  | none =>
    have hsplit : splitlines (writtenCue le none timing text) = timing :: splitlines text := by
      simp only [writtenCue, identifierPart, List.nil_append, splitlines,
        lineSpans_newline hle h.oneLine]
      rfl
    simp only [hsplit, timingOf, h.first rfl, h.arrow, if_true, Bool.false_eq_true, if_false]
  | some identifier =>
    obtain ⟨hbreaks, hopaque, harrow⟩ := h.identifier identifier rfl
    have hsplit : splitlines (writtenCue le (some identifier) timing text) =
        identifier :: timing :: splitlines text := by
      simp only [writtenCue, identifierPart, List.append_assoc, splitlines,
        lineSpans_newline hle hbreaks, lineSpans_newline hle h.oneLine]
      rfl
    simp only [hsplit, timingOf, hopaque, harrow, h.arrow, if_true, Bool.false_eq_true, if_false]

theorem timingAt (h : VttHead identifierLine timing) (hle : IsNewline le) (text : Str) :
    TimingAt (writtenCue le identifierLine timing text) identifierLine timing (le ++ text) := by
  have hend : ∀ rest, LineEnd le rest := by
    intro rest
    cases hle with
    | lf => exact .single (by decide) (fun hreturn => by cases hreturn)
    | crlf => exact .crlf
  have hne := ne_nil_of_contains_arrow h.arrow
  cases identifierLine with
  | none => exact .first h.oneLine hne (hend text)
  | some identifier =>
    have hat := TimingAt.second (h.identifier identifier rfl).1 (hend (timing ++ (le ++ text)))
      h.oneLine hne (hend text)
    simpa [writtenCue, identifierPart] using hat

theorem extractPayload_written (h : VttHead identifierLine timing) (hle : IsNewline le)
    (text : Str) :
    extractPayload (writtenCue le identifierLine timing text) identifierLine timing = text := by
  rw [extractPayload_of_timingAt (h.timingAt hle text), skipBreak_newline hle]

theorem normal (h : VttHead identifierLine timing) (hle : IsNewline le) (text : Str) :
    VttNormal le (writtenCue le identifierLine timing text) := by
  intro identifierLine' timing' tc hcue
  have hsame := (h.lines hle text).symm.trans hcue.lines
  cases hsame
  exact ⟨text, by simp [writtenCue]⟩

/-- The first line of the block shows something. -/
theorem blankLine?_written (le : Str) (h : VttHead identifierLine timing)
    (hid : ∀ identifier, identifierLine = some identifier → Visible identifier) (text s : Str) :
    blankLine? (writtenCue le identifierLine timing text ++ s) = none := by
  cases identifierLine with
  | none =>
    have hblank := blankLine?_of_visible h.oneLine (visible_of_arrow h.arrow) (le ++ text ++ s)
    simpa [writtenCue, identifierPart] using hblank
  | some identifier =>
    have hblank := blankLine?_of_visible (h.identifier identifier rfl).1 (hid identifier rfl)
      (le ++ (timing ++ (le ++ text)) ++ s)
    simpa [writtenCue, identifierPart] using hblank

/-- A separator in a cue starts at its text. -/
theorem noMatchIn_written (h : VttHead identifierLine timing) (hle : IsNewline le) (text s : Str) :
    sepRe.NoMatchIn (writtenCue le identifierLine timing text) s ↔
      sepRe.NoMatchIn ('\n' :: text) s := by
  have htiming : sepRe.NoMatchIn (timing ++ (le ++ text)) s ↔
      sepRe.NoMatchIn ('\n' :: text) s := by
    rw [noMatchIn_line h.oneLine, noMatchIn_newline hle]
  cases identifierLine with
  | none => exact htiming
  | some identifier =>
    have hblank := blankLine?_of_visible h.oneLine (visible_of_arrow h.arrow) (le ++ text ++ s)
    simp only [writtenCue, identifierPart, List.append_assoc]
    rw [noMatchIn_line (h.identifier identifier rfl).1, noMatchIn_newline hle, NoMatchIn, htiming]
    apply and_iff_right
    apply rests_sepRe_newline_eq_nil
    simpa using hblank

/-- In a document of line feeds, cues of line feeds are written with line feeds. -/
theorem noReturns_written (h : VttHead identifierLine timing) {text s : Str}
    (htext : NoReturns text) (hlast : ¬ (text.getLast? = some '\r' ∧ s.head? = some '\n'))
    (hs : NoReturns s) : NoReturns (writtenCue ['\n'] identifierLine timing text ++ s) := by
  have hback : NoReturns (text ++ s) := noReturns_append.mpr ⟨htext, hs, hlast⟩
  have hcue : NoReturns (timing ++ (['\n'] ++ (text ++ s))) := by
    rw [noReturns_line h.oneLine, noReturns_newline .lf]
    exact ⟨rfl, hback⟩
  cases identifierLine with
  | none => simpa [writtenCue, identifierPart] using hcue
  | some identifier =>
    have hfront : NoReturns (identifier ++ (['\n'] ++ (timing ++ (['\n'] ++ (text ++ s))))) := by
      rw [noReturns_line (h.identifier identifier rfl).1, noReturns_newline .lf]
      exact ⟨rfl, hcue⟩
    simpa [writtenCue, identifierPart] using hfront

end VttHead

/-- Every cue block has a visible identifier, if any, and a text that stays inside it. -/
def AllFitVtt (le : Str) (k : ℕ) (blocks : List VttBlock) (lines : List SubLine) : Prop :=
  ∀ identifierLine timing le' i sep, .cueBlock identifierLine timing le' i sep ∈ blocks →
    (∀ identifier, identifierLine = some identifier → Visible identifier) ∧
      ∀ line, lines[i - k]? = some line → Fits le line.text sep

theorem VttParsed.le_index {le : Str} {k : ℕ} {ps : List (Str × Str)} {blocks : List VttBlock}
    {lines : List SubLine} (h : VttParsed le k ps blocks lines) :
    ∀ {identifierLine timing le' i sep}, .cueBlock identifierLine timing le' i sep ∈ blocks →
      k ≤ i := by
  induction h with
  | nil => nofun
  | kept _ _ ih =>
    intro identifierLine timing le' i sep hmem
    rcases List.mem_cons.mp hmem with hhead | hmem
    · cases hhead
    · exact ih hmem
  | cue _ _ ih =>
    intro identifierLine timing le' i sep hmem
    rcases List.mem_cons.mp hmem with hhead | hmem
    · cases hhead
      exact Nat.le_refl _
    · exact Nat.le_of_succ_le (ih hmem)

theorem AllFitVtt.of_kept {le raw sep : Str} {k : ℕ} {blocks : List VttBlock}
    {lines : List SubLine} (h : AllFitVtt le k (.opaqueBlock raw sep :: blocks) lines) :
    AllFitVtt le k blocks lines :=
  fun _ _ _ _ _ hmem => h _ _ _ _ _ (List.mem_cons_of_mem _ hmem)

theorem AllFitVtt.of_cue {le : Str} {k : ℕ} {block : VttBlock} {ps : List (Str × Str)}
    {blocks : List VttBlock} {line : SubLine} {olds lines : List SubLine}
    (h : AllFitVtt le k (block :: blocks) (line :: lines))
    (hparsed : VttParsed le (k + 1) ps blocks olds) : AllFitVtt le (k + 1) blocks lines := by
  intro identifierLine timing le' i sep hmem
  obtain ⟨hid, hfits⟩ := h _ _ _ _ _ (List.mem_cons_of_mem _ hmem)
  refine ⟨hid, fun line' hget => hfits line' ?_⟩
  have hindex := hparsed.le_index hmem
  have hi : i - k = (i - (k + 1)) + 1 := by omega
  rw [hi, List.getElem?_cons_succ]
  exact hget

/-- The blocks of a text with other texts in their cues. -/
structure Retexted (le : Str) (k : ℕ) (ps ps' : List (Str × Str)) (blocks : List VttBlock)
    (lines : List SubLine) : Prop where
  parsed : VttParsed le k ps' blocks lines
  normal : ∀ b ∈ ps', VttNormal le b.1
  seps : ps'.map Prod.snd = ps.map Prod.snd
  pieces : ∀ r, Pieces r ps → Pieces (flat ps') ps' ∧
    (blankLine? r = none → blankLine? (flat ps') = none) ∧
      (le = ['\n'] → NoReturns r → NoReturns (flat ps'))
  lineEnding : ps' = ps ∨ (NoReturns (flat ps') → le = ['\n'])

theorem head?_sep_append {S : Str} (hS : IsSep S) (x : Str) : (S ++ x).head? = S.head? := by
  obtain ⟨c, cs, rfl⟩ := List.exists_cons_of_ne_nil hS.ne_nil
  rfl

theorem noReturns_sep {S r r' : Str} (hS : IsSep S) (h : NoReturns (S ++ r)) (h' : NoReturns r') :
    NoReturns (S ++ r') :=
  noReturns_append.mpr ⟨(noReturns_append.mp h).1, h', fun hcut => hS.blankLines.last hcut.1⟩

/-- A block that is no cue, in front of the others. -/
theorem Retexted.kept {le block sep : Str} {k : ℕ} {ps ps' : List (Str × Str)}
    {blocks : List VttBlock} {lines : List SubLine} (h : Retexted le k ps ps' blocks lines)
    (hno : ∀ identifierLine timing tc, ¬ VttCue block identifierLine timing tc) :
    Retexted le k ((block, sep) :: ps) ((block, sep) :: ps') (.opaqueBlock block sep :: blocks)
      lines where
  parsed := .kept hno h.parsed
  normal := by
    intro b hb
    rcases List.mem_cons.mp hb with rfl | hb
    · exact fun _ _ _ hcue => absurd hcue (hno _ _ _)
    · exact h.normal b hb
  seps := by rw [List.map_cons, List.map_cons, h.seps]
  pieces := by
    intro r hpieces
    rw [flat_cons]
    cases hpieces with
    | last hsplit =>
      have hnil : ps' = [] := by simpa using h.seps
      subst hnil
      have hflat : block ++ ([] ++ flat []) = block := by simp [flat]
      rw [hflat]
      exact ⟨.last hsplit, id, fun _ => id⟩
    | @more _ _ r _ hsplit hS hr hps =>
      obtain ⟨hpieces', hstart, hreturns⟩ := h.pieces r hps
      refine ⟨.more hsplit hS (hstart hr) hpieces', blankLine?_append_sep hS r _, ?_⟩
      intro hlf hold
      obtain ⟨hblock, hrest, hcut⟩ := noReturns_append.mp hold
      have hnew := hreturns hlf (noReturns_append.mp hrest).2.1
      refine noReturns_append.mpr ⟨hblock, noReturns_sep hS hrest hnew, ?_⟩
      rw [head?_sep_append hS] at hcut ⊢
      exact hcut
  lineEnding := by
    rcases h.lineEnding with rfl | hends
    · exact .inl rfl
    · refine .inr fun hno => hends (hno.of_within ?_)
      rw [flat_cons]
      exact ⟨block ++ sep, [], by simp⟩

/-- A cue with another text, in front of the others. -/
theorem Retexted.cue {le block sep timing : Str} {identifierLine : Option Str} {tc : Found} {k : ℕ}
    {ps ps' : List (Str × Str)} {blocks : List VttBlock} {lines : List SubLine} {line : SubLine}
    (h : Retexted le (k + 1) ps ps' blocks lines) (hle : IsNewline le)
    (hcue : VttCue block identifierLine timing tc)
    (hline : line = ⟨[], tc.group 1, tc.group 2, line.text, none⟩)
    (hid : ∀ identifier, identifierLine = some identifier → Visible identifier)
    (hfits : Fits le line.text sep) :
    Retexted le k ((block, sep) :: ps) ((writtenCue le identifierLine timing line.text, sep) :: ps')
      (.cueBlock identifierLine timing le k sep :: blocks) (line :: lines) where
  parsed := by
    have hhead := vttHead_of_cue hcue
    have hparsed := @VttParsed.cue _ _ _ sep _ _ _ _ _ _
      ⟨hhead.lines hle line.text, hcue.clocks⟩ h.parsed
    rw [hhead.extractPayload_written hle, ← hline] at hparsed
    exact hparsed
  normal := by
    intro b hb
    rcases List.mem_cons.mp hb with rfl | hb
    · exact (vttHead_of_cue hcue).normal hle line.text
    · exact h.normal b hb
  seps := by rw [List.map_cons, List.map_cons, h.seps]
  pieces := by
    have hhead := vttHead_of_cue hcue
    have hsplit := (hhead.noMatchIn_written hle line.text sep).mpr hfits.inside
    have hblank := hhead.blankLine?_written le hid line.text
    intro r hpieces
    rw [flat_cons]
    cases hpieces with
    | last _ =>
      have hnil : ps' = [] := by simpa using h.seps
      subst hnil
      have hflat : writtenCue le identifierLine timing line.text ++ ([] ++ flat []) =
          writtenCue le identifierLine timing line.text := by simp [flat]
      have hstart := hblank []
      rw [List.append_nil] at hstart
      rw [hflat]
      refine ⟨.last hsplit, fun _ => hstart, ?_⟩
      rintro rfl _
      have hreturns := hhead.noReturns_written (s := []) (hfits.returns rfl) (by simp) rfl
      rw [List.append_nil] at hreturns
      exact hreturns
    | @more _ _ r _ _ hS hr hps =>
      obtain ⟨hpieces', hstart, hreturns⟩ := h.pieces r hps
      refine ⟨.more hsplit hS (hstart hr) hpieces', fun _ => hblank _, ?_⟩
      rintro rfl hold
      obtain ⟨_, hrest, _⟩ := noReturns_append.mp hold
      have hnew := hreturns rfl (noReturns_append.mp hrest).2.1
      apply hhead.noReturns_written (hfits.returns rfl)
      · rw [head?_sep_append hS]
        exact hfits.last hS
      · exact noReturns_sep hS hrest hnew
  lineEnding := by
    refine .inr fun hno => ?_
    have hends : NoReturns le := hno.of_within (by
      rw [flat_cons]
      exact ⟨identifierPart le identifierLine ++ timing, line.text ++ (sep ++ flat ps'), by
        simp [writtenCue]⟩)
    cases hle with
    | lf => rfl
    | crlf => exact absurd hends (by decide)

theorem VttParsed.retext {le : Str} {k : ℕ} {ps : List (Str × Str)} {blocks : List VttBlock}
    {olds : List SubLine} (hle : IsNewline le) (h : VttParsed le k ps blocks olds) :
    ∀ {lines : List SubLine}, List.Forall₂ SameFrame olds lines → AllFitVtt le k blocks lines →
      ∃ ps', Retexted le k ps ps' blocks lines := by
  induction h with
  | nil =>
    intro lines hframes _
    cases hframes
    exact ⟨[], .nil, nofun, rfl, nofun, .inl rfl⟩
  | kept hno hrest ih =>
    intro lines hframes hfit
    obtain ⟨ps', hnew⟩ := ih hframes hfit.of_kept
    exact ⟨_, hnew.kept hno⟩
  | @cue k block sep timing identifierLine tc ps blocks olds hcue hrest ih =>
    intro lines hframes hfit
    cases hframes with
    | @cons _ line _ lines hframe hframes =>
      obtain ⟨ps', hnew⟩ := ih hframes (hfit.of_cue hrest)
      obtain ⟨hid, hfits⟩ := hfit _ _ _ _ _ List.mem_cons_self
      have hhere : Fits le line.text sep := hfits line (by simp)
      have hline : line = ⟨[], tc.group 1, tc.group 2, line.text, none⟩ := by
        obtain ⟨hindex, hstart, hend, hraw, _⟩ := hframe
        cases line
        simp_all
      exact ⟨_, hnew.cue hle hcue hline hid hhere⟩

theorem visible_of_blankLine? {identifier le s : Str} (hle : IsNewline le)
    (h : blankLine? (identifier ++ (le ++ s)) = none) : Visible identifier := by
  by_contra hnone
  have hblank : IsBlankLine (identifier ++ le) :=
    ⟨identifier, le, fun c hc => by
      cases hc' : isSpaceOrTab c with
      | true => rfl
      | false => exact absurd ⟨c, hc, hc'⟩ hnone, hle, rfl⟩
  rw [← List.append_assoc, hblank.blankLine?] at h
  cases h

/-- A cue in the writer's spelling fits where it was read. -/
theorem fits_of_normal {le block sep r timing : Str} {identifierLine : Option Str} {tc : Found}
    {ps : List (Str × Str)} (hle : IsNewline le) (hcue : VttCue block identifierLine timing tc)
    (hpieces : Pieces r ((block, sep) :: ps)) (hr : blankLine? r = none)
    (hnormal : VttNormal le block) (hreturns : le = ['\n'] → NoReturns r) :
    (∀ identifier, identifierLine = some identifier → Visible identifier) ∧
      Fits le (extractPayload block identifierLine timing) sep := by
  obtain ⟨text, htext⟩ := hnormal identifierLine timing tc hcue
  have hblock : block = writtenCue le identifierLine timing text := by
    rw [← htext]
    simp [writtenCue]
  have hhead := vttHead_of_cue hcue
  have hfront : ∃ s, r = block ++ s ∧ sepRe.NoMatchIn block sep := by
    cases hpieces with
    | last hsplit => exact ⟨[], (List.append_nil _).symm, hsplit⟩
    | more hsplit _ _ _ => exact ⟨_, rfl, hsplit⟩
  obtain ⟨s, rfl, hsplit⟩ := hfront
  rw [hblock] at hsplit
  have hpayload : extractPayload block identifierLine timing = text := by
    rw [hblock, hhead.extractPayload_written hle]
  rw [hpayload]
  refine ⟨?_, fun hlf => ?_, (hhead.noMatchIn_written hle text sep).mp hsplit⟩
  · rintro identifier rfl
    rw [hblock] at hr
    apply visible_of_blankLine? (s := timing ++ (le ++ text) ++ s) hle
    simpa [writtenCue, identifierPart] using hr
  · apply (hreturns hlf).of_within
    exact ⟨identifierPart le identifierLine ++ (timing ++ le), s, by rw [hblock]; simp [writtenCue]⟩

/-- What is read back as it is has cues that fit. -/
theorem VttParsed.allFit {le : Str} (hle : IsNewline le) {k : ℕ} {ps : List (Str × Str)}
    {blocks : List VttBlock} {lines : List SubLine} (h : VttParsed le k ps blocks lines) :
    ∀ {r : Str}, Pieces r ps → blankLine? r = none → (∀ b ∈ ps, VttNormal le b.1) →
      (le = ['\n'] → NoReturns r) → AllFitVtt le k blocks lines := by
  have htail : ∀ {block sep r : Str} {k' : ℕ} {ps : List (Str × Str)} {blocks : List VttBlock}
      {lines : List SubLine}, VttParsed le k' ps blocks lines →
        Pieces r ((block, sep) :: ps) → (le = ['\n'] → NoReturns r) →
          blocks = [] ∨ ∃ r', Pieces r' ps ∧ blankLine? r' = none ∧
            (le = ['\n'] → NoReturns r') := by
    intro block sep r k' ps blocks lines hrest hpieces hreturns
    cases hpieces with
    | last =>
      cases hrest
      exact .inl rfl
    | more _ _ hr hps =>
      refine .inr ⟨_, hps, hr, fun hlf => (hreturns hlf).of_within ?_⟩
      exact ⟨_, [], by rw [List.append_nil, List.append_assoc]⟩
  induction h with
  | nil => exact fun _ _ _ _ => nofun
  | @kept k block sep ps blocks lines hno hrest ih =>
    intro r hpieces hr hnormal hreturns identifierLine timing le' i sep' hmem
    rcases List.mem_cons.mp hmem with hhead | hthere
    · cases hhead
    · rcases htail hrest hpieces hreturns with rfl | ⟨r', hps, hr', hreturns'⟩
      · cases hthere
      · exact ih hps hr' (fun b hb => hnormal b (List.mem_cons_of_mem _ hb)) hreturns' _ _ _ _ _
          hthere
  | @cue k block sep timing identifierLine tc ps blocks lines hcue hrest ih =>
    intro r hpieces hr hnormal hreturns identifierLine' timing' le' i sep' hmem
    have hhere := fits_of_normal hle hcue hpieces hr (hnormal _ List.mem_cons_self) hreturns
    rcases List.mem_cons.mp hmem with hhead | hthere
    · cases hhead
      refine ⟨hhere.1, fun line hline => ?_⟩
      rw [Nat.sub_self] at hline
      cases hline
      exact hhere.2
    · rcases htail hrest hpieces hreturns with rfl | ⟨r', hps, hr', hreturns'⟩
      · cases hthere
      · obtain ⟨hid, hfits⟩ := ih hps hr' (fun b hb => hnormal b (List.mem_cons_of_mem _ hb))
          hreturns' _ _ _ _ _ hthere
        have hindex := hrest.le_index hthere
        refine ⟨hid, fun line hline => hfits line ?_⟩
        have hi : i - k = (i - (k + 1)) + 1 := by omega
        rw [hi, List.getElem?_cons_succ] at hline
        exact hline

theorem VttReadAs.vttBlocks_eq {encoding text header sep : Str} {ps : List (Str × Str)}
    {blocks : List VttBlock} {doc : SubDoc}
    (h : VttReadAs encoding text header sep ps blocks doc) :
    doc.vttBlocks = .opaqueBlock header sep :: blocks := by
  rw [h.doc_eq]
  rfl

theorem VttReadAs.lineEnding_eq {encoding text header sep : Str} {ps : List (Str × Str)}
    {blocks : List VttBlock} {doc : SubDoc}
    (h : VttReadAs encoding text header sep ps blocks doc) :
    doc.lineEnding = detectLineEnding text := by
  rw [h.doc_eq]

/-- The text with the cues retexted is what the document is read from. -/
theorem VttReadAs.retext {encoding text header sep : Str} {ps ps' : List (Str × Str)}
    {blocks : List VttBlock} {doc : SubDoc} {lines : List SubLine}
    (h : VttReadAs encoding text header sep ps blocks doc)
    (hnew : Retexted doc.lineEnding 0 ps ps' blocks lines) :
    VttReadAs encoding (flat ((header, sep) :: ps')) header sep ps' blocks
      (withLines doc lines) := by
  have hends := h.lineEnding_eq
  have hle : IsNewline doc.lineEnding := hends ▸ isNewline_detectLineEnding text
  have htext : text = flat ((header, sep) :: ps) := h.pieces.eq
  have hback : doc.lineEnding = detectLineEnding (flat ((header, sep) :: ps')) := by
    refine ((detectLineEnding_eq hle).mpr ⟨fun hlf => ?_, fun hno => ?_⟩).symm
    · have hold : NoReturns text := ((detectLineEnding_eq .lf).mp (hends.symm.trans hlf)).mp rfl
      cases h.pieces with
      | @last header hsplit =>
        have hnil : ps' = [] := by simpa using hnew.seps
        rw [hnil]
        simpa [flat] using hold
      | @more header sep r ps hsplit hS hr hps =>
        obtain ⟨hheader, hrest, hcut⟩ := noReturns_append.mp hold
        have hreturns := (hnew.pieces _ hps).2.2 hlf (noReturns_append.mp hrest).2.1
        rw [flat_cons]
        refine noReturns_append.mpr ⟨hheader, noReturns_sep hS hrest hreturns, ?_⟩
        rw [head?_sep_append hS] at hcut ⊢
        exact hcut
    · rcases hnew.lineEnding with rfl | hlf
      · rw [← htext] at hno
        exact (detectLineEnding_eq hle).mp hends.symm |>.mpr hno
      · apply hlf (hno.of_within _)
        rw [flat_cons]
        exact ⟨header ++ sep, [], by simp⟩
  refine ⟨?_, ?_, ?_⟩
  · rw [flat_cons]
    cases h.pieces with
    | @last header hsplit =>
      have hnil : ps' = [] := by simpa using hnew.seps
      subst hnil
      have hflat : ∀ x : Str, x ++ ([] ++ flat []) = x := by simp [flat]
      rw [hflat]
      exact .last hsplit
    | @more header sep r ps hsplit hS hr hps =>
      obtain ⟨hpieces, hstart, _⟩ := hnew.pieces _ hps
      exact .more hsplit hS (hstart hr) hpieces
  · rw [← hback]
    exact hnew.parsed
  · rw [← hback, hends]
    have hdoc := h.doc_eq
    rw [hdoc]
    rfl

/-- A document with other texts in its cues is read back from what is written for it just when
every cue fits: no text makes a blank line or, in a document of line feeds, brings a carriage
return, and no identifier is blank. -/
theorem readVtt_writeVtt_iff (encoding text : Str) {lines : List SubLine}
    (hframes : List.Forall₂ SameFrame (readVtt encoding text).lines lines) :
    (writeVtt (withLines (readVtt encoding text) lines)).map (readVtt encoding) =
        some (withLines (readVtt encoding text) lines) ↔
      AllFitVtt (readVtt encoding text).lineEnding 0 (readVtt encoding text).vttBlocks lines := by
  obtain ⟨header, sep, ps, blocks, hread⟩ := vttReadAs_readVtt encoding text
  have hends := hread.lineEnding_eq
  have hle : IsNewline (readVtt encoding text).lineEnding := hends ▸ isNewline_detectLineEnding text
  rw [hread.vttBlocks_eq]
  constructor
  · intro hsame
    obtain ⟨out, hwrite, hback⟩ := Option.map_eq_some_iff.mp hsame
    obtain ⟨header', sep', ps', blocks', hread'⟩ := vttReadAs_readVtt encoding out
    rw [hback] at hread'
    have hblocks : VttBlock.opaqueBlock header sep :: blocks =
        .opaqueBlock header' sep' :: blocks' := hread.vttBlocks_eq.symm.trans hread'.vttBlocks_eq
    have hends' : (readVtt encoding text).lineEnding = detectLineEnding out := hread'.lineEnding_eq
    have hnormal := (vtt_byte_identity encoding out).mp (by rw [hback, hwrite])
    rw [pairBlocks_of_pieces hread'.pieces, List.tail_cons, ← hends'] at hnormal
    have hparsed := hread'.parsed
    rw [← hends'] at hparsed
    intro identifierLine timing le' i sep'' hmem
    rw [hblocks] at hmem
    rcases List.mem_cons.mp hmem with hhead | hthere
    · cases hhead
    · cases hread'.pieces with
      | last =>
        cases hparsed
        cases hthere
      | more _ _ hr hps =>
        refine hparsed.allFit hle hps hr hnormal (fun hlf => ?_) _ _ _ _ _ hthere
        have hno := ((detectLineEnding_eq .lf).mp (hends'.symm.trans hlf)).mp rfl
        exact hno.of_within ⟨_, [], by rw [List.append_nil, List.append_assoc]⟩
  · intro hfit
    have hparsed := hread.parsed
    rw [← hends] at hparsed
    obtain ⟨ps', hnew⟩ := hparsed.retext hle hframes hfit.of_kept
    have hread' := hread.retext hnew
    have hback := hread'.unique
    have hends' : (readVtt encoding text).lineEnding =
        detectLineEnding (flat ((header, sep) :: ps')) := hread'.lineEnding_eq
    have hwrite := (vtt_byte_identity encoding (flat ((header, sep) :: ps'))).mpr (by
      rw [pairBlocks_of_pieces hread'.pieces, List.tail_cons, ← hends']
      exact hnew.normal)
    rw [hback] at hwrite
    rw [hwrite, Option.map_some, hback]

def vttGreeting : Str :=
  "WEBVTT\n\nintro\n00:01.000 --> 00:02.000\nHi.\n\n00:03.000 --> 00:04.000\nBye.\n"

def vttGreetingCues (first second : Str) : List SubLine :=
  [⟨[], "00:01.000", "00:02.000", first, none⟩, ⟨[], "00:03.000", "00:04.000", second, none⟩]

theorem vttGreetingCues_frames (first second : Str) : List.Forall₂ SameFrame
    (readVtt "utf-8" vttGreeting).lines (vttGreetingCues first second) := by
  have hlines : (readVtt "utf-8" vttGreeting).lines = vttGreetingCues "Hi." "Bye.\n" := by
    decide +kernel
  rw [hlines]
  exact .cons (.of_sent rfl first) (.cons (.of_sent rfl second) .nil)

theorem vttGreeting_reads_back :
    AllFitVtt (readVtt "utf-8" vttGreeting).lineEnding 0 (readVtt "utf-8" vttGreeting).vttBlocks
        (vttGreetingCues "Xin\nchào." "Tạm biệt.") ∧
      ¬ AllFitVtt (readVtt "utf-8" vttGreeting).lineEnding 0
        (readVtt "utf-8" vttGreeting).vttBlocks (vttGreetingCues "Xin chào.\n" "Tạm biệt.") := by
  have hframes := vttGreetingCues_frames
  constructor
  · apply (readVtt_writeVtt_iff "utf-8" vttGreeting (hframes _ _)).mp
    decide +kernel
  · intro hfit
    have hback := (readVtt_writeVtt_iff "utf-8" vttGreeting (hframes _ _)).mpr hfit
    revert hback
    decide +kernel

end Trezarr
