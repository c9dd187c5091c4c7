import Trezarr.Subtitles.SrtCues
import Trezarr.Translate.Assembly

/-! When a translated SubRip document is read back from its sidecar as it was written. -/
namespace Trezarr
open Text Regex Regex.Pattern

/-- A block is written as it was, or it is a cue and its text may be another. -/
theorem sameFrame_cases {block : Str} {line : SubLine} (h : SameFrame (parseBlock block) line)
    (le : Str) : renderBlock le line = block ∧ line = parseBlock block ∧ line.raw ≠ none ∨
      line.raw = none ∧ SrtCue line := by
  cases hraw : (parseBlock block).raw with
  | some raw =>
    have hline := h.verbatim (by simp [hraw])
    refine .inl ⟨?_, hline, by simp [hline, hraw]⟩
    rw [hline, renderBlock_raw hraw, parseBlock_raw hraw]
  | none =>
    have hcue := srtCue_parseBlock hraw
    exact .inr ⟨h.sent hraw, by
      constructor
      · rw [h.index]
        exact hcue.number
      · rw [h.index]
        exact hcue.stripped
      · rw [h.index]
        exact hcue.oneLine
      · rw [h.startTc]
        exact hcue.starts
      · rw [h.endTc]
        exact hcue.ends⟩

/-- Every cue has a text that stays inside it. -/
def AllFit (le : Str) (lines : List SubLine) (seps : List Str) (trailer : Str) : Prop :=
  ∀ i line, lines[i]? = some line → line.raw = none →
    Fits le line.text (seps.getD i trailer) ∧
      (i + 1 = lines.length → EndsCue line.text trailer)

theorem AllFit.tail {le S trailer : Str} {line : SubLine} {lines : List SubLine} {seps : List Str}
    (h : AllFit le (line :: lines) (S :: seps) trailer) : AllFit le lines seps trailer := by
  intro i line' hget hraw
  have hthere := h (i + 1) line' (by simpa using hget) hraw
  simpa using hthere

/-- The first block written is in no blank line unless it was in one. -/
def StartsAlike (body new : Str) : Prop := blankLine? body = none → blankLine? new = none

theorem LastBlock.retext {le t b trailer : Str} {line : SubLine} (hle : IsNewline le)
    (h : LastBlock t b trailer) (hframe : SameFrame (parseBlock b) line)
    (hfits : line.raw = none → Fits le line.text trailer ∧ EndsCue line.text trailer) :
    LastBlock (renderBlock le line ++ trailer) (renderBlock le line) trailer ∧
      StartsAlike t (renderBlock le line ++ trailer) := by
  rcases sameFrame_cases hframe le with ⟨hblock, _, _⟩ | ⟨hraw, hcue⟩
  · rw [hblock, ← h.eq]
    exact ⟨h, fun hstart => hstart⟩
  · obtain ⟨hfit, hend⟩ := hfits hraw
    refine ⟨?_, fun _ => hcue.blankLine?_renderBlock hraw le trailer⟩
    have hne := hcue.renderBlock_ne_nil hraw le
    cases h with
    | separated hno hS _ =>
      exact .separated ((hcue.noMatchIn_renderBlock hraw hle trailer).mpr hfit.inside) hS hne
    | trailed hno htrailed _ =>
      obtain ⟨rfl, hblank, hbefore⟩ := htrailed
      have htrailer : sepRe.NoMatchIn trailer [] := (noMatchIn_append.mp hno).2
      have hsep : ¬ IsSep trailer := by
        intro hS
        cases trailer with
        | nil => exact hS.ne_nil rfl
        | cons c trailer =>
          have hhere := htrailer.1
          rw [List.append_nil] at hhere
          exact isSep_rests hS hhere
      refine .trailed (noMatchIn_append.mpr ⟨?_, htrailer⟩) ⟨rfl, hblank, ?_⟩ hne
      · rw [List.append_nil]
        exact (hcue.noMatchIn_renderBlock hraw hle trailer).mpr hfit.inside
      · exact (hcue.noMatchIn_trailRe hraw hle trailer).mpr (hend hsep)

/-- With texts that fit, the blocks written are framed as the blocks read were. -/
theorem Framed.retext {le body trailer : Str} {blocks seps : List Str} (hle : IsNewline le)
    (h : Framed body blocks seps trailer) : ∀ {lines : List SubLine},
      List.Forall₂ SameFrame (blocks.map parseBlock) lines → AllFit le lines seps trailer →
        Framed (joinBlocks le (lines.map (renderBlock le)) seps ++ trailer)
          (lines.map (renderBlock le)) seps trailer ∧
        StartsAlike body (joinBlocks le (lines.map (renderBlock le)) seps ++ trailer) := by
  induction h with
  | @blank body hno hblank =>
    intro lines hframes _
    cases hframes
    exact ⟨.blank hno hblank, fun hstart => hstart⟩
  | @separator S hS =>
    intro lines hframes _
    cases hframes
    exact ⟨.separator hS, fun hstart => hstart⟩
  | @last t b trailer hlast =>
    intro lines hframes hfit
    cases hframes with
    | @cons _ line _ _ hframe hrest =>
      cases hrest
      obtain ⟨hnew, hstart⟩ := hlast.retext hle hframe fun hraw => by
        obtain ⟨hfits, hend⟩ := hfit 0 line rfl hraw
        exact ⟨hfits, hend rfl⟩
      exact ⟨.last hnew, hstart⟩
  | @more t S r trailer b blocks seps hno hS hr hrest ih =>
    intro lines hframes hfit
    rw [List.map_cons] at hframes
    cases hframes with
    | @cons _ line _ lines hframe hframes =>
      obtain ⟨hnew, hstart⟩ := ih hframes hfit.tail
      rw [List.map_cons] at hframes
      cases hframes with
      | @cons _ line' _ lines hframe' hframes =>
        have hjoin : joinBlocks le ((line :: line' :: lines).map (renderBlock le)) (S :: seps) ++
            trailer = renderBlock le line ++ (S ++ (joinBlocks le
              ((line' :: lines).map (renderBlock le)) seps ++ trailer)) := by
          simp [joinBlocks]
        rw [hjoin]
        have hr' := hstart hr
        rcases sameFrame_cases hframe le with ⟨hblock, _, _⟩ | ⟨hraw, hcue⟩
        · have hmap : (line :: line' :: lines).map (renderBlock le) =
              t :: renderBlock le line' :: lines.map (renderBlock le) := by
            simp [hblock]
          rw [hmap, hblock]
          exact ⟨.more hno hS hr' hnew, blankLine?_append_sep hS r _⟩
        · have hfits := (hfit 0 line rfl hraw).1
          have hno' := (hcue.noMatchIn_renderBlock hraw hle S).mpr hfits.inside
          exact ⟨.more hno' hS hr' hnew, fun _ => hcue.blankLine?_renderBlock hraw le _⟩

theorem Framed.noReturns {body trailer : Str} {blocks seps : List Str}
    (h : Framed body blocks seps trailer) : ∀ {lines : List SubLine},
      List.Forall₂ SameFrame (blocks.map parseBlock) lines → AllFit ['\n'] lines seps trailer →
        NoReturns body →
          NoReturns (joinBlocks ['\n'] (lines.map (renderBlock ['\n'])) seps ++ trailer) := by
  induction h with
  | @blank body hno hblank =>
    intro lines hframes _ hbody
    cases hframes
    exact hbody
  | @separator S hS =>
    intro lines hframes _ hbody
    cases hframes
    exact hbody
  | @last t b trailer hlast =>
    intro lines hframes hfit hbody
    cases hframes with
    | @cons _ line _ _ hframe hrest =>
      cases hrest
      rw [hlast.eq] at hbody
      rcases sameFrame_cases hframe ['\n'] with ⟨hblock, _, _⟩ | ⟨hraw, hcue⟩
      · simpa [joinBlocks, hblock] using hbody
      · obtain ⟨hfits, hend⟩ := hfit 0 line rfl hraw
        apply hcue.noReturns_renderBlock hraw (hfits.returns rfl) _ (noReturns_append.mp hbody).2.1
        cases hlast with
        | separated _ hS _ => exact hfits.last hS
        | trailed hno htrailed _ =>
          by_cases hS : IsSep trailer
          · exact hfits.last hS
          · exact (hend rfl).last hS htrailed.blank
  | @more t S r trailer b blocks seps hno hS hr hrest ih =>
    intro lines hframes hfit hbody
    rw [List.map_cons] at hframes
    cases hframes with
    | @cons _ line _ lines hframe hframes =>
      obtain ⟨ht, hSr, hend⟩ := noReturns_append.mp hbody
      obtain ⟨hSno, hrno, _⟩ := noReturns_append.mp hSr
      have hback := ih hframes hfit.tail hrno
      rw [List.map_cons] at hframes
      cases hframes with
      | @cons _ line' _ lines hframe' hframes =>
        have hjoin : joinBlocks ['\n'] ((line :: line' :: lines).map (renderBlock ['\n']))
            (S :: seps) ++ trailer = renderBlock ['\n'] line ++ (S ++ (joinBlocks ['\n']
              ((line' :: lines).map (renderBlock ['\n'])) seps ++ trailer)) := by
          simp [joinBlocks]
        rw [hjoin]
        have hhead : ∀ x : Str, (S ++ x).head? = S.head? := by
          intro x
          obtain ⟨c, cs, rfl⟩ := List.exists_cons_of_ne_nil hS.ne_nil
          rfl
        have hrest' : NoReturns (S ++ (joinBlocks ['\n']
            ((line' :: lines).map (renderBlock ['\n'])) seps ++ trailer)) :=
          noReturns_append.mpr ⟨hSno, hback, fun hcut => hS.blankLines.last hcut.1⟩
        rw [hhead] at hend
        rcases sameFrame_cases hframe ['\n'] with ⟨hblock, _, _⟩ | ⟨hraw, hcue⟩
        · rw [hblock]
          exact noReturns_append.mpr ⟨ht, hrest', by rwa [hhead]⟩
        · have hfits := (hfit 0 line rfl hraw).1
          refine hcue.noReturns_renderBlock hraw (hfits.returns rfl) ?_ hrest'
          rw [hhead]
          exact hfits.last hS

theorem infix_joinBlocks (le : Str) {block : Str} {blocks : List Str} (h : block ∈ blocks) :
    ∀ seps, block <:+: joinBlocks le blocks seps := by
  induction blocks with
  | nil => cases h
  | cons b blocks ih =>
    intro seps
    cases blocks with
    | nil =>
      rw [List.mem_singleton.mp h]
      exact List.infix_refl b
    | cons b' blocks =>
      rcases List.mem_cons.mp h with rfl | hmem
      · cases seps with
        | nil => exact ⟨[], le ++ le ++ joinBlocks le (b' :: blocks) [], by simp [joinBlocks]⟩
        | cons sep seps =>
          exact ⟨[], sep ++ joinBlocks le (b' :: blocks) seps, by simp [joinBlocks]⟩
      · cases seps with
        | nil =>
          have hrest := ih hmem []
          exact hrest.trans ⟨b ++ le ++ le, [], by simp [joinBlocks]⟩
        | cons sep seps =>
          have hrest := ih hmem seps
          exact hrest.trans ⟨b ++ sep, [], by simp [joinBlocks]⟩

/-- Where there is a cue there is no empty block. -/
theorem nil_not_mem_of_cue {text leading body trailer : Str} {blocks seps : List Str}
    (hled : Led text leading body) (hframed : Framed body blocks seps trailer) {block : Str}
    (hmem : block ∈ blocks) (hcue : (parseBlock block).raw = none) :
    blankLine? body = none ∧ [] ∉ blocks := by
  have hbody : blankLine? body = none := by
    cases hled with
    | none h => exact h
    | lines _ _ hr _ => exact hr
    | white h =>
      have hwhite : (parseBlock block).raw = _ := parseBlock_white fun c hc =>
        strip_eq_nil.mp h c (hframed.mem_body block hmem c hc)
      rw [hcue] at hwhite
      cases hwhite
  exact ⟨hbody, hframed.nil_not_mem hbody⟩

theorem filter_ne_nil {blocks : List Str} (h : [] ∉ blocks) : blocks.filter (· ≠ []) = blocks := by
  rw [List.filter_eq_self]
  intro block hblock
  simpa using fun hnil : block = [] => h (hnil ▸ hblock)

/-- In each block, no separator starts before the one after it. -/
theorem Framed.get {body trailer : Str} {blocks seps : List Str}
    (h : Framed body blocks seps trailer) : ∀ {i : ℕ} {block : Str}, blocks[i]? = some block →
      sepRe.NoMatchIn block (seps.getD i trailer) ∧
        (i + 1 = blocks.length → ¬ IsSep trailer → trailRe.NoMatchIn block trailer) := by
  induction h with
  | blank => simp
  | separator => simp
  | @last t b trailer hlast =>
    intro i block hget
    cases i with
    | succ i => simp at hget
    | zero =>
      cases hget
      cases hlast with
      | separated hno hS _ => exact ⟨hno, fun _ hsep => absurd hS hsep⟩
      | trailed hno htrailed _ =>
        rw [htrailed.eq, noMatchIn_append, List.append_nil] at hno
        exact ⟨hno.1, fun _ _ => htrailed.before⟩
  | @more t S r trailer b blocks seps hno hS hr hrest ih =>
    intro i block hget
    cases i with
    | zero =>
      cases hget
      exact ⟨hno, fun hlen => by simp at hlen⟩
    | succ i =>
      have hthere := ih (i := i) (by simpa using hget)
      simpa using hthere

/-- What a text that was read as `doc` is framed into. -/
structure ReadAs (encoding text : Str) (leading body : Str) (blocks : List Str)
    (doc : SubDoc) : Prop where
  led : Led text leading body
  framed : Framed body blocks doc.separators doc.trailer
  lines : doc.lines = (blocks.filter (· ≠ [])).map parseBlock
  others : doc.encoding = encoding ∧ doc.lineEnding = detectLineEnding text ∧
    doc.leading = leading ∧ doc.envelope = .none

theorem readAs_readSrt (encoding text : Str) :
    ∃ leading body blocks, ReadAs encoding text leading body blocks (readSrt encoding text) := by
  obtain ⟨leading, body, hled⟩ := exists_led text
  obtain ⟨blocks, seps, trailer, hframed⟩ := exists_framed body
  refine ⟨leading, body, blocks, hled, ?_, ?_, ?_⟩
  · rw [readSrt_eq]
    simp only [hled.splitLeading, hframed.frameBody]
    exact hframed
  · rw [readSrt_eq]
    simp only [hled.splitLeading, hframed.frameBody]
  · rw [readSrt_eq]
    simp only [hled.splitLeading, and_self]

theorem ReadAs.unique {encoding text leading body : Str} {blocks : List Str} {doc : SubDoc}
    (h : ReadAs encoding text leading body blocks doc) : readSrt encoding text = doc := by
  obtain ⟨henc, hle, hleading, henv⟩ := h.others
  have hlines := h.lines
  rw [readSrt_eq]
  simp only [h.led.splitLeading, h.framed.frameBody]
  cases doc
  simp_all

/-- What is written for a document with a cue starts where its first block starts. -/
theorem Led.retext {text leading body new : Str} (h : Led text leading body)
    (hnew : blankLine? new = Option.none) (htext : strip new ≠ []) :
    Led (leading ++ new) leading new := by
  cases h with
  | none _ => exact .none hnew
  | lines hB hne _ _ => exact .lines hB hne hnew htext
  | white h =>
    rw [List.nil_append]
    exact .none hnew

theorem Led.leading_last {text leading body : Str} (h : Led text leading body) :
    leading.getLast? ≠ some '\r' := by
  cases h with
  | none _ => simp
  | white _ => simp
  | lines hB _ _ _ => exact hB.last

theorem exists_mem_of_forall₂ {blocks : List Str} {lines : List SubLine}
    (h : List.Forall₂ SameFrame (blocks.map parseBlock) lines) {line : SubLine}
    (hline : line ∈ lines) (hraw : line.raw = none) :
    ∃ block ∈ blocks, (parseBlock block).raw = none ∧ SrtCue line := by
  obtain ⟨i, hi, rfl⟩ := List.getElem_of_mem hline
  have hlen := h.length_eq
  rw [List.length_map] at hlen
  have hframe := h.get (by rw [List.length_map, hlen]; exact hi) hi
  simp only [List.get_eq_getElem, List.getElem_map] at hframe
  refine ⟨blocks[i], List.getElem_mem _, ?_⟩
  rcases sameFrame_cases hframe [] with ⟨_, _, hsome⟩ | ⟨_, hcue⟩
  · exact absurd hraw hsome
  · refine ⟨?_, hcue⟩
    cases hkept : (parseBlock blocks[i]).raw with
    | none => rfl
    | some raw =>
      rw [hframe.verbatim (by simp [hkept]), hkept] at hraw
      cases hraw

theorem parse_written {le : Str} (hle : IsNewline le) {blocks : List Str} {lines : List SubLine}
    (h : List.Forall₂ SameFrame (blocks.map parseBlock) lines)
    (htext : ∀ line ∈ lines, line.raw = none → le = ['\n'] → NoReturns line.text) :
    (lines.map (renderBlock le)).map parseBlock = lines := by
  induction blocks generalizing lines with
  | nil =>
    cases h
    rfl
  | cons block blocks ih =>
    cases h with
    | @cons _ line _ lines hframe hframes =>
      have hrest := ih hframes fun l hl => htext l (List.mem_cons_of_mem line hl)
      have hhere : parseBlock (renderBlock le line) = line := by
        rcases sameFrame_cases hframe le with ⟨hblock, hline, _⟩ | ⟨hraw, hcue⟩
        · rw [hblock, ← hline]
        · exact parseBlock_renderBlock hle hcue hraw (htext line List.mem_cons_self hraw)
      rw [List.map_cons, List.map_cons, hhere, hrest]

/-- What is written, in the parts it is read in. -/
theorem ReadAs.writeSrt_eq {encoding text leading body : Str} {blocks : List Str} {doc : SubDoc}
    (h : ReadAs encoding text leading body blocks doc) (lines : List SubLine) :
    writeSrt (withLines doc lines) = leading ++
      (joinBlocks doc.lineEnding (lines.map (renderBlock doc.lineEnding)) doc.separators ++
        doc.trailer) := by
  obtain ⟨_, _, hleading, _⟩ := h.others
  simp [writeSrt, withLines, hleading]

/-- The line end of a document with a cue is the one its cues are written with. -/
theorem ReadAs.lineEnding_written {encoding text leading body : Str} {blocks : List Str}
    {doc : SubDoc} (h : ReadAs encoding text leading body blocks doc) {lines : List SubLine}
    (hframes : List.Forall₂ SameFrame (blocks.map parseBlock) lines) {line : SubLine}
    (hline : line ∈ lines) (hraw : line.raw = none) (hcue : SrtCue line)
    (hfit : AllFit doc.lineEnding lines doc.separators doc.trailer) :
    detectLineEnding (writeSrt (withLines doc lines)) = doc.lineEnding := by
  obtain ⟨_, hends, _, _⟩ := h.others
  have hle : IsNewline doc.lineEnding := hends ▸ isNewline_detectLineEnding text
  rw [detectLineEnding_eq hle, h.writeSrt_eq]
  constructor
  · intro hlf
    have hold : NoReturns text := (detectLineEnding_eq .lf).mp (hends.symm.trans hlf) |>.mp rfl
    rw [h.led.eq] at hold
    obtain ⟨hleads, hbody, _⟩ := noReturns_append.mp hold
    rw [hlf] at hfit ⊢
    have hback := h.framed.noReturns hframes hfit hbody
    exact noReturns_append.mpr ⟨hleads, hback, fun hcut => h.led.leading_last hcut.1⟩
  · intro hno
    have hinside := infix_joinBlocks doc.lineEnding
      (List.mem_map_of_mem (f := renderBlock doc.lineEnding) hline) doc.separators
    have hfront := hno.of_within (List.infix_append_of_infix_right
      (List.infix_append_of_infix_left hinside))
    rw [renderBlock_cue hraw, noReturns_line hcue.oneLine, noReturns_newline hle] at hfront
    exact hfront.1

/-- A document with a cue and texts that fit is read back as it is. -/
theorem ReadAs.reads_back {encoding text leading body : Str} {blocks : List Str} {doc : SubDoc}
    (h : ReadAs encoding text leading body blocks doc) {lines : List SubLine}
    (hframes : List.Forall₂ SameFrame doc.lines lines) {line : SubLine} (hline : line ∈ lines)
    (hraw : line.raw = none) (hfit : AllFit doc.lineEnding lines doc.separators doc.trailer) :
    readSrt encoding (writeSrt (withLines doc lines)) = withLines doc lines := by
  obtain ⟨henc, hends, hleading, henv⟩ := h.others
  have hle : IsNewline doc.lineEnding := hends ▸ isNewline_detectLineEnding text
  rw [h.lines] at hframes
  obtain ⟨block, hblock, hnone, hcue⟩ := exists_mem_of_forall₂ hframes hline hraw
  obtain ⟨hbody, hnil⟩ :=
    nil_not_mem_of_cue h.led h.framed (List.mem_of_mem_filter hblock) hnone
  rw [filter_ne_nil hnil] at hframes
  obtain ⟨hnew, hstart⟩ := h.framed.retext hle hframes hfit
  have hnew' := hstart hbody
  have hinside := infix_joinBlocks doc.lineEnding
    (List.mem_map_of_mem (f := renderBlock doc.lineEnding) hline) doc.separators
  have htext : strip (joinBlocks doc.lineEnding (lines.map (renderBlock doc.lineEnding))
      doc.separators ++ doc.trailer) ≠ [] := by
    intro hwhite
    obtain ⟨c, rest, hindex, hc⟩ := hcue.head
    have hin : c ∈ renderBlock doc.lineEnding line := by
      rw [renderBlock_cue hraw, hindex]
      exact List.mem_cons_self
    rw [strip_eq_nil.mp hwhite c (List.mem_append_left _ (hinside.subset hin))] at hc
    cases hc
  have hback : ReadAs encoding (writeSrt (withLines doc lines)) leading
      (joinBlocks doc.lineEnding (lines.map (renderBlock doc.lineEnding)) doc.separators ++
        doc.trailer) (lines.map (renderBlock doc.lineEnding)) (withLines doc lines) := by
    refine ⟨?_, hnew, ?_, henc, ?_, hleading, henv⟩
    · rw [h.writeSrt_eq]
      exact h.led.retext hnew' htext
    · rw [filter_ne_nil (hnew.nil_not_mem hnew')]
      refine (parse_written hle hframes fun l hl hraw' => ?_).symm
      obtain ⟨i, hi, rfl⟩ := List.getElem_of_mem hl
      exact (hfit i _ (List.getElem?_eq_getElem hi) hraw').1.returns
    · exact (h.lineEnding_written hframes hline hraw hcue hfit).symm
  exact hback.unique

/-- What is read back as it is has texts that fit. -/
theorem ReadAs.allFit {encoding text leading body : Str} {blocks : List Str} {doc : SubDoc}
    (h : ReadAs encoding text leading body blocks doc) {line : SubLine} (hline : line ∈ doc.lines)
    (hraw : line.raw = none) : AllFit doc.lineEnding doc.lines doc.separators doc.trailer := by
  obtain ⟨_, hends, _, _⟩ := h.others
  have hnil : [] ∉ blocks := by
    rw [h.lines] at hline
    obtain ⟨block, hblock, rfl⟩ := List.mem_map.mp hline
    exact (nil_not_mem_of_cue h.led h.framed (List.mem_of_mem_filter hblock) hraw).2
  have hlines := h.lines
  rw [filter_ne_nil hnil] at hlines
  intro i line hget hraw
  rw [hlines, List.getElem?_map, Option.map_eq_some_iff] at hget
  obtain ⟨block, hblock, rfl⟩ := hget
  obtain ⟨hno, hend⟩ := h.framed.get hblock
  have hheader : ∃ index tcLine tc, Header block index tcLine tc := by
    by_contra hnone
    push Not at hnone
    rw [(parseBlock_kept hnone).2] at hraw
    cases hraw
  obtain ⟨index, tcLine, tc, hheader⟩ := hheader
  obtain ⟨cueText, heq, hparse⟩ := hheader.exists_text
  have hnewline := isNewline_detectLineEnding block
  -- a separator or a trailer that starts in the text starts in its block
  have hparts : block = index ++ detectLineEnding block ++ tcLine ++
      (detectLineEnding block ++ cueText) := by simpa using heq
  rw [hparse]
  refine ⟨⟨fun hlf => ?_, ?_⟩, fun hlen hsep => ?_⟩
  · have hno : NoReturns text := ((detectLineEnding_eq .lf).mp (hends.symm.trans hlf)).mp rfl
    apply hno.of_within
    have hcue : cueText <:+: block := ⟨index ++ detectLineEnding block ++ tcLine ++
      detectLineEnding block, [], by rw [List.append_nil]; simpa using heq.symm⟩
    have hbody := infix_joinBlocks doc.lineEnding (List.mem_of_getElem? hblock)
      doc.separators
    rw [h.led.eq, h.framed.eq doc.lineEnding]
    exact (hcue.trans hbody).trans (List.infix_append_of_infix_right List.infix_append_left)
  · rw [hparts, noMatchIn_append, noMatchIn_newline hnewline] at hno
    exact hno.2
  · have htrail := hend (by simpa [hlines] using hlen) hsep
    rw [hparts, noMatchIn_append, noMatchIn_trailRe_newline hnewline] at htrail
    exact htrail.2

/-- A document with other texts in its cues is read back from what is written for it just when no
text makes a blank line or, in a document of line feeds, brings a carriage return. -/
theorem readSrt_writeSrt_iff (encoding text : Str) {lines : List SubLine}
    (hframes : List.Forall₂ SameFrame (readSrt encoding text).lines lines)
    (hcue : ∃ line ∈ lines, line.raw = none) :
    readSrt encoding (writeSrt (withLines (readSrt encoding text) lines)) =
        withLines (readSrt encoding text) lines ↔
      AllFit (readSrt encoding text).lineEnding lines (readSrt encoding text).separators
        (readSrt encoding text).trailer := by
  obtain ⟨line, hline, hraw⟩ := hcue
  obtain ⟨leading, body, blocks, hread⟩ := readAs_readSrt encoding text
  generalize readSrt encoding text = doc at hframes hread ⊢
  constructor
  · intro hsame
    obtain ⟨_, _, _, hback⟩ := readAs_readSrt encoding (writeSrt (withLines doc lines))
    rw [hsame] at hback
    exact hback.allFit hline hraw
  · exact hread.reads_back hframes hline hraw

def srtGreeting : Str :=
  "1\n00:00:01,000 --> 00:00:02,000\nHi.\n\n2\n00:00:03,000 --> 00:00:04,000\nBye.\n"

def srtGreetingCues (first second : Str) : List SubLine :=
  [⟨"1", "00:00:01,000", "00:00:02,000", first, none⟩,
    ⟨"2", "00:00:03,000", "00:00:04,000", second, none⟩]

theorem srtGreetingCues_frames (first second : Str) :
    List.Forall₂ SameFrame (readSrt "utf-8" srtGreeting).lines (srtGreetingCues first second) := by
  have hdoc : readSrt "utf-8" srtGreeting =
      ⟨srtGreetingCues "Hi." "Bye.", "utf-8", "\n", ["\n\n"], [], "\n", .none⟩ := by
    decide +kernel
  rw [hdoc]
  exact .cons (.of_sent rfl first) (.cons (.of_sent rfl second) .nil)

/-- A translation in two lines is read back, one with an empty line between them is not. -/
theorem srtGreeting_reads_back :
    AllFit (readSrt "utf-8" srtGreeting).lineEnding (srtGreetingCues "Xin\nchào." "Tạm biệt.")
        (readSrt "utf-8" srtGreeting).separators (readSrt "utf-8" srtGreeting).trailer ∧
      ¬ AllFit (readSrt "utf-8" srtGreeting).lineEnding (srtGreetingCues "Xin\n\nchào." "Tạm biệt.")
        (readSrt "utf-8" srtGreeting).separators (readSrt "utf-8" srtGreeting).trailer := by
  have hframes := srtGreetingCues_frames
  have hcue : ∀ first second, ∃ line ∈ srtGreetingCues first second, line.raw = none :=
    fun first second => ⟨_, List.mem_cons_self, rfl⟩
  constructor
  · apply (readSrt_writeSrt_iff "utf-8" srtGreeting (hframes _ _) (hcue _ _)).mp
    decide +kernel
  · intro hfit
    have hback := (readSrt_writeSrt_iff "utf-8" srtGreeting (hframes _ _) (hcue _ _)).mpr hfit
    revert hback
    decide +kernel

end Trezarr
