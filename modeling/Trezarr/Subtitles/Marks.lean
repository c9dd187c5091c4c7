import Trezarr.Subtitles.Codec
import Trezarr.Subtitles.Dispatch
import Trezarr.Subtitles.Totality

/-! What a byte order mark changes in the cues that are read. -/
namespace Trezarr
open Text Regex Regex.Pattern Fallible

def markChar : Char := '\uFEFF'

inductive Mark
  | utf8
  | utf16 (order : Utf16.ByteOrder)
  deriving DecidableEq, Repr

/-- The file of a text with a mark at its front. -/
def Mark.encode : Mark → Str → Bytes
  | .utf8, text => byteOrderMark ++ encodeUtf8 text
  | .utf16 order, text => Utf16.encode order (markChar :: text)

theorem encodeUtf8_cons (c : Char) (text : Str) :
    encodeUtf8 (c :: text) = String.utf8EncodeChar c ++ encodeUtf8 text := rfl

/-- Only the mark is encoded with the bytes of the mark. -/
theorem take_encodeUtf8 {text : Str} (h : text.head? ≠ some markChar) :
    (encodeUtf8 text).take 3 ≠ byteOrderMark := by
  intro htake
  have hbytes := List.take_append_drop 3 (encodeUtf8 text)
  rw [htake] at hbytes
  cases text with
  | nil => cases hbytes
  | cons c text =>
    have hmark : byteOrderMark = String.utf8EncodeChar markChar := by decide
    have hfirst := ByteArray.utf8DecodeChar?_utf8EncodeChar_append
      (b := (encodeUtf8 text).toByteArray) (c := c)
    have hsecond := ByteArray.utf8DecodeChar?_utf8EncodeChar_append
      (b := ((encodeUtf8 (c :: text)).drop 3).toByteArray) (c := markChar)
    rw [← List.toByteArray_append, ← encodeUtf8_cons] at hfirst
    rw [← List.toByteArray_append, ← hmark, hbytes, hfirst] at hsecond
    exact h (congrArg some (Option.some.inj hsecond))

/-- No text starts with the bytes of a mark of sixteen bits. -/
theorem head_encodeUtf8 {text : Str} {b : UInt8} (h : (encodeUtf8 text).head? = some b) :
    b ≠ 0xFF ∧ b ≠ 0xFE := by
  cases text with
  | nil => cases h
  | cons c text =>
    have hfirst := UInt8.isUTF8FirstByte_getElem_zero_utf8EncodeChar (c := c)
    rw [encodeUtf8_cons] at h
    cases hbytes : String.utf8EncodeChar c with
    | nil => exact absurd hbytes String.utf8EncodeChar_ne_nil
    | cons b' bytes =>
      simp only [hbytes, List.cons_append, List.head?_cons, Option.some.injEq] at h
      simp only [hbytes, List.getElem_cons_zero, h] at hfirst
      refine ⟨?_, ?_⟩ <;> rintro rfl <;> exact absurd hfirst (by decide)

/-- The detector takes a text without a mark for plain UTF-8. -/
theorem detectEncoding_encodeUtf8 (codecs : Codecs) {text : Str} (h : text.head? ≠ some markChar) :
    detectEncoding codecs (encodeUtf8 text) = "utf-8" := by
  have hno : ∀ b : UInt8, b = 0xFF ∨ b = 0xFE → ∀ b', (encodeUtf8 text).take 2 ≠ [b, b'] := by
    intro b hb b' htake
    cases hbytes : encodeUtf8 text with
    | nil => simp [hbytes] at htake
    | cons x bytes =>
      have hx : (encodeUtf8 text).head? = some x := by
        rw [hbytes]
        rfl
      have hhead := head_encodeUtf8 hx
      simp only [hbytes, List.take_succ_cons, List.cons.injEq] at htake
      rw [htake.1] at hhead
      rcases hb with hb | hb
      · exact hhead.1 hb
      · exact hhead.2 hb
  have hsome : (decodeUtf8? (encodeUtf8 text)).isSome := by
    rw [decodeUtf8?_encodeUtf8]
    rfl
  unfold detectEncoding
  rw [if_neg (show ¬ (encodeUtf8 text).take 3 = [0xEF, 0xBB, 0xBF] from take_encodeUtf8 h), if_neg (hno 0xFF (.inl rfl) 0xFE),
    if_neg (hno 0xFE (.inr rfl) 0xFF), if_pos hsome]

/-- What is decoded from a file with a mark. -/
def Mark.decoded : Mark → Str → Str
  | .utf8, text => text
  | .utf16 _, text => markChar :: text

/-- The cues of a file, when its reader returns. -/
def Format.cues (codecs : Codecs) (format : Format) (data : Bytes) :
    Except IndexError (List SubLine) :=
  (format.readBytes codecs data).map SubDoc.lines

/-- The cues of a text; the name of its encoding is only noted. -/
def Format.textCues (format : Format) (text : Str) : Except IndexError (List SubLine) :=
  (format.read [] text).map SubDoc.lines

theorem map_lines_read (format : Format) (encoding text : Str) :
    (format.read encoding text).map SubDoc.lines = format.textCues text := by
  cases format with
  | srt => rfl
  | vtt => rfl
  | ass =>
    simp only [Format.textCues, Format.read, readAss_eq]
    cases readPieces (detectLineEnding text) (cutSections true text) <;> rfl

theorem cues_encodeUtf8 (codecs : Codecs) (format : Format) {text : Str}
    (h : text.head? ≠ some markChar) :
    format.cues codecs (encodeUtf8 text) = format.textCues text := by
  have hdecode : decode codecs "utf-8" (encodeUtf8 text) = text := by
    have hname : ¬ ("utf-8".toList = "utf-8-sig".toList ∧
        (encodeUtf8 text).take 3 = [0xEF, 0xBB, 0xBF]) := fun hboth => absurd hboth.1 (by decide)
    simp only [decode, if_neg hname, true_or, if_true, decodeUtf8?_encodeUtf8, Option.getD_some]
  unfold Format.cues Format.readBytes
  rw [detectEncoding_encodeUtf8 codecs h, map_lines_read, hdecode]

theorem cues_mark {codecs : Codecs} {others : Str → Codec} (hagree : codecs.Agree others)
    (format : Format) (mark : Mark) (text : Str) :
    format.cues codecs (mark.encode text) = format.textCues (mark.decoded text) := by
  have hdecode : (codecOf others (detectEncoding codecs (mark.encode text))).decode?
      (mark.encode text) = some (mark.decoded text) := by
    cases mark with
    | utf8 =>
      have hname : detectEncoding codecs (Mark.utf8.encode text) = "utf-8-sig" := if_pos rfl
      rw [hname]
      exact decodeUtf8?_encodeUtf8 text
    | utf16 order =>
      have hread := Utf16.decode?_encode order (markChar :: text)
      cases order with
      | little =>
        have hname : detectEncoding codecs ((Mark.utf16 .little).encode text) = "utf-16-le" := rfl
        rw [hname]
        exact hread
      | big =>
        have hname : detectEncoding codecs ((Mark.utf16 .big).encode text) = "utf-16-be" := rfl
        rw [hname]
        exact hread
  unfold Format.cues Format.readBytes
  rw [map_lines_read, decode_of_decode? hagree hdecode]

theorem detectLineEnding_mark (text : Str) :
    detectLineEnding (markChar :: text) = detectLineEnding text := by
  have hiff : "\r\n".toList <:+: markChar :: text ↔ "\r\n".toList <:+: text := by
    rw [List.infix_cons_iff]
    refine or_iff_right ?_
    rintro ⟨s, hs⟩
    exact absurd (List.cons.inj hs).1 (by decide)
  simp only [detectLineEnding, contains, decide_eq_true_eq, hiff]

theorem blankLine?_mark (text : Str) : blankLine? (markChar :: text) = none := rfl

theorem rests_sepRe_mark (text : Str) : sepRe.rests (markChar :: text) = [] := by
  by_contra hne
  obtain ⟨nl, l, r, hnl, _, heq⟩ := rests_sepRe_ne_nil.mp hne
  cases hnl <;> exact absurd (List.cons.inj heq).1 (by decide)

/-- The mark goes to the first block. -/
theorem pieces_mark {text : Str} {b : Str × Str} {ps : List (Str × Str)}
    (h : Pieces text (b :: ps)) : Pieces (markChar :: text) ((markChar :: b.1, b.2) :: ps) := by
  cases h with
  | last hno =>
    have hno' : sepRe.NoMatchIn (markChar :: text) [] := ⟨rests_sepRe_mark _, hno⟩
    exact .last hno'
  | @more t S r ps hno hS hr hps =>
    have hno' : sepRe.NoMatchIn (markChar :: t) S := ⟨rests_sepRe_mark _, hno⟩
    exact .more hno' hS hr hps

theorem lines_parseVttBlock {le : Str} {st st' : VttState} (h : st.lines = st'.lines)
    (block trailingSep : Str) : (parseVttBlock le st block trailingSep).lines =
      (parseVttBlock le st' block trailingSep).lines := by
  unfold parseVttBlock
  dsimp only
  split
  · exact h
  · split
    · exact h
    · rw [h]

theorem lines_foldl_parseVttBlock {le : Str} (bs : List (Str × Str)) : ∀ {st st' : VttState},
    st.lines = st'.lines → (bs.foldl (fun st b => parseVttBlock le st b.1 b.2) st).lines =
      (bs.foldl (fun st b => parseVttBlock le st b.1 b.2) st').lines := by
  induction bs with
  | nil => exact fun h => h
  | cons b bs ih => exact fun h => ih (lines_parseVttBlock h b.1 b.2)

/-- The first block is no cue, with or without a mark. -/
theorem vtt_textCues_mark (text : Str) :
    Format.vtt.textCues (markChar :: text) = Format.vtt.textCues text := by
  obtain ⟨ps, hps⟩ := exists_pieces text
  cases ps with
  | nil => exact absurd rfl hps.ne_nil
  | cons b ps =>
    have hlines : (readVtt [] (markChar :: text)).lines = (readVtt [] text).lines := by
      unfold readVtt
      simp only [pairBlocks_of_pieces (pieces_mark hps), pairBlocks_of_pieces hps,
        detectLineEnding_mark]
      exact lines_foldl_parseVttBlock ps rfl
    exact congrArg Except.ok hlines

/-- The text begins with a cue, with no blank lines in front. -/
def StartsWithCue (text : Str) : Prop :=
  (splitLeading text).1 = [] ∧ ∃ block ∈ (srtBlocks text).head?,
    ∃ index tcLine tc, Header block index tcLine tc

/-- What starts with a mark is not a number. -/
theorem matchStart_indexRe_mark (s : Str) : matchStart indexRe (markChar :: s) = none := by
  have hdigit : isDigit markChar = false := by decide
  simp [matchStart, matchAt, indexRe, results, seqs, plus, digit, hdigit]

theorem not_header_mark {block index tcLine : Str} {tc : Found} :
    ¬ Header (markChar :: block) index tcLine tc := by
  intro h
  obtain ⟨text, hblock, _⟩ := h.exists_text
  have hnumber := h.number
  cases index with
  | nil => cases hnumber
  | cons c index =>
    obtain ⟨rfl, _⟩ := List.cons.inj hblock
    obtain ⟨rest, hrest⟩ := strip_cons (show isSpace markChar = false by decide) index
    rw [hrest, matchStart_indexRe_mark] at hnumber
    cases hnumber

theorem Framed.isSpace {body trailer : Str} {seps : List Str} (h : Framed body [] seps trailer) :
    ∀ c ∈ body, isSpace c = true := by
  cases h with
  | blank _ hblank => exact hblank.isSpace
  | separator hS => exact hS.blankLines.isSpace

/-- The first block of a text with a mark starts with it. -/
theorem srtBlocks_mark (text : Str) :
    ∃ block blocks, srtBlocks (markChar :: text) = (markChar :: block) :: blocks := by
  have hsplit : splitLeading (markChar :: text) = ([], markChar :: text) :=
    splitLeading_of_none (blankLine?_mark text)
  obtain ⟨blocks, seps, trailer, hframed⟩ := exists_framed (markChar :: text)
  have hblocks : srtBlocks (markChar :: text) = blocks := by
    simp [srtBlocks, hsplit, hframed.frameBody]
  have hnot := hframed.nil_not_mem (blankLine?_mark text)
  have hbody := hframed.eq []
  rw [hblocks]
  cases blocks with
  | nil =>
    -- without a block there would be nothing but white space
    have hspace : isSpace markChar = true := hframed.isSpace markChar List.mem_cons_self
    cases hspace
  | cons block blocks =>
    cases block with
    | nil => exact absurd List.mem_cons_self hnot
    | cons c block =>
      have hhead : ∃ rest, joinBlocks [] ((c :: block) :: blocks) seps = c :: rest := by
        cases blocks <;> cases seps <;> exact ⟨_, rfl⟩
      obtain ⟨rest, hrest⟩ := hhead
      rw [hrest] at hbody
      obtain ⟨rfl, _⟩ := List.cons.inj hbody
      exact ⟨block, blocks, rfl⟩

theorem srt_textCues_mark {text : Str} (h : StartsWithCue text) :
    Format.srt.textCues (markChar :: text) ≠ Format.srt.textCues text := by
  obtain ⟨hleading, block, hfirst, index, tcLine, tc, hheader⟩ := h
  obtain ⟨marked, blocks, hmarked⟩ := srtBlocks_mark text
  obtain ⟨payload, hblock, hparse⟩ := hheader.exists_text
  obtain ⟨blocks', hblocks'⟩ : ∃ bs, srtBlocks text = block :: bs :=
    List.head?_eq_some_iff.mp hfirst
  have hne : block ≠ [] := by
    rintro rfl
    obtain ⟨rest, hrest⟩ := hheader.lines
    cases hrest
  intro heq
  have heq' : (readSrt [] (markChar :: text)).lines = (readSrt [] text).lines := Except.ok.inj heq
  rw [lines_readSrt, lines_readSrt, hmarked, hblocks', List.filter_cons_of_pos (by simp),
    List.filter_cons_of_pos (by simpa using hne), List.map_cons, List.map_cons] at heq'
  have hcue := (List.cons.inj heq').1
  have hraw : (parseBlock (markChar :: marked)).raw = some (markChar :: marked) :=
    (parseBlock_kept fun _ _ _ => not_header_mark).2
  rw [hcue, hparse] at hraw
  cases hraw

/-- The cues of some lines, unless one of them has its text in the second column. -/
def lineCues (lines : List EventLine) : Except IndexError (List SubLine) :=
  if ∃ line ∈ lines, line.TwoColumns then .error .indexError
  else .ok (lines.flatMap EventLine.cues)

theorem lines_readPieces (le front : Str) (texts : List Str) :
    (readPieces le (front, texts)).map EventsState.lines = lineCues (eventsLines le texts) := by
  cases texts with
  | nil => rfl
  | cons first texts =>
    have hempty : (if front = [] then {} else EventsState.addOpaque {} front).lines = [] := by
      split <;> rfl
    have hread : readPieces le (front, first :: texts) = parseSections le
        (if front = [] then {} else EventsState.addOpaque {} front) (first :: texts) := rfl
    rw [hread, lineCues]
    rcases parseSections_cases le (first :: texts)
      (if front = [] then {} else EventsState.addOpaque {} front) with
      ⟨hnone, st, hok, _, _, hcues⟩ | ⟨htwo, herror⟩
    · rw [hempty, List.nil_append] at hcues
      rw [hok, if_neg (by simpa using hnone), ← hcues]
      rfl
    · rw [herror, if_pos htwo]
      rfl

theorem ass_textCues (text : Str) : Format.ass.textCues text =
    lineCues (eventsLines (detectLineEnding text) (cutSections true text).2) := by
  rw [← lines_readPieces _ (cutSections true text).1]
  show (readAss [] text).map SubDoc.lines = _
  rw [readAss_eq]
  cases readPieces (detectLineEnding text) (cutSections true text) <;> rfl

/-- Nothing is lost without the first section: it has no cues, or the next ones are the same. -/
def SameWithoutFirst (le : Str) : List Str → Prop
  | [] => True
  | first :: texts => isEventsSection le first = true →
    lineCues (eventsLines le texts) = lineCues (eventLines 9 (lineSpans first))

theorem eventsLines_cons (le first : Str) (texts : List Str) : eventsLines le (first :: texts) =
    if isEventsSection le first = true then eventLines 9 (lineSpans first)
    else eventsLines le texts := by
  unfold eventsLines eventsText
  rw [List.find?_cons]
  cases isEventsSection le first <;> rfl

/-- After a mark, the header of the first section is not one. -/
theorem cutSections_mark (text : Str) (h : text.head? = some '[') :
    (cutSections true (markChar :: text)).2 = (cutSections true text).2.tail := by
  obtain ⟨rest, rfl⟩ := List.head?_eq_some_iff.mp h
  rfl

theorem ass_textCues_mark {text : Str} (h : text.head? = some '[') :
    Format.ass.textCues (markChar :: text) = Format.ass.textCues text ↔
      SameWithoutFirst (detectLineEnding text) (cutSections true text).2 := by
  rw [ass_textCues, ass_textCues, detectLineEnding_mark, cutSections_mark text h]
  cases (cutSections true text).2 with
  | nil => exact iff_of_true rfl trivial
  | cons first texts =>
    rw [eventsLines_cons, List.tail_cons, SameWithoutFirst]
    by_cases hevents : isEventsSection (detectLineEnding text) first = true
    · rw [if_pos hevents]
      exact ⟨fun heq _ => heq, fun heq => heq hevents⟩
    · rw [if_neg hevents]
      exact iff_of_true rfl fun hyes => absurd hyes hevents

/-- A text of a format that starts with what a file of it starts with. -/
def Format.Starts : Format → Str → Prop
  | .srt, text => StartsWithCue text
  | .ass, text => text.head? = some '['
  | .vtt, text => "WEBVTT".toList <+: text

/-- A mark that stays in the text takes the first cue of SubRip and the first section of Advanced
SubStation, and the header of WebVTT has no cues. -/
def Format.KeptByMark : Format → Str → Prop
  | .srt, _ => False
  | .ass, text => SameWithoutFirst (detectLineEnding text) (cutSections true text).2
  | .vtt, _ => True

theorem Format.Starts.no_mark {format : Format} {text : Str} (h : format.Starts text) :
    text.head? ≠ some markChar := by
  cases format with
  | srt =>
    rintro hmark
    obtain ⟨rest, rfl⟩ := List.head?_eq_some_iff.mp hmark
    obtain ⟨_, block, hfirst, index, tcLine, tc, hheader⟩ := h
    obtain ⟨marked, blocks, hblocks⟩ := srtBlocks_mark rest
    rw [hblocks] at hfirst
    cases hfirst
    exact not_header_mark hheader
  | ass =>
    intro hmark
    cases h.symm.trans hmark
  | vtt =>
    obtain ⟨rest, rfl⟩ := h
    intro hmark
    cases hmark

theorem textCues_mark {format : Format} {text : Str} (h : format.Starts text) :
    format.textCues (markChar :: text) = format.textCues text ↔ format.KeptByMark text := by
  cases format with
  | srt => exact iff_of_false (srt_textCues_mark h) id
  | ass => exact ass_textCues_mark h
  | vtt => exact iff_of_true (vtt_textCues_mark text) trivial

/-- A file with a mark has the cues of the plain one when the mark is that of UTF-8 or takes no
cue with it. -/
theorem encoding_independence {codecs : Codecs} {others : Str → Codec}
    (hagree : codecs.Agree others) {format : Format} {text : Str} (h : format.Starts text)
    (mark : Mark) : format.cues codecs (mark.encode text) = format.cues codecs (encodeUtf8 text) ↔
      mark = .utf8 ∨ format.KeptByMark text := by
  rw [cues_mark hagree, cues_encodeUtf8 codecs format h.no_mark]
  cases mark with
  | utf8 => exact iff_of_true rfl (.inl rfl)
  | utf16 order =>
    rw [or_iff_right (by simp), ← textCues_mark h]
    rfl

/-- One section with one line of dialogue. -/
def oneSection : Str := "[Events]\nDialogue: 0,0:00:01.00,0:00:02.00,,,,,,,Hi.\n"

theorem oneSection_lost : ¬ ∀ (format : Format) (text : Str) (mark : Mark), format.Starts text →
    format.cues plainCodecs (mark.encode text) = format.cues plainCodecs (encodeUtf8 text) := by
  intro h
  have hsame := h .ass oneSection (.utf16 .little) rfl
  have hlost : Format.ass.cues plainCodecs ((Mark.utf16 .little).encode oneSection) = .ok [] := by
    rw [cues_mark agree_plainCodecs]
    decide +kernel
  revert hsame
  rw [hlost]
  decide +kernel

theorem oneSection_not_kept : ¬ Format.ass.KeptByMark oneSection := by
  intro hkept
  have hsame := (encoding_independence agree_plainCodecs (show Format.ass.Starts oneSection from rfl)
    (.utf16 .big)).mpr (.inr hkept)
  revert hsame
  decide +kernel

end Trezarr
