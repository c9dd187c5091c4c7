import Trezarr.Lib.RegexGroups
import Trezarr.Subtitles.Codec
import Trezarr.Subtitles.SrtFrame

/-! Which texts the SubRip writer gives back as they were read. -/
namespace Trezarr
open Text Regex Regex.Pattern

/-- Two lines at the front of equal texts are equal, and so are their ends. -/
theorem line_unique {e e' x y : Str} (he : IsNewline e) (he' : IsNewline e') {u : Str} :
    ∀ {v : Str}, (∀ c ∈ u, isLineBreak c = false) → (∀ c ∈ v, isLineBreak c = false) →
      u ++ (e ++ x) = v ++ (e' ++ y) → u = v ∧ e = e' ∧ x = y := by
  have hfirst : ∀ {e x : Str} {c : Char} {s : Str}, IsNewline e → c :: s = e ++ x →
      isLineBreak c = true := by
    intro e x c s he h
    cases he <;> cases h <;> rfl
  induction u with
  | nil =>
    intro v _ hv h
    cases v with
    | nil =>
      cases he <;> cases he' <;> simp_all
    | cons c v =>
      have hc := hfirst he h.symm
      rw [hv c List.mem_cons_self] at hc
      cases hc
  | cons c u ih =>
    intro v hu hv h
    cases v with
    | nil =>
      have hc := hfirst he' h
      rw [hu c List.mem_cons_self] at hc
      cases hc
    | cons d v =>
      obtain ⟨rfl, htail⟩ := List.cons.inj h
      obtain ⟨rfl, rest⟩ := ih (fun x hx => hu x (List.mem_cons_of_mem _ hx))
        (fun x hx => hv x (List.mem_cons_of_mem _ hx)) htail
      exact ⟨rfl, rest⟩

/-- The two lines that make a block a cue, when they are ended as the block ends its lines. -/
structure Header (block index tcLine : Str) (tc : Found) : Prop where
  lines : ∃ rest, splitlines block = index :: tcLine :: rest
  clocks : fullMatch tcRe (strip tcLine) = some tc
  number : (matchStart indexRe (strip index)).isSome
  front : index ++ detectLineEnding block ++ tcLine ++ detectLineEnding block <+: block

namespace Header

variable {block index tcLine : Str} {tc : Found}

/-- The block after its header is the text of the cue. -/
theorem exists_text (h : Header block index tcLine tc) : ∃ text,
    block = index ++ (detectLineEnding block ++ (tcLine ++ (detectLineEnding block ++ text))) ∧
      parseBlock block = ⟨strip index, tc.group 1, tc.group 2, text, none⟩ := by
  obtain ⟨⟨rest, hlines⟩, hclocks, hnumber, hfront⟩ := h
  obtain ⟨text, htext⟩ := hfront
  have hdrop : block.drop
      (index ++ detectLineEnding block ++ tcLine ++ detectLineEnding block).length = text := by
    conv => lhs; arg 2; rw [← htext]
    rw [List.drop_left]
  refine ⟨text, by simpa using htext.symm, ?_⟩
  unfold parseBlock
  simp only [hlines, hclocks, Option.isNone_eq_false_iff.mpr hnumber, hdrop,
    if_pos (List.prefix_iff_eq_append.mpr (by rw [hdrop]; exact htext))]
  rfl

theorem no_break_index (h : Header block index tcLine tc) :
    ∀ c ∈ index, isLineBreak c = false := by
  obtain ⟨rest, hlines⟩ := h.lines
  exact not_isLineBreak_of_mem_splitlines (s := block) (by simp [hlines])

theorem no_break_tcLine (h : Header block index tcLine tc) :
    ∀ c ∈ tcLine, isLineBreak c = false := by
  obtain ⟨rest, hlines⟩ := h.lines
  exact not_isLineBreak_of_mem_splitlines (s := block) (by simp [hlines])

theorem no_break_clocks (h : Header block index tcLine tc) :
    ∀ c ∈ tc.group 1 ++ " --> ".toList ++ tc.group 2, isLineBreak c = false := by
  intro c hc
  simp only [List.mem_append] at hc
  rcases hc with (hc | hc) | hc
  · exact h.no_break_tcLine c (mem_of_mem_strip (mem_of_mem_group h.clocks 1 c hc))
  · have hc' : c ∈ [' ', '-', '-', '>', ' '] := hc
    fin_cases hc' <;> rfl
  · exact h.no_break_tcLine c (mem_of_mem_strip (mem_of_mem_group h.clocks 2 c hc))

end Header

/-- The header is written as the writer spells headers in a document with these line ends. -/
def Normal (lineEnding block : Str) : Prop :=
  ∀ index tcLine tc, Header block index tcLine tc →
    strip index = index ∧ tcLine = tc.group 1 ++ " --> " ++ tc.group 2 ∧
      detectLineEnding block = lineEnding

/-- Every other block is kept as it is. -/
theorem parseBlock_kept {block : Str} (h : ∀ index tcLine tc, ¬ Header block index tcLine tc) :
    (parseBlock block).text = block ∧ (parseBlock block).raw = some block := by
  unfold parseBlock
  split
  next index tcLine rest hlines =>
    split
    next => exact ⟨rfl, rfl⟩
    next tc hclocks =>
      split
      next => exact ⟨rfl, rfl⟩
      next hnumber =>
        dsimp only
        split
        next hfront =>
          exact absurd ⟨⟨rest, hlines⟩, hclocks,
            Option.isSome_iff_ne_none.mpr (by simpa using hnumber), hfront⟩ (h index tcLine tc)
        next => exact ⟨rfl, rfl⟩
  next => exact ⟨rfl, rfl⟩

theorem renderBlock_raw {lineEnding : Str} {line : SubLine} {raw : Str}
    (h : line.raw = some raw) : renderBlock lineEnding line = raw := by
  unfold renderBlock
  rw [h]

theorem renderBlock_of_normal {lineEnding block : Str} (h : Normal lineEnding block) :
    renderBlock lineEnding (parseBlock block) = block := by
  by_cases hheader : ∃ index tcLine tc, Header block index tcLine tc
  · obtain ⟨index, tcLine, tc, hheader⟩ := hheader
    obtain ⟨hindex, hclocks, hle⟩ := h index tcLine tc hheader
    obtain ⟨text, hblock, hparse⟩ := hheader.exists_text
    rw [hparse]
    conv => rhs; rw [hblock]
    simp [renderBlock, hindex, hclocks, hle]
  · push Not at hheader
    exact renderBlock_raw (parseBlock_kept hheader).2

/-- In front of equal texts, a block written otherwise would show. -/
theorem normal_of_renderBlock {lineEnding block x y : Str} (hle : IsNewline lineEnding)
    (h : renderBlock lineEnding (parseBlock block) ++ x = block ++ y) :
    Normal lineEnding block := by
  intro index tcLine tc hheader
  obtain ⟨text, hblock, hparse⟩ := hheader.exists_text
  have hindex : ∀ c ∈ strip index, isLineBreak c = false :=
    fun c hc => hheader.no_break_index c (mem_of_mem_strip hc)
  have hclocks := hheader.no_break_clocks
  have hrender : renderBlock lineEnding (parseBlock block) = strip index ++ (lineEnding ++
      ((tc.group 1 ++ " --> ".toList ++ tc.group 2) ++ (lineEnding ++ text))) := by
    rw [hparse]
    simp [renderBlock]
  have hble := isNewline_detectLineEnding block
  generalize detectLineEnding block = le at hblock hble ⊢
  rw [hrender, hblock] at h
  generalize tc.group 1 ++ " --> ".toList ++ tc.group 2 = clocks at h hclocks ⊢
  simp only [List.append_assoc] at h
  obtain ⟨hi, he, hrest⟩ := line_unique hle hble hindex hheader.no_break_index h
  obtain ⟨hc, _, _⟩ := line_unique hle hble hclocks hheader.no_break_tcLine hrest
  exact ⟨hi, hc.symm, he.symm⟩

/-- A block of white space has no number. -/
theorem parseBlock_white {block : Str} (h : ∀ c ∈ block, isSpace c = true) :
    (parseBlock block).raw = some block := by
  refine (parseBlock_kept fun index tcLine tc hheader => ?_).2
  obtain ⟨text, hblock, _⟩ := hheader.exists_text
  have hindex : strip index = [] := by
    rw [strip_eq_nil]
    intro c hc
    exact h c (by rw [hblock]; exact List.mem_append_left _ hc)
  have hnumber := hheader.number
  rw [hindex] at hnumber
  cases hnumber

theorem normal_of_joinBlocks {lineEnding trailer : Str} (hle : IsNewline lineEnding) :
    ∀ {blocks seps : List Str},
      joinBlocks lineEnding (blocks.map fun b => renderBlock lineEnding (parseBlock b)) seps ++
        trailer = joinBlocks lineEnding blocks seps ++ trailer →
      ∀ block ∈ blocks, Normal lineEnding block
  | [], _, _ => by simp
  | [b], seps, h => by
    intro block hblock
    rw [List.mem_singleton.mp hblock]
    exact normal_of_renderBlock hle h
  | b :: b' :: blocks, seps, h => by
    have hcut : ∃ sep seps', (∀ bs : List Str, bs ≠ [] → ∀ x, joinBlocks lineEnding (x :: bs) seps =
        x ++ (sep ++ joinBlocks lineEnding bs seps')) := by
      cases seps with
      | nil =>
        refine ⟨lineEnding ++ lineEnding, [], fun bs hbs x => ?_⟩
        obtain ⟨y, ys, rfl⟩ := List.exists_cons_of_ne_nil hbs
        simp [joinBlocks]
      | cons sep seps =>
        refine ⟨sep, seps, fun bs hbs x => ?_⟩
        obtain ⟨y, ys, rfl⟩ := List.exists_cons_of_ne_nil hbs
        simp [joinBlocks]
    obtain ⟨sep, seps', hcut⟩ := hcut
    rw [List.map_cons, hcut _ (by simp), hcut _ (by simp)] at h
    simp only [List.append_assoc] at h
    have hfirst := normal_of_renderBlock hle h
    rw [renderBlock_of_normal hfirst, List.append_cancel_left_eq,
      List.append_cancel_left_eq] at h
    intro block hblock
    rcases List.mem_cons.mp hblock with rfl | hblock
    · exact hfirst
    · exact normal_of_joinBlocks hle h block hblock

/-- One separator fewer makes the text shorter. -/
theorem length_joinBlocks_lt (lineEnding : Str) : ∀ {blocks seps : List Str},
    blocks ≠ [] → seps.length = blocks.length → [] ∉ seps →
    (joinBlocks lineEnding blocks seps).length < (joinBlocks lineEnding ([] :: blocks) seps).length
  | [], _, h, _, _ => absurd rfl h
  | [b], [sep], _, _, hseps => by
    have hpos : 0 < sep.length := List.length_pos_iff.mpr fun hnil => hseps (by simp [hnil])
    simp only [joinBlocks, List.nil_append, List.length_append]
    omega
  | b :: b' :: blocks, sep :: sep' :: seps, _, hlen, hseps => by
    have hlen' : (sep' :: seps).length = (b' :: blocks).length := by simpa using hlen
    have hrest := length_joinBlocks_lt lineEnding (List.cons_ne_nil b' blocks) hlen' fun hmem =>
      hseps (List.mem_cons_of_mem _ hmem)
    simp only [joinBlocks, List.nil_append, List.length_append] at hrest ⊢
    omega

/-- The blocks the reader takes for cues. -/
def srtBlocks (text : Str) : List Str := (frameBody (splitLeading text).2).blocks

theorem lines_readSrt (encoding text : Str) : (readSrt encoding text).lines =
    ((srtBlocks text).filter (· ≠ [])).map parseBlock := by
  rw [readSrt_eq, srtBlocks]

/-- The writer gives a text back when no block is empty and every header is in its spelling. -/
theorem writeSrt_readSrt (encoding text : Str) : writeSrt (readSrt encoding text) = text ↔
    [] ∉ srtBlocks text ∧ ∀ block ∈ srtBlocks text, Normal (detectLineEnding text) block := by
  obtain ⟨leading, body, hled⟩ := exists_led text
  obtain ⟨blocks, seps, trailer, hframed⟩ := exists_framed body
  have hblocks : srtBlocks text = blocks := by
    simp [srtBlocks, hled.splitLeading, hframed.frameBody]
  have hle := isNewline_detectLineEnding text
  have hbody := hframed.eq (detectLineEnding text)
  have hwrite : writeSrt (readSrt encoding text) = leading ++
      (joinBlocks (detectLineEnding text) ((blocks.filter (· ≠ [])).map fun b =>
        renderBlock (detectLineEnding text) (parseBlock b)) seps ++ trailer) := by
    rw [readSrt_eq]
    simp [hled.splitLeading, hframed.frameBody, writeSrt, Function.comp_def]
  have htext : text = leading ++ (joinBlocks (detectLineEnding text) blocks seps ++ trailer) := by
    rw [← hbody]
    exact hled.eq
  rw [hblocks, hwrite]
  by_cases hmem : [] ∈ blocks
  · -- the empty block goes, and a separator with it
    refine iff_of_false (fun heq => ?_) fun h => h.1 hmem
    obtain ⟨hblank, b, bs, rfl, hnot⟩ := hframed.nil_mem hmem
    have hwhite : ∀ c ∈ body, isSpace c = true := by
      cases hled with
      | none h => exact absurd h hblank
      | white h => exact strip_eq_nil.mp h
      | lines _ _ hr _ => exact absurd hr hblank
    have hmap : ((b :: bs).map fun b => renderBlock (detectLineEnding text) (parseBlock b)) =
        b :: bs := by
      conv => rhs; rw [← List.map_id (b :: bs)]
      refine List.map_congr_left fun x hx => renderBlock_raw (parseBlock_white fun c hc => ?_)
      exact hwhite c (hframed.mem_body x (List.mem_cons_of_mem _ hx) c hc)
    have hfilter : ([] :: b :: bs).filter (· ≠ []) = b :: bs := by
      rw [List.filter_cons_of_neg (by simp), List.filter_eq_self]
      intro x hx
      simpa using fun hnil : x = [] => hnot (hnil ▸ hx)
    have hshort := length_joinBlocks_lt (detectLineEnding text) (List.cons_ne_nil b bs)
      (by simpa using hframed.length_eq) hframed.sep_ne_nil
    rw [hfilter, hmap] at heq
    have hlen := congrArg List.length (heq.trans htext)
    simp only [List.length_append] at hlen
    omega
  · have hfilter : blocks.filter (· ≠ []) = blocks := by
      rw [List.filter_eq_self]
      intro b hb
      simpa using fun hnil : b = [] => hmem (hnil ▸ hb)
    rw [hfilter]
    constructor
    · intro heq
      exact ⟨hmem, normal_of_joinBlocks hle (List.append_cancel_left (heq.trans htext))⟩
    · rintro ⟨_, hnormal⟩
      have hmap : (blocks.map fun b => renderBlock (detectLineEnding text) (parseBlock b)) =
          blocks := by
        conv => rhs; rw [← List.map_id blocks]
        exact List.map_congr_left fun b hb => renderBlock_of_normal (hnormal b hb)
      rw [hmap]
      exact htext.symm

/-- A file read and written again, in the encoding it was read with. -/
def rewriteSrt? (codecs : Codecs) (others : Str → Codec) (data : Bytes) : Option Bytes :=
  let encoding := detectEncoding codecs data
  let doc := readSrt encoding (decode codecs encoding data)
  (codecOf others doc.encoding).encode? (writeSrt doc)

/-- A decodable file is written back byte for byte just when its codec encodes its text back, no
block is empty and every header is in the writer's spelling; marked files and UTF-8 always are. -/
theorem srt_byte_identity {codecs : Codecs} {others : Str → Codec} (hagree : codecs.Agree others)
    (hreads : ∀ name, (others name).ReadsBack) {data : Bytes} {text : Str}
    (h : (codecOf others (detectEncoding codecs data)).decode? data = some text) :
    (rewriteSrt? codecs others data = some data ↔
      (codecOf others (detectEncoding codecs data)).encode? text = some data ∧
        [] ∉ srtBlocks text ∧
          ∀ block ∈ srtBlocks text, Normal (detectLineEnding text) block) ∧
      (Marked data →
        (codecOf others (detectEncoding codecs data)).encode? text = some data) := by
  refine ⟨?_, fun hmarked => encode?_of_marked hmarked h⟩
  have hrewrite : rewriteSrt? codecs others data =
      (codecOf others (detectEncoding codecs data)).encode?
        (writeSrt (readSrt (detectEncoding codecs data) text)) := by
    simp only [rewriteSrt?, decode_of_decode? hagree h]
    rfl
  rw [hrewrite, ← writeSrt_readSrt (detectEncoding codecs data)]
  constructor
  · intro hwrite
    have hback := readsBack_codecOf hreads _ _ _ hwrite
    have htext : writeSrt (readSrt (detectEncoding codecs data) text) = text :=
      Option.some.inj (hback.symm.trans h)
    exact ⟨htext ▸ hwrite, htext⟩
  · rintro ⟨hencode, htext⟩
    rw [htext]
    exact hencode

/-- A space after the number of a cue. -/
def spacedNumber : Str := "1 \n00:00:01,000 --> 00:00:02,000\nHi.\n"

theorem spacedNumber_lost : ¬ ∀ data text,
    (codecOf noOthers (detectEncoding plainCodecs data)).decode? data = some text →
      rewriteSrt? plainCodecs noOthers data = some data := by
  intro h
  have hsame := h (encodeUtf8 spacedNumber) spacedNumber (by decide)
  revert hsame
  decide

theorem spacedNumber_not_normal : ¬ ∀ block ∈ srtBlocks spacedNumber,
    Normal (detectLineEnding spacedNumber) block := by
  intro hnormal
  have hdecode : (codecOf noOthers (detectEncoding plainCodecs (encodeUtf8 spacedNumber))).decode?
      (encodeUtf8 spacedNumber) = some spacedNumber := by decide
  have hkept := (srt_byte_identity agree_plainCodecs readsBack_noOthers hdecode).1.mpr
    ⟨by decide, by decide, hnormal⟩
  revert hkept
  decide

end Trezarr
