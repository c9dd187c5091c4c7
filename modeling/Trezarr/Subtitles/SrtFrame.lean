import Trezarr.Lib.Lines
import Trezarr.Subtitles.Framing

/-! How the SubRip reader frames a text: the cue blocks, and what is before, between and after them. -/
namespace Trezarr
open Text Regex Regex.Pattern

structure Frame where
  blocks : List Str
  separators : List Str
  trailer : Str

/-- The frame of what comes after the leading blank lines. -/
def frameBody (body : Str) : Frame :=
  let (blocks, seps) := alternate (split sepRe body)
  let (last, trailer) := splitTrailer (blocks.getLast?.getD [])
  let (blocks, seps, trailer) := dropEmptyTail (last :: blocks.reverse.tail) seps.reverse trailer
  ⟨blocks.reverse, seps.reverse.take (blocks.length - 1), trailer⟩

theorem readSrt_eq (encoding text : Str) : readSrt encoding text =
    let (leading, body) := splitLeading text
    let frame := frameBody body
    { lines := (frame.blocks.filter (· ≠ [])).map parseBlock
      encoding := encoding
      lineEnding := detectLineEnding text
      separators := frame.separators
      leading := leading
      trailer := frame.trailer } := by
  unfold readSrt frameBody
  rcases splitLeading text with ⟨leading, body⟩
  rfl

/-- A text in two, cut before the blank lines it ends with. -/
structure Trailed (t b trailer : Str) : Prop where
  eq : t = b ++ trailer
  blank : BlankLines trailer
  before : trailRe.NoMatchIn b trailer

theorem trailed_splitTrailer (t : Str) : Trailed t (splitTrailer t).1 (splitTrailer t).2 := by
  unfold splitTrailer
  cases hsearch : search trailRe t with
  | none =>
    obtain ⟨hno, _⟩ := (searchFrom_none_iff looksAhead_trailRe).mp hsearch
    exact ⟨(List.append_nil t).symm, .nil, hno⟩
  | some f =>
    have hfirst := searchFrom_some looksAhead_trailRe hsearch
    obtain ⟨hrest, hblank, _⟩ := head_trailRe.mp hfirst.here
    have heq := hfirst.eq
    have hbefore := hfirst.before
    rw [hrest, List.append_nil] at heq hblank hbefore
    exact ⟨heq, hblank, hbefore⟩

theorem Trailed.splitTrailer {t b trailer : Str} (h : Trailed t b trailer) :
    splitTrailer t = (b, trailer) := by
  by_cases hnil : trailer = []
  · obtain ⟨rfl, _, hno⟩ := h
    subst hnil
    have hsearch : search trailRe b = none :=
      (searchFrom_none_iff looksAhead_trailRe).mpr ⟨hno, rfl⟩
    rw [List.append_nil]
    unfold Trezarr.splitTrailer
    rw [hsearch]
  · have hfirst : trailRe.FirstMatch t b trailer [] := by
      refine ⟨by rw [List.append_nil]; exact h.eq, by rw [List.append_nil]; exact h.before, ?_⟩
      rw [List.append_nil]
      exact head_trailRe.mpr ⟨rfl, h.blank, hnil⟩
    obtain ⟨f, hsearch, hskipped, htext, _⟩ : ∃ f, search trailRe t = some f ∧ f.skipped = b ∧
        f.text = trailer ∧ f.rest = [] := searchFrom_of_firstMatch looksAhead_trailRe hfirst
    simp [Trezarr.splitTrailer, hsearch, hskipped, htext]

/-- The last block, and what is left after it. -/
inductive LastBlock : Str → Str → Str → Prop
  | trailed {t b trailer : Str} (hno : sepRe.NoMatchIn t []) (h : Trailed t b trailer)
    (hne : b ≠ []) : LastBlock t b trailer
  | separated {b S : Str} (hno : sepRe.NoMatchIn b S) (hS : IsSep S) (hne : b ≠ []) :
    LastBlock (b ++ S) b S

theorem LastBlock.ne_nil {t b trailer : Str} (h : LastBlock t b trailer) : b ≠ [] := by
  cases h with
  | trailed _ _ hne => exact hne
  | separated _ _ hne => exact hne

/-- The blocks of a body with the separators between them; only blank lines may make no block. -/
inductive Framed : Str → List Str → List Str → Str → Prop
  | blank {body : Str} (hno : sepRe.NoMatchIn body []) (h : BlankLines body) :
    Framed body [] [] body
  | separator {S : Str} (hS : IsSep S) : Framed S [] [] S
  | last {t b trailer : Str} (h : LastBlock t b trailer) : Framed t [b] [] trailer
  | more {t S r trailer b : Str} {blocks seps : List Str} (hno : sepRe.NoMatchIn t S)
    (hS : IsSep S) (hr : blankLine? r = none) (hrest : Framed r (b :: blocks) seps trailer) :
    Framed (t ++ (S ++ r)) (t :: b :: blocks) (S :: seps) trailer

theorem exists_framed (body : Str) : ∃ blocks seps trailer, Framed body blocks seps trailer := by
  obtain ⟨ps, hps⟩ := exists_pieces body
  induction hps with
  | @last t hno =>
    have htrailed := trailed_splitTrailer t
    by_cases hne : (splitTrailer t).1 = []
    · have ht : t = (splitTrailer t).2 := by
        rw [hne] at htrailed
        exact htrailed.eq
      exact ⟨_, _, _, .blank hno (ht ▸ htrailed.blank)⟩
    · exact ⟨_, _, _, .last (.trailed hno htrailed hne)⟩
  | @more t S r ps hno hS hr _ ih =>
    obtain ⟨blocks, seps, trailer, hrest⟩ := ih
    cases hrest with
    | last h => exact ⟨_, _, _, .more hno hS hr (.last h)⟩
    | more hno' hS' hr' hrest' => exact ⟨_, _, _, .more hno hS hr (.more hno' hS' hr' hrest')⟩
    | separator hS' =>
      have hsome := blankLine?_blankLines hS'.blankLines hS'.ne_nil []
      rw [List.append_nil] at hsome
      exact absurd hr hsome
    | blank _ hblank =>
      have hnil : r = [] := by
        by_contra hne
        have hsome := blankLine?_blankLines hblank hne []
        rw [List.append_nil] at hsome
        exact hsome hr
      subst hnil
      rw [List.append_nil]
      by_cases hne : t = []
      · subst hne
        exact ⟨_, _, _, .separator hS⟩
      · exact ⟨_, _, _, .last (.separated hno hS hne)⟩

theorem splitTrailer_blankLines {t : Str} (h : BlankLines t) : splitTrailer t = ([], t) :=
  Trailed.splitTrailer ⟨rfl, h, trivial⟩

/-- What stays at the front stays when another block comes before it. -/
theorem dropEmptyTail_append {t S tr b : Str} {blocks seps : List Str} :
    ∀ {blocks' seps' : List Str} {trailer : Str}, blocks.length = seps.length + 1 →
      dropEmptyTail blocks seps trailer = (b :: blocks', seps', tr) →
      dropEmptyTail (blocks ++ [t]) (seps ++ [S]) trailer =
        (b :: blocks' ++ [t], seps' ++ [S], tr) := by
  induction blocks generalizing seps with
  | nil =>
    intro _ _ _ hlen
    cases hlen
  | cons block blocks ih =>
    intro blocks' seps' trailer hlen h
    cases block with
    | cons c block =>
      simp only [dropEmptyTail, Prod.mk.injEq] at h
      obtain ⟨hblocks, rfl, rfl⟩ := h
      rw [← hblocks]
      rfl
    | nil =>
      cases seps with
      | nil =>
        have hnil : blocks = [] := List.length_eq_zero_iff.mp (by simpa using hlen)
        subst hnil
        cases h
      | cons sep seps =>
        exact ih (by simpa using hlen) h

theorem dropEmptyTail_of_ne_nil {b : Str} (hb : b ≠ []) (blocks seps : List Str) (trailer : Str) :
    dropEmptyTail (b :: blocks) seps trailer = (b :: blocks, seps, trailer) := by
  cases b with
  | nil => exact absurd rfl hb
  | cons c b => rfl

theorem split_nil : split sepRe [] = [[]] := split_last (t := []) trivial

theorem Framed.split {body trailer : Str} {blocks seps : List Str}
    (h : Framed body blocks seps trailer) : ∃ pieces between,
      alternate (split sepRe body) = (pieces, between) ∧ pieces.length = between.length + 1 ∧
      dropEmptyTail ((splitTrailer (pieces.getLast?.getD [])).1 :: pieces.reverse.tail)
        between.reverse (splitTrailer (pieces.getLast?.getD [])).2 =
          (blocks.reverse, seps.reverse, trailer) := by
  induction h with
  | @blank body hno hblank =>
    refine ⟨[body], [], by rw [split_last hno]; rfl, rfl, ?_⟩
    simp [splitTrailer_blankLines hblank, dropEmptyTail]
  | @separator S hS =>
    have hsplit : Regex.split sepRe S = [[], S, []] := by
      have hmore := split_more (t := []) (S := S) (r := []) trivial hS rfl
      rw [List.append_nil, List.nil_append, split_nil] at hmore
      exact hmore
    refine ⟨[[], []], [S], by rw [hsplit]; rfl, rfl, ?_⟩
    simp [splitTrailer_blankLines .nil, dropEmptyTail]
  | @last t b trailer hlast =>
    cases hlast with
    | trailed hno htrailed hne =>
      refine ⟨[t], [], by rw [split_last hno]; rfl, rfl, ?_⟩
      simp [htrailed.splitTrailer, dropEmptyTail_of_ne_nil hne]
    | separated hno hS hne =>
      have hsplit : Regex.split sepRe (b ++ trailer) = [b, trailer, []] := by
        have hmore := split_more (r := []) hno hS rfl
        rw [List.append_nil, split_nil] at hmore
        exact hmore
      refine ⟨[b, []], [trailer], by rw [hsplit]; rfl, rfl, ?_⟩
      simp [splitTrailer_blankLines .nil, dropEmptyTail, dropEmptyTail_of_ne_nil hne]
  | @more t S r trailer b blocks seps hno hS hr _ ih =>
    obtain ⟨pieces, between, hsplit, hlen, hdrop⟩ := ih
    have hne : pieces ≠ [] := by
      intro hnil
      simp [hnil] at hlen
    refine ⟨t :: pieces, S :: between, ?_, by simp [hlen], ?_⟩
    · rw [split_more hno hS hr, alternate, hsplit]
    · have hlast : (t :: pieces).getLast? = pieces.getLast? := by
        cases pieces with
        | nil => exact absurd rfl hne
        | cons p ps => simp [List.getLast?_cons]
      have htail : (t :: pieces).reverse.tail = pieces.reverse.tail ++ [t] := by
        rw [List.reverse_cons, List.tail_append_of_ne_nil (by simpa using hne)]
      rw [hlast, htail, List.reverse_cons]
      obtain ⟨c, cs, hcs⟩ := List.exists_cons_of_ne_nil
        (List.reverse_ne_nil_iff.mpr (List.cons_ne_nil b blocks))
      rw [hcs] at hdrop
      have happend := dropEmptyTail_append (t := t) (S := S) (by simp [hlen]) hdrop
      rw [List.cons_append] at happend
      rw [happend, List.reverse_cons, hcs, List.reverse_cons]

theorem Framed.length_eq {body trailer : Str} {blocks seps : List Str}
    (h : Framed body blocks seps trailer) : seps.length = blocks.length - 1 := by
  induction h with
  | blank => rfl
  | separator => rfl
  | last => rfl
  | more _ _ _ _ ih => simpa using ih

theorem Framed.frameBody {body trailer : Str} {blocks seps : List Str}
    (h : Framed body blocks seps trailer) : frameBody body = ⟨blocks, seps, trailer⟩ := by
  obtain ⟨pieces, between, hsplit, _, hdrop⟩ := h.split
  unfold Trezarr.frameBody
  simp only [hsplit, hdrop, List.reverse_reverse, List.length_reverse, ← h.length_eq,
    List.take_length]

/-- A text in two, cut after the blank lines it starts with; white space alone is not cut. -/
inductive Led : Str → Str → Str → Prop
  | none {text : Str} (h : blankLine? text = none) : Led text [] text
  | white {text : Str} (h : strip text = []) : Led text [] text
  | lines {B r : Str} (hB : BlankLines B) (hne : B ≠ []) (hr : blankLine? r = none)
    (htext : strip r ≠ []) : Led (B ++ r) B r

theorem head_plus_blankLineRe {s r : Str} : ((plus blankLineRe).rests s).head? = some r ↔
    ∃ B, BlankLines B ∧ B ≠ [] ∧ s = B ++ r ∧ blankLine? r = none := by
  rw [plus, rests_seq, rests_blankLineRe]
  constructor
  · intro h
    cases hblank : blankLine? s with
    | none => simp [hblank] at h
    | some t =>
      obtain ⟨l, hl, rfl⟩ := blankLine?_some.mp hblank
      simp only [hblank, Option.toList_some, List.flatMap_cons, List.flatMap_nil,
        List.append_nil] at h
      obtain ⟨B, hB, rfl, hr⟩ := head_star_blankLineRe.mp h
      obtain ⟨front, rfl⟩ := hl.ends
      exact ⟨front ++ ['\n'] ++ B, .cons hl hB, by simp, by simp, hr⟩
  · rintro ⟨B, hB, hne, rfl, hr⟩
    cases hB with
    | nil => exact absurd rfl hne
    | cons hl hB =>
      rw [List.append_assoc, hl.blankLine?]
      simp only [Option.toList_some, List.flatMap_cons, List.flatMap_nil, List.append_nil]
      exact head_star_blankLineRe.mpr ⟨_, hB, rfl, hr⟩

theorem looksAhead_plus_blankLineRe : (plus blankLineRe).LooksAhead := by
  simp [newlineRe, blankLineRe, plus, opt, Pattern.char, oneOf, LooksAhead]

theorem matchStart_leadRe (text : Str) :
    matchStart leadRe text = matchAt (plus blankLineRe) [] text := by
  simp [matchStart, matchAt, leadRe, results]

theorem splitLeading_of_none {text : Str} (h : blankLine? text = none) :
    splitLeading text = ([], text) := by
  have hmatch : matchStart leadRe text = Option.none := by
    rw [matchStart_leadRe, matchAt_none_iff looksAhead_plus_blankLineRe]
    simp [plus, rests_blankLineRe, h]
  simp [splitLeading, hmatch]

theorem splitLeading_of_lines {B r : Str} (hB : BlankLines B) (hne : B ≠ [])
    (hr : blankLine? r = none) :
    splitLeading (B ++ r) = if strip r ≠ [] then (B, r) else ([], B ++ r) := by
  have hhead : ((plus blankLineRe).rests (B ++ r)).head? = some r :=
    head_plus_blankLineRe.mpr ⟨B, hB, hne, rfl, hr⟩
  cases hmatch : matchStart leadRe (B ++ r) with
  | none =>
    rw [matchStart_leadRe, matchAt_none_iff looksAhead_plus_blankLineRe] at hmatch
    rw [hmatch] at hhead
    cases hhead
  | some f =>
    rw [matchStart_leadRe] at hmatch
    obtain ⟨_, heq, hhere⟩ := matchAt_some looksAhead_plus_blankLineRe hmatch
    rw [hhead] at hhere
    have hrest : f.rest = r := (Option.some.inj hhere).symm
    rw [hrest] at heq
    have htext : f.text = B := (List.append_cancel_right heq).symm
    rw [← matchStart_leadRe] at hmatch
    simp only [splitLeading, hmatch, hrest, htext]

theorem Led.splitLeading {text leading body : Str} (h : Led text leading body) :
    splitLeading text = (leading, body) := by
  cases h with
  | none h => exact splitLeading_of_none h
  | lines hB hne hr htext => rw [splitLeading_of_lines hB hne hr, if_pos htext]
  | white h =>
    obtain ⟨B, r, hB, rfl, hr⟩ := exists_run text
    by_cases hne : B = []
    · subst hne
      exact splitLeading_of_none hr
    · have hwhite : strip r = [] :=
        strip_eq_nil.mpr fun c hc => strip_eq_nil.mp h c (List.mem_append_right B hc)
      rw [splitLeading_of_lines hB hne hr, if_neg (by simp [hwhite])]

theorem exists_led (text : Str) : ∃ leading body, Led text leading body := by
  obtain ⟨B, r, hB, rfl, hr⟩ := exists_run text
  by_cases hne : B = []
  · subst hne
    exact ⟨_, _, .none hr⟩
  · by_cases htext : strip r = []
    · refine ⟨_, _, .white (strip_eq_nil.mpr fun c hc => ?_)⟩
      rcases List.mem_append.mp hc with hc | hc
      · exact hB.isSpace c hc
      · exact strip_eq_nil.mp htext c hc
    · exact ⟨_, _, .lines hB hne hr htext⟩

theorem Led.eq {text leading body : Str} (h : Led text leading body) : text = leading ++ body := by
  cases h <;> rfl

theorem LastBlock.eq {t b trailer : Str} (h : LastBlock t b trailer) : t = b ++ trailer := by
  cases h with
  | trailed _ h _ => exact h.eq
  | separated => rfl

/-- The blocks, the separators and the trailer make up the body. -/
theorem Framed.eq {body trailer : Str} {blocks seps : List Str}
    (h : Framed body blocks seps trailer) (lineEnding : Str) :
    body = joinBlocks lineEnding blocks seps ++ trailer := by
  induction h with
  | blank => rfl
  | separator => rfl
  | last h => exact h.eq
  | @more t S r trailer b blocks seps hno hS hr hrest ih =>
    have hjoin : joinBlocks lineEnding (t :: b :: blocks) (S :: seps) =
        t ++ S ++ joinBlocks lineEnding (b :: blocks) seps := rfl
    rw [hjoin, List.append_assoc, List.append_assoc, ← ih]

theorem Framed.nil_not_mem {body trailer : Str} {blocks seps : List Str}
    (h : Framed body blocks seps trailer) (hbody : blankLine? body = none) : [] ∉ blocks := by
  induction h with
  | blank => exact List.not_mem_nil
  | separator => exact List.not_mem_nil
  | last h => simpa using h.ne_nil.symm
  | @more t S r trailer b blocks seps hno hS hr hrest ih =>
    intro hmem
    rcases List.mem_cons.mp hmem with ht | hmem
    · rw [← ht, List.nil_append] at hbody
      exact blankLine?_blankLines hS.blankLines hS.ne_nil r hbody
    · exact ih hr hmem

/-- Only the first block can be empty, and only when the body starts with blank lines. -/
theorem Framed.nil_mem {body trailer : Str} {blocks seps : List Str}
    (h : Framed body blocks seps trailer) (hmem : [] ∈ blocks) : blankLine? body ≠ none ∧
      ∃ b bs, blocks = [] :: b :: bs ∧ [] ∉ b :: bs := by
  refine ⟨fun hnone => h.nil_not_mem hnone hmem, ?_⟩
  cases h with
  | blank => cases hmem
  | separator => cases hmem
  | last h => exact absurd (List.mem_singleton.mp hmem).symm h.ne_nil
  | @more t S r trailer b blocks seps hno hS hr hrest =>
    have hnot := hrest.nil_not_mem hr
    rcases List.mem_cons.mp hmem with ht | hmem
    · exact ⟨b, blocks, by rw [ht], hnot⟩
    · exact absurd hmem hnot

theorem Framed.mem_body {body trailer : Str} {blocks seps : List Str}
    (h : Framed body blocks seps trailer) : ∀ block ∈ blocks, ∀ c ∈ block, c ∈ body := by
  induction h with
  | blank => simp
  | separator => simp
  | last h =>
    intro block hblock c hc
    rw [List.mem_singleton.mp hblock] at hc
    rw [h.eq]
    exact List.mem_append_left _ hc
  | @more t S r trailer b blocks seps _ _ _ _ ih =>
    intro block hblock c hc
    rcases List.mem_cons.mp hblock with rfl | hblock
    · exact List.mem_append_left _ hc
    · exact List.mem_append_right _ (List.mem_append_right _ (ih block hblock c hc))

theorem Framed.sep_ne_nil {body trailer : Str} {blocks seps : List Str}
    (h : Framed body blocks seps trailer) : [] ∉ seps := by
  induction h with
  | blank => exact List.not_mem_nil
  | separator => exact List.not_mem_nil
  | last => exact List.not_mem_nil
  | more _ hS _ _ ih => exact List.not_mem_cons_of_ne_of_not_mem hS.ne_nil.symm ih

end Trezarr
