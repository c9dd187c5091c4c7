import Trezarr.Translate.Alignment

/-! The hints of the repair against those of Pass 3: one counts all lines, the other those it sends. -/
namespace Trezarr
open Text Fallible

/-- How many cues are sent before a line. -/
def cueRank (lines : List SubLine) (i : ℕ) : ℕ := (sentCues (lines.take i)).length

def RawBefore (lines : List SubLine) (i : ℕ) : Prop := ∃ line ∈ lines.take i, line.raw.isSome

/-- Every repaired line is given the hint, or the absence of one, that Pass 3 gave it. -/
def SameHints (ctx : Context) (batches : List Batch) (lines : List SubLine) (indices : List ℕ) :
    Prop :=
  ∀ n i, indices[n]? = some i →
    hintOnLine (repairHints ctx indices) n = (passThreeHints ctx batches)[cueRank lines i]?.join

variable {source translated : SubDoc} {lines : List SubLine} {failing indices : List ℕ}
  {cues : List (ℕ × SubLine)} {batches : List Batch} {ctx : Context} {i : ℕ}

theorem cueRank_eq_iff (hi : i ≤ lines.length) : cueRank lines i = i ↔ ¬ RawBefore lines i := by
  have hlen : (lines.take i).length = i := List.length_take_of_le hi
  have hall : cueRank lines i = (lines.take i).length ↔
      ∀ line ∈ lines.take i, line.raw.isNone := List.length_filter_eq_length_iff
  rw [hlen] at hall
  rw [hall, RawBefore]
  push Not
  refine forall₂_congr fun line _ => ?_
  cases line.raw <;> simp

theorem cueRank_lt {line : SubLine} (hline : lines[i]? = some line) (hsent : line.raw = none) :
    cueRank lines i < (sentCues lines).length := by
  obtain ⟨hi, rfl⟩ := List.getElem?_eq_some_iff.mp hline
  have hsplit : sentCues lines = sentCues (lines.take i) ++ sentCues (lines.drop i) := by
    rw [sentCues, sentCues, sentCues, ← List.filter_append, List.take_append_drop]
  rw [List.drop_eq_getElem_cons hi, sentCues_cons_sent hsent] at hsplit
  rw [hsplit, cueRank, List.length_append, List.length_cons]
  omega

theorem lineAt_ok {doc : SubDoc} {line : SubLine} (h : lineAt doc i = .ok line) :
    doc.lines[i]? = some line := by
  unfold lineAt at h
  split at h
  · next l hl =>
    cases h
    exact hl
  · cases h

/-- What is repaired are lines of the source whose translations are not raw. -/
theorem repairCues_ok (h : repairCues source translated failing = .ok cues) :
    ∀ cue ∈ cues, source.lines[cue.1]? = some cue.2 ∧
      ∃ line, translated.lines[cue.1]? = some line ∧ line.raw = none := by
  induction failing generalizing cues with
  | nil =>
    cases h
    exact fun cue hcue => absurd hcue List.not_mem_nil
  | cons i failing ih =>
    obtain ⟨line, hline, h⟩ := bind_ok h
    split at h
    · exact ih h
    · next hraw =>
      obtain ⟨src, hsrc, h⟩ := bind_ok h
      obtain ⟨rest, hrest, h⟩ := bind_ok h
      cases h
      intro cue hcue
      rcases List.mem_cons.mp hcue with rfl | hcue
      · refine ⟨lineAt_ok hsrc, line, lineAt_ok hline, ?_⟩
        simpa using hraw
      · exact ih hrest cue hcue

theorem repaired_sent (hframes : List.Forall₂ SameFrame source.lines translated.lines)
    (h : repairCues source translated failing = .ok cues) (hi : i ∈ cues.map Prod.fst) :
    ∃ line, source.lines[i]? = some line ∧ line.raw = none := by
  obtain ⟨cue, hcue, rfl⟩ := List.mem_map.mp hi
  obtain ⟨hsrc, line, hline, hraw⟩ := repairCues_ok h cue hcue
  refine ⟨cue.2, hsrc, ?_⟩
  by_contra hne
  obtain ⟨hlt, hget⟩ := List.getElem?_eq_some_iff.mp hsrc
  obtain ⟨hlt', hget'⟩ := List.getElem?_eq_some_iff.mp hline
  have hframe := List.Forall₂.get hframes hlt hlt'
  simp only [List.get_eq_getElem, hget, hget'] at hframe
  rw [hframe.verbatim hne] at hraw
  exact hne hraw

theorem resolveCharId_empty {names : Dict Str ℕ} (h : names.entries = []) (name : Option Str) :
    resolveCharId names name = none := by
  have hget : ∀ key, names.get? key = none := by simp [Dict.get?, h]
  unfold resolveCharId
  split
  · rfl
  · rfl
  · simp [hget]

/-- The repair takes the attribution at the line's place in the whole document. -/
theorem hintOnLine_repairHints (ctx : Context) (indices : List ℕ) (n : ℕ) :
    hintOnLine (repairHints ctx indices) n = indices[n]?.bind ctx.hintAt := by
  unfold repairHints
  split
  · next hoff =>
    have hnone : ∀ i, ctx.hintAt i = none := by
      intro i
      rcases hoff with hflat | hnames | hmap
      · simp [Context.hintAt, hflat]
      · unfold Context.hintAt
        unfold Context.repairNames at hnames
        cases hb : ctx.bible with
        | none => rfl
        | some bible =>
          cases hattr : ctx.flatAttributions[i]? with
          | none => rfl
          | some attr =>
            have hne : ctx.flatAttributions ≠ [] := by
              rintro hnil
              rw [hnil] at hattr
              cases hattr
            simp only [hb, if_pos hne] at hnames
            simp [hintOf, resolveCharId_empty hnames]
      · exact hintAt_of_unresolved hmap i
    cases indices[n]? with
    | none => rfl
    | some i => exact (hnone i).symm
  · next hon =>
    push Not at hon
    obtain ⟨hflat, hnames, -⟩ := hon
    rw [hintOnLine_hintsOf, List.getElem?_map]
    cases indices[n]? with
    | none => rfl
    | some i =>
      unfold Context.repairNames at hnames ⊢
      cases hb : ctx.bible with
      | none => simp [hb, Dict.empty] at hnames
      | some bible =>
        simp only [if_pos hflat, Option.map_some, Option.join_some, Option.bind_some,
          Context.hintAt, hb]

theorem sameHints_iff (hbatches : batches.flatMap Batch.cues = sentCues lines)
    (hsent : ∀ i ∈ indices, ∃ line, lines[i]? = some line ∧ line.raw = none) :
    SameHints ctx batches lines indices ↔
      ∀ i ∈ indices, ctx.hintAt i = ctx.hintAt (cueRank lines i) := by
  have hpass : ∀ i ∈ indices, (passThreeHints ctx batches)[cueRank lines i]?.join =
      ctx.hintAt (cueRank lines i) := by
    intro i hi
    obtain ⟨line, hline, hraw⟩ := hsent i hi
    have hlt := cueRank_lt hline hraw
    rw [passThreeHints_eq, hbatches, List.getElem?_map, List.getElem?_range hlt]
    rfl
  constructor
  · intro h i hi
    obtain ⟨n, hn⟩ := List.mem_iff_getElem?.mp hi
    have hsame := h n i hn
    rw [hintOnLine_repairHints, hn, hpass i hi] at hsame
    exact hsame
  · intro h n i hn
    have hi := List.mem_of_getElem? hn
    rw [hintOnLine_repairHints, hn, hpass i hi]
    exact h i hi

/-- Two characters and the terms between them. -/
def couple : SeriesBibleDTO where
  id := 1
  characters := [{ id := 1, seriesId := 1, originalLatinName := "Anna" },
    { id := 2, seriesId := 1, originalLatinName := "Ben" }]

/-- One attribution for each of `n` cues: Anna speaks to Ben in one of them only. -/
def oneLineSpoken (n spoken : ℕ) : Context where
  bible := some couple
  resolvedMap := Dict.ofList [((1, 2), ("em", "anh"))]
  flatAttributions := (List.range n).map fun (i : ℕ) =>
    if i = spoken then { lineIndex := i + 1, speaker := some "Anna", addressee := some "Ben" }
    else unknownLine i

theorem oneLineSpoken_hintAt {n spoken : ℕ} (h : i < n) : (oneLineSpoken n spoken).hintAt i =
    if i = spoken then some ("em".toList, "anh".toList) else none := by
  simp only [Context.hintAt, oneLineSpoken, Option.bind_some, List.getElem?_map,
    List.getElem?_range h, Option.map_some]
  split
  · have hspoken : hintOf (nameToId couple) (Dict.ofList [((1, 2), ("em", "anh"))])
        { lineIndex := 0, speaker := some "Anna", addressee := some "Ben" } =
          some ("em".toList, "anh".toList) := by decide
    exact hspoken
  · rfl

theorem oneLineSpoken_hintAt_ne {n spoken : ℕ} (h : i ≠ spoken) :
    (oneLineSpoken n spoken).hintAt i = none := by
  by_cases hi : i < n
  · rw [oneLineSpoken_hintAt hi, if_neg h]
  · have hlen : (oneLineSpoken n spoken).flatAttributions[i]? = none := by
      simp [oneLineSpoken, not_lt.mp hi]
    simp [Context.hintAt, hlen]

/-- Repair and Pass 3 agree on a repaired line just when the two places they look at come to the
same hint; whatever the attributions are, just when no raw line stands before it. -/
theorem repair_hints_iff (source translated : SubDoc) (failing : List ℕ)
    (cues : List (ℕ × SubLine)) (settings : TrezarrSettings) (k maxCues : ℤ) (batches : List Batch)
    (hframes : List.Forall₂ SameFrame source.lines translated.lines)
    (hcues : repairCues source translated failing = .ok cues)
    (hbatches : batchSubdoc source settings k maxCues = .ok batches) :
    (∀ ctx : Context, SameHints ctx batches source.lines (cues.map Prod.fst) ↔
      ∀ i ∈ cues.map Prod.fst, RawBefore source.lines i →
        ctx.hintAt i = ctx.hintAt (cueRank source.lines i)) ∧
    ((∀ ctx : Context, ctx.flatAttributions.length = (sentCues source.lines).length →
      SameHints ctx batches source.lines (cues.map Prod.fst)) ↔
        ∀ i ∈ cues.map Prod.fst, ¬ RawBefore source.lines i) := by
  have hsent := fun i (hi : i ∈ cues.map Prod.fst) => repaired_sent hframes hcues hi
  have hsame : ∀ ctx : Context, SameHints ctx batches source.lines (cues.map Prod.fst) ↔
      ∀ i ∈ cues.map Prod.fst, ctx.hintAt i = ctx.hintAt (cueRank source.lines i) :=
    fun _ => sameHints_iff (batchSubdoc_cues hbatches) hsent
  have hrank : ∀ i ∈ cues.map Prod.fst,
      (cueRank source.lines i = i ↔ ¬ RawBefore source.lines i) := by
    intro i hi
    obtain ⟨line, hline, -⟩ := hsent i hi
    obtain ⟨hlt, -⟩ := List.getElem?_eq_some_iff.mp hline
    exact cueRank_eq_iff hlt.le
  constructor
  · intro ctx
    rw [hsame]
    refine forall₂_congr fun i hi => ?_
    by_cases hraw : RawBefore source.lines i
    · exact ⟨fun h _ => h, fun h => h hraw⟩
    · rw [(hrank i hi).mpr hraw]
      exact ⟨fun _ _ => rfl, fun _ => rfl⟩
  · constructor
    · intro h i hi
      rw [← hrank i hi]
      by_contra hne
      obtain ⟨line, hline, hraw⟩ := hsent i hi
      let total := (sentCues source.lines).length
      have hone := h (oneLineSpoken total (cueRank source.lines i)) (by simp [oneLineSpoken, total])
      have hhint := (hsame _).mp hone i hi
      rw [oneLineSpoken_hintAt_ne (Ne.symm hne), oneLineSpoken_hintAt (cueRank_lt hline hraw),
        if_pos rfl] at hhint
      cases hhint
    · intro h ctx _
      rw [hsame]
      intro i hi
      rw [(hrank i hi).mpr (h i hi)]

/-- A block that is no cue, and two lines of which the first is silent on who speaks. -/
def titledText : Str :=
  ("Episode one\n\n1\n00:00:01,000 --> 00:00:02,000\nHi.\n\n" ++
    "2\n00:00:02,500 --> 00:00:03,000\nBye.\n")

def titledDoc : SubDoc := readSrt "utf-8" titledText

theorem titled_repaired : ∃ cues batches, repairCues titledDoc titledDoc [1] = .ok cues ∧
    batchSubdoc titledDoc {} 3 50 = .ok batches ∧ cues.map Prod.fst = [1] := by
  have hcues : (repairCues titledDoc titledDoc [1]).map (List.map Prod.fst) = .ok [1] := by
    decide
  have hbatches : (batchSubdoc titledDoc {} 3 50).isOk = true := by decide +kernel
  obtain ⟨cues, hcues, hindices⟩ := map_ok hcues
  obtain ⟨batches, hbatches⟩ := isOk_elim hbatches
  exact ⟨cues, batches, hcues, hbatches, hindices⟩

/-- The first line is repaired with the terms that Pass 3 gave the second. -/
theorem titled_repair_strays : ∃ cues batches,
    repairCues titledDoc titledDoc [1] = .ok cues ∧ batchSubdoc titledDoc {} 3 50 = .ok batches ∧
    ¬ SameHints (oneLineSpoken 2 1) batches titledDoc.lines (cues.map Prod.fst) := by
  obtain ⟨cues, batches, hcues, hbatches, hindices⟩ := titled_repaired
  refine ⟨cues, batches, hcues, hbatches, ?_⟩
  rw [hindices, sameHints_iff (batchSubdoc_cues hbatches) (by decide)]
  decide

theorem titled_repair_unsafe : ∃ cues batches,
    repairCues titledDoc titledDoc [1] = .ok cues ∧ batchSubdoc titledDoc {} 3 50 = .ok batches ∧
    ¬ ∀ ctx : Context, ctx.flatAttributions.length = (sentCues titledDoc.lines).length →
      SameHints ctx batches titledDoc.lines (cues.map Prod.fst) := by
  obtain ⟨cues, batches, hcues, hbatches, hindices⟩ := titled_repaired
  refine ⟨cues, batches, hcues, hbatches, fun h => ?_⟩
  have hraw := (repair_hints_iff titledDoc titledDoc [1] cues {} 3 50 batches
    (List.forall₂_same.mpr fun line _ => .refl line) hcues hbatches).2.mp h 1 (by simp [hindices])
  refine hraw ?_
  unfold RawBefore
  decide

end Trezarr
