import Trezarr.Translate.Assembly

/-! The corrections of the review put back into the translated lines. -/
namespace Trezarr
open Text Fallible

/-- A reviewed cue with the correction that its own batch gave at its own place. -/
def reviewEntries (batches : List Batch) (results : List (Option (List Str))) :
    List (SubLine × Option Str) :=
  (batches.zip results).flatMap fun (batch, texts) =>
    batch.cues.zipIdx.map fun (cue, i) => (cue, texts.bind fun texts => texts[i]?)

/-- The splice with what it leaves of the corrections. -/
def spliceLeft : List SubLine → List (Option (SubLine × Str)) →
    Option (List SubLine × List (Option (SubLine × Str)))
  | [], corrs => some ([], corrs)
  | line :: lines, corrs =>
    match line.raw, corrs with
    | some _, corrs => (spliceLeft lines corrs).map fun r => (line :: r.1, r.2)
    | none, [] => none
    | none, none :: corrs => (spliceLeft lines corrs).map fun r => (line :: r.1, r.2)
    | none, some (cue, text) :: corrs =>
      (spliceLeft lines corrs).map fun r =>
        (⟨cue.index, cue.startTc, cue.endTc, text, none⟩ :: r.1, r.2)

section Splice

variable {lines : List SubLine}

theorem spliceCorrections_eq : ∀ {corrs : List (Option (SubLine × Str))},
    spliceCorrections lines corrs = (spliceLeft lines corrs).map Prod.fst := by
  induction lines with
  | nil =>
    intro corrs
    rfl
  | cons line lines ih =>
    intro corrs
    cases hraw : line.raw with
    | some raw => simp [spliceCorrections, spliceLeft, hraw, ih, Function.comp_def]
    | none =>
      cases corrs with
      | nil => simp [spliceCorrections, spliceLeft, hraw]
      | cons corr corrs =>
        cases corr <;> simp [spliceCorrections, spliceLeft, hraw, ih, Function.comp_def]

/-- One entry for each cue that was sent: every correction meets its own line, and none is left. -/
theorem spliceLeft_entries : ∀ {entries : List (SubLine × Option Str)},
    entries.map Prod.fst = sentCues lines →
    ∃ out, spliceLeft lines (entries.map fun e => e.2.map fun text => (e.1, text)) =
        some (out, []) ∧ List.Forall₂ SameFrame lines out ∧
      (sentCues out).map SubLine.text = entries.map fun e => e.2.getD e.1.text := by
  induction lines with
  | nil =>
    intro entries h
    rw [sentCues_nil, List.map_eq_nil_iff] at h
    subst h
    exact ⟨[], rfl, .nil, rfl⟩
  | cons line lines ih =>
    intro entries h
    cases hraw : line.raw with
    | some raw =>
      rw [sentCues_cons_raw hraw] at h
      obtain ⟨out, hout, hframes, htexts⟩ := ih h
      refine ⟨line :: out, ?_, .cons (.refl line) hframes, ?_⟩
      · simp [spliceLeft, hraw, hout]
      · rw [sentCues_cons_raw hraw, htexts]
    | none =>
      rw [sentCues_cons_sent hraw] at h
      obtain ⟨entry, rest, rfl, rfl, hrest⟩ := List.map_eq_cons_iff.mp h
      obtain ⟨out, hout, hframes, htexts⟩ := ih hrest
      obtain ⟨cue, correction⟩ := entry
      have hsent : cue.raw = none := hraw
      cases correction with
      | none =>
        refine ⟨cue :: out, ?_, .cons (.refl cue) hframes, ?_⟩
        · simp [spliceLeft, hsent, hout]
        · rw [sentCues_cons_sent hsent, List.map_cons, htexts]
          rfl
      | some text =>
        refine ⟨{ cue with text := text } :: out, ?_, .cons (.of_sent hsent text) hframes, ?_⟩
        · simp [spliceLeft, hsent, hout]
        · rw [@sentCues_cons_sent { cue with text := text } hsent, List.map_cons, htexts]
          rfl

theorem corrections_eq (batches : List Batch) (results : List (Option (List Str))) :
    corrections batches results =
      (reviewEntries batches results).map fun e => e.2.map fun text => (e.1, text) := by
  rw [corrections, reviewEntries, List.map_flatMap]
  refine List.flatMap_congr fun reviewed _ => ?_
  obtain ⟨batch, texts⟩ := reviewed
  cases texts with
  | none => simp [Function.comp_def]
  | some texts => simp

theorem map_fst_reviewEntries {batches : List Batch} :
    ∀ {results : List (Option (List Str))}, results.length = batches.length →
      (reviewEntries batches results).map Prod.fst = batches.flatMap Batch.cues := by
  induction batches with
  | nil =>
    intro results _
    rfl
  | cons batch batches ih =>
    intro results h
    cases results with
    | nil => cases h
    | cons texts results =>
      have hrest := ih (Nat.succ.inj h)
      simp only [reviewEntries] at hrest ⊢
      rw [List.zip_cons_cons, List.flatMap_cons, List.map_append, hrest, List.flatMap_cons,
        List.map_map]
      simp [Function.comp_def]

end Splice

/-- The review's corrections meet the cues of their own batches, wherever the raw cues stand. -/
theorem review_splice_framed (doc : SubDoc) (settings : TrezarrSettings) (k maxCues : ℤ)
    (batches : List Batch) (results : List (Option (List Str)))
    (hbatches : batchSubdoc doc settings k maxCues = .ok batches)
    (hresults : results.length = batches.length) :
    ∃ out, spliceReviewCorrections doc.lines batches results = some out ∧
      spliceLeft doc.lines (corrections batches results) = some (out, []) ∧
      List.Forall₂ SameFrame doc.lines out ∧
      (reviewEntries batches results).map Prod.fst = sentCues doc.lines ∧
      (sentCues out).map SubLine.text =
        (reviewEntries batches results).map fun e => e.2.getD e.1.text := by
  have hentries := (map_fst_reviewEntries hresults).trans (batchSubdoc_cues hbatches)
  obtain ⟨out, hout, hframes, htexts⟩ := spliceLeft_entries hentries
  rw [← corrections_eq] at hout
  refine ⟨out, ?_, hout, hframes, hentries, htexts⟩
  rw [spliceReviewCorrections, spliceCorrections_eq, hout]
  rfl

/-- The first batch got no answer and the second a text too many. -/
theorem two_scenes_spliced :
    ∃ out, spliceReviewCorrections twoScenes.lines sceneBatches [none, some ["Tạm biệt.", "?"]] =
        some out ∧
      spliceLeft twoScenes.lines (corrections sceneBatches [none, some ["Tạm biệt.", "?"]]) =
        some (out, []) ∧
      List.Forall₂ SameFrame twoScenes.lines out ∧
      (reviewEntries sceneBatches [none, some ["Tạm biệt.", "?"]]).map Prod.fst =
        sentCues twoScenes.lines ∧
      (sentCues out).map SubLine.text =
        (reviewEntries sceneBatches [none, some ["Tạm biệt.", "?"]]).map
          fun e => e.2.getD e.1.text :=
  review_splice_framed twoScenes {} 3 50 sceneBatches _ (by decide +kernel) rfl

end Trezarr
