import Trezarr.Translate.Alignment

/-! The source lines a review shows: looked up by the index of a cue, which need not be its own. -/
namespace Trezarr
open Text Fallible Windows

/-- The review shows beside each translation the source of the same place. -/
def ShowsSources (ctx : Context) (bible : SeriesBibleDTO) (source : SubDoc)
    (batches : List Batch) : Prop :=
  List.Forall₂ (fun batch own =>
      (reviewRequest batch (sourceLinesByIndex source) ctx.resolvedMap bible).sourceTexts =
        own.map SubLine.text)
    (stampedBatches ctx bible batches) (cutLike (batches.map Batch.cues) (sentCues source.lines))

/-- The last line of the document with the same index has the same text. -/
def LastOfIndex (lines : List SubLine) (line : SubLine) : Prop :=
  (lines.filter (·.index = line.index)).getLast?.map SubLine.text = some line.text

instance (lines : List SubLine) (line : SubLine) : Decidable (LastOfIndex lines line) :=
  inferInstanceAs (Decidable (_ = _))

def sourceShown (source : SubDoc) (cue : SubLine) : Str :=
  (((sourceLinesByIndex source).get? cue.index).map SubLine.text).getD []

variable {source translated : SubDoc} {batches : List Batch}

theorem stampedBatches_cues (ctx : Context) (bible : SeriesBibleDTO) (batches : List Batch) :
    (stampedBatches ctx bible batches).map Batch.cues = batches.map Batch.cues := by
  unfold stampedBatches
  split
  · rfl
  · exact stampPairs_cues ..

theorem sourceShown_eq_iff {line : SubLine} (h : line ∈ source.lines) :
    sourceShown source line = line.text ↔ LastOfIndex source.lines line := by
  have hget : (sourceLinesByIndex source).get? line.index =
      (source.lines.filter (·.index = line.index)).getLast? := by
    rw [sourceLinesByIndex, Dict.get?_ofList, List.filter_map, List.getLast?_map, Option.map_map]
    exact congrFun Option.map_id _
  obtain ⟨last, hlast⟩ : ∃ last,
      (source.lines.filter (·.index = line.index)).getLast? = some last := by
    rw [← Option.isSome_iff_exists, List.getLast?_isSome]
    exact List.ne_nil_of_mem (List.mem_filter.mpr ⟨h, by simp⟩)
  simp [sourceShown, LastOfIndex, hget, hlast]

/-- The windows of two lists are equal when the lists are. -/
theorem showsSources_iff (ctx : Context) (bible : SeriesBibleDTO)
    (hcues : batches.flatMap Batch.cues = sentCues translated.lines)
    (hframes : List.Forall₂ SameFrame source.lines translated.lines) :
    ShowsSources ctx bible source batches ↔
      (sentCues source.lines).map (sourceShown source) = (sentCues source.lines).map SubLine.text := by
  have hsent := sentCues_sameFrame hframes
  have hflat : (batches.map Batch.cues).flatten = sentCues translated.lines := hcues
  have hshown : (sentCues translated.lines).map (sourceShown source) =
      (sentCues source.lines).map (sourceShown source) := by
    have hindex : (sentCues translated.lines).map SubLine.index =
        (sentCues source.lines).map SubLine.index := by
      rw [eq_comm, ← List.forall₂_eq_eq_eq, List.forall₂_map_left_iff, List.forall₂_map_right_iff]
      exact hsent.imp fun _ _ h => h.index.symm
    have := congrArg (List.map fun index =>
      (((sourceLinesByIndex source).get? index).map SubLine.text).getD []) hindex
    rwa [List.map_map, List.map_map] at this
  have hcut : (stampedBatches ctx bible batches).map (fun batch => batch.cues.map
      (sourceShown source)) =
        cutLike (batches.map Batch.cues) ((sentCues source.lines).map (sourceShown source)) := by
    have hmap : (stampedBatches ctx bible batches).map (fun batch => batch.cues.map
        (sourceShown source)) =
          ((stampedBatches ctx bible batches).map Batch.cues).map (List.map (sourceShown source)) :=
      List.map_map.symm
    rw [hmap, stampedBatches_cues, ← hshown, ← hflat, cutLike_map, cutLike_flatten]
  have hlen : ∀ f : SubLine → Str, ((sentCues source.lines).map f).length =
      (batches.map Batch.cues).flatten.length := by
    intro f
    rw [hflat, List.length_map, hsent.length_eq]
  have hiff : ShowsSources ctx bible source batches ↔
      (stampedBatches ctx bible batches).map (fun batch => batch.cues.map (sourceShown source)) =
        (cutLike (batches.map Batch.cues) (sentCues source.lines)).map (List.map SubLine.text) := by
    rw [← List.forall₂_eq_eq_eq, List.forall₂_map_left_iff, List.forall₂_map_right_iff]
    rfl
  rw [hiff, hcut, ← cutLike_map]
  constructor
  · intro h
    rw [← flatten_cutLike (hlen (sourceShown source)), h, flatten_cutLike (hlen SubLine.text)]
  · exact fun h => by rw [h]

/-- Every review shows the right sources just when every cue has the text of its index's last. -/
theorem review_sources_iff (source translated : SubDoc) (settings : TrezarrSettings)
    (k maxCues : ℤ) (batches : List Batch) (ctx : Context) (bible : SeriesBibleDTO)
    (hframes : List.Forall₂ SameFrame source.lines translated.lines)
    (hbatches : batchSubdoc translated settings k maxCues = .ok batches) :
    ShowsSources ctx bible source batches ↔
      ∀ line ∈ source.lines, line.raw = none → LastOfIndex source.lines line := by
  rw [showsSources_iff ctx bible (batchSubdoc_cues hbatches) hframes, List.map_inj_left]
  constructor
  · intro h line hline hraw
    exact (sourceShown_eq_iff hline).mp (h line (List.mem_filter.mpr ⟨hline, by simp [hraw]⟩))
  · intro h line hline
    obtain ⟨hline, hraw⟩ := List.mem_filter.mp hline
    exact (sourceShown_eq_iff hline).mpr (h line hline (by simpa using hraw))

/-- Cues with numbers of their own are shown with their own sources. -/
theorem two_scenes_reviewed : ∃ batches, batchSubdoc twoScenes {} 3 20 = .ok batches ∧
    ShowsSources {} { id := 1 } twoScenes batches := by
  have hbatches : (batchSubdoc twoScenes {} 3 20).isOk = true := by decide +kernel
  obtain ⟨batches, hbatches⟩ := isOk_elim hbatches
  exact ⟨batches, hbatches, (review_sources_iff twoScenes twoScenes {} 3 20 batches {} { id := 1 }
    (List.forall₂_same.mpr fun line _ => .refl line) hbatches).mpr (by decide)⟩

def twoCueText : Str :=
  "WEBVTT\n\n00:01.000 --> 00:02.000\nHi.\n\n00:02.500 --> 00:03.000\nBye.\n"

def twoCueDoc : SubDoc := readVtt "utf-8" twoCueText

/-- The review is shown the second line for both. -/
theorem two_cue_review_strays : ∃ batches, batchSubdoc twoCueDoc {} 3 20 = .ok batches ∧
    ¬ ShowsSources {} { id := 1 } twoCueDoc batches := by
  have hbatches : (batchSubdoc twoCueDoc {} 3 20).isOk = true := by decide +kernel
  obtain ⟨batches, hbatches⟩ := isOk_elim hbatches
  refine ⟨batches, hbatches, ?_⟩
  rw [showsSources_iff {} { id := 1 } (batchSubdoc_cues hbatches)
    (List.forall₂_same.mpr fun line _ => .refl line)]
  decide

end Trezarr
