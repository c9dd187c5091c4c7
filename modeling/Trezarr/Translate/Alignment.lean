import Trezarr.Lib.Windows
import Trezarr.Translate.Assembly
import Trezarr.Translate.Series

/-! Three batchings of one document: each cue meets the attribution that was made for it. -/
namespace Trezarr
open Text Fallible Windows

/-- The hint that is printed before the n-th of the lines to translate. -/
def hintOnLine (hints : Option (Dict ℕ Terms)) (n : ℕ) : Option Terms :=
  hints.bind fun hints => hints.get? (n + 1)

/-- The hints of Pass 3, one for each line it sends. -/
def passThreeHints (ctx : Context) (batches : List Batch) : List (Option Terms) :=
  (batches.zip (batchHints ctx batches)).flatMap fun (batch, hints) =>
    (List.range batch.cues.length).map (hintOnLine hints)

/-- What the attribution at a place of the list comes to. -/
def Context.hintAt (ctx : Context) (n : ℕ) : Option Terms :=
  ctx.bible.bind fun bible =>
    ctx.flatAttributions[n]?.bind (hintOf (nameToId bible) ctx.resolvedMap)

/-- The review batches as they are sent. -/
def stampedBatches (ctx : Context) (bible : SeriesBibleDTO) (batches : List Batch) : List Batch :=
  if ctx.flatAttributions = [] then batches else stampPairs ctx bible ctx.flatAttributions batches

/-- The pair of an attribution when it is among the resolved ones. -/
def resolvedPair (ctx : Context) (bible : SeriesBibleDTO) (attr : LineAttribution) : Option Pair :=
  (attributedPair bible attr).filter (· ∈ ctx.resolvedMap.keys)

/-- No pair is more frequent, and there is one when there is any. -/
def MostFrequentOf (pairs : List Pair) : Option Pair → Prop
  | none => pairs = []
  | some pair => pair ∈ pairs ∧ ∀ other, pairs.count other ≤ pairs.count pair

section Hints

variable {names : Dict Str ℕ} {resolvedMap : Dict Pair Terms} {ctx : Context}
  {bible : SeriesBibleDTO} {attrs : List LineAttribution} {batches : List Batch}

/-- Numbered entries for some of the elements: at most one has a given number. -/
theorem filter_numbered {α β : Type} (f : α → Option β) (xs : List α) (k j : ℕ) :
    ((xs.zipIdx k).filterMap fun (x, i) => (f x).map fun b => (i, b)).filter (·.1 = k + j) =
      ((xs[j]?.bind f).map fun b => (k + j, b)).toList := by
  induction xs generalizing k j with
  | nil => rfl
  | cons x xs ih =>
    rw [List.zipIdx_cons]
    cases j with
    | zero =>
      have hrest : ((xs.zipIdx (k + 1)).filterMap fun (x, i) => (f x).map fun b => (i, b)).filter
          (·.1 = k) = [] := by
        rw [List.filter_eq_nil_iff]
        rintro ⟨i, b⟩ hm he
        rw [decide_eq_true_eq] at he
        obtain ⟨⟨y, n⟩, hy, hb⟩ := List.mem_filterMap.mp hm
        obtain ⟨c, -, hc⟩ := Option.map_eq_some_iff.mp hb
        have hn := (List.mk_mem_zipIdx_iff_le_and_getElem?_sub.mp hy).1
        simp only [Prod.mk.injEq] at hc
        omega
      cases hx : f x <;> simp [hx, hrest]
    | succ j =>
      have := ih (k + 1) j
      rw [Nat.add_right_comm, Nat.add_assoc] at this
      cases hx : f x <;> simp [hx, this]

theorem hintOnLine_hintsOf (attrs : List (Option LineAttribution)) (n : ℕ) :
    hintOnLine (hintsOf names resolvedMap attrs) n =
      attrs[n]?.join.bind (hintOf names resolvedMap) := by
  have hnum := filter_numbered (fun attr => attr.bind (hintOf names resolvedMap)) attrs 1 n
  rw [Nat.add_comm 1 n] at hnum
  have hjoin : (attrs[n]?.bind fun attr => attr.bind (hintOf names resolvedMap)) =
      attrs[n]?.join.bind (hintOf names resolvedMap) := by cases attrs[n]? <;> rfl
  unfold hintOnLine hintsOf
  dsimp only
  split
  · next hnil =>
    rw [hnil, List.filter_nil] at hnum
    rw [← hjoin]
    cases hv : attrs[n]?.bind fun attr => attr.bind (hintOf names resolvedMap) with
    | none => rfl
    | some b => simp [hv] at hnum
  · rw [Option.bind_some, Dict.get?_ofList, hnum, hjoin]
    cases attrs[n]?.join.bind (hintOf names resolvedMap) <;> rfl

theorem perBatchHints_eq : perBatchHints ctx bible attrs batches =
    (cutLike (batches.map Batch.cues) attrs).map fun own =>
      hintsOf (nameToId bible) ctx.resolvedMap (own.map some) := by
  induction batches generalizing attrs with
  | nil => rfl
  | cons batch batches ih => simp only [perBatchHints, List.map_cons, cutLike_cons, ih]

/-- Without resolved pairs no attribution comes to a hint. -/
theorem hintAt_of_unresolved (h : ctx.resolvedMap.entries = []) (n : ℕ) : ctx.hintAt n = none := by
  have hget : ∀ pair, ctx.resolvedMap.get? pair = none := by simp [Dict.get?, h]
  unfold Context.hintAt
  cases ctx.bible with
  | none => rfl
  | some bible =>
    cases hattr : ctx.flatAttributions[n]? with
    | none => rfl
    | some attr =>
      simp only [Option.bind_some, hintOf]
      split
      · exact hget _
      · rfl

theorem flatMap_none (batches : List Batch) :
    ((batches.zip (batches.map fun _ => (none : Option (Dict ℕ Terms)))).flatMap
      fun (batch, hints) => (List.range batch.cues.length).map (hintOnLine hints)) =
      (List.range (batches.flatMap Batch.cues).length).map fun _ => none := by
  induction batches with
  | nil => rfl
  | cons batch batches ih =>
    rw [List.map_cons, List.zip_cons_cons, List.flatMap_cons, ih, List.flatMap_cons,
      List.length_append, List.range_add, List.map_append, List.map_map]
    rfl

/-- However the cues are batched, the n-th line has the hint of the n-th attribution. -/
theorem passThreeHints_eq (ctx : Context) (batches : List Batch) : passThreeHints ctx batches =
    (List.range (batches.flatMap Batch.cues).length).map ctx.hintAt := by
  unfold passThreeHints batchHints
  split
  · next bible hb =>
    split
    · next hnone =>
      rw [flatMap_none]
      exact List.map_congr_left fun n _ => (hintAt_of_unresolved hnone n).symm
    · have hcut := flatMap_cutLike (batches.map Batch.cues) ctx.flatAttributions fun attr =>
        attr.bind (hintOf (nameToId bible) ctx.resolvedMap)
      rw [List.zip_map_left, List.flatMap_map, ← List.flatMap_def] at hcut
      have hat : ctx.hintAt = fun n =>
          ctx.flatAttributions[n]?.bind (hintOf (nameToId bible) ctx.resolvedMap) := by
        funext n
        simp [Context.hintAt, hb]
      rw [hat, ← hcut, perBatchHints_eq, List.zip_map_right, List.flatMap_map]
      refine List.flatMap_congr fun own _ => List.map_congr_left fun n _ => ?_
      simp only [id_eq, hintOnLine_hintsOf, List.getElem?_map]
      cases own.2[n]? <;> rfl
  · next hb =>
    rw [flatMap_none]
    refine List.map_congr_left fun n _ => ?_
    simp [Context.hintAt, hb]

end Hints

section Dominant

variable {ctx : Context} {bible : SeriesBibleDTO} {batches : List Batch}

theorem get?_countPairs (attrs : List LineAttribution) (pair : Pair) :
    (countPairs ctx bible attrs).get? pair =
      if pair ∈ attrs.filterMap (resolvedPair ctx bible) then
        some ((attrs.filterMap (resolvedPair ctx bible)).count pair)
      else none := by
  induction attrs using List.reverseRecOn with
  | nil => rfl
  | append_singleton attrs attr ih =>
    have hstep : countPairs ctx bible (attrs ++ [attr]) =
        (resolvedPair ctx bible attr).elim (countPairs ctx bible attrs) fun p =>
          (countPairs ctx bible attrs).set p
            (((countPairs ctx bible attrs).get? p).getD 0 + 1) := by
      simp only [countPairs, resolvedPair, List.foldl_append, List.foldl_cons, List.foldl_nil]
      cases attributedPair bible attr with
      | none => rfl
      | some p => by_cases hp : p ∈ ctx.resolvedMap.keys <;> simp [Option.filter, hp]
    rw [hstep, List.filterMap_append]
    cases hp : resolvedPair ctx bible attr with
    | none => simp [hp, ih]
    | some p =>
      by_cases he : pair = p
      · subst he
        by_cases hm : pair ∈ attrs.filterMap (resolvedPair ctx bible)
        · simp [hp, ih, hm]
        · have hzero := List.count_eq_zero_of_not_mem hm
          simp [hp, ih, hm, hzero]
      · simp [hp, ih, he, Ne.symm he]

/-- A scan that moves on to larger entries only ends at one that none exceeds. -/
theorem foldl_best {scan : Option (Pair × ℕ) → Pair × ℕ → Option (Pair × ℕ)}
    {entries : List (Pair × ℕ)} {best : Pair × ℕ} {last : Option (Pair × ℕ)}
    (hlast : entries.foldl scan (some best) = last)
    (hscan : ∀ best entry,
      scan (some best) entry = if best.2 < entry.2 then some entry else some best) :
    ∃ top ∈ best :: entries, (∀ entry ∈ best :: entries, entry.2 ≤ top.2) ∧ last = some top := by
  induction entries generalizing best with
  | nil => exact ⟨best, by simp, by simp, hlast.symm⟩
  | cons entry entries ih =>
    rw [List.foldl_cons, hscan] at hlast
    split at hlast
    · next hlt =>
      obtain ⟨top, hmem, hle, htop⟩ := ih hlast
      refine ⟨top, List.mem_cons_of_mem _ hmem, ?_, htop⟩
      have hentry := hle entry List.mem_cons_self
      intro other hother
      rcases List.mem_cons.mp hother with rfl | hother
      · exact hlt.le.trans hentry
      · exact hle other hother
    · next hge =>
      obtain ⟨top, hmem, hle, htop⟩ := ih hlast
      have hbest := hle best List.mem_cons_self
      refine ⟨top, ?_, ?_, htop⟩
      · rcases List.mem_cons.mp hmem with rfl | hmem
        · exact List.mem_cons_self
        · exact List.mem_cons_of_mem _ (List.mem_cons_of_mem _ hmem)
      · intro other hother
        rcases List.mem_cons.mp hother with rfl | hother
        · exact hbest
        · rcases List.mem_cons.mp hother with rfl | hother
          · exact (not_lt.mp hge).trans hbest
          · exact hle other (List.mem_cons_of_mem _ hother)

theorem mostFrequent_countPairs (attrs : List LineAttribution) :
    MostFrequentOf (attrs.filterMap (resolvedPair ctx bible))
      (mostFrequent (countPairs ctx bible attrs)) := by
  have hcount : ∀ pair, (countPairs ctx bible attrs).get? pair =
      if pair ∈ attrs.filterMap (resolvedPair ctx bible) then
        some ((attrs.filterMap (resolvedPair ctx bible)).count pair)
      else none := get?_countPairs attrs
  generalize attrs.filterMap (resolvedPair ctx bible) = pairs at hcount ⊢
  generalize countPairs ctx bible attrs = counts at hcount
  have hentry : ∀ pair n, (pair, n) ∈ counts.entries ↔ pair ∈ pairs ∧ pairs.count pair = n := by
    intro pair n
    rw [Dict.mem_entries_iff, hcount]
    split <;> simp_all
  unfold mostFrequent
  cases hentries : counts.entries with
  | nil =>
    refine List.eq_nil_iff_forall_not_mem.mpr fun pair hm => ?_
    have := (hentry pair _).mpr ⟨hm, rfl⟩
    rw [hentries] at this
    cases this
  | cons best entries =>
    rw [List.foldl_cons]
    dsimp only
    generalize hlast : List.foldl _ (some best) entries = last
    obtain ⟨⟨pair, n⟩, hmem, hle, rfl⟩ := foldl_best hlast fun _ _ => rfl
    rw [← hentries] at hmem hle
    obtain ⟨hm, rfl⟩ := (hentry pair n).mp hmem
    refine ⟨hm, fun other => ?_⟩
    by_cases ho : other ∈ pairs
    · exact hle (other, _) ((hentry other _).mpr ⟨ho, rfl⟩)
    · rw [List.count_eq_zero_of_not_mem ho]
      exact Nat.zero_le _

theorem makeBatch_dominantPair (cues lines : List SubLine) (i : ℕ) (k : ℤ) :
    (makeBatch cues lines i k).dominantPair = none := rfl

theorem packFrom_unstamped {lim : Limits} {lines : List SubLine} :
    ∀ {st st' : Packing} {prev : Option SubLine} {i : ℕ},
      (∀ batch ∈ st.batches, batch.dominantPair = none) →
      packFrom lim st prev i lines = .ok st' →
      ∀ batch ∈ st'.batches, batch.dominantPair = none := by
  induction lines with
  | nil =>
    intro st st' prev i hst h
    cases h
    exact hst
  | cons cue rest ih =>
    intro st st' prev i hst h
    unfold packFrom at h
    split at h
    · exact ih hst h
    · obtain ⟨gap, -, hrest⟩ := bind_ok h
      refine ih ?_ hrest
      split
      · intro batch hb
        rcases List.mem_append.mp hb with hb | hb
        · exact hst batch hb
        · rw [List.mem_singleton.mp hb, makeBatch_dominantPair]
      · exact hst

theorem batchSubdoc_unstamped {doc : SubDoc} {settings : TrezarrSettings} {k maxCues : ℤ}
    (h : batchSubdoc doc settings k maxCues = .ok batches) :
    ∀ batch ∈ batches, batch.dominantPair = none := by
  obtain ⟨budget, -, h⟩ := bind_ok h
  obtain ⟨st, hst, h⟩ := bind_ok h
  have hnone := packFrom_unstamped (by simp) hst
  cases h
  intro batch hb
  split at hb
  · rcases List.mem_append.mp hb with hb | hb
    · exact hnone batch hb
    · rw [List.mem_singleton.mp hb, makeBatch_dominantPair]
  · exact hnone batch hb

/-- A review batch with its cues and the attributions made for them. -/
def Reviews (ctx : Context) (bible : SeriesBibleDTO) (batch : Batch)
    (own : List (SubLine × LineAttribution)) : Prop :=
  batch.cues = own.map Prod.fst ∧
    MostFrequentOf ((own.map Prod.snd).filterMap (resolvedPair ctx bible)) batch.dominantPair

theorem stampPairs_cues (ctx : Context) (bible : SeriesBibleDTO) (attrs : List LineAttribution)
    (batches : List Batch) :
    (stampPairs ctx bible attrs batches).map Batch.cues = batches.map Batch.cues := by
  induction batches generalizing attrs with
  | nil => rfl
  | cons batch batches ih => simp only [stampPairs, List.map_cons, ih]

theorem stampPairs_windows (ctx : Context) (bible : SeriesBibleDTO) {attrs : List LineAttribution}
    (hlen : attrs.length = (batches.map Batch.cues).flatten.length) :
    List.Forall₂ (fun batch own => own.length = batch.cues.length ∧
        MostFrequentOf (own.filterMap (resolvedPair ctx bible)) batch.dominantPair)
      (stampPairs ctx bible attrs batches) (cutLike (batches.map Batch.cues) attrs) := by
  induction batches generalizing attrs with
  | nil => exact .nil
  | cons batch batches ih =>
    rw [List.map_cons, List.flatten_cons, List.length_append] at hlen
    rw [List.map_cons, cutLike_cons]
    refine .cons ⟨?_, mostFrequent_countPairs _⟩ (ih ?_)
    · dsimp only
      rw [List.length_take]
      omega
    · rw [List.length_drop]
      omega

/-- Nothing is stamped when nothing was attributed, which takes a document without cues. -/
theorem stampedBatches_reviews (hnone : ∀ batch ∈ batches, batch.dominantPair = none)
    (hlen : ctx.flatAttributions.length = (batches.flatMap Batch.cues).length) :
    List.Forall₂ (Reviews ctx bible) (stampedBatches ctx bible batches)
      (cutLike (batches.map Batch.cues) ((batches.flatMap Batch.cues).zip ctx.flatAttributions)) := by
  unfold stampedBatches
  split
  · next hnil =>
    rw [hnil] at hlen ⊢
    rw [List.zip_nil_right]
    have hempty := List.flatMap_eq_nil_iff.mp (List.eq_nil_of_length_eq_zero hlen.symm)
    clear hlen
    induction batches with
    | nil => exact .nil
    | cons batch batches ih =>
      rw [List.map_cons, cutLike_cons, List.take_nil, List.drop_nil]
      refine .cons ⟨hempty batch List.mem_cons_self, ?_⟩
        (ih (fun b hb => hnone b (List.mem_cons_of_mem _ hb))
          fun b hb => hempty b (List.mem_cons_of_mem _ hb))
      rw [hnone batch List.mem_cons_self]
      rfl
  · have hcues := stampPairs_cues ctx bible ctx.flatAttributions batches
    have hown := forall₂_zip Batch.cues (stampPairs_windows ctx bible hlen) fun _ _ h => h.1
    rw [hcues, List.flatMap_def, hcues, flatten_cutLike hlen] at hown
    exact hown.imp fun _ _ h => ⟨h.1, h.2.2⟩

end Dominant

section Attributions

variable {run : SeriesRun} {settings : TrezarrSettings} {source : SubDoc} {bible : SeriesBibleDTO}

/-- One entry for each number from one on, in their order. -/
def Numbered (own : List LineAttribution) (n : ℕ) : Prop :=
  own.map LineAttribution.lineIndex = (List.range n).map fun (i : ℕ) => (i + 1 : ℤ)

theorem Numbered.length {own : List LineAttribution} {n : ℕ} (h : Numbered own n) :
    own.length = n := by
  simpa using congrArg List.length h

theorem allLowUnknown_numbered (batch : Batch) :
    Numbered (allLowUnknown batch) batch.cues.length := by
  simp only [Numbered, allLowUnknown, List.map_map]
  rfl

/-- Missing, repeated and foreign numbers of a reply do not shift the others. -/
theorem fillMissingIndices_numbered (attributions : List LineAttribution) (n : ℕ) :
    Numbered (fillMissingIndices attributions n) n := by
  simp only [Numbered, fillMissingIndices, List.map_map]
  refine List.map_congr_left fun i _ => ?_
  simp only [Function.comp_apply, Dict.get?_ofList]
  cases hlast : ((attributions.map fun attr => (attr.lineIndex, attr)).filter
      (·.1 = (i + 1 : ℤ))).getLast? with
  | none => rfl
  | some entry =>
    obtain ⟨hm, he⟩ := List.mem_filter.mp (List.mem_of_getLast? hlast)
    obtain ⟨attr, -, rfl⟩ := List.mem_map.mp hm
    exact of_decide_eq_true he

theorem attributeBatch_numbered {mode : Str}
    {calls : StructuredCalls AttributionRequest BatchAttribution} {i : ℕ} {batch : Batch}
    {own : List LineAttribution}
    (h : (attributeBatch mode calls i batch bible settings).result = .ok own) :
    Numbered own batch.cues.length := by
  unfold attributeBatch at h
  split at h
  · cases h
    exact allLowUnknown_numbered batch
  · split at h
    · cases h
      exact allLowUnknown_numbered batch
    · split at h
      · cases h
      · cases h
        exact fillMissingIndices_numbered _ _
      · split at h
        · cases h
          exact fillMissingIndices_numbered _ _
        · cases h
          exact allLowUnknown_numbered batch

/-- Pass 2 answered the batch with the attributions that stand at the places of its cues. -/
def AttributedBy (run : SeriesRun) (settings : TrezarrSettings) (bible : SeriesBibleDTO)
    (batch : Batch × ℕ) (own : List (SubLine × LineAttribution)) : Prop :=
  batch.1.cues = own.map Prod.fst ∧ Numbered (own.map Prod.snd) batch.1.cues.length ∧
    (attributeBatch run.client.mode run.client.attribution batch.2 batch.1 bible settings).result =
      .ok (own.map Prod.snd)

/-- What Pass 2 leaves, when it runs and no call raises. -/
structure Attributed (run : SeriesRun) (settings : TrezarrSettings) (source : SubDoc)
    (bible : SeriesBibleDTO) (attrs : List LineAttribution) : Prop where
  one_each : attrs.length = (sentCues source.lines).length
  batches : ∃ batches, batchSubdoc source settings settings.attributeContextLinesK
      settings.attributeMaxCuesPerBatch = .ok batches ∧
    List.Forall₂ (AttributedBy run settings bible) batches.zipIdx
      (cutLike (batches.map Batch.cues) ((sentCues source.lines).zip attrs))

theorem attributed_length {mode : Str} {calls : StructuredCalls AttributionRequest BatchAttribution}
    {tasks : List (Batch × ℕ)} {results : List (List LineAttribution)}
    (h : List.Forall₂ (fun task own =>
      (attributeBatch mode calls task.2 task.1 bible settings).result = .ok own) tasks results) :
    results.flatten.length = (tasks.map fun task => task.1.cues).flatten.length := by
  induction h with
  | nil => rfl
  | cons htask _ ih =>
    simp only [List.map_cons, List.flatten_cons, List.length_append, ih,
      (attributeBatch_numbered htask).length]

theorem attributions_attributed {results : List (List LineAttribution)}
    (hattr : settings.enableAttribution = true)
    (h : (run.attributions settings source bible).result = .ok results) :
    Attributed run settings source bible results.flatten := by
  simp only [SeriesRun.attributions, hattr, Bool.not_true, Bool.false_eq_true, if_false] at h
  split at h
  · cases h
  · next batches hbatches =>
    unfold gather at h
    split at h
    · next results' hresults =>
      cases h
      have htasks := List.forall₂_map_left_iff.mp (mapM_ok hresults)
      have hown := forall₂_zip (fun task : Batch × ℕ => task.1.cues) htasks
        fun _ _ htask => (attributeBatch_numbered htask).length
      have hfst : batches.zipIdx.map (fun task => task.1.cues) = batches.map Batch.cues := by
        have hmap := congrArg (List.map Batch.cues) (List.zipIdx_map_fst 0 batches)
        rw [List.map_map] at hmap
        exact hmap
      have hcues := batchSubdoc_cues hbatches
      rw [List.flatMap_def, hfst, ← List.flatMap_def, hcues] at hown
      refine ⟨?_, batches, hbatches, hown.imp fun task own htask => ?_⟩
      · rw [← hcues, List.flatMap_def, ← hfst]
        clear hown hfst
        exact attributed_length htasks
      · exact ⟨htask.1, attributeBatch_numbered htask.2, htask.2⟩
    · cases h

/-- Passes that end well know the series and keep the attributions of Pass 2. -/
theorem passes_ready {ctx : Context} (h : (run.passes settings source).analysis = .ready ctx) :
    ∃ bible results, ctx.bible = some bible ∧
      (run.attributions settings source bible).result = .ok results ∧
      ctx.flatAttributions = results.flatten := by
  unfold SeriesRun.passes at h
  split at h
  · cases h
  · split at h
    · cases h
    · dsimp only at h
      split at h
      · cases h
      · cases h
      · split at h
        · cases h
        · unfold SeriesRun.reconcile at h
          split at h
          · cases h
          · next bible _ =>
            dsimp only at h
            split at h
            · cases h
            · next results hresults =>
              split at h
              · cases h
              · cases h
                exact ⟨bible, results, rfl, hresults, rfl⟩

end Attributions

theorem sentCues_sameFrame {lines out : List SubLine} (h : List.Forall₂ SameFrame lines out) :
    List.Forall₂ SameFrame (sentCues lines) (sentCues out) := by
  induction h with
  | nil => exact .nil
  | @cons src trn lines out hframe _ ih =>
    cases hraw : src.raw with
    | none =>
      rw [sentCues_cons_sent hraw, sentCues_cons_sent (hframe.sent hraw)]
      exact .cons hframe ih
    | some raw =>
      obtain rfl := hframe.verbatim (by simp [hraw])
      rw [sentCues_cons_raw hraw, sentCues_cons_raw hraw]
      exact ih

/-- What later passes take from the attributions they take cue by cue, however they batch. -/
structure Aligned (run : SeriesRun) (settings : TrezarrSettings) (source : SubDoc) (ctx : Context)
    (bible : SeriesBibleDTO) : Prop where
  bible_eq : ctx.bible = some bible
  attributed : Attributed run settings source bible ctx.flatAttributions
  hints : ∀ k maxCues batches, batchSubdoc source settings k maxCues = .ok batches →
    batches.flatMap Batch.cues = sentCues source.lines ∧
      passThreeHints ctx batches =
        ctx.flatAttributions.map (hintOf (nameToId bible) ctx.resolvedMap)
  reviews : ∀ translated k maxCues batches, List.Forall₂ SameFrame source.lines translated.lines →
    batchSubdoc translated settings k maxCues = .ok batches →
      List.Forall₂ (Reviews ctx bible) (stampedBatches ctx bible batches)
        (cutLike (batches.map Batch.cues) ((sentCues translated.lines).zip ctx.flatAttributions))

/-- Whatever Pass 2 is answered, no attribution reaches the line of another cue. -/
theorem attributions_aligned (run : SeriesRun) (settings : TrezarrSettings) (source : SubDoc)
    (ctx : Context) (hready : (run.passes settings source).analysis = .ready ctx)
    (hattr : settings.enableAttribution = true) :
    ∃ bible, Aligned run settings source ctx bible := by
  obtain ⟨bible, results, hbible, hresults, hflat⟩ := passes_ready hready
  have hattributed := attributions_attributed hattr hresults
  rw [← hflat] at hattributed
  refine ⟨bible, hbible, hattributed, ?_, ?_⟩
  · intro k maxCues batches hbatches
    have hcues := batchSubdoc_cues hbatches
    refine ⟨hcues, ?_⟩
    rw [passThreeHints_eq, hcues, ← hattributed.one_each]
    apply List.ext_getElem?
    intro n
    by_cases hn : n < ctx.flatAttributions.length
    · simp [hn, Context.hintAt, hbible]
    · simp [hn]
  · intro translated k maxCues batches hframes hbatches
    have hcues := batchSubdoc_cues hbatches
    rw [← hcues]
    apply stampedBatches_reviews (batchSubdoc_unstamped hbatches)
    rw [hattributed.one_each, hcues, (sentCues_sameFrame hframes).length_eq]

/-- Two characters of a series, and no terms between them. -/
def pairStore : Store where
  series := ⟨[{ id := 1 }], nodup_firstSeries⟩
  characters :=
    ⟨[{ id := 1, seriesId := 1, originalLatinName := "Anna" },
      { id := 2, seriesId := 1, originalLatinName := "Ben" }], by decide⟩

/-- The endpoint numbers its attributions badly: one twice, one not at all, one too many. -/
def carelessRun : SeriesRun where
  store := pairStore
  episodeKey := "S01E01"
  client :=
    { mode := "json"
      analysis := ⟨fun _ _ => .ok (.parsed {}), fun _ => none⟩
      attribution :=
        { call := fun _ _ => .ok (.parsed
            [{ lineIndex := 7, speaker := some "Ben", addressee := some "Anna" },
             { lineIndex := 1 },
             { lineIndex := 1, speaker := some "anna", addressee := some "Ben" }])
          validateJson := fun _ => none } }
  down _ := false
  schedule := ⟨[], fun _ => 0⟩
  order := ⟨id, fun _ => List.Perm.refl _⟩

def Analysis.isReady : Analysis → Bool
  | .ready _ => true
  | _ => false

theorem careless_run_aligned : ∃ ctx bible,
    Aligned carelessRun { attributeMaxCuesPerBatch := 1 } twoScenes ctx bible := by
  have hready : ((carelessRun.passes { attributeMaxCuesPerBatch := 1 } twoScenes).analysis).isReady
      = true := by decide +kernel
  obtain ⟨ctx, hctx⟩ : ∃ ctx, (carelessRun.passes { attributeMaxCuesPerBatch := 1 }
      twoScenes).analysis = .ready ctx := by
    generalize (carelessRun.passes { attributeMaxCuesPerBatch := 1 } twoScenes).analysis = analysis
      at hready ⊢
    cases analysis with
    | ready ctx => exact ⟨ctx, rfl⟩
    | _ => cases hready
  exact ⟨ctx, attributions_aligned carelessRun { attributeMaxCuesPerBatch := 1 } twoScenes ctx hctx
    rfl⟩

end Trezarr
