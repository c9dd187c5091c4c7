import Trezarr.Translate.Passes

/-! Packing, parsing and reassembly count the same cues, in the same order. -/
namespace Trezarr
open Text Fallible

/-- The cues that are sent to the model. -/
def sentCues (lines : List SubLine) : List SubLine := lines.filter fun line => line.raw.isNone

@[simp] theorem sentCues_nil : sentCues [] = [] := rfl

theorem sentCues_cons_raw {line : SubLine} {raw : Str} (h : line.raw = some raw)
    (lines : List SubLine) : sentCues (line :: lines) = sentCues lines := by
  simp [sentCues, h]

theorem sentCues_cons_sent {line : SubLine} (h : line.raw = none) (lines : List SubLine) :
    sentCues (line :: lines) = line :: sentCues lines := by
  simp [sentCues, h]

namespace Packing

/-- Every cue packed so far. -/
def taken (st : Packing) : List SubLine := st.batches.flatMap Batch.cues ++ st.current

@[simp] theorem taken_close (st : Packing) (lim : Limits) (i : ℕ) :
    (st.close lim i).taken = st.taken := by
  simp [taken, close, makeBatch]

@[simp] theorem taken_add (st : Packing) (cue : SubLine) :
    (st.add cue).taken = st.taken ++ [cue] := by
  simp [taken, add]

theorem taken_of_current (st : Packing) (h : st.current = []) :
    st.batches.flatMap Batch.cues = st.taken := by
  simp [taken, h]

end Packing

/-- Whatever closes a batch, the next cue joins the ones taken before it. -/
theorem packFrom_taken {lim : Limits} {lines : List SubLine} :
    ∀ {st st' : Packing} {prev : Option SubLine} {i : ℕ},
      packFrom lim st prev i lines = .ok st' → st'.taken = st.taken ++ sentCues lines := by
  induction lines with
  | nil =>
    intro st st' prev i h
    cases h
    simp
  | cons cue rest ih =>
    intro st st' prev i h
    cases hraw : cue.raw with
    | some raw =>
      simp only [packFrom, hraw, Option.isSome_some, if_true] at h
      rw [ih h, sentCues_cons_raw hraw]
    | none =>
      simp only [packFrom, hraw, Option.isSome_none, Bool.false_eq_true, if_false] at h
      obtain ⟨gap, _, hrest⟩ := bind_ok h
      rw [ih hrest, sentCues_cons_sent hraw]
      split <;> simp

theorem batchSubdoc_cues {doc : SubDoc} {settings : TrezarrSettings} {k maxCues : ℤ}
    {batches : List Batch} (h : batchSubdoc doc settings k maxCues = .ok batches) :
    batches.flatMap Batch.cues = sentCues doc.lines := by
  obtain ⟨budget, _, h'⟩ := bind_ok h
  obtain ⟨st, hst, hbatches⟩ := bind_ok h'
  have htaken := packFrom_taken hst
  cases hbatches
  by_cases hc : st.current = []
  · rw [if_neg (not_not.mpr hc), st.taken_of_current hc, htaken]
    rfl
  · rw [if_pos hc, Packing.taken_of_current _ rfl, Packing.taken_close, htaken]
    rfl

theorem parseNumberedResponse_length {reply : Str} {n : ℕ} {multiline : Option (List ℕ)}
    {texts : List Str} (h : parseNumberedResponse reply n multiline = .ok texts) :
    texts.length = n := by
  obtain ⟨st, _, h'⟩ := bind_ok h
  dsimp only at h'
  split at h'
  · cases h'
  · have hlength := (mapM_ok h').length_eq
    simpa using hlength.symm

/-- The text is the line with the tags of its cue back in it. -/
def Restores (line : Str × SubLine) (text : Str) : Prop :=
  reinsertSentinels line.1 (extractSentinels line.2.text).2 = (text, true)

theorem restoreCues_ok {cues : List SubLine} : ∀ {i : ℕ} {lines texts : List Str},
    lines.length = cues.length →
    restoreCues i lines (cues.map fun cue => (extractSentinels cue.text).2) = .ok texts →
    List.Forall₂ Restores (lines.zip cues) texts := by
  induction cues with
  | nil =>
    intro i lines texts hlen h
    cases lines with
    | nil =>
      cases h
      exact .nil
    | cons line lines => cases hlen
  | cons cue cues ih =>
    intro i lines texts hlen h
    cases lines with
    | nil => cases hlen
    | cons line lines =>
      obtain ⟨text, htext, h'⟩ := bind_ok h
      obtain ⟨texts', htexts, h''⟩ := bind_ok h'
      cases h''
      refine .cons ?_ (ih (Nat.succ.inj hlen) htexts)
      unfold restoreCue at htext
      dsimp only at htext
      split at htext
      · cases htext
        exact Prod.ext rfl ‹_›
      · cases htext

/-- The reply's numbered lines, one for each cue, became the texts of these cues. -/
def AnsweredBy (cues : List SubLine) (reply : Str) (texts : List Str) : Prop :=
  ∃ lines : List Str, lines.length = cues.length ∧
    parseNumberedResponse reply cues.length
      (some (multilineIndices (cues.map fun cue => (extractSentinels cue.text).1))) = .ok lines ∧
    List.Forall₂ Restores (lines.zip cues) texts

theorem AnsweredBy.length {cues : List SubLine} {reply : Str} {texts : List Str}
    (h : AnsweredBy cues reply texts) : texts.length = cues.length := by
  obtain ⟨lines, hlen, _, hrestores⟩ := h
  have hzip := hrestores.length_eq
  simp only [List.length_zip, hlen, Nat.min_self] at hzip
  exact hzip.symm

theorem decodeReply_ok {cues : List SubLine} {reply : Str} {texts : List Str}
    (h : decodeReply cues reply = .ok texts) : AnsweredBy cues reply texts := by
  obtain ⟨lines, hlines, hrestore⟩ := bind_ok h
  simp only [List.map_map] at hlines hrestore
  have hlen := parseNumberedResponse_length hlines
  exact ⟨lines, hlen, hlines, restoreCues_ok hlen hrestore⟩

/-- A batch that succeeds was answered by one of the replies it was given. -/
theorem correctionLoop_ok {call : ℕ → List Message → Except PyError Str} {cues : List SubLine}
    {remaining : ℕ} : ∀ {attempt : ℕ} {messages : List Message} {texts : List Str},
      (correctionLoop call cues remaining attempt messages).result = .ok texts →
      ∃ attempt messages reply, call attempt messages = .ok reply ∧
        AnsweredBy cues reply texts := by
  induction remaining with
  | zero =>
    intro attempt messages texts h
    cases h
  | succ remaining ih =>
    intro attempt messages texts h
    simp only [correctionLoop] at h
    cases hcall : call attempt messages with
    | error err => simp [hcall] at h
    | ok reply =>
      simp only [hcall] at h
      split at h
      next texts' hdecode =>
        cases h
        exact ⟨attempt, messages, reply, hcall, decodeReply_ok hdecode⟩
      next =>
        split at h
        · cases h
        · exact ih h
      next => cases h

/-- All of a cue but the text of one that was sent. -/
structure SameFrame (src trn : SubLine) : Prop where
  index : trn.index = src.index
  startTc : trn.startTc = src.startTc
  endTc : trn.endTc = src.endTc
  sent : src.raw = none → trn.raw = none
  verbatim : src.raw ≠ none → trn = src

theorem SameFrame.refl (line : SubLine) : SameFrame line line :=
  ⟨rfl, rfl, rfl, fun hnone => hnone, fun _ => rfl⟩

theorem SameFrame.of_sent {line : SubLine} (h : line.raw = none) (text : Str) :
    SameFrame line { line with text := text } :=
  ⟨rfl, rfl, rfl, fun hnone => hnone, fun hsome => absurd h hsome⟩

/-- A queue with one text for each cue that was sent is used up exactly. -/
theorem assembleLines_exact {lines : List SubLine} : ∀ {queue : List Str},
    queue.length = (sentCues lines).length →
    ∃ out, assembleLines lines queue = some (out, []) ∧ List.Forall₂ SameFrame lines out ∧
      (sentCues out).map SubLine.text = queue := by
  induction lines with
  | nil =>
    intro queue hlen
    cases List.eq_nil_of_length_eq_zero hlen
    exact ⟨[], rfl, .nil, rfl⟩
  | cons line lines ih =>
    intro queue hlen
    cases hraw : line.raw with
    | some raw =>
      rw [sentCues_cons_raw hraw] at hlen
      obtain ⟨out, hout, hframes, htexts⟩ := ih hlen
      refine ⟨line :: out, ?_, .cons (.refl line) hframes, ?_⟩
      · simp [assembleLines, hraw, hout]
      · rw [sentCues_cons_raw hraw, htexts]
    | none =>
      rw [sentCues_cons_sent hraw] at hlen
      cases queue with
      | nil => cases hlen
      | cons text queue =>
        obtain ⟨out, hout, hframes, htexts⟩ := ih (Nat.succ.inj hlen)
        refine ⟨{ line with text := text } :: out, ?_, .cons (.of_sent hraw text) hframes, ?_⟩
        · simp [assembleLines, hraw, hout]
        · have hsent := @sentCues_cons_sent { line with text := text } hraw out
          rw [hsent, List.map_cons, htexts]

theorem perBatchHints_length {ctx : Context} {bible : SeriesBibleDTO} {batches : List Batch} :
    ∀ {attrs : List LineAttribution},
      (perBatchHints ctx bible attrs batches).length = batches.length := by
  induction batches with
  | nil => exact rfl
  | cons batch batches ih => simp [perBatchHints, ih]

theorem batchHints_length (ctx : Context) (batches : List Batch) :
    (batchHints ctx batches).length = batches.length := by
  unfold batchHints
  split
  · split
    · simp
    · exact perBatchHints_length
  · simp

/-- What the i-th batch was answered with, through one of its own calls. -/
def AnsweredAt (llm : LLMClient) (batch : Batch × ℕ) (texts : List Str) : Prop :=
  ∃ attempt messages reply, llm.call (.pass3 batch.2) attempt messages = .ok reply ∧
    AnsweredBy batch.1.cues reply texts

theorem translateBatches_ok {llm : LLMClient} {settings : TrezarrSettings} {ctx : Context}
    {batches : List Batch} {results : List (List Str)}
    (h : (translateBatches llm settings ctx batches).mapM Called.result = .ok results) :
    List.Forall₂ (AnsweredAt llm) batches.zipIdx results := by
  have hzip : (batches.zip (batchHints ctx batches)).map Prod.fst = batches :=
    List.map_fst_zip (batchHints_length ctx batches).ge
  have htasks := List.forall₂_map_left_iff.mp (mapM_ok h)
  rw [← hzip, List.zipIdx_map, List.forall₂_map_left_iff]
  exact htasks.imp fun task texts htask => correctionLoop_ok htask

theorem answered_length {llm : LLMClient} {batches : List (Batch × ℕ)}
    {results : List (List Str)} (h : List.Forall₂ (AnsweredAt llm) batches results) :
    results.flatten.length = (batches.flatMap fun batch => batch.1.cues).length := by
  induction h with
  | nil => rfl
  | cons hanswered _ ih =>
    obtain ⟨_, _, _, _, hby⟩ := hanswered
    simp only [List.flatten_cons, List.flatMap_cons, List.length_append, hby.length, ih]

/-- The document assembled from the texts of all batches. -/
structure Assembled (source : SubDoc) (results : List (List Str)) (translated : SubDoc) :
    Prop where
  exhausted : assembleLines source.lines results.flatten = some (translated.lines, [])
  length : translated.lines.length = source.lines.length
  frames : List.Forall₂ SameFrame source.lines translated.lines
  texts : (sentCues translated.lines).map SubLine.text = results.flatten

theorem assembled_of_length {source : SubDoc} {results : List (List Str)}
    (h : results.flatten.length = (sentCues source.lines).length) :
    ∃ translated, assemble source results = .ok translated ∧
      Assembled source results translated := by
  obtain ⟨out, hout, hframes, htexts⟩ := assembleLines_exact h
  refine ⟨{ withLines source out with encoding := "utf-8" }, ?_, hout, hframes.length_eq.symm,
    hframes, htexts⟩
  simp only [assemble, hout]

/-- One text for each cue: no batch, reply or placement of raw cues shifts the others. -/
theorem one_to_one_assembly (llm : LLMClient) (settings : TrezarrSettings) (ctx : Context)
    (schedule : Schedule) (source : SubDoc) (contextLinesK maxCues : ℤ) (batches : List Batch)
    (hbatches : batchSubdoc source settings contextLinesK maxCues = .ok batches)
    (hdone : ∀ task ∈ translateBatches llm settings ctx batches, task.result.isOk = true) :
    batches.flatMap Batch.cues = sentCues source.lines ∧
    ∃ results translated,
      (gather schedule (translateBatches llm settings ctx batches)).result = .ok results ∧
      List.Forall₂ (AnsweredAt llm) batches.zipIdx results ∧
      assemble source results = .ok translated ∧ Assembled source results translated := by
  have hcues := batchSubdoc_cues hbatches
  obtain ⟨results, hresults⟩ := mapM_of_forall fun task htask => isOk_elim (hdone task htask)
  have hanswered := translateBatches_ok hresults
  have hlen : results.flatten.length = (sentCues source.lines).length := by
    rw [answered_length hanswered, ← hcues, ← List.flatMap_map Prod.fst Batch.cues]
    simp
  obtain ⟨translated, hassemble, hassembled⟩ := assembled_of_length hlen
  refine ⟨hcues, results, translated, ?_, hanswered, hassemble, hassembled⟩
  simp only [gather, hresults]

/-- Two scenes with a karaoke line between them. -/
def twoScenes : SubDoc where
  lines := [⟨"1", "00:00:01,000", "00:00:02,000", "Hi.", none⟩,
    ⟨"2", "00:00:02,000", "00:00:03,000", "la", some "la"⟩,
    ⟨"3", "00:00:09,000", "00:00:10,000", "<i>Bye.</i>", none⟩]
  encoding := "utf-8"
  lineEnding := "\n"
  separators := []

def sceneBatches : List Batch :=
  [⟨twoScenes.lines.take 1, twoScenes.lines.take 1, twoScenes.lines.drop 2, none⟩,
    ⟨twoScenes.lines.drop 2, twoScenes.lines.take 2, [], none⟩]

def greeter : LLMClient where
  call site _ _ :=
    match site with
    | .pass3 0 => .ok "[1] Chào."
    | _ => .ok "[1] <<T0>>Tạm biệt.<<T1>>"

theorem two_scenes_assembled :
    sceneBatches.flatMap Batch.cues = sentCues twoScenes.lines ∧
    ∃ results translated,
      (gather ⟨[], fun _ => 0⟩ (translateBatches greeter {} {} sceneBatches)).result =
        .ok results ∧
      List.Forall₂ (AnsweredAt greeter) sceneBatches.zipIdx results ∧
      assemble twoScenes results = .ok translated ∧ Assembled twoScenes results translated :=
  one_to_one_assembly greeter {} {} ⟨[], fun _ => 0⟩ twoScenes 3 50 sceneBatches
    (by decide +kernel) (by decide +kernel)

end Trezarr
