import Mathlib.Data.List.Sort
import Trezarr.Translate.Leaks
import Trezarr.Translate.RepairHints

/-! What a repair does to the lines of a document, and what it leaves alone. -/
namespace Trezarr
open Text Fallible

/-- The failing cues whose lines are not raw. -/
def sentRepairs (translated : SubDoc) (failing : List ℕ) : List ℕ :=
  failing.filter fun i => translated.lines[i]?.any fun line => line.raw.isNone

/-- The failing cues that are sent take the texts of an answer to their own source cues, in turn. -/
structure RepairSpliced (llm : LLMClient) (round : ℕ) (source translated : SubDoc)
    (failing : List ℕ) (out : List SubLine) : Prop where
  length : out.length = translated.lines.length
  frames : List.Forall₂ (fun line new => new = { line with text := new.text }) translated.lines out
  others : ∀ i, i ∉ sentRepairs translated failing → out[i]? = translated.lines[i]?
  answered : ∃ attempt messages reply texts cues,
    llm.call (.repair round) attempt messages = .ok reply ∧ AnsweredBy cues reply texts ∧
    (sentRepairs translated failing).map (source.lines[·]?) = cues.map some ∧
    (sentRepairs translated failing).map (fun i => out[i]?.map SubLine.text) = texts.map some

section Cues

variable {source translated : SubDoc} {failing : List ℕ} {cues : List (ℕ × SubLine)}

theorem map_fst_repairCues (h : repairCues source translated failing = .ok cues) :
    cues.map Prod.fst = sentRepairs translated failing := by
  induction failing generalizing cues with
  | nil =>
    cases h
    rfl
  | cons i failing ih =>
    obtain ⟨line, hline, h⟩ := bind_ok h
    have hfirst : (translated.lines[i]?.any fun line => line.raw.isNone) = line.raw.isNone := by
      rw [lineAt_ok hline]
      rfl
    rw [sentRepairs, List.filter_cons, hfirst]
    split at h
    · next hraw =>
      rw [if_neg (by simpa [Option.isSome_iff_ne_none] using hraw)]
      exact ih h
    · next hraw =>
      obtain ⟨src, hsrc, h⟩ := bind_ok h
      obtain ⟨rest, hrest, h⟩ := bind_ok h
      cases h
      rw [if_pos (by simpa using hraw), List.map_cons, ih hrest]
      rfl

theorem map_source_repairCues (h : repairCues source translated failing = .ok cues) :
    (sentRepairs translated failing).map (source.lines[·]?) =
      (cues.map Prod.snd).map some := by
  rw [← map_fst_repairCues h, List.map_map, List.map_map]
  exact List.map_congr_left fun cue hcue => (repairCues_ok h cue hcue).1

end Cues

section Splice

variable {repaired : List ℕ} {lines out : List SubLine} {texts : List Str} {n : ℕ}

/-- The texts are used up in the order of the document. -/
theorem spliceRepairs_texts : ∀ {n : ℕ} {texts : List Str} {out : List SubLine},
    spliceRepairs repaired (lines.zipIdx n) texts = .ok out →
      ((out.zipIdx n).filter fun line => line.2 ∈ repaired).map (fun line => line.1.text) <+:
        texts := by
  induction lines with
  | nil =>
    intro n texts out h
    cases h
    exact List.nil_prefix
  | cons line lines ih =>
    intro n texts out h
    rw [List.zipIdx_cons] at h
    simp only [spliceRepairs] at h
    split at h
    · next hmem =>
      split at h
      · cases h
      · obtain ⟨rest, hrest, hout⟩ := bind_ok h
        cases hout
        rw [List.zipIdx_cons, List.filter_cons, if_pos (by simpa using hmem), List.map_cons]
        exact List.cons_prefix_cons.mpr ⟨rfl, ih hrest⟩
    · next hmem =>
      obtain ⟨rest, hrest, hout⟩ := bind_ok h
      cases hout
      rw [List.zipIdx_cons, List.filter_cons, if_neg (by simpa using hmem)]
      exact ih hrest

end Splice

section Gate

variable {translated source : SubDoc} {settings : TrezarrSettings}
  {properNounAllowlist : Option (List Str)} {failure : GateFailure}

/-- A failure names its cues in the order of the document, each once. -/
def Ascending (failure : GateFailure) : Prop :=
  ∀ failing ∈ failure.failingIndices, failing.Pairwise (· < ·)

theorem ascending_one {i : ℕ} (h : failure.failingIndices = some [i]) : Ascending failure := by
  intro failing hf
  rw [h, Option.mem_some_iff] at hf
  rw [← hf]
  exact List.pairwise_singleton _ _

theorem checkUntranslated_ascending
    (h : checkUntranslated translated source settings = .error (.failure failure)) :
    Ascending failure := by
  unfold checkUntranslated at h
  dsimp only at h
  split at h
  · cases h
  · split at h
    · cases h
      intro failing hf
      cases hf
      exact Sorting.pairwise_places (List.filter_sublist.trans List.filter_sublist)
    · cases h

theorem rejectFirst_one {bad : SubLine → Bool} {report : ℕ → SubLine → GateFailure}
    (hreport : ∀ i line, (report i line).failingIndices = some [i])
    (h : rejectFirst bad report translated.lines = .error (.failure failure)) :
    Ascending failure := by
  obtain ⟨i, line, rfl⟩ := rejectFirst_error h
  exact ascending_one (hreport i line)

theorem validateSubdoc_ascending
    (h : validateSubdoc translated source settings properNounAllowlist =
      .error (.failure failure)) : Ascending failure := by
  rcases bind_error h with h | ⟨_, -, h⟩
  · unfold checkCount at h
    split at h
    · cases h
      exact fun failing hf => absurd hf (Option.not_mem_none failing)
    · cases h
  rcases bind_error h with h | ⟨_, -, h⟩
  · exact rejectFirst_one (fun _ _ => rfl) h
  rcases bind_error h with h | ⟨_, -, h⟩
  · exact checkUntranslated_ascending h
  rcases bind_error h with h | ⟨_, -, h⟩
  · unfold checkIndices at h
    split at h
    · cases h
      exact ascending_one rfl
    · cases h
  rcases bind_error h with h | ⟨_, -, h⟩
  · obtain ⟨i, _, _, rfl⟩ := checkTimingFrom_error h
    exact ascending_one rfl
  rcases bind_error h with h | ⟨_, -, h⟩
  · exact rejectFirst_one (fun _ _ => rfl) h
  rcases bind_error h with h | ⟨_, -, h⟩
  · exact rejectFirst_one (fun _ _ => rfl) h
  · intro failing hf
    rw [(checkLeaks_error h).2, Option.mem_some_iff] at hf
    rw [← hf]
    exact Sorting.pairwise_places List.filter_sublist

end Gate

section Repair

variable {llm : LLMClient} {round check : ℕ} {source translated : SubDoc} {failing : List ℕ}
  {settings : TrezarrSettings} {ctx : Context} {out : List SubLine}

theorem mem_sentRepairs {i : ℕ} : i ∈ sentRepairs translated failing ↔
    i ∈ failing ∧ ∃ line, translated.lines[i]? = some line ∧ line.raw = none := by
  rw [sentRepairs, List.mem_filter, Option.any_eq_true]
  simp only [Option.isNone_iff_eq_none]

/-- The places that were sent, read off the repaired document, are those of the failing list. -/
theorem places_of_sentRepairs (hasc : failing.Pairwise (· < ·))
    (hlen : out.length = translated.lines.length) :
    ((out.zipIdx).filter fun line => line.2 ∈ sentRepairs translated failing).map Prod.snd =
      sentRepairs translated failing := by
  refine (Sorting.pairwise_places List.filter_sublist).eq_of_mem_iff
    (hasc.sublist List.filter_sublist) fun i => ?_
  constructor
  · intro hi
    obtain ⟨line, hline, rfl⟩ := List.mem_map.mp hi
    exact of_decide_eq_true (List.mem_filter.mp hline).2
  · intro hi
    obtain ⟨-, line, hline, -⟩ := mem_sentRepairs.mp hi
    have hlt : i < out.length := hlen ▸ (List.getElem?_eq_some_iff.mp hline).1
    refine List.mem_map.mpr ⟨(out[i], i), List.mem_filter.mpr ⟨?_, decide_eq_true hi⟩, rfl⟩
    exact List.mem_zipIdx_iff_getElem?.mpr (List.getElem?_eq_getElem hlt)

theorem repairFailingCues_some (h : (repairFailingCues llm round failing source translated check
    settings ctx).result = .ok (some out)) :
    ∃ cues texts attempt messages reply, repairCues source translated failing = .ok cues ∧
      llm.call (.repair round) attempt messages = .ok reply ∧
      AnsweredBy (cues.map Prod.snd) reply texts ∧
      spliceRepairs (sentRepairs translated failing) translated.lines.zipIdx texts = .ok out := by
  unfold repairFailingCues at h
  split at h
  · cases h
  · cases h
  · next cues _ hcues =>
    dsimp only at h
    split at h
    · cases h
    · cases h
    · next texts htexts =>
      obtain ⟨lines, hlines, hsome⟩ := map_ok h
      cases hsome
      obtain ⟨attempt, messages, reply, hcall, hanswered⟩ := correctionLoop_ok htexts
      rw [map_fst_repairCues hcues] at hlines
      exact ⟨cues, texts, attempt, messages, reply, hcues, hcall, hanswered, hlines⟩

/-- Each line of a repaired document against the line it was. -/
theorem spliceRepairs_at {repaired : List ℕ} {texts : List Str}
    (h : spliceRepairs repaired translated.lines.zipIdx texts = .ok out) {i : ℕ} {line : SubLine}
    (hline : translated.lines[i]? = some line) :
    ∃ new, out[i]? = some new ∧
      if i ∈ repaired then new = { line with text := new.text, raw := none } else new = line := by
  have hframes := spliceRepairs_frames h
  obtain ⟨hi, rfl⟩ := List.getElem?_eq_some_iff.mp hline
  have hzip : i < translated.lines.zipIdx.length := by rwa [List.length_zipIdx]
  have hout : i < out.length := hframes.length_eq ▸ hzip
  refine ⟨out[i], List.getElem?_eq_getElem hout, ?_⟩
  simpa using hframes.get hzip hout

theorem repairSpliced_of_ascending (hasc : failing.Pairwise (· < ·))
    (h : (repairFailingCues llm round failing source translated check settings ctx).result =
      .ok (some out)) : RepairSpliced llm round source translated failing out := by
  obtain ⟨cues, texts, attempt, messages, reply, hcues, hcall, hanswered, hsplice⟩ :=
    repairFailingCues_some h
  have hlen : out.length = translated.lines.length := by
    rw [← (spliceRepairs_frames hsplice).length_eq, List.length_zipIdx]
  have hplaces := places_of_sentRepairs hasc hlen
  refine ⟨hlen, ?_, fun i hi => ?_, attempt, messages, reply, texts, cues.map Prod.snd, hcall,
    hanswered, map_source_repairCues hcues, ?_⟩
  · refine List.forall₂_iff_get.mpr ⟨hlen.symm, fun i hi ho => ?_⟩
    obtain ⟨new, hnew, hat⟩ := spliceRepairs_at hsplice (List.getElem?_eq_getElem hi)
    have hsame : out.get ⟨i, ho⟩ = new :=
      Option.some.inj ((List.getElem?_eq_getElem ho).symm.trans hnew)
    rw [hsame]
    split at hat
    · next hmem =>
      obtain ⟨-, line, hline, hraw⟩ := mem_sentRepairs.mp hmem
      rw [List.getElem?_eq_getElem hi, Option.some.injEq] at hline
      rw [hat, List.get_eq_getElem, hline, ← hraw]
    · rw [hat]
      rfl
  · cases hline : translated.lines[i]? with
    | none =>
      rw [List.getElem?_eq_none_iff, hlen]
      exact List.getElem?_eq_none_iff.mp hline
    | some line =>
      obtain ⟨new, hnew, hat⟩ := spliceRepairs_at hsplice hline
      rw [hnew, (if_neg hi).mp hat]
  · -- as many texts as cues were sent, so the last one is used too
    have hprefix := spliceRepairs_texts hsplice
    have hlength : texts.length = (sentRepairs translated failing).length := by
      rw [hanswered.length, List.length_map, ← map_fst_repairCues hcues, List.length_map]
    have hat : ∀ line ∈ out.zipIdx.filter fun line => line.2 ∈ sentRepairs translated failing,
        out[line.2]? = some line.1 := fun line hline =>
      List.mem_zipIdx_iff_getElem?.mp (List.mem_of_mem_filter hline)
    generalize out.zipIdx.filter (fun line => line.2 ∈ sentRepairs translated failing) = used at *
    have htexts : used.map (fun line => line.1.text) = texts :=
      hprefix.eq_of_length (by rw [hlength, List.length_map, ← hplaces, List.length_map])
    rw [← htexts, ← hplaces, List.map_map, List.map_map]
    refine List.map_congr_left fun line hline => ?_
    rw [Function.comp_apply, Function.comp_apply, hat line hline]
    rfl

/-- The lists the gate reports are ascending, and a repair of such a list is a splice. -/
theorem repair_splice_framed (llm : LLMClient) (round check : ℕ) (source translated : SubDoc)
    (settings : TrezarrSettings) (ctx : Context) :
    (∀ properNounAllowlist failure failing,
      validateSubdoc translated source settings properNounAllowlist = .error (.failure failure) →
      failure.failingIndices = some failing → failing.Pairwise (· < ·)) ∧
    ∀ failing out, failing.Pairwise (· < ·) →
      (repairFailingCues llm round failing source translated check settings ctx).result =
        .ok (some out) → RepairSpliced llm round source translated failing out :=
  ⟨fun _ _ failing h hf => validateSubdoc_ascending h failing hf,
    fun _ _ hasc h => repairSpliced_of_ascending hasc h⟩

end Repair

def repairer : LLMClient where
  call _ _ _ := .ok "[1] Chào.\n[2] <<T0>>Tạm biệt.<<T1>>"

/-- The karaoke line between two failing cues is left out of the batch and of the splice. -/
theorem two_scenes_repaired : RepairSpliced repairer 0 twoScenes twoScenes [0, 1, 2]
    [⟨"1", "00:00:01,000", "00:00:02,000", "Chào.", none⟩,
      ⟨"2", "00:00:02,000", "00:00:03,000", "la", some "la"⟩,
      ⟨"3", "00:00:09,000", "00:00:10,000", "<i>Tạm biệt.</i>", none⟩] :=
  (repair_splice_framed repairer 0 9 twoScenes twoScenes {} {}).2 [0, 1, 2] _ (by decide)
    (by decide +kernel)

end Trezarr
