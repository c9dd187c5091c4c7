import Trezarr.Llm.Client

/-! Pass 1 on an endpoint that only answers plain text: what it comes to, and when it raises. -/
namespace Trezarr
open Text Llm

/-- The structured calls of Pass 1, as a client makes them. -/
def analysisCalls (client : Llm.LLMClient AnalysisRequest BibleAnalysis)
    (validateJson : Str → Option BibleAnalysis) : StructuredCalls AnalysisRequest BibleAnalysis where
  call i request := Llm.call client i [request] true none (some request.thinking)
  validateJson := validateJson

/-- A file with the Bible of its series. -/
structure AnalysisInput where
  source : SubDoc
  bible : SeriesBibleDTO
  arrMetadata : ArrMetadata := {}
  episodeKey : Str

def analyzeWith (client : Llm.LLMClient AnalysisRequest BibleAnalysis)
    (validateJson : Str → Option BibleAnalysis) (settings : TrezarrSettings)
    (input : AnalysisInput) : Analyzed :=
  analyzeFile client.mode (analysisCalls client validateJson) input.source input.bible
    input.arrMetadata settings input.episodeKey

/-- Pass 1 ends with an analysis, which may be empty. -/
def Analyzed.Ends (analyzed : Analyzed) : Prop := ∃ analysis, analyzed.result = .ok analysis

def cueTexts (source : SubDoc) : List Str :=
  (source.lines.map SubLine.text).filter (strip · ≠ [])

def analysisRequest (settings : TrezarrSettings) (input : AnalysisInput) (texts : List Str) :
    AnalysisRequest :=
  ⟨texts, input.bible, input.arrMetadata, input.episodeKey, settings.enableReasoningAnalysis⟩

/-- The request of the last tier for the prompt of one chunk. -/
def plainRequest (client : Llm.LLMClient AnalysisRequest BibleAnalysis)
    (request : AnalysisRequest) : ChatRequest AnalysisRequest :=
  ⟨effectiveModel client none, [request], .none,
    effectiveCallKwargs client (some request.thinking)⟩

/-- What the endpoint writes about some chunk is the JSON of an analysis. -/
def WritesJson (client : Llm.LLMClient AnalysisRequest BibleAnalysis)
    (validateJson : Str → Option BibleAnalysis) (settings : TrezarrSettings)
    (input : AnalysisInput) : Prop :=
  ∃ chunk ∈ (pass1Chunks settings.pass1MaxCuesPerChunk (cueTexts input.source)).zipIdx,
    chunk.1 ≠ [] ∧ ∃ text,
      client.endpoint.create chunk.2
        (plainRequest client (analysisRequest settings input chunk.1)) = .ok (some text) ∧
      (validateJson text).isSome

variable {client : Llm.LLMClient AnalysisRequest BibleAnalysis}
  {validateJson : Str → Option BibleAnalysis} {settings : TrezarrSettings} {input : AnalysisInput}

section Chunks

variable {calls : StructuredCalls AnalysisRequest BibleAnalysis}
  {request : List Str → AnalysisRequest} {chunks : List (List Str × ℕ)}

/-- There is something to ask about the chunk, and the content it gets validates. -/
def accepted (calls : StructuredCalls AnalysisRequest BibleAnalysis)
    (request : List Str → AnalysisRequest) (chunk : List Str × ℕ) : Bool :=
  decide (chunk.1 ≠ []) &&
    match calls.call chunk.2 (request chunk.1) with
    | .ok (.content text) => (calls.validateJson text).isSome
    | _ => false

/-- Where every reply is a content, each chunk with cues is accepted or counted as failed. -/
theorem analyzeChunks_content
    (hcontent : ∀ chunk ∈ chunks, chunk.1 ≠ [] →
      ∃ text, calls.call chunk.2 (request chunk.1) = .ok (.content text)) :
    ∀ tally, (analyzeChunks calls request chunks tally).1 = .ok () ∧
      (analyzeChunks calls request chunks tally).2.failed + chunks.countP (accepted calls request) =
        tally.failed + chunks.countP fun chunk => decide (chunk.1 ≠ []) := by
  induction chunks with
  | nil => exact fun tally => ⟨rfl, rfl⟩
  | cons chunk chunks ih =>
    intro tally
    obtain ⟨texts, i⟩ := chunk
    have hrest := ih fun chunk hchunk => hcontent chunk (List.mem_cons_of_mem _ hchunk)
    rw [List.countP_cons, List.countP_cons]
    by_cases hempty : texts = []
    · subst hempty
      exact hrest tally
    · obtain ⟨text, hcall⟩ := hcontent (texts, i) List.mem_cons_self hempty
      have hcall' : calls.call i (request texts) = .ok (.content text) := hcall
      have haccepted : accepted calls request (texts, i) = (calls.validateJson text).isSome := by
        simp [accepted, hempty, hcall']
      rw [haccepted, if_pos (decide_eq_true hempty)]
      simp only [analyzeChunks, if_neg hempty, hcall']
      cases hvalid : calls.validateJson text with
      | some part =>
        obtain ⟨hok, hcount⟩ := hrest { tally with merged := mergeChunk tally.merged part }
        refine ⟨hok, ?_⟩
        rw [Option.isSome_some, if_pos rfl, ← Nat.add_assoc]
        exact (congrArg (· + 1) hcount).trans (Nat.add_assoc _ _ _)
      | none =>
        obtain ⟨hok, hcount⟩ := hrest { tally with failed := tally.failed + 1 }
        refine ⟨hok, hcount.trans ?_⟩
        dsimp only
        omega

end Chunks

section Cues

theorem chunksOf_flatten {α : Type} {limit : ℕ} (hlimit : 0 < limit) (xs : List α) :
    (∀ chunk ∈ chunksOf limit xs, chunk = []) ↔ xs = [] := by
  constructor
  · intro h
    by_contra hne
    have hlen := List.length_pos_of_ne_nil hne
    have hmem : (xs.drop (0 * limit)).take limit ∈ chunksOf limit xs := by
      refine List.mem_map.mpr ⟨0, List.mem_range.mpr (Nat.div_pos ?_ hlimit), rfl⟩
      omega
    have hnil := h _ hmem
    rw [Nat.zero_mul, List.drop_zero, List.take_eq_nil_iff] at hnil
    rcases hnil with hzero | hnil
    · omega
    · exact hne hnil
  · rintro rfl chunk hchunk
    obtain ⟨i, -, rfl⟩ := List.mem_map.mp hchunk
    simp

/-- Some chunk has cues as soon as there are any. -/
theorem pass1Chunks_empty_iff (maxCues : ℤ) (texts : List Str) :
    (∀ chunk ∈ pass1Chunks maxCues texts, chunk = []) ↔ texts = [] := by
  unfold pass1Chunks
  split
  next hpos =>
    have hchunks := @chunksOf_flatten _ maxCues.toNat (by omega) texts
    dsimp only
    split
    next hnil =>
      rw [hnil] at hchunks
      simpa using hchunks
    next => exact hchunks
  next => simp

end Cues

section Ends

theorem countP_fst_zipIdx {α : Type} (p : α → Bool) (xs : List α) :
    xs.zipIdx.countP (fun x => p x.1) = xs.countP p := by
  conv_rhs => rw [← List.zipIdx_map_fst 0 xs, List.countP_map]
  rfl

/-- Where every reply is a content, only a file whose chunks all fail raises. -/
theorem analyzeFile_ends_iff {mode : Str} {calls : StructuredCalls AnalysisRequest BibleAnalysis}
    (henabled : settings.enablePass1Analysis) (hmode : mode ≠ ("text" : Str))
    (hcontent : ∀ i texts, ∃ text,
      calls.call i (analysisRequest settings input texts) = .ok (.content text)) :
    (analyzeFile mode calls input.source input.bible input.arrMetadata settings
        input.episodeKey).Ends ↔
      cueTexts input.source = [] ∨
        ∃ chunk ∈ (pass1Chunks settings.pass1MaxCuesPerChunk (cueTexts input.source)).zipIdx,
          accepted calls (analysisRequest settings input) chunk := by
  obtain ⟨hok, hcount⟩ := @analyzeChunks_content calls (analysisRequest settings input)
    (pass1Chunks settings.pass1MaxCuesPerChunk (cueTexts input.source)).zipIdx
    (fun chunk _ _ => hcontent chunk.2 chunk.1) {}
  rw [countP_fst_zipIdx fun chunk => decide (chunk ≠ [])] at hcount
  have hnone : (pass1Chunks settings.pass1MaxCuesPerChunk (cueTexts input.source)).countP
      (fun chunk => decide (chunk ≠ [])) = 0 ↔ cueTexts input.source = [] := by
    rw [List.countP_eq_zero, ← pass1Chunks_empty_iff settings.pass1MaxCuesPerChunk]
    simp
  have hsome : 0 < (pass1Chunks settings.pass1MaxCuesPerChunk (cueTexts input.source)).zipIdx.countP
      (accepted calls (analysisRequest settings input)) ↔
      ∃ chunk ∈ (pass1Chunks settings.pass1MaxCuesPerChunk (cueTexts input.source)).zipIdx,
        accepted calls (analysisRequest settings input) chunk := List.countP_pos_iff
  rw [← hnone, ← hsome]
  cases hrun : analyzeChunks calls (analysisRequest settings input)
    (pass1Chunks settings.pass1MaxCuesPerChunk (cueTexts input.source)).zipIdx {} with
  | mk result tally =>
    rw [hrun] at hok hcount
    obtain rfl : result = .ok () := hok
    unfold Analyzed.Ends analyzeFile
    rw [if_neg (by simp [henabled]), if_neg hmode]
    delta analysisRequest cueTexts at *
    dsimp only at *
    rw [hrun]
    dsimp only
    split
    next hall =>
      refine iff_of_false (fun h => by obtain ⟨analysis, hanalysis⟩ := h; cases hanalysis) ?_
      omega
    next hnot =>
      refine iff_of_true ⟨_, rfl⟩ ?_
      omega

/-- The one gate for such an endpoint is a mode that is pinned to it. -/
theorem analyzeWith_text (endpoint : Endpoint AnalysisRequest BibleAnalysis)
    (validateJson : Str → Option BibleAnalysis) (input : AnalysisInput)
    (hmode : settings.llmStructuredOutputMode = ("text" : Str)) :
    analyzeWith (.init settings endpoint) validateJson settings input = ⟨.ok {}, []⟩ := by
  unfold analyzeWith analyzeFile
  rw [if_pos (show (Llm.LLMClient.init settings endpoint).mode = _ from hmode), ite_self]

theorem accepted_iff (htext : TextOnly client.endpoint)
    (hschema : client.mode ≠ ("json_schema" : Str)) (hobject : client.mode ≠ ("json_object" : Str))
    {chunk : List Str × ℕ} :
    accepted (analysisCalls client validateJson) (analysisRequest settings input) chunk ↔
      chunk.1 ≠ [] ∧ ∃ text,
        client.endpoint.create chunk.2
          (plainRequest client (analysisRequest settings input chunk.1)) = .ok (some text) ∧
        (validateJson text).isSome := by
  obtain ⟨text, hcreate, hcall⟩ := call_textOnly htext hschema hobject
    (List.cons_ne_nil (analysisRequest settings input chunk.1) [])
  have hcalls : (analysisCalls client validateJson).call chunk.2
      (analysisRequest settings input chunk.1) = .ok (.content text) := hcall
  unfold accepted
  rw [hcalls, Bool.and_eq_true, decide_eq_true_eq]
  refine and_congr_right fun _ => ⟨fun hvalid => ⟨text, hcreate, hvalid⟩, ?_⟩
  rintro ⟨text', hcreate', hvalid⟩
  cases (hcreate.symm.trans hcreate' : (.ok (some text) : Except SdkError (Option Str)) = _)
  exact hvalid

/-- Unless the mode is pinned, a plain text is what Pass 1 parses. -/
theorem analyzeWith_ends_iff (henabled : settings.enablePass1Analysis)
    (hpinned : client.mode ≠ ("text" : Str)) (hschema : client.mode ≠ ("json_schema" : Str))
    (hobject : client.mode ≠ ("json_object" : Str)) (htext : TextOnly client.endpoint) :
    (analyzeWith client validateJson settings input).Ends ↔
      cueTexts input.source = [] ∨ WritesJson client validateJson settings input := by
  have hcontent : ∀ i texts, ∃ text, (analysisCalls client validateJson).call i
      (analysisRequest settings input texts) = .ok (.content text) := by
    intro i texts
    obtain ⟨text, -, hcall⟩ := call_textOnly htext hschema hobject
      (List.cons_ne_nil (analysisRequest settings input texts) [])
    exact ⟨text, hcall⟩
  refine (analyzeFile_ends_iff henabled hpinned hcontent).trans ?_
  exact or_congr_right (exists_congr fun chunk => and_congr_right fun _ =>
    accepted_iff htext hschema hobject)

theorem analyzeWith_disabled (h : ¬ settings.enablePass1Analysis) :
    analyzeWith client validateJson settings input = ⟨.ok {}, []⟩ := by
  unfold analyzeWith analyzeFile
  exact if_pos (by simpa using h)

theorem pass1_textOnly_iff (endpoint : Endpoint AnalysisRequest BibleAnalysis)
    (validateJson : Str → Option BibleAnalysis) (settings : TrezarrSettings) (input : AnalysisInput)
    (hmode : settings.llmStructuredOutputMode = ("auto" : Str)) (htext : TextOnly endpoint) :
    (analyzeWith (.init settings endpoint) validateJson settings input).Ends ↔
      ¬ settings.enablePass1Analysis ∨ cueTexts input.source = [] ∨
        WritesJson (.init settings endpoint) validateJson settings input := by
  have hauto : (Llm.LLMClient.init settings endpoint).mode = ("auto" : Str) := hmode
  by_cases henabled : settings.enablePass1Analysis
  · rw [or_iff_right (not_not_intro henabled)]
    apply analyzeWith_ends_iff henabled
    · rw [hauto]
      decide
    · rw [hauto]
      decide
    · rw [hauto]
      decide
    · exact htext
  · exact iff_of_true ⟨{}, congrArg Analyzed.result (analyzeWith_disabled henabled)⟩ (.inl henabled)

end Ends

section Plain

/-- An endpoint without request modes, which answers everything with one text. -/
def plainEndpoint (text : Str) : Endpoint AnalysisRequest BibleAnalysis where
  parse _ _ := .error (.api .badRequest "400")
  create _ request :=
    if request.format = .jsonObject then .error (.api .badRequest "400") else .ok (some text)

theorem plainEndpoint_textOnly (text : Str) : TextOnly (plainEndpoint text) where
  schema _ _ _ := ⟨_, rfl, rfl⟩
  object _ _ h := ⟨_, if_pos h, rfl⟩
  text _ request h := ⟨text, if_neg (by rw [h]; decide)⟩

/-- An object without members is an analysis in which nothing is found. -/
def validateEmpty (text : Str) : Option BibleAnalysis :=
  if text = ("\x7b\x7d" : Str) then some {} else none

def greeting : AnalysisInput where
  source :=
    { lines := [⟨"1", "00:00:01,000", "00:00:02,000", "Hi.", none⟩], encoding := "utf-8"
      lineEnding := "\n", separators := [] }
  bible := { id := 1 }
  episodeKey := "S01E01"

theorem greeting_ends :
    (analyzeWith (.init {} (plainEndpoint "\x7b\x7d")) validateEmpty {} greeting).Ends := by
  rw [pass1_textOnly_iff _ _ _ _ rfl (plainEndpoint_textOnly _)]
  refine .inr (.inr ⟨(["Hi.".toList], 0), ?_, ?_, "\x7b\x7d", rfl, rfl⟩)
  · decide
  · decide

/-- Prose from a text-only endpoint puts the first file of a fresh client in quarantine. -/
theorem greeting_raises : TextOnly (plainEndpoint "Sure!") ∧
    (analyzeWith (.init {} (plainEndpoint "Sure!")) validateEmpty {} greeting).result =
      .error (.analysis (.chunks 1 "S01E01")) :=
  ⟨plainEndpoint_textOnly _, by decide⟩

end Plain

end Trezarr
