import Trezarr.Bible.TextOnly

/-! What the analyses of the chunks of one file come to. -/
namespace Trezarr
open Text

/-- The analysis in a reply, where it is one. -/
def analysisOf (calls : StructuredCalls AnalysisRequest BibleAnalysis) :
    Except PyError (Structured BibleAnalysis) → Option BibleAnalysis
  | .ok (.parsed part) => some part
  | .ok (.content text) => calls.validateJson text
  | .error _ => none

/-- The analysis of a chunk that has texts and whose reply parses. -/
def partOf (calls : StructuredCalls AnalysisRequest BibleAnalysis)
    (request : List Str → AnalysisRequest) (chunk : List Str × ℕ) : Option BibleAnalysis :=
  if chunk.1 = [] then none else analysisOf calls (calls.call chunk.2 (request chunk.1))

/-- Each key once, with the first entry given for it. -/
structure KeepsFirst {α κ : Type} [DecidableEq κ] (key : α → κ) (given merged : List α) :
    Prop where
  nodup : (merged.map key).Nodup
  first : ∀ k, merged.find? (fun a => key a = k) = given.find? fun a => key a = k

def characterKey (c : CharacterInference) : Str := nameKey c.originalLatinName

/-- The first non-empty value of a field, or else the field of the first entry. -/
def firstGiven (field : CharacterInference → Option Str) (first : CharacterInference)
    (later : List CharacterInference) : Option Str :=
  (((first :: later).map field).find? isTruthy).getD (field first)

/-- The first entry of a name, its fields filled from the later ones. -/
def filledFrom : List CharacterInference → Option CharacterInference
  | [] => none
  | first :: later => some
    { first with
      vietnameseRendering := firstGiven CharacterInference.vietnameseRendering first later
      gender := firstGiven CharacterInference.gender first later
      roughAge := firstGiven CharacterInference.roughAge first later
      role := firstGiven CharacterInference.role first later
      originalScriptName := firstGiven CharacterInference.originalScriptName first later }

/-- The parts of one file merged, in the order of its chunks. -/
structure Merged (parts : List BibleAnalysis) (merged : BibleAnalysis) : Prop where
  register : merged.registerValue =
    ((parts.map BibleAnalysis.registerValue).find? fun value =>
      strip (value.getD []) ≠ []).getD none
  names : (merged.characters.map characterKey).Nodup
  named : ∀ c ∈ merged.characters, characterKey c ≠ []
  characters : ∀ k ≠ [], merged.characters.find? (fun c => characterKey c = k) =
    filledFrom ((parts.flatMap BibleAnalysis.characters).filter fun c => characterKey c = k)
  terms : KeepsFirst termKey
    ((parts.flatMap BibleAnalysis.terms).filter fun t => termKey t ≠ []) merged.terms
  pairs : KeepsFirst pairKey (parts.flatMap BibleAnalysis.addressMap) merged.addressMap
  events : KeepsFirst eventKey (parts.flatMap BibleAnalysis.relationshipEvents)
    merged.relationshipEvents

section First

variable {α κ : Type} [DecidableEq κ] {key : α → κ}

omit [DecidableEq κ] in
theorem nodup_concat {merged : List α} {a : α} (h : (merged.map key).Nodup)
    (hnew : key a ∉ merged.map key) : ((merged ++ [a]).map key).Nodup := by
  rw [List.map_append, List.map_singleton]
  refine List.nodup_append.mpr ⟨h, List.nodup_singleton _, fun k hk k' hk' he => ?_⟩
  rw [List.mem_singleton] at hk'
  exact hnew (hk' ▸ he ▸ hk)

theorem nodup_mergeFirst {merged : List α} (h : (merged.map key).Nodup) (a : α) :
    ((mergeFirst key merged a).map key).Nodup := by
  unfold mergeFirst
  split
  · exact h
  · next hnew => exact nodup_concat h hnew

theorem find?_mergeFirst (merged : List α) (a : α) (k : κ) :
    (mergeFirst key merged a).find? (fun b => key b = k) =
      (merged.find? fun b => key b = k).or ([a].find? fun b => key b = k) := by
  unfold mergeFirst
  split
  · next hold =>
    by_cases hk : key a = k
    · obtain ⟨b, hb, hba⟩ := List.mem_map.mp hold
      have hsome : (merged.find? fun b => key b = k).isSome = true :=
        List.find?_isSome.mpr ⟨b, hb, decide_eq_true (hba.trans hk)⟩
      rw [Option.or_of_isSome hsome]
    · have hnone : [a].find? (fun b => key b = k) = none := by simp [hk]
      rw [hnone, Option.or_none]
  · rw [List.find?_append]

theorem keepsFirst_foldl (given : List α) :
    KeepsFirst key given (given.foldl (mergeFirst key) []) := by
  have hfold : ∀ merged : List α, (merged.map key).Nodup →
      ((given.foldl (mergeFirst key) merged).map key).Nodup ∧
      ∀ k, (given.foldl (mergeFirst key) merged).find? (fun b => key b = k) =
        (merged.find? fun b => key b = k).or (given.find? fun b => key b = k) := by
    induction given with
    | nil => exact fun merged h => ⟨h, fun k => (Option.or_none).symm⟩
    | cons a given ih =>
      intro merged h
      obtain ⟨hnodup, hfind⟩ := ih _ (nodup_mergeFirst h a)
      refine ⟨hnodup, fun k => ?_⟩
      rw [List.foldl_cons, hfind, find?_mergeFirst, Option.or_assoc, ← List.find?_append]
      rfl
  obtain ⟨hnodup, hfind⟩ := hfold [] List.nodup_nil
  exact ⟨hnodup, fun k => by rw [hfind, List.find?_nil, Option.none_or]⟩

end First

section Characters

variable {merged given : List CharacterInference} {c kept : CharacterInference} {k : Str}

theorem map_key_fill (merged : List CharacterInference) (c : CharacterInference) :
    (merged.map fun kept => if characterKey kept = characterKey c then fillCharacter kept c
      else kept).map characterKey = merged.map characterKey := by
  rw [List.map_map]
  refine List.map_congr_left fun kept _ => ?_
  rw [Function.comp_apply]
  split <;> rfl

theorem key_of_find? (h : merged.find? (fun kept => characterKey kept = k) = some kept) :
    characterKey kept = k := by
  simpa using List.find?_some h

/-- The entry of a name so far, with one more that was given for it. -/
def absorb (kept : Option CharacterInference) (c : CharacterInference) :
    Option CharacterInference :=
  some (match kept with
    | none => c
    | some kept => fillCharacter kept c)

theorem find?_mergeCharacter (hk : k ≠ []) (merged : List CharacterInference)
    (c : CharacterInference) :
    (mergeCharacter merged c).find? (fun kept => characterKey kept = k) =
      if characterKey c = k then absorb (merged.find? fun kept => characterKey kept = k) c
      else merged.find? fun kept => characterKey kept = k := by
  unfold mergeCharacter
  dsimp only
  split
  · next hblank =>
    rw [if_neg fun he => hk (he.symm.trans hblank)]
  · split
    · next hold =>
      rw [List.find?_map]
      have hsame : ((fun kept => decide (characterKey kept = k)) ∘ fun kept =>
          if nameKey kept.originalLatinName = nameKey c.originalLatinName then fillCharacter kept c
          else kept) = fun kept => decide (characterKey kept = k) := by
        funext kept
        rw [Function.comp_apply]
        split <;> rfl
      rw [hsame]
      split
      · next hc =>
        obtain ⟨kept, hkept, hkey⟩ := List.mem_map.mp hold
        have hsome : (merged.find? fun kept => characterKey kept = k).isSome = true :=
          List.find?_isSome.mpr ⟨kept, hkept, decide_eq_true (hkey.trans hc)⟩
        obtain ⟨found, hfound⟩ := Option.isSome_iff_exists.mp hsome
        have hfkey : nameKey found.originalLatinName = nameKey c.originalLatinName :=
          (key_of_find? hfound).trans hc.symm
        rw [hfound, Option.map_some, if_pos hfkey]
        rfl
      · next hc =>
        cases hfound : merged.find? fun kept => characterKey kept = k with
        | none => rfl
        | some found =>
          have hfkey : nameKey found.originalLatinName ≠ nameKey c.originalLatinName :=
            fun he => hc (he.symm.trans (key_of_find? hfound))
          rw [Option.map_some, if_neg hfkey]
    · next hnew =>
      rw [List.find?_append]
      by_cases hc : characterKey c = k
      · have hnone : merged.find? (fun kept => characterKey kept = k) = none := by
          refine List.find?_eq_none.mpr fun kept hkept hkey => hnew ?_
          exact List.mem_map.mpr ⟨kept, hkept, (of_decide_eq_true hkey).trans hc.symm⟩
        rw [if_pos hc, hnone]
        simp [absorb, hc]
      · rw [if_neg hc]
        simp [hc]

theorem nodup_mergeCharacter (h : (merged.map characterKey).Nodup)
    (hnamed : ∀ kept ∈ merged, characterKey kept ≠ []) (c : CharacterInference) :
    ((mergeCharacter merged c).map characterKey).Nodup ∧
      ∀ kept ∈ mergeCharacter merged c, characterKey kept ≠ [] := by
  unfold mergeCharacter
  dsimp only
  split
  · exact ⟨h, hnamed⟩
  · next hblank =>
    split
    · have hkeys := map_key_fill merged c
      refine ⟨hkeys ▸ h, fun kept hkept => ?_⟩
      obtain ⟨old, hold, hkey⟩ := List.mem_map.mp (hkeys ▸ List.mem_map_of_mem hkept)
      exact hkey ▸ hnamed old hold
    · next hnew =>
      refine ⟨nodup_concat h hnew, fun kept hkept => ?_⟩
      rcases List.mem_append.mp hkept with hold | hlast
      · exact hnamed kept hold
      · rw [List.mem_singleton.mp hlast]
        exact hblank

theorem nodup_foldl_mergeCharacter : ∀ {merged : List CharacterInference},
    (merged.map characterKey).Nodup → (∀ kept ∈ merged, characterKey kept ≠ []) →
    ((given.foldl mergeCharacter merged).map characterKey).Nodup ∧
      ∀ kept ∈ given.foldl mergeCharacter merged, characterKey kept ≠ [] := by
  induction given with
  | nil => exact fun h hnamed => ⟨h, hnamed⟩
  | cons c given ih =>
    intro merged h hnamed
    obtain ⟨h, hnamed⟩ := nodup_mergeCharacter h hnamed c
    exact ih h hnamed

theorem find?_foldl_mergeCharacter (hk : k ≠ []) :
    ∀ merged : List CharacterInference,
      (given.foldl mergeCharacter merged).find? (fun kept => characterKey kept = k) =
        (given.filter fun c => characterKey c = k).foldl absorb
          (merged.find? fun kept => characterKey kept = k) := by
  induction given with
  | nil => exact fun _ => rfl
  | cons c given ih =>
    intro merged
    rw [List.foldl_cons, ih, find?_mergeCharacter hk, List.filter_cons]
    by_cases hc : characterKey c = k
    · rw [if_pos hc, if_pos (decide_eq_true hc), List.foldl_cons]
    · rw [if_neg hc, if_neg (by simpa using hc)]

/-- Filling a field before or after the search for its first value comes to the same. -/
theorem find?_fillField (kept new : Option Str) (rest : List (Option Str)) :
    ((fillField kept new :: rest).find? isTruthy).getD (fillField kept new) =
      ((kept :: new :: rest).find? isTruthy).getD kept := by
  cases hkept : isTruthy kept with
  | true => simp [fillField, hkept]
  | false =>
    cases hnew : isTruthy new with
    | true => simp [fillField, hkept, hnew]
    | false => simp [fillField, hkept, hnew]

theorem filled_fillCharacter (first c : CharacterInference) (later : List CharacterInference) :
    filledFrom (fillCharacter first c :: later) = filledFrom (first :: c :: later) := by
  have hfield : ∀ field : CharacterInference → Option Str,
      field (fillCharacter first c) = fillField (field first) (field c) →
      firstGiven field (fillCharacter first c) later = firstGiven field first (c :: later) := by
    intro field h
    rw [firstGiven, firstGiven, List.map_cons, List.map_cons, List.map_cons, h]
    exact find?_fillField _ _ _
  rw [filledFrom, filledFrom, hfield CharacterInference.vietnameseRendering rfl,
    hfield CharacterInference.gender rfl, hfield CharacterInference.roughAge rfl,
    hfield CharacterInference.role rfl, hfield CharacterInference.originalScriptName rfl]
  rfl

theorem firstGiven_nil (field : CharacterInference → Option Str) (first : CharacterInference) :
    firstGiven field first [] = field first := by
  cases h : isTruthy (field first) <;> simp [firstGiven, h]

theorem foldl_absorb (given : List CharacterInference) :
    given.foldl absorb none = filledFrom given := by
  cases given with
  | nil => rfl
  | cons first later =>
    rw [List.foldl_cons]
    change later.foldl absorb (some first) = _
    induction later generalizing first with
    | nil => simp only [List.foldl_nil, filledFrom, firstGiven_nil]
    | cons c later ih => rw [List.foldl_cons, absorb, ih, filled_fillCharacter]

end Characters

section Parts

variable {parts : List BibleAnalysis}

theorem foldl_mergeChunk_register : ∀ merged : BibleAnalysis,
    (parts.foldl mergeChunk merged).registerValue =
      ((merged.registerValue :: parts.map BibleAnalysis.registerValue).find? fun value =>
        strip (value.getD []) ≠ []).getD merged.registerValue := by
  induction parts with
  | nil =>
    intro merged
    by_cases h : strip (merged.registerValue.getD []) = [] <;> simp [h]
  | cons part parts ih =>
    intro merged
    have hstep : (mergeChunk merged part).registerValue =
        if strip (merged.registerValue.getD []) = [] ∧ strip (part.registerValue.getD []) ≠ [] then
          part.registerValue
        else merged.registerValue := rfl
    rw [List.foldl_cons, ih, hstep, List.map_cons]
    by_cases hkept : strip (merged.registerValue.getD []) = []
    · by_cases hnew : strip (part.registerValue.getD []) = [] <;> simp [hkept, hnew]
    · simp [hkept]

theorem foldl_mergeChunk : ∀ merged : BibleAnalysis,
    (parts.foldl mergeChunk merged).characters =
        (parts.flatMap BibleAnalysis.characters).foldl mergeCharacter merged.characters ∧
      (parts.foldl mergeChunk merged).terms =
        ((parts.flatMap BibleAnalysis.terms).filter fun t => termKey t ≠ []).foldl
          (mergeFirst termKey) merged.terms ∧
      (parts.foldl mergeChunk merged).addressMap =
        (parts.flatMap BibleAnalysis.addressMap).foldl (mergeFirst pairKey) merged.addressMap ∧
      (parts.foldl mergeChunk merged).relationshipEvents =
        (parts.flatMap BibleAnalysis.relationshipEvents).foldl (mergeFirst eventKey)
          merged.relationshipEvents := by
  induction parts with
  | nil => exact fun _ => ⟨rfl, rfl, rfl, rfl⟩
  | cons part parts ih =>
    intro merged
    obtain ⟨hcharacters, hterms, hpairs, hevents⟩ := ih (mergeChunk merged part)
    simp only [List.foldl_cons, List.flatMap_cons, List.filter_append, List.foldl_append]
    exact ⟨hcharacters, hterms, hpairs, hevents⟩

/-- The chunks that parsed, merged one after another, come to the first of everything. -/
theorem merged_foldl (parts : List BibleAnalysis) : Merged parts (parts.foldl mergeChunk {}) := by
  obtain ⟨hcharacters, hterms, hpairs, hevents⟩ := @foldl_mergeChunk parts {}
  obtain ⟨hnames, hnamed⟩ := @nodup_foldl_mergeCharacter
    (parts.flatMap BibleAnalysis.characters) [] List.nodup_nil nofun
  refine ⟨?_, hcharacters ▸ hnames, hcharacters ▸ hnamed, fun k hk => ?_,
    hterms ▸ keepsFirst_foldl _, hpairs ▸ keepsFirst_foldl _, hevents ▸ keepsFirst_foldl _⟩
  · rw [foldl_mergeChunk_register]
    rfl
  · rw [hcharacters, find?_foldl_mergeCharacter hk]
    exact foldl_absorb _

end Parts

section Run

variable {calls : StructuredCalls AnalysisRequest BibleAnalysis}
  {request : List Str → AnalysisRequest} {chunks : List (List Str × ℕ)}

/-- A call that does not answer with an analysis or a text fails to parse what it got. -/
def OnlyParses (calls : StructuredCalls AnalysisRequest BibleAnalysis)
    (request : List Str → AnalysisRequest) : Prop :=
  ∀ i texts err, calls.call i (request texts) = .error err → err = .validationError

/-- A run that merged the chunks that parse and counted those that do not. -/
structure ChunksRun (calls : StructuredCalls AnalysisRequest BibleAnalysis)
    (request : List Str → AnalysisRequest) (chunks : List (List Str × ℕ)) (tally : Tally)
    (out : Except PyError Unit × Tally) : Prop where
  ok : out.1 = .ok ()
  merged : out.2.merged = (chunks.filterMap (partOf calls request)).foldl mergeChunk tally.merged
  failed : out.2.failed + (chunks.filterMap (partOf calls request)).length =
    tally.failed + chunks.countP fun chunk => decide (chunk.1 ≠ [])

theorem ChunksRun.parsed {chunk : List Str × ℕ} {part : BibleAnalysis} {tally : Tally}
    {out : Except PyError Unit × Tally} (hne : chunk.1 ≠ [])
    (hpart : partOf calls request chunk = some part)
    (h : ChunksRun calls request chunks { tally with merged := mergeChunk tally.merged part } out) :
    ChunksRun calls request (chunk :: chunks) tally out where
  ok := h.ok
  merged := by
    rw [h.merged, List.filterMap_cons_some hpart]
    rfl
  failed := by
    have hfailed := h.failed
    rw [List.filterMap_cons_some hpart, List.length_cons,
      List.countP_cons_of_pos (by simpa using hne)]
    dsimp only at hfailed
    omega

theorem ChunksRun.missed {chunk : List Str × ℕ} {tally : Tally} {failures : List PyError}
    {out : Except PyError Unit × Tally} (hne : chunk.1 ≠ [])
    (hpart : partOf calls request chunk = none)
    (h : ChunksRun calls request chunks
      { tally with failed := tally.failed + 1, failures := failures } out) :
    ChunksRun calls request (chunk :: chunks) tally out where
  ok := h.ok
  merged := by
    rw [h.merged, List.filterMap_cons_none hpart]
  failed := by
    have hfailed := h.failed
    rw [List.filterMap_cons_none hpart, List.countP_cons_of_pos (by simpa using hne)]
    dsimp only at hfailed
    omega

theorem analyzeChunks_run (h : OnlyParses calls request) : ∀ tally : Tally,
    ChunksRun calls request chunks tally (analyzeChunks calls request chunks tally) := by
  induction chunks with
  | nil => exact fun _ => ⟨rfl, rfl, rfl⟩
  | cons chunk chunks ih =>
    intro tally
    obtain ⟨texts, i⟩ := chunk
    by_cases hempty : texts = []
    · have hpart : partOf calls request (texts, i) = none := if_pos hempty
      obtain ⟨hok, hmerged, hfailed⟩ := ih tally
      rw [analyzeChunks, if_pos hempty]
      refine ⟨hok, ?_, ?_⟩
      · rw [hmerged, List.filterMap_cons_none hpart]
      · rw [List.filterMap_cons_none hpart, List.countP_cons_of_neg (by simpa using hempty)]
        exact hfailed
    · have hpart : partOf calls request (texts, i) =
          analysisOf calls (calls.call i (request texts)) := if_neg hempty
      rw [analyzeChunks, if_neg hempty]
      rcases hcall : calls.call i (request texts) with err | ⟨part⟩ | ⟨text⟩
      · obtain rfl := h i texts err hcall
        exact .missed hempty (hpart.trans (by rw [hcall]; rfl)) (ih _)
      · exact .parsed hempty (hpart.trans (by rw [hcall]; rfl)) (ih _)
      · dsimp only
        cases hvalid : calls.validateJson text with
        | none => exact .missed hempty (hpart.trans (by rw [hcall]; exact hvalid)) (ih _)
        | some part => exact .parsed hempty (hpart.trans (by rw [hcall]; exact hvalid)) (ih _)

end Run

section Chunks

theorem flatten_windows {α : Type} (limit : ℕ) (xs : List α) (n : ℕ) :
    ((List.range n).map fun i => (xs.drop (i * limit)).take limit).flatten =
      xs.take (n * limit) := by
  induction n with
  | zero => simp
  | succ n ih =>
    rw [List.range_succ, List.map_append, List.flatten_append, ih, Nat.succ_mul, List.take_add]
    simp

theorem flatten_chunksOf {α : Type} {limit : ℕ} (h : 0 < limit) (xs : List α) :
    (chunksOf limit xs).flatten = xs := by
  rw [chunksOf, flatten_windows, List.take_of_length_le]
  have hdiv := Nat.div_add_mod (xs.length + limit - 1) limit
  have hmod := Nat.mod_lt (xs.length + limit - 1) h
  rw [Nat.mul_comm] at hdiv
  omega

theorem flatten_pass1Chunks (maxCues : ℤ) (texts : List Str) :
    (pass1Chunks maxCues texts).flatten = texts := by
  unfold pass1Chunks
  split
  · next hpos =>
    have hflatten := @flatten_chunksOf _ maxCues.toNat (by omega) texts
    dsimp only
    split
    · next hnil =>
      rw [hnil] at hflatten
      exact hflatten
    · exact hflatten
  · simp

theorem length_pass1Chunks {maxCues : ℤ} {texts chunk : List Str} (h : 0 < maxCues)
    (hchunk : chunk ∈ pass1Chunks maxCues texts) : (chunk.length : ℤ) ≤ maxCues := by
  unfold pass1Chunks at hchunk
  rw [if_pos h] at hchunk
  dsimp only at hchunk
  split at hchunk
  · rw [List.mem_singleton.mp hchunk]
    exact h.le
  · obtain ⟨i, -, rfl⟩ := List.mem_map.mp hchunk
    have := List.length_take_le maxCues.toNat (texts.drop (i * maxCues.toNat))
    omega

end Chunks

section File

variable {settings : TrezarrSettings} {input : AnalysisInput}
  {calls : StructuredCalls AnalysisRequest BibleAnalysis} {mode : Str}

/-- The chunks of a file, numbered as they are asked about. -/
def chunksOfFile (settings : TrezarrSettings) (input : AnalysisInput) : List (List Str × ℕ) :=
  (pass1Chunks settings.pass1MaxCuesPerChunk (cueTexts input.source)).zipIdx

/-- Chunks with texts there are, and none of them parses. -/
def AllFail (settings : TrezarrSettings) (input : AnalysisInput)
    (calls : StructuredCalls AnalysisRequest BibleAnalysis) : Prop :=
  (∃ chunk ∈ chunksOfFile settings input, chunk.1 ≠ []) ∧
    ∀ chunk ∈ chunksOfFile settings input,
      partOf calls (analysisRequest settings input) chunk = none

theorem analyzeFile_run (henabled : settings.enablePass1Analysis = true)
    (hmode : mode ≠ ("text" : Str)) (hreplies : OnlyParses calls (analysisRequest settings input)) :
    ∃ tally, ChunksRun calls (analysisRequest settings input) (chunksOfFile settings input) {}
        (.ok (), tally) ∧
      (analyzeFile mode calls input.source input.bible input.arrMetadata settings
        input.episodeKey).result =
        if 0 < (chunksOfFile settings input).countP (fun chunk => decide (chunk.1 ≠ [])) ∧
            tally.failed = (chunksOfFile settings input).countP fun chunk => decide (chunk.1 ≠ [])
        then .error (.analysis (.chunks tally.failed input.episodeKey)) else .ok tally.merged := by
  have hrun := @analyzeChunks_run calls (analysisRequest settings input)
    (chunksOfFile settings input) hreplies {}
  cases hout : analyzeChunks calls (analysisRequest settings input)
    (chunksOfFile settings input) {} with
  | mk result tally =>
    rw [hout] at hrun
    obtain rfl : result = .ok () := hrun.ok
    refine ⟨tally, hrun, ?_⟩
    unfold analyzeFile
    rw [if_neg (by simp [henabled]), if_neg hmode, chunksOfFile,
      countP_fst_zipIdx fun chunk => decide (chunk ≠ [])]
    delta analysisRequest chunksOfFile cueTexts at *
    dsimp only at *
    rw [hout]
    dsimp only
    split <;> rfl

theorem allFail_iff {tally : Tally} {result : Except PyError Unit}
    (h : ChunksRun calls (analysisRequest settings input) (chunksOfFile settings input) {}
      (result, tally)) : AllFail settings input calls ↔
      0 < (chunksOfFile settings input).countP (fun chunk => decide (chunk.1 ≠ [])) ∧
        tally.failed = (chunksOfFile settings input).countP fun chunk => decide (chunk.1 ≠ []) := by
  have hfailed := h.failed
  dsimp only at hfailed
  refine and_congr ?_ ?_
  · rw [List.countP_pos_iff]
    simp only [decide_eq_true_eq]
  · rw [← List.filterMap_eq_nil_iff, ← List.length_eq_zero_iff]
    omega

/-- A file raises when all its chunks with texts fail, and is merged from the others if not. -/
structure ChunksMerged (mode : Str) (calls : StructuredCalls AnalysisRequest BibleAnalysis)
    (settings : TrezarrSettings) (input : AnalysisInput) : Prop where
  partition : ((chunksOfFile settings input).map Prod.fst).flatten = cueTexts input.source
  bounded : 0 < settings.pass1MaxCuesPerChunk → ∀ chunk ∈ chunksOfFile settings input,
    (chunk.1.length : ℤ) ≤ settings.pass1MaxCuesPerChunk
  raises : AllFail settings input calls → ∃ failed,
    (analyzeFile mode calls input.source input.bible input.arrMetadata settings
      input.episodeKey).result = .error (.analysis (.chunks failed input.episodeKey))
  merges : ¬ AllFail settings input calls → ∃ merged,
    (analyzeFile mode calls input.source input.bible input.arrMetadata settings
      input.episodeKey).result = .ok merged ∧
    Merged ((chunksOfFile settings input).filterMap
      (partOf calls (analysisRequest settings input))) merged

theorem chunks_merged (henabled : settings.enablePass1Analysis = true)
    (hmode : mode ≠ ("text" : Str)) (hreplies : OnlyParses calls (analysisRequest settings input)) :
    ChunksMerged mode calls settings input := by
  obtain ⟨tally, hrun, hresult⟩ := analyzeFile_run henabled hmode hreplies
  have hfail := allFail_iff hrun
  refine ⟨?_, fun hpos chunk hchunk => ?_, fun h => ?_, fun h => ?_⟩
  · rw [chunksOfFile, List.zipIdx_map_fst, flatten_pass1Chunks]
  · exact length_pass1Chunks hpos (List.fst_mem_of_mem_zipIdx hchunk)
  · rw [hresult, if_pos (hfail.mp h)]
    exact ⟨tally.failed, rfl⟩
  · rw [hresult, if_neg fun hc => h (hfail.mpr hc)]
    refine ⟨tally.merged, rfl, ?_⟩
    have hmerged : tally.merged = _ := hrun.merged
    rw [hmerged]
    exact merged_foldl _

end File

def twoCueInput : AnalysisInput where
  source :=
    { lines := [⟨"1", "00:00:01,000", "00:00:02,000", "Han!", none⟩,
        ⟨"2", "00:00:02,000", "00:00:03,000", "Elder Mei.", none⟩]
      encoding := "utf-8"
      lineEnding := "\n"
      separators := [] }
  bible := { id := 1 }
  episodeKey := "S01E01"

/-- The reply on the first chunk is no analysis, and that on the second one is. -/
def secondParses : StructuredCalls AnalysisRequest BibleAnalysis where
  call i _ := if i = 0 then .ok (.content "?")
    else .ok (.parsed { characters := [{ originalLatinName := "Mei", gender := some "female" }] })
  validateJson _ := none

theorem second_merged :
    ChunksMerged "json_object" secondParses { pass1MaxCuesPerChunk := 1 } twoCueInput := by
  refine chunks_merged (by decide) (by decide) fun i texts err h => ?_
  unfold secondParses at h
  dsimp only at h
  split at h <;> cases h

end Trezarr
