import Trezarr.Translate.Assemble
import Trezarr.Translate.Batch

/-! Cues the gate rejected, translated once more. -/
namespace Trezarr
open Text Fallible

def repairableChecks : List ℕ := [3, 9, 10, 11, 12]

def repairDirective (check : ℕ) : Option Str :=
  match check with
  | 3 => some ("One or more lines lacked Vietnamese diacritics (possible source-language " ++
      "passthrough). Translate EVERY line in full Vietnamese with proper diacritics.")
  | 9 => some ("One or more lines contained CJK/Hangul/Kana script (source leak). Translate ALL " ++
      "script characters into Vietnamese — output NO CJK, Hangul, or Kana codepoints.")
  | 10 => some ("One or more lines appear to be source-language passthrough (no Vietnamese " ++
      "diacritics, all tokens matching source). Translate fully into Vietnamese.")
  | 11 => some ("A prior attempt left an English honorific+name untranslated (e.g. 'Miss Mei', " ++
      "'Mr. Han'). Render EVERY name in its Vietnamese Hán-Việt form and EVERY honorific/title as " ++
      "a non-directed kinship/address word (cô / cô nương / tiền bối / trưởng lão / các hạ / …). " ++
      "NEVER output an English honorific like 'Miss/Mr/Elder + Name'.")
  | 12 => some ("A prior attempt added an English-gloss parenthetical (e.g. '(Miss Mei\\'s " ++
      "brother)'). NEVER add parentheticals not in the source. Remove any English-gloss " ++
      "parenthetical from the output.")
  | _ => none

/-- The pair's terms when both names of an attribution resolve to one. -/
def hintOf (nameToCharId : Dict Str ℕ) (resolvedMap : Dict Pair Terms) (attr : LineAttribution) :
    Option Terms :=
  match resolveCharId nameToCharId attr.speaker, resolveCharId nameToCharId attr.addressee with
  | some spk, some addr => resolvedMap.get? (spk, addr)
  | _, _ => none

/-- Hints by the number of the line, counted from one; no hints are none at all. -/
def hintsOf (nameToCharId : Dict Str ℕ) (resolvedMap : Dict Pair Terms)
    (attrs : List (Option LineAttribution)) : Option (Dict ℕ Terms) :=
  let hints := (attrs.zipIdx 1).filterMap fun (attr, i) =>
    (attr.bind (hintOf nameToCharId resolvedMap)).map fun hint => (i, hint)
  if hints = [] then none else some (Dict.ofList hints)

/-- What translation knows of the series besides the document. -/
structure Context where
  bible : Option SeriesBibleDTO := none
  resolvedMap : Dict Pair Terms := Dict.empty
  flatAttributions : List LineAttribution := []

namespace Context

def glossary (ctx : Context) : Option (List Str) := ctx.bible.map buildGlossaryLines

def register (ctx : Context) : Option Str := ctx.bible.bind SeriesBibleDTO.registerValue

def allowlist (ctx : Context) : Option (List Str) := ctx.bible.map properNounAllowlist

/-- The names of the repair's hints, kept only beside attributions. -/
def repairNames (ctx : Context) : Dict Str ℕ :=
  match ctx.bible with
  | some bible => if ctx.flatAttributions ≠ [] then nameToId bible else Dict.empty
  | none => Dict.empty

end Context

/-- The attributions are looked up by the place of the cue in the whole document. -/
def repairHints (ctx : Context) (indices : List ℕ) : Option (Dict ℕ Terms) :=
  if ctx.flatAttributions = [] ∨ ctx.repairNames.entries = [] ∨ ctx.resolvedMap.entries = [] then
    none
  else hintsOf ctx.repairNames ctx.resolvedMap
    (indices.map fun docIdx => ctx.flatAttributions[docIdx]?)

def lineAt (doc : SubDoc) (i : ℕ) : Except PyError SubLine :=
  match doc.lines[i]? with
  | some line => .ok line
  | none => .error .indexError

/-- The failing cues that are not raw, with their place. -/
def repairCues (source translated : SubDoc) : List ℕ → Except PyError (List (ℕ × SubLine))
  | [] => .ok []
  | docIdx :: indices => do
    let line ← lineAt translated docIdx
    if line.raw.isSome then repairCues source translated indices
    else
      let src ← lineAt source docIdx
      return (docIdx, src) :: (← repairCues source translated indices)

/-- New texts for the repaired cues, in the order of the document. -/
def spliceRepairs (repaired : List ℕ) :
    List (SubLine × ℕ) → List Str → Except PyError (List SubLine)
  | [], _ => .ok []
  | (line, i) :: lines, texts =>
    if i ∈ repaired then
      match texts with
      | [] => .error .stopIteration
      | text :: texts => do
        return { line with text := text, raw := none } :: (← spliceRepairs repaired lines texts)
    else do return line :: (← spliceRepairs repaired lines texts)

/-- A repaired cue gets a new text, any other cue stays. -/
theorem spliceRepairs_frames {repaired : List ℕ} {lines : List (SubLine × ℕ)} :
    ∀ {texts : List Str} {out : List SubLine}, spliceRepairs repaired lines texts = .ok out →
      List.Forall₂ (fun line new => if line.2 ∈ repaired then
        new = { line.1 with text := new.text, raw := none } else new = line.1) lines out := by
  induction lines with
  | nil =>
    intro texts out h
    cases h
    exact .nil
  | cons line lines ih =>
    intro texts out h
    obtain ⟨line, i⟩ := line
    simp only [spliceRepairs] at h
    split at h
    · next hmem =>
      split at h
      · cases h
      · obtain ⟨rest, hrest, hout⟩ := bind_ok h
        cases hout
        exact .cons (if_pos hmem ▸ rfl) (ih hrest)
    · next hmem =>
      obtain ⟨rest, hrest, hout⟩ := bind_ok h
      cases hout
      exact .cons (if_neg hmem ▸ rfl) (ih hrest)

/-- No lines when there is nothing to repair or no reply is accepted. -/
def repairFailingCues (llm : LLMClient) (round : ℕ) (failingIndices : List ℕ)
    (source translated : SubDoc) (check : ℕ) (settings : TrezarrSettings) (ctx : Context) :
    Called (Option (List SubLine)) :=
  match repairCues source translated failingIndices with
  | .error err => ⟨.error err, 0, []⟩
  | .ok [] => ⟨.ok none, 0, []⟩
  | .ok cues =>
    let batch : Batch := ⟨cues.map Prod.snd, [], [], none⟩
    let indices := cues.map Prod.fst
    let run := translateBatch llm (.repair round) settings batch (repairHints ctx indices)
      ctx.glossary ctx.register (repairDirective check)
    match run.result with
    | .error (.batchValidation _) => ⟨.ok none, run.calls, run.failures⟩
    | .error err => ⟨.error err, run.calls, run.failures⟩
    | .ok texts =>
      ⟨(spliceRepairs indices translated.lines.zipIdx texts).map some, run.calls, run.failures⟩

end Trezarr
