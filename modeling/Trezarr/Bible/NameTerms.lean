import Trezarr.Bible.Analyze

/-! The names an episode locks: one rendering for every character that has none yet. -/
namespace Trezarr
open Text

structure NameTermSpec where
  sourceTerm : Str
  vietnameseRendering : Str
  deriving DecidableEq, Repr

def stripped (text : Option Str) : Str := strip (text.getD [])

/-- Hiragana, katakana and the unified ideographs with their first extension. -/
def isCjk (c : Char) : Bool :=
  (0x3040 ≤ c.toNat && c.toNat ≤ 0x9fff) || (0x3400 ≤ c.toNat && c.toNat ≤ 0x4dbf)

def TermDictionary.rendersLocked (t : TermDictionary) : Bool :=
  .vietnameseRendering ∈ t.lockedFields

section Existing

variable (existingTerms : List TermDictionary)

def keyedTerms : List TermDictionary := existingTerms.filter (strip ·.sourceTerm ≠ [])

def existingSources : List Str := (keyedTerms existingTerms).map (nameKey ·.sourceTerm)

def renderingByLatin : Dict Str Str :=
  Dict.ofList (((keyedTerms existingTerms).filter (strip ·.vietnameseRendering ≠ [])).map fun t =>
    (nameKey t.sourceTerm, strip t.vietnameseRendering))

def lockedSources : List Str :=
  ((keyedTerms existingTerms).filter TermDictionary.rendersLocked).map (nameKey ·.sourceTerm)

def lockedCjkRenderings : List Str :=
  ((keyedTerms existingTerms).filter fun t => t.rendersLocked && t.sourceTerm.any isCjk &&
    strip t.vietnameseRendering ≠ []).map (nameKey ·.vietnameseRendering)

end Existing

/-- A character is locked already when its script form is, or when a locked script form has its
rendering. -/
def linkLocked (lockedCjk : List Str) (locked : List Str) (c : CharacterInference) : List Str :=
  let latin := strip c.originalLatinName
  let script := stripped c.originalScriptName
  let reading := stripped c.vietnameseRendering
  if latin = [] then locked
  else if script ≠ [] ∧ lower script ∈ locked then lower latin :: locked
  else if reading ≠ [] ∧ lower reading ∈ lockedCjk then lower latin :: locked
  else locked

/-- The specs so far, the keys they take and the characters that are locked. -/
structure NamePlan where
  specs : List NameTermSpec := []
  seen : List Str := []
  locked : List Str

/-- The stored rendering comes first, then the inferred reading, then the name itself. -/
def canonicalRendering (renderings : Dict Str Str) (c : CharacterInference) : Str :=
  let latin := strip c.originalLatinName
  let reading := stripped c.vietnameseRendering
  match renderings.get? (lower latin) with
  | some rendering => rendering
  | none => if reading ≠ [] then reading else latin

def planName (renderings : Dict Str Str) (existing : List Str) (plan : NamePlan)
    (c : CharacterInference) : NamePlan :=
  let latin := strip c.originalLatinName
  let script := stripped c.originalScriptName
  let source := if script ≠ [] then script else latin
  if latin = [] ∨ lower latin ∈ plan.locked then plan
  else if lower source ∈ existing ∨ lower source ∈ plan.seen then plan
  else
    { specs := plan.specs ++ [⟨source, canonicalRendering renderings c⟩]
      seen := lower source :: plan.seen
      locked := lower latin :: plan.locked }

def planCharacterNameTerms (characters : List CharacterInference)
    (existingTerms : List TermDictionary) : List NameTermSpec :=
  let locked := characters.foldl (linkLocked (lockedCjkRenderings existingTerms))
    (lockedSources existingTerms)
  (characters.foldl (planName (renderingByLatin existingTerms) (existingSources existingTerms))
    { locked }).specs

end Trezarr
