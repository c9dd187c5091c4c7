import Trezarr.Bible.Dto
import Trezarr.Config
import Trezarr.Translate.Reconcile
import Trezarr.Translate.Response

/-! What the model is asked, as data; a reply function may read all of it. -/
namespace Trezarr
open Text Regex Regex.Pattern

structure TranslateRequest where
  texts : List Str
  contextBefore : List Str
  contextAfter : List Str
  pronounHints : Option (Dict ℕ Terms)
  glossary : Option (List Str)
  register : Option Str
  correctionDirective : Option Str

structure ReviewRequest where
  sourceTexts : List Str
  translatedTexts : List Str
  resolvedMap : Dict Pair Terms
  bible : SeriesBibleDTO
  dominantPair : Option Pair

/-- A conversation opens with a request; a rejected reply is kept and followed by its defect. -/
inductive Message
  | translate (request : TranslateRequest)
  | review (request : ReviewRequest)
  | assistant (reply : Str)
  | correction (defect : BatchDefect) (n : ℕ)

/-- The calls of one run are told apart by the batch or repair round they belong to. -/
inductive CallSite
  | pass3 (batch : ℕ)
  | review (batch : ℕ)
  | repair (round : ℕ)
  deriving DecidableEq, Repr

/-- Any behaviour of the endpoint: what it answers or raises at each attempt. -/
structure LLMClient where
  call : CallSite → ℕ → List Message → Except PyError Str

/-- Terms first, then the characters no term covers. -/
def glossaryLines : List (Str × Str) → List Str → List Str → List Str
  | [], _, [] => []
  | [], seen, name :: names =>
    let name := strip name
    if name ≠ [] ∧ lower name ∉ seen then
      (name ++ " → " ++ name) :: glossaryLines [] (lower name :: seen) names
    else glossaryLines [] seen names
  | (src, ren) :: terms, seen, names =>
    let src := strip src
    let ren := strip ren
    if src ≠ [] ∧ ren ≠ [] then
      (src ++ " → " ++ ren) :: glossaryLines terms (lower src :: seen) names
    else glossaryLines terms seen names

def buildGlossaryLines (bible : SeriesBibleDTO) : List Str :=
  glossaryLines (bible.terms.map fun t => (t.sourceTerm, t.vietnameseRendering)) []
    (bible.characters.map Character.originalLatinName)

def wordRe : Pattern := plus (set fun c => isWord c && !isDigit c && c ≠ '_')

def wordsOf (text : Str) : List Str := (findIter wordRe (lower text)).map Found.text

/-- What is after the first occurrence of the arrow, or the whole line. -/
def renderingOf (line : Str) : Str :=
  match search (lit " → ") line with
  | some f => f.rest
  | none => line

def properNounAllowlist (bible : SeriesBibleDTO) : List Str :=
  (buildGlossaryLines bible).flatMap (fun line => wordsOf (renderingOf line)) ++
    bible.characters.flatMap (fun c => wordsOf c.originalLatinName) ++
    bible.terms.flatMap fun t => wordsOf t.vietnameseRendering ++ wordsOf t.sourceTerm

end Trezarr
