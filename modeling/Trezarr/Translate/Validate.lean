import Mathlib.Data.Rat.Defs
import Trezarr.Config
import Trezarr.Subtitles.Model
import Trezarr.Translate.Response
import Trezarr.Translate.Sentinel
import Trezarr.Translate.Timecode

/-! The gate a translated document passes before it is written. -/
namespace Trezarr
open Text Regex Regex.Pattern

def codeIn (ranges : List (ℕ × ℕ)) (c : Char) : Bool :=
  ranges.any fun r => r.1 ≤ c.toNat && c.toNat ≤ r.2

def vnDiacriticRe : Pattern :=
  set (codeIn [(0x1E00, 0x1EFF), (0x1A0, 0x1A1), (0x1AF, 0x1B0)])

def allowlistRe : Pattern :=
  seqs [start, plus (set fun c => !isWord c || isDigit c || isSpace c || c ∈ "♪♫….".toList), finish]

def sentinelOnlyRe : Pattern := seqs [start, star (seq sentinelRe (star space)), finish]

def reviewScaffoldRe : Pattern :=
  seqs [char '(', star space, litI "source", star space, char ':']

def hintScaffoldRe : Pattern :=
  seqs [char '(', star space, litI "speaker", plus space, litI "says", star space, char ':']

def vnHintScaffoldRe : Pattern := seqs [oneOf "([", star space, vnLabelRe (noneOf "()[]")]

def attributionMetaRe : Pattern :=
  seqs [char '(', star space,
    alt (seqs [litI "no", plus space, litI "violation"])
      (seqs [litI "correct", star space, char ';'])]

def unclosedSentinelRe : Pattern :=
  alt (seqs [lit "<<T", plus digit, notAhead (lit ">>")]) (seqs [lit "&lt;&lt;T", plus digit])

/-- The range of compatibility ideographs starts where the source's character for it is. -/
def cjkLeakRe : Pattern :=
  set (codeIn [(0x4E00, 0x9FFF), (0x3400, 0x4DBF), (0x8C48, 0xFAFF), (0xFF00, 0xFFEF),
    (0xAC00, 0xD7A3), (0x1100, 0x11FF), (0x3040, 0x30FF)])

def asciiLetter : Pattern := alt (range 'A' 'Z') (range 'a' 'z')

def asciiWordRe : Pattern := seq asciiLetter (plus asciiLetter)

def interjectionTokens : List Str :=
  ["ha", "haha", "hahaha", "hah", "heh", "hehe", "hmm", "hm", "mmm", "mm", "uh", "uhh", "ah",
   "ahh", "oh", "ohh", "eh", "ehh", "oho", "huh", "hum", "wow", "ooh", "aha", "hey", "yay", "ow",
   "ugh", "phew", "psst", "shh", "ho", "hoho", "hohoho", "hee", "heehee", "haw", "har", "tee",
   "teehee", "woo", "yoo", "boo", "grr", "brr", "argh", "aah"]

def honorificCapnameRe : Pattern :=
  seqs [boundary,
    alts ((["Mr", "Mrs", "Ms", "Miss", "Sir", "Elder", "Brother", "Sister", "Master", "Lord",
      "Lady"] : List Str).map lit),
    boundary, opt (char '.'), plus space, range 'A' 'Z', plus (range 'a' 'z')]

def latinDiacriticRe : Pattern := set (codeIn [(0xC0, 0x24F), (0x1E00, 0x1EFF), (0x300, 0x36F)])

def glossParenRe : Pattern :=
  seqs [char '(', group 1 (seqs [star (noneOf "()"), asciiLetter, star (noneOf "()")]), char ')']

def creditByRe : Pattern :=
  seqs [boundary,
    alts ((["translated", "translation", "subtitled", "subtitles", "subbed", "sub", "synced",
      "encoded", "ripped"] : List Str).map litI),
    litI " by", boundary]

def viCreditMarkers : List Str :=
  ["dịch bởi", "phụ đề", "biên dịch", "người dịch", "hiệu đính", "vietsub", "dịch thuật"]

def sourceCreditMarkers : List Str :=
  ["字幕組", "字幕组", "字幕", "翻譯", "翻译", "校對", "校对", "時間軸", "时间轴", "壓制", "压制",
   "后期"]

def creditTrnRe : Pattern := alts (creditByRe :: viCreditMarkers.map litI)

def creditSrcRe : Pattern :=
  alts (creditByRe :: (viCreditMarkers ++ sourceCreditMarkers).map litI)

def cjkCreditExemptMaxCjk : ℕ := 8

def isCreditFansubCue (srcText trnText : Str) : Bool :=
  (found creditSrcRe srcText || found creditTrnRe trnText) &&
    (findIter cjkLeakRe trnText).length ≤ cjkCreditExemptMaxCjk

inductive GateReason
  | cueCount (translated source : ℕ)
  | emptyCue (index : ℕ)
  | diacriticRatio (ratio threshold : ℚ) (viCount translatable : ℕ)
  | mutation (index : ℕ) (source translated : SubLine)
  | timing (index : ℕ) (source translated : ℕ × ℕ)
  | sentinel (index : ℕ) (text : Str)
  | scaffold (index : ℕ) (text : Str)
  | leaks (indices : List ℕ)
  deriving DecidableEq, Repr

structure GateFailure where
  check : ℕ
  reason : GateReason
  failingIndices : Option (List ℕ) := none
  deriving DecidableEq, Repr

inductive GateError
  | failure (f : GateFailure)
  | raised (err : PyError)
  deriving DecidableEq, Repr

/-- The first cue of the translation that a check rejects. -/
def rejectFirst (bad : SubLine → Bool) (failure : ℕ → SubLine → GateFailure)
    (lines : List SubLine) : Except GateError Unit :=
  match lines.zipIdx.find? fun (line, _) => bad line with
  | some (line, i) => .error (.failure (failure i line))
  | none => .ok ()

def checkCount (translated source : SubDoc) : Except GateError Unit :=
  if translated.lines.length ≠ source.lines.length then
    .error (.failure ⟨1, .cueCount translated.lines.length source.lines.length, none⟩)
  else .ok ()

def checkNotEmpty (translated : SubDoc) : Except GateError Unit :=
  rejectFirst (fun line => line.raw = none && strip line.text = [])
    (fun i _ => ⟨2, .emptyCue i, some [i]⟩) translated.lines

/-- A cue that counts for the ratio: not raw, and with words besides placeholders. -/
def isTranslatable (line : SubLine) : Bool :=
  let text := strip line.text
  line.raw = none && text ≠ [] && (matchStart allowlistRe text).isNone &&
    (matchStart sentinelOnlyRe text).isNone

def hasDiacritic (line : SubLine) : Bool := found vnDiacriticRe (strip line.text)

def checkUntranslated (translated source : SubDoc) (settings : TrezarrSettings) :
    Except GateError Unit :=
  let paired := translated.lines.take source.lines.length
  let translatable := paired.zipIdx.filter fun (line, _) => isTranslatable line
  let viCount := (translatable.filter fun (line, _) => hasDiacritic line).length
  if translatable = [] then .ok ()
  else
    let ratio : ℚ := viCount / translatable.length
    if ratio < settings.translateViDiacriticRatio then
      .error (.failure ⟨3, .diacriticRatio ratio settings.translateViDiacriticRatio viCount
        translatable.length,
        some ((translatable.filter fun (line, _) => !hasDiacritic line).map Prod.snd)⟩)
    else .ok ()

def sameTimes (src trn : SubLine) : Bool :=
  src.index = trn.index && src.startTc = trn.startTc && src.endTc = trn.endTc

def checkIndices (translated source : SubDoc) : Except GateError Unit :=
  match (source.lines.zip translated.lines).zipIdx.find? fun (p, _) => !sameTimes p.1 p.2 with
  | some ((src, trn), i) => .error (.failure ⟨4, .mutation i src trn, some [i]⟩)
  | none => .ok ()

def timesOf (line : SubLine) : Except GateError (ℕ × ℕ) :=
  Except.mapError .raised do return (← tcToMs line.startTc, ← tcToMs line.endTc)

def checkTimingFrom : ℕ → List (SubLine × SubLine) → Except GateError Unit
  | _, [] => .ok ()
  | i, (trn, src) :: pairs => do
    let trnTimes ← timesOf trn
    let srcTimes ← timesOf src
    if trnTimes ≠ srcTimes then
      .error (.failure ⟨5, .timing i srcTimes trnTimes, some [i]⟩)
    else checkTimingFrom (i + 1) pairs

def checkTimingPreserved (translated source : SubDoc) : Except GateError Unit :=
  checkTimingFrom 0 (translated.lines.zip source.lines)

def checkSentinels (translated : SubDoc) : Except GateError Unit :=
  rejectFirst (fun line => found sentinelRe line.text || found unclosedSentinelRe line.text)
    (fun i line => ⟨6, .sentinel i line.text, some [i]⟩) translated.lines

def isScaffolded (text : Str) : Bool :=
  found reviewScaffoldRe text || found hintScaffoldRe text || found vnHintScaffoldRe text ||
    found correctionTagRe text || found attributionMetaRe text

def checkScaffolding (translated : SubDoc) : Except GateError Unit :=
  rejectFirst (fun line => isScaffolded line.text)
    (fun i line => ⟨8, .scaffold i line.text, some [i]⟩) translated.lines

def isGloss (m : Found) : Bool :=
  let inner := strip (m.group 1)
  3 ≤ inner.length && !found latinDiacriticRe inner &&
    (contains inner "'s" || contains inner "’s" || found honorificCapnameRe inner)

/-- All the words of a cue stand in its source, and neither interjections nor names excuse it. -/
def isPassthrough (srcText text : Str) (allowlist : List Str) : Bool :=
  let tokens := (findIter asciiWordRe text).map fun m => lower m.text
  !found vnDiacriticRe text && (matchStart allowlistRe text).isNone &&
    (matchStart sentinelOnlyRe text).isNone && 2 ≤ tokens.length &&
    !tokens.all (· ∈ interjectionTokens) &&
    tokens.all (fun tok => found (seqs [boundary, lit tok, boundary]) (lower srcText)) &&
    !tokens.all (· ∈ allowlist)

/-- The check a cue fails by itself: script first, then glosses, honorifics and passthrough. -/
def leakOf (allowlist : List Str) (src trn : SubLine) : Option ℕ :=
  let text := strip trn.text
  if trn.raw.isSome ∨ text = [] then none
  else if found cjkLeakRe text then if isCreditFansubCue src.text text then none else some 9
  else if (findIter glossParenRe text).any isGloss then some 12
  else if found honorificCapnameRe text then some 11
  else if isPassthrough src.text text allowlist then some 10
  else none

def leaking (allowlist : List Str) (translated source : SubDoc) (check : ℕ) : List ℕ :=
  ((source.lines.zip translated.lines).zipIdx.filter fun (p, _) =>
    leakOf allowlist p.1 p.2 = some check).map Prod.snd

def checkLeaks (translated source : SubDoc) (allowlist : List Str) : Except GateError Unit :=
  match [9, 11, 12, 10].find? fun check => leaking allowlist translated source check ≠ [] with
  | some check =>
    let failing := leaking allowlist translated source check
    .error (.failure ⟨check, .leaks failing, some failing⟩)
  | none => .ok ()

/-- The checks in order; every text encodes as UTF-8, so the seventh has nothing to find. -/
def validateSubdoc (translated source : SubDoc) (settings : TrezarrSettings)
    (properNounAllowlist : Option (List Str)) : Except GateError Unit := do
  checkCount translated source
  checkNotEmpty translated
  checkUntranslated translated source settings
  checkIndices translated source
  checkTimingPreserved translated source
  checkSentinels translated
  checkScaffolding translated
  checkLeaks translated source ((properNounAllowlist.getD []).map lower)

end Trezarr
