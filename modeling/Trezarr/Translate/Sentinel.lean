import Mathlib.Data.Char
import Mathlib.Data.List.Lex
import Mathlib.Data.List.Sort
import Trezarr.Lib.Regex

/-! Inline tags behind placeholders, and back. -/
namespace Trezarr
open Text Regex Regex.Pattern

def tagRe : Pattern :=
  alts [seqs [char '<', plus (noneOf ">"), char '>'],
    seqs [char '\x7b', char '\\', plus (noneOf "\x7d"), char '\x7d'],
    seq (char '\\') (oneOf "Nnh")]

def sentinelRe : Pattern := seqs [lit "<<T", plus digit, lit ">>"]

/-- Placeholders in the order of their numbers, with the tags they stand for. -/
abbrev SentinelMap := List (Str × Str)

def sentinelKey (n : ℕ) : Str := "<<T" ++ natStr n ++ ">>"

def sentinelMap (tags : List Found) : SentinelMap :=
  tags.zipIdx.map fun (f, n) => (sentinelKey n, f.text)

/-- The text between tags, with placeholders in place of the tags. -/
def withKeys (rest : Str) : ℕ → List Found → Str
  | _, [] => rest
  | n, f :: fs => f.skipped ++ sentinelKey n ++ withKeys rest (n + 1) fs

def lastRest (text : Str) (tags : List Found) : Str :=
  match tags.getLast? with
  | some f => f.rest
  | none => text

def extractSentinels (text : Str) : Str × SentinelMap :=
  let tags := findIter tagRe text
  (withKeys (lastRest text tags) 0 tags, sentinelMap tags)

def orphansOf (text : Str) (sentinels : SentinelMap) : List Str :=
  (((findIter sentinelRe text).map Found.text).dedup.filter
    (· ∉ sentinels.map Prod.fst)).insertionSort (· ≤ ·)

def orphanRe (orphans : List Str) : Pattern :=
  seqs [star space, alts (orphans.map lit), star space]

def stripOrphans (text : Str) (orphans : List Str) : Str :=
  if orphans = [] then text else strip (sub (orphanRe orphans) (fun _ => " ") text)

/-- Each key must be present when its turn comes; the first occurrence gets its tag back. -/
def restoreKeys : Str → SentinelMap → Str × Bool
  | text, [] => (text, true)
  | text, (key, original) :: sentinels =>
    if contains text key then restoreKeys (replaceFirst key original text) sentinels
    else (text, false)

def reinsertSentinels (text : Str) (sentinels : SentinelMap) : Str × Bool :=
  let (text, restored) := restoreKeys (stripOrphans text (orphansOf text sentinels)) sentinels
  (text, restored && !found sentinelRe text)

end Trezarr
