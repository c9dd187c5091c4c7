import Mathlib.Data.Prod.Lex
import Mathlib.Data.List.Lex
import Mathlib.Data.String.Basic
import Mathlib.Data.List.Dedup
import Trezarr.Lib.Sorting
import Trezarr.Lib.Text

/-! Source languages by what they tell about relations, the language of the original first. -/
namespace Trezarr
open Text Sorting

def tier : List (Str × ℕ) :=
  [("zh", 1), ("cmn", 1), ("zho", 1), ("ko", 1), ("kor", 1), ("ja", 1), ("jpn", 1), ("th", 1),
    ("tha", 1), ("id", 2), ("ind", 2), ("ms", 2), ("msa", 2), ("hi", 2), ("hin", 2), ("ta", 2),
    ("tam", 2), ("ar", 2), ("ara", 2), ("tr", 2), ("tur", 2), ("en", 3), ("eng", 3)]

def defaultTier : ℕ := 2

def origLangNameToCode2 : List (Str × Str) :=
  let names : List (String × String) :=
    [("english", "en"), ("korean", "ko"), ("japanese", "ja"), ("chinese", "zh"), ("thai", "th"),
    ("vietnamese", "vi"), ("cantonese", "zh"), ("mandarin", "zh"), ("french", "fr"),
    ("german", "de"), ("spanish", "es"), ("portuguese", "pt"), ("italian", "it"),
    ("russian", "ru"), ("arabic", "ar"), ("hindi", "hi"), ("indonesian", "id"), ("malay", "ms"),
    ("tamil", "ta"), ("turkish", "tr"), ("dutch", "nl"), ("polish", "pl"), ("swedish", "sv"),
    ("norwegian", "no"), ("danish", "da"), ("finnish", "fi"), ("czech", "cs"),
    ("hungarian", "hu"), ("romanian", "ro"), ("greek", "el"), ("hebrew", "he"),
    ("ukrainian", "uk"), ("catalan", "ca"), ("basque", "eu"), ("galician", "gl"),
    ("bengali", "bn"), ("urdu", "ur"), ("farsi", "fa"), ("persian", "fa"), ("burmese", "my"),
    ("khmer", "km"), ("lao", "lo"), ("mongolian", "mn"), ("tibetan", "bo"), ("filipino", "fil"),
    ("tagalog", "tl")]
  names.map fun (name, code2) => (name.toList, code2.toList)

/-- The first three tiers are numbered from one, so the original language is before them all. -/
def sortKey (lang : Str) (originalLanguage : Option Str) : ℕ :=
  match originalLanguage with
  | some original =>
    if original ≠ [] ∧ lower lang = lower original then 0
    else (tier.lookup (lower lang)).getD defaultTier
  | none => (tier.lookup (lower lang)).getD defaultTier

/-- Languages of one tier are ranked by their codes. -/
def rankKey (originalLanguage : Option Str) (lang : Str) : ℕ ×ₗ Str :=
  toLex (sortKey lang originalLanguage, lang)

def rankSources (available : List Str) (originalLanguage : Option Str) : List Str :=
  sortOn (rankKey originalLanguage) (available.map lower).dedup

def normalizeOriginalLanguage (name : Option Str) : Option Str :=
  name.bind fun name => origLangNameToCode2.lookup (lower name)

theorem rankKey_injective (originalLanguage : Option Str) :
    Function.Injective (rankKey originalLanguage) := by
  intro a b h
  exact congrArg (fun key => (ofLex key).2) h

theorem head?_rankSources_iff {available : List Str} {originalLanguage : Option Str} {lang : Str} :
    (rankSources available originalLanguage).head? = some lang ↔
      lang ∈ available.map lower ∧ ∀ other ∈ available.map lower,
        rankKey originalLanguage lang ≤ rankKey originalLanguage other := by
  unfold rankSources
  rw [head?_sortOn_iff (rankKey_injective originalLanguage)]
  simp only [List.mem_dedup]

theorem rankSources_ne_nil {available : List Str} {originalLanguage : Option Str}
    (h : available ≠ []) : rankSources available originalLanguage ≠ [] := by
  unfold rankSources
  rw [Ne, sortOn_eq_nil_iff]
  simpa using h

end Trezarr
