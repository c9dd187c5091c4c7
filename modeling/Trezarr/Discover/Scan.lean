import Mathlib.Data.List.Lex
import Mathlib.Data.String.Basic
import Trezarr.Lib.Lower
import Trezarr.Lib.Regex
import Trezarr.Lib.Sorting
import Trezarr.Output.Sidecar

/-! The source subtitles next to a media file, by the language in their names. -/
namespace Trezarr
open Text Sorting

/-- What is asked of a disk besides its files; a directory is named with its last slash. -/
structure Directories where
  listing : Str → Except OSError (List Str)
  existsError : Path → Option OSError
  /-- An entry of a directory is one component. -/
  listing_component : ∀ {dir names name}, listing dir = .ok names → name ∈ names → '/' ∉ name

structure Disk extends FileSystem, Directories

def sourceSuffixes : List Str := ["srt", "ass", "ssa", "vtt"]

/-- The name is split at its last two dots; a final line break is not part of it. -/
def langSidecarMatch (name : Str) : Option (Str × Str) :=
  let name := if name.getLast? = some '\n' then name.dropLast else name
  let front := (name.rdropWhile (· ≠ '.')).dropLast
  let ext := name.rtakeWhile (· ≠ '.')
  let stem := (front.rdropWhile (· ≠ '.')).dropLast
  let lang := front.rtakeWhile (· ≠ '.')
  if '.' ∈ name ∧ '.' ∈ front ∧ stem ≠ [] ∧ '\n' ∉ stem ∧
      (lang.length = 2 ∨ lang.length = 3) ∧ lang.all isLangLetter ∧
      (sourceSuffixes.any fun suffix => (Regex.fullMatch (.litI suffix) ext).isSome) then
    some (stem, lang)
  else none

/-- `stem.*.suffix`, with nothing special in the stem. -/
def globMatch (stem suffix name : Str) : Bool :=
  stem ++ ['.'] <+: name && '.' :: suffix <:+ name &&
    stem.length + suffix.length + 2 ≤ name.length

def globSourceSidecars (disk : Disk) (mediaPath : Path) : Except OSError (List Path) := do
  let names ← disk.listing mediaPath.parent
  let candidates := sourceSuffixes.flatMap fun suffix =>
    names.filter (globMatch mediaPath.stem suffix)
  return (sortOn id candidates).map fun name => ⟨mediaPath.parent ++ name⟩

/-- The language of a candidate, unless its stem is that of another file. -/
def candidateLang (mediaPath candidate : Path) : Option Str :=
  (langSidecarMatch candidate.name).bind fun (stem, lang) =>
    if stem = mediaPath.stem then some (lower lang) else none

/-- Of several candidates in one language the first is taken. -/
def findSourceSub (disk : Disk) (mediaPath : Path) (langPriority : List Str) :
    Option (Path × Str) :=
  match globSourceSidecars disk mediaPath with
  | .error _ => none
  | .ok candidates =>
    let found := candidates.filterMap fun candidate =>
      (candidateLang mediaPath candidate).map fun lang => (lang, candidate)
    langPriority.findSome? fun lang =>
      (found.lookup (lower lang)).map fun path => (path, lower lang)

section Candidates

variable {disk : Disk} {mediaPath candidate : Path} {candidates : List Path} {lang : Str}

/-- The parts of a source subtitle's name. -/
structure SourceName (name lang : Str) : Prop where
  parts : ∃ stem suffix, suffix ∈ sourceSuffixes ∧ stem ≠ [] ∧
    name = stem ++ '.' :: lang ++ '.' :: suffix
  dotless : '.' ∉ lang

theorem sourceSuffix_facts : ∀ suffix ∈ sourceSuffixes, suffix ≠ [] ∧ '.' ∉ suffix ∧
    suffix.getLast? ≠ some '\n' ∧ lower ('.' :: suffix) = '.' :: suffix := by
  decide

theorem langSidecarMatch_parts {stem suffix : Str} {front : Str} (hsuffix : suffix ∈ sourceSuffixes)
    (h : langSidecarMatch (front ++ '.' :: suffix) = some (stem, lang)) :
    front = stem ++ '.' :: lang ∧ stem ≠ [] ∧ '.' ∉ lang ∧
      (lang.length = 2 ∨ lang.length = 3) ∧ lang.all isLangLetter = true := by
  obtain ⟨hne, hdotless, hlast, _⟩ := sourceSuffix_facts suffix hsuffix
  have hkeep : (front ++ '.' :: suffix).getLast? ≠ some '\n' := by
    rw [List.getLast?_append_of_ne_nil _ (by simp), List.getLast?_cons_of_ne_nil hne]
    exact hlast
  unfold langSidecarMatch at h
  dsimp only at h
  rw [if_neg hkeep, rdropWhile_ne_append hdotless, rtakeWhile_ne_append hdotless,
    List.dropLast_concat] at h
  split at h
  next hparts =>
    cases h
    obtain ⟨_, hdot, hstem, _, hlength, hletters, _⟩ := hparts
    exact ⟨split_last hdot, hstem, not_mem_rtakeWhile _, hlength, hletters⟩
  next => cases h

theorem langSidecarMatch_some {stem suffix : Str} {front : Str} (hsuffix : suffix ∈ sourceSuffixes)
    (h : langSidecarMatch (front ++ '.' :: suffix) = some (stem, lang)) :
    SourceName (front ++ '.' :: suffix) lang := by
  obtain ⟨rfl, hstem, hdotless, _⟩ := langSidecarMatch_parts hsuffix h
  exact ⟨⟨stem, suffix, hsuffix, hstem, rfl⟩, hdotless⟩

/-- A candidate is a listed file of the directory with a name that the pattern takes. -/
theorem listed_of_mem_globSourceSidecars (h : globSourceSidecars disk mediaPath = .ok candidates)
    (hmem : candidate ∈ candidates) : candidate.parent = mediaPath.parent ∧
      (∃ suffix ∈ sourceSuffixes, globMatch mediaPath.stem suffix candidate.name = true) ∧
      ∃ names, disk.listing mediaPath.parent = .ok names ∧ candidate.name ∈ names := by
  unfold globSourceSidecars at h
  cases hnames : disk.listing mediaPath.parent with
  | error err =>
    rw [hnames] at h
    cases h
  | ok names =>
    rw [hnames] at h
    cases h
    obtain ⟨name, hname, rfl⟩ := List.mem_map.mp hmem
    obtain ⟨suffix, hsuffix, hin⟩ := List.mem_flatMap.mp (mem_sortOn.mp hname)
    obtain ⟨hlisted, hglob⟩ := List.mem_filter.mp hin
    have hchild : (Path.mk (mediaPath.parent ++ name)).name = name :=
      Path.name_of_child mediaPath.parent_cases (disk.listing_component hnames hlisted)
    have hjoin := Path.parent_append_name ⟨mediaPath.parent ++ name⟩
    rw [hchild] at hjoin
    rw [← hchild] at hglob hlisted
    exact ⟨List.append_cancel_right hjoin, ⟨suffix, hsuffix, hglob⟩, names, rfl, hlisted⟩

theorem mem_globSourceSidecars (h : globSourceSidecars disk mediaPath = .ok candidates)
    (hmem : candidate ∈ candidates) : candidate.parent = mediaPath.parent ∧
      ∃ front suffix, suffix ∈ sourceSuffixes ∧ candidate.name = front ++ '.' :: suffix := by
  obtain ⟨hparent, ⟨suffix, hsuffix, hglob⟩, _⟩ := listed_of_mem_globSourceSidecars h hmem
  simp only [globMatch, Bool.and_eq_true, decide_eq_true_eq] at hglob
  obtain ⟨front, hfront⟩ := hglob.1.2
  exact ⟨hparent, front, suffix, hsuffix, hfront.symm⟩

theorem candidateLang_some (h : candidateLang mediaPath candidate = some lang) :
    ∃ code, langSidecarMatch candidate.name = some (mediaPath.stem, code) ∧ lower code = lang := by
  obtain ⟨⟨stem, code⟩, hmatch, hlang⟩ := Option.bind_eq_some_iff.mp h
  dsimp only at hlang
  split at hlang
  next hstem =>
    cases hlang
    exact ⟨code, hstem ▸ hmatch, rfl⟩
  next => cases hlang

/-- What is found is a candidate in a language that is asked for. -/
theorem findSourceSub_candidate {langs : List Str} {path : Path}
    (h : findSourceSub disk mediaPath langs = some (path, lang)) :
    (∃ wanted ∈ langs, lower wanted = lang) ∧ ∃ candidates,
      globSourceSidecars disk mediaPath = .ok candidates ∧ path ∈ candidates ∧
        candidateLang mediaPath path = some lang := by
  unfold findSourceSub at h
  split at h
  next => cases h
  next candidates hglob =>
    obtain ⟨wanted, hwanted, hlookup⟩ := List.exists_of_findSome?_eq_some h
    obtain ⟨found, hfound, hpair⟩ := Option.map_eq_some_iff.mp hlookup
    cases hpair
    refine ⟨⟨wanted, hwanted, rfl⟩, candidates, hglob, ?_⟩
    obtain ⟨before, after, hsplit, _⟩ := List.lookup_eq_some_iff.mp hfound
    have hmem : (lower wanted, path) ∈ candidates.filterMap fun candidate =>
        (candidateLang mediaPath candidate).map fun lang => (lang, candidate) := by
      rw [hsplit]
      exact List.mem_append_right _ List.mem_cons_self
    obtain ⟨candidate, hcandidate, hlang⟩ := List.mem_filterMap.mp hmem
    obtain ⟨lang, hlang, hpair⟩ := Option.map_eq_some_iff.mp hlang
    cases hpair
    exact ⟨hcandidate, hlang⟩

/-- The name of what is found says its language, in some case. -/
theorem findSourceSub_some {langs : List Str} {path : Path}
    (h : findSourceSub disk mediaPath langs = some (path, lang)) :
    (∃ wanted ∈ langs, lower wanted = lang) ∧
      ∃ code, SourceName path.name code ∧ lower code = lang := by
  obtain ⟨hwanted, candidates, hglob, hcandidate, hlang⟩ := findSourceSub_candidate h
  refine ⟨hwanted, ?_⟩
  obtain ⟨code, hmatch, hcode⟩ := candidateLang_some hlang
  obtain ⟨_, front, suffix, hsuffix, hname⟩ := mem_globSourceSidecars hglob hcandidate
  refine ⟨code, ?_, hcode⟩
  rw [hname] at hmatch ⊢
  exact langSidecarMatch_some hsuffix hmatch

/-- A source is named like a sidecar just when it is in Vietnamese, in lower case. -/
theorem SourceName.viNamed_iff {p : Path} (h : SourceName p.name lang) :
    ViNamed p ↔ lang = "vi" := by
  obtain ⟨⟨stem, suffix, hsuffix, hstem, hname⟩, hdotless⟩ := h
  obtain ⟨hne, hdot, _, hlower⟩ := sourceSuffix_facts suffix hsuffix
  have hfront : stem ++ '.' :: lang ≠ [] := by simp
  obtain ⟨hpstem, hpsuffix⟩ := Path.splitSuffix_of_name hname hfront hne hdot
  unfold ViNamed
  rw [hpstem, hpsuffix, and_iff_left hlower]
  constructor
  · rintro ⟨before, hbefore⟩
    have hback : '.' ∉ ("vi" : Str) := by decide
    have hlast := congrArg (List.rtakeWhile (· ≠ '.')) hbefore
    have hvi : (before ++ '.' :: "vi").rtakeWhile (· ≠ '.') = "vi" := rtakeWhile_ne_append hback
    rw [rtakeWhile_ne_append hdotless] at hlast
    exact hlast.symm.trans hvi
  · rintro rfl
    exact List.suffix_append stem _

end Candidates

structure MediaItem where
  localPath : Option Path
  originalLanguage : Option Str := none
  arrKind : Option Str := none
  seriesId : Option ℤ := none
  title : Option Str := none
  sourceType : Str := "episode"
  seasonNumber : Option ℤ := none
  tvdbId : Option ℤ := none
  tmdbId : Option ℤ := none
  genres : Option (List Str) := none
  overview : Option Str := none
  year : Option ℤ := none
  network : Option Str := none
  runtime : Option ℤ := none
  deriving DecidableEq, Repr

structure EligibleItem where
  mediaItem : MediaItem
  sourceSubPath : Path
  sourceLang : Str
  deriving DecidableEq, Repr

end Trezarr
