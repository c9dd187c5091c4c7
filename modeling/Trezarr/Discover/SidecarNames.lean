import Trezarr.Discover.Select

/-! The name of a translation, as the writer derives it and as the library looks for it. -/
namespace Trezarr
open Text

/-- The library's check for a translation next to a media file. -/
def viFound (fs : FileSystem) (localPath : Path) : Bool :=
  ([".vi.srt", ".vi.ass", ".vi.vtt"] : List Str).any fun ext =>
    fs.exists? ⟨localPath.parent ++ (localPath.stem ++ ext)⟩

/-- The translation of a source is named after the media file, and the library finds it there. -/
structure SidecarFits (fs : FileSystem) (mediaPath source : Path) : Prop where
  named : deriveViSidecarPath fs source =
    ⟨mediaPath.parent ++ (mediaPath.stem ++ ".vi" ++ lower source.suffix)⟩
  found : ∀ fs' : FileSystem, fs'.exists? (deriveViSidecarPath fs source) = true →
    viFound fs' mediaPath = true

/-- A file of the directory with the stem of the media file, and a language code of two letters
or none after it. -/
structure NamedAfter (mediaPath p : Path) (suffix : Str) : Prop where
  parent : p.parent = mediaPath.parent
  stem : p.stem = mediaPath.stem ∧ langCodeSearch mediaPath.stem = false ∨
    langCodeSearch p.stem = true ∧ ∃ code, '.' ∉ code ∧ p.stem = mediaPath.stem ++ '.' :: code
  suffix_eq : lower p.suffix = suffix

section Names

variable {disk : Disk} {fs : FileSystem} {mediaPath source p q : Path} {lang code suffix : Str}

/-- The parts of a source's name that the scan has looked at. -/
structure SourceOf (mediaPath source : Path) (code suffix : Str) : Prop where
  parent : source.parent = mediaPath.parent
  stem : source.stem = mediaPath.stem ++ '.' :: code
  suffix_eq : source.suffix = '.' :: suffix
  suffix_mem : suffix ∈ sourceSuffixes
  dotless : '.' ∉ code
  length : code.length = 2 ∨ code.length = 3
  letters : code.all isLangLetter = true

theorem sourceOf_found {langs : List Str}
    (h : findSourceSub disk mediaPath langs = some (source, lang)) :
    ∃ code suffix, SourceOf mediaPath source code suffix := by
  obtain ⟨_, candidates, hglob, hcandidate, hlang⟩ := findSourceSub_candidate h
  obtain ⟨code, hmatch, _⟩ := candidateLang_some hlang
  obtain ⟨hparent, front, suffix, hsuffix, hname⟩ := mem_globSourceSidecars hglob hcandidate
  rw [hname] at hmatch
  obtain ⟨rfl, _, hdotless, hlength, hletters⟩ := langSidecarMatch_parts hsuffix hmatch
  obtain ⟨hne, hdot, _⟩ := sourceSuffix_facts suffix hsuffix
  obtain ⟨hstem, hsuf⟩ := Path.splitSuffix_of_name hname (by simp) hne hdot
  exact ⟨code, suffix, hparent, hstem, hsuf, hsuffix, hdotless, hlength, hletters⟩

theorem Path.child_inj {dir dir' name name' : Str} (hdir : dir = [] ∨ dir.getLast? = some '/')
    (hdir' : dir' = [] ∨ dir'.getLast? = some '/') (hname : '/' ∉ name) (hname' : '/' ∉ name')
    (h : dir ++ name = dir' ++ name') : dir = dir' ∧ name = name' := by
  have hnames := Path.name_of_child hdir hname
  rw [h, Path.name_of_child hdir' hname'] at hnames
  subst hnames
  exact ⟨List.append_cancel_right h, rfl⟩

theorem not_mem_stem (p : Path) : '/' ∉ p.stem ∧ '/' ∉ p.suffix := by
  have hname : '/' ∉ p.name := not_mem_rtakeWhile p.str
  rw [← p.stem_append_suffix] at hname
  simpa using hname

theorem dot_mem_of_langCodeSearch {stem : Str} (h : langCodeSearch stem = true) : '.' ∈ stem := by
  have hend : ∀ {stem : Str}, endsWithLangCode stem = true → '.' ∈ stem := by
    intro stem h
    obtain ⟨front, a, b, rfl, _⟩ := endsWithLangCode_iff.mp h
    simp
  unfold langCodeSearch at h
  rcases Bool.or_eq_true _ _ ▸ h with h | h
  · exact hend h
  · rw [Bool.and_eq_true] at h
    exact List.mem_of_mem_dropLast (hend h.2)

theorem stripLangCode_eq_iff {stem front : Str} : stripLangCode stem = front ↔
    stem = front ∧ langCodeSearch front = false ∨
      langCodeSearch stem = true ∧ ∃ back, '.' ∉ back ∧ stem = front ++ '.' :: back := by
  cases hsearch : langCodeSearch stem with
  | false =>
    unfold stripLangCode
    simp only [hsearch, Bool.false_eq_true, if_false, false_and, or_false]
    constructor
    · rintro rfl
      exact ⟨rfl, hsearch⟩
    · exact fun h => h.1
  | true =>
    constructor
    · rintro rfl
      right
      refine ⟨rfl, _, not_mem_rtakeWhile stem, ?_⟩
      unfold stripLangCode
      rw [if_pos hsearch]
      exact Text.split_last (dot_mem_of_langCodeSearch hsearch)
    · rintro (⟨rfl, hnone⟩ | ⟨_, back, hback, rfl⟩)
      · rw [hsearch] at hnone
        cases hnone
      · exact stripLangCode_of_code hsearch hback

/-- The derived name is the one wanted just for files that are named after the media file. -/
theorem viSidecarOf_eq_iff (hsuffix : suffix ∈ sourceSuffixes) :
    viSidecarOf p = ⟨mediaPath.parent ++ (mediaPath.stem ++ ".vi" ++ '.' :: suffix)⟩ ↔
      NamedAfter mediaPath p ('.' :: suffix) := by
  obtain ⟨hne, hdot, _⟩ := sourceSuffix_facts suffix hsuffix
  have hslash : ∀ suffix ∈ sourceSuffixes, '/' ∉ suffix ∧ suffix ≠ "vi" := by decide
  obtain ⟨hslash, hvi⟩ := hslash suffix hsuffix
  have hlower : '/' ∉ lower p.suffix := fun h =>
    (not_mem_stem p).2 (mem_of_mem_lowerFrom (by decide) h)
  have hstrip : '/' ∉ stripLangCode p.stem := fun h =>
    (not_mem_stem p).1 ((stripLangCode_prefix_stem p.stem).mem h)
  have hname : '/' ∉ stripLangCode p.stem ++ ".vi" ++ lower p.suffix := by
    simp [hstrip, hlower]
  have hname' : '/' ∉ mediaPath.stem ++ ".vi" ++ '.' :: suffix := by
    simp [(not_mem_stem mediaPath).1, hslash]
  have hstr : viSidecarOf p = ⟨mediaPath.parent ++ (mediaPath.stem ++ ".vi" ++ '.' :: suffix)⟩ ↔
      p.parent = mediaPath.parent ∧
        stripLangCode p.stem ++ ".vi" ++ lower p.suffix =
          mediaPath.stem ++ ".vi" ++ '.' :: suffix := by
    unfold viSidecarOf
    rw [Path.mk.injEq, List.append_assoc, List.append_assoc, ← List.append_assoc (stripLangCode _)]
    constructor
    · exact Path.child_inj p.parent_cases mediaPath.parent_cases hname hname'
    · rintro ⟨hparent, hrest⟩
      rw [hparent, hrest]
  rw [hstr]
  constructor
  · rintro ⟨hparent, hrest⟩
    rcases lower_suffix_cases p with ⟨_, hlow⟩ | ⟨ext, low, _, _, hlow, hlowdot⟩
    · -- without a suffix the name would end in the code itself
      rw [hlow, List.append_nil] at hrest
      have hback : '.' ∉ ("vi" : Str) := by decide
      have hends : stripLangCode p.stem ++ '.' :: "vi" =
          mediaPath.stem ++ ".vi" ++ '.' :: suffix := hrest
      exact absurd (last_split_inj hback hdot hends).2.symm hvi
    · rw [hlow] at hrest
      obtain ⟨hfront, rfl⟩ := last_split_inj hlowdot hdot hrest
      exact ⟨hparent, stripLangCode_eq_iff.mp (List.append_cancel_right hfront), hlow⟩
  · rintro ⟨hparent, hstem, hsuf⟩
    refine ⟨hparent, ?_⟩
    rw [stripLangCode_eq_iff.mpr hstem, hsuf]

/-- One file and no links. -/
def loneFile (p : Path) : FileSystem :=
  .linking p p fun q => if q = p then some { content := [], writer := .trezarr } else none

theorem exists?_loneFile : (loneFile p).exists? q = true ↔ q = p := by
  have hresolve : (loneFile p).resolve q = q := by
    simp [loneFile, FileSystem.linking, Links.single, Links.resolve]
  have hfile : (loneFile p).file? q =
      if q = p then some { content := [], writer := .trezarr } else none := by
    unfold FileSystem.file?
    rw [hresolve]
    rfl
  unfold FileSystem.exists?
  rw [hfile]
  split
  next h => exact iff_of_true rfl h
  next h => exact iff_of_false nofun h

theorem viFound_iff (hsuffix : suffix ∈ sourceSuffixes) :
    (∀ fs' : FileSystem,
      fs'.exists? ⟨mediaPath.parent ++ (mediaPath.stem ++ ".vi" ++ '.' :: suffix)⟩ = true →
        viFound fs' mediaPath = true) ↔ suffix ≠ "ssa" := by
  constructor
  · rintro h rfl
    have hfound := h (loneFile _) (exists?_loneFile.mpr rfl)
    unfold viFound at hfound
    obtain ⟨ext, hext, hexists⟩ := List.any_eq_true.mp hfound
    have hpath := congrArg Path.str (exists?_loneFile.mp hexists)
    have hrest : ext = ".vi" ++ '.' :: "ssa" := by
      have := List.append_cancel_left hpath
      rw [List.append_assoc] at this
      exact List.append_cancel_left this
    revert hext
    rw [hrest]
    decide
  · intro hssa fs' hexists
    unfold viFound
    apply List.any_eq_true.mpr
    refine ⟨".vi" ++ '.' :: suffix, ?_, ?_⟩
    · have hall : ∀ suffix ∈ sourceSuffixes, suffix ≠ "ssa" →
          ".vi" ++ '.' :: suffix ∈ ([".vi.srt", ".vi.ass", ".vi.vtt"] : List Str) := by
        decide
      exact hall suffix hsuffix hssa
    · rw [List.append_assoc] at hexists
      exact hexists

theorem langCodeSearch_iff_length {front : Str} (hdotless : '.' ∉ code)
    (hlength : code.length = 2 ∨ code.length = 3) (hletters : code.all isLangLetter = true) :
    langCodeSearch (front ++ '.' :: code) = true ↔ code.length = 2 := by
  have hends : endsWithLangCode (front ++ '.' :: code) = true ↔ code.length = 2 := by
    constructor
    · intro h
      obtain ⟨front', a, b, hstem, ha, hb⟩ := endsWithLangCode_iff.mp h
      have hback : '.' ∉ [a, b] := by
        simp [(ne_dot_of_isLangLetter ha).symm, (ne_dot_of_isLangLetter hb).symm]
      rw [(last_split_inj hdotless hback hstem).2]
      rfl
    · intro h
      obtain ⟨a, b, rfl⟩ := List.length_eq_two.mp h
      simp only [List.all_cons, List.all_nil, Bool.and_true, Bool.and_eq_true] at hletters
      exact endsWithLangCode_iff.mpr ⟨front, a, b, rfl, hletters⟩
  have hline : (front ++ '.' :: code).getLast? ≠ some '\n' := by
    have hne : code ≠ [] := by
      rintro rfl
      simp at hlength
    rw [List.getLast?_append_of_ne_nil _ (by simp), List.getLast?_cons_of_ne_nil hne]
    intro hlast
    have hletter := List.all_eq_true.mp hletters '\n' (List.mem_of_getLast? hlast)
    revert hletter
    decide
  unfold langCodeSearch
  rw [decide_eq_false hline, Bool.false_and, Bool.or_false]
  exact hends

theorem SourceOf.namedAfter_iff (h : SourceOf mediaPath source code suffix) :
    NamedAfter mediaPath source source.suffix ↔
      source.stem.length = mediaPath.stem.length + 3 := by
  have hlength : source.stem.length = mediaPath.stem.length + 3 ↔ code.length = 2 := by
    rw [h.stem, List.length_append, List.length_cons]
    omega
  have hcode := @langCodeSearch_iff_length code mediaPath.stem h.dotless h.length h.letters
  rw [hlength, ← hcode, ← h.stem]
  constructor
  · rintro ⟨_, ⟨hsame, _⟩ | ⟨hsearch, _⟩, _⟩
    · have := congrArg List.length (h.stem.symm.trans hsame)
      simp at this
    · exact hsearch
  · intro hsearch
    refine ⟨h.parent, .inr ⟨hsearch, code, h.dotless, h.stem⟩, ?_⟩
    rw [h.suffix_eq]
    exact (sourceSuffix_facts suffix h.suffix_mem).2.2.2

end Names

/-- Writer and library agree on a source just when its target is named after the media file and the
library knows the suffix; without a link that leaves out the codes of three letters. -/
theorem sidecar_fits_iff (disk : Disk) (mediaPath source : Path) (langPriority : List Str)
    (lang : Str) (h : findSourceSub disk mediaPath langPriority = some (source, lang)) :
    (SidecarFits disk.toFileSystem mediaPath source ↔
      NamedAfter mediaPath (disk.resolve source) source.suffix ∧ source.suffix ≠ ".ssa") ∧
    (disk.resolve source = source → (SidecarFits disk.toFileSystem mediaPath source ↔
      source.stem.length = mediaPath.stem.length + 3 ∧ source.suffix ≠ ".ssa")) := by
  obtain ⟨code, suffix, hsource⟩ := sourceOf_found h
  have hlow : lower source.suffix = '.' :: suffix := by
    rw [hsource.suffix_eq]
    exact (sourceSuffix_facts suffix hsource.suffix_mem).2.2.2
  have hssa : source.suffix ≠ ".ssa" ↔ suffix ≠ "ssa" := by
    rw [hsource.suffix_eq]
    exact not_congr ⟨fun h => (List.cons.inj h).2, congrArg ('.' :: ·)⟩
  have hagree : SidecarFits disk.toFileSystem mediaPath source ↔
      NamedAfter mediaPath (disk.resolve source) source.suffix ∧ source.suffix ≠ ".ssa" := by
    rw [hssa, hsource.suffix_eq, ← viSidecarOf_eq_iff hsource.suffix_mem,
      ← @viFound_iff mediaPath suffix hsource.suffix_mem, ← deriveViSidecarPath_eq]
    constructor
    · rintro ⟨hnamed, hfound⟩
      rw [hlow] at hnamed
      rw [hnamed] at hfound
      exact ⟨hnamed, hfound⟩
    · rintro ⟨hnamed, hfound⟩
      refine ⟨hlow ▸ hnamed, ?_⟩
      rw [hnamed]
      exact hfound
  refine ⟨hagree, fun hlink => ?_⟩
  rw [hagree, hlink, hsource.namedAfter_iff]

theorem english_sidecar_fits :
    SidecarFits (tvDisk ["E01.en.srt"] (by decide)).toFileSystem ⟨"/tv/E01.mkv"⟩
      ⟨"/tv/E01.en.srt"⟩ := by
  have hagree := sidecar_fits_iff (tvDisk ["E01.en.srt"] (by decide)) ⟨"/tv/E01.mkv"⟩
    ⟨"/tv/E01.en.srt"⟩ ["en"] "en" (by decide)
  apply (hagree.2 rfl).mpr
  exact ⟨by decide, by decide⟩

/-- A code of three letters is found as a source and stays in the name of the translation. -/
theorem three_letters_stay :
    findSourceSub (tvDisk ["E01.eng.srt"] (by decide)) ⟨"/tv/E01.mkv"⟩ ["eng"] =
        some (⟨("/tv/E01.eng.srt" : Str)⟩, ("eng" : Str)) ∧
      deriveViSidecarPath (tvDisk ["E01.eng.srt"] (by decide)).toFileSystem ⟨"/tv/E01.eng.srt"⟩ =
        ⟨"/tv/E01.eng.vi.srt"⟩ ∧
      ¬ SidecarFits (tvDisk ["E01.eng.srt"] (by decide)).toFileSystem ⟨"/tv/E01.mkv"⟩
        ⟨"/tv/E01.eng.srt"⟩ := by
  refine ⟨by decide, by decide, fun h => ?_⟩
  have hnamed := h.named
  revert hnamed
  decide

end Trezarr
