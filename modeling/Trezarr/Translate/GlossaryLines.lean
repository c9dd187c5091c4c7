import Trezarr.Bible.Audit
import Trezarr.Bible.Identity
import Trezarr.Lib.Lines
import Trezarr.Translate.Prompt

/-! The glossary of a prompt: which name has which line, and when it has two. -/
namespace Trezarr
open Text Rows BibleRow Fallible Runs

def entryLine (entry : Str × Str) : Str := entry.1 ++ " → " ++ entry.2

/-- The rendered terms, trimmed. -/
def termEntries (bible : SeriesBibleDTO) : List (Str × Str) :=
  (bible.terms.map fun t => (strip t.sourceTerm, strip t.vietnameseRendering)).filter fun entry =>
    entry.1 ≠ [] ∧ entry.2 ≠ []

/-- The names that are pinned to themselves, given the keys that have a line already. -/
def pinnedNames : List Str → List Str → List Str
  | _, [] => []
  | seen, name :: names =>
    if strip name ≠ [] ∧ lower (strip name) ∉ seen then
      strip name :: pinnedNames (lower (strip name) :: seen) names
    else pinnedNames seen names

def entryKeys (entries : List (Str × Str)) : List Str := entries.map fun entry => nameKey entry.1

def characterEntries (bible : SeriesBibleDTO) : List (Str × Str) :=
  (pinnedNames (entryKeys (termEntries bible)).reverse
    (bible.characters.map Character.originalLatinName)).map fun name => (name, name)

/-- One line for a name, and no character pinned to itself whose name is a rendered term. -/
structure GlossaryFunctional (bible : SeriesBibleDTO) : Prop where
  lines : buildGlossaryLines bible =
    (termEntries bible ++ characterEntries bible).map entryLine
  once : (entryKeys (termEntries bible ++ characterEntries bible)).Nodup
  covered : ∀ c ∈ bible.characters, ∀ t ∈ bible.terms,
    strip t.sourceTerm ≠ [] → strip t.vietnameseRendering ≠ [] →
    nameKey t.sourceTerm = nameKey c.originalLatinName →
    nameKey c.originalLatinName ∉ entryKeys (characterEntries bible)

section Lines

variable {seen names : List Str} {bible : SeriesBibleDTO}

theorem pinnedNames_strip : ∀ {seen : List Str}, ∀ name ∈ pinnedNames seen names,
    strip name = name := by
  induction names with
  | nil => exact fun name h => absurd h List.not_mem_nil
  | cons first names ih =>
    intro seen name h
    unfold pinnedNames at h
    split at h
    · rcases List.mem_cons.mp h with rfl | h
      · exact strip_strip first
      · exact ih name h
    · exact ih name h

theorem pinnedNames_fresh : ∀ {seen : List Str}, ((pinnedNames seen names).map lower).Nodup ∧
    ∀ name ∈ pinnedNames seen names, lower name ∉ seen := by
  induction names with
  | nil => exact ⟨List.nodup_nil, fun name h => absurd h List.not_mem_nil⟩
  | cons first names ih =>
    intro seen
    unfold pinnedNames
    split
    · next hnew =>
      obtain ⟨hnodup, hfresh⟩ := @ih (lower (strip first) :: seen)
      refine ⟨List.nodup_cons.mpr ⟨fun hm => ?_, hnodup⟩, fun name h => ?_⟩
      · obtain ⟨name, hname, hkey⟩ := List.mem_map.mp hm
        exact hfresh name hname (hkey ▸ List.mem_cons_self)
      · rcases List.mem_cons.mp h with rfl | h
        · exact hnew.2
        · exact fun hs => hfresh name h (List.mem_cons_of_mem _ hs)
    · exact ih

theorem glossaryLines_names : ∀ {seen : List Str}, glossaryLines [] seen names =
    (pinnedNames seen names).map fun name => entryLine (name, name) := by
  induction names with
  | nil =>
    intro seen
    rw [glossaryLines, pinnedNames]
    rfl
  | cons first names ih =>
    intro seen
    rw [glossaryLines, pinnedNames]
    split
    · rw [List.map_cons, ih, entryLine]
    · exact ih

/-- The terms first, then the names that none of their keys covers. -/
theorem glossaryLines_eq {terms : List (Str × Str)} : ∀ {seen : List Str},
    glossaryLines terms seen names =
      ((terms.map fun t => (strip t.1, strip t.2)).filter fun entry =>
        entry.1 ≠ [] ∧ entry.2 ≠ []).map entryLine ++
      (pinnedNames ((entryKeys ((terms.map fun t => (strip t.1, strip t.2)).filter fun entry =>
        entry.1 ≠ [] ∧ entry.2 ≠ [])).reverse ++ seen) names).map
          fun name => entryLine (name, name) := by
  induction terms with
  | nil => exact glossaryLines_names
  | cons term terms ih =>
    intro seen
    obtain ⟨src, ren⟩ := term
    rw [glossaryLines, List.map_cons, List.filter_cons]
    dsimp only
    by_cases h : strip src ≠ [] ∧ strip ren ≠ []
    · rw [if_pos h, if_pos (decide_eq_true h), ih]
      simp [entryKeys, nameKey, entryLine, strip_strip]
    · rw [if_neg h, if_neg (by simpa using h), ih]

theorem buildGlossaryLines_eq (bible : SeriesBibleDTO) : buildGlossaryLines bible =
    (termEntries bible ++ characterEntries bible).map entryLine := by
  rw [buildGlossaryLines, glossaryLines_eq, List.map_map, List.append_nil, List.map_append,
    characterEntries, List.map_map]
  rfl

theorem entryKeys_characterEntries (bible : SeriesBibleDTO) :
    entryKeys (characterEntries bible) =
      (pinnedNames (entryKeys (termEntries bible)).reverse
        (bible.characters.map Character.originalLatinName)).map lower := by
  rw [entryKeys, characterEntries, List.map_map]
  refine List.map_congr_left fun name h => ?_
  exact congrArg lower (pinnedNames_strip name h)

/-- Only a key that two terms share has two lines. -/
theorem glossaryFunctional_iff (bible : SeriesBibleDTO) :
    GlossaryFunctional bible ↔ (entryKeys (termEntries bible)).Nodup := by
  have hfresh : (entryKeys (characterEntries bible)).Nodup ∧
      ∀ key ∈ entryKeys (characterEntries bible), key ∉ entryKeys (termEntries bible) := by
    obtain ⟨hnodup, hnew⟩ := @pinnedNames_fresh
      (bible.characters.map Character.originalLatinName) (entryKeys (termEntries bible)).reverse
    rw [entryKeys_characterEntries]
    refine ⟨hnodup, fun key hkey => ?_⟩
    obtain ⟨name, hname, rfl⟩ := List.mem_map.mp hkey
    exact fun h => hnew name hname (List.mem_reverse.mpr h)
  constructor
  · intro h
    have honce := h.once
    rw [entryKeys, List.map_append] at honce
    exact (List.nodup_append.mp honce).1
  · intro h
    refine ⟨buildGlossaryLines_eq bible, ?_, fun c _ t ht hsrc hren hkey hm => ?_⟩
    · rw [entryKeys, List.map_append]
      exact List.nodup_append.mpr ⟨h, hfresh.1, fun key hk key' hk' he =>
        hfresh.2 key' hk' (he ▸ hk)⟩
    · refine hfresh.2 _ hm (List.mem_map.mpr ⟨(strip t.sourceTerm, strip t.vietnameseRendering),
        ?_, ?_⟩)
      · exact List.mem_filter.mpr ⟨List.mem_map_of_mem ht, decide_eq_true ⟨hsrc, hren⟩⟩
      · rw [← hkey, nameKey, strip_strip]
        rfl

end Lines

section Runs

variable {series : ℕ} {s : Store} {ops : List BibleOp}

def termKeys (series : ℕ) (s : Store) : List Str := keysOf series (termIdents s)

/-- Where the operation stores a new term of the series, no row has its key. -/
def TermLookupSees (series : ℕ) (s : Store) : BibleOp → Prop
  | .write op => ∀ name, newTerm s op = some (series, name) → nameKey name ∉ termKeys series s
  | .getOrCreateSeries .. => True

theorem getOrCreateSeries_terms {kind : Str} {id : ℤ} {metadata : ArrMetadata}
    {created : Trezarr.Series × Store}
    (h : getOrCreateSeries s kind id metadata = .ok created) :
    termIdents created.2 = termIdents s := by
  unfold getOrCreateSeries at h
  split at h
  · cases h
  · obtain ⟨o, -, h⟩ := bind_ok h
    cases o with
    | none =>
      obtain ⟨row, mid⟩ := created
      obtain ⟨-, rfl⟩ := addRow_ok h
      rfl
    | some row =>
      cases h
      rfl

theorem termKeys_step (hkeys : (termKeys series s).Nodup) {op : BibleOp}
    (h : TermLookupSees series s op) : (termKeys series (op.step s)).Nodup := by
  cases op with
  | write op =>
    obtain ⟨-, hterms⟩ := step_storesNames s op
    have hstep : BibleOp.step s (.write op) = op.step s := rfl
    rw [hstep, termKeys, hterms]
    exact keysOf_append_option.mpr ⟨hkeys, h⟩
  | getOrCreateSeries kind id metadata =>
    have hsame : termIdents (BibleOp.step s (.getOrCreateSeries kind id metadata)) =
        termIdents s := by
      rw [BibleOp.step, BibleOp.exec]
      cases hc : getOrCreateSeries s kind id metadata with
      | error err => rfl
      | ok created => exact getOrCreateSeries_terms hc
    rw [termKeys, hsame]
    exact hkeys

theorem entryKeys_sublist {bible : SeriesBibleDTO} (h : loadSeriesBible s series = .ok bible) :
    (entryKeys (termEntries bible)).Sublist (termKeys series s) := by
  have hterms : bible.terms = s.termDictionary.select (·.seriesId = series) := by
    unfold loadSeriesBible at h
    split at h
    · cases h
    · cases h
      rfl
  have hkeys : termKeys series s =
      (s.termDictionary.select (·.seriesId = series)).map fun t => nameKey t.sourceTerm := by
    rw [termKeys, keysOf, termIdents, List.filter_map, List.map_map]
    rfl
  have hentries : (bible.terms.map fun t => (strip t.sourceTerm, strip t.vietnameseRendering)).map
      (fun entry => nameKey entry.1) = bible.terms.map fun t => nameKey t.sourceTerm := by
    rw [List.map_map]
    exact List.map_congr_left fun t _ => congrArg lower (strip_strip t.sourceTerm)
  rw [hkeys, ← hterms, ← hentries]
  exact List.filter_sublist.map _

/-- While no lookup of a new term misses the row that has its key, the glossary is a function. -/
theorem glossary_functional (hstart : (termKeys series s).Nodup)
    (h : Along BibleOp.step (TermLookupSees series) s ops) (before after : List BibleOp)
    (hops : ops = before ++ after) (bible : SeriesBibleDTO)
    (hbible : loadSeriesBible (run BibleOp.step s before) series = .ok bible) :
    GlossaryFunctional bible := by
  rw [hops, along_append] at h
  have hkeys : (termKeys series (run BibleOp.step s before)).Nodup :=
    invariant_run (I := fun s => (termKeys series s).Nodup)
      (fun _ _ hkeys hsees => termKeys_step hkeys hsees) hstart h.1
  exact (glossaryFunctional_iff bible).mpr (hkeys.sublist (entryKeys_sublist hbible))

end Runs

def newTermOp (sourceTerm vr episode : Str) : BibleOp :=
  .write (.upsertTerm 1 sourceTerm (some vr) none (some episode) "inference")

/-- Two episodes give the same term; the query folds no É, so the second lookup finds no row. -/
theorem school_twice : ∃ bible,
    loadSeriesBible (run BibleOp.step newSeries [newTermOp "École" "học viện" "S01E01",
      newTermOp "École" "trường" "S01E02"]) 1 = .ok bible ∧
    buildGlossaryLines bible = ["École → học viện", "École → trường"] ∧
    ¬ GlossaryFunctional bible := by
  have hentries : (loadSeriesBible (run BibleOp.step newSeries
      [newTermOp "École" "học viện" "S01E01", newTermOp "École" "trường" "S01E02"]) 1).map
        (fun bible => termEntries bible ++ characterEntries bible) =
      .ok [("École", "học viện"), ("École", "trường")] := by decide
  obtain ⟨bible, hbible, hentries⟩ := map_ok hentries
  refine ⟨bible, hbible, ?_, fun hf => ?_⟩
  · rw [buildGlossaryLines_eq, hentries]
    rfl
  · have honce := hf.once
    rw [hentries] at honce
    revert honce
    decide

/-- The second episode's capital is an ASCII one, and the lookup sees the row. -/
theorem sect_once : ∃ bible,
    loadSeriesBible (run BibleOp.step newSeries [newTermOp "sect" "tông môn" "S01E01",
      newTermOp "Sect" "môn phái" "S01E02"]) 1 = .ok bible ∧ GlossaryFunctional bible := by
  refine ⟨_, rfl, @glossary_functional 1 newSeries
    [newTermOp "sect" "tông môn" "S01E01", newTermOp "Sect" "môn phái" "S01E02"] (by decide)
    ⟨fun name _ => ?_, fun name h => ?_, trivial⟩ _ [] (List.append_nil _).symm _ rfl⟩
  · exact List.not_mem_nil
  · have hnone : newTerm (BibleOp.step newSeries (newTermOp "sect" "tông môn" "S01E01"))
        (.upsertTerm 1 "Sect" (some "môn phái") none (some "S01E02") "inference") = none := by
      decide
    cases hnone.symm.trans h

end Trezarr
