import Trezarr.Db.MigrationRunner

/-! What a legacy entry needs to become a row, and what the transaction then leaves. -/
namespace Trezarr
open Text Json Fallible

variable {rt : Runtime} {ledger ledger' : LedgerSqla} {entry : LegacyEntry} {row : LedgerEntry}
  {entries : List LegacyEntry} {path : Str}

def LedgerSqla.paths (ledger : LedgerSqla) : List Str :=
  ledger.processedFile.map LedgerEntry.sourcePath

def Known (entry : LegacyEntry) : Prop := isKnownStatus entry.status = .ok true

/-- The path is a text that a text column can keep. -/
def StoredAt (rt : Runtime) (entry : LegacyEntry) (path : Str) : Prop :=
  column rt entry.sourcePath = .ok (some path)

def LegacyEntry.optionalFields (entry : LegacyEntry) : List Json :=
  [entry.outputPath, entry.seriesId, entry.sourceLang, entry.episodeKey, entry.translatedAt,
    entry.quarantinePath]

/-- Every other value can be bound, and the hash is not NULL. -/
def Storable (rt : Runtime) (entry : LegacyEntry) : Prop :=
  (∃ hash, column rt entry.contentHash = .ok (some hash)) ∧
    ∀ value ∈ entry.optionalFields, ∃ text, column rt value = .ok text

/-- Each entry has its path in the table already, also from an entry before it, or can be stored. -/
def Insertable (rt : Runtime) (ledger : LedgerSqla) (entries : List LegacyEntry) : Prop :=
  ∀ before entry after, entries = before ++ entry :: after → ∃ path, StoredAt rt entry path ∧
    (path ∈ ledger.paths ∨ (∃ earlier ∈ before, StoredAt rt earlier path) ∨ Storable rt entry)

/-- An entry whose path the table has. -/
def Present (rt : Runtime) (ledger : LedgerSqla) (entry : LegacyEntry) : Prop :=
  ∃ path, StoredAt rt entry path ∧ path ∈ ledger.paths

theorem StoredAt.unique {path' : Str} (h : StoredAt rt entry path) (h' : StoredAt rt entry path') :
    path = path' :=
  Option.some.inj (Except.ok.inj (h.symm.trans h'))

theorem LedgerSqla.filter_eq_nil_iff :
    ledger.processedFile.filter (fun old => old.sourcePath = path) = [] ↔ path ∉ ledger.paths := by
  simp [LedgerSqla.paths, List.filter_eq_nil_iff]

theorem LedgerSqla.row?_eq_none_iff : ledger.row? path = none ↔ path ∉ ledger.paths := by
  simp [LedgerSqla.row?, LedgerSqla.paths]

theorem LedgerSqla.insert_ok (h : ledger.insert row = .ok ledger') :
    ledger'.processedFile = ledger.processedFile ++ [row] := by
  unfold LedgerSqla.insert at h
  split at h
  · cases h
    rfl
  · cases h

theorem LedgerSqla.insert_of_not_mem (h : row.sourcePath ∉ ledger.paths) :
    ∃ ledger', ledger.insert row = .ok ledger' :=
  ⟨_, dif_pos (LedgerSqla.filter_eq_nil_iff.mpr h)⟩

theorem Known.status (h : Known entry) :
    ∃ s text status, entry.status = .str s ∧ str? s = some text ∧
      Status.ofStr? text = some status := by
  unfold Known isKnownStatus at h
  split at h
  · cases h
  · cases h
  next s hs =>
    obtain ⟨status, hstatus⟩ := Option.isSome_iff_exists.mp (Except.ok.inj h)
    obtain ⟨text, htext, hof⟩ := Option.bind_eq_some_iff.mp hstatus
    exact ⟨s, text, status, hs, htext, hof⟩
  · cases h

/-- The values of a row are those of its entry. -/
theorem insertRow_ok (h : insertRow rt ledger entry = .ok ledger') :
    Storable rt entry ∧ ∃ row, StoredAt rt entry row.sourcePath ∧
      ledger'.processedFile = ledger.processedFile ++ [row] := by
  unfold insertRow at h
  obtain ⟨sourcePath, hsource, h⟩ := bind_ok h
  obtain ⟨outputPath, houtput, h⟩ := bind_ok h
  obtain ⟨status, hstatus, h⟩ := bind_ok h
  obtain ⟨contentHash, hhash, h⟩ := bind_ok h
  obtain ⟨seriesId, hseries, h⟩ := bind_ok h
  obtain ⟨sourceLang, hlang, h⟩ := bind_ok h
  obtain ⟨episodeKey, hepisode, h⟩ := bind_ok h
  obtain ⟨translatedAt, htranslated, h⟩ := bind_ok h
  obtain ⟨quarantinePath, hquarantine, h⟩ := bind_ok h
  have hoptional : ∀ value ∈ entry.optionalFields, ∃ text, column rt value = .ok text := by
    simp only [LegacyEntry.optionalFields, List.forall_mem_cons]
    exact ⟨⟨_, houtput⟩, ⟨_, hseries⟩, ⟨_, hlang⟩, ⟨_, hepisode⟩, ⟨_, htranslated⟩,
      ⟨_, hquarantine⟩, fun _ h => absurd h List.not_mem_nil⟩
  cases sourcePath with
  | none => cases h
  | some path =>
    cases hknown : status.bind Status.ofStr? with
    | none =>
      rw [hknown] at h
      cases h
    | some known =>
      cases contentHash with
      | none =>
        rw [hknown] at h
        cases h
      | some hash =>
        rw [hknown] at h
        refine ⟨⟨⟨hash, hhash⟩, hoptional⟩, _, ?_, LedgerSqla.insert_ok h⟩
        exact hsource

theorem insertRow_of_storable (hknown : Known entry) (hpath : StoredAt rt entry path)
    (hstorable : Storable rt entry) (hnew : path ∉ ledger.paths) :
    ∃ ledger', insertRow rt ledger entry = .ok ledger' := by
  obtain ⟨⟨hash, hhash⟩, hoptional⟩ := hstorable
  simp only [LegacyEntry.optionalFields, List.forall_mem_cons] at hoptional
  obtain ⟨⟨_, houtput⟩, ⟨_, hseries⟩, ⟨_, hlang⟩, ⟨_, hepisode⟩, ⟨_, htranslated⟩,
    ⟨_, hquarantine⟩, -⟩ := hoptional
  obtain ⟨s, text, status, hs, htext, hof⟩ := hknown.status
  have hstatus : column rt entry.status = .ok (some text) := by
    rw [hs, column, htext]
  unfold insertRow
  rw [show column rt entry.sourcePath = _ from hpath, houtput, hstatus, hhash, hseries, hlang,
    hepisode, htranslated, hquarantine]
  simp only [ok_bind, Option.bind_some, hof]
  exact LedgerSqla.insert_of_not_mem hnew

/-- The two ways an entry goes through. -/
theorem migrateEntry_ok (h : migrateEntry rt ledger entry = .ok ledger') :
    ∃ path, StoredAt rt entry path ∧
      ((path ∈ ledger.paths ∧ ledger' = ledger) ∨
        Storable rt entry ∧ ∃ row : LedgerEntry, row.sourcePath = path ∧
          ledger'.processedFile = ledger.processedFile ++ [row]) := by
  unfold migrateEntry at h
  obtain ⟨sourcePath, hsource, h⟩ := bind_ok h
  obtain ⟨existing, hselect, h⟩ := bind_ok h
  split at h
  next old =>
    cases h
    cases sourcePath with
    | none => cases hselect
    | some path =>
      rw [selectBySourcePath, LedgerSqla.check_eq, ok_mapError] at hselect
      refine ⟨path, hsource, .inl ⟨?_, rfl⟩⟩
      by_contra hnew
      rw [LedgerSqla.row?_eq_none_iff.mpr hnew] at hselect
      cases hselect
  next =>
    obtain ⟨hstorable, row, hrow, heq⟩ := insertRow_ok h
    exact ⟨row.sourcePath, hrow, .inr ⟨hstorable, row, rfl, heq⟩⟩

theorem migrateEntry_of_present (hpath : StoredAt rt entry path) (hmem : path ∈ ledger.paths) :
    migrateEntry rt ledger entry = .ok ledger := by
  obtain ⟨row, hrow⟩ : ∃ row, ledger.row? path = some row := by
    by_contra hnone
    push Not at hnone
    exact LedgerSqla.row?_eq_none_iff.mp (Option.eq_none_iff_forall_ne_some.mpr hnone) hmem
  unfold migrateEntry
  rw [show column rt entry.sourcePath = _ from hpath]
  simp only [ok_bind, selectBySourcePath, LedgerSqla.check_eq, hrow, ok_mapError]

theorem migrateEntry_of_storable (hknown : Known entry) (hpath : StoredAt rt entry path)
    (hstorable : Storable rt entry) : ∃ ledger', migrateEntry rt ledger entry = .ok ledger' := by
  by_cases hmem : path ∈ ledger.paths
  · exact ⟨ledger, migrateEntry_of_present hpath hmem⟩
  · obtain ⟨ledger', hinsert⟩ := insertRow_of_storable hknown hpath hstorable hmem
    refine ⟨ledger', ?_⟩
    unfold migrateEntry
    rw [show column rt entry.sourcePath = _ from hpath]
    simp only [ok_bind, selectBySourcePath, LedgerSqla.check_eq,
      LedgerSqla.row?_eq_none_iff.mpr hmem, ok_mapError, hinsert]

/-- Rows are only added, and the entry's path is among them. -/
theorem migrateEntry_rows (h : migrateEntry rt ledger entry = .ok ledger') :
    ledger.processedFile ⊆ ledger'.processedFile ∧ Present rt ledger' entry := by
  obtain ⟨path, hpath, ⟨hmem, rfl⟩ | ⟨_, row, hrow, heq⟩⟩ := migrateEntry_ok h
  · exact ⟨List.Subset.refl _, path, hpath, hmem⟩
  · rw [heq]
    refine ⟨List.subset_append_left _ _, path, hpath, ?_⟩
    rw [LedgerSqla.paths, heq, ← hrow]
    simp

theorem Present.mono (h : Present rt ledger entry)
    (hrows : ledger.processedFile ⊆ ledger'.processedFile) : Present rt ledger' entry := by
  obtain ⟨path, hpath, hmem⟩ := h
  exact ⟨path, hpath, List.map_subset _ hrows hmem⟩

/-- The loop of the transaction: an invariant of the table and a fact about each entry. -/
theorem migrateEntries_rows :
    ∀ {ledger}, migrateEntries rt ledger entries = .ok ledger' →
      ledger.processedFile ⊆ ledger'.processedFile ∧ ∀ entry ∈ entries, Present rt ledger' entry := by
  induction entries with
  | nil =>
    intro ledger h
    cases h
    exact ⟨List.Subset.refl _, fun _ h => absurd h List.not_mem_nil⟩
  | cons entry entries ih =>
    intro ledger h
    obtain ⟨next, hnext, hrest⟩ := bind_ok h
    obtain ⟨hfirst, hpresent⟩ := migrateEntry_rows hnext
    obtain ⟨hothers, hall⟩ := ih hrest
    refine ⟨List.Subset.trans hfirst hothers, fun e he => ?_⟩
    rcases List.mem_cons.mp he with rfl | he
    · exact hpresent.mono hothers
    · exact hall e he

theorem migrateEntries_of_present (h : ∀ entry ∈ entries, Present rt ledger entry) :
    migrateEntries rt ledger entries = .ok ledger := by
  induction entries with
  | nil => rfl
  | cons entry entries ih =>
    obtain ⟨path, hpath, hmem⟩ := h entry List.mem_cons_self
    unfold migrateEntries at ih ⊢
    rw [List.foldlM_cons, migrateEntry_of_present hpath hmem, ok_bind]
    exact ih fun e he => h e (List.mem_cons_of_mem _ he)

/-- A second transaction over the same entries changes nothing. -/
theorem migrateEntries_idempotent (h : migrateEntries rt ledger entries = .ok ledger') :
    migrateEntries rt ledger' entries = .ok ledger' :=
  migrateEntries_of_present (migrateEntries_rows h).2

theorem mem_paths_migrateEntry {path' : Str} (h : migrateEntry rt ledger entry = .ok ledger')
    (hpath : StoredAt rt entry path) :
    path' ∈ ledger'.paths ↔ path' ∈ ledger.paths ∨ path' = path := by
  obtain ⟨stored, hstored, ⟨hmem, rfl⟩ | ⟨_, row, hrow, heq⟩⟩ := migrateEntry_ok h
  · cases hpath.unique hstored
    constructor
    · exact .inl
    · rintro (h | rfl)
      · exact h
      · exact hmem
  · cases hpath.unique hstored
    simp only [LedgerSqla.paths, heq, List.map_append, List.map_cons, List.map_nil, hrow,
      List.mem_append, List.mem_singleton]

/-- After its first entry the condition is the same one of the next table. -/
theorem insertable_cons_iff (h : migrateEntry rt ledger entry = .ok ledger')
    (hpath : StoredAt rt entry path) :
    Insertable rt ledger (entry :: entries) ↔ Insertable rt ledger' entries := by
  have hwhere : ∀ (before : List LegacyEntry) (stored : Str),
      (stored ∈ ledger'.paths ∨ ∃ earlier ∈ before, StoredAt rt earlier stored) ↔
      (stored ∈ ledger.paths ∨ ∃ earlier ∈ entry :: before, StoredAt rt earlier stored) := by
    intro before stored
    rw [mem_paths_migrateEntry h hpath, or_assoc, List.exists_mem_cons_iff]
    refine or_congr_right (or_congr_left ⟨?_, ?_⟩)
    · rintro rfl
      exact hpath
    · exact fun hstored => hstored.unique hpath
  constructor
  · intro hall before e after heq
    obtain ⟨stored, hstored, hcase⟩ := hall (entry :: before) e after (congrArg (entry :: ·) heq)
    refine ⟨stored, hstored, ?_⟩
    rw [← or_assoc] at hcase ⊢
    rwa [hwhere]
  · intro hall before e after heq
    cases before with
    | nil =>
      cases heq
      obtain ⟨stored, hstored, hcase⟩ := migrateEntry_ok h
      exact ⟨stored, hstored, hcase.imp And.left fun h => .inr h.1⟩
    | cons first before =>
      rw [List.cons_append, List.cons.injEq] at heq
      obtain ⟨rfl, heq⟩ := heq
      obtain ⟨stored, hstored, hcase⟩ := hall before e after heq
      refine ⟨stored, hstored, ?_⟩
      rw [← or_assoc] at hcase ⊢
      rwa [← hwhere]

/-- The transaction commits just when every entry finds its path or a place. -/
theorem migrateEntries_ok_iff (hknown : ∀ entry ∈ entries, Known entry) :
    (∃ ledger', migrateEntries rt ledger entries = .ok ledger') ↔
      Insertable rt ledger entries := by
  induction entries generalizing ledger with
  | nil =>
    refine ⟨fun _ before entry after h => ?_, fun _ => ⟨ledger, rfl⟩⟩
    cases before <;> cases h
  | cons entry entries ih =>
    have hrest := fun e he => hknown e (List.mem_cons_of_mem entry he)
    constructor
    · rintro ⟨ledger', h⟩
      obtain ⟨next, hnext, htail⟩ := bind_ok h
      obtain ⟨path, hpath, -⟩ := migrateEntry_ok hnext
      rw [insertable_cons_iff hnext hpath]
      exact (ih hrest).mp ⟨ledger', htail⟩
    · intro h
      obtain ⟨path, hpath, hcase⟩ := h [] entry entries rfl
      obtain ⟨next, hnext⟩ : ∃ next, migrateEntry rt ledger entry = .ok next := by
        rcases hcase with hmem | ⟨earlier, hearlier, -⟩ | hstorable
        · exact ⟨ledger, migrateEntry_of_present hpath hmem⟩
        · cases hearlier
        · exact migrateEntry_of_storable (hknown entry List.mem_cons_self) hpath hstorable
      obtain ⟨ledger', htail⟩ := (ih hrest).mpr ((insertable_cons_iff hnext hpath).mp h)
      refine ⟨ledger', ?_⟩
      unfold migrateEntries at htail ⊢
      rw [List.foldlM_cons, hnext, ok_bind]
      exact htail

end Trezarr
