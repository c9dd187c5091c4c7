import Trezarr.Output.LedgerProtocol

/-! The SQL ledger: the rows of `processed_file`, one for each source path. -/
namespace Trezarr
open Text Rows

/-- The table's UNIQUE constraint on `source_path` is part of the state. -/
structure LedgerSqla where
  processedFile : List LedgerEntry
  unique : (processedFile.map LedgerEntry.sourcePath).Nodup

namespace LedgerSqla

variable {l : LedgerSqla} {e e' : LedgerEntry} {key : Str}

def empty : LedgerSqla := ⟨[], List.nodup_nil⟩

def check (l : LedgerSqla) (sourcePath : Str) : Except QueryError (Option LedgerEntry) :=
  scalarOneOrNone (l.processedFile.filter (fun row => row.sourcePath = sourcePath))

def checkByOutputPath (l : LedgerSqla) (outputPath : Str) :
    Except QueryError (Option LedgerEntry) :=
  scalarOneOrNone (l.processedFile.filter (fun row => row.outputPath = some outputPath))

def updateRow (e row : LedgerEntry) : LedgerEntry :=
  if row.sourcePath = e.sourcePath then
    { row with
      outputPath := e.outputPath
      status := e.status
      contentHash := e.contentHash
      seriesId := e.seriesId
      sourceLang := e.sourceLang
      episodeKey := e.episodeKey
      translatedAt := e.translatedAt
      quarantinePath := e.quarantinePath }
  else row

@[simp] theorem updateRow_sourcePath (row : LedgerEntry) :
    (updateRow e row).sourcePath = row.sourcePath := by
  unfold updateRow
  split <;> rfl

theorem updateRow_eq (row : LedgerEntry) :
    updateRow e row = if row.sourcePath = e.sourcePath then e else row := by
  unfold updateRow
  split
  · next h => rw [h]
  · rfl

def update (l : LedgerSqla) (e : LedgerEntry) : LedgerSqla where
  processedFile := l.processedFile.map (updateRow e)
  unique := by simpa [List.map_map, Function.comp_def] using l.unique

theorem insert_unique (l : LedgerSqla)
    (h : l.processedFile.filter (fun row => row.sourcePath = e.sourcePath) = []) :
    ((l.processedFile ++ [e]).map LedgerEntry.sourcePath).Nodup := by
  rw [List.filter_eq_nil_iff] at h
  rw [List.map_append, List.nodup_append]
  refine ⟨l.unique, by simp, ?_⟩
  rintro _ ha _ hb rfl
  simp only [List.map_cons, List.map_nil, List.mem_singleton] at hb
  obtain ⟨row, hr, rfl⟩ := List.mem_map.mp ha
  exact h row hr (by simpa using hb)

def record (l : LedgerSqla) (e : LedgerEntry) : Except QueryError LedgerSqla :=
  match h : l.processedFile.filter (fun row => row.sourcePath = e.sourcePath) with
  | [] => .ok ⟨l.processedFile ++ [e], insert_unique l h⟩
  | [_] => .ok (l.update e)
  | _ :: _ :: _ => .error .multipleResultsFound

instance : LedgerProtocol LedgerSqla := ⟨check, checkByOutputPath, record⟩

theorem nodup_processedFile (l : LedgerSqla) : l.processedFile.Nodup :=
  l.unique.of_map _

theorem eq_of_sourcePath (he : e ∈ l.processedFile) (he' : e' ∈ l.processedFile)
    (h : e.sourcePath = e'.sourcePath) : e = e' :=
  List.inj_on_of_nodup_map l.unique he he' h

/-- The row of a source path, the constraint making it the only one. -/
def row? (l : LedgerSqla) (key : Str) : Option LedgerEntry :=
  l.processedFile.find? (fun row => row.sourcePath = key)

theorem mem_iff_row? : e ∈ l.processedFile ↔ l.row? e.sourcePath = some e := by
  constructor
  · intro h
    cases hr : l.row? e.sourcePath with
    | none => simpa using List.find?_eq_none.mp hr e h
    | some e' =>
      have hk : e'.sourcePath = e.sourcePath := by simpa using List.find?_some hr
      rw [eq_of_sourcePath (List.mem_of_find?_eq_some hr) h hk]
  · exact List.mem_of_find?_eq_some

theorem row?_sourcePath (h : l.row? key = some e) : e.sourcePath = key := by
  simpa using List.find?_some h

theorem check_eq (l : LedgerSqla) (key : Str) : l.check key = .ok (l.row? key) := by
  apply scalarOneOrNone_of_unique l.nodup_processedFile
  intro a ha b hb hpa hpb
  exact eq_of_sourcePath ha hb (by simp_all)

theorem checkByOutputPath_ok (hu : ∀ a ∈ l.processedFile, ∀ b ∈ l.processedFile,
    a.outputPath = some key → b.outputPath = some key → a = b) :
    l.checkByOutputPath key = .ok (l.processedFile.find? (fun e => e.outputPath = some key)) := by
  apply scalarOneOrNone_of_unique l.nodup_processedFile
  intro a ha b hb hpa hpb
  exact hu a ha b hb (by simpa using hpa) (by simpa using hpb)

theorem find?_map_updateRow (xs : List LedgerEntry) :
    (xs.map (updateRow e)).find? (fun row => row.sourcePath = key) =
      (xs.find? (fun row => row.sourcePath = key)).map (updateRow e) := by
  have hkey : (fun row => decide (row.sourcePath = key)) ∘ updateRow e =
      fun row => decide (row.sourcePath = key) := by
    funext row
    exact congrArg (fun path => decide (path = key)) (updateRow_sourcePath row)
  rw [List.find?_map, hkey]

/-- The constraint also makes `record` total: it inserts or updates one row. -/
theorem record_ok : ∃ l', l.record e = .ok l' ∧
    ∀ key, l'.row? key = if key = e.sourcePath then some e else l.row? key := by
  have hc := check_eq l e.sourcePath
  rw [check, scalarOneOrNone_ok] at hc
  unfold record
  split
  · next h =>
    rw [h] at hc
    have hn : l.row? e.sourcePath = none := by
      cases hr : l.row? e.sourcePath <;> simp_all
    refine ⟨_, rfl, fun key => ?_⟩
    simp only [row?, List.find?_append] at hn ⊢
    split
    · next hk => subst hk; simp [hn]
    · next hk => simp [Ne.symm hk]
  · next row h =>
    rw [h] at hc
    have hs : l.row? e.sourcePath = some row := by
      cases hr : l.row? e.sourcePath <;> simp_all
    refine ⟨_, rfl, fun key => ?_⟩
    simp only [row?, update, find?_map_updateRow] at hs ⊢
    split
    · next hk =>
      subst hk
      have := row?_sourcePath hs
      simp [hs, updateRow_eq, this]
    · next hk =>
      cases hr : l.processedFile.find? (fun row => row.sourcePath = key) with
      | none => rfl
      | some row' =>
        have : row'.sourcePath = key := row?_sourcePath hr
        simp [updateRow_eq, this, hk]
  · next h =>
    rw [h] at hc
    cases hr : l.row? e.sourcePath <;> simp_all

instance : LawfulLedger LedgerSqla where
  row? := row?
  empty := empty
  row?_empty _ := rfl
  check_eq := check_eq
  record_eq _ _ := record_ok
  byOutput_some := by
    intro l key e h
    have hm : e ∈ l.processedFile.filter (fun row => row.outputPath = some key) := by
      rw [scalarOneOrNone_ok.mp h]
      simp
    rw [List.mem_filter, decide_eq_true_eq] at hm
    exact ⟨hm.2, e.sourcePath, mem_iff_row?.mp hm.1⟩
  byOutput_none := by
    intro l key
    refine scalarOneOrNone_ok.trans ?_
    simp only [Option.toList_none, List.filter_eq_nil_iff, decide_eq_true_eq]
    constructor
    · intro h k e hk
      obtain rfl := row?_sourcePath hk
      exact h e (mem_iff_row?.mpr hk)
    · intro h e he
      exact h e.sourcePath e (mem_iff_row?.mp he)

end LedgerSqla
end Trezarr
