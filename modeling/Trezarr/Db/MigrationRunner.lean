import Mathlib.Algebra.Group.Int.Defs
import Trezarr.Lib.Json
import Trezarr.Lib.Runs
import Trezarr.Output.LedgerSqla
import Trezarr.Subtitles.Encoding

/-! The one-shot migration of the JSON ledger into `processed_file`, crashes included. -/
namespace Trezarr
open Text Rows Json

/-- What the migration can raise; `osError` comes from the renames of a file it cannot use. -/
inductive MigrationError
  | unicodeDecode
  | loads (e : LoadsError)
  | unhashableStatus
  | unsupportedType
  | overflow
  | unicodeEncode
  | integrity
  | query (e : QueryError)
  | osError
  deriving DecidableEq, Repr

/-- The interpreter's remaining calls, and how SQLite writes a float in a text column. -/
structure Runtime where
  recursionLimit : ℕ
  realText : Str → Str

def Status.ofStr? (s : Str) : Option Status :=
  if s = ("done" : Str) then some .done
  else if s = ("quarantined" : Str) then some .quarantined
  else if s = ("in_progress" : Str) then some .inProgress
  else none

/-- A `LedgerEntry` built from JSON: its fields have whatever type the file gives them. -/
structure LegacyEntry where
  sourcePath : Json
  outputPath : Json
  status : Json
  contentHash : Json
  seriesId : Json
  sourceLang : Json
  episodeKey : Json
  translatedAt : Json
  quarantinePath : Json

section Reading

def universalNewlines : Str → Str
  | '\r' :: '\n' :: s => '\n' :: universalNewlines s
  | '\r' :: s => '\n' :: universalNewlines s
  | c :: s => c :: universalNewlines s
  | [] => []

/-- Nothing for a file that is no JSON; other failures of the reader are raised. -/
def readLedger (rt : Runtime) (content : Bytes) : Except MigrationError (Option Json) :=
  match decodeUtf8? content with
  | none => .error .unicodeDecode
  | some text =>
    match Json.loads rt.recursionLimit (universalNewlines text) with
    | .ok raw => .ok (some raw)
    | .error .decode => .ok none
    | .error e => .error (.loads e)

/-- A field without a default has to be there. -/
def legacyEntry? (members : List (List CodePoint × Json)) : Option LegacyEntry := do
  let sourcePath ← field? "source_path" members
  let outputPath ← field? "output_path" members
  let status ← field? "status" members
  let contentHash ← field? "content_hash" members
  return {
    sourcePath, outputPath, status, contentHash
    seriesId := (field? "series_id" members).getD .null
    sourceLang := (field? "source_lang" members).getD .null
    episodeKey := (field? "episode_key" members).getD .null
    translatedAt := (field? "translated_at" members).getD .null
    quarantinePath := (field? "quarantine_path" members).getD .null }

/-- `in` hashes what it looks for in the set. -/
def isKnownStatus : Json → Except MigrationError Bool
  | .arr _ => .error .unhashableStatus
  | .obj _ => .error .unhashableStatus
  | .str s => .ok ((str? s).bind Status.ofStr?).isSome
  | _ => .ok false

def acceptEntry : Json → Except MigrationError (Option LegacyEntry)
  | .obj members =>
    match legacyEntry? members with
    | none => .ok none
    | some entry => do
      if ← isKnownStatus entry.status then .ok (some entry) else .ok none
  | _ => .ok none

def acceptEntries (values : List Json) : Except MigrationError (List LegacyEntry) :=
  (values.mapM acceptEntry).map List.reduceOption

end Reading

section Inserting

/-- A value as it is bound for a text column and as the column keeps it; NaN is kept as NULL. -/
def column (rt : Runtime) : Json → Except MigrationError (Option Str)
  | .null => .ok none
  | .bool b => .ok (some (if b then "1" else "0"))
  | .int n => if -2 ^ 63 ≤ n ∧ n < 2 ^ 63 then .ok (some (toString n)) else .error .overflow
  | .real literal => .ok (if literal = ("NaN" : Str) then none else some (rt.realText literal))
  | .str s =>
    match str? s with
    | some text => .ok (some text)
    | none => .error .unicodeEncode
  | .arr _ => .error .unsupportedType
  | .obj _ => .error .unsupportedType

def LedgerSqla.insert (ledger : LedgerSqla) (row : LedgerEntry) :
    Except MigrationError LedgerSqla :=
  if h : ledger.processedFile.filter (fun old => old.sourcePath = row.sourcePath) = [] then
    .ok ⟨ledger.processedFile ++ [row], ledger.insert_unique h⟩
  else .error .integrity

/-- The values are bound first, then the table's constraints are checked. -/
def insertRow (rt : Runtime) (ledger : LedgerSqla) (entry : LegacyEntry) :
    Except MigrationError LedgerSqla := do
  let sourcePath ← column rt entry.sourcePath
  let outputPath ← column rt entry.outputPath
  let status ← column rt entry.status
  let contentHash ← column rt entry.contentHash
  let seriesId ← column rt entry.seriesId
  let sourceLang ← column rt entry.sourceLang
  let episodeKey ← column rt entry.episodeKey
  let translatedAt ← column rt entry.translatedAt
  let quarantinePath ← column rt entry.quarantinePath
  match sourcePath, status.bind Status.ofStr?, contentHash with
  | some sourcePath, some status, some contentHash =>
    ledger.insert { sourcePath, outputPath, status, contentHash, seriesId, sourceLang, episodeKey,
                    translatedAt, quarantinePath }
  | _, _, _ => .error .integrity

/-- No row has NULL for its path. -/
def selectBySourcePath (ledger : LedgerSqla) :
    Option Str → Except MigrationError (Option LedgerEntry)
  | some path => (ledger.check path).mapError .query
  | none => .ok none

/-- A row that is there already is kept. -/
def migrateEntry (rt : Runtime) (ledger : LedgerSqla) (entry : LegacyEntry) :
    Except MigrationError LedgerSqla := do
  match ← selectBySourcePath ledger (← column rt entry.sourcePath) with
  | some _ => .ok ledger
  | none => insertRow rt ledger entry

/-- One transaction: the rows of an error are not kept. -/
def migrateEntries (rt : Runtime) (ledger : LedgerSqla) (entries : List LegacyEntry) :
    Except MigrationError LedgerSqla :=
  entries.foldlM (migrateEntry rt) ledger

end Inserting

section Stages

inductive Bak
  | migrated
  | corrupt
  deriving DecidableEq, Repr

/-- The ledger file and the siblings named after it. -/
structure LegacyFiles where
  json : Option Bytes
  migratedBak : Option Bytes := none
  corruptBak : Option Bytes := none
  renameBlocked : Bool := false

def LegacyFiles.replace (files : LegacyFiles) : Bak → LegacyFiles
  | .migrated => { files with json := none, migratedBak := files.json }
  | .corrupt => { files with json := none, corruptBak := files.json }

/-- Which of the next step's file operations succeed. -/
structure FileCalls where
  reads : Bool := true
  replaces : Bool := true
  writes : Bool := true
  deriving DecidableEq

/-- Where the function stands between two steps that outlive a crash. -/
inductive MigrationStage
  | starting
  | parking (bak : Bak)
  | inserting (entries : List LegacyEntry)
  | committed
  | ended (result : Except MigrationError Unit)

structure Migration where
  files : LegacyFiles
  ledger : LedgerSqla
  stage : MigrationStage := .starting

def planFor (rt : Runtime) (content : Bytes) : MigrationStage :=
  match readLedger rt content with
  | .error e => .ended (.error e)
  | .ok none => .parking .corrupt
  | .ok (some (.obj items)) =>
    match acceptEntries (items.map Prod.snd) with
    | .error e => .ended (.error e)
    | .ok [] => .parking .migrated
    | .ok entries => .inserting entries
  | .ok (some _) => .parking .corrupt

def begin (rt : Runtime) (calls : FileCalls) (files : LegacyFiles) : MigrationStage :=
  if files.migratedBak.isSome then .ended (.ok ())
  else if files.corruptBak.isSome then .ended (.ok ())
  else if files.renameBlocked then .ended (.ok ())
  else match files.json with
    | none => .ended (.ok ())
    | some content => if calls.reads then planFor rt content else .parking .corrupt

/-- `migrate_json_ledger_if_needed` up to its next lasting effect. -/
def Migration.advance (rt : Runtime) (calls : FileCalls) (m : Migration) : Migration :=
  match m.stage with
  | .starting => { m with stage := begin rt calls m.files }
  | .parking bak =>
    if calls.replaces then { m with files := m.files.replace bak, stage := .ended (.ok ()) }
    else { m with stage := .ended (.error .osError) }
  | .inserting entries =>
    match migrateEntries rt m.ledger entries with
    | .ok ledger => { m with ledger, stage := .committed }
    | .error e => { m with stage := .ended (.error e) }
  | .committed =>
    if calls.replaces then { m with files := m.files.replace .migrated, stage := .ended (.ok ()) }
    else
      { m with
        files := { m.files with renameBlocked := m.files.renameBlocked || calls.writes }
        stage := .ended (.ok ()) }
  | .ended _ => m

/-- `restart` is a crash, or the next start of the program after the function is over. -/
inductive MigrationEvent
  | advance (calls : FileCalls)
  | restart

def migrationStep (rt : Runtime) (m : Migration) : MigrationEvent → Migration
  | .advance calls => m.advance rt calls
  | .restart => { m with stage := .starting }

end Stages

end Trezarr
