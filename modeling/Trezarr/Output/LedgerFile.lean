import Trezarr.Db.MigrationRunner
import Trezarr.Lib.JsonDump
import Trezarr.Output.Backends
import Trezarr.Subtitles.Codec

/-! The file behind the JSON ledger: what `_write` leaves there, and what `_load` makes of it. -/
namespace Trezarr
open Text Json Runs

section Files

def Status.text : Status → Str
  | .done => "done"
  | .quarantined => "quarantined"
  | .inProgress => "in_progress"

def optionalText : Option Str → Json
  | none => .null
  | some text => .str (points text)

/-- An entry as the class keeps it, which checks no types. -/
def LedgerEntry.legacy (e : LedgerEntry) : LegacyEntry where
  sourcePath := .str (points e.sourcePath)
  outputPath := optionalText e.outputPath
  status := .str (points e.status.text)
  contentHash := .str (points e.contentHash)
  seriesId := optionalText e.seriesId
  sourceLang := optionalText e.sourceLang
  episodeKey := optionalText e.episodeKey
  translatedAt := optionalText e.translatedAt
  quarantinePath := optionalText e.quarantinePath

def LegacyEntry.asdict (e : LegacyEntry) : List (List CodePoint × Json) :=
  [(points "source_path", e.sourcePath), (points "output_path", e.outputPath),
    (points "status", e.status), (points "content_hash", e.contentHash),
    (points "series_id", e.seriesId), (points "source_lang", e.sourceLang),
    (points "episode_key", e.episodeKey), (points "translated_at", e.translatedAt),
    (points "quarantine_path", e.quarantinePath)]

abbrev LedgerData := Dict (List CodePoint) LegacyEntry

def ledgerJson (data : LedgerData) : Json :=
  .obj (data.entries.map fun entry => (entry.1, .obj entry.2.asdict))

/-- What `_write` puts into the file. -/
def ledgerContent (data : LedgerData) : Bytes := encodeUtf8 (dumps 2 (ledgerJson data))

def loadEntry (member : List CodePoint × Json) : Option (List CodePoint × LegacyEntry) :=
  match member.2 with
  | .obj fields => Option.map (fun entry => (member.1, entry)) <| legacyEntry? fields
  | _ => none

/-- `_load`; only a file that is no JSON is passed over, other failures of the reader are raised. -/
def loadLedger (rt : Runtime) : Option Bytes → Except MigrationError LedgerData
  | none => .ok Dict.empty
  | some content =>
    match readLedger rt content with
    | .error e => .error e
    | .ok (some (.obj members)) => .ok (Dict.ofList (members.filterMap loadEntry))
    | .ok _ => .ok Dict.empty

end Files

section Processes

/-- A ledger in a process, and the file it was loaded from. Its calls are made one at a time. -/
structure LedgerProcess where
  data : LedgerData
  file : Option Bytes

/-- `replaced` says if `_write` gets as far as its rename; if not, the file stays as it was. -/
inductive LedgerEvent
  | record (entry : LedgerEntry) (replaced : Bool)
  | restart

namespace LedgerProcess

def start : LedgerProcess := ⟨Dict.empty, none⟩

def check (p : LedgerProcess) (sourcePath : Str) : Option LegacyEntry :=
  p.data.get? (points sourcePath)

/-- A field that is a string is compared with the path; any other value differs from it. -/
def hasOutputPath (outputPath : Str) (entry : LegacyEntry) : Bool :=
  match entry.outputPath with
  | .str s => s = points outputPath
  | _ => false

def checkByOutputPath (p : LedgerProcess) (outputPath : Str) : Option LegacyEntry :=
  p.data.values.find? (hasOutputPath outputPath)

def step (rt : Runtime) (p : LedgerProcess) : LedgerEvent → Except MigrationError LedgerProcess
  | .record entry replaced =>
    let data := p.data.set (points entry.sourcePath) entry.legacy
    .ok ⟨data, if replaced then some (ledgerContent data) else p.file⟩
  | .restart => (loadLedger rt p.file).map fun data => ⟨data, p.file⟩

end LedgerProcess

end Processes

/-- What the file is for: the entries in use, and those that the last rename has saved. -/
structure DurableLedger where
  now : Ledger
  saved : Ledger

namespace DurableLedger

def empty : DurableLedger := ⟨.empty, .empty⟩

def step (d : DurableLedger) : LedgerEvent → DurableLedger
  | .record entry replaced =>
    ⟨d.now.record entry, if replaced then d.now.record entry else d.saved⟩
  | .restart => ⟨d.saved, d.saved⟩

end DurableLedger

section Loading

variable {rt : Runtime}

theorem points_injective : Function.Injective points :=
  List.map_injective_iff.mpr fun _ _ h => CodePoint.char.inj h

/-- The typed entries as the class keeps them. -/
def Ledger.legacyData (l : Ledger) : LedgerData :=
  l.data.map points LedgerEntry.legacy points_injective

theorem printable_optionalText (depth : ℕ) (s : Option Str) : Printable depth (optionalText s) := by
  cases s with
  | none => exact .null
  | some text => exact .str text

def ledgerFields : List Str :=
  ["source_path", "output_path", "status", "content_hash", "series_id", "source_lang",
    "episode_key", "translated_at", "quarantine_path"]

theorem asdict_keys (e : LegacyEntry) : e.asdict.map Prod.fst = ledgerFields.map points := rfl

theorem printable_asdict (depth : ℕ) (e : LedgerEntry) :
    Printable (depth + 1) (.obj e.legacy.asdict) := by
  refine .obj ?_ ?_ ?_
  · have hfields : ledgerFields.Nodup := by decide
    rw [asdict_keys]
    exact hfields.map points_injective
  · intro member hmember
    simp only [LegacyEntry.asdict, List.mem_cons, List.not_mem_nil, or_false] at hmember
    rcases hmember with rfl | rfl | rfl | rfl | rfl | rfl | rfl | rfl | rfl <;> exact ⟨_, rfl⟩
  · intro member hmember
    simp only [LegacyEntry.asdict, List.mem_cons, List.not_mem_nil, or_false] at hmember
    rcases hmember with rfl | rfl | rfl | rfl | rfl | rfl | rfl | rfl | rfl
    all_goals first | exact .str _ | exact printable_optionalText depth _

theorem printable_ledgerJson (depth : ℕ) (l : Ledger) :
    Printable (depth + 2) (ledgerJson l.legacyData) := by
  refine .obj ?_ ?_ ?_
  · have hkeys := l.legacyData.nodup
    rwa [List.map_map]
  · intro member hmember
    obtain ⟨entry, hentry, rfl⟩ := List.mem_map.mp hmember
    obtain ⟨typed, _, rfl⟩ := List.mem_map.mp hentry
    exact ⟨typed.1, rfl⟩
  · intro member hmember
    obtain ⟨entry, hentry, rfl⟩ := List.mem_map.mp hmember
    obtain ⟨typed, _, rfl⟩ := List.mem_map.mp hentry
    exact printable_asdict depth typed.2

theorem universalNewlines_of_not_mem {s : Str} (h : '\r' ∉ s) : universalNewlines s = s := by
  induction s with
  | nil => rfl
  | cons c s ih =>
    obtain ⟨hc, hs⟩ := List.ne_and_not_mem_of_not_mem_cons h
    rw [universalNewlines, ih hs]
    · rintro t rfl
      exact absurd rfl hc
    · rintro rfl
      exact absurd rfl hc

theorem universalNewlines_dumps (indent : ℕ) {depth : ℕ} {value : Json}
    (h : Printable depth value) :
    universalNewlines (dumps indent value) = dumps indent value := by
  apply universalNewlines_of_not_mem
  intro hmem
  rcases plain_dumpsAt h 0 '\r' hmem with hfeed | ⟨hlow, _⟩
  · cases hfeed
  · exact absurd hlow (by decide)

theorem readLedger_content (hlimit : 2 ≤ rt.recursionLimit) (l : Ledger) :
    readLedger rt (ledgerContent l.legacyData) = .ok (some (ledgerJson l.legacyData)) := by
  obtain ⟨depth, hdepth⟩ := Nat.exists_eq_add_of_le' hlimit
  have hprint : Printable rt.recursionLimit (ledgerJson l.legacyData) := by
    rw [hdepth]
    exact printable_ledgerJson depth l
  unfold readLedger ledgerContent
  rw [decodeUtf8?_encodeUtf8]
  dsimp only
  rw [universalNewlines_dumps 2 hprint, loads_dumps 2 hprint]

/-- What was written is loaded as it was, the entries in their order. -/
theorem loadLedger_content (hlimit : 2 ≤ rt.recursionLimit) (l : Ledger) :
    loadLedger rt (some (ledgerContent l.legacyData)) = .ok l.legacyData := by
  have hread := readLedger_content hlimit l
  have hentries : (l.legacyData.entries.map fun entry =>
      (entry.1, Json.obj entry.2.asdict)).filterMap loadEntry = l.legacyData.entries := by
    rw [List.filterMap_map]
    exact List.filterMap_some
  rw [loadLedger, hread]
  show Except.ok (Dict.ofList _) = _
  rw [hentries, Dict.ofList_entries]

end Loading

section Durability

variable {rt : Runtime} {d : DurableLedger} {p : LedgerProcess} {key : Str}

/-- The process has the entries in use, and its file, if there is one, the saved ones. -/
structure DurableLedger.Holds (d : DurableLedger) (p : LedgerProcess) : Prop where
  now : p.data = d.now.legacyData
  file : p.file = none ∧ d.saved = .empty ∨ p.file = some (ledgerContent d.saved.legacyData)

theorem DurableLedger.Holds.loads (hlimit : 2 ≤ rt.recursionLimit) (h : d.Holds p) :
    loadLedger rt p.file = .ok d.saved.legacyData := by
  rcases h.file with ⟨hfile, hsaved⟩ | hfile
  · rw [hfile, hsaved]
    rfl
  · rw [hfile]
    exact loadLedger_content hlimit d.saved

theorem legacyData_record (l : Ledger) (e : LedgerEntry) :
    l.legacyData.set (points e.sourcePath) e.legacy = (l.record e).legacyData :=
  Dict.map_set points_injective e.sourcePath e

/-- No event raises, and each does to the process and its file what it does to the entries. -/
theorem DurableLedger.Holds.step (hlimit : 2 ≤ rt.recursionLimit) (h : d.Holds p)
    (event : LedgerEvent) : ∃ p', p.step rt event = .ok p' ∧ (d.step event).Holds p' := by
  cases event with
  | record e replaced =>
    have hdata : p.data.set (points e.sourcePath) e.legacy = (d.now.record e).legacyData := by
      rw [h.now, legacyData_record]
    refine ⟨_, rfl, hdata, ?_⟩
    cases replaced with
    | true => exact .inr (congrArg (some ∘ ledgerContent) hdata)
    | false => exact h.file
  | restart =>
    refine ⟨⟨d.saved.legacyData, p.file⟩, ?_, rfl, h.file⟩
    rw [LedgerProcess.step, h.loads hlimit]
    rfl

theorem DurableLedger.Holds.run (hlimit : 2 ≤ rt.recursionLimit) (events : List LedgerEvent) :
    ∀ {d : DurableLedger} {p : LedgerProcess}, d.Holds p →
      ∃ p', events.foldlM (LedgerProcess.step rt) p = .ok p' ∧
        (run DurableLedger.step d events).Holds p' := by
  induction events with
  | nil =>
    intro d p h
    exact ⟨p, rfl, h⟩
  | cons event events ih =>
    intro d p h
    obtain ⟨p₁, hstep, h₁⟩ := h.step hlimit event
    obtain ⟨p₂, hrun, h₂⟩ := ih h₁
    refine ⟨p₂, ?_, h₂⟩
    rw [List.foldlM_cons, hstep]
    exact hrun

theorem DurableLedger.Holds.check_eq (h : d.Holds p) (key : Str) :
    p.check key = (d.now.check key).map LedgerEntry.legacy := by
  rw [LedgerProcess.check, h.now]
  exact Dict.get?_map points_injective key

def savedEntry : LedgerEntry where
  sourcePath := "/tv/E01.en.srt"
  outputPath := some "/tv/E01.vi.srt"
  status := .done
  contentHash := "a0"

end Durability

end Trezarr
