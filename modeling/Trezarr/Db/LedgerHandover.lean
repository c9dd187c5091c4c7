import Trezarr.Db.LedgerMigration
import Trezarr.Output.LedgerFile

/-! The two ledgers across the migration: what the JSON file held, the table holds afterwards. -/
namespace Trezarr
open Text Json Runs Fallible

variable {rt : Runtime} {l : Ledger} {e : LedgerEntry} {entries : List LedgerEntry}
  {ledger : LedgerSqla} {key : Str}

/-- Every entry stands under its own source path. -/
def Ledger.Keyed (l : Ledger) : Prop := ∀ entry ∈ l.data.entries, entry.1 = entry.2.sourcePath

theorem Ledger.Keyed.record (h : l.Keyed) (e : LedgerEntry) : (l.record e).Keyed := by
  rintro ⟨k, e'⟩ hmem
  have hget : (l.record e).data.get? k = some e' := Dict.mem_entries_iff.mp hmem
  rw [Ledger.record, Dict.get?_set] at hget
  split at hget
  next heq =>
    cases hget
    exact heq
  next => exact h _ (Dict.mem_entries_iff.mpr hget)

theorem Ledger.Keyed.nodup (h : l.Keyed) :
    (l.data.values.map LedgerEntry.sourcePath).Nodup := by
  have hkeys : l.data.values.map LedgerEntry.sourcePath = l.data.keys := by
    rw [Dict.values, Dict.keys, List.map_map]
    exact List.map_congr_left fun entry hentry => (h entry hentry).symm
  rw [hkeys]
  exact l.data.nodup

/-- The rows that the entries become. -/
def Ledger.table (l : Ledger) (h : l.Keyed) : LedgerSqla := ⟨l.data.values, h.nodup⟩

end Trezarr
