import Trezarr.Lib.Rows
import Trezarr.Lib.Text

/-! The ledger's entry and the interface both of its backends offer. -/
namespace Trezarr
open Text

inductive Status
  | done
  | quarantined
  | inProgress
  deriving DecidableEq, Repr

structure LedgerEntry where
  sourcePath : Str
  outputPath : Option Str
  status : Status
  contentHash : Str
  seriesId : Option Str := none
  sourceLang : Option Str := none
  episodeKey : Option Str := none
  translatedAt : Option Str := none
  quarantinePath : Option Str := none
  deriving DecidableEq, Repr

/-- Every call answers or raises; `record` answers with the ledger as it leaves it. -/
class LedgerProtocol (L : Type) where
  check : L → Str → Except Rows.QueryError (Option LedgerEntry)
  checkByOutputPath : L → Str → Except Rows.QueryError (Option LedgerEntry)
  record : L → LedgerEntry → Except Rows.QueryError L

/-- A backend keeps the last entry recorded for each source path and looks entries up by it. -/
class LawfulLedger (L : Type) extends LedgerProtocol L where
  row? : L → Str → Option LedgerEntry
  empty : L
  row?_empty : ∀ key, row? empty key = none
  check_eq : ∀ l key, check l key = .ok (row? l key)
  record_eq : ∀ l e, ∃ l', record l e = .ok l' ∧
    ∀ key, row? l' key = if key = e.sourcePath then some e else row? l key
  byOutput_some : ∀ {l key e}, checkByOutputPath l key = .ok (some e) →
    e.outputPath = some key ∧ ∃ k, row? l k = some e
  byOutput_none : ∀ {l key}, checkByOutputPath l key = .ok none ↔
    ∀ k e, row? l k = some e → e.outputPath ≠ some key

end Trezarr
