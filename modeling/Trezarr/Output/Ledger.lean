import Trezarr.Lib.Dict
import Trezarr.Output.LedgerProtocol

/-! The JSON ledger: a dictionary from source path to entry, scanned for output paths. -/
namespace Trezarr
open Text

structure Ledger where
  data : Dict Str LedgerEntry

namespace Ledger

variable {l : Ledger} {e : LedgerEntry} {key : Str}

def empty : Ledger := ⟨Dict.empty⟩

def check (l : Ledger) (sourcePath : Str) : Option LedgerEntry := l.data.get? sourcePath

def checkByOutputPath (l : Ledger) (outputPath : Str) : Option LedgerEntry :=
  l.data.values.find? (fun e => e.outputPath = some outputPath)

def record (l : Ledger) (e : LedgerEntry) : Ledger := ⟨l.data.set e.sourcePath e⟩

instance : LedgerProtocol Ledger where
  check l key := .ok (l.check key)
  checkByOutputPath l key := .ok (l.checkByOutputPath key)
  record l e := .ok (l.record e)

@[simp] theorem check_empty : empty.check key = none := rfl

@[simp] theorem check_record :
    (l.record e).check key = if key = e.sourcePath then some e else l.check key :=
  Dict.get?_set

theorem checkByOutputPath_some (h : l.checkByOutputPath key = some e) :
    e.outputPath = some key ∧ ∃ k, l.check k = some e := by
  have hp := List.find?_some h
  have hm := List.mem_of_find?_eq_some h
  exact ⟨by simpa using hp, Dict.mem_values_iff.mp hm⟩

theorem checkByOutputPath_none :
    l.checkByOutputPath key = none ↔ ∀ k e, l.check k = some e → e.outputPath ≠ some key := by
  simp only [checkByOutputPath, List.find?_eq_none, Dict.mem_values_iff, decide_eq_true_eq]
  constructor
  · intro h k e hk
    exact h e ⟨k, hk⟩
  · rintro h e ⟨k, hk⟩
    exact h k e hk

instance : LawfulLedger Ledger where
  row? := check
  empty := empty
  row?_empty _ := rfl
  check_eq _ _ := rfl
  record_eq _ _ := ⟨_, rfl, fun _ => check_record⟩
  byOutput_some h := checkByOutputPath_some (Except.ok.inj h)
  byOutput_none := by simp [LedgerProtocol.checkByOutputPath, checkByOutputPath_none]

end Ledger
end Trezarr
