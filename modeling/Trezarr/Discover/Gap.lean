import Trezarr.Lib.Fallible
import Trezarr.Output.LedgerProtocol
import Trezarr.Output.Sidecar

/-! Which source subtitles are queued for translation. -/
namespace Trezarr
open Text Rows LedgerProtocol

inductive Eligibility
  | noSource (path : Path)
  | foreignSidecar (viPath : Path)
  | unreadable (exc : OSError)
  | unchanged
  | richerSource
  | changed
  | retry
  | resume
  | newItem
  deriving DecidableEq, Repr

namespace Eligibility

def eligible : Eligibility → Bool
  | noSource _ | foreignSidecar _ | unreadable _ | unchanged => false
  | richerSource | changed | retry | resume | newItem => true

def reason : Eligibility → Str
  | noSource path => "no source subtitle at " ++ path.str
  | foreignSidecar viPath => "foreign vi sidecar at " ++ viPath.str ++ " — not ours, skipping"
  | unreadable exc => "source subtitle unreadable: " ++ exc.text
  | unchanged => "already translated (source unchanged)"
  | richerSource => "richer source available — re-translating"
  | changed => "source subtitle changed — re-translating"
  | retry => "retrying previously quarantined item"
  | resume => "resuming in-progress item (possibly crashed run)"
  | newItem => "new item"

end Eligibility

/-- The ledger is asked under the path as it is given. -/
def isEligible {L : Type} [LedgerProtocol L] (contentHash : Bytes → Str) (fs : FileSystem)
    (sourceSubPath : Path) (ledger : L) : Except QueryError Eligibility :=
  if !fs.exists? sourceSubPath then .ok (.noSource sourceSubPath)
  else do
    let viPath := deriveViSidecarPath fs sourceSubPath
    match ← check ledger sourceSubPath.str with
    | none =>
      if fs.exists? viPath then
        match ← checkByOutputPath ledger viPath.str with
        | some _ => return .richerSource
        | none => return .foreignSidecar viPath
      else return .newItem
    | some entry =>
      if entry.status = .done ∧ fs.exists? viPath then
        match fs.readBytes sourceSubPath with
        | .error exc => return .unreadable exc
        | .ok bytes =>
          if entry.contentHash = contentHash bytes then return .unchanged else return .changed
      else match entry.status with
        | .quarantined => return .retry
        | .inProgress => return .resume
        | .done => return .newItem

/-- The verdict in terms of the row and of what is found under the sidecar's path. -/
theorem isEligible_eligible_iff {L : Type} [LawfulLedger L] {contentHash : Bytes → Str}
    {fs : FileSystem} {p : Path} {ledger : L} :
    (∃ v, isEligible contentHash fs p ledger = .ok v ∧ v.eligible = true) ↔
      fs.exists? p = true ∧ (fs.exists? (deriveViSidecarPath fs p) = true →
        match LawfulLedger.row? ledger p.str with
        | none => ∃ prior,
          checkByOutputPath ledger (deriveViSidecarPath fs p).str = .ok (some prior)
        | some entry => entry.status = .done →
          ∃ bytes, fs.readBytes p = .ok bytes ∧ entry.contentHash ≠ contentHash bytes) := by
  unfold isEligible
  simp only [LawfulLedger.check_eq, Fallible.ok_bind]
  cases hp : fs.exists? p with
  | false => simp [Eligibility.eligible]
  | true =>
    simp only [Bool.not_true, Bool.false_eq_true, if_false, true_and]
    cases hd : fs.exists? (deriveViSidecarPath fs p) with
    | false =>
      cases LawfulLedger.row? ledger p.str with
      | none => simp [Eligibility.eligible]
      | some entry => cases hs : entry.status <;> simp [hs, Eligibility.eligible]
    | true =>
      cases LawfulLedger.row? ledger p.str with
      | none =>
        rcases checkByOutputPath ledger (deriveViSidecarPath fs p).str with err | _ | prior <;>
          simp [Eligibility.eligible]
      | some entry =>
        cases hs : entry.status with
        | done =>
          cases fs.readBytes p with
          | error err => simp [hs, Eligibility.eligible]
          | ok bytes =>
            by_cases hh : entry.contentHash = contentHash bytes <;>
              simp [hs, hh, Eligibility.eligible]
        | quarantined => simp [hs, Eligibility.eligible]
        | inProgress => simp [hs, Eligibility.eligible]

end Trezarr
