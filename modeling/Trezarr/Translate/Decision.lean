import Trezarr.Discover.Gap
import Trezarr.Lib.Fallible
import Trezarr.Output.Ledger

/-! The decision table a translation starts with, beside the one that queued it. -/
namespace Trezarr
open Text Rows Fallible LedgerProtocol LawfulLedger

/-- What a run knows when it decides to translate. -/
structure Job where
  path : Path
  dest : Path
  contentHash : Str
  deriving DecidableEq, Repr

inductive DecisionError
  | os (err : OSError)
  | ledger (err : QueryError)
  deriving DecidableEq, Repr

/-- Steps 1 to 3: no job means skipped. The ledger is asked under the resolved path. -/
def decisionTable {L : Type} [LedgerProtocol L] (contentHash : Bytes → Str) (fs : FileSystem)
    (ledger : L) (path : Path) : Except DecisionError (Option Job) := do
  let path := fs.resolve path
  let sourceBytes ← (fs.readBytes path).mapError .os
  let dest := deriveViSidecarPath fs path
  let job : Job := ⟨path, dest, contentHash sourceBytes⟩
  match ← (check ledger path.str).mapError .ledger with
  | none =>
    if fs.exists? dest then
      match ← (checkByOutputPath ledger dest.str).mapError .ledger with
      | none => return none
      | some _ => return some job
    else return some job
  | some entry =>
    if entry.status = .done ∧ fs.exists? dest ∧ entry.contentHash = job.contentHash then return none
    else return some job

def DoneUnchanged (hash : Str) (entry : LedgerEntry) : Prop :=
  entry.status = .done ∧ entry.contentHash = hash

/-- With the sidecar present: what lets a source be queued, -/
def Proceeds (hash : Str) (row : Option LedgerEntry)
    (lookup : Except QueryError (Option LedgerEntry)) : Prop :=
  match row with
  | none => ∃ prior, lookup = .ok (some prior)
  | some entry => ¬ DoneUnchanged hash entry

/-- and what makes a run skip it. -/
def Skips (hash : Str) (row : Option LedgerEntry)
    (lookup : Except QueryError (Option LedgerEntry)) : Prop :=
  match row with
  | none => lookup = .ok none
  | some entry => DoneUnchanged hash entry

/-- The rows of the given and of the resolved path lead to the same verdict. -/
def SameVerdict (hash : Str) (lookup : Except QueryError (Option LedgerEntry)) :
    Option LedgerEntry → Option LedgerEntry → Prop
  | none, none => ∃ prior, lookup = .ok prior
  | some entry, some entry' => DoneUnchanged hash entry ↔ DoneUnchanged hash entry'
  | none, some entry' => (∃ prior, lookup = .ok (some prior)) ↔ ¬ DoneUnchanged hash entry'
  | some entry, none => DoneUnchanged hash entry ↔ lookup = .ok none

variable {L : Type} [LawfulLedger L] {contentHash : Bytes → Str} {fs : FileSystem} {ledger : L}
  {p : Path} {bytes : Bytes} {hash : Str} {lookup : Except QueryError (Option LedgerEntry)}

theorem sameVerdict_iff {row row' : Option LedgerEntry} : SameVerdict hash lookup row row' ↔
    (Proceeds hash row lookup ↔ ¬ Skips hash row' lookup) := by
  cases row with
  | none =>
    cases row' with
    | none => rcases lookup with err | _ | prior <;> simp [SameVerdict, Proceeds, Skips]
    | some entry' => rfl
  | some entry => cases row' <;> simp only [SameVerdict, Proceeds, Skips] <;> tauto

theorem isEligible_iff (h : fs.readBytes p = .ok bytes) :
    (∃ v, isEligible contentHash fs p ledger = .ok v ∧ v.eligible = true) ↔
      (fs.exists? (deriveViSidecarPath fs p) = true →
        Proceeds (contentHash bytes) (row? ledger p.str)
          (checkByOutputPath ledger (deriveViSidecarPath fs p).str)) := by
  rw [isEligible_eligible_iff, and_iff_right (FileSystem.exists?_of_readBytes h)]
  refine imp_congr_right fun _ => ?_
  cases row? ledger p.str with
  | none => rfl
  | some entry => simp [Proceeds, DoneUnchanged, h]

theorem decisionTable_iff (h : fs.readBytes p = .ok bytes) :
    decisionTable contentHash fs ledger p = .ok none ↔
      fs.exists? (deriveViSidecarPath fs p) = true ∧
        Skips (contentHash bytes) (row? ledger (fs.resolve p).str)
          (checkByOutputPath ledger (deriveViSidecarPath fs p).str) := by
  simp only [decisionTable, FileSystem.readBytes_resolve_ok h, check_eq, ok_bind, ok_mapError,
    deriveViSidecarPath_resolve]
  cases hd : fs.exists? (deriveViSidecarPath fs p) with
  | false =>
    cases row? ledger (fs.resolve p).str <;> simp
  | true =>
    cases row? ledger (fs.resolve p).str with
    | none =>
      rcases checkByOutputPath ledger (deriveViSidecarPath fs p).str with err | _ | prior <;>
        simp [Skips]
    | some entry =>
      by_cases hh : DoneUnchanged (contentHash bytes) entry
      · simp [Skips, hh, hh.1, hh.2]
      · have hh' : ¬ (entry.status = .done ∧ entry.contentHash = contentHash bytes) := hh
        simp [Skips, hh, hh']

/-- A source that is skipped can be read, and what skips it is in its row or in none. -/
theorem decisionTable_none (h : decisionTable contentHash fs ledger p = .ok none) :
    ∃ bytes, fs.readBytes p = .ok bytes ∧
      Skips (contentHash bytes) (row? ledger (fs.resolve p).str)
        (checkByOutputPath ledger (deriveViSidecarPath fs p).str) := by
  obtain ⟨bytes, hbytes, _⟩ := bind_ok h
  have hread := FileSystem.readBytes_resolve_iff.mp (mapError_ok hbytes)
  exact ⟨bytes, hread, ((decisionTable_iff hread).mp h).2⟩

/-- A job over a sidecar that exists comes from a row that lets it proceed. -/
theorem decisionTable_job {job : Job} (h : decisionTable contentHash fs ledger p = .ok (some job)) :
    job.path = fs.resolve p ∧ job.dest = deriveViSidecarPath fs p ∧
    ∃ bytes, fs.readBytes p = .ok bytes ∧ job.contentHash = contentHash bytes ∧
      (fs.exists? job.dest = true → Proceeds job.contentHash (row? ledger job.path.str)
        (checkByOutputPath ledger job.dest.str)) := by
  simp only [decisionTable, deriveViSidecarPath_resolve, check_eq, ok_mapError, ok_bind] at h
  obtain ⟨bytes, hbytes, h'⟩ := bind_ok h
  have hread := FileSystem.readBytes_resolve_iff.mp (mapError_ok hbytes)
  cases hrow : row? ledger (fs.resolve p).str with
  | none =>
    simp only [hrow] at h'
    split at h'
    next =>
      obtain ⟨prior, hprior, h''⟩ := bind_ok h'
      cases prior with
      | none => cases h''
      | some prior =>
        cases h''
        refine ⟨rfl, rfl, bytes, hread, rfl, fun _ => ?_⟩
        simp only [Proceeds, hrow]
        exact ⟨prior, mapError_ok hprior⟩
    next hnone =>
      cases h'
      exact ⟨rfl, rfl, bytes, hread, rfl, fun hsome => absurd hsome hnone⟩
  | some entry =>
    simp only [hrow] at h'
    split at h'
    next => cases h'
    next hskip =>
      cases h'
      refine ⟨rfl, rfl, bytes, hread, rfl, fun hsome => ?_⟩
      simp only [Proceeds, hrow]
      exact fun hdone => hskip ⟨hdone.1, hsome, hdone.2⟩

/-- The queue and the engine agree on a readable source just when both rows say the same. -/
theorem eligible_iff_not_skipped (contentHash : Bytes → Str) (fs : FileSystem) (ledger : L)
    (p : Path) (bytes : Bytes) (h : fs.readBytes p = .ok bytes) :
    ((∃ v, isEligible contentHash fs p ledger = .ok v ∧ v.eligible = true) ↔
        decisionTable contentHash fs ledger p ≠ .ok none) ↔
      (fs.exists? (deriveViSidecarPath fs p) = true →
        SameVerdict (contentHash bytes) (checkByOutputPath ledger (deriveViSidecarPath fs p).str)
          (row? ledger p.str) (row? ledger (fs.resolve p).str)) := by
  rw [isEligible_iff h, Ne, decisionTable_iff h, sameVerdict_iff]
  tauto

/-- A season directory linked into a second tree, with one episode translated. -/
def linkedSeason : FileSystem :=
  .linking ⟨"/link/E01.en.srt"⟩ ⟨"/tv/E01.en.srt"⟩ fun p =>
    if p = ⟨"/tv/E01.en.srt"⟩ then some { content := [], writer := .other }
    else if p = ⟨"/tv/E01.vi.srt"⟩ then some { content := [], writer := .trezarr }
    else none

def translatedOnce : Ledger :=
  Ledger.empty.record
    { sourcePath := "/tv/E01.en.srt", outputPath := some "/tv/E01.vi.srt", status := .done
      contentHash := "e3b0" }

theorem season_agrees :
    ((∃ v, isEligible (fun _ => "e3b0") linkedSeason ⟨"/tv/E01.en.srt"⟩ translatedOnce = .ok v ∧
      v.eligible = true) ↔
      decisionTable (fun _ => "e3b0") linkedSeason translatedOnce ⟨"/tv/E01.en.srt"⟩ ≠ .ok none) :=
  (eligible_iff_not_skipped (fun _ => "e3b0") linkedSeason translatedOnce ⟨"/tv/E01.en.srt"⟩ []
    (by decide)).mpr fun _ => iff_of_true ⟨rfl, rfl⟩ ⟨rfl, rfl⟩

/-- Through the link the episode is queued on every scan and skipped by every run. -/
theorem link_requeues_forever :
    linkedSeason.readBytes ⟨"/link/E01.en.srt"⟩ = .ok [] ∧
    isEligible (fun _ => "e3b0") linkedSeason ⟨"/link/E01.en.srt"⟩ translatedOnce =
      .ok .richerSource ∧
    Eligibility.richerSource.eligible = true ∧
    decisionTable (fun _ => "e3b0") linkedSeason translatedOnce ⟨"/link/E01.en.srt"⟩ =
      .ok none := by
  decide

end Trezarr
