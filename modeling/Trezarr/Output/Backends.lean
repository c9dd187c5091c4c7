import Mathlib.Logic.Function.Basic
import Trezarr.Lib.Runs
import Trezarr.Output.Ledger
import Trezarr.Output.LedgerSqla

/-! Both backends against the map of what was recorded last for each source path. -/
namespace Trezarr
open Text Rows Runs

inductive Call
  | record (e : LedgerEntry)
  | check (sourcePath : Str)
  | checkByOutputPath (outputPath : Str)
  deriving DecidableEq, Repr

inductive Answer
  | recorded
  | found (entry : Option LedgerEntry)
  deriving DecidableEq, Repr

namespace LedgerProtocol

variable {L : Type} [LedgerProtocol L]

def answer (l : L) : Call → Except QueryError Answer
  | .record e => (record l e).map fun _ => .recorded
  | .check key => (check l key).map .found
  | .checkByOutputPath key => (checkByOutputPath l key).map .found

/-- A call that raises leaves the backend as it was. -/
def step (l : L) : Call → L
  | .record e => (record l e).toOption.getD l
  | _ => l

end LedgerProtocol

/-- What a ledger is for: the last entry recorded for every source path. -/
structure Recorded where
  entry : Str → Option LedgerEntry
  keyed : ∀ key e, entry key = some e → e.sourcePath = key

namespace Recorded

variable {m : Recorded} {e e' : LedgerEntry} {key : Str}

def empty : Recorded := ⟨fun _ => none, by simp⟩

def record (m : Recorded) (e : LedgerEntry) : Recorded where
  entry := Function.update m.entry e.sourcePath (some e)
  keyed := by
    intro key e' h
    rw [Function.update_apply] at h
    split at h
    · next hk => cases h; exact hk.symm
    · exact m.keyed key e' h

def step (m : Recorded) : Call → Recorded
  | .record e => m.record e
  | _ => m

def Matches (m : Recorded) (outputPath : Str) (e : LedgerEntry) : Prop :=
  m.entry e.sourcePath = some e ∧ e.outputPath = some outputPath

def OutputUnique (m : Recorded) (outputPath : Str) : Prop :=
  ∀ e e', m.Matches outputPath e → m.Matches outputPath e' → e = e'

/-- Equal answers, except that an output path may be answered by any entry it matches. -/
def SameResult (m : Recorded) : Call → Answer → Answer → Prop
  | .checkByOutputPath key, .found (some e), .found (some e') => m.Matches key e ∧ m.Matches key e'
  | _, a, a' => a = a'

def LedgerHolds (m : Recorded) (l : Ledger) : Prop := ∀ key, l.check key = m.entry key

def SqlaHolds (m : Recorded) (l : LedgerSqla) : Prop := ∀ key, l.row? key = m.entry key

theorem ledgerHolds_step {l : Ledger} (h : m.LedgerHolds l) (c : Call) :
    (m.step c).LedgerHolds (LedgerProtocol.step l c) := by
  cases c with
  | record e =>
    intro key
    change (l.record e).check key = _
    simp only [Ledger.check_record, step, record, Function.update_apply, h key]
  | check => exact h
  | checkByOutputPath => exact h

theorem sqlaHolds_step {l : LedgerSqla} (h : m.SqlaHolds l) (c : Call) :
    (m.step c).SqlaHolds (LedgerProtocol.step l c) := by
  cases c with
  | record e =>
    obtain ⟨l', hl, hr⟩ := LedgerSqla.record_ok (l := l) (e := e)
    intro key
    change ((l.record e).toOption.getD l).row? key = _
    simp only [hl, Except.toOption, Option.getD_some, hr, step, record, Function.update_apply,
      h key]
  | check => exact h
  | checkByOutputPath => exact h

theorem matches_of_ledger {l : Ledger} (h : m.LedgerHolds l)
    (hf : l.checkByOutputPath key = some e) : m.Matches key e := by
  obtain ⟨ho, k, hk⟩ := Ledger.checkByOutputPath_some hf
  rw [h k] at hk
  refine ⟨?_, ho⟩
  rw [m.keyed k e hk, hk]

theorem not_matches_of_ledger {l : Ledger} (h : m.LedgerHolds l)
    (hf : l.checkByOutputPath key = none) : ¬ m.Matches key e := by
  intro hm
  exact Ledger.checkByOutputPath_none.mp hf _ e ((h _).trans hm.1) hm.2

theorem matches_iff_row {l : LedgerSqla} (h : m.SqlaHolds l) :
    m.Matches key e ↔ e ∈ l.processedFile ∧ e.outputPath = some key := by
  rw [LedgerSqla.mem_iff_row?, h]
  rfl

theorem sqla_answers_iff {l : LedgerSqla} (h : m.SqlaHolds l) :
    (∃ o, l.checkByOutputPath key = .ok o) ↔ m.OutputUnique key := by
  constructor
  · rintro ⟨o, ho⟩ e e' he he'
    rw [matches_iff_row h] at he he'
    exact unique_of_scalarOneOrNone ho e he.1 e' he'.1 (by simp [he.2]) (by simp [he'.2])
  · intro hu
    refine ⟨_, LedgerSqla.checkByOutputPath_ok fun e he e' he' ho ho' => ?_⟩
    exact hu e e' ((matches_iff_row h).mpr ⟨he, ho⟩) ((matches_iff_row h).mpr ⟨he', ho'⟩)

theorem matches_of_sqla {l : LedgerSqla} (h : m.SqlaHolds l)
    (hf : l.checkByOutputPath key = .ok (some e)) : m.Matches key e := by
  have hx := scalarOneOrNone_ok.mp hf
  have hm : e ∈ l.processedFile.filter (fun row => row.outputPath = some key) := by simp [hx]
  rw [List.mem_filter] at hm
  exact (matches_iff_row h).mpr ⟨hm.1, by simpa using hm.2⟩

theorem not_matches_of_sqla {l : LedgerSqla} (h : m.SqlaHolds l)
    (hf : l.checkByOutputPath key = .ok none) : ¬ m.Matches key e := by
  intro hm
  have hx := scalarOneOrNone_ok.mp hf
  rw [matches_iff_row h] at hm
  have he : e ∈ l.processedFile.filter (fun row => row.outputPath = some key) :=
    List.mem_filter.mpr ⟨hm.1, by simp [hm.2]⟩
  simp [hx] at he

end Recorded

open LedgerProtocol Recorded

/-- Both backends answer a call, neither raising, and the answers are the same. -/
def Answered (m : Recorded) (j : Ledger) (s : LedgerSqla) (c : Call) : Prop :=
  ∃ a a', answer j c = .ok a ∧ answer s c = .ok a' ∧ m.SameResult c a a'

def CallUnique (m : Recorded) : Call → Prop
  | .checkByOutputPath key => m.OutputUnique key
  | _ => True

theorem answered_iff {m : Recorded} {j : Ledger} {s : LedgerSqla} (hj : m.LedgerHolds j)
    (hs : m.SqlaHolds s) (c : Call) : Answered m j s c ↔ CallUnique m c := by
  cases c with
  | record e =>
    obtain ⟨s', hs', _⟩ := LedgerSqla.record_ok (l := s) (e := e)
    have ha : answer s (.record e) = .ok .recorded := by
      change (s.record e).map _ = _
      rw [hs']
      rfl
    exact ⟨fun _ => trivial, fun _ => ⟨_, _, rfl, ha, rfl⟩⟩
  | check key =>
    have ha : answer s (.check key) = .ok (.found (m.entry key)) := by
      change (s.check key).map _ = _
      rw [LedgerSqla.check_eq, hs key]
      rfl
    have hb : answer j (.check key) = .ok (.found (m.entry key)) := by
      rw [← hj key]
      rfl
    exact ⟨fun _ => trivial, fun _ => ⟨_, _, hb, ha, rfl⟩⟩
  | checkByOutputPath key =>
    simp only [CallUnique, ← sqla_answers_iff hs]
    constructor
    · rintro ⟨_, a', _, ha', _⟩
      change (s.checkByOutputPath key).map _ = _ at ha'
      cases ho : s.checkByOutputPath key with
      | error err => simp [ho, Except.map] at ha'
      | ok o => exact ⟨o, rfl⟩
    · rintro ⟨o, ho⟩
      refine ⟨.found (j.checkByOutputPath key), .found o, rfl, ?_, ?_⟩
      · change (s.checkByOutputPath key).map _ = _
        rw [ho]
        rfl
      · cases hf : j.checkByOutputPath key with
        | none =>
          cases o with
          | none => rfl
          | some e => exact (not_matches_of_ledger hj hf (matches_of_sqla hs ho)).elim
        | some e =>
          cases o with
          | none => exact (not_matches_of_sqla hs ho (matches_of_ledger hj hf)).elim
          | some e' => exact ⟨matches_of_ledger hj hf, matches_of_sqla hs ho⟩

/-- Call by call from empty ledgers, each call seeing what the calls before it left. -/
def Interchangeable (calls : List Call) : Prop :=
  ∀ before c after, calls = before ++ c :: after →
    Answered (run Recorded.step Recorded.empty before)
      (run LedgerProtocol.step Ledger.empty before)
      (run LedgerProtocol.step LedgerSqla.empty before) c

theorem ledger_refines (calls : List Call) :
    (run Recorded.step Recorded.empty calls).LedgerHolds
      (run LedgerProtocol.step Ledger.empty calls) :=
  simulation_run (R := LedgerHolds) (fun _ _ c h => ledgerHolds_step h c) fun _ => rfl

theorem sqla_refines (calls : List Call) :
    (run Recorded.step Recorded.empty calls).SqlaHolds
      (run LedgerProtocol.step LedgerSqla.empty calls) :=
  simulation_run (R := SqlaHolds) (fun _ _ c h => sqlaHolds_step h c) fun _ => rfl

/-- The backends part exactly where two source paths last recorded one output path
and that path is then looked up: the SQL query has more than one row to return. -/
theorem interchangeable_iff (calls : List Call) :
    Interchangeable calls ↔ Along Recorded.step CallUnique Recorded.empty calls := by
  rw [along_iff_before]
  refine forall_congr' fun before => forall_congr' fun c => forall_congr' fun after =>
    imp_congr_right fun _ => ?_
  exact answered_iff (ledger_refines before) (sqla_refines before) c

/-- A source upgrade: the second source writes the sidecar of the first. -/
def upgradeCalls : List Call :=
  [.record { sourcePath := "/tv/E01.ja.srt", outputPath := some "/tv/E01.vi.srt", status := .done
             contentHash := "a0" },
   .record { sourcePath := "/tv/E01.en.srt", outputPath := some "/tv/E01.vi.srt", status := .done
             contentHash := "b1" },
   .checkByOutputPath "/tv/E01.vi.srt"]

theorem upgrade_not_interchangeable : ¬ Interchangeable upgradeCalls := by
  intro h
  obtain ⟨_, a', _, ha', _⟩ := h (upgradeCalls.take 2) (.checkByOutputPath "/tv/E01.vi.srt") [] rfl
  have he : answer (run LedgerProtocol.step LedgerSqla.empty (upgradeCalls.take 2))
      (.checkByOutputPath "/tv/E01.vi.srt") = .error .multipleResultsFound := by decide
  rw [he] at ha'
  cases ha'

end Trezarr
