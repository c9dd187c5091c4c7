import Mathlib.Algebra.Order.BigOperators.Group.List
import Trezarr.Translate.Assembly
import Trezarr.Translate.Endings

/-! What a run may write and how often it asks: only what the gate accepted, within its budget. -/
namespace Trezarr
open Text Fallible LedgerProtocol

/-- Rounds that stay within the budget, each within the bound on its calls. -/
structure WithinBudget (bound budget : ℕ) (calls : List ℕ) : Prop where
  rounds : calls.length ≤ budget
  each : ∀ n ∈ calls, n ≤ bound

theorem WithinBudget.none {bound budget : ℕ} : WithinBudget bound budget [] :=
  ⟨Nat.zero_le budget, by simp⟩

theorem WithinBudget.cons {bound budget n : ℕ} {calls : List ℕ} (hn : n ≤ bound)
    (h : WithinBudget bound budget calls) : WithinBudget bound (budget + 1) (n :: calls) := by
  refine ⟨Nat.succ_le_succ h.rounds, ?_⟩
  intro m hm
  rcases List.mem_cons.mp hm with rfl | hm
  · exact hn
  · exact h.each m hm

namespace Gate

variable {gate : Gate} {bound : ℕ}

theorem loop_within (hrepair : ∀ round doc failure failing,
    (gate.repair round doc failure failing).calls ≤ bound) {budget : ℕ} :
    ∀ {round : ℕ} {doc : SubDoc},
      WithinBudget bound budget (gate.loop budget round doc).repairCalls := by
  induction budget with
  | zero =>
    intro round doc
    simp only [loop]
    split <;> exact .none
  | succ budget ih =>
    intro round doc
    simp only [loop]
    split
    next => exact .none
    next => exact .none
    next =>
      split
      next => exact .none
      next =>
        split
        next => exact .cons (hrepair _ _ _ _) .none
        next => exact .cons (hrepair _ _ _ _) .none
        next => exact .cons (hrepair _ _ _ _) ih

end Gate

/-- Each attempt is one call, answered or not. -/
theorem correctionLoop_calls {call : ℕ → List Message → Except PyError Str}
    {cues : List SubLine} {remaining : ℕ} : ∀ {attempt : ℕ} {messages : List Message},
      (correctionLoop call cues remaining attempt messages).calls ≤ attempt + remaining := by
  induction remaining with
  | zero =>
    intro attempt messages
    exact le_rfl
  | succ remaining ih =>
    intro attempt messages
    simp only [correctionLoop]
    split
    next => dsimp only; omega
    next =>
      split
      next => dsimp only; omega
      next =>
        split
        next => dsimp only; omega
        next => exact ih.trans (by omega)
      next => dsimp only; omega

theorem translateBatch_calls (llm : LLMClient) (site : CallSite) (settings : TrezarrSettings)
    (batch : Batch) (hints : Option (Dict ℕ Terms)) (glossary : Option (List Str))
    (register correctionDirective : Option Str) :
    (translateBatch llm site settings batch hints glossary register correctionDirective).calls ≤
      attempts settings :=
  correctionLoop_calls.trans (Nat.zero_add _).le

theorem repairFailingCues_calls (llm : LLMClient) (round : ℕ) (failing : List ℕ)
    (source translated : SubDoc) (check : ℕ) (settings : TrezarrSettings) (ctx : Context) :
    (repairFailingCues llm round failing source translated check settings ctx).calls ≤
      attempts settings := by
  unfold repairFailingCues
  split
  next => exact Nat.zero_le _
  next => exact Nat.zero_le _
  next =>
    dsimp only
    split <;> exact translateBatch_calls _ _ _ _ _ _ _ _

theorem sum_le_of_each {bound : ℕ} {calls : List ℕ} (h : ∀ n ∈ calls, n ≤ bound) :
    calls.sum ≤ calls.length * bound := by
  simpa using calls.sum_le_card_nsmul bound h

/-- A task that is cancelled makes no more calls than it would have. -/
theorem gather_calls {bound : ℕ} (schedule : Schedule) {tasks : List (Called (List Str))}
    (h : ∀ task ∈ tasks, task.calls ≤ bound) :
    (gather schedule tasks).calls ≤ tasks.length * bound := by
  unfold gather
  split
  next =>
    have hsum : (tasks.map Called.calls).sum ≤ (tasks.map Called.calls).length * bound :=
      sum_le_of_each (by simpa using h)
    simpa using hsum
  next =>
    dsimp only
    rw [← List.length_zipIdx (l := tasks) (i := 0), ← List.length_map]
    apply sum_le_of_each
    intro n hn
    obtain ⟨⟨task, i⟩, hmem, rfl⟩ := List.mem_map.mp hn
    have htask := h task (List.fst_mem_of_mem_zipIdx hmem)
    dsimp only
    split <;> omega

theorem translateBatches_calls (schedule : Schedule) (llm : LLMClient)
    (settings : TrezarrSettings) (ctx : Context) (batches : List Batch) :
    (gather schedule (translateBatches llm settings ctx batches)).calls ≤
      batches.length * attempts settings := by
  have hlen : (translateBatches llm settings ctx batches).length = batches.length := by
    simp [translateBatches, batchHints_length]
  rw [← hlen]
  apply gather_calls
  intro task htask
  obtain ⟨_, _, rfl⟩ := List.mem_map.mp htask
  exact translateBatch_calls _ _ _ _ _ _ _ _

/-- The batches of the document a job is about. -/
def batchesOf {L : Type} (env : Env) (job : Job) (w : World L) : List Batch :=
  match readSubtitle env.codecs w.fs job.path with
  | .error _ => []
  | .ok source =>
    ((batchSubdoc source env.settings env.settings.translateContextLinesK
      env.settings.translateMaxCuesPerBatch).toOption).getD []

section Calls

variable {L : Type} {env : Env} {job : Job} {w : World L} {run : Run L} {n : ℕ}

/-- The calls of Pass 3 for so many batches, and those of the repair rounds. -/
structure CallsWithin (env : Env) (n : ℕ) (run : Run L) : Prop where
  pass3 : run.pass3Calls ≤ n * attempts env.settings
  repair : WithinBudget (attempts env.settings) env.settings.gateRepairMaxAttempts.toNat
    run.repairCalls

theorem CallsWithin.none (hpass3 : run.pass3Calls = 0) (hrepair : run.repairCalls = []) :
    CallsWithin env n run :=
  ⟨hpass3 ▸ Nat.zero_le _, hrepair ▸ .none⟩

theorem CallsWithin.total (h : CallsWithin env n run) :
    run.pass3Calls + run.repairCalls.sum ≤
      (n + env.settings.gateRepairMaxAttempts.toNat) * attempts env.settings := by
  have hrounds := Nat.mul_le_mul_right (attempts env.settings) h.repair.rounds
  rw [Nat.add_mul]
  exact Nat.add_le_add h.pass3 ((sum_le_of_each h.repair.each).trans hrounds)

variable [LedgerProtocol L]

theorem recordEntry_calls (entry : LedgerEntry) (result : TranslationResult) :
    (recordEntry w entry result).pass3Calls = 0 ∧
      (recordEntry w entry result).repairCalls = [] := by
  unfold recordEntry
  split <;> exact ⟨rfl, rfl⟩

theorem quarantine_calls (reason : Reason) (failing : List ℕ) :
    (quarantine env job w reason failing).pass3Calls = 0 ∧
      (quarantine env job w reason failing).repairCalls = [] := by
  unfold quarantine
  split
  next => exact ⟨rfl, rfl⟩
  next => exact recordEntry_calls _ _

theorem quarantine_within (reason : Reason) (failing : List ℕ) :
    CallsWithin env n (quarantine env job w reason failing) :=
  .none (quarantine_calls _ _).1 (quarantine_calls _ _).2

theorem deliver_repairs (ctx : Context) (source : SubDoc) (results : List (List Str)) :
    WithinBudget (attempts env.settings) env.settings.gateRepairMaxAttempts.toNat
      (deliver env job w ctx source results).repairCalls := by
  unfold deliver
  split
  next => exact .none
  next =>
    dsimp only
    split <;> exact Gate.loop_within fun _ _ _ _ => repairFailingCues_calls _ _ _ _ _ _ _ _

theorem failBatches_repairs (errors : List PyError) :
    (failBatches env job w errors).repairCalls = [] := by
  unfold failBatches
  split
  next => rfl
  next =>
    dsimp only
    split <;> exact (quarantine_calls _ _).2

theorem translate_within (source : SubDoc) (batches : List Batch) (ctx : Context) :
    CallsWithin env batches.length (translate env job w source batches ctx) := by
  have hcalls := translateBatches_calls env.schedule env.llm env.settings ctx batches
  unfold translate
  dsimp only
  split
  next =>
    refine ⟨hcalls, ?_⟩
    rw [failBatches_repairs]
    exact .none
  next => exact ⟨hcalls, deliver_repairs _ _ _⟩

theorem afterAnalysis_within (source : SubDoc) (batches : List Batch) (analysis : Analysis) :
    CallsWithin env batches.length (afterAnalysis env job w source batches analysis) := by
  cases analysis with
  | bypassed => exact translate_within _ _ _
  | ready ctx => exact translate_within _ _ _
  | failed text => exact quarantine_within _ _
  | raised err => exact .none rfl rfl

theorem readAndTranslate_within :
    CallsWithin env (batchesOf env job w).length (readAndTranslate env job w) := by
  unfold readAndTranslate batchesOf
  cases readSubtitle env.codecs w.fs job.path with
  | error err => exact quarantine_within _ _
  | ok source =>
    dsimp only
    cases batchSubdoc source env.settings env.settings.translateContextLinesK
      env.settings.translateMaxCuesPerBatch with
    | error err => exact quarantine_within _ _
    | ok batches =>
      have hrun : CallsWithin env batches.length
          (afterAnalysis env job w source batches (env.analyze source)) :=
        afterAnalysis_within _ _ _
      exact ⟨hrun.pass3, hrun.repair⟩

theorem start_within : CallsWithin env (batchesOf env job w).length (start env job w) := by
  unfold start
  split
  next => exact .none rfl rfl
  next ledger _ => exact readAndTranslate_within (w := { w with ledger := ledger })

end Calls

/-- The job a run works on, and the batches of its document. -/
def plannedBatches {L : Type} [LedgerProtocol L] (env : Env) (path : Path) (w : World L) :
    List Batch :=
  match decisionTable env.contentHash w.fs w.ledger path with
  | .ok (some job) => batchesOf env job w
  | _ => []

/-- What holds of a run whatever the model answers. -/
structure Arbitrated {L : Type} [LedgerProtocol L] (env : Env) (path : Path) (w : World L)
    (run : Run L) : Prop where
  /-- What is handed to the writer is what the gate let through. -/
  approved : ∀ doc, run.sidecar = some doc → ∃ job,
    decisionTable env.contentHash w.fs w.ledger path = .ok (some job) ∧ Approved env job w doc
  written : run.world.fs ≠ w.fs → ∃ job doc content,
    decisionTable env.contentHash w.fs w.ledger path = .ok (some job) ∧
    run.sidecar = some doc ∧ Emits job.dest doc content ∧
    run.world.fs = w.fs.replace job.dest ⟨content, .trezarr, none⟩
  untouched : run.sidecar = none ∨ run.outcome = .ok .skipped ∨
    (∃ path reason, run.outcome = .ok (.quarantined path reason)) → run.world.fs = w.fs
  rounds : run.repairCalls.length ≤ env.settings.gateRepairMaxAttempts.toNat
  calls : run.pass3Calls + run.repairCalls.sum ≤
    ((plannedBatches env path w).length + env.settings.gateRepairMaxAttempts.toNat) *
      attempts env.settings

theorem Arbitrated.of_kept {L : Type} [LedgerProtocol L] {env : Env} {path : Path} {w : World L}
    {run : Run L} (hsidecar : run.sidecar = none) (hfs : run.world.fs = w.fs)
    (hpass3 : run.pass3Calls = 0) (hrepair : run.repairCalls = []) :
    Arbitrated env path w run where
  approved doc h := by cases hsidecar.symm.trans h
  written h := absurd hfs h
  untouched _ := hfs
  rounds := by simp [hrepair]
  calls := by simp [hpass3, hrepair]

/-- The gate is the only way to the sidecar, and every run ends within its budget of calls. -/
theorem gate_is_sole_arbiter {L : Type} [LedgerProtocol L] (env : Env) (path : Path)
    (w : World L) : Arbitrated env path w (translateFile env path w) := by
  unfold translateFile
  split
  next err hjob => exact .of_kept rfl rfl rfl rfl
  next hjob => exact .of_kept rfl rfl rfl rfl
  next job hjob =>
    have htouched : Touched job w.fs (start env job w) := touched_start
    have hwithin : CallsWithin env (batchesOf env job w).length (start env job w) := start_within
    refine ⟨fun doc h => ⟨job, hjob, start_approved h⟩, ?_, ?_, hwithin.repair.rounds, ?_⟩
    · intro hfs
      cases htouched with
      | kept _ hfs' _ => exact absurd hfs' hfs
      | failed _ _ _ hfs' _ => exact absurd hfs' hfs
      | written doc content hsidecar hemits hfs' _ =>
        exact ⟨job, doc, content, hjob, hsidecar, hemits, hfs'⟩
    · intro hkept
      cases htouched with
      | kept _ hfs _ => exact hfs
      | failed _ _ _ hfs _ => exact hfs
      | written doc content hsidecar _ _ houtcome =>
        rcases hkept with hnone | hskipped | ⟨q, reason, hquarantined⟩
        · cases hsidecar.symm.trans hnone
        · cases houtcome _ hskipped
        · cases houtcome _ hquarantined
    · have hplanned : plannedBatches env path w = batchesOf env job w := by
        simp only [plannedBatches, hjob]
      rw [hplanned]
      exact hwithin.total

def noRepairs : Env :=
  { endpointDown with
    settings := { gateRepairMaxAttempts := -1, translateBatchRetryAttempts := 0 } }

/-- With a negative number of repairs the batch is still sent, and the product is zero. -/
theorem negative_repairs_exceeded :
    ¬ (((translateFile noRepairs ⟨"/tv/E01.en.srt"⟩ oneEpisode).pass3Calls +
        (translateFile noRepairs ⟨"/tv/E01.en.srt"⟩ oneEpisode).repairCalls.sum : ℕ) : ℤ) ≤
      ((plannedBatches noRepairs ⟨"/tv/E01.en.srt"⟩ oneEpisode).length +
        noRepairs.settings.gateRepairMaxAttempts) *
        (noRepairs.settings.translateBatchRetryAttempts + 1) := by
  decide +kernel

end Trezarr
