import Trezarr.Translate.Repair

/-! The gate around the repair loop: nothing goes on without its consent. -/
namespace Trezarr
open Text Fallible

inductive GateOutcome
  | accepted (doc : SubDoc)
  | rejected (failure : GateFailure)
  | raised (err : PyError)

/-- How the loop ended, how many calls each repair round made and what the endpoint raised. -/
structure GateRun where
  outcome : GateOutcome
  repairCalls : List ℕ := []
  failures : List PyError := []

/-- The gate's verdict and the repair a rejected document is given. -/
structure Gate where
  validate : SubDoc → Except GateError Unit
  enableRepair : Bool
  repair : ℕ → SubDoc → GateFailure → List ℕ → Called (Option (List SubLine))
  preserve : SubDoc → SubDoc

namespace Gate

variable (gate : Gate)

/-- The cues to repair, when the failure admits a repair. -/
def repairable (failure : GateFailure) : Option (List ℕ) :=
  match failure.failingIndices with
  | some (i :: failing) =>
    if gate.enableRepair ∧ failure.check ∈ repairableChecks then some (i :: failing) else none
  | _ => none

def loop : ℕ → ℕ → SubDoc → GateRun
  | 0, _, doc =>
    match gate.validate doc with
    | .ok _ => ⟨.accepted doc, [], []⟩
    | .error (.raised err) => ⟨.raised err, [], []⟩
    | .error (.failure failure) => ⟨.rejected failure, [], []⟩
  | budget + 1, round, doc =>
    match gate.validate doc with
    | .ok _ => ⟨.accepted doc, [], []⟩
    | .error (.raised err) => ⟨.raised err, [], []⟩
    | .error (.failure failure) =>
      match gate.repairable failure with
      | none => ⟨.rejected failure, [], []⟩
      | some failing =>
        let repaired := gate.repair round doc failure failing
        match repaired.result with
        | .error err => ⟨.raised err, [repaired.calls], repaired.failures⟩
        | .ok none => ⟨.rejected failure, [repaired.calls], repaired.failures⟩
        | .ok (some lines) =>
          let rest := loop budget (round + 1) (gate.preserve (withLines doc lines))
          ⟨rest.outcome, repaired.calls :: rest.repairCalls, repaired.failures ++ rest.failures⟩

end Gate

def gateOf (llm : LLMClient) (source : SubDoc) (settings : TrezarrSettings) (ctx : Context) :
    Gate where
  validate doc := validateSubdoc doc source settings ctx.allowlist
  enableRepair := settings.enableGateRepair
  repair round doc failure failing :=
    repairFailingCues llm round failing source doc failure.check settings ctx
  preserve doc := preserveSourceEnvelopes doc source settings

end Trezarr
