import Trezarr.Translate.Ownership
import Trezarr.Translate.Visible

/-! Whether a cue with words is left without any in its translation. -/
namespace Trezarr
open Text Fallible LedgerProtocol LawfulLedger

/-- The texts given so far, with new ones for the cues that were repaired. -/
def overlay (failing : List ℕ) (lines : List SubLine) (given : List Str) : List Str :=
  (lines.zip given).zipIdx.map fun ((line, text), i) => if i ∈ failing then line.text else text

/-- What the model last gave for each cue of a document before the gate: the text of its batch or
of the review, and after a repair that of the repair; envelopes are not part of it. -/
inductive LastGiven (env : Env) (source : SubDoc) (ctx : Context) : SubDoc → List Str → Prop
  | reviewed (batches : List Batch) (results : List (List Str)) (translated reviewed : SubDoc)
    (hbatches : batchSubdoc source env.settings env.settings.translateContextLinesK
      env.settings.translateMaxCuesPerBatch = .ok batches)
    (hresults : (gather env.schedule (translateBatches env.llm env.settings ctx batches)).result =
      .ok results)
    (htranslated : assemble source results = .ok translated)
    (hreviewed : selfReview env.llm env.settings ctx source translated = .ok reviewed) :
    LastGiven env source ctx (preserveSourceEnvelopes reviewed source env.settings)
      (reviewed.lines.map SubLine.text)
  | repaired (doc : SubDoc) (given : List Str) (failure : GateFailure) (failing : List ℕ)
    (round : ℕ) (lines : List SubLine) (hgiven : LastGiven env source ctx doc given)
    (hrejected : validateSubdoc doc source env.settings ctx.allowlist = .error (.failure failure))
    (hfailing : (gateOf env.llm source env.settings ctx).repairable failure = some failing)
    (hrepair : (repairFailingCues env.llm round failing source doc failure.check env.settings
      ctx).result = .ok (some lines)) :
    LastGiven env source ctx
      (preserveSourceEnvelopes (withLines doc lines) source env.settings)
      (overlay failing lines given)

section Lines

variable {source : SubDoc} {settings : TrezarrSettings}

end Lines

section Given

variable {env : Env} {source doc : SubDoc} {ctx : Context} {given : List Str}

/-- The repair loop keeps track of what the model gave. -/
theorem LastGiven.loop {budget : ℕ} : ∀ {round : ℕ} {doc out : SubDoc} {given : List Str},
    LastGiven env source ctx doc given →
    ((gateOf env.llm source env.settings ctx).loop budget round doc).outcome = .accepted out →
    ∃ given', LastGiven env source ctx out given' := by
  induction budget with
  | zero =>
    intro round doc out given hgiven h
    simp only [Gate.loop] at h
    split at h
    next =>
      cases h
      exact ⟨given, hgiven⟩
    next => cases h
    next => cases h
  | succ budget ih =>
    intro round doc out given hgiven h
    simp only [Gate.loop] at h
    split at h
    next =>
      cases h
      exact ⟨given, hgiven⟩
    next => cases h
    next failure hrejected =>
      split at h
      next => cases h
      next failing hfailing =>
        split at h
        next => cases h
        next => cases h
        next lines hrepair =>
          exact ih (.repaired doc given failure failing round lines hgiven hrejected hfailing
            hrepair) h

end Given

section Runs

variable {L : Type} [LawfulLedger L] (env : Env) (path : Path) (w : World L)

end Runs

section Outcomes

variable {L : Type} [LawfulLedger L] {env : Env} {path : Path} {w : World L} {job : Job}
  {doc : SubDoc} {dest : Path}

end Outcomes

end Trezarr
