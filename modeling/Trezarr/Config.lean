import Mathlib.Data.Rat.Defs
import Trezarr.Paths

/-! The settings the pipeline reads, with their defaults. None of them is range-checked. -/
namespace Trezarr
open Text

structure TrezarrSettings where
  llmContextWindow : ℤ := 32768
  translateCharsPerToken : ℚ := 35 / 10
  translateOverheadFraction : ℚ := 30 / 100
  translateOutputExpansion : ℚ := 140 / 100
  translateMaxCuesPerBatch : ℤ := 50
  translateSceneGapMs : ℤ := 2000
  translateContextLinesK : ℤ := 3
  translateBatchRetryAttempts : ℤ := 2
  enableGateRepair : Bool := true
  gateRepairMaxAttempts : ℤ := 3
  enableEnvelopePreservation : Bool := true
  translateViDiacriticRatio : ℚ := 70 / 100
  translateQuarantineDir : Str := "/config/quarantine"
  enableAttribution : Bool := true
  attributeContextLinesK : ℤ := 8
  attributeMaxCuesPerBatch : ℤ := 30
  pronounConfidenceThreshold : Str := "medium"
  pronounSafeDefault : Option (Str × Str) := none
  enableRelationshipEvents : Bool := true
  enableSelfReview : Bool := true
  selfReviewContextLinesK : ℤ := 3
  selfReviewMaxCuesPerBatch : ℤ := 20
  pathMappings : List PathMapping := []
  sourceLangPriority : List Str := ["en".toList]
  llmModel : Str := "gpt-4o"
  llmStructuredOutputMode : Str := "auto"
  llmDisableThinking : Bool := false
  llmReasoningEffort : Str := "high"
  enablePass1Analysis : Bool := true
  pass1MaxCuesPerChunk : ℤ := 400
  enableReasoningAnalysis : Bool := true
  enableReasoningAttribution : Bool := true
  puid : ℤ := -1
  pgid : ℤ := -1
  umask : ℕ := 0o022
  bazarrEnabled : Bool := false
  bazarrUseInventory : Bool := true
  jobMaxAutoAttempts : ℤ := 5
  jobAutoRetryMax : ℤ := 2

end Trezarr
