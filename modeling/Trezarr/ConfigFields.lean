import Trezarr.Lib.Dict
import Trezarr.Lib.Text

/-! The fields of the settings, with the values that YAML and JSON have for them. -/
namespace Trezarr
open Text

/-- A key of a mapping: a text, or something else by how it prints. -/
inductive ConfigKey
  | name (s : Str)
  | other (shown : Str)
  deriving DecidableEq, Repr

/-- A float is kept as it prints, and so are dates, byte strings and sets. The order of a mapping
is no part of it: its entries stand in that of their keys. -/
inductive ConfigValue
  | null
  | bool (b : Bool)
  | int (n : ℤ)
  | float (shown : Str)
  | str (s : Str)
  | list (items : List ConfigValue)
  | mapping (entries : List (ConfigKey × ConfigValue))
  | other (shown : Str) (truthy : Bool)

namespace ConfigValue

def truthy : ConfigValue → Bool
  | null => false
  | bool b => b
  | int n => n ≠ 0
  | float shown => shown ∉ (["0.0", "-0.0"] : List Str)
  | str s => s ≠ []
  | list items => !items.isEmpty
  | mapping entries => !entries.isEmpty
  | other _ t => t

end ConfigValue

/-- The types of the fields. -/
inductive FieldKind
  | bool
  | int
  | float
  | str
  | secret
  | texts
  | textPair
  | pathMappings
  deriving DecidableEq, Repr

structure FieldInfo where
  name : Str
  kind : FieldKind
  default : ConfigValue

def modelFields : List FieldInfo := [
  ⟨"llm_base_url", .str, .str "http://localhost:1234/v1"⟩,
  ⟨"llm_api_key", .secret, .str "not-set"⟩,
  ⟨"llm_model", .str, .str "gpt-4o"⟩,
  ⟨"llm_max_retries", .int, .int 4⟩,
  ⟨"llm_request_timeout", .float, .float "120.0"⟩,
  ⟨"llm_max_concurrency", .int, .int 4⟩,
  ⟨"llm_structured_output_mode", .str, .str "auto"⟩,
  ⟨"llm_disable_thinking", .bool, .bool false⟩,
  ⟨"enable_reasoning_analysis", .bool, .bool true⟩,
  ⟨"enable_reasoning_attribution", .bool, .bool true⟩,
  ⟨"llm_reasoning_effort", .str, .str "high"⟩,
  ⟨"llm_context_window", .int, .int 32768⟩,
  ⟨"translate_chars_per_token", .float, .float "3.5"⟩,
  ⟨"translate_overhead_fraction", .float, .float "0.3"⟩,
  ⟨"translate_output_expansion", .float, .float "1.4"⟩,
  ⟨"translate_max_cues_per_batch", .int, .int 50⟩,
  ⟨"translate_scene_gap_ms", .int, .int 2000⟩,
  ⟨"translate_context_lines_k", .int, .int 3⟩,
  ⟨"translate_batch_retry_attempts", .int, .int 2⟩,
  ⟨"enable_gate_repair", .bool, .bool true⟩,
  ⟨"gate_repair_max_attempts", .int, .int 3⟩,
  ⟨"enable_envelope_preservation", .bool, .bool true⟩,
  ⟨"translate_vi_diacritic_ratio", .float, .float "0.7"⟩,
  ⟨"translate_quarantine_dir", .str, .str "/config/quarantine"⟩,
  ⟨"translate_ledger_path", .str, .str "/config/processed_files.json"⟩,
  ⟨"sonarr_host", .str, .str ""⟩,
  ⟨"sonarr_port", .int, .int 8989⟩,
  ⟨"sonarr_api_key", .secret, .str ""⟩,
  ⟨"sonarr_enabled", .bool, .bool false⟩,
  ⟨"radarr_host", .str, .str ""⟩,
  ⟨"radarr_port", .int, .int 7878⟩,
  ⟨"radarr_api_key", .secret, .str ""⟩,
  ⟨"radarr_enabled", .bool, .bool false⟩,
  ⟨"path_mappings", .pathMappings, .list []⟩,
  ⟨"source_lang_priority", .texts, .list [.str "en"]⟩,
  ⟨"puid", .int, .int (-1)⟩,
  ⟨"pgid", .int, .int (-1)⟩,
  ⟨"umask", .int, .int 0o022⟩,
  ⟨"bible_db_url", .str, .str "sqlite+aiosqlite:////config/trezarr.db"⟩,
  ⟨"bible_db_run_migrations_on_startup", .bool, .bool true⟩,
  ⟨"bible_db_enable_wal", .bool, .bool true⟩,
  ⟨"bible_db_enforce_fk", .bool, .bool true⟩,
  ⟨"enable_pass1_analysis", .bool, .bool true⟩,
  ⟨"pass1_max_cues_per_chunk", .int, .int 400⟩,
  ⟨"enable_attribution", .bool, .bool true⟩,
  ⟨"attribute_context_lines_k", .int, .int 8⟩,
  ⟨"attribute_max_cues_per_batch", .int, .int 30⟩,
  ⟨"pronoun_confidence_threshold", .str, .str "medium"⟩,
  ⟨"pronoun_safe_default", .textPair, .null⟩,
  ⟨"enable_relationship_events", .bool, .bool true⟩,
  ⟨"relationship_event_min_confidence", .float, .float "0.0"⟩,
  ⟨"enable_self_review", .bool, .bool true⟩,
  ⟨"self_review_context_lines_k", .int, .int 3⟩,
  ⟨"self_review_max_cues_per_batch", .int, .int 20⟩,
  ⟨"web_host", .str, .str "0.0.0.0"⟩,
  ⟨"web_port", .int, .int 6868⟩,
  ⟨"poll_interval_seconds", .int, .int 900⟩,
  ⟨"enable_webhooks", .bool, .bool true⟩,
  ⟨"enable_watchfiles", .bool, .bool false⟩,
  ⟨"worker_max_concurrent_series", .int, .int 2⟩,
  ⟨"bazarr_host", .str, .str ""⟩,
  ⟨"bazarr_port", .int, .int 6767⟩,
  ⟨"bazarr_api_key", .secret, .str ""⟩,
  ⟨"bazarr_enabled", .bool, .bool false⟩,
  ⟨"bazarr_use_inventory", .bool, .bool true⟩,
  ⟨"auto_translate_enabled", .bool, .bool false⟩,
  ⟨"job_max_auto_attempts", .int, .int 5⟩,
  ⟨"job_auto_retry_max", .int, .int 2⟩,
  ⟨"job_auto_retry_delay_s", .float, .float "30.0"⟩
]

def knownFields : List Str := modelFields.map FieldInfo.name

end Trezarr
