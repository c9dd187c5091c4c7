import Trezarr.ConfigFields
import Trezarr.Lib.Fallible
import Trezarr.Output.Files

/-! The settings file: what a patch changes in it, and the services that it connects. -/
namespace Trezarr
open Text Fallible

abbrev ConfigDict := Dict ConfigKey ConfigValue

/-- The YAML library. -/
structure Yaml where
  safeLoad : Str → Except Str ConfigValue
  safeDump : ConfigDict → Str

/-- The mapping is read back as it was written, in whatever order. -/
def Yaml.ReadsBack (yaml : Yaml) (config : ConfigDict) : Prop :=
  ∃ entries, yaml.safeLoad (yaml.safeDump config) = .ok (.mapping entries) ∧
    ∀ key, (Dict.ofList entries).get? key = config.get? key

def secretFields : List Str :=
  ["llm_api_key", "sonarr_api_key", "radarr_api_key", "bazarr_api_key"]

def sentinel : Str := "**REDACTED**"

def ConfigValue.isSentinel : ConfigValue → Bool
  | .str s => s = sentinel
  | _ => false

def services : List Str := ["sonarr", "radarr", "bazarr"]

def hostKey (svc : Str) : Str := svc ++ ("_host" : Str)

def apiKeyKey (svc : Str) : Str := svc ++ ("_api_key" : Str)

def enabledKey (svc : Str) : Str := svc ++ ("_enabled" : Str)

section Frame

variable {before after : ConfigDict} {patch : Dict Str ConfigValue} {key svc : Str}
  {value : ConfigValue}

/-- A known field, and not the sentinel of a secret. -/
def takes (key : Str) (value : ConfigValue) : Bool :=
  key ∈ knownFields && !(key ∈ secretFields && value.isSentinel)

/-- What the patch has for a field. -/
def acceptedValue (patch : Dict Str ConfigValue) (key : Str) : Option ConfigValue :=
  (patch.get? key).filter (takes key)

/-- The patch over what is stored. -/
def patched (before : ConfigDict) (patch : Dict Str ConfigValue) (key : Str) :
    Option ConfigValue :=
  (acceptedValue patch key).or (before.get? (.name key))

/-- The service has a host and a key, and is not enabled. -/
structure SwitchedOn (config : Str → Option ConfigValue) (svc : Str) : Prop where
  host : ∃ hostVal, config (hostKey svc) = some hostVal ∧ hostVal.truthy = true
  apiKey : ∃ apiKeyVal, config (apiKeyKey svc) = some apiKeyVal ∧ apiKeyVal.truthy = true ∧
    apiKeyVal.isSentinel = false
  disabled : ∀ enabledVal, config (enabledKey svc) = some enabledVal → enabledVal.truthy = false

end Frame

end Trezarr
