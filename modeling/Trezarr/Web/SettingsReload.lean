import Trezarr.Web.ConfigWriter

/-! What the settings page is shown, and the settings read again after it sends that back. -/
namespace Trezarr
open Text Fallible

/-- The settings by the names of their fields, as they are dumped; secrets are not masked. -/
structure Settings where
  value : Str → Option ConfigValue

section Reload

variable {pydantic : Pydantic} {yaml : Yaml} {disk disk' : ConfigDisk} {settings : Settings}
  {before after : ConfigDict} {patch : Dict Str ConfigValue} {key : Str} {field : FieldInfo}

/-- The settings are as they were, but for services that are connected: these are enabled. -/
structure Kept (before : ConfigDict) (patch : Dict Str ConfigValue)
    (settings settings' : Settings) : Prop where
  enabled : ∀ svc ∈ services, SwitchedOn (patched before patch) svc →
    settings'.value (enabledKey svc) = some (.bool true)
  secrets : ∀ key ∈ secretFields, settings'.value key = settings.value key
  fields : ∀ key, (∀ svc ∈ services, SwitchedOn (patched before patch) svc →
    key ≠ enabledKey svc) → settings'.value key = settings.value key

end Reload

end Trezarr
