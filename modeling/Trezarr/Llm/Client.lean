import Trezarr.Bible.Analyze

/-! The client of the endpoint: three ways to ask for a structured answer, each the last one's
fallback. -/
namespace Trezarr.Llm
open Text

/-- The two refusals of a request mode, told apart from what else the endpoint raises. -/
inductive ApiErrorKind
  | badRequest
  | unprocessableEntity
  | other
  deriving DecidableEq, Repr

/-- `python` is what the SDK raises besides its API errors. -/
inductive SdkError
  | api (kind : ApiErrorKind) (text : Str)
  | python (err : PyError)
  deriving DecidableEq, Repr

def SdkError.raised : SdkError → PyError
  | .api _ text => .apiError text
  | .python err => err

def SdkError.isRefusal : SdkError → Bool
  | .api kind _ => kind = .badRequest ∨ kind = .unprocessableEntity
  | .python _ => false

def SdkError.isApi : SdkError → Bool
  | .api _ _ => true
  | .python _ => false

inductive ResponseFormat
  | none
  | jsonSchema
  | jsonObject
  deriving DecidableEq, Repr

inductive CallKwargs
  | plain
  | thinkingDisabled
  | thinkingEnabled (effort : Str)
  deriving DecidableEq, Repr

structure ChatRequest (ρ : Type) where
  model : Str
  messages : List ρ
  format : ResponseFormat
  kwargs : CallKwargs

structure ParsedMessage (α : Type) where
  refusal : Option Str := none
  parsed : Option α := none
  content : Option Str := none

/-- Any behaviour of the endpoint: what it answers or raises at each call, by either route. -/
structure Endpoint (ρ α : Type) where
  parse : ℕ → ChatRequest ρ → Except SdkError (ParsedMessage α)
  create : ℕ → ChatRequest ρ → Except SdkError (Option Str)

structure LLMClient (ρ α : Type) where
  endpoint : Endpoint ρ α
  mode : Str
  model : Str
  callKwargs : CallKwargs
  reasoningEffort : Str

/-- No method assigns to the client, so it is after every call what it is made here. -/
def LLMClient.init {ρ α : Type} (settings : TrezarrSettings) (endpoint : Endpoint ρ α) :
    LLMClient ρ α where
  endpoint := endpoint
  mode := settings.llmStructuredOutputMode
  model := settings.llmModel
  callKwargs := if settings.llmDisableThinking then .thinkingDisabled else .plain
  reasoningEffort := settings.llmReasoningEffort

section Tiers

variable {ρ α : Type} (client : LLMClient ρ α)

def effectiveModel (model : Option Str) : Str :=
  match model with
  | some model => if model = [] then client.model else model
  | none => client.model

def effectiveCallKwargs (thinking : Option Bool) : CallKwargs :=
  match thinking with
  | none => client.callKwargs
  | some false => .thinkingDisabled
  | some true => .thinkingEnabled client.reasoningEffort

/-- A reply of the first tier: a refusal and a missing content are errors. -/
def readParsed (structured : Bool) (msg : ParsedMessage α) : Except PyError (Structured α) :=
  match msg.refusal with
  | some (c :: text) => .error (.runtimeError ("LLM refused structured output: " ++ c :: text))
  | _ =>
    match (if structured then msg.parsed else none), msg.content with
    | some value, _ => .ok (.parsed value)
    | none, some content => .ok (.content content)
    | none, none => .error (.runtimeError "LLM returned empty content (Tier 1)")

def readContent (tier : Str) : Option Str → Except PyError (Structured α)
  | some content => .ok (.content content)
  | none => .error (.runtimeError ("LLM returned empty content (" ++ tier ++ ")".toList))

/-- Nothing where the next tier is asked. A pinned mode raises what would be passed on. -/
def tier1 (i : ℕ) (messages : List ρ) (structured : Bool) (model : Str) (kwargs : CallKwargs) :
    Option (Except PyError (Structured α)) :=
  if client.mode = ("auto" : Str) ∨ client.mode = ("json_schema" : Str) then
    match client.endpoint.parse i
        ⟨model, messages, if structured then .jsonSchema else .none, kwargs⟩ with
    | .ok msg => some (readParsed structured msg)
    | .error err =>
      if client.mode ≠ ("json_schema" : Str) ∧ err.isApi then none else some (.error err.raised)
  else none

def tier2 (i : ℕ) (messages : List ρ) (structured : Bool) (model : Str) (kwargs : CallKwargs) :
    Option (Except PyError (Structured α)) :=
  if (client.mode = ("auto" : Str) ∨ client.mode = ("json_object" : Str)) ∧ structured then
    match client.endpoint.create i ⟨model, messages, .jsonObject, kwargs⟩ with
    | .ok content => some (readContent "Tier 2" content)
    | .error err =>
      if client.mode ≠ ("json_object" : Str) ∧ err.isRefusal then none
      else some (.error err.raised)
  else none

def tier3 (i : ℕ) (messages : List ρ) (model : Str) (kwargs : CallKwargs) :
    Except PyError (Structured α) :=
  match client.endpoint.create i ⟨model, messages, .none, kwargs⟩ with
  | .ok content => readContent "Tier 3" content
  | .error err => .error err.raised

def callWithFallback (i : ℕ) (messages : List ρ) (structured : Bool) (model : Option Str)
    (thinking : Option Bool) : Except PyError (Structured α) :=
  let model := effectiveModel client model
  let kwargs := effectiveCallKwargs client thinking
  match tier1 client i messages structured model kwargs with
  | some reply => reply
  | none =>
    match tier2 client i messages structured model kwargs with
    | some reply => reply
    | none => tier3 client i messages model kwargs

/-- `structured` says whether a response model is given. -/
def call (i : ℕ) (messages : List ρ) (structured : Bool) (model : Option Str)
    (thinking : Option Bool) : Except PyError (Structured α) :=
  if messages = [] then .error .valueError
  else callWithFallback client i messages structured model thinking

end Tiers

/-- An endpoint that refuses both structured modes and answers a plain request with some text. -/
structure TextOnly {ρ α : Type} (endpoint : Endpoint ρ α) : Prop where
  schema : ∀ i request, request.format = .jsonSchema →
    ∃ err, endpoint.parse i request = .error err ∧ err.isRefusal
  object : ∀ i request, request.format = .jsonObject →
    ∃ err, endpoint.create i request = .error err ∧ err.isRefusal
  text : ∀ i request, request.format = .none → ∃ text, endpoint.create i request = .ok (some text)

section TextOnly

variable {ρ α : Type} {client : LLMClient ρ α} {i : ℕ} {messages : List ρ} {model text : Str}
  {kwargs : CallKwargs} {thinking : Option Bool} {err : SdkError}

theorem SdkError.isApi_of_isRefusal (h : err.isRefusal) : err.isApi := by
  cases err with
  | api => rfl
  | python => cases h

theorem tier1_textOnly (htext : TextOnly client.endpoint)
    (hmode : client.mode ≠ ("json_schema" : Str)) :
    tier1 client i messages true model kwargs = none := by
  unfold tier1
  split
  · obtain ⟨err, herr, hrefusal⟩ := htext.schema i ⟨model, messages, .jsonSchema, kwargs⟩ rfl
    rw [if_pos rfl, herr]
    exact if_pos ⟨hmode, SdkError.isApi_of_isRefusal hrefusal⟩
  · rfl

theorem tier2_textOnly (htext : TextOnly client.endpoint)
    (hmode : client.mode ≠ ("json_object" : Str)) :
    tier2 client i messages true model kwargs = none := by
  unfold tier2
  split
  · obtain ⟨err, herr, hrefusal⟩ := htext.object i ⟨model, messages, .jsonObject, kwargs⟩ rfl
    rw [herr]
    exact if_pos ⟨hmode, hrefusal⟩
  · rfl

/-- Both structured tiers are refused, so a structured call ends with a plain text. -/
theorem call_textOnly (htext : TextOnly client.endpoint)
    (hschema : client.mode ≠ ("json_schema" : Str)) (hobject : client.mode ≠ ("json_object" : Str))
    (hmessages : messages ≠ []) {model : Option Str} :
    ∃ text, client.endpoint.create i ⟨effectiveModel client model, messages, .none,
        effectiveCallKwargs client thinking⟩ = .ok (some text) ∧
      call client i messages true model thinking = .ok (.content text) := by
  obtain ⟨text, hcreate⟩ := htext.text i ⟨effectiveModel client model, messages, .none,
    effectiveCallKwargs client thinking⟩ rfl
  refine ⟨text, hcreate, ?_⟩
  unfold call callWithFallback
  rw [if_neg hmessages]
  dsimp only
  rw [tier1_textOnly htext hschema, tier2_textOnly htext hobject]
  dsimp only
  unfold tier3
  rw [hcreate]
  rfl

end TextOnly

end Trezarr.Llm
