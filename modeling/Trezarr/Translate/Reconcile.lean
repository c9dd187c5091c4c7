import Mathlib.Data.List.Dedup
import Mathlib.Data.List.Infix
import Trezarr.Bible.Dto
import Trezarr.Config
import Trezarr.Translate.Names

/-! One pair of pronouns for each ordered pair of characters, for one episode. -/
namespace Trezarr
open Text

abbrev Pair := ℕ × ℕ

instance : LawfulBEq Pair := inferInstance

/-- What the speaker calls themselves and what they call the addressee. -/
abbrev Terms := Str × Str

def kinshipPairs : List (Str × Str × Str × Str) :=
  [("anh", "em", "em", "anh"), ("em", "anh", "anh", "em"), ("chị", "em", "em", "chị"),
   ("em", "chị", "chị", "em"), ("anh", "anh", "anh", "anh"), ("chị", "chị", "chị", "chị"),
   ("ông", "cháu", "cháu", "ông"), ("bà", "cháu", "cháu", "bà"), ("ông", "con", "con", "ông"),
   ("bà", "con", "con", "bà"), ("bố", "con", "con", "bố"), ("mẹ", "con", "con", "mẹ"),
   ("cha", "con", "con", "cha"), ("tôi", "bạn", "bạn", "tôi"), ("tôi", "anh", "anh", "tôi"),
   ("tôi", "chị", "chị", "tôi"), ("tôi", "ông", "ông", "tôi"), ("tôi", "bà", "bà", "tôi"),
   ("bác", "cháu", "cháu", "bác"), ("cháu", "bác", "bác", "cháu"), ("chú", "cháu", "cháu", "chú"),
   ("cháu", "chú", "chú", "cháu"), ("cô", "cháu", "cháu", "cô"), ("cháu", "cô", "cô", "cháu"),
   ("thầy", "em", "em", "thầy"), ("em", "thầy", "thầy", "em"), ("tao", "mày", "mày", "tao"),
   ("mày", "tao", "tao", "mày")]

def kinshipReciprocal (terms : Terms) : Option Terms :=
  (kinshipPairs.find? fun p => p.1 = terms.1 ∧ p.2.1 = terms.2).map fun p => p.2.2

def classicalRegisterTokens : List Str :=
  ["classical", "historical", "wuxia", "xianxia", "cultivation", "period", "ancient", "martial",
   "imperial", "dynasty", "cổ trang", "co trang", "tiên hiệp", "kiếm hiệp", "tu tiên", "võ hiệp"]

def isClassicalRegister (register : Option Str) : Bool :=
  let low := lower (register.getD [])
  low ≠ [] && classicalRegisterTokens.any fun tok => decide (tok <:+: low)

inductive AttributionConfidence
  | high
  | medium
  | low
  deriving DecidableEq, Repr

structure LineAttribution where
  lineIndex : ℤ
  speaker : Option Str := none
  addressee : Option Str := none
  confidence : AttributionConfidence := .low
  deriving DecidableEq, Repr

def thresholdValue (threshold : Str) : ℕ :=
  let t := lower threshold
  if t = ("high" : Str) then 3 else if t = ("medium" : Str) then 2
  else if t = ("low" : Str) then 1 else 2

def confidenceValue : AttributionConfidence → ℕ
  | .high => 3
  | .medium => 2
  | .low => 1

/-- The three addresses of a ladder: for a man, for a woman, for anyone. -/
def byGender (gender : Option Str) (male female neutral : Str) : Str :=
  if gender = some "male".toList then male
  else if gender = some "female".toList then female
  else neutral

def getSafeDefault (addresseeGender : Option Str) (settings : TrezarrSettings)
    (register : Option Str) : Terms :=
  match settings.pronounSafeDefault with
  | some terms => terms
  | none =>
    if isClassicalRegister register then
      ("tại hạ", byGender addresseeGender "các hạ" "cô nương" "các hạ")
    else ("tôi", byGender addresseeGender "anh" "chị" "bạn")

/-- An event names two characters in no order and counts in its own episode only. -/
def matchesPair (pair : Pair) (episodeKey : Str) (event : RelationshipEventDTO) : Bool :=
  event.episodeMarker = episodeKey &&
    ((event.characterAId = pair.1 && event.characterBId = pair.2) ||
      (event.characterAId = pair.2 && event.characterBId = pair.1))

def findTransitionForPair (relationshipEvents : List RelationshipEventDTO) (pair : Pair)
    (episodeKey : Str) : Option RelationshipEventDTO :=
  relationshipEvents.find? (matchesPair pair episodeKey)

/-- Both terms when neither is missing or empty. -/
def bothTerms : Option Str → Option Str → Option Terms
  | some self, some address => if self ≠ [] ∧ address ≠ [] then some (self, address) else none
  | _, _ => none

/-- Both terms when neither is missing. -/
def storedTerms : Option AddressMap → Option Terms
  | some ⟨_, _, _, _, some self, some address, _, _⟩ => some (self, address)
  | _ => none

/-- The suggested terms, else the stored ones whether or not the episode confirms them, else the
safe default. -/
def deriveTransitionTerms (transition : RelationshipEventDTO) (existing : Option AddressMap)
    (addrGender : Option Str) (settings : TrezarrSettings) (register : Option Str) : Terms :=
  match bothTerms transition.suggestedSelfTerm transition.suggestedAddressTerm with
  | some terms => terms
  | none =>
    match existing.bind fun e => bothTerms e.selfTerm e.addressTerm with
    | some terms => terms
    | none => getSafeDefault addrGender settings register

section Episode

variable (flatAttributions : List LineAttribution) (bible : SeriesBibleDTO) (episodeKey : Str)
  (settings : TrezarrSettings)

def nameToId : Dict Str ℕ :=
  Dict.ofList (bible.characters.map fun c => (lower (strip c.originalLatinName), c.id))

def idToGender : Dict ℕ (Option Str) :=
  Dict.ofList (bible.characters.map fun c => (c.id, c.gender))

def existingMap : Dict Pair AddressMap :=
  Dict.ofList (bible.addressMap.map fun a => ((a.speakerCharacterId, a.addresseeCharacterId), a))

def attributedPair (attr : LineAttribution) : Option Pair :=
  match resolveCharId (nameToId bible) attr.speaker,
      resolveCharId (nameToId bible) attr.addressee with
  | some spk, some addr => some (spk, addr)
  | _, _ => none

def attributionsOf (pair : Pair) : List LineAttribution :=
  flatAttributions.filter fun attr => attributedPair bible attr = some pair

def survivorsOf (pair : Pair) : List LineAttribution :=
  (attributionsOf flatAttributions bible pair).filter fun attr =>
    thresholdValue settings.pronounConfidenceThreshold ≤ confidenceValue attr.confidence

/-- Every pair attributed in the episode or stored in the Address Map, once. -/
def allPairs : List Pair :=
  (flatAttributions.filterMap (attributedPair bible) ++ (existingMap bible).keys).dedup

def genderOf (id : ℕ) : Option Str := ((idToGender bible).get? id).join

def safeDefaultFor (pair : Pair) : Terms :=
  getSafeDefault (genderOf bible pair.2) settings bible.registerValue

def lockedTerms (existing : Option AddressMap) : Option Terms :=
  match existing with
  | some row =>
    if .selfTerm ∈ row.lockedFields ∨ .addressTerm ∈ row.lockedFields then storedTerms existing
    else none
  | none => none

def transitionFor (pair : Pair) : Option RelationshipEventDTO :=
  if settings.enableRelationshipEvents ∧ episodeKey ≠ "S00E00".toList then
    findTransitionForPair bible.relationshipEvents pair episodeKey
  else none

/-- The terms of a pair and the `valid_from_episode` they are written with, if they are. -/
structure Resolution where
  terms : Terms
  write : Option (Option Str)

def resolvePair (pair : Pair) : Resolution :=
  let existing := (existingMap bible).get? pair
  let survivors := survivorsOf flatAttributions bible settings pair
  match lockedTerms existing with
  | some terms => ⟨terms, none⟩
  | none =>
    match transitionFor bible episodeKey settings pair with
    | some transition =>
      let terms := deriveTransitionTerms transition existing (genderOf bible pair.2)
        settings bible.registerValue
      let isGenuineEvolution := storedTerms existing ≠ some terms
      ⟨terms, some (if isGenuineEvolution then some episodeKey else none)⟩
    | none =>
      let terms := (storedTerms existing).getD (safeDefaultFor bible settings pair)
      ⟨terms, if survivors ≠ [] then some none else none⟩

end Episode

/-- A pair, its terms and the `valid_from_episode` of the write. -/
abbrev PairWrite := Pair × Terms × Option Str

/-- One transaction for each pair; the first that raises ends the sequence. -/
def upsertPairs (seriesId : ℕ) (episodeKey : Str) :
    Store → List PairWrite → Store × Except StoreError Unit
  | s, [] => (s, .ok ())
  | s, (pair, terms, validFrom) :: writes =>
    match upsertAddressPairInSession s seriesId pair.1 pair.2 (some terms.1) (some terms.2) validFrom
      (some episodeKey) "inference" with
    | .error err => (s, .error err)
    | .ok (_, _, s) => upsertPairs seriesId episodeKey s writes

/-- The pairs a known kinship pair implies in the other direction, none of them resolved yet. -/
def reciprocalAdditions (resolvedMap : Dict Pair Terms) : List (Pair × Terms) :=
  resolvedMap.entries.filterMap fun (pair, terms) =>
    match kinshipReciprocal terms with
    | none => none
    | some recip => if pair.swap ∈ resolvedMap.keys then none else some (pair.swap, recip)

/-- The order in which a set is walked: any order of its elements. -/
structure SetOrder where
  order : List Pair → List Pair
  perm : ∀ xs, (order xs).Perm xs

section Reconcile

variable (order : SetOrder) (flatAttributions : List LineAttribution) (bible : SeriesBibleDTO)
  (episodeKey : Str) (settings : TrezarrSettings)

/-- Every pair with its resolution, as the set of pairs is walked. -/
def resolutions : List (Pair × Resolution) :=
  (order.order (allPairs flatAttributions bible)).map fun pair =>
    (pair, resolvePair flatAttributions bible episodeKey settings pair)

def resolvedTerms : Dict Pair Terms :=
  Dict.ofList ((resolutions order flatAttributions bible episodeKey settings).map fun r =>
    (r.1, r.2.terms))

def resolvedWrites : List PairWrite :=
  (resolutions order flatAttributions bible episodeKey settings).filterMap fun r =>
    r.2.write.map fun validFrom => (r.1, r.2.terms, validFrom)

def reconcileAttributions (s : Store) (seriesId : ℕ) : Store × Except StoreError (Dict Pair Terms) :=
  match upsertPairs seriesId episodeKey s
    (resolvedWrites order flatAttributions bible episodeKey settings) with
  | (s, .error err) => (s, .error err)
  | (s, .ok _) =>
    let resolvedMap := resolvedTerms order flatAttributions bible episodeKey settings
    let additions := reciprocalAdditions resolvedMap
    match upsertPairs seriesId episodeKey s (additions.map fun a => (a.1, a.2, none)) with
    | (s, .error err) => (s, .error err)
    | (s, .ok _) => (s, .ok (additions.foldl (fun m a => m.set a.1 a.2) resolvedMap))

end Reconcile

variable {order : SetOrder} {flatAttributions : List LineAttribution} {bible : SeriesBibleDTO}
  {episodeKey : Str} {settings : TrezarrSettings} {pair : Pair} {s : Store} {seriesId : ℕ}

theorem resolvedTerms_get? :
    (resolvedTerms order flatAttributions bible episodeKey settings).get? pair =
      if pair ∈ allPairs flatAttributions bible then
        some (resolvePair flatAttributions bible episodeKey settings pair).terms
      else none := by
  have hp := (order.perm (allPairs flatAttributions bible)).mem_iff (a := pair)
  simp only [resolvedTerms, resolutions, List.map_map, Function.comp_def, Dict.get?_ofList_map, hp]

theorem resolvedTerms_of_mem (h : pair ∈ allPairs flatAttributions bible) :
    (resolvedTerms order flatAttributions bible episodeKey settings).get? pair =
      some (resolvePair flatAttributions bible episodeKey settings pair).terms := by
  rw [resolvedTerms_get?, if_pos h]

theorem mem_resolvedWrites {w : PairWrite}
    (h : w ∈ resolvedWrites order flatAttributions bible episodeKey settings) :
    w.1 ∈ allPairs flatAttributions bible ∧
      resolvePair flatAttributions bible episodeKey settings w.1 = ⟨w.2.1, some w.2.2⟩ := by
  simp only [resolvedWrites, resolutions, List.mem_filterMap, List.mem_map,
    (order.perm _).mem_iff, Option.map_eq_some_iff] at h
  obtain ⟨_, ⟨q, hq, rfl⟩, validFrom, hv, rfl⟩ := h
  exact ⟨hq, by rw [← hv]⟩

theorem mem_reciprocalAdditions {m : Dict Pair Terms} {a : Pair × Terms}
    (h : a ∈ reciprocalAdditions m) :
    a.1 ∉ m.keys ∧ ∃ terms, m.get? a.1.swap = some terms ∧ kinshipReciprocal terms = some a.2 := by
  simp only [reciprocalAdditions, List.mem_filterMap] at h
  obtain ⟨⟨q, terms⟩, hm, h⟩ := h
  dsimp only at h
  split at h
  · cases h
  · next recip hr =>
    split at h
    · cases h
    · next hk =>
      cases h
      exact ⟨hk, terms, Dict.mem_entries_iff.mp hm, hr⟩

theorem reconcile_ok {m : Dict Pair Terms}
    (h : (reconcileAttributions order flatAttributions bible episodeKey settings s seriesId).2 =
      .ok m) :
    m = (reciprocalAdditions (resolvedTerms order flatAttributions bible episodeKey settings)).foldl
      (fun m a => m.set a.1 a.2)
      (resolvedTerms order flatAttributions bible episodeKey settings) := by
  unfold reconcileAttributions at h
  split at h
  · cases h
  · dsimp only at h
    split at h
    · cases h
    · exact (Except.ok.inj h).symm

/-- A resolved pair is in the map with its resolution: no reciprocal replaces it. -/
theorem reconcile_get? {m : Dict Pair Terms}
    (h : (reconcileAttributions order flatAttributions bible episodeKey settings s seriesId).2 =
      .ok m) (hp : pair ∈ allPairs flatAttributions bible) :
    m.get? pair = some (resolvePair flatAttributions bible episodeKey settings pair).terms := by
  have hr : (resolvedTerms order flatAttributions bible episodeKey settings).get? pair = _ :=
    resolvedTerms_of_mem hp
  rw [reconcile_ok h, Dict.get?_foldl_set, List.filter_eq_nil_iff.mpr, ← hr]
  · rfl
  · intro a ha he
    rw [decide_eq_true_eq] at he
    exact (mem_reciprocalAdditions ha).1 (Dict.mem_keys_iff.mpr ⟨_, he ▸ hr⟩)

theorem resolved_or_reciprocal {m : Dict Pair Terms} {terms : Terms}
    (h : (reconcileAttributions order flatAttributions bible episodeKey settings s seriesId).2 =
      .ok m) (hm : m.get? pair = some terms) :
    pair ∈ allPairs flatAttributions bible ∧
        terms = (resolvePair flatAttributions bible episodeKey settings pair).terms ∨
      (pair, terms) ∈ reciprocalAdditions
        (resolvedTerms order flatAttributions bible episodeKey settings) := by
  by_cases hp : pair ∈ allPairs flatAttributions bible
  · rw [reconcile_get? h hp] at hm
    exact Or.inl ⟨hp, (Option.some_inj.mp hm).symm⟩
  · rw [reconcile_ok h, Dict.get?_foldl_set, resolvedTerms_get?, if_neg hp, Option.or_none,
      Option.map_eq_some_iff] at hm
    obtain ⟨⟨q, t⟩, ha, rfl⟩ := hm
    have hf := List.mem_filter.mp (List.mem_of_getLast? ha)
    obtain rfl : q = pair := of_decide_eq_true hf.2
    exact Or.inr hf.1

end Trezarr
