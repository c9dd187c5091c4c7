import Trezarr.Bible.Models
import Trezarr.Lib.Dict

/-! Rows seen through their fields, and the merge policy over them: lock, then prior, then inference. -/
namespace Trezarr
open Text

def mergeableFields : EntityType → List Field
  | .character => [.gender, .roughAge, .role]
  | .termDictionary => [.vietnameseRendering, .category]
  | .series => [.register]
  | .addressMap => [.selfTerm, .addressTerm, .validFromEpisode]

/-- A table of the Bible, its rows read and written by field. Writing a mergeable field
changes that field only; the identity columns are not among them. -/
class BibleRow (R : Type) extends Keyed R where
  Ident : Type
  entityType : EntityType
  seriesId : R → ℕ
  ident : R → Ident
  lockedFields : R → List Field
  withLocked : R → List Field → R
  value : R → Field → Option Str
  setValue : R → Field → Option Str → Except StoreError R
  table : Store → Table R
  withTable : Store → Table R → Store
  /-- The rows a new row of this table refers to. -/
  references : Store → R → Bool
  id_setValue : ∀ {r f v r'}, setValue r f v = .ok r' → Keyed.id r' = Keyed.id r
  ident_setValue : ∀ {r f v r'}, setValue r f v = .ok r' → ident r' = ident r
  locked_setValue : ∀ {r f v r'}, setValue r f v = .ok r' → lockedFields r' = lockedFields r
  value_setValue : ∀ {r f v r'}, f ∈ mergeableFields entityType → setValue r f v = .ok r' →
    ∀ g, value r' g = if g = f then v else value r g
  id_withLocked : ∀ r l, Keyed.id (withLocked r l) = Keyed.id r
  ident_withLocked : ∀ r l, ident (withLocked r l) = ident r
  locked_withLocked : ∀ r l, lockedFields (withLocked r l) = l
  value_withLocked : ∀ r l f, value (withLocked r l) f = value r f
  table_withTable : ∀ s t, table (withTable s t) = t
  table_events : ∀ s events, table { s with bibleEvents := events } = table s

instance : BibleRow Series where
  Ident := Unit
  entityType := .series
  seriesId := Series.id
  ident _ := ()
  lockedFields := Series.lockedFields
  withLocked r l := { r with lockedFields := l }
  value
    | r, .register => r.register
    | _, _ => none
  setValue
    | r, .register, v => .ok { r with register := v }
    | r, _, _ => .ok r
  table := Store.series
  withTable s t := { s with series := t }
  references _ _ := true
  id_setValue := by rintro r ⟨⟩ v _ ⟨⟩ <;> rfl
  ident_setValue _ := rfl
  locked_setValue := by rintro r ⟨⟩ v _ ⟨⟩ <;> rfl
  value_setValue := by
    intro r f v r' hf h g
    cases f <;> simp [mergeableFields] at hf
    cases h
    cases g <;> rfl
  id_withLocked _ _ := rfl
  ident_withLocked _ _ := rfl
  locked_withLocked _ _ := rfl
  value_withLocked _ _ f := by cases f <;> rfl
  table_withTable _ _ := rfl
  table_events _ _ := rfl

instance : BibleRow Character where
  Ident := ℕ × Str
  entityType := .character
  seriesId := Character.seriesId
  ident r := (r.seriesId, r.originalLatinName)
  lockedFields := Character.lockedFields
  withLocked r l := { r with lockedFields := l }
  value
    | r, .gender => r.gender
    | r, .roughAge => r.roughAge
    | r, .role => r.role
    | _, _ => none
  setValue
    | r, .gender, v => .ok { r with gender := v }
    | r, .roughAge, v => .ok { r with roughAge := v }
    | r, .role, v => .ok { r with role := v }
    | r, _, _ => .ok r
  table := Store.characters
  withTable s t := { s with characters := t }
  references s r := (s.series.get? r.seriesId).isSome
  id_setValue := by rintro r ⟨⟩ v _ ⟨⟩ <;> rfl
  ident_setValue := by rintro r ⟨⟩ v _ ⟨⟩ <;> rfl
  locked_setValue := by rintro r ⟨⟩ v _ ⟨⟩ <;> rfl
  value_setValue := by
    intro r f v r' hf h g
    cases f <;> simp [mergeableFields] at hf <;> cases h <;> cases g <;> rfl
  id_withLocked _ _ := rfl
  ident_withLocked _ _ := rfl
  locked_withLocked _ _ := rfl
  value_withLocked _ _ f := by cases f <;> rfl
  table_withTable _ _ := rfl
  table_events _ _ := rfl

instance : BibleRow TermDictionary where
  Ident := ℕ × Str
  entityType := .termDictionary
  seriesId := TermDictionary.seriesId
  ident r := (r.seriesId, r.sourceTerm)
  lockedFields := TermDictionary.lockedFields
  withLocked r l := { r with lockedFields := l }
  value
    | r, .vietnameseRendering => some r.vietnameseRendering
    | r, .category => r.category
    | _, _ => none
  setValue
    | r, .vietnameseRendering, some v => .ok { r with vietnameseRendering := v }
    | _, .vietnameseRendering, none => .error .integrityError
    | r, .category, v => .ok { r with category := v }
    | r, _, _ => .ok r
  table := Store.termDictionary
  withTable s t := { s with termDictionary := t }
  references s r := (s.series.get? r.seriesId).isSome
  id_setValue := by rintro r ⟨⟩ ⟨⟩ _ ⟨⟩ <;> rfl
  ident_setValue := by rintro r ⟨⟩ ⟨⟩ _ ⟨⟩ <;> rfl
  locked_setValue := by rintro r ⟨⟩ ⟨⟩ _ ⟨⟩ <;> rfl
  value_setValue := by
    intro r f v r' hf h g
    cases f <;> simp [mergeableFields] at hf <;> cases v <;> cases h <;> cases g <;> rfl
  id_withLocked _ _ := rfl
  ident_withLocked _ _ := rfl
  locked_withLocked _ _ := rfl
  value_withLocked _ _ f := by cases f <;> rfl
  table_withTable _ _ := rfl
  table_events _ _ := rfl

instance : BibleRow AddressMap where
  Ident := ℕ × ℕ × ℕ
  entityType := .addressMap
  seriesId := AddressMap.seriesId
  ident r := (r.seriesId, r.speakerCharacterId, r.addresseeCharacterId)
  lockedFields := AddressMap.lockedFields
  withLocked r l := { r with lockedFields := l }
  value
    | r, .selfTerm => r.selfTerm
    | r, .addressTerm => r.addressTerm
    | r, .validFromEpisode => r.validFromEpisode
    | _, _ => none
  setValue
    | r, .selfTerm, v => .ok { r with selfTerm := v }
    | r, .addressTerm, v => .ok { r with addressTerm := v }
    | r, .validFromEpisode, v => .ok { r with validFromEpisode := v }
    | r, _, _ => .ok r
  table := Store.addressMaps
  withTable s t := { s with addressMaps := t }
  references s r := (s.series.get? r.seriesId).isSome &&
    (s.characters.get? r.speakerCharacterId).isSome &&
    (s.characters.get? r.addresseeCharacterId).isSome
  id_setValue := by rintro r ⟨⟩ v _ ⟨⟩ <;> rfl
  ident_setValue := by rintro r ⟨⟩ v _ ⟨⟩ <;> rfl
  locked_setValue := by rintro r ⟨⟩ v _ ⟨⟩ <;> rfl
  value_setValue := by
    intro r f v r' hf h g
    cases f <;> simp [mergeableFields] at hf <;> cases h <;> cases g <;> rfl
  id_withLocked _ _ := rfl
  ident_withLocked _ _ := rfl
  locked_withLocked _ _ := rfl
  value_withLocked _ _ f := by cases f <;> rfl
  table_withTable _ _ := rfl
  table_events _ _ := rfl

open BibleRow

variable {R : Type} [BibleRow R]

/-- The fields whose value changes, with the old and the new one. -/
def computeFieldChanges (row : R) (inferred : List (Field × Option Str)) (locked : List Field) :
    List (Field × Option Str × Option Str) :=
  inferred.filterMap fun (field, newVal) =>
    if field ∈ locked then none
    else if value row field = newVal then none
    else some (field, value row field, newVal)

theorem mem_computeFieldChanges {row : R} {inferred : List (Field × Option Str)}
    {locked : List Field} {field : Field} {old new : Option Str} :
    (field, old, new) ∈ computeFieldChanges row inferred locked ↔
      (field, new) ∈ inferred ∧ field ∉ locked ∧ value row field ≠ new ∧ old = value row field := by
  simp only [computeFieldChanges, List.mem_filterMap, Prod.exists]
  constructor
  · rintro ⟨f, v, hm, he⟩
    split at he <;> try split at he
    all_goals simp only [reduceCtorEq, Option.some_inj, Prod.mk.injEq] at he
    obtain ⟨rfl, rfl, rfl⟩ := he
    exact ⟨hm, ‹_›, ‹_›, rfl⟩
  · rintro ⟨hm, hl, hv, rfl⟩
    exact ⟨field, new, hm, by simp [hl, hv]⟩

end Trezarr
