import Trezarr.Translate.Attribute

/-! Which names of a reply survive the matching against the roster. -/
namespace Trezarr
open Text

variable {bible : SeriesBibleDTO} {attr : LineAttribution} {attributions : List LineAttribution}
  {name : Str}

/-- The names a line gives. -/
def LineAttribution.given (attr : LineAttribution) : List Str :=
  attr.speaker.toList ++ attr.addressee.toList

/-- The names of the roster, trimmed and in lower case. -/
def rosterKeys (bible : SeriesBibleDTO) : List Str :=
  bible.characters.map (nameKey ·.originalLatinName)

/-- Reconciliation resolves the name to a character, exactly or without its honorifics. -/
def Resolves (bible : SeriesBibleDTO) (name : Str) : Prop :=
  ∃ id, resolveCharId (nameToId bible) (some name) = some id

/-- A name that resolves is kept, and the confidence unless some name of the line does not. -/
structure NamesKept (bible : SeriesBibleDTO) (attr out : LineAttribution) : Prop where
  speaker : ∀ name, attr.speaker = some name → Resolves bible name → out.speaker = some name
  addressee : ∀ name, attr.addressee = some name → Resolves bible name → out.addressee = some name
  confidence : (∀ name ∈ attr.given, Resolves bible name) → out.confidence = attr.confidence

theorem mem_given : name ∈ attr.given ↔ attr.speaker = some name ∨ attr.addressee = some name := by
  rw [LineAttribution.given, List.mem_append, Option.mem_toList, Option.mem_toList]

theorem known_of_kept {known : Option Str → Bool} {given : Option Str}
    (h : (if known given then given else none) = some name) : known (some name) = true := by
  split at h
  · next hk => rwa [h] at hk
  · cases h

/-- A name that gets through the matching is one of the roster's as it stands. -/
theorem mem_rosterKeys_of_matched {out : LineAttribution}
    (h : out ∈ applyNameMatching attributions bible) (hname : name ∈ out.given) :
    nameKey name ∈ rosterKeys bible := by
  obtain ⟨attr, -, rfl⟩ := List.mem_map.mp h
  rcases mem_given.mp hname with hk | hk
  · exact of_decide_eq_true (known_of_kept hk)
  · exact of_decide_eq_true (known_of_kept hk)

theorem matchNames_kept (h : ∀ name ∈ attr.given, Resolves bible name →
    nameKey name ∈ rosterKeys bible) :
    NamesKept bible attr (matchNames (rosterKeys bible) attr) where
  speaker name hname hres := by
    have hk := h name (mem_given.mpr (Or.inl hname)) hres
    simp [matchNames, hname, hk]
  addressee name hname hres := by
    have hk := h name (mem_given.mpr (Or.inr hname)) hres
    simp [matchNames, hname, hk]
  confidence hall := by
    have hknown : ∀ given : Option Str, (∀ name, given = some name → name ∈ attr.given) →
        (given.all fun name => nameKey name ∈ rosterKeys bible) = true := by
      intro given hgiven
      cases given with
      | none => rfl
      | some name =>
        have hm := hgiven name rfl
        exact decide_eq_true (h name hm (hall name hm))
    have hspeaker := hknown attr.speaker fun name hname => mem_given.mpr (Or.inl hname)
    have haddressee := hknown attr.addressee fun name hname => mem_given.mpr (Or.inr hname)
    simp [matchNames, hspeaker, haddressee]

theorem NamesKept.exact (h : NamesKept bible attr (matchNames (rosterKeys bible) attr))
    (hname : name ∈ attr.given) (hres : Resolves bible name) : nameKey name ∈ rosterKeys bible := by
  rcases mem_given.mp hname with hk | hk
  · exact of_decide_eq_true (known_of_kept (h.speaker name hk hres))
  · exact of_decide_eq_true (known_of_kept (h.addressee name hk hres))

/-- Every name that resolves is kept exactly when none of them needs its honorifics taken off. -/
theorem names_kept_iff (bible : SeriesBibleDTO) (attributions : List LineAttribution) :
    List.Forall₂ (NamesKept bible) attributions (applyNameMatching attributions bible) ↔
      ∀ attr ∈ attributions, ∀ name ∈ attr.given, Resolves bible name →
        nameKey name ∈ rosterKeys bible := by
  rw [applyNameMatching, List.forall₂_map_right_iff, List.forall₂_same]
  constructor
  · intro h attr hattr name hname hres
    exact (h attr hattr).exact hname hres
  · intro h attr hattr
    exact matchNames_kept (h attr hattr)

def hanRoster : SeriesBibleDTO where
  id := 1
  characters := [{ id := 1, seriesId := 1, originalLatinName := "Han" }]

def titledHan : LineAttribution where
  lineIndex := 1
  speaker := some "Mr. Han"
  confidence := .high

/-- The title is taken off where the pair is resolved, but the name does not come that far. -/
theorem titledHan_dropped : ¬ List.Forall₂ (NamesKept hanRoster) [titledHan]
    (applyNameMatching [titledHan] hanRoster) := by
  intro h
  have hkept : NamesKept hanRoster titledHan (matchNames (rosterKeys hanRoster) titledHan) :=
    (List.forall₂_cons.mp h).1
  have hresolved : Resolves hanRoster "Mr. Han" := ⟨1, by decide⟩
  have hspeaker := hkept.speaker "Mr. Han" rfl hresolved
  exact absurd hspeaker (by decide)

end Trezarr
