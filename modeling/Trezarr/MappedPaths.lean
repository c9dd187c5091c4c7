import Trezarr.Lib.PurePaths
import Trezarr.Paths

/-! The mapped path against the longest remote prefix that ends at a component. -/
namespace Trezarr
open Text Sorting PurePaths

variable {apiPath rest : Str} {mappings : List PathMapping} {m : PathMapping}

/-- The remote side is in front of the path, and `rest` is what follows. -/
def PathMapping.Matches (m : PathMapping) (apiPath rest : Str) : Prop :=
  stripSlash apiPath = stripSlash m.remote ++ rest ∧ AtBoundary rest

/-- No mapping that matches has a longer remote side. -/
def LongestMatch (mappings : List PathMapping) (apiPath : Str) (m : PathMapping) (rest : Str) :
    Prop :=
  m ∈ mappings ∧ m.Matches apiPath rest ∧
    ∀ m' ∈ mappings, ∀ rest', m'.Matches apiPath rest' →
      (stripSlash m'.remote).length ≤ (stripSlash m.remote).length

/-- The rest of the path below the local side. -/
def PathMapping.replaced (m : PathMapping) (rest : Str) : PurePath :=
  ⟨root m.localPath, tail m.localPath ++ tail rest⟩

/-- The longest match is replaced, no match leaves the path as it is, and no order matters. -/
def MapsLongest (apiPath : Str) (mappings : List PathMapping) : Prop :=
  (∀ m rest, LongestMatch mappings apiPath m rest →
    purePath (applyPathMapping apiPath mappings).str = m.replaced rest) ∧
  ((∀ m ∈ mappings, ∀ rest, ¬ m.Matches apiPath rest) →
    applyPathMapping apiPath mappings = ⟨apiPath⟩) ∧
  ∀ mappings' : List PathMapping, mappings'.Perm mappings →
    applyPathMapping apiPath mappings' = applyPathMapping apiPath mappings

/-- The test of the loop. -/
theorem matches_iff : (∃ rest, m.Matches apiPath rest) ↔
    stripSlash apiPath = stripSlash m.remote ∨
      stripSlash m.remote ++ ['/'] <+: stripSlash apiPath := by
  constructor
  · rintro ⟨rest, hpath, rfl | hslash⟩
    · exact .inl (hpath.trans (List.append_nil _))
    · obtain ⟨back, rfl⟩ := List.head?_eq_some_iff.mp hslash
      exact .inr ⟨back, by rw [hpath, List.append_assoc]; rfl⟩
  · rintro (heq | ⟨back, hpath⟩)
    · exact ⟨[], by rw [heq, List.append_nil], .inl rfl⟩
    · exact ⟨'/' :: back, by rw [← hpath, List.append_assoc]; rfl, .inr rfl⟩

/-- Nothing matches, or a longest match is replaced as a text. -/
theorem applyPathMapping_cases (apiPath : Str) (mappings : List PathMapping) :
    (∀ m ∈ mappings, ∀ rest, ¬ m.Matches apiPath rest) ∧
        applyPathMapping apiPath mappings = ⟨apiPath⟩ ∨
      ∃ m rest, LongestMatch mappings apiPath m rest ∧
        applyPathMapping apiPath mappings = ⟨stripSlash m.localPath ++ rest⟩ := by
  unfold applyPathMapping
  dsimp only
  split
  next hnone =>
    refine .inl ⟨fun m hm rest hmatches => ?_, rfl⟩
    have htest := List.find?_eq_none.mp hnone m (mem_sortOn.mpr hm)
    exact htest (decide_eq_true (matches_iff.mp ⟨rest, hmatches⟩))
  next m hfound =>
    obtain ⟨hm, htest, hleast⟩ := least_of_find?_sortOn hfound
    obtain ⟨rest, hmatches⟩ := matches_iff.mpr (of_decide_eq_true htest)
    refine .inr ⟨m, rest, ⟨hm, hmatches, fun m' hm' rest' hmatches' => ?_⟩, ?_⟩
    · exact hleast m' hm' (decide_eq_true (matches_iff.mp ⟨rest', hmatches'⟩))
    · rw [hmatches.1, List.drop_left]

/-- With distinct remote sides there is one longest match. -/
theorem LongestMatch.unique {m' : PathMapping} {rest' : Str}
    (hdistinct : (mappings.map fun m => stripSlash m.remote).Nodup)
    (h : LongestMatch mappings apiPath m rest) (h' : LongestMatch mappings apiPath m' rest') :
    m' = m ∧ rest' = rest := by
  obtain ⟨hm, hmatches, hlongest⟩ := h
  obtain ⟨hm', hmatches', hlongest'⟩ := h'
  have hlength := Nat.le_antisymm (hlongest m' hm' rest' hmatches') (hlongest' m hm rest hmatches)
  obtain ⟨hremote, hrest⟩ := List.append_inj (hmatches'.1.symm.trans hmatches.1) hlength
  exact ⟨List.inj_on_of_nodup_map hdistinct hm' hm hremote, hrest⟩

theorem applyPathMapping_of_longest
    (hdistinct : (mappings.map fun m => stripSlash m.remote).Nodup)
    (h : LongestMatch mappings apiPath m rest) :
    applyPathMapping apiPath mappings = ⟨stripSlash m.localPath ++ rest⟩ := by
  rcases applyPathMapping_cases apiPath mappings with ⟨hnone, _⟩ | ⟨m', rest', hlongest, hmapped⟩
  · exact absurd h.2.1 (hnone m h.1 rest)
  · obtain ⟨rfl, rfl⟩ := h.unique hdistinct hlongest
    exact hmapped

theorem applyPathMapping_of_none (h : ∀ m ∈ mappings, ∀ rest, ¬ m.Matches apiPath rest) :
    applyPathMapping apiPath mappings = ⟨apiPath⟩ := by
  rcases applyPathMapping_cases apiPath mappings with ⟨_, hmapped⟩ | ⟨m, rest, hlongest, _⟩
  · exact hmapped
  · exact absurd hlongest.2.1 (h m hlongest.1 rest)

/-- The order of the mappings does not matter when their remote sides are distinct. -/
theorem applyPathMapping_perm {mappings' : List PathMapping}
    (hdistinct : (mappings.map fun m => stripSlash m.remote).Nodup)
    (hperm : mappings'.Perm mappings) :
    applyPathMapping apiPath mappings' = applyPathMapping apiPath mappings := by
  rcases applyPathMapping_cases apiPath mappings' with
    ⟨hnone, hmapped⟩ | ⟨m, rest, hlongest, hmapped⟩
  · rw [hmapped, applyPathMapping_of_none]
    intro m hm
    exact hnone m (hperm.mem_iff.mpr hm)
  · rw [hmapped, applyPathMapping_of_longest hdistinct (m := m)]
    exact ⟨hperm.mem_iff.mp hlongest.1, hlongest.2.1,
      fun m' hm' => hlongest.2.2 m' (hperm.mem_iff.mpr hm')⟩

theorem localPath_split (m : PathMapping) : ∃ slashes, (∀ c ∈ slashes, c = '/') ∧
    m.localPath = stripSlash m.localPath ++ slashes := by
  refine ⟨m.localPath.rtakeWhile (· = '/'), fun c hc => ?_, ?_⟩
  · exact of_decide_eq_true (List.mem_rtakeWhile_imp (p := fun c => decide (c = '/')) hc)
  · exact List.rdropWhile_append_rtakeWhile.symm

theorem not_slashes_of_stripSlash {s : Str} (h : stripSlash s ≠ []) :
    ¬ ∀ c ∈ stripSlash s, c = '/' := by
  intro hslashes
  have hlast := List.rdropWhile_last_not (p := fun c => decide (c = '/')) s h
  exact hlast (decide_eq_true (hslashes _ (List.getLast_mem h)))

/-- Below slashes alone, the rest of the path has to bring the root with it. -/
theorem purePath_mapped_iff (h : AtBoundary rest) :
    purePath (stripSlash m.localPath ++ rest) = m.replaced rest ↔
      stripSlash m.localPath ≠ [] ∨ root m.localPath = root rest := by
  obtain ⟨slashes, hslashes, hlocal⟩ := localPath_split m
  have htail : tail m.localPath = tail (stripSlash m.localPath) := by
    conv_lhs => rw [hlocal]
    rw [tail_append (atBoundary_slashes hslashes), tail_slashes hslashes, List.append_nil]
  have hbelow : tail (stripSlash m.localPath ++ rest) = tail m.localPath ++ tail rest := by
    rw [tail_append h, htail]
  have hroots : purePath (stripSlash m.localPath ++ rest) = m.replaced rest ↔
      root (stripSlash m.localPath ++ rest) = root m.localPath := by
    unfold purePath PathMapping.replaced
    rw [PurePath.mk.injEq, hbelow]
    exact and_iff_left rfl
  rw [hroots]
  by_cases hempty : stripSlash m.localPath = []
  · rw [hempty, List.nil_append]
    simp only [ne_eq, not_true_eq_false, false_or]
    exact eq_comm
  · refine iff_of_true ?_ (.inl hempty)
    conv_rhs => rw [hlocal]
    rw [root_append (not_slashes_of_stripSlash hempty),
      root_append (not_slashes_of_stripSlash hempty)]

/-- The mapping is right just when the longest match has a local side that is more than slashes,
or one with the root of the rest. -/
theorem maps_longest_iff (hdistinct : (mappings.map fun m => stripSlash m.remote).Nodup) :
    MapsLongest apiPath mappings ↔ ∀ m rest, LongestMatch mappings apiPath m rest →
      stripSlash m.localPath ≠ [] ∨ root m.localPath = root rest := by
  have hreplaced : ∀ {m rest}, LongestMatch mappings apiPath m rest →
      (purePath (applyPathMapping apiPath mappings).str = m.replaced rest ↔
        stripSlash m.localPath ≠ [] ∨ root m.localPath = root rest) := by
    intro m rest hlongest
    rw [applyPathMapping_of_longest hdistinct hlongest]
    exact purePath_mapped_iff hlongest.2.1.2
  constructor
  · intro hmaps m rest hlongest
    exact (hreplaced hlongest).mp (hmaps.1 m rest hlongest)
  · intro hroots
    refine ⟨fun m rest hlongest => ?_, applyPathMapping_of_none, fun _ hperm => ?_⟩
    · exact (hreplaced hlongest).mpr (hroots m rest hlongest)
    · exact applyPathMapping_perm hdistinct hperm

/-- A nested remote side, listed after the one around it. -/
theorem nested_remote_wins :
    MapsLongest "/tv/anime/a.mkv" [⟨"/tv", "/d"⟩, ⟨"/tv/anime/", "/e/"⟩] := by
  refine (maps_longest_iff (by decide)).mpr fun m rest hlongest => .inl ?_
  have hlocals : ∀ m ∈ [(⟨"/tv", "/d"⟩ : PathMapping), ⟨"/tv/anime/", "/e/"⟩],
      stripSlash m.localPath ≠ [] := by decide
  exact hlocals m hlongest.1

/-- A library that is the whole disk of this host loses its root. -/
theorem root_library_lost : ¬ MapsLongest "/tv" [⟨"/tv", "/"⟩] := by
  intro hmaps
  have hlongest : LongestMatch [⟨"/tv", "/"⟩] "/tv" ⟨"/tv", "/"⟩ [] := by
    refine ⟨List.mem_singleton_self _, ⟨by decide, .inl rfl⟩, fun m' hm' _ _ => ?_⟩
    rw [List.mem_singleton.mp hm']
  exact absurd (hmaps.1 _ _ hlongest) (by decide)

end Trezarr
