import Trezarr.Lib.Lower
import Trezarr.Output.Files

/-! The one rule that names a Vietnamese sidecar. -/
namespace Trezarr
open Text

/-- The letters `[a-z]` stands for when case is ignored: the ASCII ones and four others. -/
def isLangLetter (c : Char) : Bool :=
  ('a' ≤ c && c ≤ 'z') || ('A' ≤ c && c ≤ 'Z') || c.toNat ∈ [0x130, 0x131, 0x17F, 0x212A]

def endsWithLangCode (stem : Str) : Bool :=
  match stem.reverse with
  | b :: a :: '.' :: _ => isLangLetter a && isLangLetter b
  | _ => false

/-- A final newline does not hide the code before it. -/
def langCodeSearch (stem : Str) : Bool :=
  endsWithLangCode stem || (stem.getLast? = some '\n' && endsWithLangCode stem.dropLast)

def stripLangCode (stem : Str) : Str :=
  if langCodeSearch stem then (stem.rdropWhile (· ≠ '.')).dropLast else stem

def deriveViSidecarPath (fs : FileSystem) (mediaPath : Path) : Path :=
  let mediaPath := fs.resolve mediaPath
  ⟨mediaPath.parent ++ stripLangCode mediaPath.stem ++ ".vi" ++ lower mediaPath.suffix⟩

/-- The name of a sidecar follows from that of the file it is for. -/
def viSidecarOf (source : Path) : Path :=
  ⟨source.parent ++ stripLangCode source.stem ++ ".vi" ++ lower source.suffix⟩

theorem deriveViSidecarPath_eq {fs : FileSystem} {p : Path} :
    deriveViSidecarPath fs p = viSidecarOf (fs.resolve p) := rfl

@[simp] theorem deriveViSidecarPath_resolve {fs : FileSystem} {p : Path} :
    deriveViSidecarPath fs (fs.resolve p) = deriveViSidecarPath fs p := by
  simp [deriveViSidecarPath]

/-- The name of a Vietnamese sidecar: the language code, and nothing for lower case to change. -/
def ViNamed (p : Path) : Prop := ".vi" <:+ p.stem ∧ lower p.suffix = p.suffix

theorem ne_dot_of_isLangLetter {c : Char} (h : isLangLetter c = true) : c ≠ '.' := by
  rintro rfl
  revert h
  decide

theorem endsWithLangCode_iff {stem : Str} : endsWithLangCode stem = true ↔
    ∃ front a b, stem = front ++ ['.', a, b] ∧ isLangLetter a = true ∧ isLangLetter b = true := by
  unfold endsWithLangCode
  constructor
  · intro h
    split at h
    next b a rest hrev =>
      rw [Bool.and_eq_true] at h
      refine ⟨rest.reverse, a, b, ?_, h⟩
      have hstem := congrArg List.reverse hrev
      simpa using hstem
    next => cases h
  · rintro ⟨front, a, b, rfl, ha, hb⟩
    simp [ha, hb]

theorem stripLangCode_of_code {front back : Str} (hsearch : langCodeSearch (front ++ '.' :: back))
    (hback : '.' ∉ back) : stripLangCode (front ++ '.' :: back) = front := by
  unfold stripLangCode
  rw [if_pos hsearch, rdropWhile_ne_append hback, List.dropLast_concat]

theorem stripLangCode_vi (front : Str) : stripLangCode (front ++ ".vi") = front := by
  have hcode : langCodeSearch (front ++ '.' :: "vi") = true := by
    have hend : endsWithLangCode (front ++ '.' :: "vi") = true :=
      endsWithLangCode_iff.mpr ⟨front, 'v', 'i', rfl, by decide, by decide⟩
    unfold langCodeSearch
    rw [hend, Bool.true_or]
  exact stripLangCode_of_code hcode (by decide)

/-- What is taken away is a dot and two letters, with a line break at most after them. -/
theorem stripLangCode_cases (stem : Str) : stripLangCode stem = stem ∨
    ∃ a b, stem = stripLangCode stem ++ ['.', a, b] ∨
      stem = stripLangCode stem ++ ['.', a, b, '\n'] := by
  cases hsearch : langCodeSearch stem with
  | false =>
    left
    unfold stripLangCode
    rw [hsearch]
    rfl
  | true =>
    right
    have hcode := hsearch
    unfold langCodeSearch at hcode
    rcases Bool.or_eq_true _ _ ▸ hcode with hend | hline
    · obtain ⟨front, a, b, rfl, ha, hb⟩ := endsWithLangCode_iff.mp hend
      have hback : '.' ∉ [a, b] := by
        simp [(ne_dot_of_isLangLetter ha).symm, (ne_dot_of_isLangLetter hb).symm]
      exact ⟨a, b, .inl (by rw [stripLangCode_of_code hsearch hback])⟩
    · rw [Bool.and_eq_true] at hline
      obtain ⟨front, a, b, hfront, ha, hb⟩ := endsWithLangCode_iff.mp hline.2
      obtain ⟨init, rfl⟩ := List.getLast?_eq_some_iff.mp (of_decide_eq_true hline.1)
      rw [List.dropLast_concat] at hfront
      subst hfront
      rw [List.append_assoc] at hsearch ⊢
      have hback : '.' ∉ [a, b, '\n'] := by
        simp [(ne_dot_of_isLangLetter ha).symm, (ne_dot_of_isLangLetter hb).symm]
      exact ⟨a, b, .inr (congrArg (· ++ ['.', a, b, '\n']) (stripLangCode_of_code hsearch hback).symm)⟩

/-- A suffix starts with its dot in lower case too. -/
theorem lower_suffix_cases (p : Path) : p.suffix = [] ∧ lower p.suffix = [] ∨
    ∃ ext low, p.suffix = '.' :: ext ∧ '.' ∉ ext ∧ lower p.suffix = '.' :: low ∧ '.' ∉ low := by
  rcases p.suffix_cases with hnil | ⟨ext, hext, hdot⟩
  · exact .inl ⟨hnil, by rw [hnil]; rfl⟩
  · refine .inr ⟨ext, lowerFrom ['.'] ext, hext, hdot, ?_, ?_⟩
    · rw [hext]
      rfl
    · exact fun h => hdot (mem_of_mem_lowerFrom (by decide) h)

theorem viSidecarOf_eq_self_iff {p : Path} : viSidecarOf p = p ↔ ViNamed p := by
  have hstr : viSidecarOf p = p ↔
      stripLangCode p.stem ++ ".vi" ++ lower p.suffix = p.stem ++ p.suffix := by
    rw [p.stem_append_suffix]
    constructor
    · intro h
      have h' := congrArg Path.str h
      rw [← p.parent_append_name] at h'
      simpa [viSidecarOf] using h'
    · intro h
      apply Path.eq_of_str
      rw [← p.parent_append_name, ← h]
      simp [viSidecarOf]
  rw [hstr]
  constructor
  · intro h
    rcases stripLangCode_cases p.stem with hsame | ⟨a, b, hcode | hcode⟩
    · rw [hsame, List.append_assoc] at h
      have hsuffix : ".vi" ++ lower p.suffix = p.suffix := List.append_cancel_left h
      exfalso
      rcases lower_suffix_cases p with ⟨hnil, hlow⟩ | ⟨ext, low, hext, hdot, hlow, _⟩
      · rw [hnil] at hsuffix
        cases hsuffix
      · rw [hlow, hext] at hsuffix
        apply hdot
        rw [← (List.cons.inj hsuffix).2]
        simp
    · have hboth := h.trans (congrArg (· ++ p.suffix) hcode)
      rw [List.append_assoc, List.append_assoc] at hboth
      have hends : "vi" ++ lower p.suffix = a :: b :: p.suffix :=
        (List.cons.inj (List.append_cancel_left hboth)).2
      obtain ⟨hv, hrest⟩ := List.cons.inj hends
      obtain ⟨hi, hlow⟩ := List.cons.inj hrest
      subst hv hi
      exact ⟨⟨_, hcode.symm⟩, hlow⟩
    · have hboth := h.trans (congrArg (· ++ p.suffix) hcode)
      rw [List.append_assoc, List.append_assoc] at hboth
      have hends : "vi" ++ lower p.suffix = a :: b :: '\n' :: p.suffix :=
        (List.cons.inj (List.append_cancel_left hboth)).2
      have hbreak : lower p.suffix = '\n' :: p.suffix :=
        (List.cons.inj (List.cons.inj hends).2).2
      exfalso
      rcases lower_suffix_cases p with ⟨_, hlow⟩ | ⟨ext, low, _, _, hlow, _⟩
      · rw [hlow] at hbreak
        cases hbreak
      · rw [hlow] at hbreak
        cases hbreak
  · rintro ⟨⟨front, hfront⟩, hlow⟩
    rw [hlow, ← hfront, stripLangCode_vi]

theorem stripLangCode_prefix_stem (stem : Str) : stripLangCode stem <+: stem := by
  unfold stripLangCode
  split
  next => exact (List.dropLast_prefix _).trans (List.rdropWhile_prefix _ _)
  next => exact List.prefix_refl _

/-- A sidecar with a suffix of its own has the name of one. -/
theorem viNamed_viSidecarOf {p : Path} {ext : Str} (hsuffix : lower p.suffix = '.' :: ext)
    (hext : ext ≠ []) (hdot : '.' ∉ ext) (hslash : '/' ∉ ext) : ViNamed (viSidecarOf p) := by
  have hchild : '/' ∉ stripLangCode p.stem ++ ".vi" ++ '.' :: ext := by
    have hstem : '/' ∉ stripLangCode p.stem := by
      intro hmem
      have hname : '/' ∈ p.name := by
        rw [← p.stem_append_suffix]
        exact List.mem_append_left _ ((stripLangCode_prefix_stem p.stem).mem hmem)
      exact not_mem_rtakeWhile p.str hname
    simp [hstem, hslash]
  have hname : (viSidecarOf p).name = stripLangCode p.stem ++ ".vi" ++ '.' :: ext := by
    have h := Path.name_of_child p.parent_cases hchild
    rw [← h]
    simp [viSidecarOf, hsuffix]
  obtain ⟨hpstem, hpsuffix⟩ := Path.splitSuffix_of_name hname (by simp) hext hdot
  refine ⟨hpstem ▸ List.suffix_append _ _, ?_⟩
  rw [hpsuffix, ← hsuffix, lower_lower]

end Trezarr
