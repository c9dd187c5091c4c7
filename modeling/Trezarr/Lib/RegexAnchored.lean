import Trezarr.Lib.RegexGroups
import Trezarr.Lib.RegexSubs

/-! Patterns tied to the start of a text, and what a substitution leaves of a text. -/
namespace Regex
open Text

variable {p q : Pattern} {before s x : Str} {f : Found} {c : Char}

namespace Pattern

variable {a b : Pattern}

theorem consumes_seq_right (a : Pattern) (hb : b.Consumes) : (seq a b).Consumes := by
  intro s r hr
  obtain ⟨t, ht, hr⟩ := List.mem_flatMap.mp hr
  exact (hb t r hr).trans_le (suffix_of_mem_rests s t ht).length_le

theorem consumes_alt (ha : a.Consumes) (hb : b.Consumes) : (alt a b).Consumes := by
  intro s r hr
  rcases List.mem_append.mp hr with hr | hr
  · exact ha s r hr
  · exact hb s r hr

theorem consumes_lit {word : Str} (h : word ≠ []) : (lit word).Consumes := by
  intro s r hr
  rw [mem_rests_lit.mp hr, List.length_append]
  have hpos := List.length_pos_iff.mpr h
  omega

theorem looksAhead_lit (word : Str) : (lit word).LooksAhead := by
  unfold lit seqs
  induction word with
  | nil => trivial
  | cons c word ih => exact ⟨trivial, ih⟩

theorem mem_rests_alts {ps : List Pattern} {s r : Str} :
    r ∈ (alts ps).rests s ↔ ∃ p ∈ ps, r ∈ p.rests s := by
  induction ps with
  | nil =>
    rw [alts, mem_rests_set]
    simp
  | cons p ps ih =>
    cases ps with
    | nil => simp [alts]
    | cons q ps =>
      rw [alts, rests_alt, List.mem_append, ih]
      · simp
      · exact nofun

theorem looksAhead_alts {ps : List Pattern} (h : ∀ p ∈ ps, p.LooksAhead) :
    (alts ps).LooksAhead := by
  induction ps with
  | nil => trivial
  | cons p ps ih =>
    obtain ⟨hp, hps⟩ := List.forall_mem_cons.mp h
    cases ps with
    | nil => exact hp
    | cons q ps => exact ⟨hp, ih hps⟩

theorem consumes_alts {ps : List Pattern} (h : ∀ p ∈ ps, p.Consumes) : (alts ps).Consumes := by
  intro s r hr
  obtain ⟨p, hp, hr⟩ := mem_rests_alts.mp hr
  exact h p hp s r hr

end Pattern

open Pattern

section Parts

/-- What is after a match is the end of the text, and its groups are made of the text. -/
theorem matchAt_parts (h : matchAt p before s = some f) :
    f.skipped = [] ∧ f.rest <:+ s ∧ ∀ n, ∀ c ∈ f.group n, c ∈ s := by
  obtain ⟨d, hd, rfl⟩ := Option.map_eq_some_iff.mp h
  have hreaches := reaches_results _ d (List.mem_of_mem_head? hd)
  refine ⟨rfl, hreaches.suffix, fun n c hc => ?_⟩
  unfold Found.group at hc
  cases hfind : d.groups.find? (·.1 = n) with
  | none => simp [hfind] at hc
  | some g =>
    simp only [hfind, Option.map_some, Option.getD_some] at hc
    rcases hreaches.groups g (List.mem_of_find?_eq_some hfind) with hg | hg
    · cases hg
    · exact hg c hc

theorem searchFrom_parts (h : searchFrom p before s = some f) :
    (∀ c ∈ f.skipped, c ∈ s) ∧ f.rest <:+ s := by
  induction s generalizing before f with
  | nil =>
    obtain ⟨hskipped, hrest, _⟩ := matchAt_parts h
    simp [hskipped, hrest]
  | cons d s ih =>
    simp only [searchFrom] at h
    split at h
    next g hmatch =>
      cases h
      obtain ⟨hskipped, hrest, _⟩ := matchAt_parts hmatch
      simp [hskipped, hrest]
    next hmatch =>
      obtain ⟨g, hg, rfl⟩ := Option.map_eq_some_iff.mp h
      obtain ⟨hskipped, hrest⟩ := ih hg
      refine ⟨fun c hc => ?_, hrest.trans (List.suffix_cons d s)⟩
      rcases List.mem_cons.mp hc with rfl | hc
      · exact List.mem_cons_self
      · exact List.mem_cons_of_mem d (hskipped c hc)

theorem sub_of_found_eq_false {repl : Found → Str} (h : found p s = false) : sub p repl s = s := by
  have hsearch : searchFrom p [] s = none :=
    Option.isNone_iff_eq_none.mp (Option.isSome_eq_false_iff.mp h)
  simp only [sub, subFrom, hsearch]

theorem mem_subFrom {n : ℕ} : ∀ {before s : Str}, c ∈ subFrom p (fun _ => x) n before s →
    c ∈ s ∨ c ∈ x := by
  induction n with
  | zero => exact fun h => .inl h
  | succ n ih =>
    intro before s h
    cases hsearch : searchFrom p before s with
    | none =>
      simp only [subFrom, hsearch] at h
      exact .inl h
    | some f =>
      obtain ⟨hskipped, hrest⟩ := searchFrom_parts hsearch
      simp only [subFrom, hsearch, List.append_assoc, List.mem_append] at h
      rcases h with hc | hc | hc
      · exact .inl (hskipped c hc)
      · exact .inr hc
      · split at hc
        next => cases hc
        next d rest _ hd =>
          rw [hd] at hrest
          rcases List.mem_cons.mp hc with rfl | hc
          · exact .inl (hrest.mem List.mem_cons_self)
          · exact (ih hc).imp_left fun hmem => hrest.mem (List.mem_cons_of_mem d hmem)
        next => exact (ih hc).imp_left fun hmem => hrest.mem hmem

/-- A substitution brings nothing but the replacement. -/
theorem mem_sub (h : c ∈ sub p (fun _ => x) s) : c ∈ s ∨ c ∈ x := mem_subFrom h

end Parts

section Start

theorem matchAt_start : matchAt (seq start q) [] s = matchAt q [] s := by
  simp [matchAt, results, Cursor.upTo]

theorem matchAt_start_later (h : before ≠ []) : matchAt (seq start q) before s = none := by
  simp [matchAt, results, h]

theorem searchFrom_start_later (h : before ≠ []) : searchFrom (seq start q) before s = none := by
  induction s generalizing before with
  | nil => exact matchAt_start_later h
  | cons c s ih => simp [searchFrom, matchAt_start_later h, ih (List.cons_ne_nil c before)]

theorem searchFrom_start : searchFrom (seq start q) [] s = matchAt q [] s := by
  cases s with
  | nil => exact matchAt_start
  | cons c s =>
    rw [searchFrom, matchAt_start, searchFrom_start_later (List.cons_ne_nil c [])]
    cases matchAt q [] (c :: s) <;> rfl

theorem found_start (hq : q.LooksAhead) : found (seq start q) s = false ↔ q.rests s = [] := by
  rw [found, search, searchFrom_start, ← @matchAt_none_iff q hq []]
  exact Option.isSome_eq_false_iff.trans Option.isNone_iff_eq_none

/-- At most one match goes, the one at the start. -/
theorem sub_start (hq : q.LooksAhead) (hc : q.Consumes) :
    sub (seq start q) (fun _ => []) s = (q.rests s).head?.getD s := by
  cases hmatch : matchAt q [] s with
  | none =>
    rw [(matchAt_none_iff hq).mp hmatch]
    simp only [sub, subFrom, searchFrom_start, hmatch]
    rfl
  | some f =>
    obtain ⟨hskipped, heq, hhead⟩ := matchAt_some hq hmatch
    have hlt := hc _ _ (List.mem_of_mem_head? hhead)
    simp only [sub, subFrom, searchFrom_start, hmatch, hhead, hskipped, List.nil_append,
      Option.getD_some]
    cases htext : f.text with
    | nil =>
      rw [heq, htext] at hlt
      exact absurd hlt (by simp)
    | cons d text =>
      have hbefore : (d :: text).reverse ++ f.before ≠ [] := by simp
      dsimp only
      cases hlength : s.length with
      | zero => rfl
      | succ n => simp only [subFrom, searchFrom_start_later hbefore]

/-- A pattern that matches at the start of a text only, and never nothing. -/
def Anchored (p : Pattern) : Prop := ∃ q, p = seq start q ∧ q.LooksAhead ∧ q.Consumes

theorem Anchored.sub_suffix (h : Anchored p) : sub p (fun _ => []) s <:+ s := by
  obtain ⟨q, rfl, hq, hc⟩ := h
  rw [sub_start hq hc]
  cases hhead : (q.rests s).head? with
  | none => exact List.suffix_refl s
  | some r => exact suffix_of_mem_rests s r (List.mem_of_mem_head? hhead)

/-- The text stays exactly when there is no match to go. -/
theorem Anchored.sub_eq_self (h : Anchored p) : sub p (fun _ => []) s = s ↔ found p s = false := by
  obtain ⟨q, rfl, hq, hc⟩ := h
  rw [found_start hq, sub_start hq hc]
  cases hrests : q.rests s with
  | nil => simp
  | cons r rs =>
    have hlt := hc s r (hrests ▸ List.mem_cons_self)
    simp only [List.head?_cons, Option.getD_some, reduceCtorEq, iff_false]
    rintro rfl
    exact lt_irrefl _ hlt

end Start

end Regex
