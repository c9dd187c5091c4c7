import Mathlib.Data.List.Flatten
import Trezarr.Lib.Regex

/-! Patterns that only look ahead: what a match leaves of a text, searching and splitting. -/
namespace Regex
open Text

namespace Pattern

/-- Nothing before a place decides a match there. -/
def LooksAhead : Pattern → Prop
  | eps | set _ | finish => True
  | seq a b | alt a b => a.LooksAhead ∧ b.LooksAhead
  | star a | group _ a | notAhead a => a.LooksAhead
  | start | lineStart | boundary | notBehind _ => False

def iterateRests (f : Str → List Str) : ℕ → Str → List Str
  | 0, s => [s]
  | n + 1, s => ((f s).filter fun r => r.length < s.length).flatMap (iterateRests f n) ++ [s]

/-- What each match leaves of the text, the preferred one first. -/
def rests : Pattern → Str → List Str
  | eps, s => [s]
  | set _, [] => []
  | set p, c :: r => if p c then [r] else []
  | seq a b, s => (a.rests s).flatMap b.rests
  | alt a b, s => a.rests s ++ b.rests s
  | star a, s => iterateRests a.rests s.length s
  | group _ a, s => a.rests s
  | finish, s => if s = [] ∨ s = ['\n'] then [s] else []
  | notAhead a, s => if a.rests s = [] then [s] else []
  | start, _ | lineStart, _ | boundary, _ | notBehind _, _ => []

@[simp] theorem rests_eps (s : Str) : eps.rests s = [s] := rfl

@[simp] theorem rests_set_nil (p : Char → Bool) : (set p).rests [] = [] := rfl

@[simp] theorem rests_set_cons (p : Char → Bool) (c : Char) (s : Str) :
    (set p).rests (c :: s) = if p c then [s] else [] := rfl

@[simp] theorem rests_seq (a b : Pattern) (s : Str) :
    (seq a b).rests s = (a.rests s).flatMap b.rests := rfl

@[simp] theorem rests_alt (a b : Pattern) (s : Str) :
    (alt a b).rests s = a.rests s ++ b.rests s := rfl

theorem map_iterate {f : Cursor → List Cursor} {g : Str → List Str}
    (h : ∀ c, (f c).map Cursor.after = g c.after) (n : ℕ) :
    ∀ c, (iterate f n c).map Cursor.after = iterateRests g n c.after := by
  induction n with
  | zero => exact fun c => rfl
  | succ n ih =>
    intro c
    simp only [iterate, iterateRests, List.map_append, List.map_flatMap, List.map_cons,
      List.map_nil, ih, ← h, List.filter_map, List.flatMap_map, Function.comp_def]

theorem map_results {p : Pattern} (hp : p.LooksAhead) :
    ∀ c : Cursor, (p.results c).map Cursor.after = p.rests c.after := by
  induction p with
  | eps => exact fun c => rfl
  | set p =>
    intro c
    cases hc : c.after with
    | nil => simp [results, rests, hc]
    | cons x rest =>
      by_cases hx : p x <;> simp [results, rests, hc, hx]
  | seq a b iha ihb =>
    intro c
    simp only [results, rests, ← iha hp.1, List.map_flatMap, List.flatMap_map, ihb hp.2]
  | alt a b iha ihb =>
    intro c
    simp only [results, rests, List.map_append, iha hp.1, ihb hp.2]
  | star a ih => exact fun c => map_iterate (ih hp) c.after.length c
  | group n a ih =>
    intro c
    simp only [results, rests, ← ih hp, List.map_map, Function.comp_def]
  | finish =>
    intro c
    by_cases hc : c.after = [] ∨ c.after = ['\n'] <;> simp [results, rests, hc]
  | notAhead a ih =>
    intro c
    have hnil : a.results c = [] ↔ a.rests c.after = [] := by
      rw [← ih hp]
      simp
    by_cases hc : a.rests c.after = [] <;> simp [results, rests, hnil, hc]
  | start => exact hp.elim
  | lineStart => exact hp.elim
  | boundary => exact hp.elim
  | notBehind p => exact hp.elim

theorem suffix_of_mem_iterateRests {f : Str → List Str} (h : ∀ s, ∀ r ∈ f s, r <:+ s) (n : ℕ) :
    ∀ s, ∀ r ∈ iterateRests f n s, r <:+ s := by
  induction n with
  | zero =>
    intro s r hr
    cases List.mem_singleton.mp hr
    exact List.suffix_refl s
  | succ n ih =>
    intro s r hr
    simp only [iterateRests, List.mem_append, List.mem_flatMap, List.mem_filter,
      List.mem_singleton] at hr
    rcases hr with ⟨t, ht, hr⟩ | rfl
    · exact (ih t r hr).trans (h s t ht.1)
    · exact List.suffix_refl r

/-- A match consumes from the front. -/
theorem suffix_of_mem_rests {p : Pattern} : ∀ s, ∀ r ∈ p.rests s, r <:+ s := by
  induction p with
  | set p =>
    intro s r hr
    cases s with
    | nil => cases hr
    | cons c s =>
      simp only [rests] at hr
      split at hr
      · rw [List.mem_singleton.mp hr]
        exact List.suffix_cons c s
      · cases hr
  | seq a b iha ihb =>
    intro s r hr
    obtain ⟨t, ht, hr⟩ := List.mem_flatMap.mp hr
    exact (ihb t r hr).trans (iha s t ht)
  | alt a b iha ihb =>
    intro s r hr
    rcases List.mem_append.mp hr with hr | hr
    · exact iha s r hr
    · exact ihb s r hr
  | star a ih => exact fun s => suffix_of_mem_iterateRests ih s.length s
  | group n a ih => exact ih
  | eps =>
    intro s r hr
    cases List.mem_singleton.mp hr
    exact List.suffix_refl s
  | finish =>
    intro s r hr
    simp only [rests] at hr
    split at hr
    · cases List.mem_singleton.mp hr
      exact List.suffix_refl s
    · cases hr
  | notAhead a ih =>
    intro s r hr
    simp only [rests] at hr
    split at hr
    · cases List.mem_singleton.mp hr
      exact List.suffix_refl s
    · cases hr
  | start => exact fun s => nofun
  | lineStart => exact fun s => nofun
  | boundary => exact fun s => nofun
  | notBehind p => exact fun s => nofun

/-- Every match of the pattern consumes something. -/
def Consumes (p : Pattern) : Prop := ∀ s, ∀ r ∈ p.rests s, r.length < s.length

theorem iterateRests_of_le {f : Str → List Str} {n m : ℕ} :
    ∀ {s : Str}, s.length ≤ n → s.length ≤ m → iterateRests f n s = iterateRests f m s := by
  induction n generalizing m with
  | zero =>
    intro s hn hm
    cases List.eq_nil_of_length_eq_zero (Nat.le_zero.mp hn)
    cases m <;> simp [iterateRests]
  | succ n ih =>
    intro s hn hm
    cases m with
    | zero =>
      cases List.eq_nil_of_length_eq_zero (Nat.le_zero.mp hm)
      simp [iterateRests]
    | succ m =>
      simp only [iterateRests]
      congr 1
      apply List.flatMap_congr
      intro r hr
      have hlt : r.length < s.length := by simpa using (List.mem_filter.mp hr).2
      exact ih (by omega) (by omega)

/-- One round of the loop and then the loop again, or none at all. -/
theorem rests_star {a : Pattern} (ha : a.Consumes) (s : Str) :
    (star a).rests s = (a.rests s).flatMap (star a).rests ++ [s] := by
  cases s with
  | nil =>
    have hnil : a.rests [] = [] := by
      rw [List.eq_nil_iff_forall_not_mem]
      intro r hr
      exact absurd (ha [] r hr) (Nat.not_lt_zero _)
    simp [rests, iterateRests, hnil]
  | cons c s =>
    have hfilter : (a.rests (c :: s)).filter (fun r => r.length < (c :: s).length) =
        a.rests (c :: s) := by
      rw [List.filter_eq_self]
      intro r hr
      simpa using ha _ r hr
    simp only [rests, List.length_cons, iterateRests]
    rw [List.length_cons] at hfilter
    rw [hfilter]
    congr 1
    apply List.flatMap_congr
    intro r hr
    have hlt : r.length < (c :: s).length := ha _ r hr
    rw [List.length_cons] at hlt
    exact iterateRests_of_le (by omega) le_rfl

theorem consumes_set (p : Char → Bool) : (set p).Consumes := by
  intro s r hr
  cases s with
  | nil => cases hr
  | cons c s =>
    simp only [rests] at hr
    split at hr
    · cases List.mem_singleton.mp hr
      simp
    · cases hr

theorem consumes_seq {a : Pattern} (b : Pattern) (ha : a.Consumes) : (seq a b).Consumes := by
  intro s r hr
  obtain ⟨t, ht, hr⟩ := List.mem_flatMap.mp hr
  exact (suffix_of_mem_rests t r hr).length_le.trans_lt (ha s t ht)

/-- The loop over a set of characters stops only where what comes next can match. -/
theorem rests_seq_star_set {p : Char → Bool} {b : Pattern}
    (hb : ∀ c s, p c = true → b.rests (c :: s) = []) (s : Str) :
    (seq (star (set p)) b).rests s = b.rests (s.dropWhile p) := by
  induction s with
  | nil =>
    have hnil : (star (set p)).rests [] = [[]] := rests_star (consumes_set p) []
    simp [hnil]
  | cons c s ih =>
    rw [rests_seq] at ih ⊢
    rw [rests_star (consumes_set p)]
    by_cases hc : p c = true
    · simp [hc, hb c s hc, ih]
    · simp [hc]

theorem mem_rests_set {p : Char → Bool} {s r : Str} :
    r ∈ (set p).rests s ↔ ∃ c, p c = true ∧ s = c :: r := by
  cases s with
  | nil => simp
  | cons c s =>
    by_cases hc : p c = true
    · simp only [rests_set_cons, if_pos hc, List.mem_singleton, List.cons.injEq]
      constructor
      · rintro rfl
        exact ⟨c, hc, rfl, rfl⟩
      · rintro ⟨_, _, _, hs⟩
        exact hs.symm
    · simp only [rests_set_cons, if_neg hc, List.not_mem_nil, List.cons.injEq, false_iff]
      rintro ⟨d, hd, rfl, _⟩
      exact hc hd

theorem mem_rests_star_set {p : Char → Bool} {s r : Str} :
    r ∈ (star (set p)).rests s ↔ ∃ w : Str, (∀ c ∈ w, p c = true) ∧ s = w ++ r := by
  induction s with
  | nil =>
    rw [rests_star (consumes_set p)]
    simp only [rests_set_nil, List.flatMap_nil, List.nil_append, List.mem_singleton]
    constructor
    · rintro rfl
      exact ⟨[], by simp, rfl⟩
    · rintro ⟨w, _, hw⟩
      exact (List.append_eq_nil_iff.mp hw.symm).2
  | cons c s ih =>
    rw [rests_star (consumes_set p), List.mem_append, List.mem_flatMap, List.mem_singleton]
    constructor
    · rintro (⟨t, ht, hr⟩ | rfl)
      · obtain ⟨d, hd, heq⟩ := mem_rests_set.mp ht
        obtain ⟨rfl, rfl⟩ := List.cons.inj heq
        obtain ⟨w, hw, rfl⟩ := ih.mp hr
        exact ⟨c :: w, by simpa using ⟨hd, hw⟩, rfl⟩
      · exact ⟨[], by simp, rfl⟩
    · rintro ⟨w, hw, heq⟩
      cases w with
      | nil => exact .inr heq.symm
      | cons d w =>
        obtain ⟨rfl, rfl⟩ := List.cons.inj heq
        refine .inl ⟨w ++ r, mem_rests_set.mpr ⟨c, hw c List.mem_cons_self, rfl⟩, ih.mpr ?_⟩
        exact ⟨w, fun x hx => hw x (List.mem_cons_of_mem _ hx), rfl⟩

theorem mem_rests_lit {part : Str} : ∀ {s r : Str}, r ∈ (lit part).rests s ↔ s = part ++ r := by
  induction part with
  | nil =>
    intro s r
    rw [List.nil_append, eq_comm]
    exact List.mem_singleton
  | cons c part ih =>
    intro s r
    have hseq : (lit (c :: part)).rests s = ((char c).rests s).flatMap (lit part).rests := rfl
    rw [hseq, List.mem_flatMap]
    constructor
    · rintro ⟨t, ht, hr⟩
      obtain ⟨d, hd, rfl⟩ := mem_rests_set.mp ht
      rw [ih.mp hr, of_decide_eq_true hd]
      rfl
    · rintro rfl
      exact ⟨part ++ r, mem_rests_set.mpr ⟨c, decide_eq_true rfl, rfl⟩, ih.mpr rfl⟩

/-- No match starts inside `t` when `s` comes after it. -/
def NoMatchIn (p : Pattern) : Str → Str → Prop
  | [], _ => True
  | c :: t, s => p.rests (c :: t ++ s) = [] ∧ p.NoMatchIn t s

theorem noMatchIn_append {p : Pattern} {t u s : Str} :
    p.NoMatchIn (t ++ u) s ↔ p.NoMatchIn t (u ++ s) ∧ p.NoMatchIn u s := by
  induction t with
  | nil => simp [NoMatchIn]
  | cons c t ih => simp [NoMatchIn, ih, and_assoc]

/-- The first match in `s` is `m`, after `t` and before `r`. -/
structure FirstMatch (p : Pattern) (s t m r : Str) : Prop where
  eq : s = t ++ (m ++ r)
  before : p.NoMatchIn t (m ++ r)
  here : (p.rests (m ++ r)).head? = some r

theorem FirstMatch.cons {p : Pattern} {s t m r : Str} {c : Char} (h : p.FirstMatch s t m r)
    (hc : p.rests (c :: s) = []) : p.FirstMatch (c :: s) (c :: t) m r where
  eq := by rw [h.eq]; rfl
  before := ⟨by rw [h.eq] at hc; exact hc, h.before⟩
  here := h.here

theorem FirstMatch.unique {p : Pattern} {m r m' r' t : Str} : ∀ {s t' : Str},
    p.FirstMatch s t m r → p.FirstMatch s t' m' r' → t = t' ∧ m = m' ∧ r = r' := by
  induction t with
  | nil =>
    intro s t' h h'
    cases t' with
    | nil =>
      have heq : m ++ r = m' ++ r' := h.eq.symm.trans h'.eq
      have hrest : r = r' := by
        have hhere := h.here
        rw [heq, h'.here] at hhere
        exact (Option.some.inj hhere).symm
      rw [hrest] at heq
      exact ⟨rfl, List.append_cancel_right heq, hrest⟩
    | cons c t' =>
      have hnone := h'.before.1
      have hhere := h.here
      rw [show m ++ r = c :: t' ++ (m' ++ r') from h.eq.symm.trans h'.eq, hnone] at hhere
      cases hhere
  | cons c t ih =>
    intro s t' h h'
    cases t' with
    | nil =>
      have hnone := h.before.1
      have hhere := h'.here
      rw [show m' ++ r' = c :: t ++ (m ++ r) from h'.eq.symm.trans h.eq, hnone] at hhere
      cases hhere
    | cons c' t' =>
      have heq : c :: (t ++ (m ++ r)) = c' :: (t' ++ (m' ++ r')) := h.eq.symm.trans h'.eq
      obtain ⟨rfl, htail⟩ := List.cons.inj heq
      obtain ⟨rfl, hm, hr⟩ := ih ⟨rfl, h.before.2, h.here⟩ ⟨htail, h'.before.2, h'.here⟩
      exact ⟨rfl, hm, hr⟩

theorem FirstMatch.not_noMatchIn {p : Pattern} {m r t : Str} : ∀ {s : Str},
    p.FirstMatch s t m r → p.NoMatchIn s [] → p.rests [] ≠ [] := by
  induction t with
  | nil =>
    intro s h hno hnil
    have hhere := h.here
    have heq : s = m ++ r := h.eq
    rw [← heq] at hhere
    cases s with
    | nil => simp [hnil] at hhere
    | cons c s =>
      have hnone := hno.1
      rw [List.append_nil] at hnone
      simp [hnone] at hhere
  | cons c t ih =>
    intro s h hno
    rw [h.eq] at hno
    exact ih ⟨rfl, h.before.2, h.here⟩ hno.2

end Pattern

section Searching

open Pattern

variable {p : Pattern} (hp : p.LooksAhead) {before s t m r : Str} {f : Found}

include hp

theorem matchAt_none_iff : matchAt p before s = none ↔ p.rests s = [] := by
  have hmap := map_results hp ⟨before, s, []⟩
  unfold matchAt
  cases hres : p.results ⟨before, s, []⟩ with
  | nil => simpa [hres] using hmap.symm
  | cons d ds =>
    rw [hres] at hmap
    simp [← hmap]

theorem matchAt_some (h : matchAt p before s = some f) :
    f.skipped = [] ∧ s = f.text ++ f.rest ∧ (p.rests s).head? = some f.rest := by
  have hmap := map_results hp ⟨before, s, []⟩
  unfold matchAt at h
  cases hres : p.results ⟨before, s, []⟩ with
  | nil => simp [hres] at h
  | cons d ds =>
    rw [hres] at h hmap
    simp only [List.head?_cons, Option.map_some, Option.some.injEq] at h
    have hrest : f.rest = d.after := by rw [← h]
    have htext : f.text = s.take (s.length - d.after.length) := by rw [← h]; rfl
    have hmem : d.after ∈ p.rests s := by rw [← hmap]; simp
    obtain ⟨front, hfront⟩ := suffix_of_mem_rests s d.after hmem
    refine ⟨by rw [← h], ?_, ?_⟩
    · rw [hrest, htext, ← hfront]
      simp
    · rw [hrest, ← hmap]
      rfl

theorem searchFrom_none_iff :
    searchFrom p before s = none ↔ p.NoMatchIn s [] ∧ p.rests [] = [] := by
  induction s generalizing before with
  | nil => simp [searchFrom, NoMatchIn, matchAt_none_iff hp]
  | cons c s ih =>
    have hhere : matchAt p before (c :: s) = none ↔ p.rests (c :: s) = [] := matchAt_none_iff hp
    cases hmatch : matchAt p before (c :: s) with
    | none => simp [searchFrom, hmatch, NoMatchIn, hhere.mp hmatch, ih]
    | some f =>
      have hne : p.rests (c :: s) ≠ [] := fun hnil => by simp [hhere.mpr hnil] at hmatch
      simp [searchFrom, hmatch, NoMatchIn, hne]

theorem searchFrom_some (h : searchFrom p before s = some f) :
    p.FirstMatch s f.skipped f.text f.rest := by
  induction s generalizing before f with
  | nil =>
    obtain ⟨hskipped, heq, hhere⟩ := matchAt_some hp h
    rw [hskipped]
    rw [heq] at hhere
    exact ⟨heq, trivial, hhere⟩
  | cons c s ih =>
    simp only [searchFrom] at h
    split at h
    next g hmatch =>
      cases h
      obtain ⟨hskipped, heq, hhere⟩ := matchAt_some hp hmatch
      rw [hskipped]
      exact ⟨heq, trivial, heq ▸ hhere⟩
    next hmatch =>
      obtain ⟨g, hg, rfl⟩ := Option.map_eq_some_iff.mp h
      exact (ih hg).cons ((matchAt_none_iff hp).mp hmatch)

theorem searchFrom_of_firstMatch (h : p.FirstMatch s t m r) :
    ∃ f, searchFrom p before s = some f ∧ f.skipped = t ∧ f.text = m ∧ f.rest = r := by
  cases hsearch : searchFrom p before s with
  | none =>
    obtain ⟨hno, hnil⟩ := (searchFrom_none_iff hp).mp hsearch
    exact absurd hnil (h.not_noMatchIn hno)
  | some f => exact ⟨f, rfl, (searchFrom_some hp hsearch).unique h⟩

theorem splitFrom_fuel (hc : p.Consumes) {n : ℕ} : ∀ {m : ℕ} {s before before' : Str},
    s.length < n → s.length < m → splitFrom p n before s = splitFrom p m before' s := by
  induction n with
  | zero =>
    intro m s before before' hn hm
    omega
  | succ n ih =>
    intro m s before before' hn hm
    obtain ⟨m, rfl⟩ : ∃ k, m = k + 1 := ⟨m - 1, by omega⟩
    cases hsearch : searchFrom p before s with
    | none =>
      have hsearch' : searchFrom p before' s = none :=
        (searchFrom_none_iff hp).mpr ((searchFrom_none_iff hp).mp hsearch)
      simp only [splitFrom, hsearch, hsearch']
    | some f =>
      have hfirst := searchFrom_some hp hsearch
      obtain ⟨f', hsearch', hskipped, htext, hrest⟩ :
          ∃ f', searchFrom p before' s = some f' ∧ f'.skipped = f.skipped ∧ f'.text = f.text ∧
            f'.rest = f.rest := searchFrom_of_firstMatch hp hfirst
      have hlt : f.rest.length < (f.text ++ f.rest).length :=
        hc _ _ (List.mem_of_mem_head? hfirst.here)
      have hlen := congrArg List.length hfirst.eq
      simp only [List.length_append] at hlen hlt
      have htail : splitFrom p n (f.text.reverse ++ f.before) f.rest =
          splitFrom p m (f.text.reverse ++ f'.before) f.rest := ih (by omega) (by omega)
      simp only [splitFrom, hsearch, hsearch', hskipped, htext, hrest, htail]

theorem split_of_firstMatch (hc : p.Consumes) (h : p.FirstMatch s t m r) :
    split p s = t :: m :: split p r := by
  obtain ⟨f, hsearch, rfl, rfl, rfl⟩ :
      ∃ f, searchFrom p [] s = some f ∧ f.skipped = t ∧ f.text = m ∧ f.rest = r :=
    searchFrom_of_firstMatch hp h
  have hlt : f.rest.length < (f.text ++ f.rest).length := hc _ _ (List.mem_of_mem_head? h.here)
  have hlen := congrArg List.length h.eq
  simp only [List.length_append] at hlen hlt
  have htail : splitFrom p s.length (f.text.reverse ++ f.before) f.rest = split p f.rest :=
    splitFrom_fuel hp hc (by omega) (by omega)
  show splitFrom p (s.length + 1) [] s = _
  simp only [splitFrom, hsearch, htail]

theorem split_of_none (h : p.NoMatchIn s []) (hnil : p.rests [] = []) : split p s = [s] := by
  have hsearch : searchFrom p [] s = none := (searchFrom_none_iff hp).mpr ⟨h, hnil⟩
  simp only [split, splitFrom, hsearch]

/-- A text without a match is one piece; otherwise the first match ends the first piece. -/
theorem noMatch_or_firstMatch (s : Str) :
    p.NoMatchIn s [] ∨ ∃ t m r, p.FirstMatch s t m r := by
  cases hsearch : searchFrom p [] s with
  | none => exact .inl ((searchFrom_none_iff hp).mp hsearch).1
  | some f => exact .inr ⟨_, _, _, searchFrom_some hp hsearch⟩

end Searching
end Regex
