import Trezarr.Lib.Places
import Trezarr.Lib.RegexRests

/-! Matches replaced by a fixed text, one character or one match at a time. -/
namespace Regex
open Text Pattern

variable {p : Pattern} {x before s t m r : Str} {f : Found} {c : Char}

theorem subFrom_fuel (hp : p.LooksAhead) (hc : p.Consumes) {n : ℕ} :
    ∀ {k : ℕ} {s before before' : Str}, s.length < n → s.length < k →
      subFrom p (fun _ => x) n before s = subFrom p (fun _ => x) k before' s := by
  induction n with
  | zero =>
    intro k s before before' hn hk
    omega
  | succ n ih =>
    intro k s before before' hn hk
    obtain ⟨k, rfl⟩ : ∃ j, k = j + 1 := ⟨k - 1, by omega⟩
    cases hsearch : searchFrom p before s with
    | none =>
      have hsearch' : searchFrom p before' s = none :=
        (searchFrom_none_iff hp).mpr ((searchFrom_none_iff hp).mp hsearch)
      simp only [subFrom, hsearch, hsearch']
    | some f =>
      have hfirst := searchFrom_some hp hsearch
      obtain ⟨f', hsearch', hskipped, htext, hrest⟩ :
          ∃ f', searchFrom p before' s = some f' ∧ f'.skipped = f.skipped ∧ f'.text = f.text ∧
            f'.rest = f.rest := searchFrom_of_firstMatch hp hfirst
      have hlt : f.rest.length < (f.text ++ f.rest).length :=
        hc _ _ (List.mem_of_mem_head? hfirst.here)
      have hlen := congrArg List.length hfirst.eq
      simp only [List.length_append] at hlen hlt
      have htail : subFrom p (fun _ => x) n (f.text.reverse ++ f.before) f.rest =
          subFrom p (fun _ => x) k (f.text.reverse ++ f'.before) f.rest :=
        ih (by omega) (by omega)
      cases hmatch : f.text with
      | nil =>
        rw [hmatch] at hlt
        exact absurd hlt (by simp)
      | cons d text =>
        rw [hmatch] at htail
        simp only [subFrom, hsearch, hsearch', hskipped, htext, hrest, hmatch]
        rw [htail]

theorem sub_of_firstMatch (hp : p.LooksAhead) (hc : p.Consumes) (h : p.FirstMatch s t m r) :
    sub p (fun _ => x) s = t ++ x ++ sub p (fun _ => x) r := by
  obtain ⟨f, hsearch, rfl, rfl, rfl⟩ :
      ∃ f, searchFrom p [] s = some f ∧ f.skipped = t ∧ f.text = m ∧ f.rest = r :=
    searchFrom_of_firstMatch hp h
  have hlt : f.rest.length < (f.text ++ f.rest).length := hc _ _ (List.mem_of_mem_head? h.here)
  have hlen := congrArg List.length h.eq
  simp only [List.length_append] at hlen hlt
  have htail : subFrom p (fun _ => x) s.length (f.text.reverse ++ f.before) f.rest =
      sub p (fun _ => x) f.rest := subFrom_fuel hp hc (by omega) (by omega)
  show subFrom p (fun _ => x) (s.length + 1) [] s = _
  cases hmatch : f.text with
  | nil =>
    rw [hmatch] at hlt
    exact absurd hlt (by simp)
  | cons d text =>
    rw [hmatch] at htail
    simp only [subFrom, hsearch, hmatch]
    rw [htail]

theorem sub_of_noMatch (hp : p.LooksAhead) (h : p.NoMatchIn s []) (hnil : p.rests [] = []) :
    sub p (fun _ => x) s = s := by
  have hsearch : searchFrom p [] s = none := (searchFrom_none_iff hp).mpr ⟨h, hnil⟩
  simp only [sub, subFrom, hsearch]

theorem rests_nil_of_consumes (hc : p.Consumes) : p.rests [] = [] := by
  rw [List.eq_nil_iff_forall_not_mem]
  intro r hr
  exact absurd (hc [] r hr) (Nat.not_lt_zero _)

@[simp] theorem sub_nil (hp : p.LooksAhead) (hc : p.Consumes) : sub p (fun _ => x) [] = [] :=
  sub_of_noMatch hp trivial (rests_nil_of_consumes hc)

/-- A match at the start is replaced, -/
theorem sub_of_match (hp : p.LooksAhead) (hc : p.Consumes) (h : (p.rests s).head? = some r) :
    sub p (fun _ => x) s = x ++ sub p (fun _ => x) r := by
  obtain ⟨m, hm⟩ := suffix_of_mem_rests s r (List.mem_of_mem_head? h)
  have hfirst : p.FirstMatch s [] m r := ⟨hm.symm, trivial, hm.symm ▸ h⟩
  rw [sub_of_firstMatch hp hc hfirst, List.nil_append]

/-- and a character where none starts is kept. -/
theorem sub_cons (hp : p.LooksAhead) (hc : p.Consumes) (h : p.rests (c :: s) = []) :
    sub p (fun _ => x) (c :: s) = c :: sub p (fun _ => x) s := by
  rcases noMatch_or_firstMatch hp s with hno | ⟨t, m, r, hfirst⟩
  · have hno' : p.NoMatchIn (c :: s) [] := ⟨by rwa [List.append_nil], hno⟩
    rw [sub_of_noMatch hp hno' (rests_nil_of_consumes hc),
      sub_of_noMatch hp hno (rests_nil_of_consumes hc)]
  · rw [sub_of_firstMatch hp hc (hfirst.cons h), sub_of_firstMatch hp hc hfirst]
    rfl

/-- A text with its matches replaced is as the text, where the matches and what replaces them have
no part in it. -/
theorem severed_sub {Q : Str → Prop} (hp : p.LooksAhead) (hc : p.Consumes) (hx : Severs Q x)
    (hm : ∀ m r, r ∈ p.rests (m ++ r) → Severs Q m) (s : Str) :
    Q (sub p (fun _ => x) s) ↔ Q s := by
  induction hn : s.length using Nat.strong_induction_on generalizing s with
  | h n ih =>
    subst hn
    rcases noMatch_or_firstMatch hp s with hno | ⟨t, m, r, hfirst⟩
    · rw [sub_of_noMatch hp hno (rests_nil_of_consumes hc)]
    · have hhere := List.mem_of_mem_head? hfirst.here
      have hlt := hc _ _ hhere
      have hlen := congrArg List.length hfirst.eq
      simp only [List.length_append] at hlen hlt
      have hrest := ih r.length (by omega) r rfl
      rw [sub_of_firstMatch hp hc hfirst, List.append_assoc, hx, hrest]
      conv_rhs => rw [hfirst.eq, hm m r hhere]

end Regex
