import Trezarr.Lib.Text

/-! Places of a text, each given by what follows it, and what can be read there. -/
namespace Text

variable {ps : List (Char → Bool)} {a b x y z : Str} {c : Char}

/-- The text begins with a character of each class in turn. -/
def reads : List (Char → Bool) → Str → Bool
  | [], _ => true
  | _ :: _, [] => false
  | p :: ps, c :: z => p c && reads ps z

theorem reads_append (h : reads ps x = true) (y : Str) : reads ps (x ++ y) = true := by
  induction ps generalizing x with
  | nil => rfl
  | cons p ps ih =>
    cases x with
    | nil => cases h
    | cons d x =>
      obtain ⟨hd, hx⟩ := Bool.and_eq_true_iff.mp h
      exact Bool.and_eq_true_iff.mpr ⟨hd, ih hx⟩

/-- What is read across a character of none of the classes is read before it. -/
theorem reads_before (hc : ∀ p ∈ ps, p c = false) (h : reads ps (x ++ c :: y) = true) :
    reads ps x = true := by
  induction ps generalizing x with
  | nil => rfl
  | cons p ps ih =>
    cases x with
    | nil =>
      have hp := (Bool.and_eq_true_iff.mp h).1
      rw [hc p List.mem_cons_self] at hp
      cases hp
    | cons d x =>
      obtain ⟨hd, hx⟩ := Bool.and_eq_true_iff.mp h
      exact Bool.and_eq_true_iff.mpr ⟨hd, ih (fun q hq => hc q (List.mem_cons_of_mem p hq)) hx⟩

/-- What is read up to a character that only the last class takes ends there at the latest. -/
theorem reads_upTo (hc : ∀ p ∈ ps.dropLast, p c = false) (h : reads ps (x ++ c :: y) = true) :
    reads ps (x ++ [c]) = true := by
  induction ps generalizing x with
  | nil => rfl
  | cons p ps ih =>
    cases ps with
    | nil =>
      cases x with
      | nil => exact h
      | cons d x => exact h
    | cons q ps =>
      have hc' : ∀ r ∈ (q :: ps).dropLast, r c = false := fun r hr =>
        hc r (List.mem_cons_of_mem p hr)
      cases x with
      | nil =>
        have hp := (Bool.and_eq_true_iff.mp h).1
        rw [hc p List.mem_cons_self] at hp
        cases hp
      | cons d x =>
        obtain ⟨hd, hx⟩ := Bool.and_eq_true_iff.mp h
        exact Bool.and_eq_true_iff.mpr ⟨hd, ih hc' hx⟩

/-- Classes with none of some characters. -/
theorem not_mem_classes {s : Str} (h : (s.all fun c => ps.all fun p => !p c) = true) (hc : c ∈ s) :
    ∀ p ∈ ps, p c = false := by
  intro p hp
  simpa using List.all_eq_true.mp (List.all_eq_true.mp h c hc) p hp

/-- The characters of a word, and one of a class. -/
def spelled (word : Str) (p : Char → Bool) : List (Char → Bool) :=
  word.map (fun c x => decide (x = c)) ++ [p]

theorem reads_spelled {word : Str} {p : Char → Bool} : reads (spelled word p) z = true ↔
    ∃ d y, p d = true ∧ z = word ++ d :: y := by
  induction word generalizing z with
  | nil =>
    cases z with
    | nil => simp [spelled, reads]
    | cons d z => simp [spelled, reads]
  | cons c word ih =>
    cases z with
    | nil => simp [spelled, reads]
    | cons d z =>
      have hcons : reads (spelled (c :: word) p) (d :: z) =
          (decide (d = c) && reads (spelled word p) z) := rfl
      rw [hcons, Bool.and_eq_true, ih, decide_eq_true_eq]
      constructor
      · rintro ⟨rfl, e, y, he, rfl⟩
        exact ⟨e, y, he, rfl⟩
      · rintro ⟨e, y, he, heq⟩
        obtain ⟨rfl, rfl⟩ := List.cons.inj heq
        exact ⟨rfl, e, y, he, rfl⟩

/-- A place of two texts in a row is one of the second, or one of the first before its end. -/
theorem suffix_append_cases (h : z <:+ a ++ b) :
    z <:+ b ∨ ∃ x, x ≠ [] ∧ x <:+ a ∧ z = x ++ b := by
  obtain ⟨u, hu⟩ := h
  rcases List.append_eq_append_iff.mp hu with ⟨v, rfl, rfl⟩ | ⟨v, rfl, rfl⟩
  · by_cases hv : v = []
    · subst hv
      exact .inl List.suffix_rfl
    · exact .inr ⟨v, hv, List.suffix_append u v, rfl⟩
  · exact .inl (List.suffix_append v z)

theorem suffix_append_left (h : x <:+ a) (b : Str) : x ++ b <:+ a ++ b := by
  obtain ⟨u, rfl⟩ := h
  exact ⟨u, (List.append_assoc u x b).symm⟩

/-- What is before the last character of a text, where one ends with it. -/
theorem suffix_singleton_append (h : [c] <:+ a ++ b) : b = [] ∧ [c] <:+ a ∨ [c] <:+ b := by
  rcases suffix_append_cases h with h | ⟨x, hx, hxa, heq⟩
  · exact .inr h
  · cases x with
    | nil => exact absurd rfl hx
    | cons d x =>
      obtain ⟨rfl, hnil⟩ := List.cons.inj heq
      obtain ⟨rfl, rfl⟩ := List.append_eq_nil_iff.mp hnil.symm
      exact .inl ⟨rfl, hxa⟩

section Infixes

variable {α : Type} {c : α} {w x y : List α}

theorem infix_of_not_mem (hc : c ∉ w) (h : w <:+: x ++ c :: y) : w <:+: x ∨ w <:+: y := by
  obtain ⟨a, b, heq⟩ := h
  rw [List.append_assoc] at heq
  rcases List.append_eq_append_iff.mp heq with ⟨z, hx, hw⟩ | ⟨z, ha, hy⟩
  · rcases List.append_eq_append_iff.mp hw with ⟨z', hz, -⟩ | ⟨z', hwz, hcons⟩
    · exact .inl ⟨a, z', by rw [hx, hz, List.append_assoc]⟩
    · cases z' with
      | nil => exact .inl ⟨a, [], by rw [hx, hwz]; simp⟩
      | cons d z' =>
        cases (List.cons.inj hcons).1
        exact absurd (hwz ▸ List.mem_append_right z List.mem_cons_self) hc
  · cases z with
    | nil =>
      cases w with
      | nil => exact .inl List.nil_infix
      | cons d w =>
        cases (List.cons.inj hy).1
        exact absurd List.mem_cons_self hc
    | cons d z =>
      have hy' : y = z ++ (w ++ b) := (List.cons.inj hy).2
      exact .inr ⟨z, b, by rw [hy', List.append_assoc]⟩

theorem infix_front (hc : c ∉ y) (h : w ++ [c] <:+: x ++ y) : w ++ [c] <:+: x := by
  obtain ⟨a, b, heq⟩ := h
  rcases List.append_eq_append_iff.mp heq with ⟨z, hx, -⟩ | ⟨z, hw, hy⟩
  · exact ⟨a, z, hx.symm⟩
  · rcases List.eq_nil_or_concat z with rfl | ⟨z, d, rfl⟩
    · exact ⟨a, [], by simpa using hw⟩
    · have hlast : a ++ w ++ [c] = (x ++ z) ++ [d] := by simpa using hw
      obtain rfl : c = d := by simpa using (List.append_inj' hlast rfl).2
      exact absurd (by rw [hy]; simp) hc

theorem infix_back (hc : c ∉ x) (h : c :: w <:+: x ++ y) : c :: w <:+: y := by
  obtain ⟨a, b, heq⟩ := h
  rw [List.append_assoc] at heq
  rcases List.append_eq_append_iff.mp heq with ⟨z, hx, hw⟩ | ⟨z, -, hy⟩
  · cases z with
    | nil => exact ⟨[], b, by simpa using hw⟩
    | cons d z =>
      obtain rfl : c = d := (List.cons.inj hw).1
      exact absurd (by rw [hx]; simp) hc
  · exact ⟨z, b, by rw [hy, List.append_assoc]⟩

end Infixes

section Severing

variable {Q : Str → Prop} {m n w s lead trail : Str}

/-- Around the text, what is said of the whole is said of both sides. -/
def Severs (Q : Str → Prop) (m : Str) : Prop := ∀ a b, Q (a ++ (m ++ b)) ↔ Q a ∧ Q b

theorem Severs.append (hnil : Q []) (hm : Severs Q m) (hn : Severs Q n) : Severs Q (m ++ n) := by
  intro a b
  have hrest := hn [] b
  rw [List.nil_append] at hrest
  rw [List.append_assoc, hm, hrest, and_iff_right hnil]

theorem Severs.behind (hnil : Q []) (hlead : ∀ c ∈ lead, Severs Q [c]) (hw : Severs Q w) :
    Severs Q (lead ++ w) := by
  induction lead with
  | nil => exact hw
  | cons c lead ih =>
    obtain ⟨hc, hlead⟩ := List.forall_mem_cons.mp hlead
    have hnext := Severs.append hnil hc (ih hlead)
    rwa [List.singleton_append, ← List.cons_append] at hnext

theorem Severs.before (hnil : Q []) (htrail : ∀ c ∈ trail, Severs Q [c]) (hw : Severs Q w) :
    Severs Q (w ++ trail) := by
  induction trail generalizing w with
  | nil => rwa [List.append_nil]
  | cons c trail ih =>
    obtain ⟨hc, htrail⟩ := List.forall_mem_cons.mp htrail
    have hnext := ih htrail (Severs.append hnil hw hc)
    rwa [List.append_assoc, List.singleton_append] at hnext

theorem severed_lead (hnil : Q []) (hlead : ∀ c ∈ lead, Severs Q [c]) : Q (lead ++ s) ↔ Q s := by
  induction lead with
  | nil => rfl
  | cons c lead ih =>
    obtain ⟨hc, hlead⟩ := List.forall_mem_cons.mp hlead
    have hfirst := hc [] (lead ++ s)
    rw [List.nil_append, List.singleton_append, and_iff_right hnil] at hfirst
    rw [List.cons_append, hfirst, ih hlead]

theorem severed_trail (hnil : Q []) (htrail : ∀ c ∈ trail, Severs Q [c]) :
    Q (s ++ trail) ↔ Q s := by
  cases trail with
  | nil => rw [List.append_nil]
  | cons c trail =>
    obtain ⟨hc, htrail⟩ := List.forall_mem_cons.mp htrail
    have hrest : Q trail ↔ Q [] := by
      rw [← severed_lead (s := []) hnil htrail, List.append_nil]
    have hfirst := hc s trail
    rw [List.singleton_append] at hfirst
    rw [hfirst, hrest, and_iff_left hnil]

theorem severed_strip (hnil : Q []) (hspace : ∀ c, isSpace c = true → Severs Q [c]) :
    Q (strip s) ↔ Q s := by
  have hfront := List.takeWhile_append_dropWhile (p := isSpace) (l := s)
  have hback := List.rdropWhile_append_rtakeWhile (p := isSpace) (l := lstrip s)
  have hlead : ∀ c ∈ s.takeWhile isSpace, Severs Q [c] :=
    fun c hc => hspace c (List.mem_takeWhile_imp hc)
  have htrail : ∀ c ∈ (lstrip s).rtakeWhile isSpace, Severs Q [c] :=
    fun c hc => hspace c (List.mem_rtakeWhile_imp hc)
  calc Q (strip s) ↔ Q (strip s ++ (lstrip s).rtakeWhile isSpace) :=
        (severed_trail hnil htrail).symm
    _ ↔ Q (lstrip s) := by rw [strip, rstrip, hback]
    _ ↔ Q (s.takeWhile isSpace ++ lstrip s) := (severed_lead hnil hlead).symm
    _ ↔ Q s := by rw [lstrip, hfront]

end Severing

section Occurrences

variable {w : Str}

/-- The number of places where the word begins. -/
def occurrences (w : Str) : Str → ℕ
  | [] => 0
  | c :: s => (if w <+: c :: s then 1 else 0) + occurrences w s

theorem occurrences_append_le (w a b : Str) :
    occurrences w a + occurrences w b ≤ occurrences w (a ++ b) := by
  induction a with
  | nil => simp [occurrences]
  | cons c a ih =>
    have hhere : (if w <+: c :: a then 1 else 0) ≤ if w <+: c :: (a ++ b) then 1 else 0 := by
      by_cases h : w <+: c :: a
      · have h' : w <+: c :: (a ++ b) := h.trans (List.prefix_append (c :: a) b)
        rw [if_pos h, if_pos h']
      · rw [if_neg h]
        exact Nat.zero_le _
    simp only [occurrences, List.cons_append]
    omega

theorem occurrences_append (h : ∀ x, x ≠ [] → x <:+ a → w <+: x ++ b → w <+: x) :
    occurrences w (a ++ b) = occurrences w a + occurrences w b := by
  induction a with
  | nil => simp [occurrences]
  | cons c a ih =>
    have hrest := ih fun x hx hxa => h x hx (hxa.trans (List.suffix_cons c a))
    have hhere : w <+: c :: (a ++ b) ↔ w <+: c :: a :=
      ⟨h (c :: a) (List.cons_ne_nil c a) List.suffix_rfl,
        fun hw => hw.trans (List.prefix_append (c :: a) b)⟩
    simp only [occurrences, List.cons_append, hhere, hrest]
    omega

theorem occurrences_pos (hw : w ≠ []) : 0 < occurrences w a ↔ w <:+: a := by
  induction a with
  | nil => simp [occurrences, hw]
  | cons c a ih =>
    rw [List.infix_cons_iff, ← ih, occurrences]
    by_cases h : w <+: c :: a
    · simp [h, Nat.one_add]
    · simp [h]

end Occurrences

end Text
