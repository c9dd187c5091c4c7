import Trezarr.Lib.Places
import Trezarr.Lib.RegexAnchored
import Trezarr.Lib.RegexSubs
import Trezarr.Translate.Echo
import Trezarr.Translate.RawCues

/-! Placeholders left in a text, as they look to the check of a reply and to the gate. -/
namespace Trezarr
open Text Regex Regex.Pattern

def opening : List (Char → Bool) := spelled "<<T" isDigit

def escaped : List (Char → Bool) := spelled "&lt;&lt;T" isDigit

section Places

variable {s x y z w k r : Str} {c : Char}

theorem reads_opening_iff : reads opening z = true ↔
    ∃ d y, isDigit d = true ∧ z = '<' :: '<' :: 'T' :: d :: y := reads_spelled

theorem IsToken.opens (hw : IsToken w) (h : w <+: z) : reads opening z = true := by
  obtain ⟨digits, hne, hdigits, rfl⟩ := hw
  obtain ⟨r, rfl⟩ := h
  cases digits with
  | nil => exact absurd rfl hne
  | cons d digits =>
    exact reads_opening_iff.mpr ⟨d, _, hdigits d List.mem_cons_self, rfl⟩

theorem unclosedSentinelRe_looksAhead : unclosedSentinelRe.LooksAhead := by
  simp [unclosedSentinelRe, seqs, lit, plus, char, digit, LooksAhead]

theorem mem_rests_plus_digit : r ∈ (plus digit).rests z ↔
    ∃ digits, digits ≠ [] ∧ (∀ d ∈ digits, isDigit d = true) ∧ z = digits ++ r := by
  rw [plus, mem_rests_seq]
  constructor
  · rintro ⟨t, ht, hr⟩
    obtain ⟨d, hd, rfl⟩ := mem_rests_set.mp ht
    obtain ⟨digits, hdigits, rfl⟩ := mem_rests_star_set.mp hr
    exact ⟨d :: digits, List.cons_ne_nil d digits, List.forall_mem_cons.mpr ⟨hd, hdigits⟩, rfl⟩
  · rintro ⟨digits, hne, hdigits, rfl⟩
    cases digits with
    | nil => exact absurd rfl hne
    | cons d digits =>
      obtain ⟨hd, hdigits⟩ := List.forall_mem_cons.mp hdigits
      exact ⟨_, mem_rests_set.mpr ⟨d, hd, rfl⟩, mem_rests_star_set.mpr ⟨digits, hdigits, rfl⟩⟩

/-- What the gate's second pattern matches. -/
theorem mem_rests_unclosedSentinelRe : r ∈ unclosedSentinelRe.rests z ↔
    ∃ digits, digits ≠ [] ∧ (∀ d ∈ digits, isDigit d = true) ∧
      (z = "<<T".toList ++ (digits ++ r) ∧ ¬ ['>', '>'] <+: r ∨
        z = "&lt;&lt;T".toList ++ (digits ++ r)) := by
  have hahead : ∀ u, r ∈ (seq (notAhead (lit ">>")) eps).rests u ↔ u = r ∧ ¬ ['>', '>'] <+: r := by
    intro u
    have hlit : (lit ">>").rests u = [] ↔ ¬ ['>', '>'] <+: u := by
      rw [List.eq_nil_iff_forall_not_mem]
      constructor
      · rintro h ⟨v, hv⟩
        exact h v (mem_rests_lit.mpr hv.symm)
      · intro h v hv
        exact h ⟨v, (mem_rests_lit.mp hv).symm⟩
    rw [mem_rests_seq, rests]
    by_cases hu : (lit ">>").rests u = []
    · rw [if_pos hu]
      constructor
      · rintro ⟨v, hv, hr⟩
        cases List.mem_singleton.mp hv
        cases List.mem_singleton.mp hr
        exact ⟨rfl, hlit.mp hu⟩
      · rintro ⟨rfl, -⟩
        exact ⟨u, List.mem_singleton_self u, List.mem_singleton_self u⟩
    · rw [if_neg hu]
      constructor
      · rintro ⟨v, hv, -⟩
        cases hv
      · rintro ⟨rfl, hr⟩
        exact absurd (hlit.mpr hr) hu
  have hsplit : r ∈ unclosedSentinelRe.rests z ↔
      r ∈ (seq (lit "<<T") (seq (plus digit) (seq (notAhead (lit ">>")) eps))).rests z ∨
        r ∈ (seq (lit "&lt;&lt;T") (seq (plus digit) eps)).rests z := List.mem_append
  rw [hsplit, mem_rests_seq, mem_rests_seq]
  constructor
  · rintro (⟨t, ht, hr⟩ | ⟨t, ht, hr⟩)
    · obtain ⟨u, hu, hrest⟩ := mem_rests_seq.mp hr
      obtain ⟨digits, hne, hdigits, rfl⟩ := mem_rests_plus_digit.mp hu
      obtain ⟨rfl, hno⟩ := (hahead u).mp hrest
      exact ⟨digits, hne, hdigits, .inl ⟨mem_rests_lit.mp ht, hno⟩⟩
    · obtain ⟨u, hu, hrest⟩ := mem_rests_seq.mp hr
      cases List.mem_singleton.mp hrest
      obtain ⟨digits, hne, hdigits, rfl⟩ := mem_rests_plus_digit.mp hu
      exact ⟨digits, hne, hdigits, .inr (mem_rests_lit.mp ht)⟩
  · rintro ⟨digits, hne, hdigits, ⟨rfl, hr⟩ | rfl⟩
    · exact .inl ⟨_, mem_rests_lit.mpr rfl, mem_rests_seq.mpr
        ⟨r, mem_rests_plus_digit.mpr ⟨digits, hne, hdigits, rfl⟩, (hahead r).mpr ⟨rfl, hr⟩⟩⟩
    · exact .inr ⟨_, mem_rests_lit.mpr rfl, mem_rests_seq.mpr
        ⟨r, mem_rests_plus_digit.mpr ⟨digits, hne, hdigits, rfl⟩, List.mem_singleton_self r⟩⟩

/-- The gate sees a placeholder where one begins, closed or not, escaped or not. -/
theorem hasToken_iff : hasToken s = true ↔
    ∃ z, z <:+ s ∧ (reads opening z = true ∨ reads escaped z = true) := by
  rw [hasToken, Bool.or_eq_true]
  constructor
  · rintro (h | h)
    · obtain ⟨w, hw, a, b, rfl⟩ := found_sentinelRe_iff.mp h
      exact ⟨w ++ b, ⟨a, (List.append_assoc a w b).symm⟩, .inl (hw.opens (List.prefix_append w b))⟩
    · by_contra hnone
      rw [(found_eq_false_iff unclosedSentinelRe_looksAhead).mpr] at h
      · cases h
      · intro z hz
        rw [List.eq_nil_iff_forall_not_mem]
        intro r hr
        obtain ⟨digits, hne, hdigits, hplace⟩ := mem_rests_unclosedSentinelRe.mp hr
        obtain ⟨d, rest, rfl⟩ := List.exists_cons_of_ne_nil hne
        have hd := hdigits d List.mem_cons_self
        rcases hplace with ⟨rfl, -⟩ | rfl
        · exact hnone ⟨_, hz, .inl (reads_opening_iff.mpr ⟨d, rest ++ r, hd, rfl⟩)⟩
        · exact hnone ⟨_, hz, .inr (reads_spelled.mpr ⟨d, rest ++ r, hd, rfl⟩)⟩
  · rintro ⟨z, hz, h | h⟩
    · obtain ⟨d, y, hd, rfl⟩ := reads_opening_iff.mp h
      have hdigits : ∀ c ∈ d :: y.takeWhile isDigit, isDigit c = true := by
        intro c hc
        rcases List.mem_cons.mp hc with rfl | hc
        · exact hd
        · exact List.mem_takeWhile_imp hc
      have hy := List.takeWhile_append_dropWhile (p := isDigit) (l := y)
      by_cases hclosed : ['>', '>'] <+: y.dropWhile isDigit
      · obtain ⟨r, hr⟩ := hclosed
        refine .inl (found_sentinelRe_iff.mpr ⟨_, ⟨_, List.cons_ne_nil d _, hdigits, rfl⟩, ?_⟩)
        refine List.IsInfix.trans ⟨[], r, ?_⟩ hz.isInfix
        have hread : d :: y = (d :: y.takeWhile isDigit) ++ ('>' :: '>' :: r) := by
          conv_lhs => rw [← hy, ← hr]
          rfl
        rw [hread]
        simp
      · refine .inr (found_of_rests unclosedSentinelRe_looksAhead hz
          (mem_rests_unclosedSentinelRe.mpr ⟨_, List.cons_ne_nil d _, hdigits, .inl ⟨?_, hclosed⟩⟩))
        conv_lhs => rw [← hy]
        rfl
    · obtain ⟨d, y, hd, rfl⟩ := reads_spelled.mp h
      refine .inr (found_of_rests unclosedSentinelRe_looksAhead hz
        (mem_rests_unclosedSentinelRe.mpr ⟨[d], List.cons_ne_nil d [], ?_, .inr rfl⟩))
      intro c hc
      rwa [List.mem_singleton.mp hc]

/-- A token does not go on with the text. -/
def Stops (y : Str) : Prop := ∀ c, y.head? = some c → isDigit c = false ∧ c ≠ '>'

theorem IsToken.within (hw : IsToken w) (hx : reads opening x = true) (hy : Stops y)
    (h : w <+: x ++ y) : w <+: x := by
  obtain ⟨t, ht⟩ := h
  rcases List.append_eq_append_iff.mp ht with ⟨v, rfl, -⟩ | ⟨v, rfl, hv⟩
  · exact List.prefix_append w v
  · cases v with
    | nil => simp
    | cons c v =>
      obtain ⟨hdigit, hgt⟩ := hy c (by rw [hv]; rfl)
      obtain ⟨d, x, -, rfl⟩ := reads_opening_iff.mp hx
      obtain ⟨digits, -, hdigits, heq⟩ := hw
      simp only [List.cons_append, List.cons.injEq, true_and] at heq
      have hc : c ∈ digits ++ ['>', '>'] := by
        rw [← heq]
        simp
      rcases List.mem_append.mp hc with hc | hc
      · rw [hdigits c hc] at hdigit
        cases hdigit
      · simp at hc
        exact absurd hc hgt

/-- What is opened across an angle is opened by the character right before it. -/
theorem opens_before_angle (hx : x ≠ []) (h : reads opening (x ++ '<' :: y) = true) :
    reads opening x = true ∨ x = ['<'] := by
  obtain ⟨d, rest, hd, heq⟩ := reads_opening_iff.mp h
  match x, hx, heq with
  | [a], _, heq =>
    cases (List.cons.inj heq).1
    exact .inr rfl
  | [a, b], _, heq => simp at heq
  | [a, b, c], _, heq =>
    simp at heq
    rw [← heq.2.2.2.1] at hd
    exact absurd hd (by decide)
  | a :: b :: c :: e :: x, _, heq =>
    simp at heq
    obtain ⟨rfl, rfl, rfl, rfl, -⟩ := heq
    exact .inl (reads_opening_iff.mpr ⟨e, x, hd, rfl⟩)

/-- What begins a placeholder before the border does so without what is behind it. -/
structure Borders (a y : Str) : Prop where
  opening : ∀ x, x ≠ [] → x <:+ a → reads opening (x ++ y) = true → reads opening x = true
  escaped : ∀ x, x ≠ [] → x <:+ a → reads escaped (x ++ y) = true → reads escaped x = true

/-- A text with the first and the last character of a tag. -/
structure TagShaped (v : Str) : Prop where
  head : ∃ c y, v = c :: y ∧ c ∈ ("<\x7b\\" : Str)
  last : ∃ y c, v = y ++ [c] ∧ c ∈ (">\x7dNnh" : Str)

theorem tagShaped_of_found {text : Str} {f : Found} (h : f ∈ findIter tagRe text) :
    TagShaped f.text := by
  have hrest := ((finds_findIter tagRe_looksAhead tagRe_consumes text).mem_rests h).2
  rcases mem_rests_tagRe.mp hrest with ⟨w, -, -, heq⟩ | ⟨w, -, -, heq⟩ | ⟨c, hc, heq⟩
  · have htext : f.text = '<' :: (w ++ ['>']) :=
      List.append_cancel_right (heq.trans (by simp))
    exact ⟨⟨_, _, htext, by decide⟩, ⟨'<' :: w, '>', htext, by decide⟩⟩
  · have htext : f.text = '\x7b' :: '\\' :: (w ++ ['\x7d']) :=
      List.append_cancel_right (heq.trans (by simp))
    exact ⟨⟨_, _, htext, by decide⟩, ⟨'\x7b' :: '\\' :: w, '\x7d', htext, by decide⟩⟩
  · have htext : f.text = ['\\', c] := List.append_cancel_right (heq.trans (by simp))
    refine ⟨⟨_, _, htext, by decide⟩, ⟨['\\'], c, htext, ?_⟩⟩
    exact List.mem_cons_of_mem _ (List.mem_cons_of_mem _ hc)

section Borders

variable {v a b : Str}

theorem Borders.token (h : Borders a y) (hy : Stops y) (hw : IsToken w) (hx : x ≠ [])
    (hxa : x <:+ a) (hin : w <+: x ++ y) : w <+: x :=
  hw.within (h.opening x hx hxa (hw.opens hin)) hy hin

theorem not_spelled_of_isSpace {word : Str} (hc : isSpace c = true)
    (hword : word.any isSpace = false) : ∀ p ∈ spelled word isDigit, p c = false := by
  intro p hp
  rcases List.mem_append.mp hp with hp | hp
  · obtain ⟨d, hd, rfl⟩ := List.mem_map.mp hp
    refine decide_eq_false ?_
    rintro rfl
    exact List.any_eq_false.mp hword c hd hc
  · rw [List.mem_singleton.mp hp, ← Bool.not_eq_true]
    intro hdigit
    rw [not_isSpace_of_isDigit hdigit] at hc
    cases hc

theorem borders_space (hc : isSpace c = true) (a y : Str) : Borders a (c :: y) where
  opening _ _ _ h := reads_before (not_spelled_of_isSpace hc (by decide)) h
  escaped _ _ _ h := reads_before (not_spelled_of_isSpace hc (by decide)) h

theorem stops_space (hc : isSpace c = true) (y : Str) : Stops (c :: y) := by
  intro d hd
  obtain rfl := Option.some.inj hd
  constructor
  · rw [← Bool.not_eq_true]
    intro hdigit
    rw [not_isSpace_of_isDigit hdigit] at hc
    cases hc
  · rintro rfl
    exact absurd hc (by decide)

theorem IsToken.borders (hk : IsToken k) (a b : Str) : Borders a (k ++ b) where
  opening x hx _ h := by
    obtain ⟨t, ht⟩ := hk.starts b
    rw [ht] at h
    rcases opens_before_angle hx h with h | rfl
    · exact h
    · obtain ⟨d, rest, -, heq⟩ := reads_opening_iff.mp h
      simp at heq
  escaped x _ _ h := by
    obtain ⟨t, ht⟩ := hk.starts b
    rw [ht] at h
    exact reads_before (by decide) h

theorem IsToken.stops (hk : IsToken k) (b : Str) : Stops (k ++ b) := by
  obtain ⟨y, hy⟩ := hk.starts b
  intro c hc
  rw [hy] at hc
  rw [← Option.some.inj hc]
  decide

theorem opens_upTo (h : ∃ u c, x = u ++ [c] ∧ c ∈ (">\x7dNnh" : Str))
    (hread : reads opening (x ++ y) = true) : reads opening x = true := by
  obtain ⟨u, c, rfl, hc⟩ := h
  rw [List.append_assoc] at hread
  exact reads_upTo (not_mem_classes (by decide) hc) hread

theorem TagShaped.last_suffix (hv : TagShaped v) (hx : x ≠ []) (h : x <:+ v) :
    ∃ u c, x = u ++ [c] ∧ c ∈ (">\x7dNnh" : Str) := by
  obtain ⟨y, c, rfl, hc⟩ := hv.last
  rcases List.eq_nil_or_concat x with rfl | ⟨u, d, rfl⟩
  · exact absurd rfl hx
  · rw [List.concat_eq_append] at h ⊢
    have hd : d = c := by
      obtain ⟨w, hw⟩ := h
      rw [← List.append_assoc] at hw
      exact (List.append_inj' hw rfl).2 |> List.cons.inj |>.1
    exact ⟨u, d, rfl, hd ▸ hc⟩

theorem TagShaped.borders_end (hv : TagShaped v) (b : Str) : Borders v b where
  opening x hx hxv h := opens_upTo (hv.last_suffix hx hxv) h
  escaped x hx hxv h := by
    obtain ⟨u, c, rfl, hc⟩ := hv.last_suffix hx hxv
    rw [List.append_assoc] at h
    exact reads_upTo (not_mem_classes (by decide) hc) h

/-- A tag begins no placeholder with what is before it, if not with an angle. -/
theorem TagShaped.borders (hv : TagShaped v)
    (hapart : reads opening ('<' :: v) = true → ¬ ['<'] <:+ a) (b : Str) : Borders a (v ++ b) where
  opening x hx hxa h := by
    obtain ⟨c, y, hcons, hc⟩ := hv.head
    have hread : reads opening (x ++ c :: (y ++ b)) = true := by
      rw [hcons] at h
      exact h
    simp at hc
    rcases hc with rfl | rfl | rfl
    · rcases opens_before_angle hx hread with hopen | rfl
      · exact hopen
      · obtain ⟨u, d, rfl, hd⟩ := hv.last
        exact absurd hxa (hapart (opens_upTo ⟨'<' :: u, d, rfl, hd⟩ h))
    · exact reads_before (by decide) hread
    · exact reads_before (by decide) hread
  escaped x _ _ h := by
    obtain ⟨c, y, hcons, hc⟩ := hv.head
    have hread : reads escaped (x ++ c :: (y ++ b)) = true := by
      rw [hcons] at h
      exact h
    exact reads_before (not_mem_classes (by decide) hc) hread

theorem TagShaped.stops (hv : TagShaped v) (b : Str) : Stops (v ++ b) := by
  obtain ⟨d, y, rfl, hd⟩ := hv.head
  have hclass : ("<\x7b\\" : Str).all (fun c => !isDigit c && c != '>') = true := by decide
  intro c hc
  rw [← Option.some.inj hc]
  simpa using List.all_eq_true.mp hclass d hd

end Borders

/-- A placeholder begins here and is not closed. -/
def Unclosed (z : Str) : Prop := reads opening z = true ∧ ∀ w, IsToken w → ¬ w <+: z

/-- Every placeholder of the text is closed, and none is escaped. -/
def Clean (s : Str) : Prop := ∀ z, z <:+ s → ¬ (reads escaped z = true ∨ Unclosed z)

section Clean

variable {v a b : Str}

theorem Clean.escaped_eq (h : Clean s) (hz : z <:+ s) : reads escaped z = false := by
  rw [← Bool.not_eq_true]
  exact fun he => h z hz (.inl he)

theorem Clean.token (h : Clean s) (hz : z <:+ s) (hopen : reads opening z = true) :
    ∃ w, IsToken w ∧ w <+: z := by
  by_contra hnone
  exact h z hz (.inr ⟨hopen, fun w hw hin => hnone ⟨w, hw, hin⟩⟩)

theorem Clean.of_isSuffix (h : Clean s) (hx : x <:+ s) : Clean x :=
  fun z hz => h z (hz.trans hx)

theorem clean_nil : Clean [] := by
  intro z hz h
  obtain rfl := List.suffix_nil.mp hz
  rcases h with h | ⟨h, -⟩
  · cases h
  · cases h

theorem clean_of_hasToken (h : hasToken s = false) : Clean s := by
  rintro z hz (he | ⟨hopen, -⟩)
  · rw [hasToken_iff.mpr ⟨z, hz, .inr he⟩] at h
    cases h
  · rw [hasToken_iff.mpr ⟨z, hz, .inl hopen⟩] at h
    cases h

theorem hasToken_of_clean (h : Clean s) (hnone : found sentinelRe s = false) :
    hasToken s = false := by
  rw [← Bool.not_eq_true, hasToken_iff]
  rintro ⟨z, hz, hopen | he⟩
  · obtain ⟨w, hw, hin⟩ := h.token hz hopen
    rw [found_sentinelRe_iff.mpr ⟨w, hw, hin.isInfix.trans hz.isInfix⟩] at hnone
    cases hnone
  · rw [h.escaped_eq hz] at he
    cases he

theorem Clean.sides (h : Clean (a ++ y)) (hy : Stops y) : Clean a ∧ Clean y := by
  refine ⟨?_, h.of_isSuffix (List.suffix_append a y)⟩
  rintro x hx (he | ⟨hopen, hnone⟩)
  · exact h _ (suffix_append_left hx y) (.inl (reads_append he y))
  · obtain ⟨w, hw, hin⟩ := h.token (suffix_append_left hx y) (reads_append hopen y)
    exact hnone w hw (hw.within hopen hy hin)

theorem Clean.append (ha : Clean a) (hy : Clean y) (h : Borders a y) : Clean (a ++ y) := by
  intro z hz hbad
  rcases suffix_append_cases hz with hz | ⟨x, hx, hxa, rfl⟩
  · exact hy z hz hbad
  · rcases hbad with he | ⟨hopen, hnone⟩
    · exact ha x hxa (.inl (h.escaped x hx hxa he))
    · obtain ⟨w, hw, hin⟩ := ha.token hxa (h.opening x hx hxa hopen)
      exact hnone w hw (hin.trans (List.prefix_append x y))

theorem severs_clean_space (hc : isSpace c = true) : Severs Clean [c] := by
  intro a b
  rw [List.singleton_append]
  constructor
  · intro h
    obtain ⟨ha, hb⟩ := h.sides (stops_space hc b)
    exact ⟨ha, hb.of_isSuffix (List.suffix_cons c b)⟩
  · rintro ⟨ha, hb⟩
    refine ha.append ?_ (borders_space hc a b)
    intro z hz hbad
    rcases List.suffix_cons_iff.mp hz with rfl | hz
    · rcases hbad with h | ⟨h, -⟩
      · cases @reads_before escaped [] b c (not_spelled_of_isSpace hc (by decide)) h
      · cases @reads_before opening [] b c (not_spelled_of_isSpace hc (by decide)) h
    · exact hb z hz hbad

theorem IsToken.escaped_not_mem (hk : IsToken k) : '&' ∉ k := by
  obtain ⟨digits, -, hdigits, rfl⟩ := hk
  intro hmem
  simp at hmem
  exact absurd (hdigits _ hmem) (by decide)

theorem severs_clean_token (hk : IsToken k) : Severs Clean k := by
  intro a b
  constructor
  · intro h
    obtain ⟨ha, hb⟩ := h.sides (hk.stops b)
    exact ⟨ha, hb.of_isSuffix (List.suffix_append k b)⟩
  · rintro ⟨ha, hb⟩
    refine ha.append ?_ (hk.borders a b)
    intro z hz hbad
    rcases suffix_append_cases hz with hz | ⟨x, hx, ⟨u, hu⟩, rfl⟩
    · exact hb z hz hbad
    · rcases hbad with he | ⟨hopen, hnone⟩
      · obtain ⟨d, y, -, heq⟩ := reads_spelled.mp he
        cases x with
        | nil => exact absurd rfl hx
        | cons c x =>
          cases (List.cons.inj heq).1
          exact absurd (hu ▸ List.mem_append_right u List.mem_cons_self) hk.escaped_not_mem
      · cases u with
        | nil =>
          rw [List.nil_append] at hu
          exact hnone k hk (hu ▸ List.prefix_append x b)
        | cons c u =>
          obtain ⟨d, y, -, heq⟩ := reads_opening_iff.mp hopen
          exact absurd heq (hk.tail_ne hu.symm (List.cons_ne_nil c u) hx)

/-- A tag of which nothing looks like a placeholder leaves a text clean, if it is not put behind an
angle with which it begins one. -/
theorem Clean.restored (h : Clean (a ++ (k ++ b))) (hk : IsToken k) (hv : TagShaped v)
    (hinert : hasToken v = false)
    (hapart : reads opening ('<' :: v) = true → ¬ ['<'] <:+ a) : Clean (a ++ (v ++ b)) := by
  obtain ⟨ha, hb⟩ := (severs_clean_token hk a b).mp h
  exact ha.append ((clean_of_hasToken hinert).append hb (hv.borders_end b)) (hv.borders hapart b)

/-- Restoring a tag closes no placeholder and unescapes none. -/
theorem Clean.of_restored (h : Clean (a ++ (v ++ b))) (hk : IsToken k) (hv : TagShaped v) :
    Clean (a ++ (k ++ b)) := by
  obtain ⟨ha, hb⟩ := h.sides (hv.stops b)
  exact (severs_clean_token hk a b).mpr ⟨ha, hb.of_isSuffix (List.suffix_append v b)⟩

end Clean

section Words

variable {v a b k' : Str}

/-- Two tokens of a text are one after the other or the same. -/
theorem IsToken.place (hk : IsToken k) (hw : IsToken w) (h : x ++ (w ++ y) = a ++ (k ++ b)) :
    (∃ m, a = x ++ (w ++ m) ∧ y = m ++ (k ++ b)) ∨ (x = a ∧ w = k ∧ y = b) ∨
      ∃ m, b = m ++ (w ++ y) ∧ x = a ++ (k ++ m) := by
  obtain ⟨z, hz⟩ := hk.starts b
  obtain ⟨z', hz'⟩ := hw.starts y
  rcases hw.apart hz h with ⟨u, rfl, hu⟩ | ⟨u, ha, hy⟩
  · rcases hk.apart (a := []) (x := u) hz' hu with ⟨t, ht, heq⟩ | ⟨t, rfl, hb⟩
    · obtain ⟨rfl, rfl⟩ := List.append_eq_nil_iff.mp ht.symm
      obtain ⟨rfl, rfl⟩ := hw.unique hk heq
      exact .inr (.inl ⟨List.append_nil a, rfl, rfl⟩)
    · exact .inr (.inr ⟨t, hb, rfl⟩)
  · exact .inl ⟨u, ha, hy⟩

/-- A token of a text is before or after a tag of which nothing looks like a placeholder. -/
theorem TagShaped.place (hv : TagShaped v) (hinert : hasToken v = false)
    (hapart : reads opening ('<' :: v) = true → ¬ ['<'] <:+ a) (hw : IsToken w)
    (h : x ++ (w ++ y) = a ++ (v ++ b)) : (∃ m, a = x ++ (w ++ m) ∧ y = m ++ (v ++ b)) ∨
      ∃ m, b = m ++ (w ++ y) ∧ x = a ++ (v ++ m) := by
  have hz : w ++ y <:+ a ++ (v ++ b) := ⟨x, h⟩
  have hopen := hw.opens (List.prefix_append w y)
  rcases suffix_append_cases hz with hz | ⟨u, hu, ⟨m, rfl⟩, heq⟩
  · rcases suffix_append_cases hz with ⟨m, rfl⟩ | ⟨u, hu, huv, heq⟩
    · refine .inr ⟨m, rfl, ?_⟩
      rw [← List.append_assoc v, ← List.append_assoc a] at h
      exact List.append_cancel_right h
    · have hinside := (hv.borders_end b).opening u hu huv (heq ▸ hopen)
      rw [hasToken_iff.mpr ⟨u, huv, .inl hinside⟩] at hinert
      cases hinert
  · have hin := (hv.borders hapart b).token (hv.stops b) hw hu (List.suffix_append m u)
      (heq ▸ List.prefix_append w y)
    obtain ⟨t, rfl⟩ := hin
    rw [List.append_assoc m, ← heq] at h
    rw [List.append_assoc] at heq
    refine .inl ⟨t, ?_, List.append_cancel_left heq⟩
    rw [List.append_cancel_right h]

theorem IsToken.not_angle_last (hk : IsToken k) : ¬ ['<'] <:+ k := by
  obtain ⟨digits, -, -, rfl⟩ := hk
  rintro ⟨u, hu⟩
  have hclosed : u ++ ['<'] = '<' :: '<' :: 'T' :: (digits ++ ['>']) ++ ['>'] := by
    rw [hu]
    simp
  cases (List.append_inj' hclosed rfl).2

theorem TagShaped.not_angle_last (hv : TagShaped v) : ¬ ['<'] <:+ v := by
  obtain ⟨y, c, rfl, hc⟩ := hv.last
  rintro ⟨u, hu⟩
  obtain ⟨-, hlast⟩ := List.append_inj' hu rfl
  cases hlast
  exact absurd hc (by decide)

theorem angle_last_behind {m : Str} (hv : v ≠ []) (hlast : ¬ ['<'] <:+ v)
    (h : ['<'] <:+ a ++ (v ++ m)) : ['<'] <:+ m := by
  rcases suffix_singleton_append h with ⟨hnil, -⟩ | h
  · exact absurd (List.append_eq_nil_iff.mp hnil).1 hv
  · rcases suffix_singleton_append h with ⟨-, h⟩ | h
    · exact absurd h hlast
    · exact h

/-- A token with or without an angle before it. -/
def KeyWord (u k : Str) : Prop := u = k ∨ u = '<' :: k

theorem KeyWord.infix_of_place {u : Str} (hu : KeyWord u w) (hv : v ≠ []) (hlast : ¬ ['<'] <:+ v)
    (hplace : ∀ {x y}, x ++ (w ++ y) = a ++ (v ++ b) → (∃ m, a = x ++ (w ++ m)) ∨
      ∃ m, b = m ++ (w ++ y) ∧ x = a ++ (v ++ m)) (h : u <:+: a ++ (v ++ b)) :
    u <:+: a ∨ u <:+: b := by
  obtain ⟨x, y, heq⟩ := h
  rcases hu with rfl | rfl
  · rcases hplace ((List.append_assoc x u y).symm.trans heq) with ⟨m, rfl⟩ | ⟨m, rfl, -⟩
    · exact .inl ⟨x, m, List.append_assoc x u m⟩
    · exact .inr ⟨m, y, List.append_assoc m u y⟩
  · have hangle : (x ++ ['<']) ++ (w ++ y) = a ++ (v ++ b) := by
      rw [← heq]
      simp
    rcases hplace hangle with ⟨m, rfl⟩ | ⟨m, rfl, hx⟩
    · exact .inl ⟨x, m, by simp⟩
    · obtain ⟨t, rfl⟩ := angle_last_behind hv hlast (hx ▸ List.suffix_append x ['<'])
      exact .inr ⟨t, y, by simp⟩

theorem IsToken.ne_nil (hk : IsToken k) : k ≠ [] := by
  obtain ⟨digits, -, -, rfl⟩ := hk
  exact List.cons_ne_nil _ _

theorem TagShaped.ne_nil (hv : TagShaped v) : v ≠ [] := by
  obtain ⟨c, y, rfl, -⟩ := hv.head
  exact List.cons_ne_nil c y

theorem KeyWord.infix_token {u : Str} (hu : KeyWord u w) (hw : IsToken w) (hk : IsToken k)
    (hne : w ≠ k) (h : u <:+: a ++ (k ++ b)) : u <:+: a ∨ u <:+: b := by
  refine hu.infix_of_place hk.ne_nil hk.not_angle_last ?_ h
  intro x y hplace
  rcases hk.place hw hplace with ⟨m, ha, -⟩ | ⟨-, rfl, -⟩ | hb
  · exact .inl ⟨m, ha⟩
  · exact absurd rfl hne
  · exact .inr hb

theorem KeyWord.infix_tag {u : Str} (hu : KeyWord u w) (hw : IsToken w) (hv : TagShaped v)
    (hinert : hasToken v = false) (hapart : reads opening ('<' :: v) = true → ¬ ['<'] <:+ a)
    (h : u <:+: a ++ (v ++ b)) : u <:+: a ∨ u <:+: b := by
  refine hu.infix_of_place hv.ne_nil hv.not_angle_last ?_ h
  intro x y hplace
  rcases hv.place hinert hapart hw hplace with ⟨m, ha, -⟩ | hb
  · exact .inl ⟨m, ha⟩
  · exact .inr hb

theorem infix_sides {u m : Str} (h : u <:+: a ∨ u <:+: b) : u <:+: a ++ (m ++ b) := by
  rcases h with h | h
  · exact h.trans (List.prefix_append a _).isInfix
  · exact h.trans ((List.suffix_append m b).trans (List.suffix_append a _)).isInfix

theorem severs_absent_token {u : Str} (hu : KeyWord u w) (hw : IsToken w) (hk : IsToken k)
    (hne : w ≠ k) : Severs (fun s => ¬ u <:+: s) k := by
  intro a b
  rw [← not_or, not_iff_not]
  exact ⟨hu.infix_token hw hk hne, infix_sides⟩

theorem severs_absent_space {u : Str} (hc : c ∉ u) : Severs (fun s => ¬ u <:+: s) [c] := by
  intro a b
  rw [← not_or, not_iff_not]
  exact ⟨infix_of_not_mem hc, infix_sides⟩

theorem IsToken.isSpace_not_mem (hk : IsToken k) (hc : isSpace c = true) : c ∉ k := by
  obtain ⟨digits, -, hdigits, rfl⟩ := hk
  intro hmem
  have hspace : isSpace c = false := by
    simp at hmem
    rcases hmem with rfl | rfl | hdigit | rfl
    · decide
    · decide
    · exact not_isSpace_of_isDigit (hdigits c hdigit)
    · decide
  rw [hc] at hspace
  cases hspace

theorem occurrences_token (hk : IsToken k) (hw : IsToken w) (a b : Str) :
    occurrences w (a ++ (k ++ b)) =
      occurrences w a + (if w = k then 1 else 0) + occurrences w b := by
  have hbefore : occurrences w (a ++ (k ++ b)) = occurrences w a + occurrences w (k ++ b) := by
    refine occurrences_append fun x hx hxa hin => ?_
    exact (hk.borders a b).token (hk.stops b) hw hx hxa hin
  obtain ⟨d, k', hcons⟩ := List.exists_cons_of_ne_nil hk.ne_nil
  -- Past its first character no place of the token begins another one.
  have hinside : ∀ x, x ≠ [] → x <:+ k' → ¬ w <+: x ++ b := by
    rintro x hx ⟨t, ht⟩ hin
    obtain ⟨e, y, -, heq⟩ := reads_opening_iff.mp (hw.opens hin)
    have hsplit : k = (d :: t) ++ x := by
      rw [hcons, ← ht]
      rfl
    exact hk.tail_ne hsplit (List.cons_ne_nil d t) hx heq
  have hrest : occurrences w (k' ++ b) = occurrences w b := by
    rw [occurrences_append fun x hx hxk hin => absurd hin (hinside x hx hxk)]
    have hnone : ¬ 0 < occurrences w k' := by
      rw [occurrences_pos hw.ne_nil]
      rintro ⟨t, y, heq⟩
      rw [List.append_assoc] at heq
      refine hinside (w ++ y) (by simp [hw.ne_nil]) ⟨t, heq⟩ ?_
      rw [List.append_assoc]
      exact List.prefix_append w _
    omega
  have hhere : w <+: k ++ b ↔ w = k := by
    constructor
    · rintro ⟨t, ht⟩
      exact (hw.unique hk ht).1
    · rintro rfl
      exact List.prefix_append w b
  rw [hbefore, hcons, List.cons_append, occurrences, hrest, ← List.cons_append, ← hcons]
  simp only [hhere]
  omega

end Words

section Orphans

variable {Q : Str → Prop} {orphans : List Str} {text m : Str} {sentinels : SentinelMap}

theorem orphanRe_looksAhead (orphans : List Str) : (orphanRe orphans).LooksAhead := by
  refine ⟨trivial, looksAhead_alts ?_, trivial, trivial⟩
  intro p hp
  obtain ⟨w, -, rfl⟩ := List.mem_map.mp hp
  exact looksAhead_lit w

theorem orphanRe_consumes (h : ∀ w ∈ orphans, w ≠ []) : (orphanRe orphans).Consumes := by
  refine consumes_seq_right _ (consumes_seq _ (consumes_alts ?_))
  intro p hp
  obtain ⟨w, hw, rfl⟩ := List.mem_map.mp hp
  exact consumes_lit (h w hw)

theorem severs_of_orphanRe (hnil : Q []) (hspace : ∀ c, isSpace c = true → Severs Q [c])
    (horphans : ∀ w ∈ orphans, Severs Q w) (h : r ∈ (orphanRe orphans).rests (m ++ r)) :
    Severs Q m := by
  obtain ⟨t, ht, h⟩ := mem_rests_seq.mp h
  obtain ⟨t', ht', h⟩ := mem_rests_seq.mp h
  obtain ⟨t'', ht'', h⟩ := mem_rests_seq.mp h
  cases List.mem_singleton.mp h
  obtain ⟨lead, hlead, heq⟩ := mem_rests_star_set.mp ht
  obtain ⟨p, hp, ht'⟩ := mem_rests_alts.mp ht'
  obtain ⟨w, hw, rfl⟩ := List.mem_map.mp hp
  obtain ⟨trail, htrail, rfl⟩ := mem_rests_star_set.mp ht''
  rw [mem_rests_lit.mp ht', ← List.append_assoc w, ← List.append_assoc lead] at heq
  rw [List.append_cancel_right heq]
  exact Severs.behind hnil (fun c hc => hspace c (hlead c hc))
    (Severs.before hnil (fun c hc => hspace c (htrail c hc)) (horphans w hw))

/-- Orphans taken out with the white space around them leave the rest of the reply as it was. -/
theorem severed_stripOrphans (hnil : Q []) (hspace : ∀ c, isSpace c = true → Severs Q [c])
    (horphans : ∀ w ∈ orphans, w ≠ [] ∧ Severs Q w) : Q (stripOrphans text orphans) ↔ Q text := by
  unfold stripOrphans
  split
  next => rfl
  next =>
    have hblank : Severs Q " " := hspace ' ' (by decide)
    rw [severed_strip hnil hspace]
    refine severed_sub (orphanRe_looksAhead orphans)
      (orphanRe_consumes fun w hw => (horphans w hw).1) hblank ?_ text
    exact fun m r hr => severs_of_orphanRe hnil hspace (fun w hw => (horphans w hw).2) hr

theorem token_of_orphan (h : w ∈ orphansOf text sentinels) :
    IsToken w ∧ w ∉ sentinels.map Prod.fst := by
  obtain ⟨hmem, hnone⟩ := List.mem_filter.mp ((List.mem_insertionSort _).mp h)
  obtain ⟨f, hf, rfl⟩ := List.mem_map.mp (List.mem_dedup.mp hmem)
  exact ⟨(isToken_of_found hf).1, of_decide_eq_true hnone⟩

theorem clean_stripOrphans (text : Str) (sentinels : SentinelMap) :
    Clean (stripOrphans text (orphansOf text sentinels)) ↔ Clean text := by
  refine severed_stripOrphans clean_nil (fun c hc => severs_clean_space hc) fun w hw => ?_
  have htoken := (token_of_orphan hw).1
  exact ⟨htoken.ne_nil, severs_clean_token htoken⟩

/-- A key stays in the reply, with an angle before it where there was one. -/
theorem KeyWord.stripOrphans {u : Str} (hu : KeyWord u k) (hk : IsToken k)
    (hmem : k ∈ sentinels.map Prod.fst) (text : Str) :
    u <:+: stripOrphans text (orphansOf text sentinels) ↔ u <:+: text := by
  have hne : u ≠ [] := by
    rcases hu with rfl | rfl
    · exact hk.ne_nil
    · exact List.cons_ne_nil '<' k
  rw [← not_iff_not]
  refine severed_stripOrphans (Q := fun s => ¬ u <:+: s) ?_ ?_ ?_
  · exact fun h => hne (List.infix_nil.mp h)
  · refine fun c hc => severs_absent_space ?_
    rcases hu with rfl | rfl
    · exact hk.isSpace_not_mem hc
    · rw [List.mem_cons, not_or]
      refine ⟨?_, hk.isSpace_not_mem hc⟩
      rintro rfl
      exact absurd hc (by decide)
  · intro w hw
    obtain ⟨htoken, hnone⟩ := token_of_orphan hw
    refine ⟨htoken.ne_nil, severs_absent_token hu hk htoken ?_⟩
    rintro rfl
    exact hnone hmem

theorem noToken_of_noMatchIn {t : Str} (h : sentinelRe.NoMatchIn t s) : NoToken t := by
  intro w hw hin
  obtain ⟨r, hr⟩ := NoMatchIn.of_isInfix h hin hw.ne_nil
  have hmem : r ∈ sentinelRe.rests (w ++ r) := mem_rests_sentinelRe.mpr ⟨w, hw, rfl⟩
  rw [hr] at hmem
  cases hmem

theorem noToken_sub (s : Str) : NoToken (sub sentinelRe (fun _ => " ") s) := by
  induction hn : s.length using Nat.strong_induction_on generalizing s with
  | h n ih =>
    subst hn
    rcases noMatch_or_firstMatch sentinelRe_looksAhead s with hno | ⟨t, m, r, hfirst⟩
    · rw [sub_of_noMatch sentinelRe_looksAhead hno (rests_nil_of_consumes sentinelRe_consumes)]
      exact noToken_of_noMatchIn hno
    · have hlt := sentinelRe_consumes _ _ (List.mem_of_mem_head? hfirst.here)
      have hlen := congrArg List.length hfirst.eq
      simp only [List.length_append] at hlen hlt
      intro w hw hin
      rw [sub_of_firstMatch sentinelRe_looksAhead sentinelRe_consumes hfirst,
        List.append_assoc] at hin
      rcases infix_of_not_mem (hw.isSpace_not_mem (by decide)) hin with hin | hin
      · exact noToken_of_noMatchIn hfirst.before w hw hin
      · exact ih r.length (by omega) r rfl w hw hin

/-- The reply without its closed placeholders passes the gate when the others are none. -/
theorem hasToken_sub_iff (s : Str) :
    hasToken (sub sentinelRe (fun _ => " ") s) = false ↔ Clean s := by
  have hclean : Clean (sub sentinelRe (fun _ => " ") s) ↔ Clean s := by
    refine severed_sub sentinelRe_looksAhead sentinelRe_consumes
      (severs_clean_space (by decide)) ?_ s
    intro m r hr
    obtain ⟨w, hw, heq⟩ := mem_rests_sentinelRe.mp hr
    rw [List.append_cancel_right heq]
    exact severs_clean_token hw
  constructor
  · exact fun h => hclean.mp (clean_of_hasToken h)
  · intro h
    refine hasToken_of_clean (hclean.mpr h) ?_
    rw [← Bool.not_eq_true, found_sentinelRe_iff]
    rintro ⟨w, hw, hin⟩
    exact noToken_sub s w hw hin

end Orphans

end Places

end Trezarr
