import Trezarr.Translate.Unclosed

/-! A reply with its tags restored, under the check of a reply and under the gate. -/
namespace Trezarr
open Text Regex Regex.Pattern

section Restoring

variable {s u a b k v v' w : Str} {sentinels all : SentinelMap} {reply text : Str}
  {pair : Str × Str}

/-- What each restored tag keeps holds of the text at the end. -/
theorem restoreKeys_run {Inv : Str → SentinelMap → Prop}
    (hstep : ∀ {a b k v sentinels}, Inv (a ++ (k ++ b)) ((k, v) :: sentinels) →
      Inv (a ++ (v ++ b)) sentinels) : ∀ {sentinels s},
    restoreKeys s sentinels = (u, true) → Inv s sentinels → Inv u [] := by
  intro sentinels
  induction sentinels with
  | nil =>
    intro s h hinv
    cases h
    exact hinv
  | cons pair sentinels ih =>
    intro s h hinv
    obtain ⟨a, b, rfl, hrest⟩ := restoreKeys_cons h
    exact ih hrest (hstep hinv)

/-- Tags behind tokens. -/
structure Placeholders (sentinels : SentinelMap) : Prop where
  key : ∀ p ∈ sentinels, IsToken p.1
  tag : ∀ p ∈ sentinels, TagShaped p.2

theorem Placeholders.of_cons (h : Placeholders (pair :: sentinels)) : Placeholders sentinels where
  key p hp := h.key p (List.mem_cons_of_mem pair hp)
  tag p hp := h.tag p (List.mem_cons_of_mem pair hp)

/-- The tag is in the text, and begins no placeholder there. -/
def Held (v s : Str) : Prop :=
  ∃ a b, s = a ++ (v ++ b) ∧ (reads opening ('<' :: v) = true → ¬ ['<'] <:+ a)

theorem Held.isInfix (h : Held v s) : v <:+: s := by
  obtain ⟨a, b, rfl, -⟩ := h
  exact ⟨a, b, List.append_assoc a v b⟩

theorem Held.restored (h : Held v (a ++ (k ++ b))) (hk : IsToken k) (hv : TagShaped v)
    (hinert : hasToken v = false) (hv' : TagShaped v') : Held v (a ++ (v' ++ b)) := by
  obtain ⟨x, y, heq, hapart⟩ := h
  rcases hv.place hinert hapart hk heq with ⟨m, rfl, rfl⟩ | ⟨m, rfl, rfl⟩
  · refine ⟨a ++ (v' ++ m), y, by simp, fun hopen hangle => hapart hopen ?_⟩
    have hm := angle_last_behind hv'.ne_nil hv'.not_angle_last hangle
    exact hm.trans ((List.suffix_append k m).trans (List.suffix_append a _))
  · exact ⟨x, m ++ (v' ++ b), by simp, hapart⟩

/-- The text is clean, and the tags restored so far are in it. -/
structure Restored (all : SentinelMap) (s : Str) (sentinels : SentinelMap) : Prop where
  part : ∀ p ∈ sentinels, p ∈ all
  clean : Clean s
  apart : ∀ p ∈ sentinels, '<' :: p.1 <:+: s → hasToken ('<' :: p.2) = false
  held : ∀ p ∈ all, p ∈ sentinels ∨ Held p.2 s

theorem not_angle_before (h : '<' :: k <:+: a ++ (k ++ b) → hasToken ('<' :: v) = false)
    (hopen : reads opening ('<' :: v) = true) : ¬ ['<'] <:+ a := by
  rintro ⟨x, rfl⟩
  have hinert := h ⟨x, b, by simp⟩
  rw [hasToken_iff.mpr ⟨'<' :: v, List.suffix_rfl, .inl hopen⟩] at hinert
  cases hinert

theorem Restored.step (hall : Placeholders all) (hinert : ∀ p ∈ all, hasToken p.2 = false)
    (h : Restored all (a ++ (k ++ b)) ((k, v) :: sentinels)) :
    Restored all (a ++ (v ++ b)) sentinels := by
  have hmem := h.part (k, v) List.mem_cons_self
  have hk : IsToken k := hall.key _ hmem
  have hv : TagShaped v := hall.tag _ hmem
  have hapart := not_angle_before (h.apart (k, v) List.mem_cons_self)
  refine ⟨fun p hp => h.part p (List.mem_cons_of_mem _ hp),
    h.clean.restored hk hv (hinert _ hmem) hapart, fun p hp hin => ?_, fun p hp => ?_⟩
  · have hmem' := List.mem_cons_of_mem (k, v) hp
    have hword : KeyWord ('<' :: p.1) p.1 := .inr rfl
    exact h.apart p hmem' (infix_sides
      (hword.infix_tag (hall.key p (h.part p hmem')) hv (hinert _ hmem) hapart hin))
  · rcases h.held p hp with hrest | hheld
    · rcases List.mem_cons.mp hrest with rfl | hrest
      · exact .inr ⟨a, b, rfl, hapart⟩
      · exact .inl hrest
    · exact .inr (hheld.restored hk (hall.tag p hp) (hinert p hp) hv)

theorem occurrences_restored (hk : IsToken k) (hw : IsToken w) :
    occurrences w (a ++ (k ++ b)) ≤
      (if w = k then 1 else 0) + occurrences w (a ++ (v ++ b)) := by
  have hwhole := occurrences_append_le w a (v ++ b)
  have hback := occurrences_append_le w v b
  rw [occurrences_token hk hw]
  omega

theorem occurrences_angle (hw : IsToken w) (a : Str) :
    occurrences w (a ++ ['<']) = occurrences w a := by
  have hlone : ¬ 0 < occurrences w ['<'] := by
    rw [occurrences_pos hw.ne_nil]
    intro hin
    have hw' : w = ['<'] := by
      rcases List.infix_cons_iff.mp hin with hin | hin
      · rcases List.prefix_cons_iff.mp hin with rfl | ⟨t, rfl, ht⟩
        · exact absurd rfl hw.ne_nil
        · rw [List.prefix_nil.mp ht]
      · exact absurd (List.infix_nil.mp hin) hw.ne_nil
    exact hw.not_angle_last (hw' ▸ List.suffix_rfl)
  rw [occurrences_append, Nat.eq_zero_of_not_pos hlone, Nat.add_zero]
  intro x _ _ hin
  rcases List.prefix_concat_iff.mp hin with rfl | hin
  · exact absurd (List.suffix_append x ['<']) hw.not_angle_last
  · exact hin

/-- A token more than the keys left, or one that is not closed: the restored text ends with it. -/
def Surplus (s : Str) (sentinels : SentinelMap) : Prop :=
  ¬ Clean s ∨ ∃ w, IsToken w ∧ (sentinels.map Prod.fst).count w < occurrences w s

theorem Surplus.step (hk : IsToken k) (hv : TagShaped v)
    (h : Surplus (a ++ (k ++ b)) ((k, v) :: sentinels)) : Surplus (a ++ (v ++ b)) sentinels := by
  rcases h with hclean | ⟨w, hw, hcount⟩
  · exact .inl fun hclean' => hclean (hclean'.of_restored hk hv)
  · have hrestored := @occurrences_restored a b k v w hk hw
    refine .inr ⟨w, hw, ?_⟩
    rw [List.map_cons, List.count_cons] at hcount
    by_cases hwk : w = k
    · subst hwk
      simp at hcount hrestored
      omega
    · simp [hwk, Ne.symm hwk] at hcount hrestored
      omega

theorem hasToken_of_surplus (h : Surplus s []) : hasToken s = true := by
  rcases h with hclean | ⟨w, hw, hcount⟩
  · by_contra hnone
    exact hclean (clean_of_hasToken (by simpa using hnone))
  · have hin := (occurrences_pos hw.ne_nil).mp (Nat.zero_lt_of_lt hcount)
    rw [hasToken, found_sentinelRe_iff.mpr ⟨w, hw, hin⟩, Bool.true_or]

/-- Every key left is in the text, and there is a surplus or will be when the pair's turn comes. -/
structure Spoiled (pair : Str × Str) (s : Str) (sentinels : SentinelMap) : Prop where
  placeholders : Placeholders sentinels
  nodup : (sentinels.map Prod.fst).Nodup
  present : ∀ w, IsToken w → (sentinels.map Prod.fst).count w ≤ occurrences w s
  spoiled : Surplus s sentinels ∨ pair ∈ sentinels ∧ '<' :: pair.1 <:+: s

/-- A tag put behind an angle with which it begins a placeholder. -/
theorem surplus_of_angle (hk : IsToken k) (hopen : reads opening ('<' :: v) = true)
    (hpresent : ∀ w, IsToken w → (((k, v) :: sentinels).map Prod.fst).count w ≤
      occurrences w (a ++ ['<'] ++ (k ++ b))) :
    Surplus (a ++ ['<'] ++ (v ++ b)) sentinels := by
  have hplace : '<' :: (v ++ b) <:+ a ++ ['<'] ++ (v ++ b) := ⟨a, by simp⟩
  have hopen' : reads opening ('<' :: (v ++ b)) = true := reads_append hopen b
  by_cases hclosed : ∃ w, IsToken w ∧ w <+: '<' :: (v ++ b)
  · obtain ⟨w, hw, hin⟩ := hclosed
    refine .inr ⟨w, hw, ?_⟩
    have hbefore := hpresent w hw
    rw [occurrences_token hk hw, occurrences_angle hw, List.map_cons, List.count_cons] at hbefore
    have hwhole := occurrences_append_le w a ('<' :: (v ++ b))
    have hback := occurrences_append_le w v b
    have hhere : occurrences w ('<' :: (v ++ b)) = 1 + occurrences w (v ++ b) := by
      rw [occurrences, if_pos hin]
    have htext : a ++ ['<'] ++ (v ++ b) = a ++ '<' :: (v ++ b) := by simp
    rw [htext]
    by_cases hwk : w = k
    · subst hwk
      simp at hbefore
      omega
    · simp [hwk, Ne.symm hwk] at hbefore
      omega
  · exact .inl fun hclean => hclosed (hclean.token hplace hopen')

theorem Spoiled.step (hopen : reads opening ('<' :: pair.2) = true)
    (h : Spoiled pair (a ++ (k ++ b)) ((k, v) :: sentinels)) :
    Spoiled pair (a ++ (v ++ b)) sentinels := by
  have hk : IsToken k := h.placeholders.key _ List.mem_cons_self
  have hv : TagShaped v := h.placeholders.tag _ List.mem_cons_self
  obtain ⟨hfresh, hnodup⟩ := List.nodup_cons.mp h.nodup
  refine ⟨h.placeholders.of_cons, hnodup, fun w hw => ?_, ?_⟩
  · have hbefore := h.present w hw
    have hrestored := @occurrences_restored a b k v w hk hw
    rw [List.map_cons, List.count_cons] at hbefore
    by_cases hwk : w = k
    · subst hwk
      simp at hbefore hrestored
      omega
    · simp [hwk, Ne.symm hwk] at hbefore hrestored
      omega
  · rcases h.spoiled with hsurplus | ⟨hmem, hin⟩
    · exact .inl (hsurplus.step hk hv)
    · rcases List.mem_cons.mp hmem with rfl | hmem
      · obtain ⟨x, y, heq⟩ := hin
        have hplace : (x ++ ['<']) ++ (k ++ y) = a ++ (k ++ b) := by
          rw [← heq]
          simp
        have hother : k <:+: a ∨ k <:+: b → Surplus (a ++ (v ++ b)) sentinels := by
          intro hin
          refine .inr ⟨k, hk, ?_⟩
          rw [List.count_eq_zero.mpr hfresh]
          exact (occurrences_pos hk.ne_nil).mpr (infix_sides hin)
        rcases hk.place hk hplace with ⟨m, rfl, -⟩ | ⟨rfl, -, rfl⟩ | ⟨m, rfl, -⟩
        · exact .inl (hother (.inl ⟨x ++ ['<'], m, List.append_assoc _ k m⟩))
        · exact .inl (surplus_of_angle hk hopen h.present)
        · exact .inl (hother (.inr ⟨m, y, List.append_assoc m k y⟩))
      · have hkey := h.placeholders.key pair (List.mem_cons_of_mem _ hmem)
        have hkeymem : pair.1 ∈ sentinels.map Prod.fst := List.mem_map_of_mem hmem
        have hne : pair.1 ≠ k := by
          rintro rfl
          exact hfresh hkeymem
        have hword : KeyWord ('<' :: pair.1) pair.1 := .inr rfl
        exact .inr ⟨hmem, infix_sides (hword.infix_token hkey hk hne hin)⟩

theorem placeholders_extractSentinels (text : Str) : Placeholders (extractSentinels text).2 := by
  constructor
  · intro p hp
    obtain ⟨⟨f, n⟩, -, rfl⟩ := List.mem_map.mp hp
    exact isToken_sentinelKey n
  · intro p hp
    obtain ⟨⟨f, n⟩, hf, rfl⟩ := List.mem_map.mp hp
    exact tagShaped_of_found (List.fst_mem_of_mem_zipIdx hf)

theorem sentinelKey_injective : Function.Injective sentinelKey := by
  intro m n h
  simp [sentinelKey] at h
  exact natStr_injective h

theorem nodup_keys (text : Str) : ((extractSentinels text).2.map Prod.fst).Nodup := by
  have hkeys : (extractSentinels text).2.map Prod.fst =
      ((findIter tagRe text).zipIdx.map Prod.snd).map sentinelKey := by
    simp only [extractSentinels, sentinelMap, List.map_map]
    rfl
  rw [hkeys, List.zipIdx_map_snd]
  exact List.Nodup.map sentinelKey_injective List.nodup_range'

end Restoring

/-- Nothing of the tags looks like a placeholder, nor of the reply but its closed placeholders, nor
does a tag with the angle that the reply has before its key. -/
structure GateReady (text reply : Str) : Prop where
  tags : ∀ p ∈ (extractSentinels text).2, hasToken p.2 = false
  closed : hasToken (sub sentinelRe (fun _ => " ") reply) = false
  apart : ∀ p ∈ (extractSentinels text).2, '<' :: p.1 <:+: reply → hasToken ('<' :: p.2) = false

/-- Every tag is in the restored text, and the gate sees no placeholder there. -/
def PassesGate (text u : Str) : Prop :=
  (∀ p ∈ (extractSentinels text).2, p.2 <:+: u) ∧ hasToken u = false

section Agreement

variable {text reply u : Str}

theorem found_of_reinsert {sentinels : SentinelMap}
    (h : reinsertSentinels reply sentinels = (u, true)) : found sentinelRe u = false := by
  unfold reinsertSentinels at h
  dsimp only at h
  obtain ⟨rfl, hok⟩ := Prod.ext_iff.mp h
  exact (Bool.not_eq_true' _).mp (Bool.and_eq_true_iff.mp hok).2

theorem passesGate_of_ready (hready : GateReady text reply)
    (h : reinsertSentinels reply (extractSentinels text).2 = (u, true)) : PassesGate text u := by
  have hall := placeholders_extractSentinels text
  have hrun := restoreKeys_of_reinsert h
  have hstart : Restored (extractSentinels text).2
      (stripOrphans reply (orphansOf reply (extractSentinels text).2))
      (extractSentinels text).2 := by
    refine ⟨fun p hp => hp, ?_, fun p hp hin => ?_, fun p hp => .inl hp⟩
    · exact (clean_stripOrphans reply _).mpr ((hasToken_sub_iff reply).mp hready.closed)
    · have hword : KeyWord ('<' :: p.1) p.1 := .inr rfl
      exact hready.apart p hp
        ((hword.stripOrphans (hall.key p hp) (List.mem_map_of_mem hp) reply).mp hin)
  have hend := restoreKeys_run (fun h => h.step hall hready.tags) hrun hstart
  refine ⟨fun p hp => ?_, hasToken_of_clean hend.clean (found_of_reinsert h)⟩
  rcases hend.held p hp with hnone | hheld
  · cases hnone
  · exact hheld.isInfix

theorem hasToken_of_isInfix {v s : Str} (h : v <:+: s) (hs : hasToken s = false) :
    hasToken v = false := by
  rw [← Bool.not_eq_true, hasToken_iff]
  rintro ⟨z, hz, hread⟩
  obtain ⟨a, b, rfl⟩ := h
  have hplace : z ++ b <:+ a ++ v ++ b :=
    suffix_append_left (hz.trans (List.suffix_append a v)) b
  have hwhole : reads opening (z ++ b) = true ∨ reads escaped (z ++ b) = true := by
    rcases hread with hread | hread
    · exact .inl (reads_append hread b)
    · exact .inr (reads_append hread b)
  rw [hasToken_iff.mpr ⟨_, hplace, hwhole⟩] at hs
  cases hs

/-- What is not clean stays so while its tags are restored. -/
theorem clean_of_restoreKeys {s : Str} {sentinels : SentinelMap} (hall : Placeholders sentinels)
    (h : restoreKeys s sentinels = (u, true)) (hu : Clean u) : Clean s := by
  by_contra hs
  have hstep : ∀ {a b k v sentinels},
      (Placeholders ((k, v) :: sentinels) ∧ ¬ Clean (a ++ (k ++ b))) →
        Placeholders sentinels ∧ ¬ Clean (a ++ (v ++ b)) := by
    rintro a b k v sentinels ⟨hall, hs⟩
    have hk : IsToken k := hall.key _ List.mem_cons_self
    have hv : TagShaped v := hall.tag _ List.mem_cons_self
    exact ⟨hall.of_cons, fun hclean => hs (hclean.of_restored hk hv)⟩
  exact (@restoreKeys_run u (fun s sentinels => Placeholders sentinels ∧ ¬ Clean s) hstep
    sentinels s h ⟨hall, hs⟩).2 hu

theorem opens_of_hasToken {v : Str} (hinert : hasToken v = false)
    (h : hasToken ('<' :: v) = true) : reads opening ('<' :: v) = true := by
  obtain ⟨z, hz, hread⟩ := hasToken_iff.mp h
  rcases List.suffix_cons_iff.mp hz with rfl | hz
  · rcases hread with hopen | he
    · exact hopen
    · obtain ⟨d, y, -, heq⟩ := reads_spelled.mp he
      cases heq
  · rw [hasToken_iff.mpr ⟨z, hz, hread⟩] at hinert
    cases hinert

theorem ready_of_passesGate (h : reinsertSentinels reply (extractSentinels text).2 = (u, true))
    (hkeys : ∀ p ∈ (extractSentinels text).2, p.1 <:+: reply) (hpass : PassesGate text u) :
    GateReady text reply := by
  obtain ⟨htags, hnone⟩ := hpass
  have hall := placeholders_extractSentinels text
  have hrun := restoreKeys_of_reinsert h
  have hinert : ∀ p ∈ (extractSentinels text).2, hasToken p.2 = false :=
    fun p hp => hasToken_of_isInfix (htags p hp) hnone
  refine ⟨hinert, ?_, fun pair hpair hin => ?_⟩
  · rw [hasToken_sub_iff, ← clean_stripOrphans reply (extractSentinels text).2]
    exact clean_of_restoreKeys hall hrun (clean_of_hasToken hnone)
  · by_contra htoken
    have hopen := opens_of_hasToken (hinert pair hpair) (by simpa using htoken)
    have hword : KeyWord ('<' :: pair.1) pair.1 := .inr rfl
    have hstart : Spoiled pair (stripOrphans reply (orphansOf reply (extractSentinels text).2))
        (extractSentinels text).2 := by
      refine ⟨hall, nodup_keys text, fun w hw => ?_, .inr ⟨hpair, ?_⟩⟩
      · by_cases hmem : w ∈ (extractSentinels text).2.map Prod.fst
        · rw [List.count_eq_one_of_mem (nodup_keys text) hmem]
          obtain ⟨p, hp, rfl⟩ := List.mem_map.mp hmem
          have hkey : KeyWord p.1 p.1 := .inl rfl
          exact (occurrences_pos hw.ne_nil).mpr ((hkey.stripOrphans hw hmem reply).mpr (hkeys p hp))
        · rw [List.count_eq_zero.mpr hmem]
          exact Nat.zero_le _
      · exact (hword.stripOrphans (hall.key pair hpair) (List.mem_map_of_mem hpair) reply).mpr hin
    have hend := restoreKeys_run (fun h => h.step hopen) hrun hstart
    rcases hend.spoiled with hsurplus | ⟨hmem, -⟩
    · rw [hasToken_of_surplus hsurplus] at hnone
      cases hnone
    · cases hmem

/-- A reply whose tags all came back passes the gate if it is ready for it, and one with every key
only then. -/
theorem reinsert_passesGate (text reply u : Str)
    (h : reinsertSentinels reply (extractSentinels text).2 = (u, true)) :
    (GateReady text reply → PassesGate text u) ∧
      ((∀ p ∈ (extractSentinels text).2, p.1 <:+: reply) →
        (PassesGate text u ↔ GateReady text reply)) :=
  ⟨fun hready => passesGate_of_ready hready h, fun hkeys =>
    ⟨ready_of_passesGate h hkeys, fun hready => passesGate_of_ready hready h⟩⟩

def italic : Str := "<i>Hi</i>"

theorem italic_passesGate : PassesGate italic "<i>Chào</i>" := by
  have hready : GateReady italic "<<T0>>Chào<<T1>>" := by
    refine ⟨?_, by decide, ?_⟩
    · decide
    · decide
  exact (reinsert_passesGate italic "<<T0>>Chào<<T1>>" "<i>Chào</i>" (by decide)).1 hready

/-- An unclosed placeholder is not looked for, and a key may come from a tag restored before. -/
theorem accepted_unready :
    (reinsertSentinels "Xin chào <<T5" (extractSentinels "Hi.").2 =
        (("Xin chào <<T5" : Str), true) ∧ ¬ PassesGate "Hi." "Xin chào <<T5") ∧
      reinsertSentinels "<<T0>>" (extractSentinels "\x7b\\<<T1>>\x7d<i>").2 =
        (("\x7b\\<i>\x7d" : Str), true) ∧
      ¬ PassesGate "\x7b\\<<T1>>\x7d<i>" "\x7b\\<i>\x7d" := by
  refine ⟨⟨by decide, fun h => ?_⟩, by decide, fun h => ?_⟩
  · exact absurd h.2 (by decide)
  · exact absurd h.1 (by decide)

end Agreement

end Trezarr
