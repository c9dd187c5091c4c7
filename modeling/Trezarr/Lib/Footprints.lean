import Mathlib.Data.List.Perm.Basic
import Trezarr.Lib.Fallible

/-! Writes that look at one place each: whatever order they come in, they leave the same. -/
namespace Footprints
open Fallible

variable {σ ω κ ε : Type} {step : σ → ω → Except ε σ} {key : ω → κ} {alike : κ → σ → σ → Prop}
  {s t s' : σ} {ws vs : List ω}

/-- What a write does at its own place depends on that place only, and it does nothing at another.
Two states are `alike` at a place when no write to it can tell them apart. -/
structure Local (step : σ → ω → Except ε σ) (key : ω → κ) (alike : κ → σ → σ → Prop) : Prop where
  equivalence : ∀ k, Equivalence (alike k)
  own : ∀ {w s t s'}, alike (key w) s t → step s w = .ok s' →
    ∃ t', step t w = .ok t' ∧ alike (key w) s' t'
  other : ∀ {w s s' k}, step s w = .ok s' → k ≠ key w → alike k s s'

theorem foldlM_cons_ok {w : ω} : (w :: ws).foldlM step s = .ok s' ↔
    ∃ mid, step s w = .ok mid ∧ ws.foldlM step mid = .ok s' := by
  rw [List.foldlM_cons]
  constructor
  · exact bind_ok
  · rintro ⟨mid, hw, hws⟩
    rw [hw]
    exact hws

/-- Where each write can be made, and none takes that from another, all can be made. -/
theorem foldlM_ok_of_step {ready : σ → ω → Prop}
    (hstep : ∀ s w, ready s w → ∃ s', step s w = .ok s' ∧ ∀ v, ready s v → ready s' v)
    (h : ∀ w ∈ ws, ready s w) :
    ∃ s', ws.foldlM step s = .ok s' ∧ ∀ v, ready s v → ready s' v := by
  induction ws generalizing s with
  | nil => exact ⟨s, rfl, fun _ hv => hv⟩
  | cons w ws ih =>
    obtain ⟨mid, hw, hmid⟩ := hstep s w (h w List.mem_cons_self)
    obtain ⟨s', hws, hs'⟩ := ih fun v hv => hmid v (h v (List.mem_cons_of_mem w hv))
    exact ⟨s', foldlM_cons_ok.mpr ⟨mid, hw, hws⟩, fun v hv => hs' v (hmid v hv)⟩

/-- What is the same place by place is the same up to order. -/
theorem perm_of_filter_eq {α : Type} [DecidableEq α] [DecidableEq κ] {place : α → κ}
    {xs ys : List α}
    (h : ∀ k, xs.filter (place · = k) = ys.filter (place · = k)) : xs.Perm ys := by
  rw [List.perm_iff_count]
  intro a
  have hcount := congrArg (List.count a) (h (place a))
  rwa [List.count_filter (by simp), List.count_filter (by simp)] at hcount

namespace Local

variable (hl : Local step key alike)

include hl

theorem step_alike {w : ω} (hst : ∀ k, alike k s t) (h : step s w = .ok s') :
    ∃ t', step t w = .ok t' ∧ ∀ k, alike k s' t' := by
  obtain ⟨t', ht, hown⟩ := hl.own (hst _) h
  refine ⟨t', ht, ?_⟩
  intro k
  by_cases hk : k = key w
  · rw [hk]
    exact hown
  · have heq := hl.equivalence k
    exact heq.trans (heq.symm (hl.other h hk)) (heq.trans (hst k) (hl.other ht hk))

theorem run_alike (hst : ∀ k, alike k s t) (h : ws.foldlM step s = .ok s') :
    ∃ t', ws.foldlM step t = .ok t' ∧ ∀ k, alike k s' t' := by
  induction ws generalizing s t with
  | nil =>
    cases h
    exact ⟨t, rfl, hst⟩
  | cons w ws ih =>
    obtain ⟨mid, hw, hws⟩ := foldlM_cons_ok.mp h
    obtain ⟨mid', hw', hmid⟩ := hl.step_alike hst hw
    obtain ⟨t', ht, halike⟩ := ih hmid hws
    exact ⟨t', foldlM_cons_ok.mpr ⟨mid', hw', ht⟩, halike⟩

/-- Two writes to different places commute. -/
theorem step_comm {w v : ω} {mid : σ} (hne : key w ≠ key v) (hst : ∀ k, alike k s t)
    (hw : step s w = .ok mid) (hv : step mid v = .ok s') :
    ∃ mid' t', step t v = .ok mid' ∧ step mid' w = .ok t' ∧ ∀ k, alike k s' t' := by
  have htrans : ∀ {k a b c}, alike k a b → alike k b c → alike k a c :=
    fun hab hbc => (hl.equivalence _).trans hab hbc
  have hsymm : ∀ {k a b}, alike k a b → alike k b a := fun hab => (hl.equivalence _).symm hab
  obtain ⟨mid', hv', hown⟩ := hl.own (htrans (hsymm (hl.other hw hne.symm)) (hst _)) hv
  obtain ⟨t', hw', hown'⟩ := hl.own (htrans (hst _) (hl.other hv' hne)) hw
  refine ⟨mid', t', hv', hw', ?_⟩
  intro k
  by_cases hkw : k = key w
  · -- the later write left the place of the earlier one as it was
    rw [hkw]
    exact htrans (hsymm (hl.other hv hne)) hown'
  · by_cases hkv : k = key v
    · rw [hkv]
      exact htrans hown (hl.other hw' hne.symm)
    · have hs : alike k s s' := htrans (hl.other hw hkw) (hl.other hv hkv)
      have ht : alike k t t' := htrans (hl.other hv' hkv) (hl.other hw' hkw)
      exact htrans (hsymm hs) (htrans (hst k) ht)

/-- Writes to different places come to the same in every order. -/
theorem run_perm (hp : ws.Perm vs) (hd : (ws.map key).Nodup) (hst : ∀ k, alike k s t)
    (h : ws.foldlM step s = .ok s') :
    ∃ t', vs.foldlM step t = .ok t' ∧ ∀ k, alike k s' t' := by
  induction hp generalizing s t s' with
  | nil => exact hl.run_alike hst h
  | cons w hp ih =>
    rw [List.map_cons, List.nodup_cons] at hd
    obtain ⟨mid, hw, hws⟩ := foldlM_cons_ok.mp h
    obtain ⟨mid', hw', hmid⟩ := hl.step_alike hst hw
    obtain ⟨t', ht, halike⟩ := ih hd.2 hmid hws
    exact ⟨t', foldlM_cons_ok.mpr ⟨mid', hw', ht⟩, halike⟩
  | swap w v ws =>
    have hne : key v ≠ key w := by
      intro he
      simp [he] at hd
    obtain ⟨mid, hv, h⟩ := foldlM_cons_ok.mp h
    obtain ⟨mid₂, hw, hws⟩ := foldlM_cons_ok.mp h
    obtain ⟨mid', t₂, hw', hv', hmid⟩ := hl.step_comm hne hst hv hw
    obtain ⟨t', ht, halike⟩ := hl.run_alike hmid hws
    exact ⟨t', foldlM_cons_ok.mpr ⟨mid', hw', foldlM_cons_ok.mpr ⟨t₂, hv', ht⟩⟩, halike⟩
  | trans hp hq ihp ihq =>
    obtain ⟨m, hm, hsm⟩ := ihp hd hst h
    obtain ⟨t', ht, hmt⟩ := ihq ((hp.map key).nodup_iff.mp hd)
      (fun k => (hl.equivalence k).refl t) hm
    exact ⟨t', ht, fun k => (hl.equivalence k).trans (hsm k) (hmt k)⟩

end Local

end Footprints
