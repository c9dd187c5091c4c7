import Mathlib.Data.List.Basic
import Trezarr.Lib.Unicode

/-! UTF-16 in either byte order: characters to units of sixteen bits, and units to bytes. -/
namespace Text.Utf16

inductive ByteOrder
  | little
  | big
  deriving DecidableEq, Repr

/-- Characters above the basic plane are a pair of surrogates. -/
def charUnits (c : Char) : List ℕ :=
  if c.toNat < 0x10000 then [c.toNat]
  else [0xD800 + (c.toNat - 0x10000) / 0x400, 0xDC00 + (c.toNat - 0x10000) % 0x400]

def decodeUnits? : List ℕ → Option Str
  | [] => some []
  | u :: units =>
    if u < 0xD800 ∨ 0xE000 ≤ u then (decodeUnits? units).map (Char.ofNat u :: ·)
    else match units with
      | [] => none
      | v :: units =>
        if u < 0xDC00 ∧ 0xDC00 ≤ v ∧ v < 0xE000 then
          (decodeUnits? units).map
            (Char.ofNat (0x10000 + (u - 0xD800) * 0x400 + (v - 0xDC00)) :: ·)
        else none

def unitBytes (order : ByteOrder) (u : ℕ) : List UInt8 :=
  match order with
  | .little => [UInt8.ofNat (u % 256), UInt8.ofNat (u / 256)]
  | .big => [UInt8.ofNat (u / 256), UInt8.ofNat (u % 256)]

def unitOf (order : ByteOrder) (a b : UInt8) : ℕ :=
  match order with
  | .little => a.toNat + 256 * b.toNat
  | .big => 256 * a.toNat + b.toNat

def units? (order : ByteOrder) : List UInt8 → Option (List ℕ)
  | [] => some []
  | [_] => none
  | a :: b :: data => (units? order data).map (unitOf order a b :: ·)

def encode (order : ByteOrder) (text : Str) : List UInt8 :=
  (text.flatMap charUnits).flatMap (unitBytes order)

def decode? (order : ByteOrder) (data : List UInt8) : Option Str :=
  (units? order data).bind decodeUnits?

theorem toNat_cases (c : Char) :
    c.toNat < 0xD800 ∨ 0xE000 ≤ c.toNat ∧ c.toNat < 0x110000 := by
  have hvalid : c.toNat.isValidChar := c.valid
  unfold Nat.isValidChar at hvalid
  omega

theorem decodeUnits?_append (c : Char) (units : List ℕ) :
    decodeUnits? (charUnits c ++ units) = (decodeUnits? units).map (c :: ·) := by
  have hvalid := toNat_cases c
  by_cases hbmp : c.toNat < 0x10000
  · have hsingle : c.toNat < 0xD800 ∨ 0xE000 ≤ c.toNat := by omega
    rw [charUnits, if_pos hbmp, List.singleton_append, decodeUnits?.eq_def]
    simp only [if_pos hsingle, Char.ofNat_toNat]
  · have hhigh : ¬ (0xD800 + (c.toNat - 0x10000) / 0x400 < 0xD800 ∨
        0xE000 ≤ 0xD800 + (c.toNat - 0x10000) / 0x400) := by omega
    have hpair : 0xD800 + (c.toNat - 0x10000) / 0x400 < 0xDC00 ∧
        0xDC00 ≤ 0xDC00 + (c.toNat - 0x10000) % 0x400 ∧
        0xDC00 + (c.toNat - 0x10000) % 0x400 < 0xE000 := by omega
    have hcode : 0x10000 + (0xD800 + (c.toNat - 0x10000) / 0x400 - 0xD800) * 0x400 +
        (0xDC00 + (c.toNat - 0x10000) % 0x400 - 0xDC00) = c.toNat := by omega
    rw [charUnits, if_neg hbmp, List.cons_append, List.singleton_append, decodeUnits?.eq_def]
    simp only [if_neg hhigh, if_pos hpair, hcode, Char.ofNat_toNat]

theorem decodeUnits?_flatMap (text : Str) : decodeUnits? (text.flatMap charUnits) = some text := by
  induction text with
  | nil => rfl
  | cons c text ih => rw [List.flatMap_cons, decodeUnits?_append, ih, Option.map_some]

theorem charUnits_lt (c : Char) : ∀ u ∈ charUnits c, u < 0x10000 := by
  have hvalid := toNat_cases c
  intro u hu
  unfold charUnits at hu
  split at hu
  next hbmp => simpa [List.mem_singleton.mp hu] using hbmp
  next hbmp =>
    simp only [List.mem_cons, List.not_mem_nil, or_false] at hu
    omega

theorem unitOf_unitBytes (order : ByteOrder) {u : ℕ} (h : u < 0x10000) :
    ∃ a b, unitBytes order u = [a, b] ∧ unitOf order a b = u := by
  have hbyte : ∀ n, n < 256 → (UInt8.ofNat n).toNat = n := fun n hn => UInt8.toNat_ofNat_of_lt' hn
  have hlow := hbyte (u % 256) (by omega)
  have hhigh := hbyte (u / 256) (by omega)
  cases order with
  | little =>
    refine ⟨_, _, rfl, ?_⟩
    simp only [unitOf, hlow, hhigh]
    omega
  | big =>
    refine ⟨_, _, rfl, ?_⟩
    simp only [unitOf, hlow, hhigh]
    omega

theorem units?_flatMap (order : ByteOrder) {units : List ℕ} (h : ∀ u ∈ units, u < 0x10000) :
    units? order (units.flatMap (unitBytes order)) = some units := by
  induction units with
  | nil => rfl
  | cons u units ih =>
    obtain ⟨a, b, hbytes, hunit⟩ := unitOf_unitBytes order (h u List.mem_cons_self)
    rw [List.flatMap_cons, hbytes]
    simp only [List.cons_append, List.nil_append, units?, hunit,
      ih fun v hv => h v (List.mem_cons_of_mem u hv), Option.map_some]

/-- Every text can be encoded and is read back. -/
theorem decode?_encode (order : ByteOrder) (text : Str) :
    decode? order (encode order text) = some text := by
  have hlt : ∀ u ∈ text.flatMap charUnits, u < 0x10000 := by
    intro u hu
    obtain ⟨c, _, hu⟩ := List.mem_flatMap.mp hu
    exact charUnits_lt c u hu
  rw [decode?, encode, units?_flatMap order hlt, Option.bind_some, decodeUnits?_flatMap]

theorem unitBytes_unitOf (order : ByteOrder) (a b : UInt8) :
    unitBytes order (unitOf order a b) = [a, b] ∧ unitOf order a b < 0x10000 := by
  have ha := a.toNat_lt
  have hb := b.toNat_lt
  cases order with
  | little =>
    have hlow : (a.toNat + 256 * b.toNat) % 256 = a.toNat := by omega
    have hhigh : (a.toNat + 256 * b.toNat) / 256 = b.toNat := by omega
    simp only [unitBytes, unitOf, hlow, hhigh, UInt8.ofNat_toNat, true_and]
    omega
  | big =>
    have hlow : (256 * a.toNat + b.toNat) % 256 = b.toNat := by omega
    have hhigh : (256 * a.toNat + b.toNat) / 256 = a.toNat := by omega
    simp only [unitBytes, unitOf, hlow, hhigh, UInt8.ofNat_toNat, true_and]
    omega

theorem flatMap_of_units? {order : ByteOrder} {data : List UInt8} : ∀ {units : List ℕ},
    units? order data = some units →
      units.flatMap (unitBytes order) = data ∧ ∀ u ∈ units, u < 0x10000 := by
  induction data using units?.induct with
  | case1 =>
    intro units h
    cases h
    simp
  | case2 a =>
    intro units h
    cases h
  | case3 a b data ih =>
    intro units h
    simp only [units?] at h
    obtain ⟨rest, hrest, rfl⟩ := Option.map_eq_some_iff.mp h
    obtain ⟨hbytes, hlt⟩ := ih hrest
    obtain ⟨hhere, hunit⟩ := unitBytes_unitOf order a b
    refine ⟨by simp [hbytes, hhere], ?_⟩
    intro u hu
    rcases List.mem_cons.mp hu with rfl | hu
    · exact hunit
    · exact hlt u hu

theorem charUnits_single {u : ℕ} (hlt : u < 0x10000) (h : u < 0xD800 ∨ 0xE000 ≤ u) :
    charUnits (Char.ofNat u) = [u] := by
  have hvalid : u.isValidChar := by
    unfold Nat.isValidChar
    omega
  rw [charUnits, toNat_charOfNat hvalid, if_pos hlt]

theorem charUnits_pair {u v : ℕ} (hu : ¬ (u < 0xD800 ∨ 0xE000 ≤ u))
    (h : u < 0xDC00 ∧ 0xDC00 ≤ v ∧ v < 0xE000) :
    charUnits (Char.ofNat (0x10000 + (u - 0xD800) * 0x400 + (v - 0xDC00))) = [u, v] := by
  have hvalid : (0x10000 + (u - 0xD800) * 0x400 + (v - 0xDC00)).isValidChar := by
    unfold Nat.isValidChar
    omega
  have hbmp : ¬ 0x10000 + (u - 0xD800) * 0x400 + (v - 0xDC00) < 0x10000 := by omega
  rw [charUnits, toNat_charOfNat hvalid, if_neg hbmp]
  simp only [List.cons.injEq, and_true]
  omega

theorem flatMap_of_decodeUnits? {units : List ℕ} : ∀ {text : Str}, decodeUnits? units = some text →
    (∀ u ∈ units, u < 0x10000) → text.flatMap charUnits = units := by
  induction units using decodeUnits?.induct with
  | case1 =>
    intro text h _
    cases h
    rfl
  | case2 u units hu ih =>
    intro text h hlt
    rw [decodeUnits?.eq_def] at h
    simp only [if_pos hu] at h
    obtain ⟨rest, hrest, rfl⟩ := Option.map_eq_some_iff.mp h
    have htail := ih hrest fun v hv => hlt v (List.mem_cons_of_mem u hv)
    rw [List.flatMap_cons, htail, charUnits_single (hlt u List.mem_cons_self) hu,
      List.singleton_append]
  | case3 u hu =>
    intro text h _
    rw [decodeUnits?.eq_def] at h
    simp only [if_neg hu] at h
    cases h
  | case4 u hu v units hpair ih =>
    intro text h hlt
    rw [decodeUnits?.eq_def] at h
    simp only [if_neg hu, if_pos hpair] at h
    obtain ⟨rest, hrest, rfl⟩ := Option.map_eq_some_iff.mp h
    have htail := ih hrest fun w hw => hlt w (List.mem_cons_of_mem u (List.mem_cons_of_mem v hw))
    rw [List.flatMap_cons, htail, charUnits_pair hu hpair]
    rfl
  | case5 u hu v units hpair =>
    intro text h _
    rw [decodeUnits?.eq_def] at h
    simp only [if_neg hu, if_neg hpair] at h
    cases h

/-- What can be decoded is encoded to the same bytes. -/
theorem encode_of_decode? {order : ByteOrder} {data : List UInt8} {text : Str}
    (h : decode? order data = some text) : encode order text = data := by
  obtain ⟨units, hunits, htext⟩ := Option.bind_eq_some_iff.mp h
  obtain ⟨hbytes, hlt⟩ := flatMap_of_units? hunits
  rw [encode, flatMap_of_decodeUnits? htext hlt, hbytes]

end Text.Utf16
