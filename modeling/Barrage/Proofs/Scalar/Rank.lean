import Barrage.Proofs.Scalar.Laws
import Mathlib

/-! # The rank of a single

Single precision numbers stand in a row. A number's rank is its place in that row, counted from zero
and with the number's sign; comparing numbers is comparing ranks. -/

namespace Barrage.Single

open Float.Model (Format UnpackedFloat totalExponent)
open Float.Model.UnpackedFloat

def top : ℤ := 255 * 2 ^ 23

/-- Numbers of the format are ranked by size: neighbours are one apart, and both zeros have rank
zero. -/
def rank : UnpackedFloat → ℤ
  | .infinity s => s.apply top
  | .notANumber => 0
  | .zero _ => 0
  | .finite s m e _ => s.apply ((e + 149) * 2 ^ 23 + m)

/-- A significand of 24 bits, all of which are used unless the exponent is the least one. -/
def Canonical : UnpackedFloat → Prop
  | .finite _ m e _ => -149 ≤ e ∧ e ≤ 104 ∧ m < 2 ^ 24 ∧ (-149 < e → 2 ^ 23 ≤ m)
  | _ => True

theorem toNat_one_append (v : BitVec 23) : (1#1 ++ v).toNat = 2 ^ 23 + v.toNat := by
  rw [BitVec.toNat_append, ← Nat.shiftLeft_add_eq_or_of_lt v.isLt]
  rfl

theorem unpack_canonical (b : BitVec Format.binary32.numBits) : Canonical (unpack .binary32 b) := by
  have hm : (unpackMantissa b).toNat < 2 ^ 23 := (unpackMantissa b).isLt
  have he : (unpackExponent b).toNat < 2 ^ 8 := (unpackExponent b).isLt
  unfold unpack
  dsimp only
  split
  · split <;> trivial
  · next hall =>
    split
    · next hzero =>
      split
      · trivial
      · rw [hzero]
        simp [Canonical, Format.exponentBias]
        omega
    · next hpos =>
      have h1 : (unpackExponent b).toNat ≠ 255 := fun h => hall (BitVec.eq_of_toNat_eq h)
      have h0 : (unpackExponent b).toNat ≠ 0 := fun h => hpos (BitVec.eq_of_toNat_eq h)
      simp only [Canonical, Format.exponentBias, toNat_one_append]
      norm_num
      omega

theorem unpackSign_packComponents (s : Sign) (e : BitVec 8) (m : BitVec 23) :
    Sign.ofBitVec (unpackSign (packComponents .binary32 s e m)) = s := by
  have h : unpackSign (packComponents .binary32 s e m) = s.toBitVec := by
    ext i hi
    obtain rfl : i = 0 := by omega
    simp only [unpackSign, packComponents, BitVec.getElem_cast, BitVec.extractLsb,
      BitVec.getElem_extractLsb']
    change (s.toBitVec ++ e ++ m).getLsbD 31 = _
    rw [BitVec.getLsbD_append, BitVec.getLsbD_append]
    simp
  rw [h]
  cases s <;> rfl

theorem ofNat_ne {w k : ℕ} {v : BitVec w} (hk : k < 2 ^ w) (h : k ≠ v.toNat) :
    BitVec.ofNat w k ≠ v := by
  intro he
  apply h
  rw [← he, BitVec.toNat_ofNat, Nat.mod_eq_of_lt hk]

theorem packed_normal {s : Sign} {m : ℕ} {e : ℤ} (hlo : 2 ^ 23 ≤ m) (hhi : m < 2 ^ 24)
    (he : -149 ≤ e) (htop : e ≤ 104) :
    unpack .binary32
      (packComponents .binary32 s (BitVec.ofNat 8 (e + 150).toNat) (BitVec.ofNat 23 m)) =
      .finite s m e (by omega) := by
  have hexp : (BitVec.ofNat 8 (e + 150).toNat).toNat = (e + 150).toNat := by
    rw [BitVec.toNat_ofNat, Nat.mod_eq_of_lt (by omega)]
  have hrest : (BitVec.ofNat 23 m).toNat = m - 2 ^ 23 := by
    rw [BitVec.toNat_ofNat, Nat.mod_eq_sub_mod hlo, Nat.mod_eq_of_lt (by omega)]
  have h255 : BitVec.ofNat 8 (e + 150).toNat ≠ -1#8 :=
    ofNat_ne (by omega) (show (e + 150).toNat ≠ 255 by omega)
  have h0 : BitVec.ofNat 8 (e + 150).toNat ≠ 0#8 :=
    ofNat_ne (by omega) (show (e + 150).toNat ≠ 0 by omega)
  unfold unpack
  simp only [unpackExponent_packComponents, unpackMantissa_packComponents,
    unpackSign_packComponents]
  rw [if_neg h255, if_neg h0]
  simp only [UnpackedFloat.finite.injEq, toNat_one_append, true_and]
  rw [hrest, hexp]
  constructor
  · omega
  · norm_num [Format.exponentBias]
    omega

theorem packed_subnormal {s : Sign} {m : ℕ} (hpos : 0 < m) (hlt : m < 2 ^ 23) :
    unpack .binary32 (packComponents .binary32 s 0#8 (BitVec.ofNat 23 m)) =
      .finite s m (-149) hpos := by
  have hm : (BitVec.ofNat 23 m).toNat = m := by
    rw [BitVec.toNat_ofNat, Nat.mod_eq_of_lt hlt]
  have h0 : BitVec.ofNat 23 m ≠ 0#23 := ofNat_ne hlt (show m ≠ 0 by omega)
  unfold unpack
  simp only [unpackExponent_packComponents, unpackMantissa_packComponents,
    unpackSign_packComponents]
  rw [if_neg (by decide), if_pos trivial, dif_neg h0]
  simp only [UnpackedFloat.finite.injEq, true_and, hm]
  norm_num [Format.exponentBias]

theorem bias_eq (e : ℤ) : e + (Format.binary32.exponentBias : ℤ) + (23 : ℕ) = e + 150 := by
  norm_num [Format.exponentBias]
  omega

theorem unpack_pack {u : UnpackedFloat} (hu : Canonical u) :
    unpack .binary32 (pack .binary32 u) = u := by
  cases u with
  | notANumber => rfl
  | infinity s => cases s <;> rfl
  | zero s => cases s <;> rfl
  | finite s m e h =>
    obtain ⟨hle, htop, hm, hnormal⟩ := hu
    unfold pack
    simp only [bias_eq]
    rw [if_neg (by omega)]
    split
    · next hbits =>
      have hlog : m.log2 = 23 := by simpa [Format.mantissaBits] using hbits
      have hlo : 2 ^ 23 ≤ m := by
        rw [← hlog]
        exact Nat.log2_self_le (by omega)
      exact packed_normal hlo hm hle htop
    · next hbits =>
      have hlog : m.log2 ≠ 23 := by simpa [Format.mantissaBits] using hbits
      have hlt : m < 2 ^ 23 := by
        by_contra hge
        exact hlog ((Nat.log2_eq_iff (by omega)).2 ⟨by omega, hm⟩)
      obtain rfl : e = -149 := by omega
      exact packed_subnormal h hlt

theorem unpack_pack_of_lt {s : Sign} {m : ℕ} {e : ℤ} {h : 0 < m} (he : 104 < e) :
    unpack .binary32 (pack .binary32 (.finite s m e h)) = .infinity s := by
  have hpack : pack .binary32 (.finite s m e h) = packedInfinity .binary32 s := by
    unfold pack
    simp only [bias_eq]
    rw [if_pos (by omega)]
  rw [hpack]
  cases s <;> rfl

theorem isNaN_unpack_components {s : Sign} {e : BitVec 8} {m : BitVec 23}
    (h : e = -1#8 → m = 0#23) :
    (unpack .binary32 (packComponents .binary32 s e m)).isNaN = false := by
  unfold unpack
  simp only [unpackExponent_packComponents, unpackMantissa_packComponents]
  split
  · next he => rw [if_pos (h he)]; rfl
  · split
    · split <;> rfl
    · rfl

theorem isNaN_unpack_pack {u : UnpackedFloat} (hu : u.isNaN = false) :
    (unpack .binary32 (pack .binary32 u)).isNaN = false := by
  cases u with
  | notANumber => cases hu
  | infinity s => cases s <;> rfl
  | zero s => cases s <;> rfl
  | finite s m e h =>
    unfold pack
    dsimp only
    split_ifs with htop
    · exact isNaN_unpack_components fun _ => rfl
    · refine isNaN_unpack_components fun he => ?_
      have hlt := congrArg BitVec.toNat he
      rw [BitVec.toNat_ofNat, Nat.mod_eq_of_lt (by omega)] at hlt
      change _ = 255 at hlt
      omega
    · exact isNaN_unpack_components nofun

/-! ## Order -/

theorem compare_parts {m n : ℕ} {e f : ℤ} (hm : m < 2 ^ 24) (hn : n < 2 ^ 24)
    (he : -149 < e → 2 ^ 23 ≤ m) (hf : -149 < f → 2 ^ 23 ≤ n) (hle : -149 ≤ e) (hlf : -149 ≤ f) :
    (compare e f).then (compare m n) =
      compare ((e + 149) * 2 ^ 23 + m : ℤ) ((f + 149) * 2 ^ 23 + n) := by
  rcases lt_trichotomy e f with h | rfl | h
  · have hr : (e + 149) * 2 ^ 23 + m < (f + 149) * 2 ^ 23 + n := by omega
    rw [compare_lt_iff_lt.2 h, compare_lt_iff_lt.2 hr]
    rfl
  · rcases lt_trichotomy m n with h | rfl | h
    · rw [compare_eq_iff_eq.2 rfl, compare_lt_iff_lt.2 h, compare_lt_iff_lt.2 (by omega)]; rfl
    · simp
    · rw [compare_eq_iff_eq.2 rfl, compare_gt_iff_gt.2 h, compare_gt_iff_gt.2 (by omega)]; rfl
  · have hr : (e + 149) * 2 ^ 23 + m > (f + 149) * 2 ^ 23 + n := by omega
    rw [compare_gt_iff_gt.2 h, compare_gt_iff_gt.2 hr]
    rfl

theorem compare_neg_neg (a b : ℤ) : compare (-a) (-b) = (compare a b).swap := by
  rcases lt_trichotomy a b with h | rfl | h
  · rw [compare_lt_iff_lt.2 h, compare_gt_iff_gt.2 (by omega)]; rfl
  · simp
  · rw [compare_gt_iff_gt.2 h, compare_lt_iff_lt.2 (by omega)]; rfl

theorem rank_abs_lt {s : Sign} {m : ℕ} {e : ℤ} {h : 0 < m} (hu : Canonical (.finite s m e h)) :
    0 < (e + 149) * 2 ^ 23 + m ∧ (e + 149) * 2 ^ 23 + m < top := by
  obtain ⟨h1, h2, h3, h4⟩ := hu
  unfold top
  omega

/-- Numbers are compared by rank. -/
theorem compare_eq {x y : UnpackedFloat} (hx : Canonical x) (hy : Canonical y)
    (nx : x.isNaN = false) (ny : y.isNaN = false) :
    x.compare y = some (compare (rank x) (rank y)) := by
  have htop : 0 < top := by decide
  cases x with
  | notANumber => cases nx
  | infinity s =>
    cases y with
    | notANumber => cases ny
    | infinity t => cases s <;> cases t <;> rfl
    | zero t => cases s <;> rfl
    | finite t n f k =>
      have hb := rank_abs_lt hy
      cases s <;> cases t <;> simp only [UnpackedFloat.compare, rank, Sign.apply]
      · rw [compare_lt_iff_lt.2 (by omega)]
      · rw [compare_lt_iff_lt.2 (by omega)]
      · rw [compare_gt_iff_gt.2 (by omega)]
      · rw [compare_gt_iff_gt.2 (by omega)]
  | zero s =>
    cases y with
    | notANumber => cases ny
    | infinity t => cases t <;> rfl
    | zero t => rfl
    | finite t n f k =>
      have hb := rank_abs_lt hy
      cases t <;> simp only [UnpackedFloat.compare, rank, Sign.apply]
      · rw [compare_gt_iff_gt.2 (by omega)]
      · rw [compare_lt_iff_lt.2 (by omega)]
  | finite s m e h =>
    have ha := rank_abs_lt hx
    cases y with
    | notANumber => cases ny
    | infinity t =>
      cases s <;> cases t <;> simp only [UnpackedFloat.compare, rank, Sign.apply]
      · rw [compare_gt_iff_gt.2 (by omega)]
      · rw [compare_lt_iff_lt.2 (by omega)]
      · rw [compare_gt_iff_gt.2 (by omega)]
      · rw [compare_lt_iff_lt.2 (by omega)]
    | zero t =>
      cases s <;> simp only [UnpackedFloat.compare, rank, Sign.apply]
      · rw [compare_lt_iff_lt.2 (by omega)]
      · rw [compare_gt_iff_gt.2 (by omega)]
    | finite t n f k =>
      have hb := rank_abs_lt hy
      obtain ⟨hle, -, hm, he⟩ := hx
      obtain ⟨hlf, -, hn, hf⟩ := hy
      -- the parts decide between finite numbers of one sign only
      cases s <;> cases t <;> simp only [UnpackedFloat.compare, rank, Sign.apply]
      · rw [compare_parts hm hn he hf hle hlf, compare_neg_neg]
      · rw [compare_lt_iff_lt.2 (by omega)]
      · rw [compare_gt_iff_gt.2 (by omega)]
      · rw [compare_parts hm hn he hf hle hlf]

theorem compare_of_isNaN {x y : UnpackedFloat} (h : x.isNaN = true ∨ y.isNaN = true) :
    x.compare y = none := by
  rcases h with h | h
  · cases x <;> first | rfl | cases h
  · cases x <;> cases y <;> first | rfl | cases h

theorem isNaN_of_isFinite {x : UnpackedFloat} (h : x.isFinite = true) : x.isNaN = false := by
  cases x <;> first | rfl | cases h

theorem rank_lt_top {x : UnpackedFloat} (hx : Canonical x) (h : x.isFinite = true) :
    -top < rank x ∧ rank x < top := by
  cases x with
  | notANumber => cases h
  | infinity s => cases h
  | zero s => exact ⟨show -top < 0 by decide, show 0 < top by decide⟩
  | finite s m e hm =>
    have hb := rank_abs_lt hx
    cases s <;> simp only [rank, Sign.apply] <;> omega

theorem finite_of_rank {x : UnpackedFloat} (hx : x.isNaN = false) (hlo : -top < rank x)
    (hhi : rank x < top) : x.isFinite = true := by
  cases x with
  | notANumber => cases hx
  | infinity s => cases s <;> simp only [rank, Sign.apply] at hlo hhi <;> omega
  | zero s => rfl
  | finite s m e hm => rfl

end Barrage.Single
