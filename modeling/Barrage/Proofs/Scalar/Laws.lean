import Barrage.Scalar.Exact
import Barrage.Scheduler

/-! # Laws of order

Arithmetic promises no law by itself. Whether a group's first enemy comes in time rests on the few
below, which single precision keeps in spite of its rounding. A number is defined when it can be
compared. -/

namespace Barrage.Scalar

def Defined {α : Type} [Scalar α] (x : α) : Prop := x ≤ x

class Ordered (α : Type) [Scalar α] : Prop where
  le_trans {a b c : α} : a ≤ b → b ≤ c → a ≤ c
  defined_of_le {a b : α} : a ≤ b → Defined a ∧ Defined b
  le_of_not_lt {a b : α} : Defined a → Defined b → ¬ b < a → a ≤ b
  zero_defined : Defined (0 : α)
  add_defined {a b : α} : isFinite a = true → Defined b → Defined (a + b)
  sub_defined {a b : α} : isFinite a = true → Defined b → Defined (a - b)
  finite_of_le {a b : α} : isFinite b = true → 0 ≤ a → a ≤ b → isFinite a = true
  /-- Rounding twice does not lose more than the tolerance of a scheduler. -/
  le_add_tolerance {d : α} : isFinite d = true → 0 ≤ d → d ≤ 0 + d + Scheduler.tolerance

variable {α : Type} [Scalar α] [Ordered α] {x hi o : α}

theorem defined_max_zero (x : α) : Defined (max x 0) := by
  unfold max
  split_ifs with hle hge hx
  · exact Ordered.zero_defined
  · exact (Ordered.defined_of_le hge).2
  · exact hx
  · exact Ordered.zero_defined

theorem clamp_between (hx : Defined x) (h : clamp x 0 hi = .ok o) : 0 ≤ o ∧ o ≤ hi := by
  unfold clamp at h
  split at h
  · next hle =>
    obtain ⟨hzero, hhi⟩ := Ordered.defined_of_le hle
    have ho := Except.ok.inj h
    split_ifs at ho with hlt hgt
    · exact ho ▸ ⟨hzero, hle⟩
    · exact ho ▸ ⟨hle, hhi⟩
    · exact ho ▸ ⟨Ordered.le_of_not_lt hzero hx hlt, Ordered.le_of_not_lt hx hhi hgt⟩
  · cases h

/-- Here what is less is also at most as large. -/
class Linear (α : Type) [Scalar α] : Prop extends Ordered α where
  le_of_lt {a b : α} : a < b → a ≤ b

theorem zero_le_max {α : Type} [Scalar α] [Linear α] (x : α) : 0 ≤ max x 0 := by
  have hzero : Defined (0 : α) := Ordered.zero_defined
  unfold max
  split_ifs with hle hge hx
  · exact hzero
  · exact hge
  · have hlt : x < 0 := by
      by_contra hnot
      exact hge (Ordered.le_of_not_lt hzero hx hnot)
    exact absurd (Linear.le_of_lt hlt) hle
  · exact hzero

/-- Here what is less is not also at least as large. -/
class Strict (α : Type) [Scalar α] : Prop extends Linear α where
  not_le_of_lt {a b : α} : a < b → ¬ b ≤ a

section

variable {α : Type} [Scalar α] [Strict α] {a b c : α}

theorem defined_of_lt (h : a < b) : Defined a ∧ Defined b :=
  Ordered.defined_of_le (Linear.le_of_lt h)

theorem lt_of_le_of_lt (hab : a ≤ b) (hbc : b < c) : a < c := by
  by_contra hnot
  have hca : c ≤ a := Ordered.le_of_not_lt (defined_of_lt hbc).2 (Ordered.defined_of_le hab).1 hnot
  exact Strict.not_le_of_lt hbc (Ordered.le_trans hca hab)

theorem lt_of_lt_of_le (hab : a < b) (hbc : b ≤ c) : a < c := by
  by_contra hnot
  have hca : c ≤ a := Ordered.le_of_not_lt (Ordered.defined_of_le hbc).2 (defined_of_lt hab).1 hnot
  exact Strict.not_le_of_lt hab (Ordered.le_trans hbc hca)

theorem not_lt_iff (ha : Defined a) (hb : Defined b) : ¬ b < a ↔ a ≤ b :=
  ⟨Ordered.le_of_not_lt ha hb, fun hab hba => Strict.not_le_of_lt hba hab⟩

end

end Barrage.Scalar

namespace Barrage.Exact

theorem defined_iff {x : Exact} : Scalar.Defined x ↔ x ≠ undefined := by
  cases x with
  | finite a => simp [Scalar.Defined]
  | infinite s => cases s <;> exact ⟨nofun, fun _ => rfl⟩
  | undefined => exact ⟨nofun, fun h => absurd rfl h⟩

theorem ble_trans {a b c : Exact} (hab : ble a b = true) (hbc : ble b c = true) :
    ble a c = true := by
  cases a with
  | finite p =>
    cases b <;> cases c <;> simp_all [ble]
    exact hab.trans hbc
  | infinite s =>
    cases b <;> cases c <;> simp_all [ble]
    grind
  | undefined => cases hab

theorem ble_of_not_blt {a b : Exact} (ha : a ≠ undefined) (hb : b ≠ undefined)
    (h : ¬ blt b a = true) : ble a b = true := by
  cases a <;> cases b <;> simp_all [ble, blt]
  grind

instance : Scalar.Ordered Exact where
  le_trans := ble_trans
  defined_of_le {a b} h := by
    change ble a b = true at h
    rw [defined_iff, defined_iff]
    constructor
    · rintro rfl
      cases h
    · rintro rfl
      cases a <;> cases h
  le_of_not_lt ha hb h := ble_of_not_blt (defined_iff.1 ha) (defined_iff.1 hb) h
  zero_defined := defined_iff.2 nofun
  add_defined {a b} ha hb := by
    obtain ⟨p, rfl⟩ := isFinite_eq.1 ha
    cases b with
    | undefined => exact absurd rfl (defined_iff.1 hb)
    | _ => exact defined_iff.2 nofun
  sub_defined {a b} ha hb := by
    obtain ⟨p, rfl⟩ := isFinite_eq.1 ha
    cases b with
    | undefined => exact absurd rfl (defined_iff.1 hb)
    | _ => exact defined_iff.2 nofun
  finite_of_le {a b} hb h0 hab := by
    obtain ⟨p, rfl⟩ := isFinite_eq.1 hb
    cases a with
    | finite q => rfl
    | infinite s => cases s <;> contradiction
    | undefined => cases hab
  le_add_tolerance {d} hd _ := by
    obtain ⟨p, rfl⟩ := isFinite_eq.1 hd
    have htolerance : (Scheduler.tolerance : Exact) = finite (1 / 100000) := by
      simp [Scheduler.tolerance]
    rw [htolerance]
    simp

instance : Scalar.Linear Exact where
  le_of_lt {a b} h := by
    change blt a b = true at h
    change ble a b = true
    cases a <;> cases b <;> simp_all [ble, blt]
    exact le_of_lt h

instance : Scalar.Strict Exact where
  not_le_of_lt {a b} h := by
    change blt a b = true at h
    change ¬ ble b a = true
    cases a <;> cases b <;> simp_all [ble, blt]

end Barrage.Exact
