import Barrage.Pattern.Packed
import Mathlib

/-! # Packed patterns

Ten digits and a texture make a number, and every number of 64 bits is made by exactly one choice of
them. A texture that is too large makes the largest number instead, and only then is anything lost
in packing. -/

namespace Barrage.Pattern

/-! ## Words -/

theorem toNat_saturatingAdd (a b : UInt64) :
    (saturatingAdd a b).toNat = min (a.toNat + b.toNat) (UInt64.size - 1) :=
  UInt64.toNat_ofNat_of_lt (by simp [UInt64.size])

theorem toNat_saturatingMul (a b : UInt64) :
    (saturatingMul a b).toNat = min (a.toNat * b.toNat) (UInt64.size - 1) :=
  UInt64.toNat_ofNat_of_lt (by simp [UInt64.size])

theorem toNat_decrement (a : UInt64) : (if a = 0 then 0 else a - 1).toNat = a.toNat - 1 := by
  split
  · rename_i h
    subst h
    rfl
  · rename_i h
    have hone : (1 : UInt64) ≤ a := by
      rw [UInt64.le_iff_toNat_le]
      exact Nat.pos_of_ne_zero fun hzero => h (UInt64.toNat_inj.1 hzero)
    rw [UInt64.toNat_sub_of_le _ _ hone]
    rfl

def mul? (a b : UInt64) : Option UInt64 :=
  if a.toNat * b.toNat < UInt64.size then some (a * b) else none

theorem mul?_eq {a b : UInt64} (h : a.toNat * b.toNat < UInt64.size) :
    mul? a b = some (a * b) := if_pos h

theorem toNat_mul_of_lt {a b : UInt64} (h : a.toNat * b.toNat < UInt64.size) :
    (a * b).toNat = a.toNat * b.toNat := by
  rw [UInt64.toNat_mul]
  exact Nat.mod_eq_of_lt h

/-! ## Decimal places -/

theorem ofDigits_ofFn {n : ℕ} (b : ℕ) (g : Fin n → ℕ) :
    Nat.ofDigits b (List.ofFn g) = ∑ i, g i * b ^ i.val := by
  induction n with
  | zero => simp
  | succ n ih =>
    rw [List.ofFn_succ, Nat.ofDigits_cons, ih, Fin.sum_univ_succ, Finset.mul_sum]
    congr 1
    · simp
    · refine Finset.sum_congr rfl fun i _ => ?_
      rw [Fin.val_succ, pow_succ]
      ring

/-- A number is made again by its lowest digits and what is above them. -/
theorem sum_range_digits (b n k : ℕ) :
    n / b ^ k * b ^ k + ∑ i ∈ Finset.range k, n / b ^ i % b * b ^ i = n := by
  induction k with
  | zero => simp
  | succ k ih =>
    have hdiv : n / b ^ (k + 1) * b ^ (k + 1) + n / b ^ k % b * b ^ k = n / b ^ k * b ^ k := by
      rw [pow_succ, ← Nat.div_div_eq_div_mul, mul_comm (b ^ k) b, ← mul_assoc, ← add_mul,
        Nat.div_add_mod']
    rw [Finset.sum_range_succ]
    omega

/-! ## Edits -/

def Field.limit (field : Field) : ℕ := if field = .texture then UInt64.size - 1 else 9

theorem Field.place_injective : Function.Injective Field.place := by
  intro a b h
  cases a <;> cases b <;> first | rfl | exact absurd h (by decide)

def Change.amend (limit n : ℕ) : Change → ℕ
  | set value => min value.toNat limit
  | increment => min (n + 1) limit
  | decrement => n - 1

inductive Revision where
  | set (field : Field) (value : UInt64)
  | apply (edit : Edit)

namespace Revision

def edit : Revision → Edit
  | set field value => ⟨field, .set value⟩
  | apply edit => edit

def amend (numbers : Field → ℕ) (r : Revision) : Field → ℕ :=
  Function.update numbers r.edit.field
    (r.edit.change.amend r.edit.field.limit (numbers r.edit.field))

end Revision

namespace Fields

def revise (f : Fields) : Revision → Fields
  | .set field value => f.set field value
  | .apply edit => f.apply edit

theorem revise_eq_apply (f : Fields) (r : Revision) : f.revise r = f.apply r.edit := by
  cases r <;> rfl

def number (f : Fields) (field : Field) : ℕ := (f.get field).toNat

theorem number_eq (f : Fields) (field : Field) :
    f.number field = (field.place.map fun place => (f.digits.get place).val).getD
      f.texture.toNat := by
  unfold number get
  split <;> rename_i h
  · rw [h]
    exact UInt64.toNat_ofNat_of_lt (by simp only [UInt64.size]; omega)
  · rw [h]
    rfl

def entered (digits : List ℕ) (texture : UInt64) (field : Field) : ℕ :=
  match field.place with
  | some place => min (digits.getD place 0) 9
  | none => texture.toNat

theorem number_ofDigits (digits : List ℕ) (texture : UInt64) :
    (ofDigits digits texture).number = entered digits texture := by
  funext field
  rw [number_eq]
  cases field <;> simp [entered, Field.place, ofDigits, Digit.ofNat]

theorem number_le_limit (f : Fields) (field : Field) : f.number field ≤ field.limit := by
  have htexture := UInt64.toNat_lt f.texture
  rw [number_eq]
  cases field <;> simp [Field.place, Field.limit, UInt64.size] <;> omega

theorem number_set (f : Fields) (field : Field) (value : UInt64) :
    (f.set field value).number = Function.update f.number field (min value.toNat field.limit) := by
  funext other
  have hvalue := UInt64.toNat_lt value
  rw [Function.update_apply, number_eq, number_eq]
  by_cases h : other = field
  · subst h
    cases other <;> simp [set, Field.place, Field.limit, Digit.ofNat, UInt64.size,
      Vector.get_eq_getElem]
    omega
  · have hplace : other.place ≠ field.place := fun hplace => h (Field.place_injective hplace)
    rw [if_neg h]
    -- Another field has another place, or is the texture, and a change of one leaves the other
    -- alone.
    unfold set
    split
    · rename_i place hfield
      cases hother : other.place with
      | none => rfl
      | some otherPlace =>
        have hne : place ≠ otherPlace := fun heq => hplace (by rw [hother, hfield, heq])
        simp [Vector.get_eq_getElem, Vector.getElem_set_ne, Fin.val_ne_of_ne hne]
    · rename_i hfield
      cases hother : other.place with
      | none => exact absurd (hother.trans hfield.symm) hplace
      | some otherPlace => rfl

theorem number_apply (f : Fields) (edit : Edit) :
    (f.apply edit).number =
      Function.update f.number edit.field (edit.change.amend edit.field.limit
        (f.number edit.field)) := by
  have hlimit := f.number_le_limit edit.field
  have hsize : edit.field.limit ≤ UInt64.size - 1 := by
    unfold Field.limit
    split <;> simp [UInt64.size]
  unfold apply
  cases hchange : edit.change with
  | set value => exact number_set ..
  | increment =>
    have hone : (1 : UInt64).toNat = 1 := rfl
    simp only [number_set, toNat_saturatingAdd, hone, Change.amend]
    rw [min_assoc, min_eq_right hsize]
    rfl
  | decrement =>
    simp only [number_set, toNat_decrement, Change.amend]
    congr 1
    exact min_eq_left ((Nat.sub_le _ _).trans hlimit)

theorem number_revisions (f : Fields) (revisions : List Revision) :
    (revisions.foldl revise f).number = revisions.foldl Revision.amend f.number := by
  induction revisions generalizing f with
  | nil => rfl
  | cons r revisions ih =>
    rw [List.foldl_cons, List.foldl_cons, ih, revise_eq_apply, number_apply, Revision.amend]

/-! ## The number of the fields -/

def amount (f : Fields) : ℕ :=
  f.texture.toNat * 10 ^ 10 + ∑ i : Fin 10, (f.digits.get i).val * 10 ^ i.val

def numerals (f : Fields) : List ℕ := f.digits.toList.map Fin.val

theorem length_numerals (f : Fields) : f.numerals.length = 10 := by simp [numerals]

theorem numerals_lt (f : Fields) : ∀ d ∈ f.numerals, d < 10 := by
  intro d hd
  obtain ⟨digit, -, rfl⟩ := List.mem_map.1 hd
  exact digit.isLt

theorem amount_eq (f : Fields) :
    f.amount = f.texture.toNat * 10 ^ 10 + Nat.ofDigits 10 f.numerals := by
  have hdigits : f.numerals = List.ofFn fun i : Fin 10 => (f.digits.get i).val := by
    apply List.ext_getElem
    · rw [length_numerals, List.length_ofFn]
    · intro i hi hi'
      rw [List.getElem_ofFn]
      simp only [numerals, List.getElem_map, Vector.getElem_toList]
      rfl
  rw [hdigits, ofDigits_ofFn, amount]

theorem amount_injective : Function.Injective amount := by
  intro f g h
  have hf := Nat.ofDigits_lt_base_pow_length (by decide) f.numerals_lt
  have hg := Nat.ofDigits_lt_base_pow_length (by decide) g.numerals_lt
  rw [length_numerals] at hf hg
  rw [amount_eq, amount_eq] at h
  have htexture : f.texture.toNat = g.texture.toNat := by omega
  have hnumerals : f.numerals = g.numerals :=
    Nat.ofDigits_inj_of_len_eq (by decide) (by rw [length_numerals, length_numerals]) f.numerals_lt
      g.numerals_lt (by omega)
  have hdigits : f.digits = g.digits :=
    Vector.toList_inj.1 (List.map_injective_iff.2 Fin.val_injective hnumerals)
  cases f
  cases g
  exact congrArg₂ mk hdigits (UInt64.toNat_inj.1 htexture)

theorem amount_unpack (p : Packed) : (unpack p).amount = p.code.toNat := by
  have hplace : texturePlace.toNat = 10 ^ 10 := by simp [texturePlace]
  rw [amount, unpack, UInt64.toNat_div, hplace]
  simp only [Vector.get_ofFn]
  rw [Fin.sum_univ_eq_sum_range (fun i => p.code.toNat / Nat.pow 10 i % 10 * 10 ^ i)]
  exact sum_range_digits ..

/-! ## Packing -/

/-- Adds digits as `addDigits` does, and gives up where a product overflows. -/
def addDigits? (place : UInt64) : List Digit → UInt64 → Option UInt64
  | [], value => some value
  | d :: digits, value => do
    let part ← mul? (UInt64.ofNat d.val) place
    let next ← mul? place 10
    addDigits? next digits (saturatingAdd value part)

def pack? (f : Fields) : Option Packed :=
  (addDigits? 1 f.digits.toList (saturatingMul f.texture texturePlace)).map Packed.mk

/-- As long as the places stay in the word, so do all products, and the sum stops at the largest
word. -/
theorem addDigits_spec (digits : List Digit) (place value : UInt64)
    (hplace : place.toNat * 10 ^ digits.length ≤ 10 ^ 10) :
    addDigits? place digits value = some (addDigits place digits value) ∧
      (addDigits place digits value).toNat =
        min (value.toNat + place.toNat * Nat.ofDigits 10 (digits.map Fin.val))
          (UInt64.size - 1) := by
  -- The place after the last digit is worked out as well, so the bound includes it.
  induction digits generalizing place value with
  | nil =>
    have hvalue := UInt64.toNat_lt value
    refine ⟨rfl, ?_⟩
    simp only [addDigits, List.map_nil, Nat.ofDigits_nil, UInt64.size]
    omega
  | cons d digits ih =>
    have hten : (10 : UInt64).toNat = 10 := rfl
    have hdigit : (UInt64.ofNat d.val).toNat = d.val :=
      UInt64.toNat_ofNat_of_lt (by simp only [UInt64.size]; omega)
    have hplaces : place.toNat * 10 * 10 ^ digits.length ≤ 10 ^ 10 := by
      rwa [List.length_cons, pow_succ', ← mul_assoc] at hplace
    have hbound : place.toNat * 10 ≤ 10 ^ 10 :=
      (Nat.le_mul_of_pos_right _ (by positivity)).trans hplaces
    have hnext : place.toNat * (10 : UInt64).toNat < UInt64.size := by
      rw [hten, UInt64.size]
      omega
    have hpart : (UInt64.ofNat d.val).toNat * place.toNat < UInt64.size := by
      rw [hdigit]
      calc d.val * place.toNat ≤ 10 * place.toNat := Nat.mul_le_mul_right _ d.isLt.le
        _ = place.toNat * 10 := mul_comm ..
        _ < UInt64.size := hnext
    obtain ⟨hsome, hsum⟩ := ih (place * 10) (saturatingAdd value (UInt64.ofNat d.val * place)) (by
      rwa [toNat_mul_of_lt hnext])
    constructor
    · simp [addDigits?, mul?_eq hpart, mul?_eq hnext, hsome, addDigits]
    · rw [addDigits, hsum, toNat_saturatingAdd, toNat_mul_of_lt hnext, toNat_mul_of_lt hpart,
        hdigit, hten, List.map_cons, Nat.ofDigits_cons, mul_assoc, mul_add, mul_comm d.val]
      omega

/-- A texture that saturates already makes the largest number, and digits do not change it any
more. -/
theorem pack_spec (f : Fields) :
    f.pack? = some f.pack ∧ f.pack.code.toNat = min f.amount (UInt64.size - 1) := by
  obtain ⟨hsome, hsum⟩ := addDigits_spec f.digits.toList 1
    (saturatingMul f.texture texturePlace) (by simp)
  have hone : (1 : UInt64).toNat = 1 := rfl
  have hplace : texturePlace.toNat = 10 ^ 10 := by simp [texturePlace]
  constructor
  · rw [pack?, hsome, Option.map_some, pack]
  · rw [pack, hsum, toNat_saturatingMul, amount_eq, hone, hplace, numerals, one_mul]
    generalize f.texture.toNat * 10 ^ 10 = texture
    generalize Nat.ofDigits 10 _ = rest
    omega

theorem pack_unpack (p : Packed) : (unpack p).pack = p := by
  have hcode := UInt64.toNat_lt p.code
  have hpack := (unpack p).pack_spec.2
  rw [amount_unpack, min_eq_left (by rw [UInt64.size]; omega)] at hpack
  exact congrArg Packed.mk (UInt64.toNat_inj.1 hpack)

theorem unpack_pack_iff (f : Fields) : unpack f.pack = f ↔ f.amount ≤ UInt64.size - 1 := by
  rw [← amount_injective.eq_iff, amount_unpack, f.pack_spec.2]
  exact min_eq_left_iff

/-- Packing undoes unpacking. Whatever fields are revised, digits stop at nine and the texture at
the largest word; what the fields then make is packed without an overflow on the way, and comes back
out of the pack unless it is more than a word. -/
theorem packing_loses_only_by_saturation :
    (∀ p : Packed, (unpack p).pack = p) ∧
      ∀ (digits : List ℕ) (texture : UInt64) (revisions : List Revision),
        let f := revisions.foldl revise (ofDigits digits texture)
        f.number = revisions.foldl Revision.amend (entered digits texture) ∧
          (∀ field, f.number field ≤ field.limit) ∧
          f.pack? = some f.pack ∧
          f.pack.code.toNat = min f.amount (2 ^ 64 - 1) ∧
          (unpack f.pack = f ↔ f.amount ≤ 2 ^ 64 - 1) := by
  refine ⟨pack_unpack, fun digits texture revisions => ?_⟩
  intro f
  obtain ⟨hsome, hcode⟩ := f.pack_spec
  refine ⟨?_, f.number_le_limit, hsome, hcode, f.unpack_pack_iff⟩
  rw [number_revisions, number_ofDigits]

end Fields

end Barrage.Pattern
