import Barrage.Level.Pool
import Barrage.Scalar.Exact

/-! # Places on an edge

The factors of a group are joined by straight lines, and its members stand on them at equal
distances, from the first factor to the last. Which two factors a member stands between is found by
division, and both of them are always there. -/

namespace Barrage.Level

/-- The placement of members with factors taken by their positions; where a position is empty, it
has no result. -/
def sideFactor? {α : Type} [Scalar α] (factors : List α) (index members : ℕ) : Option α :=
  match factors with
  | [] => some (1 / 2)
  | [only] => some only
  | _ =>
    if members ≤ 1 then factors[0]?
    else
      let last := factors.length - 1
      let position := Scalar.ofNat index / Scalar.ofNat (members - 1) * Scalar.ofNat last
      let lower := Scalar.truncate last position
      if lower = last then factors[last]?
      else do
        let near ← factors[lower]?
        let far ← factors[lower + 1]?
        return near + (far - near) * (position - Scalar.ofNat lower)

/-- The line through factors that stand at 0, 1, 2 and so on. -/
def polyline : List ℚ → ℚ → ℚ
  | [], _ => 1 / 2
  | [f], _ => f
  | f :: g :: rest, x => if x ≤ 1 then f + (g - f) * x else polyline (g :: rest) (x - 1)

variable {factors : List ℚ} {index members q : ℕ} {f g x : ℚ}

/-! ## Straight lines -/

theorem polyline_cons (f g : ℚ) (rest : List ℚ) (x : ℚ) :
    polyline (f :: g :: rest) x = if x ≤ 1 then f + (g - f) * x else polyline (g :: rest) (x - 1) :=
  rfl

theorem polyline_vertex (hf : factors[q]? = some f) : polyline factors q = f := by
  induction q generalizing factors with
  | zero =>
    match factors, hf with
    | [_], rfl => rfl
    | _ :: _ :: _, rfl =>
      rw [polyline_cons, Nat.cast_zero, if_pos zero_le_one, mul_zero, add_zero]
  | succ q ih =>
    match factors, hf with
    | _ :: g :: rest, hf =>
      have hrest : polyline (g :: rest) q = f := ih (by simpa using hf)
      rw [polyline_cons, Nat.cast_succ, add_sub_cancel_right, hrest]
      split_ifs with hle
      · -- the second factor belongs to the first line
        obtain rfl : q = 0 := by
          exact_mod_cast le_antisymm (by linarith) (Nat.cast_nonneg (α := ℚ) q)
        obtain rfl : g = f := by simpa using hf
        rw [Nat.cast_zero]
        ring
      · rfl

theorem polyline_segment (hf : factors[q]? = some f) (hg : factors[q + 1]? = some g) (hlow : q ≤ x)
    (hhigh : x ≤ q + 1) : polyline factors x = f + (g - f) * (x - q) := by
  induction q generalizing factors x with
  | zero =>
    match factors, hf, hg with
    | _ :: _ :: _, rfl, rfl =>
      rw [Nat.cast_zero, zero_add] at hhigh
      rw [polyline_cons, if_pos hhigh, Nat.cast_zero, sub_zero]
  | succ q ih =>
    match factors, hf, hg with
    | _ :: h :: rest, hf, hg =>
      rw [Nat.cast_succ] at hlow hhigh
      rw [polyline_cons]
      split_ifs with hle
      · -- the point is the second factor, where the first line ends
        obtain rfl : q = 0 := by
          exact_mod_cast le_antisymm (by linarith) (Nat.cast_nonneg (α := ℚ) q)
        obtain rfl : h = f := by simpa using hf
        obtain rfl : x = 1 := by
          rw [Nat.cast_zero] at hlow
          linarith
        push_cast
        ring
      · have hrest : polyline (h :: rest) (x - 1) = f + (g - f) * (x - 1 - q) :=
          ih (by simpa using hf) (by simpa using hg) (by linarith) (by linarith)
        rw [hrest, Nat.cast_succ]
        ring

theorem segment_between (hlow : 0 ≤ x) (hhigh : x ≤ 1) :
    min f g ≤ f + (g - f) * x ∧ f + (g - f) * x ≤ max f g := by
  rcases le_total f g with hle | hle
  · rw [min_eq_left hle, max_eq_right hle]
    constructor <;> nlinarith
  · rw [min_eq_right hle, max_eq_left hle]
    constructor <;> nlinarith

theorem polyline_monotone (hsorted : factors.Pairwise (· ≤ ·)) : Monotone (polyline factors) := by
  induction factors with
  | nil => exact monotone_const
  | cons f rest ih =>
    cases rest with
    | nil => exact monotone_const
    | cons g rest =>
      obtain ⟨hfirst, hrest⟩ := List.pairwise_cons.1 hsorted
      have hfg : f ≤ g := hfirst g List.mem_cons_self
      have hslope : ∀ {a b : ℚ}, a ≤ b → f + (g - f) * a ≤ f + (g - f) * b := fun hab =>
        add_le_add_right (mul_le_mul_of_nonneg_left hab (sub_nonneg.2 hfg)) f
      intro x y hxy
      rw [polyline_cons, polyline_cons]
      split_ifs with hx hy hy
      · exact hslope hxy
      · -- the line comes to the second factor and goes on from there
        have hstart : polyline (g :: rest) 0 = g := polyline_vertex (q := 0) rfl
        calc f + (g - f) * x ≤ f + (g - f) * 1 := hslope hx
          _ = polyline (g :: rest) 0 := by rw [hstart]; ring
          _ ≤ polyline (g :: rest) (y - 1) := ih hrest (by linarith)
      · exact absurd (hxy.trans hy) hx
      · exact ih hrest (by linarith)

theorem polyline_neg (hsome : factors ≠ []) (x : ℚ) :
    polyline (factors.map (-·)) x = -polyline factors x := by
  induction factors generalizing x with
  | nil => exact absurd rfl hsome
  | cons f rest ih =>
    cases rest with
    | nil => rfl
    | cons g rest =>
      have hrest := ih (List.cons_ne_nil g rest) (x - 1)
      rw [List.map_cons] at hrest
      rw [List.map_cons, List.map_cons, polyline_cons, polyline_cons, hrest]
      split_ifs
      · ring
      · rfl

theorem polyline_antitone (hsome : factors ≠ []) (hsorted : factors.Pairwise (· ≥ ·)) :
    Antitone (polyline factors) := by
  have hneg : (factors.map (-·)).Pairwise (· ≤ ·) :=
    List.pairwise_map.2 (hsorted.imp fun h => neg_le_neg h)
  intro x y hxy
  have hmono := polyline_monotone hneg hxy
  rw [polyline_neg hsome, polyline_neg hsome] at hmono
  exact neg_le_neg_iff.1 hmono

/-! ## Places -/

def station (factors : List ℚ) (members index : ℕ) : ℚ :=
  index * (factors.length - 1 : ℕ) / (members - 1 : ℕ)

theorem station_nonneg (factors : List ℚ) (members index : ℕ) :
    0 ≤ station factors members index := by
  unfold station
  positivity

theorem station_mono (factors : List ℚ) (members : ℕ) : Monotone (station factors members) := by
  intro i j hij
  have hcast : (i : ℚ) ≤ j := by exact_mod_cast hij
  unfold station
  gcongr

theorem station_le (hindex : index < members) :
    station factors members index ≤ (factors.length - 1 : ℕ) := by
  rcases Nat.eq_zero_or_pos (members - 1) with hone | hpos
  · rw [station, hone, Nat.cast_zero, div_zero]
    exact Nat.cast_nonneg _
  · have hcast : (index : ℚ) ≤ (members - 1 : ℕ) := by exact_mod_cast Nat.le_sub_one_of_lt hindex
    rw [station, div_le_iff₀ (by exact_mod_cast hpos), mul_comm]
    exact mul_le_mul_of_nonneg_left hcast (Nat.cast_nonneg _)

theorem spaces_ne_zero (hmembers : 2 ≤ members) : ((members - 1 : ℕ) : ℚ) ≠ 0 := by
  have hpos : members - 1 ≠ 0 := by omega
  exact_mod_cast hpos

theorem polyline_on_factor (hmembers : 2 ≤ members) (hf : factors[q]? = some f)
    (heq : index * (factors.length - 1) = q * (members - 1)) :
    polyline factors (station factors members index) = f := by
  have hstation : station factors members index = q := by
    rw [station, div_eq_iff (spaces_ne_zero hmembers)]
    exact_mod_cast heq
  rw [hstation, polyline_vertex hf]

theorem exists_segment (hindex : index < members) (htwo : 2 ≤ factors.length) :
    ∃ (q : ℕ) (f g : ℚ), factors[q]? = some f ∧ factors[q + 1]? = some g ∧
      q ≤ station factors members index ∧
      station factors members index ≤ q + 1 := by
  have hnear : min ⌊station factors members index⌋₊ (factors.length - 2) < factors.length := by
    omega
  have hfar : min ⌊station factors members index⌋₊ (factors.length - 2) + 1 < factors.length := by
    omega
  refine ⟨_, _, _, List.getElem?_eq_getElem hnear, List.getElem?_eq_getElem hfar, ?_, ?_⟩
  · have hfloor := Nat.floor_le (station_nonneg factors members index)
    refine le_trans ?_ hfloor
    exact_mod_cast min_le_left _ _
  · rcases min_choice ⌊station factors members index⌋₊ (factors.length - 2) with hmin | hmin
    · rw [hmin]
      exact (Nat.lt_floor_add_one _).le
    · have hlast : ((factors.length - 1 : ℕ) : ℚ) = (factors.length - 2 : ℕ) + 1 := by
        rw [← Nat.cast_succ]
        congr 1
        omega
      rw [hmin, ← hlast]
      exact station_le hindex

theorem getD_finite (hf : factors[q]? = some f) :
    (factors.map Exact.finite).getD q 0 = .finite f := by
  rw [List.getD_eq_getElem?_getD, List.getElem?_map, hf]
  rfl

/-- With two factors or more, a member stands at the last of them or between two. -/
theorem sideFactor_of_two {α : Type} [Scalar α] {factors : List α} {position : α} {lower : ℕ}
    (htwo : 2 ≤ factors.length) (hmembers : 2 ≤ members)
    (hposition : Scalar.ofNat index / Scalar.ofNat (members - 1) * Scalar.ofNat
      (factors.length - 1) = position)
    (hlower : Scalar.truncate (factors.length - 1) position = lower) :
    sideFactor factors index members =
      if lower = factors.length - 1 then factors.getD (factors.length - 1) 0
      else
        factors.getD lower 0 +
          (factors.getD (lower + 1) 0 - factors.getD lower 0) *
            (position - Scalar.ofNat lower) := by
  subst hposition hlower
  match factors, htwo with
  | _ :: _ :: _, _ => exact if_neg (by omega)

theorem sideFactor_eq (hmembers : 2 ≤ members) (hindex : index < members) :
    sideFactor (factors.map Exact.finite) index members =
      .finite (polyline factors (station factors members index)) := by
  rcases Nat.lt_or_ge factors.length 2 with hfew | htwo
  · match factors, hfew with
    | [], _ => simp [sideFactor, polyline]
    | [f], _ => rfl
  · have hlength : (factors.map Exact.finite).length = factors.length := List.length_map _
    have hposition : (Scalar.ofNat index / Scalar.ofNat (members - 1) *
        Scalar.ofNat ((factors.map Exact.finite).length - 1) : Exact) =
        .finite (station factors members index) := by
      rw [hlength, Exact.ofNat_eq, Exact.ofNat_eq, Exact.ofNat_eq,
        Exact.finite_div _ (spaces_ne_zero hmembers), Exact.finite_mul, station, div_mul_eq_mul_div]
    have hfloor : ⌊station factors members index⌋₊ ≤ factors.length - 1 :=
      Nat.floor_le_of_le (station_le hindex)
    have hlower : Scalar.truncate ((factors.map Exact.finite).length - 1)
        (Exact.finite (station factors members index)) = ⌊station factors members index⌋₊ := by
      rw [hlength]
      exact min_eq_right hfloor
    have hlow := Nat.floor_le (station_nonneg factors members index)
    have hhigh := (Nat.lt_floor_add_one (station factors members index)).le
    rw [sideFactor_of_two (hlength ▸ htwo) hmembers hposition hlower, hlength]
    have hle : station factors members index ≤ (factors.length - 1 : ℕ) := station_le hindex
    generalize station factors members index = x at *
    have hlast := List.getElem?_eq_getElem (l := factors) (i := factors.length - 1) (by omega)
    split_ifs with hend
    · have hx : x = (factors.length - 1 : ℕ) := le_antisymm hle (hend ▸ hlow)
      rw [getD_finite hlast, hx, polyline_vertex hlast]
    · have hnear := List.getElem?_eq_getElem (l := factors) (i := ⌊x⌋₊) (by omega)
      have hfar := List.getElem?_eq_getElem (l := factors) (i := ⌊x⌋₊ + 1) (by omega)
      rw [getD_finite hnear, getD_finite hfar, polyline_segment hnear hfar hlow hhigh]
      rfl

theorem truncate_le (bound : ℕ) (x : Exact) : Scalar.truncate bound x ≤ bound := by
  cases x with
  | finite a => exact min_le_left _ _
  | infinite negative => cases negative <;> simp [Scalar.truncate, Exact.truncate]
  | undefined => exact Nat.zero_le bound

/-- Only positions that are filled are asked for. -/
theorem sideFactor?_eq {α : Type} [Scalar α]
    (hbound : ∀ bound (x : α), Scalar.truncate bound x ≤ bound) (factors : List α)
    (index members : ℕ) :
    sideFactor? factors index members = some (sideFactor factors index members) := by
  have hfilled : ∀ {i : ℕ}, i < factors.length → factors[i]? = some (factors.getD i 0) := by
    intro i hi
    rw [List.getD_eq_getElem?_getD, List.getElem?_eq_getElem hi, Option.getD_some]
  match factors with
  | [] => rfl
  | [only] => rfl
  | first :: second :: rest =>
    have hsome : 0 < (first :: second :: rest).length := Nat.succ_pos _
    unfold sideFactor? sideFactor
    dsimp only
    generalize hposition : (Scalar.ofNat index / Scalar.ofNat (members - 1) *
      Scalar.ofNat ((first :: second :: rest).length - 1) : α) = position
    have hlower := hbound ((first :: second :: rest).length - 1) position
    generalize Scalar.truncate ((first :: second :: rest).length - 1) position = lower at *
    split_ifs with hone hend
    · rfl
    · exact hfilled (by omega)
    · have hnear : lower < (first :: second :: rest).length := by omega
      have hfar : lower + 1 < (first :: second :: rest).length := by omega
      rw [hfilled hnear, hfilled hfar]
      rfl

/-- However many factors and members there are, only factors that are there are asked for, and a
member stands on the line that joins each factor with the next, as far along as it is among the
members: the first at the first factor, the last at the last, one that falls on a factor just there,
and all others between the two factors next to them. If the factors do not go back, neither do the
members in the order in which they come. -/
theorem members_line_up_along_the_factors {factors : List ℚ} {members : ℕ} (hsome : factors ≠ [])
    (hmembers : 2 ≤ members) :
    ∃ place : ℕ → ℚ,
      (∀ index < members,
        sideFactor? (factors.map Exact.finite) index members = some (.finite (place index)) ∧
        sideFactor (factors.map Exact.finite) index members = .finite (place index) ∧
        place index = polyline factors (station factors members index)) ∧
      factors.head? = some (place 0) ∧ factors.getLast? = some (place (members - 1)) ∧
      (∀ index < members, ∀ q f, factors[q]? = some f →
        index * (factors.length - 1) = q * (members - 1) → place index = f) ∧
      (∀ index < members, 2 ≤ factors.length → ∃ (q : ℕ) (f g : ℚ),
        factors[q]? = some f ∧ factors[q + 1]? = some g ∧
        q ≤ station factors members index ∧ station factors members index ≤ q + 1 ∧
        place index = f + (g - f) * (station factors members index - q) ∧
        min f g ≤ place index ∧ place index ≤ max f g) ∧
      (factors.Pairwise (· ≤ ·) → ∀ i j, i ≤ j → j < members → place i ≤ place j) ∧
      (factors.Pairwise (· ≥ ·) → ∀ i j, i ≤ j → j < members → place j ≤ place i) ∧
      ∀ s : Spawner Exact, s.factors = factors.map .finite → s.members.length = members →
        ∀ index < members, ∀ member, (s.request index member).sideFactor =
          .finite (place index) := by
  have hpositive := List.length_pos_iff.2 hsome
  refine ⟨fun index => polyline factors (station factors members index),
    fun index hindex => ?_, ?_, ?_, fun index _ q f => polyline_on_factor hmembers,
    fun index hindex htwo => ?_, fun hsorted i j hij _ => ?_, fun hsorted i j hij _ => ?_, ?_⟩
  · have hplace : sideFactor (factors.map Exact.finite) index members =
        .finite (polyline factors (station factors members index)) := sideFactor_eq hmembers hindex
    exact ⟨by rw [sideFactor?_eq truncate_le, hplace], hplace, rfl⟩
  · have hfirst := List.getElem?_eq_getElem hpositive
    rw [List.head?_eq_getElem?, hfirst]
    exact congrArg some (polyline_on_factor hmembers hfirst
      (by rw [Nat.zero_mul, Nat.zero_mul])).symm
  · have hlast := List.getElem?_eq_getElem (show factors.length - 1 < factors.length by omega)
    rw [List.getLast?_eq_getElem?, hlast]
    exact congrArg some (polyline_on_factor hmembers hlast (Nat.mul_comm _ _)).symm
  · obtain ⟨q, f, g, hf, hg, hlow, hhigh⟩ := exists_segment hindex htwo
    have hplace := polyline_segment hf hg hlow hhigh
    obtain ⟨hleast, hmost⟩ := segment_between (f := f) (g := g) (sub_nonneg.2 hlow)
      (sub_le_iff_le_add'.2 hhigh)
    dsimp only
    rw [hplace]
    exact ⟨q, f, g, hf, hg, hlow, hhigh, rfl, hleast, hmost⟩
  · exact polyline_monotone hsorted (station_mono factors members hij)
  · exact polyline_antitone hsome hsorted (station_mono factors members hij)
  · rintro s hfactors rfl index hindex member
    rw [← sideFactor_eq hmembers hindex, ← hfactors]
    rfl

/-- Five members and three factors: every other member stands on a factor. -/
theorem fourth_member_stands_behind_the_middle_factor :
    ([0, 1 / 4, 1] : List ℚ) ≠ [] ∧ 2 ≤ 5 ∧ ([0, 1 / 4, 1] : List ℚ).Pairwise (· ≤ ·) ∧
    sideFactor ([0, 1 / 4, 1].map Exact.finite) 2 5 = .finite (1 / 4) ∧
    ∃ p, sideFactor ([0, 1 / 4, 1].map Exact.finite) 3 5 = .finite p ∧ 1 / 4 ≤ p ∧ p ≤ 1 := by
  have hsome : ([0, 1 / 4, 1] : List ℚ) ≠ [] := List.cons_ne_nil _ _
  have hsorted : ([0, 1 / 4, 1] : List ℚ).Pairwise (· ≤ ·) := by decide +kernel
  obtain ⟨place, hplace, -, hlast, hvertex, -, hmono, -⟩ :=
    members_line_up_along_the_factors hsome (by decide : 2 ≤ 5)
  have hmiddle : place 2 = 1 / 4 := hvertex 2 (by decide) 1 _ rfl rfl
  have hend : place 4 = 1 := (Option.some.inj hlast).symm
  refine ⟨hsome, by decide, hsorted, ?_, place 3, (hplace 3 (by decide)).2.1, ?_, ?_⟩
  · rw [(hplace 2 (by decide)).2.1, hmiddle]
  · rw [← hmiddle]
    exact hmono hsorted 2 3 (by decide) (by decide)
  · rw [← hend]
    exact hmono hsorted 3 4 (by decide) (by decide)

end Barrage.Level
