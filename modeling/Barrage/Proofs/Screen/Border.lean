import Barrage.Proofs.Game.Census
import Barrage.Proofs.Scalar.Scaling
import Barrage.Screen.Frame

/-! # Sprites and the border

Whatever shows of an arena has its own cell inside the border. Sprites of one and two cells keep to
the inside, and so do the wide ones of three, except on the right: there the third cell of a wide
sprite takes the place of the border. -/

namespace Barrage.Screen

def Viewport.Inside (v : Viewport) (cell : ℕ × ℕ) : Prop :=
  1 ≤ cell.1 ∧ cell.1 ≤ v.columns - 2 ∧ 2 ≤ cell.2 ∧ cell.2 ≤ v.rows - 3

/-- Bosses and enemies with several hit points show in three cells. -/
def IsWide {α : Type} (e : Arena.Enemy α) : Prop :=
  e.flight.program.boss = true ∨ 1 < e.initialHitPoints

theorem coordinate_lt : maxCoordinate < 2 ^ 24 := by decide

section

variable {v : Viewport} {world position : Vec Float32} {x y : ℕ}

theorem cell_inside (hcolumns : 6 ≤ v.columns) (hrows : 5 ≤ v.rows)
    (h : v.cell world position = some (x, y)) : v.Inside (x, y) := by
  unfold Viewport.cell at h
  dsimp only at h
  split at h
  · next hworld =>
    obtain ⟨hleft, hright, hbottom, htop⟩ := hworld
    obtain ⟨hx, hy⟩ := Prod.mk.inj (Option.some.inj h)
    have hcolumn := Single.truncate_mul_le hleft hright coordinate_lt (v.columns - 3)
    have hrow := Single.truncate_mul_le hbottom htop coordinate_lt (v.rows - 5)
    unfold Viewport.Inside
    dsimp only
    omega
  · cases h

end

theorem mem_cells {s : Sprite} {cell : ℕ × ℕ} :
    cell ∈ s.cells ↔ cell.2 = s.row ∧ s.column ≤ cell.1 ∧ cell.1 < s.column + s.text.length := by
  unfold Sprite.cells
  rw [List.mem_map]
  constructor
  · rintro ⟨i, hi, rfl⟩
    have hlt := List.mem_range.1 hi
    exact ⟨rfl, by omega, by omega⟩
  · rintro ⟨hrow, hlow, hhigh⟩
    refine ⟨cell.1 - s.column, List.mem_range.2 (by omega), ?_⟩
    exact Prod.ext (by dsimp only; omega) hrow.symm

theorem inside_of_single {v : Viewport} (hcolumns : 6 ≤ v.columns) (hrows : 5 ≤ v.rows)
    {world position : Vec Float32} {s : Sprite}
    (h : v.cell world position = some (s.column, s.row) ∧ s.text.length = 1) :
    ∀ cell ∈ s.cells, v.Inside cell := by
  intro cell hcell
  obtain ⟨hown, hone⟩ := h
  obtain ⟨hrow, hlow, hhigh⟩ := mem_cells.1 hcell
  have hsame : cell = (s.column, s.row) := Prod.ext (by dsimp only; omega) hrow
  rw [hsame]
  exact cell_inside hcolumns hrows hown

section

variable {v : Viewport} {a : Arena Float32} {s : Sprite}

theorem pickupSprite_single {world : Vec Float32} {p : Arena.Pickup Float32}
    (h : pickupSprite v world p = some s) :
    v.cell world p.position = some (s.column, s.row) ∧ s.text.length = 1 := by
  obtain ⟨⟨x, y⟩, hcell, rfl⟩ := Option.map_eq_some_iff.1 h
  exact ⟨hcell, String.length_singleton⟩

theorem shotSprite_single {world : Vec Float32} {t : Arena.Shot Float32}
    (h : shotSprite v world t = some s) :
    v.cell world t.position = some (s.column, s.row) ∧ s.text.length = 1 := by
  obtain ⟨⟨x, y⟩, hcell, rfl⟩ := Option.map_eq_some_iff.1 h
  refine ⟨hcell, ?_⟩
  dsimp only
  split_ifs <;> rfl

theorem playerSprite_single (h : playerSprite v a = some s) :
    v.cell a.world a.player.position = some (s.column, s.row) ∧ s.text.length = 1 := by
  unfold playerSprite at h
  split at h
  · cases h
  · obtain ⟨⟨x, y⟩, hcell, rfl⟩ := Option.map_eq_some_iff.1 h
    refine ⟨hcell, ?_⟩
    dsimp only
    rfl

/-- A sprite of an enemy begins left of the enemy's own cell, unless that is the first one. -/
theorem enemySprite_shape {world : Vec Float32} {e : Arena.Enemy Float32}
    (h : enemySprite v world e = some s) :
    ∃ x, v.cell world e.position = some (x, s.row) ∧ s.column = max (x - 1) 1 ∧
      (IsWide e ∧ s.text.length = 3 ∨ ¬ IsWide e ∧ s.text.length = 2) := by
  obtain ⟨⟨x, y⟩, hcell, rfl⟩ := Option.map_eq_some_iff.1 h
  refine ⟨x, hcell, rfl, ?_⟩
  dsimp only
  unfold IsWide
  split_ifs with hboss htough
  · exact .inl ⟨.inl hboss, rfl⟩
  · exact .inl ⟨.inr htough, rfl⟩
  · exact .inr ⟨not_or.2 ⟨hboss, htough⟩, rfl⟩

theorem mem_sprites :
    s ∈ sprites v a ↔
      (∃ p ∈ a.pickups, pickupSprite v a.world p = some s) ∨
        (∃ e ∈ a.enemies, enemySprite v a.world e = some s) ∨
        (∃ t ∈ a.shots, shotSprite v a.world t = some s) ∨ playerSprite v a = some s := by
  simp only [sprites, List.mem_append, List.mem_filterMap, Option.mem_toList, or_assoc]

end

/-- On a screen of six columns and five rows or more, the cells of all sprites of an arena lie
strictly inside the border, but for one: of an enemy that shows in three cells and has its own cell
in the last column inside, the third cell lies on the border. -/
theorem sprites_keep_inside_but_for_wide_ones (v : Viewport) (hcolumns : 6 ≤ v.columns)
    (hrows : 5 ≤ v.rows) (a : Arena Float32) :
    (∀ s ∈ sprites v a, ∀ cell ∈ s.cells, v.Inside cell ∨
      cell = (v.columns - 1, s.row) ∧
        ∃ e ∈ a.enemies, IsWide e ∧ enemySprite v a.world e = some s ∧
          v.cell a.world e.position = some (v.columns - 2, s.row)) ∧
    ∀ e ∈ a.enemies, IsWide e → ∀ y, v.cell a.world e.position = some (v.columns - 2, y) →
      ∃ s ∈ sprites v a, enemySprite v a.world e = some s ∧
        s.cells = [(v.columns - 3, y), (v.columns - 2, y), (v.columns - 1, y)] := by
  refine ⟨fun s hs cell hcell => ?_, fun e he hwide y hown => ?_⟩
  · rcases mem_sprites.1 hs with ⟨p, -, hsprite⟩ | ⟨e, he, hsprite⟩ | ⟨t, -, hsprite⟩ | hsprite
    · exact .inl (inside_of_single hcolumns hrows (pickupSprite_single hsprite) cell hcell)
    · obtain ⟨x, hown, hcolumn, hshape⟩ := enemySprite_shape hsprite
      obtain ⟨hleft, hright, hbottom, htop⟩ := cell_inside hcolumns hrows hown
      obtain ⟨hrow, hlow, hhigh⟩ := mem_cells.1 hcell
      dsimp only at hleft hright hbottom htop
      by_cases hover : IsWide e ∧ cell.1 = v.columns - 1
      · obtain ⟨hwide, hborder⟩ := hover
        have hlast : x = v.columns - 2 := by
          rcases hshape with ⟨-, hlength⟩ | ⟨hnarrow, -⟩
          · omega
          · exact absurd hwide hnarrow
        exact .inr ⟨Prod.ext hborder hrow, e, he, hwide, hsprite, hlast ▸ hown⟩
      · left
        unfold Viewport.Inside
        rcases hshape with ⟨hwide, hlength⟩ | ⟨-, hlength⟩
        · have hkeeps : cell.1 ≠ v.columns - 1 := fun hborder => hover ⟨hwide, hborder⟩
          omega
        · omega
    · exact .inl (inside_of_single hcolumns hrows (shotSprite_single hsprite) cell hcell)
    · exact .inl (inside_of_single hcolumns hrows (playerSprite_single hsprite) cell hcell)
  · obtain ⟨s, hsprite⟩ : ∃ s, enemySprite v a.world e = some s := by
      unfold enemySprite
      rw [hown]
      exact ⟨_, rfl⟩
    refine ⟨s, mem_sprites.2 (.inr (.inl ⟨e, he, hsprite⟩)), hsprite, ?_⟩
    obtain ⟨x, hcell, hcolumn, hshape⟩ := enemySprite_shape hsprite
    obtain ⟨rfl, hrow⟩ := Prod.mk.inj (Option.some.inj (hown.symm.trans hcell))
    have hlength : s.text.length = 3 := by
      rcases hshape with ⟨-, hlength⟩ | ⟨hnarrow, -⟩
      · exact hlength
      · exact absurd hwide hnarrow
    have hfirst : s.column = v.columns - 3 := by omega
    have hsecond : v.columns - 3 + 1 = v.columns - 2 := by omega
    have hthird : v.columns - 3 + 2 = v.columns - 1 := by omega
    rw [Sprite.cells, hlength, hfirst, ← hrow, ← hsecond, ← hthird]
    rfl

def guards : Script.Group Float32 :=
  { window := .literal 0, members := [⟨'C', .packed ⟨0⟩⟩], reward := ⟨'P', .never⟩, side := .right,
    factors := []
    trajectory := [.lasting (.literal 0)] }

/-- One guard, who takes two hits, comes on the right edge of the world. -/
def guarded : Game Float32 :=
  Game.start [.spawn guards] ⟨320, 180⟩ 120 0.5 (Words.cycle #[]) (Words.cycle #[])

theorem guard_overhangs_the_smallest_screen :
    ∃ g seen, guarded.run [.update 1] = .ok (g, seen) ∧
      (∃ s ∈ sprites ⟨6, 5⟩ g.arena, s.cells = [(3, 2), (4, 2), (5, 2)]) ∧
      ∀ s ∈ sprites ⟨6, 5⟩ g.arena, ∀ cell ∈ s.cells, (⟨6, 5⟩ : Viewport).Inside cell ∨
        cell = (5, s.row) := by
  have hview : (guarded.run [.update 1]).map (fun p => p.1.arena.enemies.map fun e =>
      (Viewport.cell ⟨6, 5⟩ p.1.arena.world e.position, e.initialHitPoints)) =
        .ok [(some (4, 2), 2)] := by
    decide +kernel
  obtain ⟨⟨g, seen⟩, hrun, hview⟩ := ok_of_map hview
  obtain ⟨e, he, hguard⟩ : ∃ e ∈ g.arena.enemies,
      (Viewport.cell ⟨6, 5⟩ g.arena.world e.position, e.initialHitPoints) = (some (4, 2), 2) :=
    List.mem_map.1 (hview ▸ List.mem_singleton_self _)
  obtain ⟨hown, hpoints⟩ := Prod.mk.inj hguard
  obtain ⟨hkeeps, hover⟩ :=
    sprites_keep_inside_but_for_wide_ones ⟨6, 5⟩ (by decide) (by decide) g.arena
  have hwide : IsWide e := .inr (hpoints ▸ by decide)
  obtain ⟨s, hs, -, hcells⟩ := hover e he hwide 2 hown
  refine ⟨g, seen, hrun, ⟨s, hs, hcells⟩, fun s hs cell hcell => ?_⟩
  exact (hkeeps s hs cell hcell).imp_right And.left

/-- The border goes through the last cell of the guard. -/
theorem guard_is_drawn_over_the_border :
    ∃ g seen, guarded.run [.update 1] = .ok (g, seen) ∧
      (∃ s ∈ sprites ⟨40, 14⟩ g.arena, (39, 6) ∈ s.cells) ∧
      ¬ (⟨40, 14⟩ : Viewport).Inside (39, 6) ∧ .moveTo 39 6 ∈ border ⟨40, 14⟩ := by
  have hview : (guarded.run [.update 1]).map
      (fun p => (sprites ⟨40, 14⟩ p.1.arena).map Sprite.cells) =
      .ok [[(37, 6), (38, 6), (39, 6)], [(6, 6)]] := by
    decide +kernel
  obtain ⟨⟨g, seen⟩, hrun, hview⟩ := ok_of_map hview
  obtain ⟨s, hs, hcells⟩ : ∃ s ∈ sprites ⟨40, 14⟩ g.arena, s.cells = [(37, 6), (38, 6), (39, 6)] :=
    List.mem_map.1 (hview ▸ List.mem_cons_self ..)
  refine ⟨g, seen, hrun, ⟨s, hs, ?_⟩, ?_, by decide⟩
  · rw [hcells]
    decide
  · rintro ⟨-, hright, -⟩
    exact absurd hright (by decide)

end Barrage.Screen
