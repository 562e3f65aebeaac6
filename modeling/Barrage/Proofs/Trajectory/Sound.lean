import Barrage.Proofs.Trajectory.Scope
import Barrage.Proofs.Worth

/-! # Sound programs

A trajectory whose numbers are rational is compiled to effects whose numbers are rational, but for
the ends of windows and loops that have none. A loop of rational length has a positive one. -/

namespace Barrage

/-! ## Rational points -/

namespace Exact

def point (v : ℚ × ℚ) : Vec Exact := ⟨.finite v.1, .finite v.2⟩

theorem point_add (u v : ℚ × ℚ) : point u + point v = point (u + v) := rfl

theorem point_sub (u v : ℚ × ℚ) : point u - point v = point (u - v) := rfl

theorem point_scale (v : ℚ × ℚ) (r : ℚ) : (point v).scale (.finite r) = point (r • v) := by
  simp [point, Vec.scale, mul_comm]

theorem point_zero : point 0 = Vec.zero := by
  simp [point, Vec.zero]

theorem lengthSquared_point (v : ℚ × ℚ) :
    (point v).lengthSquared = .finite (v.1 * v.1 + v.2 * v.2) := rfl

theorem direction_point (side : Side) : ∃ v, side.direction = point v := by
  cases side with
  | top => exact ⟨(0, 1), by simp [Side.direction, point]⟩
  | bottom => exact ⟨(0, -1), by simp [Side.direction, point]⟩
  | left => exact ⟨(-1, 0), by simp [Side.direction, point]⟩
  | right => exact ⟨(1, 0), by simp [Side.direction, point]⟩

def coordinates (v : Vec Exact) : ℚ × ℚ := (v.x.value, v.y.value)

@[simp] theorem coordinates_point (v : ℚ × ℚ) : coordinates (point v) = v := rfl

end Exact

open Exact (point)

namespace Trajectory

/-! ## Parts -/

section

variable {α : Type}

mutual

def Effect.parts : Effect α → List (Effect α)
  | .motion window m => [.motion window m]
  | .shoot window pattern latch => [.shoot window pattern latch]
  | .loop window body period => .loop window body period :: Effect.partsAll body

def Effect.partsAll : List (Effect α) → List (Effect α)
  | [] => []
  | e :: rest => e.parts ++ Effect.partsAll rest

end

theorem Effect.partsAll_eq (effects : List (Effect α)) :
    Effect.partsAll effects = effects.flatMap Effect.parts := by
  induction effects with
  | nil => rfl
  | cons e rest ih => rw [partsAll, ih, List.flatMap_cons]

mutual

theorem Effect.parts_parts {part : Effect α} :
    ∀ {e : Effect α}, part ∈ e.parts → part.parts ⊆ e.parts
  | .motion .., h | .shoot .., h => by
    obtain rfl := List.mem_singleton.1 h
    exact List.Subset.refl _
  | .loop .., h => by
    rcases List.mem_cons.1 h with rfl | h
    · exact List.Subset.refl _
    · exact List.Subset.trans (Effect.parts_partsAll h) (List.subset_cons_self ..)

theorem Effect.parts_partsAll {part : Effect α} :
    ∀ {effects : List (Effect α)}, part ∈ Effect.partsAll effects →
      part.parts ⊆ Effect.partsAll effects
  | [], h => by cases h
  | e :: rest, h => by
    rcases List.mem_append.1 h with h | h
    · exact List.Subset.trans (Effect.parts_parts h) (List.subset_append_left ..)
    · exact List.Subset.trans (Effect.parts_partsAll h) (List.subset_append_right ..)

end

end

/-! ## Sound effects -/

structure Window.Sound (w : Window Exact) : Prop where
  start : ∃ q, w.start = .finite q
  stop : w.stop = Scalar.infinity ∨ ∃ q, w.stop = .finite q

def Motion.Sound (w : Window Exact) : Motion Exact → Prop
  | linear _ speed => ∃ q, speed = .finite q
  | wave _ _ start speed amplitude =>
    (∃ q, start = .finite q) ∧ (∃ q, speed = .finite q) ∧ ∃ q, amplitude = .finite q
  | move target duration => (∃ v, target = point v) ∧ duration = w.stop - w.start

/-- The numbers of an effect are rational, except that a window or a loop may have no end. A motion
to a point takes as long as its window. -/
def Effect.Sound : Effect Exact → Prop
  | motion w m => w.Sound ∧ m.Sound w
  | shoot .. => True
  | loop w _ period => w.Sound ∧ (period = Scalar.infinity ∨ ∃ q, 0 < q ∧ period = .finite q)

def SoundAll (effects : List (Effect Exact)) : Prop := ∀ e ∈ Effect.partsAll effects, e.Sound

theorem soundAll_append {first second : List (Effect Exact)} :
    SoundAll (first ++ second) ↔ SoundAll first ∧ SoundAll second := by
  rw [SoundAll, Effect.partsAll_eq, List.flatMap_append, ← Effect.partsAll_eq, ← Effect.partsAll_eq]
  exact List.forall_mem_append

theorem soundAll_singleton {e : Effect Exact} : SoundAll [e] ↔ ∀ part ∈ e.parts, part.Sound := by
  simp [SoundAll, Effect.partsAll]

/-! ## Compilation -/

theorem loopPeriod_sound (w : Window Exact) :
    w.loopPeriod = Scalar.infinity ∨ ∃ q, 0 < q ∧ w.loopPeriod = .finite q := by
  unfold Window.loopPeriod
  split
  · rename_i hstop
    obtain ⟨hfinite, hpos⟩ := Bool.and_eq_true_iff.1 hstop
    obtain ⟨q, hq⟩ := Exact.isFinite_eq.1 hfinite
    rw [hq] at hpos ⊢
    exact Or.inr ⟨q, by simpa using hpos, rfl⟩
  · exact Or.inl rfl

def Mark.Sound : Mark Exact → Prop
  | clause (.shift time _) | clause (.lasting time) => ∃ q, time = .finite q
  | clause (.motion m) => ∀ w, m.Sound w
  | clause (.move target) => ∃ v, target = point v
  | clause (.shoot _) | clause .boss | opening | closing | stage _ => True

def Token.Rational (t : Token Exact) : Prop := ∀ n ∈ t.numbers, n.Rational

theorem settle_sound {t : Token Exact} {m : Mark Exact} {tempo : ℚ} {world : ℚ × ℚ} {w w' : Words}
    (ht : t.Rational) (h : t.settle ⟨.finite tempo, point world⟩ w = .ok (m, w')) : m.Sound := by
  have hvalue : ∀ n ∈ t.numbers, ∀ v w w', n.resolve (.finite tempo) w = .ok (v, w') →
    ∃ q, v = .finite q :=
    fun n hn _ _ _ hv => Number.resolve_finite (ht n hn) hv
  cases t with
  | after time | cancelAfter time | lasting time =>
    obtain ⟨v, w₁, hv, h⟩ := draws_of_ok h
    obtain ⟨rfl, -⟩ := Prod.mk.inj (Except.ok.inj h)
    exact hvalue time (by simp [Token.numbers]) v w w₁ hv
  | linear side speed =>
    obtain ⟨v, w₁, hv, h⟩ := draws_of_ok h
    obtain ⟨rfl, -⟩ := Prod.mk.inj (Except.ok.inj h)
    exact fun _ => hvalue speed (by simp [Token.numbers]) v w w₁ hv
  | wave shape side start speed amplitude =>
    obtain ⟨a, w₁, ha, h⟩ := draws_of_ok h
    obtain ⟨v, w₂, hv, h⟩ := draws_of_ok h
    obtain ⟨b, w₃, hb, h⟩ := draws_of_ok h
    obtain ⟨rfl, -⟩ := Prod.mk.inj (Except.ok.inj h)
    have hstart := hvalue start (by simp [Token.numbers]) a w w₁ ha
    have hspeed := hvalue speed (by simp [Token.numbers]) v w₁ w₂ hv
    exact fun _ => ⟨hstart, hspeed, hvalue amplitude (by simp [Token.numbers]) b w₂ w₃ hb⟩
  | move x y =>
    obtain ⟨vx, w₁, hx, h⟩ := draws_of_ok h
    obtain ⟨vy, w₂, hy, h⟩ := draws_of_ok h
    obtain ⟨rfl, -⟩ := Prod.mk.inj (Except.ok.inj h)
    obtain ⟨p, rfl⟩ := hvalue x (by simp [Token.numbers]) vx w w₁ hx
    obtain ⟨q, rfl⟩ := hvalue y (by simp [Token.numbers]) vy w₁ w₂ hy
    exact ⟨(p * world.1, q * world.2), rfl⟩
  | opening | closing | shoot | stage | boss =>
    obtain ⟨rfl, -⟩ := Prod.mk.inj (Except.ok.inj h)
    trivial

structure Draft.Sound (d : Draft Exact) : Prop where
  window : d.window.Sound
  effects : SoundAll d.effects
  outer : ∀ block ∈ d.outer, block.1.Sound ∧ SoundAll block.2
  stages : ∀ s ∈ d.stages, SoundAll s.effects

theorem window_whole_sound : (Window.whole : Window Exact).Sound :=
  ⟨⟨0, by simp [Window.whole]⟩, Or.inl rfl⟩

theorem add_sound {d : Draft Exact} (hd : d.Sound) {e : Effect Exact}
    (he : ∀ part ∈ e.parts, part.Sound) : (d.add e).Sound :=
  { hd with effects := soundAll_append.2 ⟨hd.effects, soundAll_singleton.2 he⟩ }

theorem closeStage_sound {d : Draft Exact} (hd : d.Sound) (reward : Option Char) :
    (d.closeStage reward).Sound where
  window := window_whole_sound
  effects := List.forall_mem_nil _
  outer := hd.outer
  stages := List.forall_mem_append.2 ⟨hd.stages, List.forall_mem_singleton.2 hd.effects⟩

theorem place_sound {d : Draft Exact} (hd : d.Sound) {m : Mark Exact} (hm : m.Sound) :
    (d.place m).Sound := by
  obtain ⟨a, ha⟩ := hd.window.start
  cases m with
  | clause c =>
    cases c with
    | shift time cancelling =>
      obtain ⟨q, rfl⟩ := hm
      exact { hd with window := ⟨⟨a + q, by simp [Draft.place, Draft.shift, ha]⟩, Or.inl rfl⟩ }
    | lasting time =>
      obtain ⟨q, rfl⟩ := hm
      exact { hd with window := ⟨hd.window.start,
        Or.inr ⟨a + q, by simp [Draft.place, Draft.last, ha]⟩⟩ }
    | motion m => exact add_sound hd (List.forall_mem_singleton.2 ⟨hd.window, hm _⟩)
    | move target => exact add_sound hd (List.forall_mem_singleton.2 ⟨hd.window, hm, rfl⟩)
    | shoot pattern =>
      have hshoot : (d.add (.shoot d.window pattern d.latches)).Sound :=
        add_sound hd (List.forall_mem_singleton.2 trivial)
      exact { hshoot with }
    | boss => exact { hd with }
  | opening =>
    have houter : ∀ block ∈ (d.window, d.effects) :: d.outer, block.1.Sound ∧ SoundAll block.2 :=
      List.forall_mem_cons.2 ⟨⟨hd.window, hd.effects⟩, hd.outer⟩
    exact ⟨window_whole_sound, List.forall_mem_nil _, houter, hd.stages⟩
  | closing =>
    simp only [Draft.place, Draft.closeBlock]
    split
    · exact hd
    · rename_i window effects outer houter
      obtain ⟨⟨hwindow, heffects⟩, hrest⟩ := List.forall_mem_cons.1 (houter ▸ hd.outer)
      have hloop : SoundAll [.loop window d.effects d.window.loopPeriod] :=
        soundAll_singleton.2 (List.forall_mem_cons.2 ⟨⟨hwindow, loopPeriod_sound d.window⟩,
          hd.effects⟩)
      exact ⟨hwindow, soundAll_append.2 ⟨heffects, hloop⟩, hrest, hd.stages⟩
  | stage reward => exact closeStage_sound hd reward

theorem foldl_sound {tokens : List (Token Exact)} {marks : List (Mark Exact)}
    (hmarks : List.Forall₂ (fun t m => t.Rational → m.Sound) tokens marks)
    (htokens : ∀ t ∈ tokens, t.Rational)
    {d : Draft Exact} (hd : d.Sound) : (marks.foldl Draft.place d).Sound := by
  induction hmarks generalizing d with
  | nil => exact hd
  | cons hm _ ih =>
    obtain ⟨ht, hrest⟩ := List.forall_mem_cons.1 htokens
    exact ih hrest (place_sound hd (hm ht))

theorem compile_sound {tokens : List (Token Exact)} {program : Program Exact} {tempo : ℚ}
    {world : ℚ × ℚ} {w w' : Words} (htokens : ∀ t ∈ tokens, t.Rational)
    (h : compile ⟨.finite tempo, point world⟩ tokens w = .ok (program, w')) :
    ∀ s ∈ program.stages, SoundAll s.effects := by
  rw [compile_eq] at h
  obtain ⟨marks, w₁, hmarks, h⟩ := draws_of_ok h
  obtain ⟨rfl, -⟩ := Prod.mk.inj (Except.ok.inj h)
  have hblank : (Draft.blank : Draft Exact).Sound :=
    ⟨window_whole_sound, List.forall_mem_nil _, List.forall_mem_nil _, List.forall_mem_nil _⟩
  have hsound : List.Forall₂ (fun t m => t.Rational → m.Sound) tokens marks :=
    draws_mapM (R := fun t m => t.Rational → m.Sound) (fun _ _ _ _ h ht => settle_sound ht h) hmarks
  have hdraft := foldl_sound hsound htokens hblank
  exact (closeStage_sound hdraft none).stages

end Trajectory

end Barrage
