import Barrage.Proofs.Game.Run

/-! # Strides of a game

A step that moves the arena is a stride: it has a length, and the game is not over. Timers of
enemies and of the player go by strides alone, whatever happens in between. -/

namespace Barrage.Game

variable {α : Type}

/-- The length of a step that has moved the arena, and its turn. -/
structure Stride (α : Type) where
  dt : α
  turn : Arena.Turn α

variable [Scalar α] [Elementary α]

def stride (g : Game α) : Action α → List (Stride α)
  | .step dt =>
    if dt ≤ 0 ∨ g.arena.status = .gameOver then []
    else match g.arena.step dt g.words with
      | .ok (turn, _) => [⟨dt, turn⟩]
      | .error _ => []
  | _ => []

def strides (g : Game α) : List (Action α) → List (Stride α)
  | [] => []
  | action :: rest =>
    match g.perform action with
    | .ok (h, _) => g.stride action ++ h.strides rest
    | .error _ => []

theorem stride_of_step {g : Game α} {dt : α} {turn : Arena.Turn α} {words : Words}
    (hturn : g.arena.step dt g.words = .ok (turn, words)) (hdt : ¬ dt ≤ 0)
    (hplays : g.arena.status ≠ .gameOver) : g.stride (.step dt) = [⟨dt, turn⟩] := by
  rw [stride, if_neg (not_or.2 ⟨hdt, hplays⟩), hturn]

theorem stride_asked {g : Game α} {action : Action α} {s : Stride α} (hs : s ∈ g.stride action) :
    action = .step s.dt ∧ ¬ s.dt ≤ 0 := by
  cases action with
  | step dt =>
    unfold stride at hs
    dsimp only at hs
    split at hs
    · cases hs
    · next hmoves =>
      split at hs
      · obtain rfl := List.mem_singleton.1 hs
        exact ⟨rfl, fun hdt => hmoves (.inl hdt)⟩
      · cases hs
  | _ => cases hs

theorem strides_asked {g : Game α} {actions : List (Action α)} {s : Stride α}
    (hs : s ∈ g.strides actions) : .step s.dt ∈ actions ∧ ¬ s.dt ≤ 0 := by
  induction actions generalizing g with
  | nil => cases hs
  | cons action rest ih =>
    unfold strides at hs
    split at hs
    · rcases List.mem_append.1 hs with hs | hs
      · obtain ⟨rfl, hdt⟩ := stride_asked hs
        exact ⟨List.mem_cons_self .., hdt⟩
      · obtain ⟨hmem, hdt⟩ := ih hs
        exact ⟨List.mem_cons_of_mem _ hmem, hdt⟩
    · cases hs

/-- What is kept by updates, by strides and by the player is kept by a run with its strides. -/
theorem strides_induction {P : Game α → List (Stride α) → Prop}
    (update : ∀ {g strides dt frame}, P g strides → g.level.update g.arena.world dt = .ok frame →
      P (g.hear frame) strides)
    (step : ∀ {g strides dt turn words}, P g strides → g.arena.step dt g.words =
      .ok (turn, words) → ¬ dt ≤ 0 →
      g.arena.status ≠ .gameOver → P (g.report turn words) (strides ++ [⟨dt, turn⟩]))
    (player : ∀ {g strides} position shots, P g strides →
      (∀ s ∈ shots, s ∈ g.arena.shots ∨ s = Arena.playerShot g.arena.player.position) →
      P { g with arena := { g.arena with player := { g.arena.player with position }, shots } }
        strides)
    {g g' : Game α} {before : List (Stride α)} {actions : List (Action α)}
    {seen : List (Observation α)} (h : P g before) (hrun : g.run actions = .ok (g', seen)) :
    P g' (before ++ g.strides actions) := by
  induction actions generalizing g seen before with
  | nil =>
    obtain ⟨rfl, -⟩ := Prod.mk.inj (Except.ok.inj hrun)
    rwa [strides, List.append_nil]
  | cons action rest ih =>
    obtain ⟨⟨g₁, first⟩, hfirst, hrun⟩ := parts_of_ok hrun
    obtain ⟨⟨g₂, later⟩, hlater, hrun⟩ := parts_of_ok hrun
    obtain ⟨rfl, -⟩ := Prod.mk.inj (Except.ok.inj hrun)
    rw [strides, hfirst]
    dsimp only
    rw [← List.append_assoc]
    refine ih ?_ hlater
    cases perform_does hfirst with
    | update hframe =>
      rw [stride, List.append_nil]
      · exact update h hframe
      · exact nofun
    | @step dt turn words hturn =>
      by_cases hidle : dt ≤ 0 ∨ g.arena.status = .gameOver
      · rw [stride, if_pos hidle, List.append_nil]
        have hsame := (Arena.step_idle hidle g.words).symm.trans hturn
        obtain ⟨rfl, rfl⟩ := Prod.mk.inj (Except.ok.inj hsame)
        exact h
      · obtain ⟨hdt, hplays⟩ := not_or.1 hidle
        rw [stride_of_step hturn hdt hplays]
        exact step h hturn hdt hplays
    | player position shots hother hshots =>
      rw [stride, List.append_nil]
      · exact player position shots h hshots
      · exact hother

end Barrage.Game
