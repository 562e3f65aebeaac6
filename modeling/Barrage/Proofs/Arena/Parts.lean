import Barrage.Arena.Step
import Barrage.Proofs.Level.Outcome

/-! # The parts of a step

A step either changes nothing, or moves enemies and shots and then resolves what has met. What a hit
does to an enemy and what the shots do to an arena is said here once; later statements about a step
go by these cases. -/

namespace Barrage

namespace Arena

variable {α : Type}

def Happening.departed? : Happening α → Option (Enemy α)
  | departed e _ => some e
  | _ => none

def departed (happenings : List (Happening α)) : List (Enemy α) :=
  happenings.filterMap Happening.departed?

theorem departed_append (earlier later : List (Happening α)) :
    departed (earlier ++ later) = departed earlier ++ departed later := List.filterMap_append

/-- Is no matter of the enemies. -/
def Happening.Quiet : Happening α → Prop
  | lifeLost | collected _ => True
  | hit .. | departed .. => False

theorem departed_of_quiet {happenings : List (Happening α)} (h : ∀ o ∈ happenings, o.Quiet) :
    departed happenings = [] := by
  refine List.filterMap_eq_nil_iff.2 fun o ho => ?_
  cases o with
  | departed => exact (h _ ho).elim
  | _ => rfl

theorem departed_dismiss (a : Arena α) (cause : Cause) (leaves : Enemy α → Bool) :
    departed (a.dismiss cause leaves).happenings = (a.enemies.filter leaves).map Enemy.retire := by
  rw [departed, dismiss, List.filterMap_map]
  exact congrFun (List.filterMap_eq_map (f := Enemy.retire)) _

theorem dismiss_perm {β : Type} {view : Enemy α → β} (hretire : ∀ e, view (Enemy.retire e) = view e)
    (a : Arena α) (gone : List (Enemy α)) (cause : Cause) (leaves : Enemy α → Bool) :
    (((a.dismiss cause leaves).arena.enemies ++
      (gone ++ departed (a.dismiss cause leaves).happenings)).map
      view).Perm ((a.enemies ++ gone).map view) := by
  have hsplit := (List.filter_append_perm leaves a.enemies).map view
  have hleft : ((a.enemies.filter leaves).map Enemy.retire).map view =
      (a.enemies.filter leaves).map view := by
    rw [List.map_map]
    exact List.map_congr_left fun e _ => hretire e
  rw [departed_dismiss, List.map_append, List.map_append, List.map_append, hleft]
  rw [List.map_append] at hsplit
  refine List.Perm.trans ?_ (hsplit.append_right (gone.map view))
  rw [List.append_assoc, ← List.append_assoc]
  exact List.perm_append_comm

variable [Scalar α]

/-! ## Hits -/

/-- All that a hit can do to an enemy and to the bounty of its group. -/
inductive Struck (e : Enemy α) (damage : ℕ) (bounties : Level.Bounties) :
    HitOutcome × Enemy α × Level.Bounties → Prop where
  | absorbed : 0 < e.invincibleFor ∨ e.hitPoints = 0 →
      Struck e damage bounties (.absorbed, e, bounties)
  | hurt : ¬ 0 < e.invincibleFor → damage < e.hitPoints →
      Struck e damage bounties
        (.hurt, { e with hitPoints := e.hitPoints - damage, invincibleFor := e.invincibility },
          bounties)
  | stageCleared : ¬ 0 < e.invincibleFor → e.hitPoints ≠ 0 → e.hitPoints ≤ damage →
      e.flight.isLastStage = false →
      Struck e damage bounties
        (.stageCleared e.flight.completeStage.1,
          { e with
            flight := e.flight.completeStage.2
            hitPoints := e.initialHitPoints
            stageTime := 0
            invincibleFor := e.invincibility }, bounties)
  | defeated : ¬ 0 < e.invincibleFor → e.hitPoints ≠ 0 → e.hitPoints ≤ damage →
      e.flight.isLastStage = true →
      Struck e damage bounties
        (.defeated (bounties.defeat e.group).1, { e with hitPoints := 0 },
          (bounties.defeat e.group).2)

theorem hit_struck (e : Enemy α) (damage : ℕ) (bounties : Level.Bounties) :
    Struck e damage bounties (e.hit damage bounties) := by
  unfold Enemy.hit
  by_cases habsorbs : (0 < e.invincibleFor || e.hitPoints = 0) = true
  · rw [if_pos habsorbs]
    exact .absorbed (by simpa using habsorbs)
  · rw [if_neg habsorbs]
    obtain ⟨hopen, hlives⟩ : ¬ 0 < e.invincibleFor ∧ e.hitPoints ≠ 0 := by simpa using habsorbs
    by_cases hdamage : damage < e.hitPoints
    · rw [if_pos hdamage]
      exact .hurt hopen hdamage
    · rw [if_neg hdamage]
      by_cases hlast : e.flight.isLastStage = true
      · rw [if_neg (by simp [hlast])]
        exact .defeated hopen hlives (not_lt.1 hdamage) hlast
      · rw [if_pos (by simp [hlast])]
        exact .stageCleared hopen hlives (not_lt.1 hdamage) (by simpa using hlast)

/-- Whatever a hit does, the channel of an enemy goes on, and most of the enemy stays. -/
theorem hit_frame (e : Enemy α) (damage : ℕ) (bounties : Level.Bounties) :
    ∃ hitPoints invincibleFor stageTime flight,
      (e.hit damage bounties).2.1 = { e with hitPoints, invincibleFor, stageTime, flight } ∧
        flight.channel = e.flight.channel := by
  have hchannel : e.flight.completeStage.2.channel = e.flight.channel := by
    unfold Trajectory.Flight.completeStage
    split <;> rfl
  have hstruck := hit_struck e damage bounties
  generalize e.hit damage bounties = result at hstruck
  cases hstruck with
  | stageCleared => exact ⟨_, _, _, _, rfl, hchannel⟩
  | _ => exact ⟨_, _, _, _, rfl, rfl⟩

variable [Elementary α]

theorem hitFirst_ok {position : Vec α} {bounties bounties' : Level.Bounties}
    {enemies later : List (Enemy α)} {outcome : HitOutcome} {target : Enemy α}
    (h : hitFirst position bounties enemies = some (outcome, target, later, bounties')) :
    ∃ before e after, enemies = before ++ e :: after ∧ later = before ++ target :: after ∧
      e.isHitAt position = true ∧ (∀ other ∈ before, other.isHitAt position = false) ∧
      e.hit 1 bounties = (outcome, target, bounties') := by
  induction enemies generalizing later with
  | nil => cases h
  | cons e rest ih =>
    unfold hitFirst at h
    by_cases hreach : e.isHitAt position = true
    · rw [if_pos hreach] at h
      obtain ⟨rfl, rfl, rfl, rfl⟩ : _ ∧ _ ∧ _ ∧ _ := by
        simpa only [Option.some.injEq, Prod.mk.injEq] using h
      exact ⟨[], e, rest, rfl, rfl, hreach, by simp, rfl⟩
    · rw [if_neg hreach] at h
      obtain ⟨⟨_, _, later, _⟩, hrest, heq⟩ := Option.map_eq_some_iff.1 h
      obtain ⟨rfl, rfl, rfl, rfl⟩ : _ ∧ _ ∧ _ ∧ _ := by simpa only [Prod.mk.injEq] using heq
      obtain ⟨before, e', after, rfl, rfl, hhit, hmissed, hstruck⟩ := ih hrest
      refine ⟨e :: before, e', after, rfl, rfl, hhit, ?_, hstruck⟩
      exact List.forall_mem_cons.2 ⟨by simpa using hreach, hmissed⟩

/-! ## Moving -/

/-- The enemy as it fires: it has moved on, and what its channel has delivered is in force. -/
def Enemy.armed (e : Enemy α) (world : Vec α) (tempo dt : α) : Enemy α :=
  (e.advance dt).rearm world tempo

def Enemy.moved (e : Enemy α) (world : Vec α) (tempo dt : α) : Enemy α :=
  let armed := e.armed world tempo dt
  { armed with trigger := (armed.trigger.update armed.pattern.rhythm #[] dt).1 }

theorem moved_frame (e : Enemy α) (world : Vec α) (tempo dt : α) :
    ∃ invincibleFor stageTime previous position flight pattern trigger mailbox,
      e.moved world tempo dt =
        { e with
          invincibleFor, stageTime, previous, position, flight, pattern, trigger, mailbox } := by
  unfold Enemy.moved Enemy.armed Enemy.rearm
  split
  · exact ⟨_, _, _, _, _, _, _, _, rfl⟩
  · split <;> exact ⟨_, _, _, _, _, _, _, _, rfl⟩

theorem step_moves {e : Enemy α} {world target : Vec α} {tempo dt : α} {w w' : Words}
    {result : Enemy α × List (Shot α)} (h : e.step world target tempo dt w = .ok (result, w')) :
    result.1 = e.moved world tempo dt := by
  obtain ⟨shots, w₁, -, h⟩ := draws_of_ok h
  obtain ⟨rfl, -⟩ := Prod.mk.inj (Except.ok.inj h)
  rfl

/-- Is fired by an enemy of the arena in a step. -/
def Fires (a : Arena α) (dt : α) (e : Enemy α) (s : Shot α) : Prop :=
  ∃ w w' later shots, e.step a.world a.player.position a.tempo dt w =
    .ok ((later, shots), w') ∧ s ∈ shots

/-- Every enemy makes its part, and nothing else changes but that there are the shots that they
fire. -/
theorem stepEnemies_ok {a b : Arena α} {dt : α} {w w' : Words}
    (h : a.stepEnemies dt w = .ok (b, w')) :
    ∃ fired, b = { a with enemies := a.enemies.map (Enemy.moved · a.world a.tempo dt), shots :=
  a.shots ++ fired } ∧
      ∀ s ∈ fired, ∃ e ∈ a.enemies, a.Fires dt e s := by
  obtain ⟨results, w₁, hresults, h⟩ := draws_of_ok h
  obtain ⟨rfl, -⟩ := Prod.mk.inj (Except.ok.inj h)
  have hparts : List.Forall₂ (fun e r => e.moved a.world a.tempo dt = r.1 ∧
      ∀ s ∈ r.2, a.Fires dt e s) a.enemies
      results := by
    refine draws_mapM (fun e r w w' hstep => ⟨(step_moves hstep).symm, fun s hs => ?_⟩) hresults
    exact ⟨w, w', r.1, r.2, hstep, hs⟩
  have hmoved : List.Forall₂ (· = ·) (a.enemies.map (Enemy.moved · a.world a.tempo dt))
    (results.map Prod.fst) :=
    List.forall₂_map_left_iff.2 (List.forall₂_map_right_iff.2 (hparts.imp fun _ _ hpart => hpart.1))
  rw [List.forall₂_eq_eq_eq] at hmoved
  rw [← hmoved]
  refine ⟨_, rfl, fun s hs => ?_⟩
  obtain ⟨r, hr, hs⟩ := List.mem_flatMap.1 hs
  obtain ⟨e, he, -, hfires⟩ := exists_partner hparts hr
  exact ⟨e, he, hfires s hs⟩

theorem stepShots_ok {a b : Arena α} {dt : α} (h : a.stepShots dt = .ok b) :
    ∃ shots, b = { a with shots } ∧
      ∀ s ∈ shots, ∃ before ∈ a.shots, before.step a dt = .ok s ∧
        within s.position a.world = true := by
  obtain ⟨shots, hshots, h⟩ := parts_of_ok h
  obtain rfl := Except.ok.inj h
  refine ⟨_, rfl, fun s hs => ?_⟩
  obtain ⟨hs, hstays⟩ := List.mem_filter.1 hs
  obtain ⟨before, hbefore, hstep⟩ := exists_partner (parts_mapM hshots) hs
  exact ⟨before, hbefore, hstep, (Bool.and_eq_true_iff.1 hstays).2⟩

/-! ## A whole step -/

omit [Scalar α] [Elementary α] in
def Turn.andThen (turn : Turn α) (next : Arena α → Turn α) : Turn α :=
  ⟨(next turn.arena).arena, turn.happenings ++ (next turn.arena).happenings⟩

/-- What a step does when enemies and shots have moved. -/
def resolve (a : Arena α) (dt : α) : Turn α :=
  ((a.resolvePlayerShots.andThen resolveEnemyShots).andThen (stepPickups · dt)).andThen
    (dropOffscreen · dt)

def moved (a : Arena α) (dt : α) (shots : List (Shot α)) : Arena α :=
  { a with
    frame := a.frame + 1
    player := { a.player with recovering := Scalar.max (a.player.recovering - dt) 0 }
    enemies := a.enemies.map (Enemy.moved · a.world a.tempo dt)
    shots }

/-- Flies on in a step, or is fired in it, and stays on the screen. -/
def Flies (a : Arena α) (dt : α) (s : Shot α) : Prop :=
  ∃ before, (before ∈ a.shots ∨ ∃ e ∈ a.enemies, a.Fires dt e before) ∧
    before.step (a.moved dt []) dt = .ok s ∧ within s.position a.world = true

theorem step_idle {a : Arena α} {dt : α} (h : dt ≤ 0 ∨ a.status = .gameOver) (w : Words) :
    a.step dt w = .ok (⟨a, []⟩, w) := by
  unfold step
  rw [if_pos (by simpa using h)]
  rfl

/-- A step without length and one after the game change nothing. In any other enemies and shots move
first. -/
theorem step_flies {a : Arena α} {dt : α} {turn : Turn α} {w w' : Words}
    (h : a.step dt w = .ok (turn, w')) : (dt ≤ 0 ∨ a.status = .gameOver) ∧ turn = ⟨a, []⟩ ∨
    (¬ dt ≤ 0 ∧ a.status ≠ .gameOver) ∧ ∃ shots, turn = (a.moved dt shots).resolve dt ∧
    ∀ s ∈ shots, a.Flies dt s := by
  unfold step at h
  by_cases hidle : (dt ≤ 0 || a.status = .gameOver) = true
  · rw [if_pos hidle] at h
    obtain ⟨rfl, -⟩ := Prod.mk.inj (Except.ok.inj h)
    exact Or.inl ⟨by simpa using hidle, rfl⟩
  · rw [if_neg hidle] at h
    obtain ⟨b, w₁, hb, h⟩ := draws_of_ok h
    obtain ⟨c, w₂, hc, h⟩ := draws_of_ok h
    obtain ⟨rfl, -⟩ := Prod.mk.inj (Except.ok.inj h)
    have hlift : (b.stepShots dt >>= fun c => .ok (c, w₁)) = .ok (c, w₂) := hc
    obtain ⟨c', hshots, hlift⟩ := parts_of_ok hlift
    obtain ⟨rfl, -⟩ := Prod.mk.inj (Except.ok.inj hlift)
    obtain ⟨fired, rfl, hfired⟩ := stepEnemies_ok hb
    obtain ⟨shots, rfl, hflies⟩ := stepShots_ok hshots
    refine Or.inr ⟨by simpa using hidle, shots, rfl, fun s hs => ?_⟩
    obtain ⟨before, hbefore, hstep⟩ := hflies s hs
    exact ⟨before, (List.mem_append.1 hbefore).imp_right (hfired before), hstep⟩

theorem step_cases {a : Arena α} {dt : α} {turn : Turn α} {w w' : Words}
    (h : a.step dt w = .ok (turn, w')) : (dt ≤ 0 ∨ a.status = .gameOver) ∧ turn = ⟨a, []⟩ ∨
    (¬ dt ≤ 0 ∧ a.status ≠ .gameOver) ∧ ∃ shots, turn = (a.moved dt shots).resolve dt :=
  (step_flies h).imp_right fun ⟨hmoves, shots, hturn, _⟩ => ⟨hmoves, shots, hturn⟩

/-! ## Resolving -/

/-- Enemy shots are a matter of shots and of the player, who stays in place. -/
theorem resolveEnemyShots_frame (a : Arena α) :
    ∃ player shots status later, a.resolveEnemyShots = ⟨{ a with player, shots, status }, later⟩ ∧
      player.position = a.player.position ∧ ∀ o ∈ later, Happening.Quiet o := by
  unfold resolveEnemyShots
  dsimp only
  split
  · exact ⟨a.player, a.shots, a.status, [], rfl, rfl, by simp⟩
  · exact ⟨_, _, _, [.lifeLost], rfl, rfl, by simp [Happening.Quiet]⟩

theorem stepPickups_frame (a : Arena α) (dt : α) :
    ∃ pickups score later, a.stepPickups dt = ⟨{ a with pickups, score }, later⟩ ∧
      ∀ o ∈ later, Happening.Quiet o := by
  refine ⟨_, _, _, rfl, fun o ho => ?_⟩
  obtain ⟨p, -, rfl⟩ := List.mem_map.1 ho
  trivial

section

variable {M : Arena α → List (Happening α) → Prop} {a : Arena α} {seen : List (Happening α)}

/-- What is kept by every hit, and does not look at shots, holds when all shots are resolved. -/
theorem resolveShots_induction
    (reload : ∀ {a seen} shots, M a seen → M { a with shots } seen)
    (hit : ∀ {a seen position outcome target enemies bounties}, M a seen →
      hitFirst position a.bounties a.enemies = some (outcome, target, enemies, bounties) →
      M ({ a with enemies, bounties }.settle target outcome) (seen ++ [.hit target.id outcome]))
    (shots : List (Shot α)) (h : M a seen) :
    M (resolveShots shots a).arena (seen ++ (resolveShots shots a).happenings) := by
  induction shots generalizing a seen with
  | nil =>
    rw [resolveShots, List.append_nil]
    exact reload [] h
  | cons s rest ih =>
    unfold resolveShots
    split
    · split
      · exact reload _ (ih h)
      · next outcome target enemies bounties hhit =>
        have hrest := ih (hit h hhit)
        rw [List.append_assoc] at hrest
        exact hrest
    · exact reload _ (ih h)

/-- What is kept by hits, by the departure of beaten enemies and of those that have stayed away for
too long, and does not look at anything but enemies and bounties, holds when everything is
resolved. -/
theorem resolve_induction
    (other : ∀ {a seen} player shots pickups status score later, M a seen →
      (∀ o ∈ later, Happening.Quiet o) → M { a with player, shots, pickups, status, score }
        (seen ++ later))
    (hit : ∀ {a seen position outcome target enemies bounties}, M a seen →
      hitFirst position a.bounties a.enemies = some (outcome, target, enemies, bounties) →
      M { a with enemies, bounties } (seen ++ [.hit target.id outcome]))
    (beaten : ∀ {a seen} (leaves : Enemy α → Bool), M a seen →
      (∀ e, leaves e = true ↔ e.hitPoints = 0) →
      M (a.dismiss .defeated leaves).arena (seen ++ (a.dismiss .defeated leaves).happenings))
    (watch : ∀ {a seen} (dt : α), M a seen →
      M { a with enemies := a.enemies.map (Enemy.watch · a.world dt) } seen)
    (overstayed : ∀ {a seen} (leaves : Enemy α → Bool), M a seen →
      (∀ e ∈ a.enemies, e.hitPoints ≠ 0) →
      M (a.dismiss .overstayed leaves).arena (seen ++ (a.dismiss .overstayed leaves).happenings))
    (dt : α) (h : M a seen) : M (a.resolve dt).arena (seen ++ (a.resolve dt).happenings) := by
  have hsame : ∀ {a seen} player shots pickups status score, M a seen →
      M { a with player, shots, pickups, status, score } seen := by
    intro a seen player shots pickups status score h
    have h := other player shots pickups status score [] h (by simp)
    rwa [List.append_nil] at h
  have hshots : M (resolveShots a.shots a).arena (seen ++ (resolveShots a.shots a).happenings) :=
    resolveShots_induction (fun shots h => hsame _ shots _ _ _ h)
      (fun h hhit => hsame _ _ _ _ _ (hit h hhit)) a.shots h
  -- The beaten are gone before the edges are watched, so nobody who overstays is beaten: `hlives`
  -- goes along.
  have hplayer := beaten _ hshots fun e => decide_eq_true_iff
  have hlives : ∀ e ∈ a.resolvePlayerShots.arena.enemies, e.hitPoints ≠ 0 := by
    intro e he
    simpa using (List.mem_filter.1 he).2
  rw [List.append_assoc] at hplayer
  change M a.resolvePlayerShots.arena (seen ++ a.resolvePlayerShots.happenings) at hplayer
  generalize hb : a.resolvePlayerShots = first at hplayer hlives
  have hlost : M (first.andThen resolveEnemyShots).arena
      (seen ++ (first.andThen resolveEnemyShots).happenings) ∧
      (first.andThen resolveEnemyShots).arena.enemies = first.arena.enemies := by
    obtain ⟨player, shots, status, later, hshots, -, hquiet⟩ := resolveEnemyShots_frame first.arena
    unfold Turn.andThen
    dsimp only
    rw [hshots, ← List.append_assoc]
    exact ⟨other player shots _ status _ later hplayer hquiet, rfl⟩
  obtain ⟨hlost, henemies⟩ := hlost
  rw [← henemies] at hlives
  generalize hc : first.andThen resolveEnemyShots = second at hlost hlives
  have hpickups : M (second.andThen (stepPickups · dt)).arena
      (seen ++ (second.andThen (stepPickups · dt)).happenings) := by
    obtain ⟨pickups, score, later, hstep, hquiet⟩ := stepPickups_frame second.arena dt
    unfold Turn.andThen
    dsimp only
    rw [hstep, ← List.append_assoc]
    exact other _ _ pickups _ score later hlost hquiet
  have hdropped := overstayed (fun e => !decide (e.offscreenFor ≤ second.arena.grace))
    (watch dt hpickups) ?_
  · rw [List.append_assoc] at hdropped
    rw [resolve, hb, hc]
    exact hdropped
  · intro e he
    obtain ⟨e', he', rfl⟩ := List.mem_map.1 he
    exact hlives e' he'

/-- A view of an enemy that neither hits nor the edges of the screen change. -/
structure Lasting {β : Type} (view : Enemy α → β) : Prop where
  hit : ∀ e damage bounties, view (e.hit damage bounties).2.1 = view e
  watch : ∀ e world dt, view (Enemy.watch e world dt) = view e
  retire : ∀ e, view (Enemy.retire e) = view e

/-- Whoever was there when everything had moved is there in the end, or has departed. -/
theorem Lasting.resolve {β : Type} {view : Enemy α → β} (h : Lasting view) (a : Arena α) (dt : α) :
    (((a.resolve dt).arena.enemies ++ departed (a.resolve dt).happenings).map view).Perm
      (a.enemies.map view) := by
  have hdismiss : ∀ (b : Arena α) (seen : List (Happening α)) (cause : Cause)
      (leaves : Enemy α → Bool), ((b.enemies ++ departed seen).map view).Perm (a.enemies.map view) →
      (((b.dismiss cause leaves).arena.enemies ++ departed
        (seen ++ (b.dismiss cause leaves).happenings)).map view).Perm (a.enemies.map view) := by
    intro b seen cause leaves hb
    rw [departed_append]
    exact (dismiss_perm h.retire b (departed seen) cause leaves).trans hb
  have hstart : ((a.enemies ++ departed []).map view).Perm (a.enemies.map view) := by
    simp [departed]
  refine resolve_induction
    (M := fun b seen => ((b.enemies ++ departed seen).map view).Perm (a.enemies.map view))
    ?_ ?_ ?_ ?_ ?_ dt hstart
  · intro b seen _ _ _ _ _ later hb hquiet
    rwa [departed_append, departed_of_quiet hquiet, List.append_nil]
  · intro b seen position outcome target enemies bounties hb hhit
    obtain ⟨before, e, after, hbefore, rfl, -, -, hstruck⟩ := hitFirst_ok hhit
    have htarget : view target = view e := by
      rw [← h.hit e 1 b.bounties, hstruck]
    have hnone : departed [Happening.hit target.id outcome] = ([] : List (Enemy α)) := rfl
    rw [departed_append, hnone]
    rw [hbefore] at hb
    simpa [htarget] using hb
  · exact fun leaves hb _ => hdismiss _ _ _ leaves hb
  · intro b seen dt hb
    have hwatch : (b.enemies.map (Enemy.watch · b.world dt)).map view = b.enemies.map view := by
      rw [List.map_map]
      exact List.map_congr_left fun e _ => h.watch e b.world dt
    rw [List.map_append] at hb ⊢
    rwa [hwatch]
  · exact fun leaves hb _ => hdismiss _ _ _ leaves hb

end

end Arena

end Barrage
