import Barrage.Proofs.Game.Census

/-! # Patterns in force

A pattern change goes from a trajectory over a channel into a mailbox, and from there to the enemy
that fires. All of this happens within one part of a step, so that between steps nothing is on its
way: what the channel of an enemy carries is what the enemy fires. -/

namespace Barrage

namespace Arena

open Pattern (Packed Volley)

variable {α : Type} [Scalar α]

omit [Scalar α] in
/-- What its channel carries is in force, and nothing waits. -/
structure Enemy.InForce (e : Enemy α) : Prop where
  mailbox_eq : e.mailbox = none
  last_eq : e.flight.channel.last = some e.pattern.packed

theorem spawn_inForce (id : ℕ) (world : Vec α) (tempo : α) (r : Level.SpawnRequest α) :
    (Enemy.spawn id world tempo r).InForce := ⟨rfl, rfl⟩

theorem receive_inForce {a : Arena α} (h : ∀ e ∈ a.enemies, e.InForce) (event : Level.Event α) :
    ∀ e ∈ (a.receive event).enemies, e.InForce := by
  cases event with
  | spawn request =>
    intro e he
    rcases List.mem_append.1 he with he | he
    · exact h e he
    · rw [List.mem_singleton.1 he]
      exact spawn_inForce a.nextId a.world a.tempo request
  | _ => exact h

theorem receiveAll_inForce {a : Arena α} (h : ∀ e ∈ a.enemies, e.InForce)
    (events : List (Level.Event α)) : ∀ e ∈ (events.foldl receive a).enemies, e.InForce := by
  induction events generalizing a with
  | nil => exact h
  | cons event rest ih => exact ih (receive_inForce h event)

variable [Elementary α]

/-! ## One enemy -/

def Enemy.announced (e : Enemy α) (dt : α) : List Packed :=
  (e.flight.program.run e.flight.stage e.origin (e.stageTime + dt) e.flight.latches).announced

/-- What is left in the end of all that is announced in a step. -/
def Enemy.settledOn (e : Enemy α) (dt : α) : Packed :=
  (e.announced dt).getLast?.getD e.pattern.packed

variable {e e' : Enemy α}

theorem advance_last (h : e.InForce) (dt : α) :
    (e.advance dt).flight.channel.last = some (e.settledOn dt) := by
  have hlast := Channel.publishAll_last e.flight.channel (e.announced dt)
  rw [h.last_eq] at hlast
  refine hlast.trans ?_
  unfold Enemy.settledOn
  cases (e.announced dt).getLast? <;> rfl

/-- The one listener of the channel hears the changes, and the mailbox keeps the last of them. -/
theorem advance_mailbox (h : e.InForce) (hheard : e.Heard) (dt : α) :
    (e.advance dt).mailbox.or (some e.pattern.packed) = some (e.settledOn dt) := by
  have hdelivered : (e.flight.channel.publishAll (e.announced dt)).2.map Delivery.pattern =
      Channel.novel (some e.pattern.packed) (e.announced dt) := by
    rw [Channel.publishAll_heard, hheard, h.last_eq, List.map_flatMap]
    exact List.flatMap_singleton' _
  have hmailbox : (e.advance dt).mailbox =
      (Channel.novel (some e.pattern.packed) (e.announced dt)).getLast? := by
    change lastHeard e.mailbox (e.flight.channel.publishAll (e.announced dt)).2 = _
    rw [lastHeard, h.mailbox_eq, Option.or_none, ← List.getLast?_map, hdelivered]
  have hlast := Channel.getLast?_novel (some e.pattern.packed) (e.announced dt)
  rw [List.getLast?_append] at hlast
  rw [hmailbox]
  refine hlast.trans ?_
  unfold Enemy.settledOn
  cases (e.announced dt).getLast? <;> rfl

structure Gear (α : Type) where
  id : ℕ
  mailbox : Option Packed
  carried : Option Packed
  pattern : Volley α
  trigger : Scheduler α

omit [Scalar α] [Elementary α] in
def Enemy.gear (e : Enemy α) : Gear α :=
  ⟨e.id, e.mailbox, e.flight.channel.last, e.pattern, e.trigger⟩

omit [Elementary α] in
theorem gear_lasting : Lasting (Enemy.gear (α := α)) := by
  refine ⟨fun e damage bounties => ?_, fun _ _ _ => rfl, fun _ => rfl⟩
  obtain ⟨_, _, _, flight, hhit, hchannel⟩ := hit_frame e damage bounties
  rw [hhit]
  simp only [Enemy.gear, hchannel]

theorem armed_gear (h : e.InForce) (hheard : e.Heard) (world : Vec α) (tempo dt : α) :
    (e.armed world tempo dt).gear =
      if e.settledOn dt = e.pattern.packed then ⟨e.id, none, some e.pattern.packed,
        e.pattern, e.trigger⟩
      else
        let pattern := Volley.decode (e.settledOn dt) world.x tempo
        ⟨e.id, none, some (e.settledOn dt), pattern, pattern.trigger⟩ := by
  have hlast := advance_last h dt
  have hmailbox := advance_mailbox h hheard dt
  cases hwaiting : (e.advance dt).mailbox with
  | none =>
    have hstays : e.armed world tempo dt = e.advance dt := by
      unfold Enemy.armed Enemy.rearm
      rw [hwaiting]
    rw [hwaiting] at hmailbox
    have hsame : e.settledOn dt = e.pattern.packed := (Option.some.inj hmailbox).symm
    rw [hstays, if_pos hsame, ← hsame, ← hlast, ← hwaiting]
    rfl
  | some packed =>
    have hswaps : e.armed world tempo dt =
        if packed = e.pattern.packed then { e.advance dt with mailbox := none }
        else
          let pattern := Volley.decode packed world.x tempo
          { e.advance dt with mailbox := none, pattern, trigger := pattern.trigger } := by
      unfold Enemy.armed Enemy.rearm
      rw [hwaiting]
      rfl
    rw [hwaiting] at hmailbox
    obtain rfl : packed = e.settledOn dt := Option.some.inj hmailbox
    rw [hswaps]
    by_cases hsame : e.settledOn dt = e.pattern.packed
    · rw [if_pos hsame, if_pos hsame, ← hsame, ← hlast]
      rfl
    · rw [if_neg hsame, if_neg hsame, ← hlast]
      rfl

structure Enemy.Refits (e : Enemy α) (world : Vec α) (tempo dt : α) (e' : Enemy α) : Prop where
  inForce : e'.InForce
  advanced : (e.advance dt).flight.channel.last = some (e.settledOn dt)
  packed_eq : e'.pattern.packed = e.settledOn dt
  kept : e.settledOn dt = e.pattern.packed →
    e'.pattern = e.pattern ∧ e'.trigger = (e.trigger.update e.pattern.rhythm #[] dt).1
  renewed : e.settledOn dt ≠ e.pattern.packed →
    e'.pattern = Volley.decode (e.settledOn dt) world.x tempo ∧ e'.pattern.trigger.count = 0 ∧
      e'.trigger = (e'.pattern.trigger.update e'.pattern.rhythm #[] dt).1

theorem refits_of_gear (h : e.InForce) (hheard : e.Heard) {world : Vec α} {tempo dt : α}
    (heq : e'.gear = (e.moved world tempo dt).gear) :
    e'.id = e.id ∧ e.Refits world tempo dt e' := by
  have harmed := armed_gear h hheard world tempo dt
  have hmoved : (e.moved world tempo dt).gear =
      { (e.armed world tempo dt).gear with
        trigger := ((e.armed world tempo dt).gear.trigger.update
          (e.armed world tempo dt).gear.pattern.rhythm #[] dt).1 } := rfl
  rw [hmoved, harmed] at heq
  by_cases hsame : e.settledOn dt = e.pattern.packed
  · rw [if_pos hsame] at heq
    obtain ⟨hid, hmailbox, hcarried, hpattern, htrigger⟩ := Gear.mk.inj heq
    refine ⟨hid, ⟨hmailbox, ?_⟩, advance_last h dt, ?_, fun _ => ⟨hpattern, htrigger⟩,
      fun hne => absurd hsame hne⟩
    · rw [hpattern]
      exact hcarried
    · rw [hpattern, hsame]
  · rw [if_neg hsame] at heq
    obtain ⟨hid, hmailbox, hcarried, hpattern, htrigger⟩ := Gear.mk.inj heq
    refine ⟨hid, ⟨hmailbox, ?_⟩, advance_last h dt, ?_, fun heq => absurd heq hsame,
      fun _ => ⟨hpattern, rfl, ?_⟩⟩
    · rw [hpattern]
      exact hcarried
    · rw [hpattern]
      rfl
    · rw [hpattern]
      exact htrigger

/-! ## A step -/

/-- Whoever is there after a step, or has departed in it, was there before with the gear that it
comes from. -/
theorem step_gears {a : Arena α} {dt : α} {turn : Turn α} {w w' : Words}
    (h : a.step dt w = .ok (turn, w')) (hdt : ¬ dt ≤ 0) (hplays : a.status ≠ .gameOver) :
    ((turn.arena.enemies ++ departed turn.happenings).map Enemy.gear).Perm
      (a.enemies.map fun e => (e.moved a.world a.tempo dt).gear) := by
  rcases step_cases h with ⟨hidle, -⟩ | ⟨-, shots, rfl⟩
  · exact absurd hidle (not_or.2 ⟨hdt, hplays⟩)
  · refine (gear_lasting.resolve _ dt).trans (.of_eq ?_)
    exact List.map_map

end Arena

namespace Game

open Arena (Enemy)

variable {α : Type} [Scalar α] [Elementary α]

structure Coherent (g : Game α) (seen : List (Observation α)) : Prop where
  census : Census g seen
  inForce : ∀ e ∈ g.arena.enemies, e.InForce

variable {g : Game α} {seen : List (Observation α)} {dt : α}

theorem coherent_step {turn : Arena.Turn α} {words : Words} (h : Coherent g seen)
    (hturn : g.arena.step dt g.words = .ok (turn, words)) (hdt : ¬ dt ≤ 0)
    (hplays : g.arena.status ≠ .gameOver) :
    ∀ e' ∈ turn.arena.enemies ++ Arena.departed turn.happenings,
      ∃ e ∈ g.arena.enemies, e'.id = e.id ∧ e.Refits g.arena.world g.arena.tempo dt e' := by
  intro e' he'
  have hmem := (Arena.step_gears hturn hdt hplays).subset (List.mem_map_of_mem he')
  obtain ⟨e, he, hgear⟩ := List.mem_map.1 hmem
  exact ⟨e, he, Arena.refits_of_gear (h.inForce e he) (h.census.roster.heard e he) hgear.symm⟩

theorem coherent_run (h : Coherent g seen) {g' : Game α} {observed : List (Observation α)}
    {actions : List (Action α)} (hrun : g.run actions = .ok (g', observed)) :
    Coherent g' (seen ++ observed) := by
  refine run_induction ?_ ?_ ?_ h hrun
  · intro g seen dt frame h hframe
    exact ⟨census_hear h.census hframe, Arena.receiveAll_inForce h.inForce frame.events⟩
  · intro g seen dt turn words h hturn
    refine ⟨census_report h.census hturn, ?_⟩
    rw [report, release_eq]
    rcases Arena.step_cases hturn with ⟨-, rfl⟩ | ⟨⟨hdt, hplays⟩, -⟩
    · exact h.inForce
    · intro e' he'
      obtain ⟨e, -, -, hrefits⟩ := coherent_step h hturn hdt hplays e' (List.mem_append_left _ he')
      exact hrefits.inForce
  · intro g seen position shots h
    obtain ⟨hcensus, hinForce⟩ := h
    exact ⟨⟨hcensus.live, hcensus.issued, hcensus.roster.of_eq rfl rfl, hcensus.tempo⟩, hinForce⟩

/-- However a game is played from its start, and after each event that the arena hears, what the
channel of an enemy carries is in force and nothing waits in its mailbox. In a step of some length
the trajectory of an enemy may announce several patterns; the last of them settles the matter, and
the enemy gets a fresh trigger if that is not the pattern that it had, and goes on with the old one
if it is, whatever was announced in between. -/
theorem enemies_keep_to_their_channels (script : List (Script.Instruction α)) (world : Vec α)
    (tempo grace : α) (levelWords arenaWords : Words) (actions : List (Action α))
    (hrun : (start script world tempo grace levelWords arenaWords).run actions = .ok (g, seen)) :
    (∀ e ∈ g.arena.enemies, e.InForce) ∧
    (∀ dt frame, g.level.update g.arena.world dt = .ok frame → ∀ heard, heard <+: frame.events →
      ∀ e ∈ (heard.foldl Arena.receive g.arena).enemies, e.InForce) ∧
    ∀ dt turn words, g.arena.step dt g.words = .ok (turn, words) → ¬ dt ≤ 0 →
      g.arena.status ≠ .gameOver →
      let after := turn.arena.enemies ++ Arena.departed turn.happenings
      (after.map Enemy.id).Perm (g.arena.enemies.map Enemy.id) ∧
        ∀ e ∈ g.arena.enemies, ∀ e' ∈ after, e'.id = e.id →
          e.Refits g.arena.world g.arena.tempo dt e' := by
  have hcoherent : Coherent g seen := by
    refine coherent_run ⟨census_start script world tempo grace levelWords arenaWords, ?_⟩ hrun
    exact List.forall_mem_nil _
  refine ⟨hcoherent.inForce, fun _ frame _ heard _ =>
    Arena.receiveAll_inForce hcoherent.inForce heard, ?_⟩
  intro dt turn words hturn hdt hplays after
  constructor
  · have hgears := (Arena.step_gears hturn hdt hplays).map Arena.Gear.id
    rw [List.map_map, List.map_map] at hgears
    refine hgears.trans (.of_eq (List.map_congr_left fun e _ => ?_))
    exact (Arena.moved_follows e g.arena.world g.arena.tempo dt).id_eq
  · intro e he e' he' hid
    obtain ⟨e₀, he₀, hid₀, hrefits⟩ := coherent_step hcoherent hturn hdt hplays e' he'
    have hnodup : (g.arena.enemies.map Enemy.id).Nodup :=
      hcoherent.census.roster.nodup
    obtain rfl : e₀ = e := List.inj_on_of_nodup_map hnodup he₀ he (hid₀.symm.trans hid)
    exact hrefits

def turncoats : Script.Group Float32 :=
  { window := .literal 0, members := [⟨'A', .packed ⟨0⟩⟩, ⟨'C', .packed ⟨991⟩⟩],
    reward := ⟨'P', .never⟩, side := .left, factors := [],
    trajectory := [.shoot (.packed ⟨7⟩), .shoot (.packed ⟨991⟩)] }

/-- Both enemies are told to change twice. The second of them ends with the pattern that it had. -/
theorem second_turncoat_fires_on :
    ∃ g seen turn words,
      (start [.spawn turncoats] ⟨320, 180⟩ 120 0.5 (Words.cycle #[]) (Words.cycle #[])).run
        [.update 1] = .ok (g, seen) ∧
      g.arena.step 0.5 g.words = .ok (turn, words) ∧ turn.arena.enemies.length = 2 ∧
      g.arena.enemies.map (fun e => (e.pattern.packed, e.announced 0.5)) =
        [(⟨0⟩, [⟨7⟩, ⟨991⟩]), (⟨991⟩, [⟨7⟩, ⟨991⟩])] ∧
      ∀ e ∈ g.arena.enemies, ∀ e' ∈ turn.arena.enemies, e'.id = e.id →
        e'.InForce ∧ e'.pattern.packed = ⟨991⟩ ∧
        (e.pattern.packed = ⟨991⟩ →
          e'.trigger = (e.trigger.update e.pattern.rhythm #[] 0.5).1) := by
  have hview :
      ((start [.spawn turncoats] ⟨320, 180⟩ 120 0.5 (Words.cycle #[]) (Words.cycle #[])).run
        [.update 1]).map (fun p =>
        (p.1.arena.enemies.map (fun e => (e.pattern.packed, e.announced 0.5)), p.1.arena.status)) =
      .ok ([(⟨0⟩, [⟨7⟩, ⟨991⟩]), (⟨991⟩, [⟨7⟩, ⟨991⟩])], .playing) := by
    decide +kernel
  have hstep :
      ((start [.spawn turncoats] ⟨320, 180⟩ 120 0.5 (Words.cycle #[]) (Words.cycle #[])).run
        [.update 1]).map (fun p => (p.1.arena.step 0.5 p.1.words).map
          fun q => q.1.arena.enemies.length) = .ok (.ok 2) := by
    decide +kernel
  obtain ⟨⟨g, seen⟩, hrun, hview⟩ := ok_of_map hview
  simp only [Prod.mk.injEq] at hview
  obtain ⟨henemies, hstatus⟩ := hview
  rw [hrun] at hstep
  obtain ⟨⟨turn, words⟩, hturn, htwo⟩ := ok_of_map (Except.ok.inj hstep)
  obtain ⟨-, -, hsteps⟩ := enemies_keep_to_their_channels _ _ _ _ _ _ _ hrun
  obtain ⟨-, hrefits⟩ := hsteps 0.5 turn words hturn (by decide +kernel) (by rw [hstatus]; decide)
  refine ⟨g, seen, turn, words, hrun, hturn, htwo, henemies, fun e he e' he' hid => ?_⟩
  have hrefit := hrefits e he e' (List.mem_append_left _ he') hid
  have hannounced : e.announced 0.5 = [⟨7⟩, ⟨991⟩] := by
    have hmem := List.mem_map_of_mem (f := fun e => (e.pattern.packed, e.announced 0.5)) he
    rw [henemies] at hmem
    simp only [List.mem_cons, List.not_mem_nil, or_false, Prod.mk.injEq] at hmem
    rcases hmem with ⟨-, h⟩ | ⟨-, h⟩ <;> exact h
  have hsettled : e.settledOn 0.5 = ⟨991⟩ := by
    rw [Enemy.settledOn, hannounced]
    rfl
  refine ⟨hrefit.inForce, hrefit.packed_eq.trans hsettled, fun hsame => ?_⟩
  exact (hrefit.kept (hsettled.trans hsame.symm)).2

end Game

end Barrage
