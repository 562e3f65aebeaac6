import Barrage.Proofs.Arena.Parts
import Barrage.Proofs.Channel
import Barrage.Proofs.Level.Telling

/-! # The roster of an arena

Identities are handed out in order, so the enemies in an arena and those that have departed together
bear the ones below the next, each once. An enemy listens on its own channel until it departs. A
step shuffles enemies through shots and edges; whatever it does, one enemy follows another, or
departs. -/

namespace Barrage

namespace Arena

variable {α : Type}

/-- Listens on its own channel under its identity, and nobody else does. -/
def Enemy.Heard (e : Enemy α) : Prop := e.flight.channel.listeners = [(e.id, ())]

structure Enemy.Follows (e e' : Enemy α) : Prop where
  id_eq : e'.id = e.id
  listeners_eq : e'.flight.channel.listeners = e.flight.channel.listeners

theorem Enemy.Follows.refl (e : Enemy α) : e.Follows e := ⟨rfl, rfl⟩

theorem Enemy.Follows.trans {e e' e'' : Enemy α} (h : e.Follows e') (k : e'.Follows e'') :
    e.Follows e'' :=
  ⟨k.id_eq.trans h.id_eq, k.listeners_eq.trans h.listeners_eq⟩

theorem Enemy.Follows.heard {e e' : Enemy α} (h : e.Follows e') (he : e.Heard) : e'.Heard := by
  unfold Heard at he ⊢
  rw [h.listeners_eq, h.id_eq, he]

theorem follows_rfl (enemies : List (Enemy α)) : List.Forall₂ Enemy.Follows enemies enemies := by
  rw [List.forall₂_same]
  intro e _
  exact .refl e

theorem follows_all {enemies later : List (Enemy α)}
    (h : List.Forall₂ Enemy.Follows enemies later) : later.map Enemy.id = enemies.map Enemy.id ∧
      ((∀ e ∈ enemies, e.Heard) → ∀ e ∈ later, e.Heard) := by
  induction h with
  | nil => exact ⟨rfl, fun h => h⟩
  | cons he _ ih =>
    obtain ⟨hids, hrest⟩ := ih
    constructor
    · rw [List.map_cons, List.map_cons, he.id_eq, hids]
    · intro hheard
      rw [List.forall_mem_cons] at hheard ⊢
      exact ⟨he.heard hheard.1, hrest hheard.2⟩

structure Roster (a : Arena α) (gone : List (Enemy α)) : Prop where
  ids : (a.enemies.map Enemy.id ++ gone.map Enemy.id).Perm (List.range a.nextId)
  heard : ∀ e ∈ a.enemies, e.Heard
  retired : ∀ e ∈ gone, e.flight.channel.listeners = []

theorem Roster.of_eq {a b : Arena α} {gone : List (Enemy α)} (h : Roster a gone)
    (henemies : b.enemies = a.enemies) (hid : b.nextId = a.nextId) : Roster b gone := by
  refine ⟨?_, ?_, h.retired⟩
  · rw [henemies, hid]
    exact h.ids
  · rw [henemies]
    exact h.heard

theorem Roster.nodup {a : Arena α} {gone : List (Enemy α)} (h : Roster a gone) :
    (a.enemies.map Enemy.id).Nodup :=
  (h.ids.nodup_iff.2 List.nodup_range).of_append_left

structure Passes (a b : Arena α) (seen : List (Happening α)) : Prop where
  tempo_eq : b.tempo = a.tempo
  nextId_eq : b.nextId = a.nextId
  roster : ∀ gone, Roster a gone → Roster b (gone ++ departed seen)

namespace Passes

variable {a b c : Arena α} {seen later : List (Happening α)}

theorem refl (a : Arena α) : Passes a a [] := by
  refine ⟨rfl, rfl, fun gone hr => ?_⟩
  rwa [departed, List.filterMap_nil, List.append_nil]

theorem trans (h : Passes a b seen) (k : Passes b c later) : Passes a c (seen ++ later) := by
  refine ⟨k.tempo_eq.trans h.tempo_eq, k.nextId_eq.trans h.nextId_eq, fun gone hr => ?_⟩
  have hroster := k.roster _ (h.roster gone hr)
  rwa [List.append_assoc, ← departed_append] at hroster

theorem of_follows (htempo : b.tempo = a.tempo) (hid : b.nextId = a.nextId)
    (henemies : List.Forall₂ Enemy.Follows a.enemies b.enemies) (hnone : departed seen = []) :
    Passes a b seen := by
  refine ⟨htempo, hid, fun gone hr => ?_⟩
  rw [hnone, List.append_nil]
  obtain ⟨hids, hheard⟩ := follows_all henemies
  refine ⟨?_, hheard hr.heard, hr.retired⟩
  rw [hids, hid]
  exact hr.ids

end Passes

theorem dismiss_passes (a : Arena α) (cause : Cause) (leaves : Enemy α → Bool) :
    Passes a (a.dismiss cause leaves).arena (a.dismiss cause leaves).happenings := by
  refine ⟨rfl, rfl, fun gone hr => ⟨?_, ?_, ?_⟩⟩
  · have hids : ((a.enemies ++ gone).map Enemy.id).Perm (List.range a.nextId) := by
      rw [List.map_append]
      exact hr.ids
    rw [← List.map_append]
    exact (dismiss_perm (fun _ => rfl) a gone cause leaves).trans hids
  · exact fun e he => hr.heard e (List.mem_of_mem_filter he)
  · intro e he
    rw [departed_dismiss] at he
    rcases List.mem_append.1 he with he | he
    · exact hr.retired e he
    · obtain ⟨e, hleft, rfl⟩ := List.mem_map.1 he
      have hheard := hr.heard e (List.mem_of_mem_filter hleft)
      unfold Enemy.Heard at hheard
      simp [Enemy.retire, Channel.unsubscribe, hheard]

section

variable [Scalar α] [Elementary α]

theorem moved_follows (e : Enemy α) (world : Vec α) (tempo dt : α) :
    e.Follows (e.moved world tempo dt) := by
  have hadvance : e.Follows (e.advance dt) := ⟨rfl, Channel.publishAll_listeners _ _⟩
  have hrearm : (e.advance dt).Follows (e.armed world tempo dt) := by
    unfold Enemy.armed Enemy.rearm
    split
    · exact .refl _
    · split <;> exact ⟨rfl, rfl⟩
  exact (hadvance.trans hrearm).trans ⟨rfl, rfl⟩

omit [Elementary α] in
theorem hit_follows (e : Enemy α) (damage : ℕ) (bounties : Level.Bounties) :
    e.Follows (e.hit damage bounties).2.1 := by
  obtain ⟨_, _, _, flight, hhit, hchannel⟩ := hit_frame e damage bounties
  rw [hhit]
  exact ⟨rfl, congrArg Channel.listeners hchannel⟩

theorem hitFirst_follows {position : Vec α} {bounties bounties' : Level.Bounties}
    {enemies later : List (Enemy α)} {outcome : HitOutcome} {target : Enemy α}
    (h : hitFirst position bounties enemies = some (outcome, target, later, bounties')) :
    List.Forall₂ Enemy.Follows enemies later := by
  obtain ⟨before, e, after, rfl, rfl, -, -, hhit⟩ := hitFirst_ok h
  have htarget : e.Follows target := by
    have hfollows := hit_follows e 1 bounties
    rwa [hhit] at hfollows
  exact List.rel_append (follows_rfl before) (.cons htarget (follows_rfl after))

theorem resolve_passes (a : Arena α) (dt : α) :
    Passes a (a.resolve dt).arena (a.resolve dt).happenings := by
  refine resolve_induction (M := Passes a) ?_ ?_ ?_ ?_ ?_ dt (Passes.refl a)
  · exact fun _ _ _ _ _ later h hquiet =>
      h.trans (.of_follows rfl rfl (follows_rfl _) (departed_of_quiet hquiet))
  · exact fun h hhit => h.trans (.of_follows rfl rfl (hitFirst_follows hhit) rfl)
  · exact fun leaves h _ => h.trans (dismiss_passes _ _ leaves)
  · intro b seen dt h
    have hwatch : List.Forall₂ Enemy.Follows b.enemies (b.enemies.map (Enemy.watch · b.world dt)) :=
      List.forall₂_map_right_iff.2 (List.forall₂_same.2 fun e _ => ⟨rfl, rfl⟩)
    have hlater : Passes b { b with enemies := b.enemies.map (Enemy.watch · b.world dt) } [] :=
      .of_follows rfl rfl hwatch rfl
    have hwatched := h.trans hlater
    rwa [List.append_nil] at hwatched
  · exact fun leaves h _ => h.trans (dismiss_passes _ _ leaves)

theorem step_passes {a : Arena α} {dt : α} {turn : Turn α} {w w' : Words}
    (h : a.step dt w = .ok (turn, w')) : Passes a turn.arena turn.happenings := by
  rcases step_cases h with ⟨-, rfl⟩ | ⟨-, shots, rfl⟩
  · exact .refl a
  · have hmoved : List.Forall₂ Enemy.Follows a.enemies
      (a.enemies.map (Enemy.moved · a.world a.tempo dt)) :=
      List.forall₂_map_right_iff.2 (List.forall₂_same.2 fun e _ =>
        moved_follows e a.world a.tempo dt)
    have hfirst : Passes a (a.moved dt shots) [] := .of_follows rfl rfl hmoved rfl
    exact hfirst.trans (resolve_passes _ dt)

end

/-! ## Events -/

section

variable [Scalar α]

theorem spawn_heard (id : ℕ) (world : Vec α) (tempo : α) (r : Level.SpawnRequest α) :
    (Enemy.spawn id world tempo r).Heard := rfl

structure Hears (a b : Arena α) (events : List (Level.Event α)) : Prop where
  tempo_eq : b.tempo = events.foldl Level.Event.tempoAfter a.tempo
  nextId_eq : b.nextId = a.nextId + Level.requests events
  length_eq : b.enemies.length = a.enemies.length + Level.requests events
  roster : ∀ gone, Roster a gone → Roster b gone

omit [Scalar α] in
theorem Hears.trans {a b c : Arena α} {earlier later : List (Level.Event α)} (h : Hears a b earlier)
    (k : Hears b c later) : Hears a c (earlier ++ later) := by
  refine ⟨?_, ?_, ?_, fun gone hr => k.roster gone (h.roster gone hr)⟩
  · rw [List.foldl_append, ← h.tempo_eq]
    exact k.tempo_eq
  · rw [Level.requests_append, ← add_assoc, ← h.nextId_eq]
    exact k.nextId_eq
  · rw [Level.requests_append, ← add_assoc, ← h.length_eq]
    exact k.length_eq

theorem receive_hears (a : Arena α) (event : Level.Event α) :
    Hears a (a.receive event) [event] := by
  cases event with
  | spawn request =>
    refine ⟨rfl, rfl, by simp [receive, Level.requests, Level.Event.request?], ?_⟩
    intro gone hr
    refine ⟨?_, ?_, hr.retired⟩
    · have hnew : ((a.enemies.map Enemy.id ++ [a.nextId]) ++ gone.map Enemy.id).Perm
          ((a.enemies.map Enemy.id ++ gone.map Enemy.id) ++ [a.nextId]) := by
        rw [List.append_assoc, List.append_assoc]
        exact List.perm_append_comm.append_left _
      simp only [receive, List.map_append, List.map_singleton, List.range_succ]
      exact hnew.trans (hr.ids.append_right _)
    · intro e he
      rcases List.mem_append.1 he with he | he
      · exact hr.heard e he
      · rw [List.mem_singleton.1 he]
        exact spawn_heard a.nextId a.world a.tempo request
  | _ => exact ⟨rfl, rfl, rfl, fun gone hr => hr.of_eq rfl rfl⟩

theorem receiveAll_hears (a : Arena α) (events : List (Level.Event α)) :
    Hears a (events.foldl receive a) events := by
  induction events generalizing a with
  | nil => exact ⟨rfl, rfl, rfl, fun gone hr => hr⟩
  | cons event rest ih => exact (receive_hears a event).trans (ih _)

theorem start_roster (world : Vec α) (tempo grace : α) : Roster (start world tempo grace) [] := by
  constructor <;> simp [start]

end

end Arena

end Barrage
