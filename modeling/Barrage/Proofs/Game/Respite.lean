import Barrage.Proofs.Arena.Toll
import Barrage.Proofs.Game.Census
import Barrage.Proofs.Game.Overstaying
import Barrage.Proofs.Planned

/-! # Respites

A loss gives the player some time to recover, and a hit makes an enemy invincible for a while.
Timers keep both, and strides wear them down; so from one loss to the next, and from one blow to the
next, strides of at least that time have been made. -/

namespace Barrage

namespace Exact

theorem le_add {v d : Exact} (hv : 0 < v) (hd : 0 ≤ d) : v ≤ v + d := by
  change blt (finite 0) v = true at hv
  change ble (finite 0) d = true at hd
  change ble v (add v d) = true
  cases v <;> cases d <;> simp_all [ble, blt, add]

/-- A timer that has run down to nothing leaves all to the time that has passed. -/
theorem le_of_run_down {v x d : Exact} (hx : 0 ≤ x) (hdown : ¬ 0 < x) (h : v ≤ x + d) : v ≤ d := by
  change ble (finite 0) x = true at hx
  change ¬ blt (finite 0) x = true at hdown
  change ble v (add x d) = true at h
  change ble v d = true
  cases x with
  | finite q =>
    obtain rfl : q = 0 := by
      simp only [ble, blt, decide_eq_true_eq] at hx hdown
      exact le_antisymm (not_lt.1 hdown) hx
    cases v <;> cases d <;> simp_all [ble, add]
  | _ => simp_all [ble, blt]

theorem le_wear {v x d dt : Exact} (hx : 0 ≤ x) (hd : 0 ≤ d) (hdt : 0 < dt) (h : v ≤ x + d) :
    v ≤ Scalar.max (x - dt) 0 + (d + dt) := by
  have htop : v ≤ infinite false := by
    change ble v (add x d) = true at h
    change ble v (infinite false) = true
    cases v with
    | undefined => cases h
    | _ => simp [ble]
  change ble (finite 0) x = true at hx
  change ble (finite 0) d = true at hd
  change blt (finite 0) dt = true at hdt
  cases dt with
  | undefined => cases hdt
  | infinite s =>
    obtain rfl : s = false := by simpa [blt] using hdt
    have hlong : Scalar.max (x - infinite false) 0 + (d + infinite false) = infinite false := by
      cases x with
      | undefined => cases hx
      | infinite t => cases t <;> cases d <;> simp_all [ble] <;> rfl
      | finite q => cases d <;> simp_all [ble] <;> rfl
    rwa [hlong]
  | finite t =>
    cases x with
    | undefined => cases hx
    | infinite s =>
      obtain rfl : s = false := by simpa [ble] using hx
      have hlong : Scalar.max (infinite false - finite t) 0 + (d + finite t) = infinite false := by
        cases d <;> simp_all [ble] <;> rfl
      rwa [hlong]
    | finite q =>
      have hrest : Scalar.max (finite q - finite t) 0 = finite (max (q - t) 0) :=
        Exact.max_zero (q - t)
      rw [hrest]
      cases d with
      | undefined => cases hd
      | infinite s =>
        obtain rfl : s = false := by simpa [ble] using hd
        exact htop
      | finite r =>
        have hle : finite (q + r) ≤ finite (max (q - t) 0 + (r + t)) := by
          have hmax : q - t ≤ max (q - t) 0 := le_max_left _ _
          rw [finite_le]
          linarith
        exact Scalar.Ordered.le_trans h hle

end Exact

namespace Game

open Arena (Enemy Roster losses blows recovery)

section

variable {α : Type} [Scalar α]

def happened (strides : List (Stride α)) : List (Arena.Happening α) :=
  strides.flatMap fun s => s.turn.happenings

def span (strides : List (Stride α)) : α := strides.foldl (fun time s => time + s.dt) 0

theorem span_snoc (strides : List (Stride α)) (s : Stride α) :
    span (strides ++ [s]) = span strides + s.dt := by
  unfold span
  rw [List.foldl_append]
  rfl

/-- What is counted comes once in a stride at most, and between two strides in which it comes there
is a respite: from the end of the first to the end of the second. -/
structure Rationed (respite : α) (count : Stride α → ℕ) (strides : List (Stride α)) : Prop where
  once : ∀ s ∈ strides, count s ≤ 1
  apart : ∀ s between t, s :: (between ++ [t]) <:+: strides → 0 < count s → 0 < count t →
    respite ≤ span (between ++ [t])

structure Timed (respite timer : α) (count : Stride α → ℕ) (strides : List (Stride α)) : Prop
    extends Rationed respite count strides where
  timer_nonneg : 0 ≤ timer
  since : ∀ s later, s :: later <:+ strides → 0 < count s → respite ≤ timer + span later

end

theorem span_nonneg {strides : List (Stride Exact)} (h : ∀ s ∈ strides, 0 < s.dt) :
    0 ≤ span strides := by
  induction strides using List.reverseRecOn with
  | nil => exact Scalar.Ordered.zero_defined
  | append_singleton earlier s ih =>
    rw [span_snoc]
    apply Exact.zero_le_add
    · exact ih fun s hs => h s (List.mem_append_left _ hs)
    · exact h s (by simp)

section

variable {respite timer : Exact} {count : Stride Exact → ℕ} {strides : List (Stride Exact)}
    {s : Stride Exact}

theorem Rationed.rest (h : Rationed respite count strides) (hnone : count s = 0) :
    Rationed respite count (strides ++ [s]) := by
  constructor
  · intro t ht
    rcases List.mem_append.1 ht with ht | ht
    · exact h.once t ht
    · rw [List.mem_singleton.1 ht, hnone]
      exact Nat.zero_le 1
  · intro first between last hwithin hfirst hlast
    rcases List.infix_concat_iff.1 hwithin with hsuffix | hwithin
    · rcases List.suffix_concat_iff.1 hsuffix with hnil | ⟨rest, heq, -⟩
      · cases hnil
      · rw [← List.cons_append] at heq
        obtain ⟨-, hsame⟩ := List.append_inj' heq rfl
        obtain rfl : last = s := List.singleton_inj.1 hsame
        omega
    · exact h.apart first between last hwithin hfirst hlast

/-- What starts the timer again, and comes only when it has run down, leaves a respite. -/
theorem Timed.stride (h : Timed respite timer count strides) (hrespite : 0 < respite)
    (hlengths : ∀ t ∈ strides, 0 < t.dt) (hlength : 0 < s.dt) (honce : count s ≤ 1)
    (hdown : 0 < count s → ¬ 0 < Scalar.max (timer - s.dt) 0) :
    Timed respite (if 0 < count s then respite else Scalar.max (timer - s.dt) 0) count
      (strides ++ [s]) := by
  have hleft : 0 ≤ Scalar.max (timer - s.dt) 0 := Scalar.zero_le_max _
  have hsince : ∀ first later, first :: later <:+ strides → 0 < count first →
      respite ≤ Scalar.max (timer - s.dt) 0 + span (later ++ [s]) := by
    intro first later hsuffix hfirst
    have hlater : 0 ≤ span later := span_nonneg fun t ht =>
      hlengths t (hsuffix.subset (List.mem_cons_of_mem _ ht))
    rw [span_snoc]
    exact Exact.le_wear h.timer_nonneg hlater hlength (h.since first later hsuffix hfirst)
  refine ⟨⟨fun t ht => ?_, fun first between last hwithin hfirst hlast => ?_⟩, ?_,
    fun first later hsuffix hfirst => ?_⟩
  · rcases List.mem_append.1 ht with ht | ht
    · exact h.once t ht
    · rwa [List.mem_singleton.1 ht]
  · rcases List.infix_concat_iff.1 hwithin with hsuffix | hwithin
    · rcases List.suffix_concat_iff.1 hsuffix with hnil | ⟨rest, heq, hrest⟩
      · cases hnil
      · -- the second of the two comes in the last stride, when the timer has run down
        rw [← List.cons_append] at heq
        obtain ⟨rfl, hsame⟩ := List.append_inj' heq rfl
        obtain rfl : last = s := List.singleton_inj.1 hsame
        exact Exact.le_of_run_down hleft (hdown hlast) (hsince first between hrest hfirst)
    · exact h.apart first between last hwithin hfirst hlast
  · split
    · exact Scalar.Linear.le_of_lt hrespite
    · exact hleft
  · rcases List.suffix_concat_iff.1 hsuffix with hnil | ⟨rest, heq, hrest⟩
    · cases hnil
    · cases rest with
      | nil =>
        obtain ⟨rfl, rfl⟩ := List.cons.inj heq
        rw [if_pos hfirst]
        exact Exact.le_add hrespite (span_nonneg (List.forall_mem_nil _))
      | cons t rest =>
        obtain ⟨rfl, rfl⟩ := List.cons.inj heq
        split
        · refine Exact.le_add hrespite (span_nonneg fun t ht => ?_)
          rcases List.mem_append.1 ht with ht | ht
          · exact hlengths t (hrest.subset (List.mem_cons_of_mem _ ht))
          · rwa [List.mem_singleton.1 ht]
        · exact hsince first rest hrest hfirst

end

end Game

namespace Arena

open Game (Stride Rationed Timed happened)

/-- What protects an enemy, as long as there is a record of it. -/
theorem shelter_lasting {α : Type} [Scalar α] :
    Lasting fun e : Enemy α => (e.id, e.invincibility) := by
  refine ⟨fun e damage bounties => ?_, fun _ _ _ => rfl, fun _ => rfl⟩
  obtain ⟨_, _, _, _, hhit, -⟩ := hit_frame e damage bounties
  rw [hhit]

theorem moved_invincibility {α : Type} [Scalar α] [Elementary α] (e : Enemy α) (world : Vec α)
    (tempo dt : α) : (e.moved world tempo dt).invincibility = e.invincibility ∧
      (e.moved world tempo dt).invincibleFor = Scalar.max (e.invincibleFor - dt) 0 := by
  unfold Enemy.moved Enemy.armed Enemy.rearm
  split
  · exact ⟨rfl, rfl⟩
  · split <;> exact ⟨rfl, rfl⟩

/-- Losses and blows are apart by what they leave, and the timers tell since when. -/
structure Sheltered (a : Arena Exact) (strides : List (Stride Exact)) : Prop where
  roster : Roster a (departed (happened strides))
  unborn : ∀ id, a.nextId ≤ id → ∀ s ∈ strides, blows id s.turn.happenings = 0
  player : Timed recovery a.player.recovering (fun s => losses s.turn.happenings) strides
  present : ∀ e ∈ a.enemies, 0 < e.invincibility →
    Timed e.invincibility e.invincibleFor (fun s => blows e.id s.turn.happenings) strides
  gone : ∀ e ∈ departed (happened strides), 0 < e.invincibility →
    Rationed e.invincibility (fun s => blows e.id s.turn.happenings) strides

variable {a : Arena Exact} {strides : List (Stride Exact)}

theorem Sheltered.receive (h : Sheltered a strides) (event : Level.Event Exact) :
    Sheltered (a.receive event) strides := by
  have hroster := (receive_hears a event).roster _ h.roster
  cases event with
  | spawn request =>
    refine ⟨hroster, fun id hid => h.unborn id (Nat.le_of_succ_le hid), h.player,
      fun e he hprotects => ?_, h.gone⟩
    rcases List.mem_append.1 he with he | he
    · exact h.present e he hprotects
    · obtain rfl := List.mem_singleton.1 he
      have hnone : ∀ s ∈ strides, blows a.nextId s.turn.happenings = 0 := h.unborn a.nextId le_rfl
      have hquiet : ∀ s ∈ strides, ¬ 0 < blows a.nextId s.turn.happenings :=
        fun s hs => (hnone s hs).not_gt
      refine ⟨⟨fun s hs => (hnone s hs).trans_le (Nat.zero_le 1), fun s between t hwithin hs => ?_⟩,
        Scalar.Ordered.zero_defined, fun s later hsuffix hs => ?_⟩
      · exact absurd hs (hquiet s (hwithin.subset (List.mem_cons_self ..)))
      · exact absurd hs (hquiet s (hsuffix.subset (List.mem_cons_self ..)))
  | _ => exact ⟨hroster, h.unborn, h.player, h.present, h.gone⟩

theorem Sheltered.receiveAll (h : Sheltered a strides) (events : List (Level.Event Exact)) :
    Sheltered (events.foldl Arena.receive a) strides := by
  induction events generalizing a with
  | nil => exact h
  | cons event rest ih => exact ih (h.receive event)

section

variable [Elementary Exact] {dt : Exact} {turn : Turn Exact} {w w' : Words}

/-- An enemy that moves and comes through its blows has been given its respite again. -/
theorem Sheltered.weathered (h : Sheltered a strides) (hlengths : ∀ s ∈ strides, 0 < s.dt)
    (hlength : 0 < dt) {e e' : Enemy Exact} (he : e ∈ a.enemies) (hprotects : 0 < e.invincibility)
    (hweathers : (e.moved a.world a.tempo dt).Weathers (blows e.id turn.happenings) e') :
    Timed e.invincibility
      (if 0 < blows e.id turn.happenings then e.invincibility else
        Scalar.max (e.invincibleFor - dt) 0)
      (fun s => blows e.id s.turn.happenings) (strides ++ [⟨dt, turn⟩]) := by
  obtain ⟨hinvincibility, htimer⟩ := moved_invincibility e a.world a.tempo dt
  refine (h.present e he hprotects).stride (s := ⟨dt, turn⟩) hprotects hlengths hlength ?_
    fun hstruck => ?_
  · exact hweathers.once (hinvincibility ▸ hprotects)
  · exact htimer ▸ (hweathers.open_before hstruck).1

theorem unstruck (hids : (a.enemies.map Enemy.id).Nodup) {id : ℕ}
    (habsent : id ∉ a.enemies.map Enemy.id) (dt : Exact) (shots : List (Shot Exact)) :
    blows id ((a.moved dt shots).resolve dt).happenings = 0 := by
  rw [← moved_ids a dt shots] at hids habsent
  obtain ⟨hpresent, -⟩ := resolve_weathers (a.moved dt shots) hids dt
  by_contra hstruck
  exact habsent (hpresent id (Nat.pos_of_ne_zero hstruck))

theorem weathers_of_departed (hids : (a.enemies.map Enemy.id).Nodup) {shots : List (Shot Exact)}
    {gone : Enemy Exact} (hleaves : gone ∈ departed ((a.moved dt shots).resolve dt).happenings) :
    ∃ e ∈ a.enemies, e.id = gone.id ∧ e.invincibility = gone.invincibility ∧
      ∃ e', (e.moved a.world a.tempo dt).Weathers
        (blows e.id ((a.moved dt shots).resolve dt).happenings) e' := by
  rw [← moved_ids a dt shots] at hids
  obtain ⟨-, hall, -⟩ := resolve_weathers (a.moved dt shots) hids dt
  have hview := (shelter_lasting.resolve (a.moved dt shots) dt).subset
    (List.mem_map_of_mem (List.mem_append_right _ hleaves))
  obtain ⟨e₁, hmoved, hsame⟩ := List.mem_map.1 hview
  obtain ⟨e', hweathers⟩ := hall e₁ hmoved
  obtain ⟨e, he, rfl⟩ := List.mem_map.1 hmoved
  obtain ⟨hid, hinvincibility⟩ := Prod.mk.inj hsame
  rw [(moved_follows e a.world a.tempo dt).id_eq] at hid hweathers
  rw [(moved_invincibility e a.world a.tempo dt).1] at hinvincibility
  exact ⟨e, he, hid, hinvincibility, e', hweathers⟩

theorem Sheltered.stride (h : Sheltered a strides) (hlengths : ∀ s ∈ strides, 0 < s.dt)
    (hturn : a.step dt w = .ok (turn, w')) (hlength : 0 < dt) (hplays : a.status ≠ .gameOver) :
    Sheltered turn.arena (strides ++ [⟨dt, turn⟩]) := by
  have hpasses := step_passes hturn
  have hroster := hpasses.roster _ h.roster
  have hhappened : happened (strides ++ [⟨dt, turn⟩]) = happened strides ++ turn.happenings := by
    simp [happened]
  rcases step_cases hturn with ⟨hidle, -⟩ | ⟨-, shots, rfl⟩
  · exact absurd hidle (not_or.2 ⟨Scalar.Strict.not_le_of_lt hlength, hplays⟩)
  have hids := h.roster.nodup
  refine ⟨?_, fun id hid s hs => ?_, ?_, fun e' he' hprotects => ?_, fun e' he' hprotects => ?_⟩
  · rwa [hhappened, departed_append]
  · -- who has not come yet cannot be struck
    rw [hpasses.nextId_eq] at hid
    rcases List.mem_append.1 hs with hs | hs
    · exact h.unborn id hid s hs
    · obtain rfl := List.mem_singleton.1 hs
      refine unstruck hids (fun hmem => ?_) dt shots
      have hissued := List.mem_range.1 (h.roster.ids.subset (List.mem_append_left _ hmem))
      omega
  · obtain ⟨honce, hdown, hrecovers⟩ := resolve_toll (a.moved dt shots) dt
    have hrecovery : (0 : Exact) < recovery := by decide +kernel
    rw [hrecovers]
    exact h.player.stride (s := ⟨dt, (a.moved dt shots).resolve dt⟩) hrecovery hlengths
      hlength honce hdown
  · obtain ⟨-, -, hleft⟩ := resolve_weathers (a.moved dt shots)
      ((moved_ids a dt shots).symm ▸ hids) dt
    obtain ⟨e₁, hmoved, hweathers, hlives⟩ := hleft e' he'
    obtain ⟨e, he, rfl⟩ := List.mem_map.1 hmoved
    obtain ⟨hinvincibility, htimer⟩ := moved_invincibility e a.world a.tempo dt
    have hid := (moved_follows e a.world a.tempo dt).id_eq
    have hsame : e'.invincibility = e.invincibility :=
      hweathers.invincibility_eq.trans hinvincibility
    rw [hid] at hweathers
    have htimed := h.weathered hlengths hlength he (hsame ▸ hprotects) hweathers
    rwa [hsame, hweathers.id_eq.trans hid, hweathers.invincibleFor_eq hlives,
      hinvincibility, htimer]
  · rw [hhappened, departed_append] at he'
    rcases List.mem_append.1 he' with hbefore | hleaves
    · refine (h.gone e' hbefore hprotects).rest (unstruck hids (fun hmem => ?_) dt shots)
      have hdisjoint := List.disjoint_of_nodup_append (h.roster.ids.nodup_iff.2 List.nodup_range)
      exact hdisjoint hmem (List.mem_map_of_mem hbefore)
    · obtain ⟨e, he, hid, hinvincibility, e₁, hweathers⟩ := weathers_of_departed hids hleaves
      rw [← hid, ← hinvincibility]
      exact (h.weathered hlengths hlength he (hinvincibility ▸ hprotects) hweathers).toRationed

end

end Arena

namespace Game

open Arena (Enemy Sheltered blows)

theorem happenings_of_run {α : Type} [Scalar α] [Elementary α] {g g' : Game α}
    {actions : List (Action α)} {seen : List (Observation α)}
    (hrun : g.run actions = .ok (g', seen)) :
    happenings seen = happened (g.strides actions) := by
  induction actions generalizing g g' seen with
  | nil =>
    obtain ⟨-, rfl⟩ := Prod.mk.inj (Except.ok.inj hrun)
    rfl
  | cons action rest ih =>
    obtain ⟨⟨g₁, first⟩, hfirst, hrun⟩ := parts_of_ok hrun
    obtain ⟨⟨g₂, later⟩, hlater, hrun⟩ := parts_of_ok hrun
    obtain ⟨-, rfl⟩ := Prod.mk.inj (Except.ok.inj hrun)
    rw [strides, hfirst]
    dsimp only
    rw [happenings_append, ih hlater, happened, happened, List.flatMap_append]
    congr 1
    cases perform_does hfirst with
    | update =>
      rw [stride]
      · exact (seen_of_update _ _).2.2
      · intro dt hstep
        cases hstep
    | @step dt turn words hturn =>
      rw [(seen_of_step turn.happenings).2.2]
      by_cases hidle : dt ≤ 0 ∨ g.arena.status = .gameOver
      · rw [stride, if_pos hidle]
        have hsame := (Arena.step_idle hidle g.words).symm.trans hturn
        obtain ⟨rfl, rfl⟩ := Prod.mk.inj (Except.ok.inj hsame)
        rfl
      · obtain ⟨hdt, hplays⟩ := not_or.1 hidle
        rw [stride_of_step hturn hdt hplays, List.flatMap_singleton]
    | player _ _ hother =>
      rw [stride]
      · rfl
      · exact hother

theorem losses_happenings {α : Type} (seen : List (Observation α)) :
    Arena.losses (happenings seen) = losses seen := by
  induction seen with
  | nil => rfl
  | cons o rest ih =>
    have hfirst : Arena.losses (happenings [o]) = losses [o] := by cases o <;> rfl
    rw [← List.singleton_append, happenings_append, Arena.losses_append, losses_append, hfirst, ih]

theorem departed_happenings {α : Type} (seen : List (Observation α)) :
    Arena.departed (happenings seen) = departed seen := by
  induction seen with
  | nil => rfl
  | cons o rest ih =>
    have hfirst : Arena.departed (happenings [o]) = departed [o] := by cases o <;> rfl
    rw [← List.singleton_append, happenings_append, Arena.departed_append,
      departed_append, hfirst, ih]

section

variable [Elementary Exact]

theorem strides_long {g : Game Exact} {actions : List (Action Exact)}
    (hsteps : ∀ dt, .step dt ∈ actions → Scalar.Defined dt) :
    ∀ s ∈ g.strides actions, 0 < s.dt := by
  intro s hs
  obtain ⟨hasked, hlength⟩ := strides_asked hs
  by_contra hnot
  exact hlength (Scalar.Ordered.le_of_not_lt (hsteps _ hasked) Scalar.Ordered.zero_defined hnot)

theorem sheltered_run {script : List (Script.Instruction Exact)} {world : Vec Exact}
    {tempo grace : Exact} {levelWords arenaWords : Words} {actions : List (Action Exact)}
    {g : Game Exact} {seen : List (Observation Exact)}
    (hsteps : ∀ dt, .step dt ∈ actions → Scalar.Defined dt)
    (hrun : (start script world tempo grace levelWords arenaWords).run actions = .ok (g, seen)) :
    Sheltered g.arena ((start script world tempo grace levelWords arenaWords).strides actions) := by
  have hstart : Sheltered (start script world tempo grace levelWords arenaWords).arena [] := by
    refine ⟨Arena.start_roster world tempo grace, fun _ _ => List.forall_mem_nil _, ?_,
      List.forall_mem_nil _, List.forall_mem_nil _⟩
    refine ⟨⟨List.forall_mem_nil _, fun _ _ _ hwithin => ?_⟩, Scalar.Ordered.zero_defined,
      fun _ _ hsuffix => ?_⟩
    · cases List.infix_nil.1 hwithin
    · cases List.suffix_nil.1 hsuffix
  refine strides_induction (P := fun g strides => (∀ s ∈ strides, 0 < s.dt) →
    Sheltered g.arena strides) ?_ ?_ ?_ (fun _ => hstart) hrun (strides_long hsteps)
  · intro g strides dt frame h _ hlengths
    exact (h hlengths).receiveAll frame.events
  · intro g strides dt turn words h hturn _ hplays hlengths
    have hearlier : ∀ s ∈ strides, 0 < s.dt := fun s hs => hlengths s (List.mem_append_left _ hs)
    have hlength : 0 < dt := hlengths ⟨dt, turn⟩ (by simp)
    rw [report, release_eq]
    exact (h hearlier).stride hearlier hturn hlength hplays
  · intro g strides position shots h _ hlengths
    have hbefore := h hlengths
    exact ⟨hbefore.roster.of_eq rfl rfl, hbefore.unborn, hbefore.player, hbefore.present,
      hbefore.gone⟩

/-- However a game is played from its start, with steps that have defined lengths, all that happens
in it happens in its strides. A stride takes at most one life, and from one that does to the next
the strides last one and a half seconds at least. An enemy that a hit makes invincible takes at most
one blow in a stride, and from one stride with a blow for it to the next the strides last for as
long as it is invincible at least. -/
theorem hits_leave_a_respite (script : List (Script.Instruction Exact)) (world : Vec Exact)
    (tempo grace : Exact) (levelWords arenaWords : Words) (actions : List (Action Exact))
    {g : Game Exact} {seen : List (Observation Exact)}
    (hsteps : ∀ dt, .step dt ∈ actions → Scalar.Defined dt)
    (hrun : (start script world tempo grace levelWords arenaWords).run actions = .ok (g, seen)) :
    happenings seen =
      happened ((start script world tempo grace levelWords arenaWords).strides actions) ∧
    g.arena.player.lives = 3 - Arena.losses (happenings seen) ∧
    Rationed (.finite (3 / 2)) (fun s => Arena.losses s.turn.happenings)
      ((start script world tempo grace levelWords arenaWords).strides actions) ∧
    ((g.arena.enemies ++ departed seen).map Enemy.id).Perm (List.range g.arena.nextId) ∧
    ∀ e ∈ g.arena.enemies ++ departed seen, 0 < e.invincibility →
      Rationed e.invincibility (fun s => blows e.id s.turn.happenings)
        ((start script world tempo grace levelWords arenaWords).strides actions) := by
  have hsheltered := sheltered_run hsteps hrun
  have hhappened := happenings_of_run hrun
  have hgone : Arena.departed
      (happened ((start script world tempo grace levelWords arenaWords).strides actions)) =
      departed seen := by
    rw [← hhappened, departed_happenings]
  have hrecovery : (Arena.recovery : Exact) = .finite (3 / 2) := by simp [Arena.recovery]
  refine ⟨hhappened, ?_, ?_, ?_, fun e he hprotects => ?_⟩
  · rw [losses_happenings]
    have hstart : Judged (start script world tempo grace levelWords arenaWords) [] := ⟨rfl, rfl⟩
    exact (judged_run hstart hrun).lives_eq
  · exact hrecovery ▸ hsheltered.player.toRationed
  · rw [List.map_append, ← hgone]
    exact hsheltered.roster.ids
  · rw [← hgone] at he
    rcases List.mem_append.1 he with he | he
    · exact (hsheltered.present e he hprotects).toRationed
    · exact hsheltered.gone e he hprotects

end

section

attribute [local instance] aligned

def toughSentries : Script.Group Exact := { sentries with members := [⟨'D', .packed ⟨9100000601⟩⟩] }

def besieged : Game Exact :=
  start [.spawn toughSentries] ⟨320, 180⟩ 120 (.finite (1 / 2)) (Words.cycle #[]) (Words.cycle #[])

/-- Three shots meet the sentry; the second comes too early, and the third just in time. -/
def exchange : List (Action Exact) :=
  [.update 1, .step (.finite (1 / 4)), .fire, .step (.finite (1 / 64)), .fire,
    .step (.finite (1 / 64)), .step (.finite (62 / 64)), .fire, .step (.finite (1 / 64)),
    .step (.finite (5 / 8)), .step (.finite (1 / 4))]

theorem sentry_is_hurt_again_when_its_time_is_over :
    ∃ g seen, besieged.run exchange = .ok (g, seen) ∧
      (besieged.strides exchange).map (fun s => (Arena.losses s.turn.happenings,
        blows 0 s.turn.happenings)) = [(1, 0), (0, 1), (0, 0), (0, 0), (0, 1), (0, 0), (1, 0)] ∧
      Rationed (.finite (3 / 2)) (fun s => Arena.losses s.turn.happenings)
        (besieged.strides exchange) ∧
      Rationed 1 (fun s => blows 0 s.turn.happenings) (besieged.strides exchange) ∧
      span (((besieged.strides exchange).drop 2).take 3) = 1 := by
  have hview : (besieged.run exchange).map (fun p => p.1.arena.enemies.map
      fun e => (e.id, e.invincibility)) = .ok [(0, 1)] := by
    decide +kernel
  have hstruck : (besieged.strides exchange).map
      (fun s => (Arena.losses s.turn.happenings, blows 0 s.turn.happenings)) =
        [(1, 0), (0, 1), (0, 0), (0, 0), (0, 1), (0, 0), (1, 0)] := by
    decide +kernel
  have hspan : span (((besieged.strides exchange).drop 2).take 3) = 1 := by
    decide +kernel
  obtain ⟨⟨g, seen⟩, hrun, hview⟩ := ok_of_map hview
  obtain ⟨e, he, hshelter⟩ : ∃ e ∈ g.arena.enemies, (e.id, e.invincibility) = (0, 1) :=
    List.mem_map.1 (hview ▸ List.mem_singleton_self _)
  obtain ⟨hid, hprotects⟩ := Prod.mk.inj hshelter
  have hsteps : ∀ dt, Action.step dt ∈ exchange → Scalar.Defined dt := by
    intro dt hdt
    rw [Exact.defined_iff]
    rintro rfl
    simp [exchange] at hdt
  obtain ⟨-, -, hlosses, -, hblows⟩ := hits_leave_a_respite _ _ _ _ _ _ _ hsteps hrun
  have hprotected := hblows e (List.mem_append_left _ he) (hprotects ▸ by decide +kernel)
  rw [hid, hprotects] at hprotected
  exact ⟨g, seen, hrun, hstruck, hlosses, hprotected, hspan⟩

end

end Game

end Barrage
