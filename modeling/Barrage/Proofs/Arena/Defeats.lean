import Barrage.Proofs.Arena.Parts
import Barrage.Proofs.Level.Bounty

/-! # Defeats

An enemy bears the number of the request that it came with, so a defeat tells which group it counts
for. Nobody is defeated twice: who has been beaten has no hit points left, is not hit again, and
departs in the same step. -/

namespace Barrage.Arena

open Level (GroupId SpawnRequest)

variable {α : Type}

/-- The enemy that was defeated, and what its defeat paid. -/
def Happening.defeat? : Happening α → Option (ℕ × Option Char)
  | hit id (.defeated reward) => some (id, reward)
  | _ => none

def Happening.overstayed? : Happening α → Option ℕ
  | departed e .overstayed => some e.id
  | _ => none

def defeats (happenings : List (Happening α)) : List (ℕ × Option Char) :=
  happenings.filterMap Happening.defeat?

def overstayed (happenings : List (Happening α)) : List ℕ :=
  happenings.filterMap Happening.overstayed?

theorem defeats_append (earlier later : List (Happening α)) :
    defeats (earlier ++ later) = defeats earlier ++ defeats later := List.filterMap_append

theorem overstayed_append (earlier later : List (Happening α)) :
    overstayed (earlier ++ later) = overstayed earlier ++ overstayed later := List.filterMap_append

theorem defeats_of_quiet {happenings : List (Happening α)} (h : ∀ o ∈ happenings, o.Quiet) :
    defeats happenings = [] ∧ overstayed happenings = [] := by
  constructor
  all_goals
    refine List.filterMap_eq_nil_iff.2 fun o ho => ?_
    cases o with
    | lifeLost | collected => rfl
    | _ => exact (h _ ho).elim

theorem defeats_dismiss (a : Arena α) (cause : Cause) (leaves : Enemy α → Bool) :
    defeats (a.dismiss cause leaves).happenings = [] := by
  simp [defeats, dismiss, Happening.defeat?]

theorem overstayed_dismiss (a : Arena α) (leaves : Enemy α → Bool) :
    overstayed (a.dismiss .defeated leaves).happenings = [] ∧
      overstayed (a.dismiss .overstayed leaves).happenings =
        (a.enemies.filter leaves).map Enemy.id := by
  constructor
  · simp [overstayed, dismiss, Happening.overstayed?]
  · rw [overstayed, dismiss, List.filterMap_map]
    exact congrFun (List.filterMap_eq_map (f := Enemy.id)) _

def Enemy.tag (e : Enemy α) : ℕ × GroupId × ℕ := (e.id, e.group, e.hitPoints)

structure Fallen (asked : List (SpawnRequest α)) (a : Arena α) (beaten : List (ℕ × Option Char))
    (away : List ℕ) : Prop where
  issued : asked.length = a.nextId
  ids : (a.enemies.map Enemy.id).Nodup
  born : ∀ e ∈ a.enemies, Level.groupAt asked e.id = some e.group
  once : (beaten.map Prod.fst).Nodup
  down : ∀ e ∈ a.enemies, e.id ∈ beaten.map Prod.fst → e.hitPoints = 0
  spared : ∀ id ∈ away, id < a.nextId ∧ id ∉ a.enemies.map Enemy.id ∧ id ∉ beaten.map Prod.fst
  accounts : Level.Accounts asked beaten a.bounties

variable {asked : List (SpawnRequest α)} {a b : Arena α} {beaten : List (ℕ × Option Char)}
    {away : List ℕ}

namespace Fallen

theorem id_lt (h : Fallen asked a beaten away) {e : Enemy α} (he : e ∈ a.enemies) :
    e.id < a.nextId := by
  obtain ⟨q, hq, -⟩ := Option.map_eq_some_iff.1 (h.born e he)
  rw [← h.issued]
  exact (List.getElem?_eq_some_iff.1 hq).1

theorem beaten_lt (h : Fallen asked a beaten away) {id : ℕ} (hid : id ∈ beaten.map Prod.fst) :
    id < a.nextId := by
  obtain ⟨x, hx, rfl⟩ := List.mem_map.1 hid
  rw [← h.issued]
  exact h.accounts.known x hx

theorem of_sublist (h : Fallen asked a beaten away)
    (htags : (b.enemies.map Enemy.tag).Sublist (a.enemies.map Enemy.tag))
    (hid : b.nextId = a.nextId) (hbounties : b.bounties = a.bounties) :
    Fallen asked b beaten away := by
  have hsub : (b.enemies.map Enemy.id).Sublist (a.enemies.map Enemy.id) := by
    have hids := htags.map Prod.fst
    rw [List.map_map, List.map_map] at hids
    exact hids
  have hfrom : ∀ e ∈ b.enemies, ∃ e₀ ∈ a.enemies, e₀.id = e.id ∧ e₀.group = e.group ∧
      e₀.hitPoints = e.hitPoints := by
    intro e he
    obtain ⟨e₀, he₀, htag⟩ := List.mem_map.1 (htags.subset (List.mem_map_of_mem he))
    simp only [Enemy.tag, Prod.mk.injEq] at htag
    exact ⟨e₀, he₀, htag⟩
  refine ⟨h.issued.trans hid.symm, h.ids.sublist hsub, fun e he => ?_, h.once,
    fun e he hbeaten => ?_, ?_, ?_⟩
  · obtain ⟨e₀, he₀, hid₀, hgroup, -⟩ := hfrom e he
    rw [← hid₀, ← hgroup]
    exact h.born e₀ he₀
  · obtain ⟨e₀, he₀, hid₀, -, hpoints⟩ := hfrom e he
    rw [← hpoints]
    exact h.down e₀ he₀ (hid₀ ▸ hbeaten)
  · intro id haway
    obtain ⟨hlt, hgone, hspared⟩ := h.spared id haway
    exact ⟨hid ▸ hlt, fun hmem => hgone (hsub.subset hmem), hspared⟩
  · rw [hbounties]
    exact h.accounts

theorem replace (h : Fallen asked a beaten away) {before after : List (Enemy α)}
    {e target : Enemy α} (henemies : a.enemies = before ++ e :: after) (hid : target.id = e.id)
    (hgroup : target.group = e.group) (hlives : e.hitPoints ≠ 0) :
    Fallen asked { a with enemies := before ++ target :: after } beaten away := by
  have hmem : e ∈ a.enemies := by simp [henemies]
  have hids : (before ++ target :: after).map Enemy.id = a.enemies.map Enemy.id := by
    simp [henemies, hid]
  have hsplit : ∀ e' ∈ before ++ target :: after, e' ∈ a.enemies ∨ e' = target := by
    intro e' he'
    rw [henemies]
    simp only [List.mem_append, List.mem_cons] at he' ⊢
    tauto
  refine ⟨h.issued, ?_, fun e' he' => ?_, h.once, fun e' he' hbeaten => ?_, ?_, h.accounts⟩
  · exact hids ▸ h.ids
  · rcases hsplit e' he' with he' | rfl
    · exact h.born e' he'
    · rw [hid, hgroup]
      exact h.born e hmem
  · rcases hsplit e' he' with he' | rfl
    · exact h.down e' he' hbeaten
    · exact absurd (h.down e hmem (hid ▸ hbeaten)) hlives
  · intro id haway
    rw [hids]
    exact h.spared id haway

theorem defeat (h : Fallen asked a beaten away) {e : Enemy α} (he : e ∈ a.enemies)
    (hdown : e.hitPoints = 0) (hnew : e.id ∉ beaten.map Prod.fst) :
    Fallen asked { a with bounties := (a.bounties.defeat e.group).2 }
      (beaten ++ [(e.id, (a.bounties.defeat e.group).1)]) away := by
  refine ⟨h.issued, h.ids, h.born, ?_, fun e' he' hbeaten => ?_, ?_,
    h.accounts.defeat (h.born e he)⟩
  · rw [List.map_append, List.map_singleton]
    exact List.nodup_append'.2 ⟨h.once, List.nodup_singleton _, by simpa using hnew⟩
  · rw [List.map_append, List.map_singleton, List.mem_append, List.mem_singleton] at hbeaten
    rcases hbeaten with hbeaten | hid
    · exact h.down e' he' hbeaten
    · rw [List.inj_on_of_nodup_map h.ids he' he hid]
      exact hdown
  · intro id haway
    obtain ⟨hlt, hgone, hspared⟩ := h.spared id haway
    refine ⟨hlt, hgone, ?_⟩
    rw [List.map_append, List.map_singleton, List.mem_append, List.mem_singleton, not_or]
    exact ⟨hspared, fun heq => hgone (heq ▸ List.mem_map_of_mem he)⟩

theorem leave (h : Fallen asked a beaten away) (leaves : Enemy α → Bool)
    (hlives : ∀ e ∈ a.enemies, e.hitPoints ≠ 0) :
    Fallen asked { a with enemies := a.enemies.filter fun e => !leaves e } beaten
      (away ++ (a.enemies.filter leaves).map Enemy.id) := by
  have hstay : Fallen asked { a with enemies := a.enemies.filter fun e => !leaves e } beaten away :=
    h.of_sublist (List.filter_sublist.map _) rfl rfl
  refine ⟨hstay.issued, hstay.ids, hstay.born, hstay.once, hstay.down, fun id haway => ?_,
    hstay.accounts⟩
  rcases List.mem_append.1 haway with haway | haway
  · exact hstay.spared id haway
  · obtain ⟨e, he, rfl⟩ := List.mem_map.1 haway
    obtain ⟨hmem, hleaves⟩ := List.mem_filter.1 he
    refine ⟨h.id_lt hmem, fun hleft => ?_, fun hbeaten => hlives e hmem (h.down e hmem hbeaten)⟩
    obtain ⟨e', he', hid⟩ := List.mem_map.1 hleft
    obtain ⟨hmem', hstays⟩ := List.mem_filter.1 he'
    rw [List.inj_on_of_nodup_map h.ids hmem' hmem hid, hleaves] at hstays
    cases hstays

end Fallen

variable [Scalar α]

theorem fallen_start (world : Vec α) (tempo grace : α) :
    Fallen ([] : List (SpawnRequest α)) (start world tempo grace) [] [] :=
  ⟨rfl, .nil, nofun, .nil, nofun, nofun, Level.accounts_start⟩

theorem fallen_receive (h : Fallen asked a beaten away) (event : Level.Event α) :
    Fallen (asked ++ event.request?.toList) (a.receive event) beaten away := by
  cases event with
  | spawn q =>
    have hgroup : ∀ e ∈ a.enemies, Level.groupAt (asked ++ [q]) e.id =
        Level.groupAt asked e.id := by
      intro e he
      rw [Level.groupAt, List.getElem?_append_left (h.issued ▸ h.id_lt he)]
      rfl
    have hsplit : ∀ e ∈ (a.receive (.spawn q)).enemies, e ∈ a.enemies ∨
        e = Enemy.spawn a.nextId a.world a.tempo q := by
      intro e he
      simpa [receive] using he
    have hids : (a.receive (.spawn q)).enemies.map Enemy.id = a.enemies.map Enemy.id ++
        [a.nextId] := by
      rw [receive, List.map_append]
      rfl
    refine ⟨?_, ?_, fun e he => ?_, h.once, fun e he hbeaten => ?_, fun id haway => ?_,
      h.accounts.enroll q⟩
    · change (asked ++ [q]).length = a.nextId + 1
      rw [List.length_append, h.issued, List.length_singleton]
    · rw [hids]
      refine List.nodup_append'.2 ⟨h.ids, List.nodup_singleton _, fun id hid hnew => ?_⟩
      obtain ⟨e, he, rfl⟩ := List.mem_map.1 hid
      exact (h.id_lt he).ne (List.mem_singleton.1 hnew)
    · rcases hsplit e he with he | rfl
      · exact (hgroup e he).trans (h.born e he)
      · change Level.groupAt (asked ++ [q]) a.nextId = some q.group
        rw [← h.issued, Level.groupAt, List.getElem?_concat_length]
        rfl
    · rcases hsplit e he with he | rfl
      · exact h.down e he hbeaten
      · exact absurd (h.beaten_lt hbeaten) (lt_irrefl _)
    · obtain ⟨hlt, hgone, hspared⟩ := h.spared id haway
      refine ⟨Nat.lt_succ_of_lt hlt, ?_, hspared⟩
      rw [hids, List.mem_append, List.mem_singleton, not_or]
      exact ⟨hgone, hlt.ne⟩
  | _ =>
    change Fallen (asked ++ []) _ beaten away
    rw [List.append_nil]
    exact h.of_sublist (.refl _) rfl rfl

theorem fallen_receiveAll (h : Fallen asked a beaten away) (events : List (Level.Event α)) :
    Fallen (asked ++ events.filterMap Level.Event.request?)
      (events.foldl receive a) beaten away := by
  induction events generalizing asked a with
  | nil =>
    rw [List.filterMap_nil, List.append_nil]
    exact h
  | cons event rest ih =>
    have hrest := ih (fallen_receive h event)
    rw [List.append_assoc] at hrest
    rw [List.foldl_cons, List.filterMap_cons]
    cases hrequest : event.request? with
    | none => simpa [hrequest] using hrest
    | some q => simpa [hrequest] using hrest

variable [Elementary α]

theorem fallen_hit (h : Fallen asked a beaten away) {position : Vec α} {outcome : HitOutcome}
    {target : Enemy α} {enemies : List (Enemy α)} {bounties : Level.Bounties}
    (hhit : hitFirst position a.bounties a.enemies = some (outcome, target, enemies, bounties)) :
    Fallen asked { a with enemies, bounties }
      (beaten ++ defeats ([.hit target.id outcome] : List (Happening α))) away := by
  obtain ⟨before, e, after, henemies, rfl, hreach, -, hhit⟩ := hitFirst_ok hhit
  have hlives : e.hitPoints ≠ 0 := by
    have hpos : 0 < e.hitPoints := by
      unfold Enemy.isHitAt at hreach
      simp only [Bool.and_eq_true, decide_eq_true_eq] at hreach
      exact hreach.1
    omega
  have hmem : e ∈ a.enemies := by simp [henemies]
  have hstruck := hit_struck e 1 a.bounties
  rw [hhit] at hstruck
  cases hstruck with
  | defeated =>
    have hnew : e.id ∉ beaten.map Prod.fst := fun hbeaten => hlives (h.down e hmem hbeaten)
    have hdown :
        Fallen asked { a with enemies := before ++ { e with hitPoints := 0 } :: after }
          beaten away :=
      h.replace henemies rfl rfl hlives
    exact hdown.defeat (e := { e with hitPoints := 0 }) (by simp) rfl hnew
  | _ =>
    change Fallen asked _ (beaten ++ []) away
    rw [List.append_nil]
    exact h.replace henemies rfl rfl hlives

theorem fallen_resolve (h : Fallen asked a beaten away) (dt : α) :
    Fallen asked (a.resolve dt).arena (beaten ++ defeats (a.resolve dt).happenings)
      (away ++ overstayed (a.resolve dt).happenings) := by
  have hstart : Fallen asked a (beaten ++ defeats ([] : List (Happening α)))
      (away ++ overstayed ([] : List (Happening α))) := by
    change Fallen asked a (beaten ++ []) (away ++ [])
    rwa [List.append_nil, List.append_nil]
  refine resolve_induction
    (M := fun b seen => Fallen asked b (beaten ++ defeats seen) (away ++ overstayed seen))
    ?_ ?_ ?_ ?_ ?_ dt hstart
  · intro b seen player shots pickups status score later hb hquiet
    obtain ⟨hdefeats, hoverstayed⟩ := defeats_of_quiet hquiet
    rw [defeats_append, overstayed_append, hdefeats, hoverstayed, List.append_nil, List.append_nil]
    exact hb.of_sublist (.refl _) rfl rfl
  · intro b seen position outcome target enemies bounties hb hhit
    rw [defeats_append, overstayed_append, ← List.append_assoc]
    change Fallen asked _ _ (away ++ (overstayed seen ++ []))
    rw [List.append_nil]
    exact fallen_hit hb hhit
  · intro b seen leaves hb _
    rw [defeats_append, overstayed_append, defeats_dismiss, (overstayed_dismiss b leaves).1,
      List.append_nil, List.append_nil]
    exact hb.of_sublist (List.filter_sublist.map _) rfl rfl
  · intro b seen dt hb
    refine hb.of_sublist ?_ rfl rfl
    rw [List.map_map]
    exact .refl _
  · intro b seen leaves hb hlives
    rw [defeats_append, overstayed_append, defeats_dismiss, (overstayed_dismiss b leaves).2,
      List.append_nil, ← List.append_assoc]
    exact hb.leave leaves hlives

theorem fallen_step (h : Fallen asked a beaten away) {dt : α} {turn : Turn α} {w w' : Words}
    (hturn : a.step dt w = .ok (turn, w')) :
    Fallen asked turn.arena (beaten ++ defeats turn.happenings)
      (away ++ overstayed turn.happenings) := by
  rcases step_cases hturn with ⟨-, rfl⟩ | ⟨-, shots, rfl⟩
  · change Fallen asked a (beaten ++ []) (away ++ [])
    rwa [List.append_nil, List.append_nil]
  · have htags : (a.enemies.map (Enemy.moved · a.world a.tempo dt)).map Enemy.tag =
        a.enemies.map Enemy.tag := by
      rw [List.map_map]
      refine List.map_congr_left fun e _ => ?_
      obtain ⟨_, _, _, _, _, _, _, _, hmoved⟩ := moved_frame e a.world a.tempo dt
      rw [Function.comp_apply, hmoved]
      rfl
    have hmoved : Fallen asked (a.moved dt shots) beaten away :=
      h.of_sublist (htags ▸ .refl _) rfl rfl
    exact fallen_resolve hmoved dt

/-! ## Pickups -/

omit [Scalar α] [Elementary α] in
def Happening.reward? : Happening α → Option Char
  | hit _ outcome => outcome.reward
  | _ => none

omit [Scalar α] [Elementary α] in
def payments (happenings : List (Happening α)) : List Char := happenings.filterMap Happening.reward?

omit [Scalar α] [Elementary α] in
theorem payments_append (earlier later : List (Happening α)) :
    payments (earlier ++ later) = payments earlier ++ payments later := List.filterMap_append

omit [Scalar α] [Elementary α] in
theorem payments_of_quiet {happenings : List (Happening α)} (h : ∀ o ∈ happenings, o.Quiet) :
    payments happenings = [] := by
  refine List.filterMap_eq_nil_iff.2 fun o ho => ?_
  cases o with
  | hit => exact (h _ ho).elim
  | _ => rfl

omit [Scalar α] [Elementary α] in
theorem payments_dismiss (a : Arena α) (cause : Cause) (leaves : Enemy α → Bool) :
    payments (a.dismiss cause leaves).happenings = [] := by
  simp [payments, dismiss, Happening.reward?]

theorem resolveShots_pays (shots : List (Shot α)) (a : Arena α) :
    (resolveShots shots a).arena.player = a.player ∧
    ∃ new, (resolveShots shots a).arena.pickups = a.pickups ++ new ∧
      new.map Pickup.kind = payments (resolveShots shots a).happenings := by
  have hstart : a.player = a.player ∧ ∃ new, a.pickups = a.pickups ++ new ∧
      new.map Pickup.kind = payments ([] : List (Happening α)) :=
    ⟨rfl, [], (List.append_nil _).symm, rfl⟩
  refine resolveShots_induction (M := fun b seen => b.player = a.player ∧
    ∃ new, b.pickups = a.pickups ++ new ∧
    new.map Pickup.kind = payments seen) (fun _ h => h) ?_ shots hstart
  intro b seen position outcome target enemies bounties ⟨hplayer, new, hpickups, hkinds⟩ _
  refine ⟨hplayer, new ++ outcome.reward.toList.map fun kind => ⟨target.position, kind⟩, ?_, ?_⟩
  · rw [← List.append_assoc, ← hpickups]
    rfl
  · rw [List.map_append, hkinds, payments_append, List.map_map]
    cases hreward : outcome.reward with
    | none => simp [payments, Happening.reward?, hreward]
    | some kind => simp [payments, Happening.reward?, hreward]

theorem stepPickups_congr {a b : Arena α} (hpickups : a.pickups = b.pickups)
    (hplayer : a.player.position = b.player.position) (dt : α) :
    (a.stepPickups dt).arena.pickups = (b.stepPickups dt).arena.pickups := by
  simp only [stepPickups, hpickups, hplayer]

/-- What is paid in a step lies in the arena before pickups drift and are collected. -/
theorem step_pays {dt : α} {turn : Turn α} {w w' : Words} (hturn : a.step dt w = .ok (turn, w'))
    (hdt : ¬ dt ≤ 0) (hplays : a.status ≠ .gameOver) :
    ∃ new, new.map Pickup.kind = payments turn.happenings ∧
      turn.arena.pickups = ({ a with pickups := a.pickups ++ new }.stepPickups
        dt).arena.pickups := by
  rcases step_cases hturn with ⟨hidle, -⟩ | ⟨-, shots, rfl⟩
  · exact absurd hidle (not_or.2 ⟨hdt, hplays⟩)
  · have hposition : (a.moved dt shots).player.position = a.player.position := rfl
    have hold : (a.moved dt shots).pickups = a.pickups := rfl
    generalize a.moved dt shots = moved at hposition hold
    obtain ⟨hplayer, new, hpickups, hkinds⟩ := resolveShots_pays moved.shots moved
    obtain ⟨player, shots, status, lost, hloss, hplace, hquiet⟩ :=
      resolveEnemyShots_frame moved.resolvePlayerShots.arena
    refine ⟨new, ?_, ?_⟩
    · obtain ⟨_, _, collected, hpickups, hcollected⟩ :=
        stepPickups_frame moved.resolvePlayerShots.arena.resolveEnemyShots.arena dt
      have hplayerShots : payments moved.resolvePlayerShots.happenings = new.map Pickup.kind := by
        rw [resolvePlayerShots, payments_append, payments_dismiss, List.append_nil, hkinds]
      change _ = payments (((moved.resolvePlayerShots.happenings ++
        moved.resolvePlayerShots.arena.resolveEnemyShots.happenings) ++
        (moved.resolvePlayerShots.arena.resolveEnemyShots.arena.stepPickups dt).happenings) ++
        (Arena.dismiss _ _ _).happenings)
      rw [payments_append, payments_append, payments_append, payments_dismiss, hpickups,
        payments_of_quiet hcollected, hloss, payments_of_quiet hquiet, hplayerShots,
        List.append_nil, List.append_nil, List.append_nil]
    · have hafter : moved.resolvePlayerShots.arena.resolveEnemyShots.arena.pickups =
          a.pickups ++ new := by
        rw [hloss, ← hold, ← hpickups]
        rfl
      have hstays : moved.resolvePlayerShots.arena.resolveEnemyShots.arena.player.position =
          a.player.position := by
        rw [hloss, ← hposition, ← hplayer]
        exact hplace
      exact stepPickups_congr (b := { a with pickups := a.pickups ++ new }) hafter hstays dt

end Barrage.Arena
