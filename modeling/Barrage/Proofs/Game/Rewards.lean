import Barrage.Proofs.Arena.Defeats
import Barrage.Proofs.Game.Run
import Barrage.Proofs.Level.Loading
import Barrage.Proofs.Level.Terms

/-! # Rewards of groups

A game shows who was asked for and who was defeated, and from this alone it can be told what every
group has paid: its countdown is a matter of its own defeats. -/

namespace Barrage

open Level (SpawnRequest groupOf startedGroups)

namespace Game

section

variable {α : Type}

/-- The enemies that a level has asked for. The enemy that came with the first is numbered zero. -/
def asked (seen : List (Observation α)) : List (SpawnRequest α) :=
  (events seen).filterMap Level.Event.request?

def beaten (seen : List (Observation α)) : List (ℕ × Option Char) := Arena.defeats (happenings seen)

def away (seen : List (Observation α)) : List ℕ := Arena.overstayed (happenings seen)

variable [Scalar α] [Elementary α] {g : Game α} {seen : List (Observation α)}

theorem fallen_run {script : List (Script.Instruction α)} {world : Vec α} {tempo grace : α}
    {levelWords arenaWords : Words} {actions : List (Action α)}
    (hrun : (start script world tempo grace levelWords arenaWords).run actions = .ok (g, seen)) :
    Arena.Fallen (asked seen) g.arena (beaten seen) (away seen) := by
  have hstart : Arena.Fallen (asked ([] : List (Observation α)))
      (start script world tempo grace levelWords arenaWords).arena
      (beaten ([] : List (Observation α)))
      (away ([] : List (Observation α))) := Arena.fallen_start world tempo grace
  refine run_induction
    (P := fun g seen => Arena.Fallen (asked seen) g.arena (beaten seen) (away seen))
    ?_ ?_ ?_ hstart hrun
  · intro g seen dt frame h _
    obtain ⟨-, hevents, hhappenings⟩ := seen_of_update frame.journal frame.events
    rw [asked, beaten, away, events_append, happenings_append, hevents, hhappenings,
      List.append_nil, List.filterMap_append]
    exact Arena.fallen_receiveAll h frame.events
  · intro g seen dt turn words h hturn
    obtain ⟨-, hevents, hhappenings⟩ := seen_of_step turn.happenings
    rw [asked, beaten, away, events_append, happenings_append, hevents, hhappenings,
      List.append_nil, Arena.defeats_append, Arena.overstayed_append, report, release_eq]
    exact Arena.fallen_step h hturn
  · intro g seen position shots h
    exact h.of_sublist (.refl _) rfl rfl

end

end Game

namespace Level

variable {α : Type} {asked : List (SpawnRequest α)} {beaten : List (ℕ × Option Char)} {b : Bounties}
  {id : GroupId} {script : List (Script.Instruction α)} {group : Script.Group α} {members : ℕ}

theorem request_of_mem_defeatsOf {x : ℕ × Option Char} (hx : x ∈ defeatsOf asked beaten id) :
    ∃ q, asked[x.1]? = some q ∧ q.group = id :=
  Option.map_eq_some_iff.1 (of_decide_eq_true (List.mem_filter.1 hx).2)

theorem nodup_members
    (hasked : ((asked.filter fun q => q.group = id).map SpawnRequest.member).Nodup)
    (honce : (beaten.map Prod.fst).Nodup) :
    ((defeatsOf asked beaten id).map fun x => asked[x.1]?.map SpawnRequest.member).Nodup := by
  have hpairs : asked.Pairwise fun q q' => q.group = id → q'.group = id → q.member ≠ q'.member := by
    have hpairs := List.pairwise_filter.1 (List.pairwise_map.1 hasked)
    simpa only [decide_eq_true_eq] using hpairs
  have hdiffer : ∀ (i j : ℕ) (q q' : SpawnRequest α), i < j → asked[i]? = some q →
      asked[j]? = some q' →
      q.group = id → q'.group = id → q.member ≠ q'.member := by
    intro i j q q' hij hq hq'
    obtain ⟨hi, rfl⟩ := List.getElem?_eq_some_iff.1 hq
    obtain ⟨hj, rfl⟩ := List.getElem?_eq_some_iff.1 hq'
    exact List.pairwise_iff_getElem.1 hpairs i j hi hj hij
  have hown : (defeatsOf asked beaten id).Pairwise fun x y => x.1 ≠ y.1 :=
    (List.pairwise_map.1 honce).sublist List.filter_sublist
  refine List.pairwise_map.2 (hown.imp_of_mem fun {x y} hx hy hne heq => ?_)
  obtain ⟨q, hq, hqid⟩ := request_of_mem_defeatsOf hx
  obtain ⟨q', hq', hqid'⟩ := request_of_mem_defeatsOf hy
  rw [hq, hq'] at heq
  have hsame : q.member = q'.member := Option.some.inj heq
  rcases lt_or_gt_of_ne hne with hlt | hgt
  · exact hdiffer _ _ q q' hlt hq hq' hqid hqid' hsame
  · exact hdiffer _ _ q' q hgt hq' hq hqid' hqid hsame.symm

theorem length_defeatsOf_le
    (honce : ((defeatsOf asked beaten id).map fun x => asked[x.1]?.map SpawnRequest.member).Nodup)
    (hless : ∀ q ∈ asked, q.group = id → q.member < members) :
    (defeatsOf asked beaten id).length ≤ members := by
  have hsub : ((defeatsOf asked beaten id).map fun x => asked[x.1]?.map SpawnRequest.member) ⊆
      (List.range members).map some := by
    intro member hmember
    obtain ⟨x, hx, rfl⟩ := List.mem_map.1 hmember
    obtain ⟨q, hq, hid⟩ := request_of_mem_defeatsOf hx
    rw [hq, Option.map_some]
    exact List.mem_map_of_mem (List.mem_range.2 (hless q (List.mem_of_getElem? hq) hid))
  have hlength := (List.subperm_of_subset honce hsub).length_le
  rwa [List.length_map, List.length_map, List.length_range] at hlength

/-- Where requests keep to the terms of their groups, a group that has been asked for has the
countdown of its reward. -/
theorem terms_of_honours (hterms : ∀ q ∈ asked, q.Honours script)
    (hgroup : groupOf script id = some group) {q : SpawnRequest α} (hq : q ∈ asked)
    (hid : q.group = id) :
    terms asked id = some (group.reward.countdown group.members.length) := by
  have hfound : (asked.find? fun q => q.group = id).isSome = true :=
    List.find?_isSome.2 ⟨q, hq, by simpa using hid⟩
  obtain ⟨first, hfirst⟩ := Option.isSome_iff_exists.1 hfound
  have hfirstId : first.group = id := by simpa using List.find?_some hfirst
  obtain ⟨group', hgroup', hreward, hsize⟩ := hterms first (List.mem_of_find?_eq_some hfirst)
  rw [hfirstId, hgroup] at hgroup'
  obtain rfl := Option.some.inj hgroup'
  rw [terms, hfirst, Option.map_some, hreward, hsize]

theorem Accounts.kinds (h : Accounts asked beaten b) {c : Countdown}
    (hterms : terms asked id = some c) :
    ∀ x ∈ defeatsOf asked beaten id, x.2 = none ∨ x.2 = some c.kind := by
  intro x hx
  have hfee : x.2 ∈ (List.range (defeatsOf asked beaten id).length).map c.fee := by
    rw [← h.paid id c hterms]
    exact List.mem_map_of_mem hx
  obtain ⟨i, -, hi⟩ := List.mem_map.1 hfee
  rw [← hi, c.fee_eq]
  split
  · exact .inr rfl
  · exact .inl rfl

/-- The defeats of a group have paid what its reward says of their number. -/
theorem Accounts.payments (h : Accounts asked beaten b) {r : Reward}
    (hterms : terms asked id = some (r.countdown members)) (hmembers : 0 < members)
    (hcount : r.condition ≠ .count 0) (hle : (defeatsOf asked beaten id).length ≤ members) {d : ℕ}
    (hd : d ≤ (defeatsOf asked beaten id).length) :
    (((defeatsOf asked beaten id).take d).countP fun x => x.2 = some r.kind) =
      r.condition.paid members d := by
  rw [← r.payments hmembers (hd.trans hle) hcount]
  have hpaid := congrArg (List.take d) (h.paid id _ hterms)
  rw [← List.map_take, ← List.map_take, List.take_range, min_eq_left hd] at hpaid
  have hfees := congrArg (List.countP fun fee => fee = some r.kind) hpaid
  rwa [List.countP_map, List.countP_map] at hfees

/-- How a group with members stands: no member has been defeated twice, and their defeats have paid
the reward of the group and nothing else, after each of them as often as its condition says. The
countdown has gone by these defeats alone. -/
structure Rewarded (asked : List (SpawnRequest α)) (beaten : List (ℕ × Option Char)) (b : Bounties)
    (id : GroupId) (group : Script.Group α) : Prop where
  once : ((defeatsOf asked beaten id).map fun x => asked[x.1]?.map SpawnRequest.member).Nodup
  members : ∀ x ∈ defeatsOf asked beaten id, ∃ q, asked[x.1]? = some q ∧
    q.member < group.members.length
  kinds : ∀ x ∈ defeatsOf asked beaten id, x.2 = none ∨ x.2 = some group.reward.kind
  paid : group.reward.condition ≠ .count 0 → ∀ d ≤ (defeatsOf asked beaten id).length,
    (((defeatsOf asked beaten id).take d).countP fun x => x.2 = some group.reward.kind) =
      group.reward.condition.paid group.members.length d
  countdown : ∀ q ∈ asked, q.group = id →
    b.find? id = some ((group.reward.countdown group.members.length).after
      (defeatsOf asked beaten id).length)

theorem Accounts.rewarded (h : Accounts asked beaten b) (honce : (beaten.map Prod.fst).Nodup)
    (hgroup : groupOf script id = some group) (hmembers : group.members ≠ [])
    (hterms : ∀ q ∈ asked, q.Honours script) {dealt : ℕ} (hdealt : dealt ≤ group.members.length)
    (hasked : (asked.filter fun q => q.group = id).map SpawnRequest.member = List.range dealt) :
    Rewarded asked beaten b id group := by
  have hless : ∀ q ∈ asked, q.group = id → q.member < group.members.length := by
    intro q hq hid
    have hmem : q.member ∈ List.range dealt := by
      rw [← hasked]
      exact List.mem_map_of_mem (List.mem_filter.2 ⟨hq, by simpa using hid⟩)
    exact (List.mem_range.1 hmem).trans_le hdealt
  have hnodup : ((defeatsOf asked beaten id).map fun x =>
      asked[x.1]?.map SpawnRequest.member).Nodup :=
    nodup_members (hasked ▸ List.nodup_range) honce
  have hagreed : ∀ x ∈ defeatsOf asked beaten id,
      terms asked id = some (group.reward.countdown group.members.length) := by
    intro x hx
    obtain ⟨q, hq, hid⟩ := request_of_mem_defeatsOf hx
    exact terms_of_honours hterms hgroup (List.mem_of_getElem? hq) hid
  refine ⟨hnodup, fun x hx => ?_, fun x hx => h.kinds (hagreed x hx) x hx, fun hcount d hd => ?_,
    fun q hq hid => ?_⟩
  · obtain ⟨q, hq, hid⟩ := request_of_mem_defeatsOf hx
    exact ⟨q, hq, hless q (List.mem_of_getElem? hq) hid⟩
  · have hpos : 0 < group.members.length := List.length_pos_iff.2 hmembers
    -- A group that nobody has been asked for yet has no countdown; then it has no defeats either.
    cases hown : defeatsOf asked beaten id with
    | nil =>
      rw [hown] at hd
      obtain rfl : d = 0 := by simpa using hd
      exact group.reward.payments hpos hpos.le hcount
    | cons x later =>
      rw [← hown]
      exact h.payments (hagreed x (by simp [hown])) hpos hcount
        (length_defeatsOf_le hnodup hless) hd
  · rw [h.standing, terms_of_honours hterms hgroup hq hid, Option.map_some]

end Level

namespace Game

variable {g : Game Float32} {seen : List (Observation Float32)}

/-- Whatever is done in a game, every group that has been started is one of its own, no enemy is
defeated twice, and nobody that stays off the screen for too long is defeated at all. A group with
members has paid by the condition of its reward for those that were defeated, and what is paid in a
step is left for the player to collect. Where the script was read from a text, no condition counts
to zero. -/
theorem groups_pay_by_their_condition (script : List (Script.Instruction Float32))
    (world : Vec Float32) (tempo grace : Float32) (levelWords arenaWords : Words)
    (actions : List (Action Float32))
    (hrun : (start script world tempo grace levelWords arenaWords).run actions = .ok (g, seen)) :
    (startedGroups (journal seen)).Nodup ∧
    (∀ q ∈ asked seen, q.group ∈ startedGroups (journal seen)) ∧
    ((beaten seen).map Prod.fst).Nodup ∧
    (∀ x ∈ beaten seen, x.1 < (asked seen).length ∧ x.1 ∉ away seen) ∧
    (∀ id ∈ startedGroups (journal seen), ∃ group, groupOf script id = some group ∧
      (group.members ≠ [] → Level.Rewarded (asked seen) (beaten seen) g.arena.bounties id group) ∧
      ∀ source, Script.read source = .ok script → group.reward.condition ≠ .count 0) ∧
    ∀ dt turn words, g.arena.step dt g.words = .ok (turn, words) → ¬ dt ≤ 0 →
      g.arena.status ≠ .gameOver →
      ∃ new, new.map Arena.Pickup.kind = Arena.payments turn.happenings ∧
        turn.arena.pickups = ({ g.arena with pickups := g.arena.pickups ++ new }.stepPickups
          dt).arena.pickups := by
  obtain ⟨calls, hcalls⟩ := level_run hrun
  have hhonoured := Level.honoured_run hcalls
  have hfallen := fallen_run hrun
  have hdealt := hhonoured.ledger.dealt
  have hterms : ∀ q ∈ asked seen, q.Honours script := by
    intro q hq
    obtain ⟨event, hevent, hrequest⟩ := List.mem_filterMap.1 hq
    cases event with
    | spawn q' => exact Option.some.inj hrequest ▸ hhonoured.requests q' hevent
    | _ => cases hrequest
  refine ⟨?_, fun q hq => ?_, hfallen.once, fun x hx =>
    ⟨hfallen.accounts.known x hx, fun haway => ?_⟩, fun id hid => ?_,
    fun dt turn words hturn hdt hplays => Arena.step_pays hturn hdt hplays⟩
  · simpa using hhonoured.ledger.numbered.once
  · by_contra hnew
    have hnone : q ∈ Level.deliveries q.group (events seen) := List.mem_filter.2 ⟨hq, by simp⟩
    rw [hdealt.unheard q.group hnew] at hnone
    cases hnone
  · exact (hfallen.spared x.1 haway).2.2 (List.mem_map_of_mem hx)
  · obtain ⟨group, hgroup, dealt, hle, hmembers⟩ := hdealt.members hid
    refine ⟨group, hgroup, fun hsome => ?_, fun source hread => ?_⟩
    · exact hfallen.accounts.rewarded hfallen.once hgroup hsome hterms hle hmembers
    · obtain ⟨i, hi, hof⟩ := Option.bind_eq_some_iff.1 hgroup
      exact (Script.read_checked source script hread i (List.mem_of_getElem? hi)).pays group hof

def couple : Script.Group Float32 :=
  { window := .literal 0, members := [⟨'A', .packed ⟨0⟩⟩, ⟨'A', .packed ⟨0⟩⟩],
    reward := ⟨'p', .all⟩, side := .right, factors := [.literal 0.5],
    trajectory := [.linear .left (.literal 60)] }

/-- Two shots hit in one step, and the second defeat pays. -/
theorem second_defeat_pays :
    ∃ g seen, (start [.spawn couple] ⟨320, 180⟩ 120 0.5 (Words.cycle #[]) (Words.cycle #[])).run
        [.update 1, .fire, .fire, .step 0.9] = .ok (g, seen) ∧
      beaten seen = [(0, none), (1, some 'p')] ∧ g.arena.pickups.map Arena.Pickup.kind = ['p'] ∧
      startedGroups (journal seen) = [⟨0, 0⟩] ∧
      Level.Rewarded (asked seen) (beaten seen) g.arena.bounties ⟨0, 0⟩ couple := by
  have hview : ((start [.spawn couple] ⟨320, 180⟩ 120 0.5 (Words.cycle #[]) (Words.cycle #[])).run
      [.update 1, .fire, .fire, .step 0.9]).map (fun p =>
        (beaten p.2, p.1.arena.pickups.map Arena.Pickup.kind, startedGroups (journal p.2))) =
      .ok ([(0, none), (1, some 'p')], ['p'], [⟨0, 0⟩]) := by
    decide +kernel
  obtain ⟨⟨g, seen⟩, hrun, hview⟩ := ok_of_map hview
  simp only [Prod.mk.injEq] at hview
  obtain ⟨hbeaten, hpickups, hstarted⟩ := hview
  obtain ⟨-, -, -, -, hgroups, -⟩ := groups_pay_by_their_condition _ _ _ _ _ _ _ hrun
  obtain ⟨group, hgroup, hrewarded, -⟩ := hgroups ⟨0, 0⟩ (by simp [hstarted])
  obtain rfl : couple = group := Option.some.inj hgroup
  exact ⟨g, seen, hrun, hbeaten, hpickups, hstarted, hrewarded (List.cons_ne_nil _ _)⟩

end Game

end Barrage
