import Barrage.Proofs.Level.Dealing

/-! # Terms of a request

Whatever a level asks of its host, it asks on the terms of a group of its script: every member comes
with the reward of its group and with the number of members. -/

namespace Barrage.Level

open Script (Instruction)

variable {α : Type}

/-- Comes with the reward and the size of its group. -/
def SpawnRequest.Honours (script : List (Instruction α)) (q : SpawnRequest α) : Prop :=
  ∃ group, groupOf script q.group = some group ∧ q.reward = group.reward ∧
    q.groupSize = group.members.length

def Spawner.Honours (script : List (Instruction α)) (s : Spawner α) : Prop :=
  ∃ group, groupOf script s.id = some group ∧ s.reward = group.reward ∧ s.members = group.members

structure Honoured (script : List (Instruction α)) (h : Frame α) : Prop where
  ledger : Ledger script [] h
  spawners : ∀ s ∈ h.level.spawners, s.Honours script
  requests : ∀ q, .spawn q ∈ h.events → q.Honours script

variable [Scalar α] {script : List (Instruction α)} {h f : Frame α} {world : Vec α} {dt : α}

namespace Spawner.Honours

theorem fire {s : Spawner α} (hs : s.Honours script) (t : Scheduler α)
    {spawned : Array (SpawnRequest α)} (h : ∀ q ∈ spawned.toList, q.Honours script) :
    ∀ q ∈ (t.fire s.rhythm spawned).2.toList, q.Honours script := by
  obtain ⟨group, hgroup, hreward, hmembers⟩ := hs
  intro q hq
  unfold Scheduler.fire rhythm at hq
  dsimp only at hq
  cases hmember : s.members[t.count + 1 - 1]? with
  | none =>
    rw [hmember] at hq
    exact h q hq
  | some member =>
    rw [hmember, Array.toList_push, List.mem_append, List.mem_singleton] at hq
    rcases hq with hq | rfl
    · exact h q hq
    · exact ⟨group, hgroup, hreward, congrArg List.length hmembers⟩

theorem update {s : Spawner α} (hs : s.Honours script) (hdt : ¬ dt ≤ 0)
    (hrun : s.scheduler.running = true) : ∀ q ∈ (s.update dt).2, q.Honours script := by
  have hnone : ∀ q ∈ (#[] : Array (SpawnRequest α)).toList, q.Honours script := by simp
  exact Scheduler.update_induction (r := s.rhythm) (P := fun _ spawned =>
    ∀ q ∈ spawned.toList, q.Honours script) hdt hrun (fun t _ _ _ h => hs.fire t h) hnone

end Spawner.Honours

theorem honoured_startGroup {l l' : Level α} {id : GroupId} {group : Script.Group α} {offset : α}
    (hs : ∀ s ∈ l.spawners, s.Honours script) (hgroup : groupOf script id = some group)
    (hstart : l.startGroup world id group offset = .ok l') :
    ∀ s ∈ l'.spawners, s.Honours script := by
  obtain ⟨words, opened, rfl, hcases⟩ := startGroup_ok hstart
  intro s hmem
  rcases List.mem_append.1 hmem with hmem | hmem
  · exact hs s hmem
  · rcases hcases with ⟨-, rfl⟩ | ⟨-, s', rfl, hopens⟩
    · cases hmem
    · rw [List.mem_singleton.1 hmem]
      exact ⟨group, hopens.id_eq ▸ hgroup, hopens.reward_eq, hopens.members_eq⟩

theorem honoured_startDue {due : List (Due α)} {l l' : Level α} {journal : List (Entry α)}
    (hs : ∀ s ∈ l.spawners, s.Honours script) (hdue : ∀ d ∈ due, groupOf script d.id = some d.group)
    (hstart : startDue world dt due l = .ok (l', journal)) :
    ∀ s ∈ l'.spawners, s.Honours script := by
  induction due generalizing l journal with
  | nil =>
    cases hstart
    exact hs
  | cons d due ih =>
    obtain ⟨offset, -, hstart⟩ := parts_of_ok hstart
    obtain ⟨l₁, hgroup, hstart⟩ := parts_of_ok hstart
    obtain ⟨⟨l₂, later⟩, hlater, hstart⟩ := parts_of_ok hstart
    cases hstart
    obtain ⟨hfirst, hrest⟩ := List.forall_mem_cons.1 hdue
    exact ih (honoured_startGroup hs hfirst hgroup) hrest hlater

theorem honoured_execute {i : Instruction α} {offset : α} (hH : Honoured script h)
    (hget : h.level.script[h.level.next]? = some i)
    (hout : Outcome h.level.pass world h.level.next offset i f) :
    Honoured script (f.behind (h.journal ++ [.executed h.level.next offset]) h.events) := by
  refine ⟨ledger_execute hH.ledger hget hout, ?_, fun q hq => ?_⟩
  · cases hout with
    | @spawn group _ hstart =>
      have hgroup : groupOf script ⟨h.level.next, 0⟩ = some group := by
        rw [groupOf, ← hH.ledger.numbered.script_eq, hget]
        rfl
      exact honoured_startGroup (l := h.level.pass) hH.spawners hgroup hstart
    | _ => exact hH.spawners
  · rcases List.mem_append.1 hq with hq | hq
    · exact hH.requests q hq
    · cases hout.no_request _ hq

theorem honoured_advance {l : Level α} (hdt : ¬ dt ≤ 0)
    (hH : Honoured script ⟨l, h.journal, h.events⟩) (hadv : l.advanceSchedulers world dt = .ok f) :
    Honoured script (f.behind h.journal h.events) := by
  have hledger := ledger_advance hdt hH.ledger hadv
  obtain ⟨l₁, journal, hstart, rfl⟩ := advance_cases hadv
  have hgroups := ledger_groups hdt hH.ledger hstart
  have hspawners : ∀ s ∈ l₁.spawners, s.Honours script :=
    honoured_startDue (l := { l with repeaters := (Repeater.updateAll dt l.repeaters).1 })
      hH.spawners (numbered_tick hdt hH.ledger.numbered).group_of hstart
  refine ⟨hledger, fun s hs => ?_, fun q hq => ?_⟩
  · obtain ⟨⟨s₀, hs₀, rfl⟩, -⟩ := Spawner.mem_updateAll.1 hs
    exact hspawners s₀ hs₀
  · rcases List.mem_append.1 hq with hq | hq
    · exact hH.requests q hq
    · obtain ⟨q', hq', heq⟩ := List.mem_map.1 hq
      obtain rfl := Event.spawn.inj heq
      rw [Spawner.updateAll_eq] at hq'
      obtain ⟨s, hs, hq'⟩ := List.mem_flatMap.1 hq'
      exact (hspawners s hs).update hdt (hgroups.dealt.running s hs) q' hq'

theorem honoured_call {c : Call α} (hH : Honoured script h) (hcall : h.level.call c = .ok f) :
    Honoured script (f.behind h.journal h.events) := by
  have hledger := ledger_call hH.ledger hcall
  cases c with
  | release =>
    cases hcall
    refine ⟨hledger, hH.spawners, fun q hq => hH.requests q ?_⟩
    simpa using hq
  | update world dt =>
    rcases update_cases hcall with
      ⟨-, rfl⟩ | ⟨hdt, -, -, hadv⟩ | ⟨hdt, -, first, last, hdue, hadv, rfl⟩
    · simpa [Frame.behind] using hH
    · exact honoured_advance (l := { h.level with clock := h.level.clock + dt }) hdt
        ⟨hH.ledger.of_level rfl rfl rfl rfl, hH.spawners, hH.requests⟩ hadv
    · have henter : Honoured script ⟨h.level.enter dt, h.journal, h.events⟩ :=
        ⟨ledger_enter hH.ledger dt, by rw [enter_spawners]; exact hH.spawners, hH.requests⟩
      have hfirst : Honoured script (first.behind h.journal h.events) := by
        refine (runDue_induction (P := Honoured script)
          (h := ⟨h.level.enter dt, h.journal, h.events⟩)
          ?_ ?_ (List.prefix_refl _) (enter_waitingForClear _ _) henter (by simpa using hdue)).1
        · intro g hg _ _ _ _
          exact ⟨ledger_skip hg.ledger, hg.spawners, hg.requests⟩
        · intro g i offset first hg _ _ _ hget _ hout
          exact honoured_execute hg hget hout
      have hlast := honoured_advance (h := first.behind h.journal h.events) hdt hfirst hadv
      simpa [behind_behind] using hlast

theorem honoured_run {tempo : α} {words : Words} {calls : List (Call α)}
    (hrun : (start script tempo words).run calls = .ok f) : Honoured script f := by
  refine run_induction ⟨ledger_start script tempo words, ?_, ?_⟩
    (fun _ _ _ _ _ _ hH hcall _ => honoured_call hH hcall) hrun
  · exact List.forall_mem_nil _
  · exact fun q hq => absurd hq List.not_mem_nil

/-! ## Members of a group -/

omit [Scalar α] in
theorem Dealt.members (hD : Dealt script h) {id : GroupId} (hid : id ∈ startedGroups h.journal) :
    ∃ group, groupOf script id = some group ∧ ∃ dealt ≤ group.members.length,
      (deliveries id h.events).map SpawnRequest.member = List.range dealt := by
  obtain ⟨group, hgroup, hcards, -⟩ := hD.account hid
  have hroster : (roster group.members).map Card.member = List.range group.members.length := by
    refine List.ext_getElem (by simp) fun i hi _ => ?_
    simp [roster, card]
  have hnumbers : (deliveries id h.events).map SpawnRequest.member =
      (cards id h.events).map Card.member := by
    rw [cards, List.map_map]
    rfl
  refine ⟨group, hgroup, (cards id h.events).length, ?_, ?_⟩
  · rw [← length_roster]
    exact hcards.length_le
  · rw [hnumbers, List.prefix_iff_eq_take.1 hcards, List.map_take, hroster, List.take_range,
      List.length_take, length_roster]

theorem member_hitPoints_pos (m : Script.Member) : 0 < m.hitPoints := by
  unfold Script.Member.hitPoints
  split <;> decide

omit [Scalar α] in
theorem Dealt.hitPoints_pos (hD : Dealt script h) {q : SpawnRequest α} (hq : .spawn q ∈ h.events) :
    0 < q.hitPoints := by
  have hdelivered : q ∈ deliveries q.group h.events :=
    List.mem_filter.2 ⟨List.mem_filterMap.2 ⟨.spawn q, hq, rfl⟩, by simp⟩
  have hstarted : q.group ∈ startedGroups h.journal := by
    by_contra hnew
    rw [hD.unheard q.group hnew] at hdelivered
    cases hdelivered
  obtain ⟨group, -, hcards, -⟩ := hD.account hstarted
  have hcard : q.card ∈ roster group.members := hcards.subset (List.mem_map_of_mem hdelivered)
  obtain ⟨i, hi, hcard⟩ := List.mem_mapIdx.1 hcard
  have hpoints : (group.members[i]).hitPoints = q.hitPoints := congrArg Card.hitPoints hcard
  exact hpoints ▸ member_hitPoints_pos _

end Barrage.Level
