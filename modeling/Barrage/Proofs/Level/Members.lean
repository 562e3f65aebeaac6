import Barrage.Proofs.Level.Pace
import Barrage.Proofs.Level.Rounds

/-! # Members on time

A spawner begins where its group is dated to, and goes on from there. How early it can be is counted
in firings: its own, and those of the repeater that numbered its group. -/

namespace Barrage.Level

open Script (Instruction)
open Scheduler (OnTime Planned slack)

structure Spawner.Keeps (script : List (Instruction Exact)) (tempo T : ℚ)
    (group : Script.Group Exact) (start : ℚ) (s : Spawner Exact) : Prop where
  starts : Start script tempo s.id group start
  members_eq : s.members = group.members
  period_eq : s.period = .finite (spacing tempo group)
  on_time : OnTime T (start + s.scheduler.count * spacing tempo group)
    (tries script s.id + s.scheduler.count) s.scheduler

def Kept (script : List (Instruction Exact)) (tempo T : ℚ)
    (spawners : List (Spawner Exact)) : Prop :=
  ∀ s ∈ spawners, ∃ group start, s.Keeps script tempo T group start

/-- No enemy has come earlier than the tolerances of the firings that it took allow. -/
def NotEarly (script : List (Instruction Exact)) (tempo T : ℚ) (h : Frame Exact) : Prop :=
  ∀ x, .spawn x ∈ h.events → ∃ t, Nominal script tempo x.group x.member t ∧
    t ≤ T + firings script x.group h * slack

variable {script : List (Instruction Exact)} {tempo T start σ q : ℚ} {h f : Frame Exact}
  {id : GroupId} {group : Script.Group Exact} {world : Vec Exact}

theorem NotEarly.mono {T' : ℚ} (hE : NotEarly script tempo T h) (hT : T ≤ T')
    (hjournal : h.journal <+: f.journal) (hevents : h.events <+: f.events)
    (hspawns : ∀ x, .spawn x ∈ f.events → .spawn x ∉ h.events →
      ∃ t, Nominal script tempo x.group x.member t ∧ t ≤ T' + firings script x.group f * slack) :
    NotEarly script tempo T' f := by
  intro x hx
  by_cases hold : .spawn x ∈ h.events
  · obtain ⟨t, ht, hle⟩ := hE x hold
    have hfirings : (firings script x.group h : ℚ) ≤ firings script x.group f := by
      exact_mod_cast firings_mono hjournal hevents
    have hmul := mul_le_mul_of_nonneg_right hfirings Scheduler.slack_pos.le
    exact ⟨t, ht, by linarith⟩
  · exact hspawns x hx hold

/-! ## Starting a group -/

theorem window_mem_numbers {i : Instruction Exact} (hi : i.group? = some group) :
    group.window ∈ i.numbers := by
  cases i with
  | spawn g =>
    cases hi
    exact List.mem_cons_self ..
  | spawnRepeatedly gap total g =>
    cases hi
    simp [Instruction.numbers, Script.Group.numbers]
  | _ => cases hi

theorem start_mem (hstart : Start script tempo id group start) :
    ∃ i ∈ script, i.group? = some group := by
  cases hstart with
  | spawn hget => exact ⟨_, List.mem_of_getElem? hget, rfl⟩
  | spawnRepeatedly hget => exact ⟨_, List.mem_of_getElem? hget, rfl⟩

theorem Regular.window (hR : Regular script tempo) (hstart : Start script tempo id group start) :
    group.window.isRational = true ∧ 0 ≤ group.window.worth tempo := by
  obtain ⟨i, hi, hgroup⟩ := start_mem hstart
  exact ⟨hR.rational i hi _ (window_mem_numbers hgroup), hR.windows i hi group hgroup⟩

theorem Opens.period_eq {offset : Exact} {s : Spawner Exact} (hR : Regular script tempo)
    (hstart : Start script tempo id group start) (hmembers : group.members ≠ [])
    (hopens : Opens (.finite tempo) world id group offset s) :
    s.period = .finite (spacing tempo group) := by
  obtain ⟨hrational, hwindow⟩ := hR.window hstart
  have hlength : (group.members.length : ℚ) ≠ 0 := by
    have hpos := List.length_pos_iff.2 hmembers
    positivity
  obtain ⟨w, w', hdraws⟩ := hopens.drawn
  unfold groupDraws at hdraws
  obtain ⟨window, w₁, hw, hrest⟩ := draws_of_ok hdraws
  obtain ⟨program, w₂, -, hrest⟩ := draws_of_ok hrest
  obtain ⟨factors, w₃, -, hlast⟩ := draws_of_ok hrest
  have hperiod := (Prod.mk.inj (Prod.mk.inj (Except.ok.inj hlast)).1).1
  obtain rfl := Number.eq_worth hrational hw
  rw [← hperiod, Exact.max_zero, Exact.ofNat_eq, Exact.finite_div _ hlength, max_eq_left hwindow]
  rfl

theorem kept_startGroup {l l' : Level Exact} (hR : Regular script tempo)
    (htempo : l.tempo = .finite tempo) (hK : Kept script tempo T l.spawners)
    (hstart : Start script tempo id group start) (hearly : start ≤ σ + tries script id * slack)
    (hlate : σ ≤ start) (hrun : l.startGroup world id group (.finite (σ - T)) = .ok l') :
    Kept script tempo T l'.spawners := by
  obtain ⟨words, opened, rfl, hcases⟩ := startGroup_ok hrun
  intro s hs
  rcases List.mem_append.1 hs with hs | hs
  · exact hK s hs
  rcases hcases with ⟨-, rfl⟩ | ⟨hmembers, s', rfl, hopens⟩
  · cases hs
  obtain rfl := List.mem_singleton.1 hs
  rw [htempo] at hopens
  have hplanned := Scheduler.planned_ofDelay T (σ - T)
  rw [add_sub_cancel, ← hopens.scheduler_eq] at hplanned
  have hcount : s.scheduler.count = 0 := by rw [hopens.scheduler_eq]; rfl
  refine ⟨group, start, hopens.id_eq ▸ hstart, hopens.members_eq,
    hopens.period_eq hR hstart hmembers, σ, hplanned, ?_, ?_⟩
  · rw [hcount, hopens.id_eq]
    push_cast
    linarith
  · rw [hcount]
    push_cast
    linarith

theorem kept_startDue {due : List (Due Exact)} {l l' : Level Exact} {journal : List (Entry Exact)}
    (hR : Regular script tempo) (htempo : l.tempo = .finite tempo)
    (hdue : ∀ d ∈ due, ∃ start σ, d.Keeps script tempo T (T + q) start σ)
    (hK : Kept script tempo T l.spawners)
    (hrun : startDue world (.finite q) due l = .ok (l', journal)) :
    Kept script tempo T l'.spawners := by
  induction due generalizing l journal with
  | nil =>
    cases hrun
    exact hK
  | cons d due ih =>
    obtain ⟨offset, hoffset, hrun⟩ := parts_of_ok hrun
    obtain ⟨l₁, hgroup, hrun⟩ := parts_of_ok hrun
    obtain ⟨⟨l₂, later⟩, hlater, hrun⟩ := parts_of_ok hrun
    cases hrun
    obtain ⟨start, σ, hd⟩ := hdue d (List.mem_cons_self ..)
    have hafter := hd.after
    have hwithin := hd.within
    rw [hd.lag_eq, Exact.finite_sub, Exact.clamp_eq (by linarith) (by linarith)] at hoffset
    have hdated : q - (T + q - σ) = σ - T := by ring
    rw [hdated] at hoffset
    cases hoffset
    have hK₁ := kept_startGroup hR htempo hK hd.starts hd.early hd.late hgroup
    have htempo₁ : l₁.tempo = .finite tempo := by
      obtain ⟨words, opened, rfl, -⟩ := startGroup_ok hgroup
      exact htempo
    exact ih htempo₁ (fun e he => hdue e (List.mem_cons_of_mem _ he)) hK₁ hlater

/-! ## Updates of spawners -/

theorem Spawner.Keeps.spaced {s : Spawner Exact} (hq : 0 < q) (hD : Dealt script h)
    (hs : s ∈ h.level.spawners) (hK : s.Keeps script tempo T group start) :
    Spaced (T + q) start (spacing tempo group) (tries script s.id)
      (s.update (.finite q)).1.scheduler (s.update (.finite q)).2.toArray :=
  spaced_update (by simpa using hq) (hD.running s hs) (hD.within s hs) hK.period_eq hK.on_time

theorem kept_tick (hq : 0 < q) (hD : Dealt script h) (hK : Kept script tempo T h.level.spawners) :
    Kept script tempo (T + q) (Spawner.updateAll (.finite q) h.level.spawners).1 := by
  intro s' hs'
  obtain ⟨⟨s, hs, rfl⟩, -⟩ := Spawner.mem_updateAll.1 hs'
  obtain ⟨group, start, hkeeps⟩ := hK s hs
  exact ⟨group, start, hkeeps.starts, hkeeps.members_eq, hkeeps.period_eq,
    (hkeeps.spaced hq hD hs).on_time⟩

theorem tries_le {ids : List GroupId} (hclosed : ∀ round ≤ id.round, ⟨id.line, round⟩ ∈ ids) :
    tries script id ≤
      if isRepeated script id.line then ids.countP fun other => other.line = id.line else 0 := by
  unfold tries
  split_ifs with hrepeated
  · have hnodup : ((List.range (id.round + 1)).map (GroupId.mk id.line)).Nodup :=
      List.nodup_range.map fun a b hab => (GroupId.mk.inj hab).2
    have hsub : (List.range (id.round + 1)).map (GroupId.mk id.line) ⊆
        ids.filter fun other => other.line = id.line := by
      intro other hother
      obtain ⟨round, hround, rfl⟩ := List.mem_map.1 hother
      have hle : round ≤ id.round := Nat.lt_succ_iff.1 (List.mem_range.1 hround)
      exact List.mem_filter.2 ⟨hclosed round hle, by simp⟩
    have hlength := (List.subperm_of_subset hnodup hsub).length_le
    rwa [List.length_map, List.length_range, ← List.countP_eq_length_filter] at hlength
  · exact le_refl _

theorem early_tick {l : Level Exact} (hq : 0 < q) (hD : Dealt script h)
    (hK : Kept script tempo T h.level.spawners)
    (hclosed : ∀ id ∈ startedGroups h.journal, ∀ round ≤ id.round,
      ⟨id.line, round⟩ ∈ startedGroups h.journal)
    {x : SpawnRequest Exact} (hx : x ∈ (Spawner.updateAll (.finite q) h.level.spawners).2) :
    ∃ t, Nominal script tempo x.group x.member t ∧
      t ≤ T + q + firings script x.group ⟨l, h.journal,
        h.events ++ (Spawner.updateAll (.finite q) h.level.spawners).2.map .spawn⟩ * slack := by
  have hdt : ¬ (Exact.finite q) ≤ 0 := by simpa using hq
  rw [Spawner.updateAll_eq] at hx
  obtain ⟨s, hs, hx⟩ := List.mem_flatMap.1 hx
  obtain ⟨group, start, hkeeps⟩ := hK s hs
  have hdeals := hD.deals hdt hs
  obtain ⟨hlt, hle⟩ := (hkeeps.spaced hq hD hs).not_early x hx
  have hgroup : x.group = s.id := hdeals.own x hx
  have hmember : x.member < group.members.length := by
    rw [← hkeeps.members_eq]
    exact hlt.trans_le hdeals.within
  have hlength := congrArg List.length (cards_tick hdt hD hs)
  rw [cards, List.length_map, List.length_take, length_roster, min_eq_left hdeals.within] at hlength
  have htries : tries script s.id ≤ _ := tries_le (hclosed s.id (hD.started s hs))
  refine ⟨_, ⟨group, start, hgroup ▸ hkeeps.starts, hmember, rfl⟩, hle.trans ?_⟩
  -- the requests count the spawner's own firings, and the rounds up to this one those of the
  -- repeater
  have hfirings : firings script x.group ⟨l, h.journal,
      h.events ++ (Spawner.updateAll (.finite q) h.level.spawners).2.map .spawn⟩ =
      (s.update (.finite q)).1.scheduler.count + if isRepeated script s.id.line then
        (startedGroups h.journal).countP fun other => other.line = s.id.line else 0 := by
    rw [hgroup, ← hlength]
    rfl
  have hcount : tries script s.id + (x.member + 1) ≤ firings script x.group ⟨l, h.journal,
      h.events ++ (Spawner.updateAll (.finite q) h.level.spawners).2.map .spawn⟩ := by
    rw [hfirings]
    omega
  have hmul := mul_le_mul_of_nonneg_right (Nat.cast_le (α := ℚ).2 hcount) Scheduler.slack_pos.le
  linarith

end Barrage.Level
