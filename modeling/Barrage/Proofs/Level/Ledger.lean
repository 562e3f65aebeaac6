import Barrage.Proofs.Level.Pool
import Barrage.Proofs.Level.Run

/-! # The ledger of groups

Every group that a level starts has a number of its own, and the level's spawners stand between what
has been asked of the host and what is still due to it: a group with a spawner has had as many
members as the spawner has fired, and a started group without one has had them all. -/

namespace Barrage.Level

open Script (Instruction)

variable {α : Type}

def startedGroups (journal : List (Entry α)) : List GroupId := journal.filterMap Entry.started?

/-- What a host has been asked to spawn for a group. -/
def deliveries (id : GroupId) (events : List (Event α)) : List (SpawnRequest α) :=
  (events.filterMap Event.request?).filter fun q => q.group = id

def cards (id : GroupId) (events : List (Event α)) : List Card :=
  (deliveries id events).map SpawnRequest.card

@[simp] theorem startedGroups_append (j₁ j₂ : List (Entry α)) :
    startedGroups (j₁ ++ j₂) = startedGroups j₁ ++ startedGroups j₂ := List.filterMap_append

@[simp] theorem startedGroups_nil : startedGroups ([] : List (Entry α)) = [] := rfl

@[simp] theorem startedGroups_executed (index : ℕ) (offset : α) (journal : List (Entry α)) :
    startedGroups (.executed index offset :: journal) = startedGroups journal := rfl

@[simp] theorem startedGroups_started (id : GroupId) (offset : α) (journal : List (Entry α)) :
    startedGroups (.started id offset :: journal) = id :: startedGroups journal := rfl

theorem mem_startedGroups {journal : List (Entry α)} {id : GroupId} :
    id ∈ startedGroups journal ↔ ∃ offset, .started id offset ∈ journal := by
  constructor
  · intro h
    obtain ⟨e, he, hid⟩ := List.mem_filterMap.1 h
    cases e with
    | executed index offset => cases hid
    | started other offset => exact ⟨offset, Option.some.inj hid ▸ he⟩
  · rintro ⟨offset, h⟩
    exact List.mem_filterMap.2 ⟨_, h, rfl⟩

@[simp] theorem deliveries_append (id : GroupId) (e₁ e₂ : List (Event α)) :
    deliveries id (e₁ ++ e₂) = deliveries id e₁ ++ deliveries id e₂ := by
  simp [deliveries]

@[simp] theorem cards_append (id : GroupId) (e₁ e₂ : List (Event α)) :
    cards id (e₁ ++ e₂) = cards id e₁ ++ cards id e₂ := by
  simp [cards]

theorem deliveries_of_no_request {events : List (Event α)} (h : ∀ e ∈ events, e.request? = none)
    (id : GroupId) : deliveries id events = [] := by
  rw [deliveries, List.filterMap_eq_nil_iff.2 h]
  rfl

theorem deliveries_spawns (id : GroupId) (requests : List (SpawnRequest α)) :
    deliveries id (requests.map .spawn) = requests.filter fun q => q.group = id := by
  unfold deliveries
  rw [List.filterMap_map]
  congr 1
  exact List.filterMap_some

structure Numbered (script : List (Instruction α)) (pending : List (Due α))
    (h : Frame α) : Prop where
  script_eq : h.level.script = script
  once : (startedGroups h.journal ++ pending.map Due.id).Nodup
  past : ∀ id ∈ startedGroups h.journal ++ pending.map Due.id, id.line < h.level.next
  group_of : ∀ d ∈ pending, groupOf script d.id = some d.group
  lines_nodup : (h.level.repeaters.map Repeater.line).Nodup
  repeater_past : ∀ r ∈ h.level.repeaters, r.line < h.level.next
  repeater_running : ∀ r ∈ h.level.repeaters, r.scheduler.running = true
  repeater_group : ∀ r ∈ h.level.repeaters, ∀ round, groupOf script ⟨r.line, round⟩ = some r.group
  repeater_ahead : ∀ r ∈ h.level.repeaters, ∀ id ∈ startedGroups h.journal ++ pending.map Due.id,
    id.line = r.line → id.round < r.scheduler.count

/-- What a group has had and what its spawner still holds make up its members. -/
structure Dealt (script : List (Instruction α)) (h : Frame α) : Prop where
  ids_nodup : (h.level.spawners.map Spawner.id).Nodup
  started : ∀ s ∈ h.level.spawners, s.id ∈ startedGroups h.journal
  running : ∀ s ∈ h.level.spawners, s.scheduler.running = true
  within : ∀ s ∈ h.level.spawners, s.scheduler.count < s.members.length
  members_of : ∀ s ∈ h.level.spawners,
    ∃ group, groupOf script s.id = some group ∧ s.members = group.members
  opened : ∀ s ∈ h.level.spawners, cards s.id h.events = (roster s.members).take s.scheduler.count
  closed : ∀ id ∈ startedGroups h.journal, (∀ s ∈ h.level.spawners, s.id ≠ id) →
    ∃ group, groupOf script id = some group ∧ cards id h.events = roster group.members
  unheard : ∀ id, id ∉ startedGroups h.journal → deliveries id h.events = []

structure Ledger (script : List (Instruction α)) (pending : List (Due α)) (h : Frame α) : Prop where
  numbered : Numbered script pending h
  dealt : Dealt script h

variable {script : List (Instruction α)} {pending rest : List (Due α)} {h f : Frame α} {d : Due α}

theorem Numbered.of_eq (hN : Numbered script pending h) (hscript : f.level.script = h.level.script)
    (hnext : h.level.next ≤ f.level.next) (hrepeaters : f.level.repeaters = h.level.repeaters)
    (hstarted : startedGroups f.journal = startedGroups h.journal) : Numbered script pending f := by
  constructor
  · rw [hscript, hN.script_eq]
  · rw [hstarted]; exact hN.once
  · rw [hstarted]; exact fun id hid => (hN.past id hid).trans_le hnext
  · exact hN.group_of
  · rw [hrepeaters]; exact hN.lines_nodup
  · rw [hrepeaters]; exact fun r hr => (hN.repeater_past r hr).trans_le hnext
  · rw [hrepeaters]; exact hN.repeater_running
  · rw [hrepeaters]; exact hN.repeater_group
  · rw [hrepeaters, hstarted]; exact hN.repeater_ahead

theorem Dealt.of_eq (hD : Dealt script h) (hspawners : f.level.spawners = h.level.spawners)
    (hstarted : startedGroups f.journal = startedGroups h.journal)
    (hevents : ∀ id, deliveries id f.events = deliveries id h.events) : Dealt script f := by
  have hcards : ∀ id, cards id f.events = cards id h.events :=
    fun id => by rw [cards, hevents, cards]
  constructor
  · rw [hspawners]; exact hD.ids_nodup
  · rw [hspawners, hstarted]; exact hD.started
  · rw [hspawners]; exact hD.running
  · rw [hspawners]; exact hD.within
  · rw [hspawners]; exact hD.members_of
  · rw [hspawners]; exact fun s hs => (hcards s.id).trans (hD.opened s hs)
  · rw [hspawners, hstarted]
    intro id hid hnone
    rw [hcards]
    exact hD.closed id hid hnone
  · rw [hstarted]
    intro id hid
    rw [hevents]
    exact hD.unheard id hid

theorem Ledger.of_level (hL : Ledger script [] h) {l : Level α}
    (hscript : l.script = h.level.script) (hnext : l.next = h.level.next)
    (hrepeaters : l.repeaters = h.level.repeaters) (hspawners : l.spawners = h.level.spawners) :
    Ledger script [] ⟨l, h.journal, h.events⟩ :=
  ⟨hL.numbered.of_eq hscript hnext.ge hrepeaters rfl, hL.dealt.of_eq hspawners rfl fun _ => rfl⟩

theorem ledger_skip (hL : Ledger script [] h) :
    Ledger script [] ⟨h.level.pass, h.journal, h.events⟩ :=
  ⟨hL.numbered.of_eq rfl (Nat.le_succ _) rfl rfl, hL.dealt.of_eq rfl rfl fun _ => rfl⟩

/-! ## What the ledger says of a group -/

/-- A started group has had as many members as its spawner has fired, or has no spawner and has had
all. -/
theorem Dealt.dealt_cases (hD : Dealt script h) {id : GroupId}
    (hid : id ∈ startedGroups h.journal) : ∃ group, groupOf script id = some group ∧
      ((∃ s ∈ h.level.spawners, s.id = id ∧ s.scheduler.count < group.members.length ∧
          cards id h.events = (roster group.members).take s.scheduler.count) ∨
        (∀ s ∈ h.level.spawners, s.id ≠ id) ∧ cards id h.events = roster group.members) := by
  by_cases hspawner : ∃ s ∈ h.level.spawners, s.id = id
  · obtain ⟨s, hs, rfl⟩ := hspawner
    obtain ⟨group, hgroup, hmembers⟩ := hD.members_of s hs
    have hlt := hD.within s hs
    have hopened := hD.opened s hs
    rw [hmembers] at hlt hopened
    exact ⟨group, hgroup, Or.inl ⟨s, hs, rfl, hlt, hopened⟩⟩
  · have hne : ∀ s ∈ h.level.spawners, s.id ≠ id := fun s hs he => hspawner ⟨s, hs, he⟩
    obtain ⟨group, hgroup, hcards⟩ := hD.closed id hid hne
    exact ⟨group, hgroup, Or.inr ⟨hne, hcards⟩⟩

/-- The host has had the first members of a started group, and the group has a spawner as long as
members are missing. -/
theorem Dealt.account (hD : Dealt script h) {id : GroupId} (hid : id ∈ startedGroups h.journal) :
    ∃ group, groupOf script id = some group ∧ cards id h.events <+: roster group.members ∧
      (h.level.spawners.countP fun s => s.id = id) =
        if (cards id h.events).length < group.members.length then 1 else 0 := by
  have hcount : (h.level.spawners.countP fun s => s.id = id) =
      (h.level.spawners.map Spawner.id).count id := by
    rw [List.count, List.countP_map]
    exact List.countP_congr fun s _ => by simp
  rw [hcount]
  obtain ⟨group, hgroup, hcases⟩ := hD.dealt_cases hid
  rcases hcases with ⟨s, hs, rfl, hlt, hcards⟩ | ⟨hne, hcards⟩
  · refine ⟨group, hgroup, ?_, ?_⟩
    · rw [hcards]
      exact List.take_prefix _ _
    · rw [List.count_eq_one_of_mem hD.ids_nodup (List.mem_map_of_mem hs), hcards, if_pos]
      rw [List.length_take, length_roster]
      omega
  · refine ⟨group, hgroup, hcards ▸ List.prefix_refl _, ?_⟩
    rw [hcards, length_roster, if_neg (lt_irrefl _), List.count_eq_zero]
    intro hmem
    obtain ⟨s, hs, hsid⟩ := List.mem_map.1 hmem
    exact hne s hs hsid

/-! ## Starting a group -/

theorem numbered_line {group : Script.Group α} (hN : Numbered script [] h)
    (hgroup : groupOf script ⟨h.level.next, 0⟩ = some group) (lag : α) :
    Numbered script [⟨⟨h.level.next, 0⟩, group, lag⟩] ⟨h.level.pass, h.journal, h.events⟩ := by
  have hpast : ∀ id ∈ startedGroups h.journal, id.line < h.level.next :=
    fun id hid => hN.past id (List.mem_append_left _ hid)
  constructor
  · exact hN.script_eq
  · refine List.nodup_append'.2 ⟨(List.nodup_append'.1 hN.once).1, List.nodup_singleton _, ?_⟩
    intro id hid hmem
    rw [List.map_singleton, List.mem_singleton] at hmem
    have hlt := hpast id hid
    rw [hmem] at hlt
    exact lt_irrefl _ hlt
  · intro id hid
    rcases List.mem_append.1 hid with hid | hid
    · exact (hpast id hid).trans (Nat.lt_succ_self _)
    · rw [List.map_singleton, List.mem_singleton] at hid
      rw [hid]
      exact Nat.lt_succ_self _
  · intro d hd
    rw [List.mem_singleton.1 hd]
    exact hgroup
  · exact hN.lines_nodup
  · exact fun r hr => (hN.repeater_past r hr).trans (Nat.lt_succ_self _)
  · exact hN.repeater_running
  · exact hN.repeater_group
  · intro r hr id hid hline
    rcases List.mem_append.1 hid with hid | hid
    · exact hN.repeater_ahead r hr id (List.mem_append_left _ hid) hline
    · rw [List.map_singleton, List.mem_singleton] at hid
      have hlt := hN.repeater_past r hr
      rw [← hline, hid] at hlt
      exact absurd hlt (lt_irrefl _)

theorem numbered_started {words : Words} {spawners : List (Spawner α)} {offset : α}
    (hN : Numbered script (d :: rest) h) :
    Numbered script rest
      ⟨{ h.level with words, spawners }, h.journal ++ [.started d.id offset], h.events⟩ := by
  have hids : startedGroups (h.journal ++ [.started d.id offset]) ++ rest.map Due.id =
      startedGroups h.journal ++ (d :: rest).map Due.id := by simp
  constructor
  · exact hN.script_eq
  · rw [hids]; exact hN.once
  · rw [hids]; exact hN.past
  · exact fun e he => hN.group_of e (List.mem_cons_of_mem _ he)
  · exact hN.lines_nodup
  · exact hN.repeater_past
  · exact hN.repeater_running
  · exact hN.repeater_group
  · rw [hids]; exact hN.repeater_ahead

variable [Scalar α] {world : Vec α} {dt : α}

theorem ledger_start (script : List (Instruction α)) (tempo : α) (words : Words) :
    Ledger script [] ⟨start script tempo words, [], []⟩ := by
  constructor
  · constructor <;> simp [start, startedGroups]
  · constructor <;> simp [start, startedGroups, deliveries]

theorem dealt_started {l : Level α} {id : GroupId} {group : Script.Group α} {offset : α}
    (hD : Dealt script h) (hnew : id ∉ startedGroups h.journal)
    (hgroup : groupOf script id = some group)
    (hstart : h.level.startGroup world id group offset = .ok l) :
    Dealt script ⟨l, h.journal ++ [.started id offset], h.events⟩ := by
  obtain ⟨words, opened, rfl, hcases⟩ := startGroup_ok hstart
  have hnone : cards id h.events = [] := by rw [cards, hD.unheard id hnew]; rfl
  have hold : ∀ s ∈ h.level.spawners, s.id ≠ id := fun s hs he => hnew (he ▸ hD.started s hs)
  have hunheard : ∀ j, j ∉ startedGroups (h.journal ++ [.started id offset]) →
      deliveries j h.events = [] := by
    intro j hj
    rw [startedGroups_append, List.mem_append, not_or] at hj
    exact hD.unheard j hj.1
  have hclosed : ∀ j ∈ startedGroups h.journal, (∀ s ∈ h.level.spawners ++ opened, s.id ≠ j) →
      ∃ group, groupOf script j = some group ∧ cards j h.events = roster group.members :=
    fun j hj hs => hD.closed j hj fun s hmem => hs s (List.mem_append_left _ hmem)
  -- a group without members is complete as it starts, and any other has a spawner
  rcases hcases with ⟨hmembers, rfl⟩ | ⟨hmembers, s, rfl, hs⟩
  · rw [List.append_nil] at *
    constructor
    · exact hD.ids_nodup
    · exact fun s hs => by simp [hD.started s hs]
    · exact hD.running
    · exact hD.within
    · exact hD.members_of
    · exact hD.opened
    · intro j hj hs
      rw [startedGroups_append, List.mem_append, startedGroups_started, startedGroups_nil,
        List.mem_singleton] at hj
      rcases hj with hj | rfl
      · exact hclosed j hj hs
      · exact ⟨group, hgroup, by rw [hnone, hmembers]; rfl⟩
    · exact hunheard
  · have hsplit : ∀ t ∈ h.level.spawners ++ [s], t ∈ h.level.spawners ∨ t = s := by simp
    constructor
    · rw [List.map_append, List.map_singleton, List.nodup_append']
      refine ⟨hD.ids_nodup, List.nodup_singleton _, fun j hj hmem => ?_⟩
      obtain ⟨t, ht, rfl⟩ := List.mem_map.1 hj
      exact hold t ht ((List.mem_singleton.1 hmem).trans hs.id_eq)
    · intro t ht
      rw [startedGroups_append, List.mem_append]
      rcases hsplit t ht with ht | rfl
      · exact Or.inl (hD.started t ht)
      · exact Or.inr (by simp [hs.id_eq])
    · intro t ht
      rcases hsplit t ht with ht | rfl
      · exact hD.running t ht
      · rw [hs.scheduler_eq]; rfl
    · intro t ht
      rcases hsplit t ht with ht | rfl
      · exact hD.within t ht
      · rw [hs.scheduler_eq, hs.members_eq]
        exact List.length_pos_iff.2 hmembers
    · intro t ht
      rcases hsplit t ht with ht | rfl
      · exact hD.members_of t ht
      · exact ⟨group, hs.id_eq ▸ hgroup, hs.members_eq⟩
    · intro t ht
      rcases hsplit t ht with ht | rfl
      · exact hD.opened t ht
      · rw [hs.id_eq, hnone, hs.scheduler_eq]
        rfl
    · intro j hj hne
      rw [startedGroups_append, List.mem_append, startedGroups_started, startedGroups_nil,
        List.mem_singleton] at hj
      rcases hj with hj | rfl
      · exact hclosed j hj hne
      · exact absurd hs.id_eq (hne s (by simp))
    · exact hunheard

theorem ledger_started {l : Level α} (offset : α) (hL : Ledger script (d :: rest) h)
    (hstart : h.level.startGroup world d.id d.group offset = .ok l) :
    Ledger script rest ⟨l, h.journal ++ [.started d.id offset], h.events⟩ := by
  have hnew : d.id ∉ startedGroups h.journal := by
    intro hmem
    exact (List.nodup_append'.1 hL.numbered.once).2.2 hmem (List.mem_cons_self ..)
  have hgroup := hL.numbered.group_of d (List.mem_cons_self ..)
  refine ⟨?_, dealt_started hL.dealt hnew hgroup hstart⟩
  obtain ⟨words, opened, rfl, -⟩ := startGroup_ok hstart
  exact numbered_started hL.numbered

end Barrage.Level
