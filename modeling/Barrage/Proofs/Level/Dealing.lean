import Barrage.Proofs.Level.Ledger

/-! # The ledger along a run

Repeaters issue new numbers, spawners deal members, and lines start groups; the ledger is right
after each of them, and so after every history. -/

namespace Barrage.Level

open Script (Instruction)

variable {α : Type} [Scalar α] {script : List (Instruction α)} {pending : List (Due α)}
  {h f : Frame α} {world : Vec α} {dt : α}

/-! ## Repeaters -/

namespace Repeater

theorem mem_updateAll {r : Repeater α} {repeaters : List (Repeater α)} :
    r ∈ (updateAll dt repeaters).1 ↔
      (∃ r₀ ∈ repeaters, (r₀.update dt).1 = r) ∧ r.scheduler.running = true := by
  rw [updateAll_eq, List.mem_filter, List.mem_map]

theorem mem_due {d : Due α} {repeaters : List (Repeater α)} :
    d ∈ (updateAll dt repeaters).2 ↔ ∃ r ∈ repeaters, d ∈ (r.update dt).2 := by
  rw [updateAll_eq, List.mem_flatMap]

theorem lines_updateAll (dt : α) (repeaters : List (Repeater α)) :
    ((updateAll dt repeaters).1.map line).Sublist (repeaters.map line) := by
  have hmap : (repeaters.map fun r => (r.update dt).1).map line = repeaters.map line := by
    rw [List.map_map]
    rfl
  rw [updateAll_eq, ← hmap]
  exact List.filter_sublist.map _

variable {r : Repeater α}

theorem round_of_mem (hdt : ¬ dt ≤ 0) (hrun : r.scheduler.running = true) {d : Due α}
    (hd : d ∈ (r.update dt).2) :
    d.id.line = r.line ∧ r.scheduler.count ≤ d.id.round ∧
      d.id.round < (r.update dt).1.scheduler.count := by
  have hI := issues_update hdt hrun
  have hmem : d.id ∈ (r.update dt).2.map Due.id := List.mem_map_of_mem hd
  rw [hI.ids_eq] at hmem
  obtain ⟨round, hround, hid⟩ := List.mem_map.1 hmem
  rw [← hid, hI.count_eq]
  rw [List.mem_range'_1] at hround
  exact ⟨rfl, hround.1, hround.2⟩

theorem nodup_ids (hdt : ¬ dt ≤ 0) (hrun : r.scheduler.running = true) :
    ((r.update dt).2.map Due.id).Nodup := by
  have hI := issues_update hdt hrun
  rw [hI.ids_eq]
  refine List.Nodup.map ?_ List.nodup_range'
  intro a b hab
  exact (GroupId.mk.inj hab).2

end Repeater

theorem numbered_tick (hdt : ¬ dt ≤ 0) (hN : Numbered script [] h) :
    Numbered script (Repeater.updateAll dt h.level.repeaters).2
      ⟨{ h.level with repeaters := (Repeater.updateAll dt h.level.repeaters).1 },
        h.journal, h.events⟩ := by
  have hnodup : (startedGroups h.journal).Nodup := (List.nodup_append'.1 hN.once).1
  have hahead : ∀ r ∈ h.level.repeaters, ∀ id ∈ startedGroups h.journal, id.line = r.line →
      id.round < r.scheduler.count :=
    fun r hr id hid => hN.repeater_ahead r hr id (List.mem_append_left _ hid)
  have hround : ∀ r ∈ h.level.repeaters, ∀ d ∈ (r.update dt).2, d.id.line = r.line ∧
      r.scheduler.count ≤ d.id.round ∧ d.id.round < (r.update dt).1.scheduler.count :=
    fun r hr d hd => Repeater.round_of_mem hdt (hN.repeater_running r hr) hd
  have hcount : ∀ r ∈ h.level.repeaters,
      r.scheduler.count ≤ (r.update dt).1.scheduler.count := by
    intro r hr
    rw [(Repeater.issues_update hdt (hN.repeater_running r hr)).count_eq]
    exact Nat.le_add_right _ _
  constructor
  · exact hN.script_eq
  · refine List.nodup_append'.2 ⟨hnodup, ?_, ?_⟩
    · rw [Repeater.updateAll_eq, List.map_flatMap, List.nodup_flatMap]
      refine ⟨fun r hr => Repeater.nodup_ids hdt (hN.repeater_running r hr), ?_⟩
      have hlines := List.pairwise_map.1 hN.lines_nodup
      refine hlines.imp_of_mem fun {r r'} hr hr' hne => ?_
      -- the numbers of two repeaters differ in their lines
      intro id hid hid'
      obtain ⟨d, hd, rfl⟩ := List.mem_map.1 hid
      obtain ⟨d', hd', heq⟩ := List.mem_map.1 hid'
      apply hne
      rw [← (hround r hr d hd).1, ← (hround r' hr' d' hd').1, heq]
    · intro id hid hmem
      obtain ⟨d, hd, rfl⟩ := List.mem_map.1 hmem
      obtain ⟨r, hr, hd⟩ := Repeater.mem_due.1 hd
      obtain ⟨hline, hle, -⟩ := hround r hr d hd
      have hlt := hahead r hr d.id hid hline
      omega
  · intro id hid
    rcases List.mem_append.1 hid with hid | hid
    · exact hN.past id (List.mem_append_left _ hid)
    · obtain ⟨d, hd, rfl⟩ := List.mem_map.1 hid
      obtain ⟨r, hr, hd⟩ := Repeater.mem_due.1 hd
      rw [(hround r hr d hd).1]
      exact hN.repeater_past r hr
  · intro d hd
    obtain ⟨r, hr, hd⟩ := Repeater.mem_due.1 hd
    obtain ⟨hline, -, -⟩ := hround r hr d hd
    have hgroup := hN.repeater_group r hr d.id.round
    rw [← hline] at hgroup
    rw [(Repeater.issues_update hdt (hN.repeater_running r hr)).own d hd]
    exact hgroup
  · exact hN.lines_nodup.sublist (Repeater.lines_updateAll dt _)
  · intro r hr
    obtain ⟨⟨r₀, hr₀, rfl⟩, -⟩ := Repeater.mem_updateAll.1 hr
    exact hN.repeater_past r₀ hr₀
  · intro r hr
    exact (Repeater.mem_updateAll.1 hr).2
  · intro r hr
    obtain ⟨⟨r₀, hr₀, rfl⟩, -⟩ := Repeater.mem_updateAll.1 hr
    exact hN.repeater_group r₀ hr₀
  · intro r hr id hid hline
    obtain ⟨⟨r₀, hr₀, rfl⟩, -⟩ := Repeater.mem_updateAll.1 hr
    rcases List.mem_append.1 hid with hid | hid
    · exact (hahead r₀ hr₀ id hid hline).trans_le (hcount r₀ hr₀)
    · obtain ⟨d, hd, rfl⟩ := List.mem_map.1 hid
      obtain ⟨r₁, hr₁, hd⟩ := Repeater.mem_due.1 hd
      obtain ⟨hline₁, -, hlt⟩ := hround r₁ hr₁ d hd
      have heq : r₁ = r₀ := List.inj_on_of_nodup_map hN.lines_nodup hr₁ hr₀
        (hline₁.symm.trans hline)
      exact heq ▸ hlt

theorem startedGroups_startDue {l l' : Level α} {due : List (Due α)} {journal : List (Entry α)}
    (hstart : startDue world dt due l = .ok (l', journal)) :
    startedGroups journal = due.map Due.id := by
  induction due generalizing l journal with
  | nil =>
    cases hstart
    rfl
  | cons d due ih =>
    obtain ⟨offset, -, hstart⟩ := parts_of_ok hstart
    obtain ⟨l₁, -, hstart⟩ := parts_of_ok hstart
    obtain ⟨⟨l₂, later⟩, hlater, hstart⟩ := parts_of_ok hstart
    cases hstart
    rw [startedGroups_started, ih hlater, List.map_cons]

theorem ledger_startDue {l l' : Level α} {journal later : List (Entry α)} {events : List (Event α)}
    {due : List (Due α)} (hL : Ledger script due ⟨l, journal, events⟩)
    (hstart : startDue world dt due l = .ok (l', later)) :
    Ledger script [] ⟨l', journal ++ later, events⟩ := by
  induction due generalizing l l' journal later with
  | nil =>
    cases hstart
    simpa using hL
  | cons d due ih =>
    obtain ⟨offset, -, hstart⟩ := parts_of_ok hstart
    obtain ⟨l₁, hgroup, hstart⟩ := parts_of_ok hstart
    obtain ⟨⟨l₂, rest⟩, hrest, hstart⟩ := parts_of_ok hstart
    cases hstart
    have hL' := ih (ledger_started offset hL hgroup) hrest
    simpa using hL'

/-! ## Spawners -/

namespace Spawner

theorem mem_updateAll {s : Spawner α} {spawners : List (Spawner α)} :
    s ∈ (updateAll dt spawners).1 ↔
      (∃ s₀ ∈ spawners, (s₀.update dt).1 = s) ∧ s.scheduler.running = true := by
  rw [updateAll_eq, List.mem_filter, List.mem_map]

variable {id : GroupId} {s : Spawner α} {spawners : List (Spawner α)}

theorem ids_updateAll (dt : α) (spawners : List (Spawner α)) :
    ((updateAll dt spawners).1.map Spawner.id).Sublist (spawners.map Spawner.id) := by
  have hmap : (spawners.map fun s => (s.update dt).1).map Spawner.id = spawners.map Spawner.id := by
    rw [List.map_map]
    rfl
  rw [updateAll_eq, ← hmap]
  exact List.filter_sublist.map _

theorem deliveries_other (hdt : ¬ dt ≤ 0) (hrun : s.scheduler.running = true)
    (hlt : s.scheduler.count < s.members.length) (hne : s.id ≠ id) :
    deliveries id ((s.update dt).2.map .spawn) = [] := by
  rw [deliveries_spawns, List.filter_eq_nil_iff]
  intro q hq
  rw [(deals_update hdt hrun hlt).own q hq, decide_eq_true_iff]
  exact hne

theorem deliveries_own (hdt : ¬ dt ≤ 0) (hrun : s.scheduler.running = true)
    (hlt : s.scheduler.count < s.members.length) :
    deliveries s.id ((s.update dt).2.map .spawn) = (s.update dt).2 := by
  rw [deliveries_spawns, List.filter_eq_self]
  intro q hq
  rw [(deals_update hdt hrun hlt).own q hq, decide_eq_true_iff]

/-- Of all that the spawners deal in an update, a group gets what its own spawner deals. -/
theorem deliveries_updateAll (hdt : ¬ dt ≤ 0) (hnodup : (spawners.map Spawner.id).Nodup)
    (hrun : ∀ s ∈ spawners, s.scheduler.running = true)
    (hlt : ∀ s ∈ spawners, s.scheduler.count < s.members.length) :
    (∀ s ∈ spawners, deliveries s.id ((updateAll dt spawners).2.map .spawn) = (s.update dt).2) ∧
    ∀ id, (∀ s ∈ spawners, s.id ≠ id) →
      deliveries id ((updateAll dt spawners).2.map .spawn) = [] := by
  induction spawners with
  | nil => exact ⟨by simp, fun _ _ => rfl⟩
  | cons a rest ih =>
    obtain ⟨hnew, hnodup⟩ := List.nodup_cons.1 hnodup
    obtain ⟨hmem, hnone⟩ := ih hnodup (fun s hs => hrun s (List.mem_cons_of_mem _ hs))
      (fun s hs => hlt s (List.mem_cons_of_mem _ hs))
    have harun := hrun a (List.mem_cons_self ..)
    have halt := hlt a (List.mem_cons_self ..)
    have hsplit : ∀ id, deliveries id ((updateAll dt (a :: rest)).2.map .spawn) =
        deliveries id ((a.update dt).2.map .spawn) ++
          deliveries id ((updateAll dt rest).2.map .spawn) := by
      intro id
      rw [← deliveries_append, ← List.map_append]
      rfl
    have hne : ∀ s ∈ rest, s.id ≠ a.id := fun s hs he => hnew (he ▸ List.mem_map_of_mem hs)
    constructor
    · intro s hs
      rw [hsplit]
      rcases List.mem_cons.1 hs with rfl | hs
      · rw [deliveries_own hdt harun halt, hnone _ hne, List.append_nil]
      · rw [deliveries_other hdt harun halt (hne s hs).symm, List.nil_append, hmem s hs]
    · intro id hid
      rw [hsplit, deliveries_other hdt harun halt (hid a (List.mem_cons_self ..)),
        hnone id fun s hs => hid s (List.mem_cons_of_mem _ hs), List.append_nil]

end Spawner

theorem Dealt.deals (hD : Dealt script h) (hdt : ¬ dt ≤ 0) {s : Spawner α}
    (hs : s ∈ h.level.spawners) : s.Deals (s.update dt).1.scheduler (s.update dt).2.toArray :=
  Spawner.deals_update hdt (hD.running s hs) (hD.within s hs)

theorem cards_tick (hdt : ¬ dt ≤ 0) (hD : Dealt script h) {s : Spawner α}
    (hs : s ∈ h.level.spawners) :
    cards s.id (h.events ++ (Spawner.updateAll dt h.level.spawners).2.map .spawn) =
      (roster s.members).take (s.update dt).1.scheduler.count := by
  obtain ⟨hown, -⟩ := Spawner.deliveries_updateAll hdt hD.ids_nodup hD.running hD.within
  rw [cards_append, hD.opened s hs, cards, hown s hs]
  exact (hD.deals hdt hs).cards_eq

theorem dealt_tick (live : ℕ) (hdt : ¬ dt ≤ 0) (hD : Dealt script h) :
    Dealt script
      ⟨{ h.level with spawners := (Spawner.updateAll dt h.level.spawners).1, live }, h.journal,
        h.events ++ (Spawner.updateAll dt h.level.spawners).2.map .spawn⟩ := by
  obtain ⟨-, hother⟩ := Spawner.deliveries_updateAll hdt hD.ids_nodup hD.running hD.within
  constructor
  · exact hD.ids_nodup.sublist (Spawner.ids_updateAll dt _)
  · intro s hs
    obtain ⟨⟨s₀, hs₀, rfl⟩, -⟩ := Spawner.mem_updateAll.1 hs
    exact hD.started s₀ hs₀
  · intro s hs
    exact (Spawner.mem_updateAll.1 hs).2
  · intro s hs
    obtain ⟨⟨s₀, hs₀, rfl⟩, hgoes⟩ := Spawner.mem_updateAll.1 hs
    exact (hD.deals hdt hs₀).running_iff.1 hgoes
  · intro s hs
    obtain ⟨⟨s₀, hs₀, rfl⟩, -⟩ := Spawner.mem_updateAll.1 hs
    exact hD.members_of s₀ hs₀
  · intro s hs
    obtain ⟨⟨s₀, hs₀, rfl⟩, -⟩ := Spawner.mem_updateAll.1 hs
    exact cards_tick hdt hD hs₀
  · intro id hid hnone
    by_cases hspawner : ∃ s ∈ h.level.spawners, s.id = id
    · obtain ⟨s, hs, rfl⟩ := hspawner
      -- its spawner has just left the pool, so it has dealt the last member
      have hstops : (s.update dt).1.scheduler.running ≠ true := fun hgoes =>
        hnone _ (Spawner.mem_updateAll.2 ⟨⟨s, hs, rfl⟩, hgoes⟩) rfl
      have hall : (s.update dt).1.scheduler.count = s.members.length :=
        le_antisymm (hD.deals hdt hs).within
          (not_lt.1 fun hlt => hstops ((hD.deals hdt hs).running_iff.2 hlt))
      obtain ⟨group, hgroup, hmembers⟩ := hD.members_of s hs
      refine ⟨group, hgroup, ?_⟩
      rw [cards_tick hdt hD hs, hall, ← hmembers, ← length_roster, List.take_length]
    · have hne : ∀ s ∈ h.level.spawners, s.id ≠ id := fun s hs he => hspawner ⟨s, hs, he⟩
      obtain ⟨group, hgroup, hclosed⟩ := hD.closed id hid hne
      refine ⟨group, hgroup, ?_⟩
      rw [cards_append, hclosed, cards, hother id hne, List.map_nil, List.append_nil]
  · intro id hid
    have hne : ∀ s ∈ h.level.spawners, s.id ≠ id := fun s hs he => hid (he ▸ hD.started s hs)
    rw [deliveries_append, hD.unheard id hid, hother id hne]
    rfl

/-! ## Runs -/

theorem ledger_groups {l l₁ : Level α} {journal : List (Entry α)} (hdt : ¬ dt ≤ 0)
    (hL : Ledger script [] ⟨l, h.journal, h.events⟩)
    (hstart : startDue world dt (Repeater.updateAll dt l.repeaters).2
      { l with repeaters := (Repeater.updateAll dt l.repeaters).1 } = .ok (l₁, journal)) :
    Ledger script [] ⟨l₁, h.journal ++ journal, h.events⟩ := by
  have hdue : Ledger script (Repeater.updateAll dt l.repeaters).2
      ⟨{ l with repeaters := (Repeater.updateAll dt l.repeaters).1 }, h.journal, h.events⟩ :=
    ⟨numbered_tick hdt hL.numbered, hL.dealt.of_eq rfl rfl fun _ => rfl⟩
  exact ledger_startDue hdue hstart

theorem ledger_advance {l : Level α} (hdt : ¬ dt ≤ 0)
    (hL : Ledger script [] ⟨l, h.journal, h.events⟩) (hadv : l.advanceSchedulers world dt = .ok f) :
    Ledger script [] (f.behind h.journal h.events) := by
  obtain ⟨l₁, journal, hstart, rfl⟩ := advance_cases hadv
  have hgroups := ledger_groups hdt hL hstart
  exact ⟨hgroups.numbered.of_eq rfl (le_refl _) rfl rfl, dealt_tick _ hdt hgroups.dealt⟩

theorem numbered_repeat {group : Script.Group α} {period total offset : α} (words : Words)
    (hN : Numbered script [] h)
    (hgroup : ∀ round, groupOf script ⟨h.level.next, round⟩ = some group) :
    Numbered script [] ⟨{ h.level.pass with
        words
        repeaters := h.level.repeaters ++
          [⟨h.level.next, period, total, group, Scheduler.ofDelay offset⟩] },
      h.journal, h.events⟩ := by
  have hmem : ∀ r ∈ h.level.repeaters ++
      [⟨h.level.next, period, total, group, Scheduler.ofDelay offset⟩],
      r ∈ h.level.repeaters ∨
        r = ⟨h.level.next, period, total, group, Scheduler.ofDelay offset⟩ := by
    simp
  constructor
  · exact hN.script_eq
  · exact hN.once
  · exact fun id hid => (hN.past id hid).trans (Nat.lt_succ_self _)
  · exact hN.group_of
  · rw [List.map_append, List.nodup_append']
    refine ⟨hN.lines_nodup, List.nodup_singleton _, fun line hline heq => ?_⟩
    obtain ⟨r, hr, rfl⟩ := List.mem_map.1 hline
    have hlt := hN.repeater_past r hr
    -- the new repeater bears the line that runs, and the others have lines before it
    rw [List.mem_singleton.1 heq] at hlt
    exact lt_irrefl _ hlt
  · intro r hr
    rcases hmem r hr with hr | rfl
    · exact (hN.repeater_past r hr).trans (Nat.lt_succ_self _)
    · exact Nat.lt_succ_self _
  · intro r hr
    rcases hmem r hr with hr | rfl
    · exact hN.repeater_running r hr
    · rfl
  · intro r hr
    rcases hmem r hr with hr | rfl
    · exact hN.repeater_group r hr
    · exact hgroup
  · intro r hr id hid hline
    rcases hmem r hr with hr | rfl
    · exact hN.repeater_ahead r hr id hid hline
    · have hlt := hN.past id hid
      rw [hline] at hlt
      exact absurd hlt (lt_irrefl _)

theorem ledger_execute {i : Instruction α} {offset : α} (hL : Ledger script [] h)
    (hget : h.level.script[h.level.next]? = some i)
    (hout : Outcome h.level.pass world h.level.next offset i f) :
    Ledger script [] (f.behind (h.journal ++ [.executed h.level.next offset]) h.events) := by
  have hskip := ledger_skip hL
  have hgroup : ∀ group, i.group? = some group →
      ∀ round, groupOf script ⟨h.level.next, round⟩ = some group := by
    intro group hi round
    rw [hL.numbered.script_eq] at hget
    simp [groupOf, hget, hi]
  have hkeep : f.level.repeaters = h.level.repeaters → f.level.spawners = h.level.spawners →
      f.journal = [] →
      Ledger script [] (f.behind (h.journal ++ [.executed h.level.next offset]) h.events) := by
    intro hrepeaters hspawners hjournal
    constructor
    · exact hskip.numbered.of_eq hout.script_eq hout.next_eq.ge hrepeaters (by simp [hjournal])
    · refine hskip.dealt.of_eq hspawners (by simp [hjournal]) fun id => ?_
      simp [deliveries_of_no_request hout.no_request]
  cases hout with
  | told | goto | wait | waitUntilClear => exact hkeep rfl rfl rfl
  | spawn hstart =>
    have hline := numbered_line hL.numbered (hgroup _ rfl 0) 0
    have hL' := ledger_started offset ⟨hline, hskip.dealt⟩ hstart
    constructor
    · exact hL'.numbered.of_eq rfl (le_refl _) rfl (by simp)
    · exact hL'.dealt.of_eq rfl (by simp) fun id => by simp
  | spawnRepeatedly =>
    constructor
    · exact (numbered_repeat _ hL.numbered (hgroup _ rfl)).of_eq rfl (le_refl _) rfl (by simp)
    · exact hskip.dealt.of_eq rfl (by simp) fun id => by simp

theorem ledger_runDue {l : Level α} (hL : Ledger script [] ⟨l, h.journal, h.events⟩)
    (hclear : l.waitingForClear = false)
    (hdue : runDue world dt (l.script.drop l.next) l = .ok f) :
    Ledger script [] (f.behind h.journal h.events) := by
  refine (runDue_induction (P := Ledger script []) (h := ⟨l, h.journal, h.events⟩)
    ?_ ?_ (List.prefix_refl _) hclear hL hdue).1
  · intro g hg _ _ _ _
    exact ledger_skip hg
  · intro g i offset first hg _ _ _ hget _ hout
    exact ledger_execute hg hget hout

theorem ledger_enter (hL : Ledger script [] h) (dt : α) :
    Ledger script [] ⟨h.level.enter dt, h.journal, h.events⟩ :=
  hL.of_level (enter_script _ _) (enter_next _ _) (enter_repeaters _ _) (enter_spawners _ _)

theorem ledger_call {c : Call α} (hL : Ledger script [] h) (hcall : h.level.call c = .ok f) :
    Ledger script [] (f.behind h.journal h.events) := by
  cases c with
  | release =>
    cases hcall
    simpa [Frame.behind] using hL.of_level (l := h.level.release) rfl rfl rfl rfl
  | update world dt =>
    rcases update_cases hcall with
      ⟨-, rfl⟩ | ⟨hdt, -, -, hadv⟩ | ⟨hdt, -, first, last, hdue, hadv, rfl⟩
    · simpa [Frame.behind] using hL
    · exact ledger_advance (l := { h.level with clock := h.level.clock + dt }) hdt
        (hL.of_level rfl rfl rfl rfl) hadv
    · have hfirst := ledger_runDue (ledger_enter hL dt) (enter_waitingForClear _ _)
        (by simpa using hdue)
      have hlast := ledger_advance (h := first.behind h.journal h.events) hdt hfirst hadv
      simpa [behind_behind] using hlast

theorem ledger_history {calls : List (Call α)} (hL : Ledger script [] h)
    (hrun : h.level.run calls = .ok f) : Ledger script [] (f.behind h.journal h.events) := by
  refine run_induction (Q := fun f => Ledger script [] (f.behind h.journal h.events)) ?_ ?_ hrun
  · simpa [Frame.behind] using hL
  · intro earlier c before last _ _ hbefore hcall _
    rw [behind_behind]
    exact ledger_call hbefore hcall

theorem ledger_run {tempo : α} {words : Words} {calls : List (Call α)}
    (hrun : (start script tempo words).run calls = .ok f) : Ledger script [] f := by
  simpa [Frame.behind] using ledger_history (ledger_start script tempo words) hrun

end Barrage.Level
