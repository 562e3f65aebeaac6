import Barrage.Proofs.Level.Timetable

/-! # Rounds on time

Every group of the lines that have run either has its number or has a repeater that is still to
number it. The rounds that come out of an update are dated back to where the repeater had them, so a
group starts no later than the timetable says, and early by no more than the tolerances of its
line. -/

namespace Barrage.Level

open Script (Instruction)
open Scheduler (OnTime Planned slack)

structure Repeater.Keeps (script : List (Instruction Exact)) (tempo T : ℚ)
    (ids : List GroupId) (k : ℕ) (gap total : Number Exact) (r : Repeater Exact) : Prop where
  line_eq : r.line = path script k
  get_line : script[path script k]? = some (.spawnRepeatedly gap total r.group)
  period_eq : r.period = .finite (Level.period tempo gap r.group)
  total_eq : r.total = .finite (total.worth tempo)
  recurs : Recurs (Level.period tempo gap r.group) (total.worth tempo) r.scheduler.count
  on_time : OnTime T (due script tempo k + r.scheduler.count * Level.period tempo gap r.group)
    r.scheduler.count r.scheduler
  ahead : ∃ τ, Planned T τ r.scheduler ∧ T ≤ τ
  before : ∀ round < r.scheduler.count, ⟨r.line, round⟩ ∈ ids

structure Due.Keeps (script : List (Instruction Exact)) (tempo T now start σ : ℚ) (d : Due Exact) :
    Prop where
  starts : Start script tempo d.id d.group start
  lag_eq : d.lag = .finite (now - σ)
  after : T ≤ σ
  within : σ ≤ now
  early : start ≤ σ + tries script d.id * slack
  late : σ ≤ start

/-- With repeaters at the time `T`, the groups of the lines that have run are among `ids` or are
still to be numbered. -/
structure Opened (script : List (Instruction Exact)) (tempo T : ℚ) (lines : List ℕ)
    (ids : List GroupId) (repeaters : List (Repeater Exact)) : Prop where
  covered : ∀ id group start, Start script tempo id group start → id.line ∈ lines →
    id ∈ ids ∨ ∃ r ∈ repeaters, r.line = id.line ∧ r.scheduler.count ≤ id.round
  keeps : ∀ r ∈ repeaters, ∃ k gap total, r.Keeps script tempo T ids k gap total
  closed : ∀ id ∈ ids, ∀ round ≤ id.round, ⟨id.line, round⟩ ∈ ids

variable {script : List (Instruction Exact)} {tempo T q : ℚ} {lines : List ℕ} {ids : List GroupId}
  {repeaters : List (Repeater Exact)} {k : ℕ}

theorem opened_start (script : List (Instruction Exact)) (tempo : ℚ) :
    Opened script tempo 0 [] [] [] := by
  constructor <;> simp

/-! ## Lines -/

/-- When a line of the path runs, only the groups of that line have to be looked for. -/
theorem Opened.covered_line {ids' : List GroupId} {repeaters' : List (Repeater Exact)}
    (hO : Opened script tempo T lines ids repeaters) (hids : ids ⊆ ids')
    (hrepeaters : repeaters ⊆ repeaters')
    (hline : ∀ id group start, Start script tempo id group start → id.line = path script k →
      id ∈ ids' ∨ ∃ r ∈ repeaters', r.line = id.line ∧ r.scheduler.count ≤ id.round) :
    ∀ id group start, Start script tempo id group start → id.line ∈ lines ++ [path script k] →
      id ∈ ids' ∨ ∃ r ∈ repeaters', r.line = id.line ∧ r.scheduler.count ≤ id.round := by
  intro id group start hstart hmem
  rcases List.mem_append.1 hmem with hmem | hmem
  · rcases hO.covered id group start hstart hmem with hid | ⟨r, hr, hround⟩
    · exact Or.inl (hids hid)
    · exact Or.inr ⟨r, hrepeaters hr, hround⟩
  · exact hline id group start hstart (List.mem_singleton.1 hmem)

theorem opened_other {i : Instruction Exact} (hO : Opened script tempo T lines ids repeaters)
    (hget : script[path script k]? = some i) (hgroup : i.group? = none) :
    Opened script tempo T (lines ++ [path script k]) ids repeaters := by
  refine ⟨hO.covered_line (List.Subset.refl _) (List.Subset.refl _) ?_, hO.keeps, hO.closed⟩
  intro id group start hstart hline
  rcases start_at hstart hline with ⟨hget', -⟩ | ⟨gap, total, hget', -⟩ <;>
    rw [hget] at hget' <;> cases hget' <;> cases hgroup

theorem opened_spawn {group : Script.Group Exact} (hO : Opened script tempo T lines ids repeaters)
    (hget : script[path script k]? = some (.spawn group)) :
    Opened script tempo T (lines ++ [path script k]) (ids ++ [⟨path script k, 0⟩]) repeaters := by
  constructor
  · refine hO.covered_line (List.subset_append_left _ _) (List.Subset.refl _) ?_
    intro id group' start hstart hline
    rcases start_at hstart hline with ⟨-, hround, -⟩ | ⟨gap, total, hget', -⟩
    · refine Or.inl (List.mem_append_right _ (List.mem_singleton.2 ?_))
      cases id
      exact congrArg₂ GroupId.mk hline hround
    · rw [hget] at hget'
      cases hget'
  · intro r hr
    obtain ⟨k', gap, total, hkeeps⟩ := hO.keeps r hr
    exact ⟨k', gap, total, { hkeeps with
      before := fun round hround => List.mem_append_left _ (hkeeps.before round hround) }⟩
  · intro id hid round hround
    rcases List.mem_append.1 hid with hid | hid
    · exact List.mem_append_left _ (hO.closed id hid round hround)
    · obtain rfl := List.mem_singleton.1 hid
      obtain rfl := Nat.le_zero.1 hround
      exact List.mem_append_right _ hid

theorem opened_repeat {r : Repeater Exact} {gap total : Number Exact}
    (hO : Opened script tempo T lines ids repeaters) (hline : r.line = path script k)
    (hget : script[path script k]? = some (.spawnRepeatedly gap total r.group))
    (hperiod : r.period = .finite (period tempo gap r.group))
    (htotal : r.total = .finite (total.worth tempo))
    (hscheduler : r.scheduler = Scheduler.ofDelay (.finite (due script tempo k - T)))
    (hahead : T ≤ due script tempo k) :
    Opened script tempo T (lines ++ [path script k]) ids (repeaters ++ [r]) := by
  have hcount : r.scheduler.count = 0 := by rw [hscheduler]; rfl
  have hplanned : Planned T (due script tempo k) r.scheduler := by
    have h := Scheduler.planned_ofDelay T (due script tempo k - T)
    rwa [add_sub_cancel, ← hscheduler] at h
  have hkeeps : r.Keeps script tempo T ids k gap total := by
    refine ⟨hline, hget, hperiod, htotal, ?_, ?_, ⟨_, hplanned, hahead⟩, ?_⟩
    · exact Or.inl hcount
    · rw [hcount]
      exact ⟨_, hplanned, by simp, by simp⟩
    · rw [hcount]
      exact fun round hround => absurd hround (Nat.not_lt_zero _)
  constructor
  · refine hO.covered_line (List.Subset.refl _) (List.subset_append_left _ _) ?_
    intro id group start _ hid
    refine Or.inr ⟨r, by simp, hline.trans hid.symm, ?_⟩
    rw [hcount]
    exact Nat.zero_le _
  · intro r' hr'
    rcases List.mem_append.1 hr' with hr' | hr'
    · exact hO.keeps r' hr'
    · obtain rfl := List.mem_singleton.1 hr'
      exact ⟨k, gap, total, hkeeps⟩
  · exact hO.closed

/-! ## Updates of repeaters -/

theorem Repeater.Keeps.round {r : Repeater Exact} {gap total : Number Exact} {id : GroupId}
    {group : Script.Group Exact} {start : ℚ} (hK : r.Keeps script tempo T ids k gap total)
    (hstart : Start script tempo id group start) (hline : r.line = id.line) :
    Recurs (Level.period tempo gap r.group) (total.worth tempo) id.round ∧
      start = due script tempo k + id.round * Level.period tempo gap r.group := by
  rcases start_at hstart (hline.symm.trans hK.line_eq) with
    ⟨hget, -⟩ | ⟨gap', total', hget, hrecurs, heq⟩
  · rw [hK.get_line] at hget
    cases hget
  · rw [hK.get_line] at hget
    cases hget
    exact ⟨hrecurs, heq⟩

theorem Repeater.Keeps.paced {r : Repeater Exact} {gap total : Number Exact} (hq : 0 < q)
    (hrun : r.scheduler.running = true) (hK : r.Keeps script tempo T ids k gap total) :
    Paced T (T + q) (due script tempo k) (Level.period tempo gap r.group) (total.worth tempo)
      (r.update (.finite q)).1.scheduler (r.update (.finite q)).2.toArray :=
  paced_update hq.le (by simpa using hq) hrun hK.period_eq hK.total_eq hK.recurs hK.on_time hK.ahead

theorem Repeater.mem_ids {r : Repeater Exact} {dt : Exact} (hdt : ¬ dt ≤ 0)
    (hrun : r.scheduler.running = true) {round : ℕ} (hle : r.scheduler.count ≤ round)
    (hlt : round < (r.update dt).1.scheduler.count) :
    ⟨r.line, round⟩ ∈ (r.update dt).2.map Due.id := by
  have hI := issues_update hdt hrun
  rw [hI.count_eq] at hlt
  have hids := hI.ids_eq
  rw [hids]
  exact List.mem_map_of_mem (List.mem_range'_1.2 ⟨hle, hlt⟩)

theorem opened_tick (hq : 0 < q) (hO : Opened script tempo T lines ids repeaters)
    (hrun : ∀ r ∈ repeaters, r.scheduler.running = true)
    (hsettled : ∀ r ∈ (Repeater.updateAll (.finite q) repeaters).1, r.scheduler.isDue = false) :
    Opened script tempo (T + q) lines
      (ids ++ (Repeater.updateAll (.finite q) repeaters).2.map Due.id)
      (Repeater.updateAll (.finite q) repeaters).1 := by
  have hdt : ¬ (Exact.finite q) ≤ 0 := by simpa using hq
  have hnew : ∀ r ∈ repeaters, ∀ id ∈ (r.update (.finite q)).2.map Due.id,
      id ∈ ids ++ (Repeater.updateAll (.finite q) repeaters).2.map Due.id := by
    intro r hr id hid
    obtain ⟨d, hd, rfl⟩ := List.mem_map.1 hid
    exact List.mem_append_right _ (List.mem_map_of_mem (Repeater.mem_due.2 ⟨r, hr, hd⟩))
  have hbefore : ∀ r ∈ repeaters, ∀ round < (r.update (.finite q)).1.scheduler.count,
      ⟨r.line, round⟩ ∈ ids ++ (Repeater.updateAll (.finite q) repeaters).2.map Due.id := by
    intro r hr round hlt
    obtain ⟨k, gap, total, hK⟩ := hO.keeps r hr
    by_cases hold : round < r.scheduler.count
    · exact List.mem_append_left _ (hK.before round hold)
    · exact hnew r hr _ (Repeater.mem_ids hdt (hrun r hr) (not_lt.1 hold) hlt)
  constructor
  · intro id group start hstart hline
    rcases hO.covered id group start hstart hline with hid | ⟨r, hr, hrline, hround⟩
    · exact Or.inl (List.mem_append_left _ hid)
    obtain ⟨k, gap, total, hK⟩ := hO.keeps r hr
    have hpaced := hK.paced hq (hrun r hr)
    by_cases hlt : id.round < (r.update (.finite q)).1.scheduler.count
    · have hmem := hbefore r hr id.round hlt
      rw [hrline] at hmem
      exact Or.inl hmem
    · by_cases hgoes : (r.update (.finite q)).1.scheduler.running = true
      · exact Or.inr ⟨_, Repeater.mem_updateAll.2 ⟨⟨r, hr, rfl⟩, hgoes⟩, hrline, not_lt.1 hlt⟩
      · -- the repeater has left, and behind its last round the line has no other
        exfalso
        have hlast := hpaced.last (Bool.eq_false_iff.2 hgoes)
        exact hlt (recurs_lt hlast (hK.round hstart hrline).1)
  · intro r' hr'
    obtain ⟨⟨r, hr, rfl⟩, hgoes⟩ := Repeater.mem_updateAll.1 hr'
    obtain ⟨k, gap, total, hK⟩ := hO.keeps r hr
    have hpaced := hK.paced hq (hrun r hr)
    refine ⟨k, gap, total, hK.line_eq, hK.get_line, hK.period_eq, hK.total_eq, hpaced.recurs hgoes,
      hpaced.on_time, ?_, hbefore r hr⟩
    obtain ⟨τ, hτ, -⟩ := hpaced.on_time
    exact ⟨τ, hτ, (hτ.lt_of_not_due (hsettled _ hr')).le⟩
  · intro id hid round hround
    rcases List.mem_append.1 hid with hid | hid
    · exact List.mem_append_left _ (hO.closed id hid round hround)
    · obtain ⟨d, hd, rfl⟩ := List.mem_map.1 hid
      obtain ⟨r, hr, hd⟩ := Repeater.mem_due.1 hd
      obtain ⟨hline, -, hlt⟩ := Repeater.round_of_mem hdt (hrun r hr) hd
      rw [hline]
      exact hbefore r hr round (hround.trans_lt hlt)

theorem due_tick (hq : 0 < q) (hO : Opened script tempo T lines ids repeaters)
    (hrun : ∀ r ∈ repeaters, r.scheduler.running = true) :
    ∀ d ∈ (Repeater.updateAll (.finite q) repeaters).2,
      ∃ start σ, d.Keeps script tempo T (T + q) start σ := by
  have hdt : ¬ (Exact.finite q) ≤ 0 := by simpa using hq
  intro d hd
  obtain ⟨r, hr, hd⟩ := Repeater.mem_due.1 hd
  obtain ⟨k, gap, total, hK⟩ := hO.keeps r hr
  obtain ⟨hrecurs, σ, hlag, hafter, huntil, hlate, hearly⟩ := (hK.paced hq (hrun r hr)).started d hd
  obtain ⟨hline, -, -⟩ := Repeater.round_of_mem hdt (hrun r hr) hd
  have hgroup := (Repeater.issues_update hdt (hrun r hr)).own d hd
  have hid : d.id = ⟨path script k, d.id.round⟩ := by rw [← hK.line_eq, ← hline]
  have hstart : Start script tempo d.id d.group
      (due script tempo k + d.id.round * period tempo gap r.group) := by
    rw [hid, hgroup]
    exact .spawnRepeatedly hK.get_line hrecurs
  have hrepeated : isRepeated script d.id.line = true := by
    rw [hline, hK.line_eq, isRepeated, hK.get_line]
  have htries : tries script d.id = d.id.round + 1 := if_pos hrepeated
  exact ⟨_, σ, hstart, hlag, hafter, huntil, htries ▸ hearly, hlate⟩

end Barrage.Level
