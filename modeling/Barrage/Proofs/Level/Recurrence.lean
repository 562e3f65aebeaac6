import Barrage.Proofs.Level.Clearing
import Barrage.Proofs.Level.Timing

/-! # Rounds until the total time is over

A line that repeats its group starts one round after the other, in the order of their numbers, until
a round has come later than the total time; with this round its repeater leaves the pool. No
repeater loses a round to the cut of time into frames: when enough frames have passed, all rounds
have come. -/

namespace Barrage.Level

open Script (Instruction)
open Scheduler (OnTime)

/-- What a line draws for the group that it repeats: the time from one round to the next, and the
total time. -/
def roundTerms {α : Type} [Scalar α] (tempo : α) (gap total : Number α) (group : Script.Group α) :
    Chance (α × α) := do
  let gap ← gap.resolve tempo
  let total ← total.resolve tempo
  let window ← group.window.resolve tempo
  return (window + gap, total)

def Turn.terms? {α : Type} [Scalar α] (t : Turn α) : Option (α × α) :=
  match t.instruction with
  | .spawnRepeatedly gap total group =>
    match roundTerms t.level.tempo gap total group t.level.words with
    | .ok (terms, _) => some terms
    | .error _ => none
  | _ => none

def rounds (line : ℕ) (ids : List GroupId) : List ℕ :=
  (ids.filter fun id => id.line = line).map GroupId.round

/-- Up to the time `T`, a line has started the first `n` rounds of its group, and its repeater is in
the pool exactly if there is to be another one. -/
structure Recurrence (p total origin T : ℚ) (line n : ℕ) (h : Frame Exact) : Prop where
  passed : line < h.level.next
  rounds_eq : rounds line (startedGroups h.journal) = List.range n
  before : ∀ k < n, Recurs p total k
  goes_on : Recurs p total n → ∃ r ∈ h.level.repeaters, r.line = line ∧ r.period = .finite p ∧
    r.total = .finite total ∧ r.scheduler.count = n ∧ OnTime T (origin + n * p) n r.scheduler
  ended : ¬ Recurs p total n → ∀ r ∈ h.level.repeaters, r.line ≠ line

structure Tracked (script : List (Instruction Exact)) (T now : ℚ) (least : ℕ) (h : Frame Exact)
    (turns : List (Turn Exact)) : Prop where
  reckoned : Reckoned script now h turns
  ledger : Ledger script [] h
  recurrences : ∀ t ∈ turns, ∀ gap total group, t.instruction = .spawnRepeatedly gap total group →
    ∃ p total origin n, t.terms? = some (.finite p, .finite total) ∧ origin ≤ now ∧ least ≤ n ∧
      Recurrence p total origin T t.index n h

variable {script : List (Instruction Exact)} {p total origin T now q : ℚ} {line n k : ℕ}
  {h f : Frame Exact}
  {turns : List (Turn Exact)} {world : Vec Exact} {i : Instruction Exact} {offset dt : Exact}

@[simp] theorem rounds_append (line : ℕ) (earlier later : List GroupId) :
    rounds line (earlier ++ later) = rounds line earlier ++ rounds line later := by
  simp [rounds]

theorem rounds_eq_nil {ids : List GroupId} (h : ∀ id ∈ ids, id.line ≠ line) :
    rounds line ids = [] := by
  rw [rounds, List.map_eq_nil_iff, List.filter_eq_nil_iff]
  exact fun id hid hline => h id hid (of_decide_eq_true hline)

/-! ## Rounds of an update -/

namespace Repeater

variable {r : Repeater Exact} {repeaters : List (Repeater Exact)}

theorem rounds_other (hdt : ¬ dt ≤ 0) (hrun : ∀ r ∈ repeaters, r.scheduler.running = true)
    (hline : ∀ r ∈ repeaters, r.line ≠ line) :
    rounds line ((updateAll dt repeaters).2.map Due.id) = [] := by
  refine rounds_eq_nil fun id hid => ?_
  obtain ⟨d, hd, rfl⟩ := List.mem_map.1 hid
  obtain ⟨r, hr, hd⟩ := mem_due.1 hd
  rw [(round_of_mem hdt (hrun r hr) hd).1]
  exact hline r hr

/-- Of all rounds that come out of an update, those of a line are the ones that its own repeater
numbers. -/
theorem rounds_own (hdt : ¬ dt ≤ 0) (hrun : ∀ r ∈ repeaters, r.scheduler.running = true)
    (hnodup : (repeaters.map Repeater.line).Nodup) (hr : r ∈ repeaters) :
    rounds r.line ((updateAll dt repeaters).2.map Due.id) =
      List.range' r.scheduler.count ((r.update dt).1.scheduler.count - r.scheduler.count) := by
  obtain ⟨before, after, rfl⟩ := List.append_of_mem hr
  rw [List.map_append, List.map_cons, List.nodup_middle, List.nodup_cons, ← List.map_append]
    at hnodup
  have hother : ∀ r' ∈ before ++ after, r'.line ≠ r.line :=
    fun r' hr' heq => hnodup.1 (heq ▸ List.mem_map_of_mem hr')
  have hothers : ∀ r' ∈ before ++ after, r'.scheduler.running = true := by
    intro r' hr'
    refine hrun r' ?_
    rcases List.mem_append.1 hr' with hr' | hr'
    · exact List.mem_append_left _ hr'
    · exact List.mem_append_right _ (List.mem_cons_of_mem _ hr')
  have hrest : rounds r.line ((updateAll dt (before ++ after)).2.map Due.id) = [] :=
    rounds_other hdt hothers hother
  have hI := issues_update hdt (hrun r hr)
  have hown : rounds r.line ((r.update dt).2.map Due.id) =
      List.range' r.scheduler.count ((r.update dt).1.scheduler.count - r.scheduler.count) := by
    have hids := hI.ids_eq
    rw [hids, hI.count_eq, Nat.add_sub_cancel_left]
    simp [rounds, List.filter_map, Function.comp_def]
  simp only [updateAll_eq, List.flatMap_append, List.flatMap_cons, List.map_append, rounds_append,
    List.append_eq_nil_iff] at hrest ⊢
  rw [hrest.1, hrest.2, hown, List.nil_append, List.append_nil]

/-- A round that is due comes in the update, as far as an update may go. -/
theorem catches_up (hdt : ¬ (Exact.finite q) ≤ 0) (hrun : r.scheduler.running = true)
    (hperiod : r.period = .finite p) (htotal : r.total = .finite total)
    (h : Recurring T origin p total r.scheduler) (hk : Recurs p total k)
    (hdue : origin + k * p ≤ T + q) :
    min (k + 1) (r.scheduler.count + Scheduler.maxFirings) ≤
      (r.update (.finite q)).1.scheduler.count := by
  have hnext := recurring_update hdt hrun hperiod htotal h
  by_cases hgoes : (r.update (.finite q)).1.scheduler.running = true
  · -- short of its bound, an update ends with nothing due, so the round with number `k` has come
    by_contra hfew
    have hrest : (r.update (.finite q)).1.scheduler.isDue = false := by
      have hsame : (r.update (.finite q)).1.scheduler =
          (Scheduler.fireDue r.rhythm Scheduler.maxFirings
            (r.scheduler.await (.finite q)) #[]).1 := by
        rw [← Scheduler.update_eq r.rhythm #[] hdt hrun]
        rfl
      have hawait : (r.scheduler.await (.finite q)).count = r.scheduler.count := rfl
      rw [hsame] at hgoes hfew ⊢
      exact Scheduler.not_due_of_lt _ hgoes (by omega)
    have hlate := hnext.on_time.lt_of_not_due hrest
    have hmono := recurs_le (by omega : (r.update (.finite q)).1.scheduler.count ≤ k) hk
    linarith
  · have hlt := recurs_lt (hnext.last (Bool.eq_false_iff.2 hgoes)) hk
    omega

end Repeater

/-! ## One line through a frame -/

namespace Recurrence

theorem of_eq (hR : Recurrence p total origin T line n h) (hnext : h.level.next ≤ f.level.next)
    (hrepeaters : f.level.repeaters = h.level.repeaters)
    (hstarted : rounds line (startedGroups f.journal) = rounds line (startedGroups h.journal)) :
    Recurrence p total origin T line n f := by
  refine ⟨hR.passed.trans_le hnext, hstarted.trans hR.rounds_eq, hR.before, ?_, ?_⟩
  · rw [hrepeaters]
    exact hR.goes_on
  · rw [hrepeaters]
    exact hR.ended

theorem enter (hR : Recurrence p total origin T line n h) (dt : Exact) :
    Recurrence p total origin T line n ⟨h.level.enter dt, h.journal, h.events⟩ :=
  hR.of_eq (enter_next _ _).ge (enter_repeaters _ _) rfl

theorem pass (hR : Recurrence p total origin T line n h) :
    Recurrence p total origin T line n ⟨h.level.pass, h.journal, h.events⟩ :=
  hR.of_eq (Nat.le_succ _) rfl rfl

theorem execute (hR : Recurrence p total origin T line n h)
    (hout : Outcome h.level.pass world h.level.next offset i f) :
    Recurrence p total origin T line n (f.behind (h.journal ++ [.executed h.level.next offset])
      h.events) := by
  have hlater : h.level.next ≤ f.level.next := (Nat.le_succ _).trans hout.next_eq.ge
  have hne : h.level.next ≠ line := hR.passed.ne'
  cases hout with
  | told | goto | wait | waitUntilClear => exact hR.of_eq hlater rfl (by simp)
  | spawn hstart =>
    obtain ⟨words, opened, rfl, -⟩ := startGroup_ok hstart
    refine hR.of_eq hlater rfl ?_
    simp [rounds, hne]
  | @spawnRepeatedly gap total' group g t w words₁ words₂ words₃ =>
    refine ⟨hR.passed.trans_le hlater, ?_, hR.before, fun hrecurs => ?_, fun hlast r hr => ?_⟩
    · simpa using hR.rounds_eq
    · obtain ⟨r, hr, hfound⟩ := hR.goes_on hrecurs
      exact ⟨r, List.mem_append_left _ hr, hfound⟩
    · rcases List.mem_append.1 hr with hr | hr
      · exact hR.ended hlast r hr
      · rw [List.mem_singleton.1 hr]
        exact hne

theorem open_line {o : ℚ}
    (hN : Numbered script [] h) (hmem : ∃ r ∈ f.level.repeaters, r.line = h.level.next ∧
      r.period = .finite p ∧
      r.total = .finite total ∧ r.scheduler = Scheduler.ofDelay (.finite o))
    (hnext : f.level.next = h.level.next + 1) (hjournal : f.journal = []) :
    Recurrence p total (T + o) T h.level.next 0
      (f.behind (h.journal ++ [.executed h.level.next offset]) h.events) := by
  have hfresh : rounds h.level.next (startedGroups h.journal) = [] :=
    rounds_eq_nil fun id hid => (hN.past id (List.mem_append_left _ hid)).ne
  refine ⟨?_, ?_, fun k hk => absurd hk (Nat.not_lt_zero k), fun _ => ?_,
    fun hlast => absurd (Or.inl rfl) hlast⟩
  · rw [behind_level, hnext]
    exact Nat.lt_succ_self _
  · simp [hjournal, hfresh]
  · obtain ⟨r, hr, hline, hperiod, htotal, hscheduler⟩ := hmem
    refine ⟨r, hr, hline, hperiod, htotal, by rw [hscheduler]; rfl, ?_⟩
    rw [hscheduler]
    exact ⟨T + o, Scheduler.planned_ofDelay T o, by simp, by simp⟩

theorem advance {l : Level Exact} {journal : List (Entry Exact)} {events : List (Event Exact)}
    (hq : 0 < q) (hN : Numbered script [] ⟨l, journal, events⟩)
    (hR : Recurrence p total origin T line n ⟨l, journal, events⟩)
    (hadv : l.advanceSchedulers world (.finite q) = .ok f) :
    ∃ n', n ≤ n' ∧ Recurrence p total origin (T + q) line n' (f.behind journal events) ∧
      ∀ k, Recurs p total k → origin + k * p ≤ T + q →
        min (k + 1) (n + Scheduler.maxFirings) ≤ n' := by
  have hdt : ¬ (Exact.finite q) ≤ 0 := by simpa using hq
  obtain ⟨l₁, issued, hstart, rfl⟩ := advance_cases hadv
  obtain ⟨⟨words, spawners, rfl⟩, -⟩ := startDue_frame hstart
  have hissued := startedGroups_startDue hstart
  by_cases hrecurs : Recurs p total n
  · obtain ⟨r, hr, rfl, hperiod, htotal, rfl, htime⟩ := hR.goes_on hrecurs
    have hrun := hN.repeater_running r hr
    have hnow : Repeater.Recurring T origin p total r.scheduler :=
      ⟨htime, hR.before, fun _ => hrecurs, fun hstops =>
        absurd (hstops.symm.trans hrun) Bool.false_ne_true⟩
    have hnext := Repeater.recurring_update hdt hrun hperiod htotal hnow
    have hle : r.scheduler.count ≤ (r.update (.finite q)).1.scheduler.count := by
      rw [(Repeater.issues_update hdt hrun).count_eq]
      exact Nat.le_add_right _ _
    have hgoes : Recurs p total (r.update (.finite q)).1.scheduler.count →
        (r.update (.finite q)).1.scheduler.running = true := by
      intro hrec
      by_contra hstops
      exact hnext.last (Bool.eq_false_iff.2 hstops) hrec
    refine ⟨_, hle, ⟨hR.passed, ?_, hnext.before, fun hrec => ?_, fun hlast r' hr' heq => ?_⟩,
      fun k hk hdue => Repeater.catches_up hdt hrun hperiod htotal hnow hk hdue⟩
    · have hown := Repeater.rounds_own hdt hN.repeater_running hN.lines_nodup hr
      have hsum := List.range'_append_1 (s := 0) (m := r.scheduler.count)
        (n := (r.update (.finite q)).1.scheduler.count - r.scheduler.count)
      rw [Nat.zero_add, Nat.add_sub_cancel' hle] at hsum
      rw [behind_journal, startedGroups_append, rounds_append, hR.rounds_eq, hissued, hown,
        List.range_eq_range', List.range_eq_range', hsum]
    · exact ⟨_, Repeater.mem_updateAll.2 ⟨⟨r, hr, rfl⟩, hgoes hrec⟩, rfl, hperiod, htotal, rfl,
        hnext.on_time⟩
    · -- no other repeater has this line
      obtain ⟨⟨r₀, hr₀, rfl⟩, hrunning⟩ := Repeater.mem_updateAll.1 hr'
      obtain rfl := List.inj_on_of_nodup_map hN.lines_nodup hr₀ hr heq
      exact hlast (hnext.recurs hrunning)
  · refine ⟨n, le_refl _, ⟨hR.passed, ?_, hR.before, fun hrec => absurd hrec hrecurs,
      fun _ r' hr' => ?_⟩, fun k hk _ => ?_⟩
    · rw [behind_journal, startedGroups_append, rounds_append, hR.rounds_eq, hissued,
        Repeater.rounds_other hdt hN.repeater_running (hR.ended hrecurs), List.append_nil]
    · obtain ⟨⟨r, hr, rfl⟩, -⟩ := Repeater.mem_updateAll.1 hr'
      exact hR.ended hrecurs r hr
    · have hlt := recurs_lt hrecurs hk
      omega

theorem call {c : Call Exact} (hL : Ledger script [] h) (hR : Recurrence p total origin T line n h)
    (hc : ∀ world dt, c = .update world dt → ∃ q, 0 < q ∧ dt = .finite q)
    (hcall : h.level.call c = .ok f) :
    ∃ n', n ≤ n' ∧ Recurrence p total origin (T + c.time) line n' (f.behind h.journal h.events) ∧
      (c.isUpdate = true → ∀ k, Recurs p total k → origin + k * p ≤ T + c.time →
        min (k + 1) (n + Scheduler.maxFirings) ≤ n') := by
  cases c with
  | release =>
    cases hcall
    have htime : T + Call.time .release = T := add_zero T
    rw [htime]
    exact ⟨n, le_refl n, hR.of_eq (le_refl _) rfl (by simp), nofun⟩
  | update world dt =>
    obtain ⟨q, hq, rfl⟩ := hc world dt rfl
    have hdt : ¬ (Exact.finite q) ≤ 0 := by simpa using hq
    have hall := update_induction (P := fun g _ => Ledger script [] g ∧
      Recurrence p total origin T line n g)
      (E := fun g _ => ∃ n', n ≤ n' ∧ Recurrence p total origin (T + q) line n' g ∧
        ∀ k, Recurs p total k → origin + k * p ≤ T + q →
          min (k + 1) (n + Scheduler.maxFirings) ≤ n')
      [] hdt ?_ ?_ ?_ ?_ ?_ hcall
    · obtain ⟨n', hle, hR', hdue⟩ := hall
      exact ⟨n', hle, hR', fun _ => hdue⟩
    · intro f _ _ hadv
      have hclock : Ledger script [] ⟨{ h.level with clock := h.level.clock + .finite q },
        h.journal, h.events⟩ :=
        hL.of_level rfl rfl rfl rfl
      exact advance hq hclock.numbered (hR.of_eq (le_refl _) rfl rfl) hadv
    · exact fun _ => ⟨ledger_enter hL _, hR.enter _⟩
    · exact fun g _ hg _ => ⟨ledger_skip hg.1, hg.2.pass⟩
    · exact fun g _ i offset first hg _ _ _ hget _ hfirst =>
        ⟨ledger_execute hg.1 hget (execute_outcome hfirst), hg.2.execute (execute_outcome hfirst)⟩
    · exact fun g f _ hg _ hadv => advance hq hg.1.numbered hg.2 hadv

theorem run {calls : List (Call Exact)} (hL : Ledger script [] h)
    (hR : Recurrence p total origin T line n h)
    (hcalls : ∀ world dt, .update world dt ∈ calls → ∃ q, 0 < q ∧ dt = .finite q)
    (hrun : h.level.run calls = .ok f) :
    ∃ n', n ≤ n' ∧ Recurrence p total origin (T + elapsed calls) line n'
      (f.behind h.journal h.events) ∧
      ∀ k, Recurs p total k → origin + k * p ≤ T →
        min (k + 1) (n + Scheduler.maxFirings * calls.countP Call.isUpdate) ≤ n' := by
  induction calls generalizing h f T n with
  | nil =>
    cases hrun
    rw [elapsed_nil, add_zero]
    exact ⟨n, le_refl n, hR.of_eq (le_refl _) rfl (by simp), fun k _ _ => by simp⟩
  | cons c rest ih =>
    obtain ⟨first, hfirst, hrun⟩ := parts_of_ok hrun
    obtain ⟨second, hsecond, hrun⟩ := parts_of_ok hrun
    cases hrun
    have hc : ∀ world dt, c = .update world dt → ∃ q, 0 < q ∧ dt = .finite q :=
      fun world dt heq => hcalls world dt (by simp [heq])
    have hrest : ∀ world dt, .update world dt ∈ rest → ∃ q, 0 < q ∧ dt = .finite q :=
      fun world dt hmem => hcalls world dt (List.mem_cons_of_mem _ hmem)
    obtain ⟨n₁, hle₁, hR₁, hdue₁⟩ := hR.call hL hc hfirst
    obtain ⟨n₂, hle₂, hR₂, hdue₂⟩ := ih (ledger_call hL hfirst) hR₁ hrest hsecond
    have htime : T + elapsed (c :: rest) = T + c.time + elapsed rest := by
      rw [add_assoc]
      rfl
    have htime₀ := Call.time_nonneg hc
    rw [htime, behind_behind]
    refine ⟨n₂, hle₁.trans hle₂, hR₂, fun k hk hdue => ?_⟩
    have hlater := hdue₂ k hk (by linarith)
    -- what the first call has not caught up with is due in the calls behind it as well
    by_cases hupdate : c.isUpdate = true
    · have hnow := hdue₁ hupdate k hk (by linarith)
      rw [List.countP_cons_of_pos hupdate, Nat.mul_add_one]
      generalize Scheduler.maxFirings = bound at hnow hlater ⊢
      omega
    · rw [List.countP_cons_of_neg hupdate]
      omega

end Recurrence

/-! ## All lines -/

theorem clamp_finite {a b : ℚ} {o : Exact} (hb : 0 ≤ b)
    (h : Scalar.clamp (.finite a) 0 (.finite b) = .ok o) : ∃ c, o = .finite c ∧ c ≤ b := by
  have hbounds : (0 : Exact) ≤ .finite b := by simpa using hb
  rw [Scalar.clamp, if_pos hbounds] at h
  obtain rfl := Except.ok.inj h
  by_cases hlow : Exact.finite a < 0
  · rw [if_pos hlow]
    exact ⟨0, rfl, hb⟩
  · rw [if_neg hlow]
    by_cases hhigh : Exact.finite b < .finite a
    · rw [if_pos hhigh]
      exact ⟨b, rfl, le_refl b⟩
    · rw [if_neg hhigh]
      exact ⟨a, rfl, not_lt.1 (by simpa using hhigh)⟩

theorem roundTerms_eq {gap total : Number Exact} {group : Script.Group Exact} {tempo g t w : Exact}
    {words words₁ words₂ words₃ : Words} (hgap : gap.resolve tempo words = .ok (g, words₁))
    (htotal : total.resolve tempo words₁ = .ok (t, words₂))
    (hwindow : group.window.resolve tempo words₂ = .ok (w, words₃)) :
    roundTerms tempo gap total group words = .ok ((w + g, t), words₃) := by
  simp only [roundTerms, bind, StateT.bind, hgap, Except.bind, htotal, hwindow]
  rfl

theorem tracked_start (script : List (Instruction Exact)) (tempo : ℚ) (words : Words) :
    Tracked script 0 0 1 ⟨start script (.finite tempo) words, [], []⟩ [] := by
  refine ⟨reckoned_start script tempo words, ledger_start _ _ _, fun t ht => ?_⟩
  cases ht

namespace Tracked

theorem of_eq {now' : ℚ} {least least' : ℕ} (hT : Tracked script T now least h turns)
    (hreckoned : Reckoned script now' f turns) (hledger : Ledger script [] f) (hnow : now ≤ now')
    (hleast : least' ≤ least)
    (hkeep : ∀ p total origin line n, Recurrence p total origin T line n h →
      Recurrence p total origin T line n f) :
    Tracked script T now' least' f turns := by
  refine ⟨hreckoned, hledger, fun t ht gap total group hi => ?_⟩
  obtain ⟨p, total, origin, n, hterms, horigin, hn, hR⟩ := hT.recurrences t ht gap total group hi
  exact ⟨p, total, origin, n, hterms, horigin.trans hnow, hleast.trans hn, hkeep _ _ _ _ _ hR⟩

theorem enter (hT : Tracked script T T 1 h turns) (hq : 0 < q) :
    Tracked script T (T + q) 0 ⟨h.level.enter (.finite q), h.journal, h.events⟩ turns :=
  hT.of_eq (hT.reckoned.enter q) (ledger_enter hT.ledger _) (by linarith) (Nat.zero_le 1)
    fun _ _ _ _ _ hR => hR.enter _

theorem pass (hT : Tracked script T now 0 h turns) :
    Tracked script T now 0 ⟨h.level.pass, h.journal, h.events⟩ turns :=
  hT.of_eq hT.reckoned.pass (ledger_skip hT.ledger) (le_refl now) (le_refl 0)
    fun _ _ _ _ _ hR => hR.pass

theorem hold (hT : Tracked script T T 1 h turns) (hq : 0 < q) :
    Tracked script T (T + q) 0 ⟨{ h.level with clock := h.level.clock + .finite q }, h.journal,
      h.events⟩ turns :=
  hT.of_eq (hT.reckoned.hold q) (hT.ledger.of_level rfl rfl rfl rfl) (by linarith) (Nat.zero_le 1)
    fun _ _ _ _ _ hR => hR.of_eq (le_refl _) rfl rfl

theorem release (hT : Tracked script T T 1 h turns) :
    Tracked script T T 1 ⟨h.level.release, h.journal, h.events⟩ turns :=
  hT.of_eq hT.reckoned.release (hT.ledger.of_level rfl rfl rfl rfl) (le_refl T) (le_refl 1)
    fun _ _ _ _ _ hR => hR.of_eq (le_refl _) rfl rfl

theorem execute (hT : Tracked script T (T + q) 0 h turns) (hscript : ∀ i ∈ script, Rational i)
    (hq : 0 < q) (hclear : h.level.waitingForClear = false)
    (hget : h.level.script[h.level.next]? = some i)
    (hoffset : Scalar.clamp (.finite q + h.level.wait) 0 (.finite q) = .ok offset)
    (hfirst : h.level.pass.execute world h.level.next offset i = .ok f) :
    Tracked script T (T + q) 0 (f.behind (h.journal ++ [.executed h.level.next offset]) h.events)
      (turns ++ [⟨h.level, i, offset⟩]) := by
  have hout := execute_outcome hfirst
  refine ⟨hT.reckoned.execute hscript hclear hget hfirst, ledger_execute hT.ledger hget hout, ?_⟩
  intro t ht gap total group hi
  rcases List.mem_append.1 ht with ht | ht
  · obtain ⟨p, total, origin, n, hterms, horigin, hleast, hR⟩ :=
      hT.recurrences t ht gap total group hi
    exact ⟨p, total, origin, n, hterms, horigin, hleast, hR.execute hout⟩
  · obtain rfl := List.mem_singleton.1 ht
    obtain rfl : i = .spawnRepeatedly gap total group := hi
    obtain ⟨wait, hwait⟩ := hT.reckoned.wait_eq
    obtain ⟨tempo, htempo⟩ := hT.reckoned.tempo_eq
    rw [hwait, Exact.finite_add] at hoffset
    obtain ⟨o, rfl, hle⟩ := clamp_finite hq.le hoffset
    have hrational := hscript _ (hT.reckoned.script_eq ▸ List.mem_of_getElem? hget)
    cases hout with
    | @spawnRepeatedly _ _ _ g t w words₁ words₂ words₃ hgap htotal hwindow =>
      have hterms := roundTerms_eq hgap htotal hwindow
      have htempo' : h.level.pass.tempo = .finite tempo := htempo
      rw [htempo'] at hgap htotal hwindow
      obtain ⟨g, rfl⟩ := Number.resolve_finite (hrational _ (by simp [Instruction.numbers])) hgap
      obtain ⟨t, rfl⟩ := Number.resolve_finite (hrational _ (by simp [Instruction.numbers])) htotal
      obtain ⟨w, rfl⟩ := Number.resolve_finite (hrational _ (window_mem_numbers rfl)) hwindow
      refine ⟨w + g, t, T + o, 0, ?_, by linarith, le_refl 0, ?_⟩
      · have hdraw : roundTerms h.level.tempo gap total group h.level.words = _ := hterms
        simp only [Turn.terms?, hdraw, Exact.finite_add]
      · exact Recurrence.open_line hT.ledger.numbered
          ⟨_, List.mem_append_right _ (List.mem_singleton_self _), rfl, rfl, rfl, rfl⟩ rfl rfl
    | told _ _ htells => cases htells

theorem advance (hT : Tracked script T (T + q) 0 h turns) (hq : 0 < q)
    (hadv : h.level.advanceSchedulers world (.finite q) = .ok f) :
    Tracked script (T + q) (T + q) 1 (f.behind h.journal h.events) turns := by
  have hdt : ¬ (Exact.finite q) ≤ 0 := by simpa using hq
  refine ⟨hT.reckoned.advance hadv, ledger_advance hdt hT.ledger hadv,
    fun t ht gap total group hi => ?_⟩
  obtain ⟨p, total, origin, n, hterms, horigin, -, hR⟩ := hT.recurrences t ht gap total group hi
  obtain ⟨n', -, hR', hdue⟩ := hR.advance hq hT.ledger.numbered hadv
  have hfirst := hdue 0 (Or.inl rfl) (by simpa using horigin)
  refine ⟨p, total, origin, n', hterms, horigin, ?_, hR'⟩
  have hbound : 0 < Scheduler.maxFirings := by decide
  omega

theorem update (hT : Tracked script T T 1 h turns) (hscript : ∀ i ∈ script, Rational i) (hq : 0 < q)
    (hcall : h.level.update world (.finite q) = .ok f) :
    Tracked script (T + q) (T + q) 1 (f.behind h.journal h.events)
      (turns ++ h.level.callTurns (.update world (.finite q))) := by
  have hdt : ¬ (Exact.finite q) ≤ 0 := by simpa using hq
  refine update_induction (P := Tracked script T (T + q) 0)
    (E := Tracked script (T + q) (T + q) 1) turns hdt ?_ ?_ ?_ ?_ ?_ hcall
  · exact fun f _ _ hadv => (hT.hold hq).advance hq hadv
  · exact fun _ => hT.enter hq
  · exact fun g turns hg _ => hg.pass
  · exact fun g turns i offset first hg hclear _ _ hget hoffset hfirst =>
      hg.execute hscript hq hclear hget hoffset hfirst
  · exact fun g f turns hg _ hadv => hg.advance hq hadv

end Tracked

theorem tracked_run {tempo : ℚ} {words : Words} {calls : List (Call Exact)}
    (hscript : ∀ i ∈ script, Rational i)
    (hcalls : ∀ world dt, .update world dt ∈ calls → ∃ q, 0 < q ∧ dt = .finite q)
    (hrun : (start script (.finite tempo) words).run calls = .ok f) :
    Tracked script (elapsed calls) (elapsed calls) 1 f
      ((start script (.finite tempo) words).turns calls) := by
  refine timed_induction (Q := fun T f turns => Tracked script T T 1 f turns) hcalls
    (tracked_start script tempo words) ?_ ?_ hrun
  · exact fun T h turns hT => hT.release
  · exact fun T h f turns world q _ hq hT hcall => hT.update hscript hq hcall

/-! ## The last round -/

theorem exists_last (hp : 0 < p) (total : ℚ) : ∃ K, IsLeast {k : ℕ | total < k * p} K := by
  have hsome : ∃ k : ℕ, total < k * p := by
    obtain ⟨k, hk⟩ := exists_nat_gt (total / p)
    exact ⟨k, (div_lt_iff₀ hp).1 hk⟩
  exact ⟨Nat.find hsome, Nat.find_spec hsome, fun k hk => Nat.find_min' hsome hk⟩

theorem recurs_iff_le {K : ℕ} (hp : 0 < p) (hK : IsLeast {k : ℕ | total < k * p} K) :
    Recurs p total n ↔ n ≤ K := by
  constructor
  · rintro (rfl | ⟨-, hle⟩)
    · exact Nat.zero_le K
    · by_contra hlt
      have hcast : (K : ℚ) + 1 ≤ n := by exact_mod_cast not_le.1 hlt
      have hmul := mul_le_mul_of_nonneg_right (by linarith : (K : ℚ) ≤ n - 1) hp.le
      have hlate : total < K * p := hK.1
      linarith
  · intro hle
    cases n with
    | zero => exact Or.inl rfl
    | succ k =>
      refine Or.inr ⟨hp, ?_⟩
      have hearly : ¬ total < k * p := fun hlate => absurd (hK.2 hlate) (by omega)
      push_cast
      rw [add_sub_cancel_right]
      exact not_lt.1 hearly

namespace Recurrence

theorem le_last {K : ℕ} (hR : Recurrence p total origin T line n h) (hp : 0 < p)
    (hK : IsLeast {k : ℕ | total < k * p} K) : n ≤ K + 1 := by
  by_contra hlt
  have hle := (recurs_iff_le hp hK).1 (hR.before (K + 1) (by omega))
  omega

theorem count_repeaters {K : ℕ} (hR : Recurrence p total origin T line n h)
    (hN : Numbered script [] h) (hp : 0 < p) (hK : IsLeast {k : ℕ | total < k * p} K) :
    (h.level.repeaters.countP fun r => r.line = line) = if n ≤ K then 1 else 0 := by
  have hcount : (h.level.repeaters.countP fun r => r.line = line) =
      (h.level.repeaters.map Repeater.line).count line := by
    rw [List.count, List.countP_map]
    exact List.countP_congr fun r _ => by simp
  rw [hcount]
  by_cases hle : n ≤ K
  · obtain ⟨r, hr, rfl, -⟩ := hR.goes_on ((recurs_iff_le hp hK).2 hle)
    rw [if_pos hle]
    exact List.count_eq_one_of_mem hN.lines_nodup (List.mem_map_of_mem hr)
  · rw [if_neg hle, List.count_eq_zero]
    intro hmem
    obtain ⟨r, hr, hline⟩ := List.mem_map.1 hmem
    exact hR.ended (fun hrecurs => hle ((recurs_iff_le hp hK).1 hrecurs)) r hr hline

theorem single (hR : Recurrence p total origin T line n h) (hn : 1 ≤ n) (hp : p ≤ 0) : n = 1 := by
  by_contra hne
  rcases hR.before 1 (by omega) with hzero | ⟨hpos, -⟩
  · exact absurd hzero one_ne_zero
  · exact absurd hpos (not_lt.2 hp)

end Recurrence

/-- When the time of the last round is over, and enough updates have followed, all rounds have
come. -/
theorem Recurrence.all_rounds {middle later : List (Call Exact)} {K : ℕ}
    (hR : Recurrence p total origin T line n h) (hL : Ledger script [] h) (horigin : origin ≤ T)
    (hp : 0 < p) (hK : IsLeast {k : ℕ | total < k * p} K)
    (hcalls : ∀ world dt, .update world dt ∈ middle ++ later → ∃ q, 0 < q ∧ dt = .finite q)
    (hrun : h.level.run (middle ++ later) = .ok f) (helapsed : K * p ≤ elapsed middle)
    (hupdates : K < Scheduler.maxFirings * later.countP Call.isUpdate) :
    rounds line (startedGroups (f.behind h.journal h.events).journal) = List.range (K + 1) := by
  rw [run_append] at hrun
  obtain ⟨first, hfirst, hrun⟩ := parts_of_ok hrun
  obtain ⟨second, hsecond, hrun⟩ := parts_of_ok hrun
  cases hrun
  obtain ⟨n₁, -, hR₁, -⟩ :=
    hR.run hL (fun world dt hmem => hcalls world dt (List.mem_append_left _ hmem)) hfirst
  obtain ⟨n₂, -, hR₂, hdue⟩ := hR₁.run (ledger_history hL hfirst)
    (fun world dt hmem => hcalls world dt (List.mem_append_right _ hmem)) hsecond
  have hcome := hdue K ((recurs_iff_le hp hK).2 (le_refl K)) (by linarith)
  have hlast := hR₂.le_last hp hK
  obtain rfl : n₂ = K + 1 := by omega
  rw [behind_behind]
  exact hR₂.rounds_eq

/-! ## The main statement -/

/-- A line that repeats its group draws a period `p` and a total time `T`. However time is cut into
frames, the rounds that it has started are the first ones, each once and in order, and the first one
comes in the frame of the line itself. With a period above zero the last round is the first one that
comes later than `T`; until then the line has one repeater, and from then on none. When the time of
the last round is over, and then as many updates have followed as may start all rounds, it has come.
Without such a period, there is one round. -/
theorem rounds_until_past_total (script : List (Instruction Exact)) (tempo : ℚ) (words : Words)
    (calls : List (Call Exact)) (hscript : ∀ i ∈ script, Rational i)
    (hcalls : ∀ world dt, .update world dt ∈ calls → ∃ q, 0 < q ∧ dt = .finite q) :
    let turns := (start script (.finite tempo) words).turns
    ∃ f, (start script (.finite tempo) words).run calls = .ok f ∧
      ∀ t ∈ turns calls, ∀ gap total group, t.instruction = .spawnRepeatedly gap total group →
        ∃ p T, t.terms? = some (.finite p, .finite T) ∧
          (p ≤ 0 → rounds t.index (startedGroups f.journal) = [0] ∧
            ∀ r ∈ f.level.repeaters, r.line ≠ t.index) ∧
          (0 < p → ∃ K, IsLeast {k : ℕ | T < k * p} K ∧ ∃ n, 0 < n ∧ n ≤ K + 1 ∧
            rounds t.index (startedGroups f.journal) = List.range n ∧
            (f.level.repeaters.countP fun r => r.line = t.index) = (if n ≤ K then 1 else 0) ∧
            ∀ earlier middle later, calls = earlier ++ middle ++ later → t ∈ turns earlier →
              K * p ≤ elapsed middle → K < Scheduler.maxFirings * later.countP Call.isUpdate →
                n = K + 1) := by
  intro turns
  obtain ⟨f, hrun⟩ := run_rational hscript (.finite tempo) words hcalls
  have hT := tracked_run hscript hcalls hrun
  refine ⟨f, hrun, fun t ht gap total group hi => ?_⟩
  obtain ⟨p, T, origin, n, hterms, horigin, hn, hR⟩ := hT.recurrences t ht gap total group hi
  refine ⟨p, T, hterms, fun hp => ?_, fun hp => ?_⟩
  · obtain rfl := hR.single hn hp
    refine ⟨hR.rounds_eq, hR.ended fun hrecurs => ?_⟩
    rcases hrecurs with hzero | ⟨hpos, -⟩
    · exact absurd hzero one_ne_zero
    · exact absurd hpos (not_lt.2 hp)
  · obtain ⟨K, hK⟩ := exists_last hp T
    refine ⟨K, hK, n, hn, hR.le_last hp hK, hR.rounds_eq,
      hR.count_repeaters hT.ledger.numbered hp hK, ?_⟩
    intro earlier middle later hsplit ht' helapsed hupdates
    have hparts := hrun
    rw [hsplit, List.append_assoc, run_append] at hparts
    obtain ⟨before, hbefore, hparts⟩ := parts_of_ok hparts
    obtain ⟨after, hafter, hparts⟩ := parts_of_ok hparts
    cases hparts
    -- the first part of the run knows the same line, with the same terms
    have hT' := tracked_run hscript (fun w dt hmem => hcalls w dt (by simp [hsplit, hmem])) hbefore
    obtain ⟨p', total', origin', n', hterms', horigin', -, hR'⟩ :=
      hT'.recurrences t ht' gap total group hi
    rw [hterms] at hterms'
    cases hterms'
    have hcome := hR'.all_rounds hT'.ledger horigin' hp hK (fun w dt hmem => hcalls w dt (by
      rw [hsplit, List.append_assoc]
      exact List.mem_append_right _ hmem)) hafter helapsed hupdates
    rw [hR.rounds_eq] at hcome
    simpa using congrArg List.length hcome

/-- The period is two, and so is the total time. -/
def evenScript : List (Instruction Exact) := [.spawnRepeatedly (.literal 1) (.literal 2) pulse]

def evenFrames : List (Call Exact) :=
  [.update ⟨320, 180⟩ (.finite 1), .update ⟨320, 180⟩ (.finite 2), .update ⟨320, 180⟩ (.finite 2),
    .update ⟨320, 180⟩ (.finite 1)]

theorem even_total_has_a_round_beyond :
    ∃ (f : Frame Exact) (t : Turn Exact),
      (start evenScript (.finite 120) (Words.cycle #[])).run evenFrames = .ok f ∧
      t ∈ (start evenScript (.finite 120) (Words.cycle #[])).turns evenFrames ∧
      t.terms? = some (.finite 2, .finite 2) ∧
      rounds t.index (startedGroups f.journal) = List.range 3 ∧
      (f.level.repeaters.countP fun r => r.line = t.index) = 0 := by
  have hscript : ∀ i ∈ evenScript, Rational i := by
    refine rational_of_checked ?_
    simp [evenScript, pulse, Instruction.numbers, Script.Group.numbers, Number.isRational,
      Exact.isFinite]
  have hcalls : ∀ w dt, .update w dt ∈ evenFrames → ∃ q, 0 < q ∧ dt = .finite q := by
    simp only [evenFrames, List.mem_cons, Call.update.injEq, List.not_mem_nil, or_false]
    rintro w dt (⟨-, rfl⟩ | ⟨-, rfl⟩ | ⟨-, rfl⟩ | ⟨-, rfl⟩)
    · exact ⟨1, by norm_num, rfl⟩
    · exact ⟨2, by norm_num, rfl⟩
    · exact ⟨2, by norm_num, rfl⟩
    · exact ⟨1, by norm_num, rfl⟩
  obtain ⟨f, hrun, hlines⟩ := rounds_until_past_total evenScript 120
      (Words.cycle #[]) evenFrames hscript hcalls
  have hview : ((start evenScript (.finite 120) (Words.cycle #[])).turns
      [.update ⟨320, 180⟩ (.finite 1)]).head?.map
      (fun t => (t.index, t.terms?)) = some (0, some (.finite 2, .finite 2)) := by
    decide +kernel
  obtain ⟨t, hhead, hfound⟩ := Option.map_eq_some_iff.1 hview
  obtain ⟨hindex, hterms⟩ := Prod.mk.inj hfound
  have hearlier := List.mem_of_mem_head? hhead
  have ht : t ∈ (start evenScript (.finite 120) (Words.cycle #[])).turns evenFrames :=
    (turns_mono ⟨_, rfl⟩ hrun).subset hearlier
  have hget := (placed_run hrun).instruction_eq t ht
  rw [hindex] at hget
  obtain ⟨p, T, hterms', -, hrounds⟩ := hlines t ht _ _ _ (Option.some.inj hget).symm
  rw [hterms] at hterms'
  cases hterms'
  obtain ⟨K, hK, n, -, -, hstarted, hcount, hall⟩ := hrounds (by norm_num)
  have hlast : IsLeast {k : ℕ | (2 : ℚ) < k * 2} 2 := by
    refine ⟨by norm_num, fun k hk => ?_⟩
    by_contra hlt
    have hcast : (k : ℚ) ≤ 1 := by exact_mod_cast Nat.lt_succ_iff.1 (not_le.1 hlt)
    have hlate : (2 : ℚ) < k * 2 := hk
    linarith
  obtain rfl := hK.unique hlast
  have hmiddle : elapsed [.update ⟨320, 180⟩ (.finite 2), .update ⟨320, 180⟩ (.finite 2)] = 4 := by
    decide +kernel
  obtain rfl := hall [.update ⟨320, 180⟩ (.finite 1)] [.update ⟨320, 180⟩ (.finite 2),
    .update ⟨320, 180⟩ (.finite 2)]
    [.update ⟨320, 180⟩ (.finite 1)] rfl hearlier (by rw [hmiddle]; norm_num) (by decide)
  exact ⟨f, t, hrun, ht, hterms, hstarted, hcount⟩

/-- The total time is over when round one starts, but another round follows. -/
theorem round_at_the_total_is_not_the_last :
    IsLeast {k : ℕ | (2 : ℚ) ≤ k * 2} 1 ∧
    ((start evenScript (.finite 120) (Words.cycle #[])).turns evenFrames).map
      (fun t => (t.index, t.terms?)) = [(0, some (.finite 2, .finite 2))] ∧
    ∃ f, (start evenScript (.finite 120) (Words.cycle #[])).run evenFrames = .ok f ∧
      rounds 0 (startedGroups f.journal) = [0, 1, 2] ∧
      rounds 0 (startedGroups f.journal) ≠ List.range (1 + 1) := by
  refine ⟨⟨by norm_num, fun k hk => ?_⟩, by decide +kernel, ?_⟩
  · by_contra hlt
    obtain rfl : k = 0 := by omega
    have hlate : (2 : ℚ) ≤ (0 : ℕ) * 2 := hk
    norm_num at hlate
  · have hview : ((start evenScript (.finite 120) (Words.cycle #[])).run evenFrames).map
        (fun f => rounds 0 (startedGroups f.journal)) = .ok [0, 1, 2] := by
      decide +kernel
    obtain ⟨f, hrun, hrounds⟩ := ok_of_map hview
    refine ⟨f, hrun, hrounds, ?_⟩
    rw [hrounds]
    decide

end Barrage.Level
