import Barrage.Proofs.Level.Dealing
import Barrage.Proofs.Level.Path
import Barrage.Proofs.Planned
import Barrage.Proofs.Worth

/-! # The timetable of a script

In exact arithmetic, and without chance, a script alone says when each enemy is due: a line after
the waits before it, the rounds of a line one period after the other, and the members of a group
evenly over its window. Spawners and repeaters keep to it up to the tolerance of their
schedulers. -/

namespace Barrage.Level

open Script (Instruction)
open Scheduler (OnTime Planned slack)

def delay (tempo : ℚ) : Instruction Exact → ℚ
  | .wait time => time.worth tempo
  | _ => 0

/-- The sum of the waits on the path before its line with number `k`. -/
def due (script : List (Instruction Exact)) (tempo : ℚ) : ℕ → ℚ
  | 0 => 0
  | k + 1 => due script tempo k + script[path script k]?.elim 0 (delay tempo)

def period (tempo : ℚ) (gap : Number Exact) (group : Script.Group Exact) : ℚ :=
  group.window.worth tempo + gap.worth tempo

def spacing (tempo : ℚ) (group : Script.Group Exact) : ℚ :=
  group.window.worth tempo / group.members.length

/-- A line has a first round anyhow, and another one as long as the one before is within the total
time. -/
def Recurs (period total : ℚ) (round : ℕ) : Prop :=
  round = 0 ∨ 0 < period ∧ (round - 1) * period ≤ total

/-- The groups that a script starts, and their times. -/
inductive Start (script : List (Instruction Exact)) (tempo : ℚ) :
    GroupId → Script.Group Exact → ℚ → Prop where
  | spawn {k : ℕ} {group : Script.Group Exact} :
      script[path script k]? = some (.spawn group) →
      Start script tempo ⟨path script k, 0⟩ group (due script tempo k)
  | spawnRepeatedly {k round : ℕ} {gap total : Number Exact} {group : Script.Group Exact} :
      script[path script k]? = some (.spawnRepeatedly gap total group) →
      Recurs (period tempo gap group) (total.worth tempo) round →
      Start script tempo ⟨path script k, round⟩ group
        (due script tempo k + round * period tempo gap group)

def Nominal (script : List (Instruction Exact)) (tempo : ℚ) (id : GroupId) (member : ℕ) (time : ℚ) :
    Prop :=
  ∃ group start, Start script tempo id group start ∧ member < group.members.length ∧
    time = start + member * spacing tempo group

def isRepeated (script : List (Instruction Exact)) (line : ℕ) : Bool :=
  match script[line]? with
  | some (.spawnRepeatedly ..) => true
  | _ => false

/-- Firings that it takes to start a group. -/
def tries (script : List (Instruction Exact)) (id : GroupId) : ℕ :=
  if isRepeated script id.line then id.round + 1 else 0

/-- Firings made so far for the members of a group: one for each request of its spawner, and, if its
line repeats it, one for each round that the line has started. -/
def firings (script : List (Instruction Exact)) (id : GroupId) (h : Frame Exact) : ℕ :=
  (deliveries id h.events).length +
    if isRepeated script id.line then (startedGroups h.journal).countP fun other =>
      other.line = id.line
    else 0

section

variable {script : List (Instruction Exact)} {tempo start p total : ℚ} {id : GroupId}
  {group : Script.Group Exact} {k m n : ℕ}

theorem firings_mono {h f : Frame Exact} (hjournal : h.journal <+: f.journal)
    (hevents : h.events <+: f.events) :
    firings script id h ≤ firings script id f := by
  have hown : (deliveries id h.events).length ≤ (deliveries id f.events).length :=
    ((hevents.filterMap Event.request?).filter _).length_le
  have hrounds : ((startedGroups h.journal).countP fun other => other.line = id.line) ≤
      (startedGroups f.journal).countP fun other => other.line = id.line :=
    (hjournal.filterMap Entry.started?).sublist.countP_le
  unfold firings
  split_ifs <;> omega

theorem due_succ {i : Instruction Exact} (hget : script[path script k]? = some i) (tempo : ℚ) :
    due script tempo (k + 1) = due script tempo k + delay tempo i := by
  simp [due, hget]

theorem start_at (h : Start script tempo id group start) (hline : id.line = path script k) :
    (script[path script k]? = some (.spawn group) ∧ id.round = 0 ∧ start = due script tempo k) ∨
      ∃ gap total, script[path script k]? = some (.spawnRepeatedly gap total group) ∧
        Recurs (period tempo gap group) (total.worth tempo) id.round ∧
        start = due script tempo k + id.round * period tempo gap group := by
  cases h with
  | spawn hget =>
    obtain rfl := (path_strictMono script).injective hline
    exact Or.inl ⟨hget, rfl, rfl⟩
  | spawnRepeatedly hget hrecurs =>
    obtain rfl := (path_strictMono script).injective hline
    exact Or.inr ⟨_, _, hget, hrecurs, rfl⟩

theorem start_line (h : Start script tempo id group start) : ∃ k, id.line = path script k := by
  cases h with
  | spawn => exact ⟨_, rfl⟩
  | spawnRepeatedly => exact ⟨_, rfl⟩

theorem start_inside (h : Start script tempo id group start) : id.line < script.length := by
  cases h with
  | spawn hget => exact (List.getElem?_eq_some_iff.1 hget).1
  | spawnRepeatedly hget => exact (List.getElem?_eq_some_iff.1 hget).1

theorem start_unique {start' : ℚ} {group' : Script.Group Exact}
    (h : Start script tempo id group start) (h' : Start script tempo id group' start') :
    group' = group ∧ start' = start := by
  obtain ⟨k, hline⟩ := start_line h
  rcases start_at h hline with ⟨hget, -, rfl⟩ | ⟨gap, total, hget, -, rfl⟩ <;>
    rcases start_at h' hline with ⟨hget', -, rfl⟩ | ⟨gap', total', hget', -, rfl⟩ <;>
    rw [hget] at hget' <;> cases hget' <;> exact ⟨rfl, rfl⟩

theorem recurs_mono (hmn : m ≤ n) (h : Recurs p total n) : Recurs p total m := by
  rcases h with rfl | ⟨hpos, hle⟩
  · exact Or.inl (Nat.le_zero.1 hmn)
  · refine Or.inr ⟨hpos, ?_⟩
    have hcast : (m : ℚ) ≤ n := by exact_mod_cast hmn
    have hmul : ((m : ℚ) - 1) * p ≤ (n - 1) * p :=
      mul_le_mul_of_nonneg_right (by linarith) hpos.le
    exact hmul.trans hle

theorem recurs_lt (h : ¬ Recurs p total n) (hm : Recurs p total m) : m < n := by
  by_contra hge
  exact h (recurs_mono (not_lt.1 hge) hm)

theorem recurs_le (hmn : m ≤ n) (h : Recurs p total n) : m * p ≤ n * p := by
  rcases h with rfl | ⟨hpos, -⟩
  · rw [Nat.le_zero.1 hmn]
  · have hcast : (m : ℚ) ≤ n := by exact_mod_cast hmn
    exact mul_le_mul_of_nonneg_right hcast hpos.le

theorem due_le_start (h : Start script tempo id group start) (hline : id.line = path script k) :
    due script tempo k ≤ start := by
  rcases start_at h hline with ⟨-, -, rfl⟩ | ⟨gap, total, -, hrecurs, rfl⟩
  · exact le_refl _
  · have hle := recurs_le (Nat.zero_le _) hrecurs
    rw [Nat.cast_zero, zero_mul] at hle
    linarith

end

theorem time_succ (start p : ℚ) (n : ℕ) : start + (n + 1 : ℕ) * p = start + n * p + p := by
  push_cast
  ring

/-! ## Spawners -/

namespace Spawner

structure Spaced (T start p : ℚ) (n : ℕ) (t : Scheduler Exact)
    (spawned : Array (SpawnRequest Exact)) : Prop where
  on_time : OnTime T (start + t.count * p) (n + t.count) t
  not_early : ∀ q ∈ spawned.toList, q.member < t.count ∧
    start + q.member * p ≤ T + (n + (q.member + 1) : ℕ) * slack

variable {s : Spawner Exact} {T start p q : ℚ} {n : ℕ}

theorem spaced_fire {t : Scheduler Exact} {spawned : Array (SpawnRequest Exact)}
    (hperiod : s.period = .finite p) (hdue : t.isDue = true) (hlt : t.count < s.members.length)
    (h : Spaced T start p n t spawned) :
    Spaced T start p n (t.fire s.rhythm spawned).1 (t.fire s.rhythm spawned).2 := by
  obtain ⟨m, hm⟩ : ∃ m, s.members[t.count]? = some m := ⟨_, List.getElem?_eq_getElem hlt⟩
  have hspawned : (t.fire s.rhythm spawned).2 = spawned.push (s.request t.count m) := by
    simp [Scheduler.fire, rhythm, hm]
  have hcount : (t.fire s.rhythm spawned).1.count = t.count + 1 := rfl
  have hnext : OnTime T (start + t.count * p + p) (n + t.count + 1) (t.fire s.rhythm spawned).1 :=
    h.on_time.fire hdue fun _ _ _ => hperiod
  have hearly := h.on_time.le_of_due hdue
  constructor
  · rw [hcount, time_succ]
    exact hnext
  · rw [hspawned, hcount]
    intro x hx
    rw [Array.toList_push, List.mem_append, List.mem_singleton] at hx
    rcases hx with hx | rfl
    · obtain ⟨hlt, hle⟩ := h.not_early x hx
      exact ⟨hlt.trans (Nat.lt_succ_self _), hle⟩
    · refine ⟨Nat.lt_succ_self _, ?_⟩
      change start + t.count * p ≤ T + (n + (t.count + 1) : ℕ) * slack
      push_cast at hearly ⊢
      linarith

theorem spaced_update (hdt : ¬ (Exact.finite q) ≤ 0) (hrun : s.scheduler.running = true)
    (hlt : s.scheduler.count < s.members.length) (hperiod : s.period = .finite p)
    (htime : OnTime T (start + s.scheduler.count * p) (n + s.scheduler.count) s.scheduler) :
    Spaced (T + q) start p n (s.update (.finite q)).1.scheduler
      (s.update (.finite q)).2.toArray := by
  have hdeals := deals_await (.finite q) hrun hlt
  have hspaced : Spaced (T + q) start p n (s.scheduler.await (.finite q)) #[] :=
    ⟨htime.await q, by simp⟩
  have h := Scheduler.update_induction
    (P := fun t spawned => s.Deals t spawned ∧ Spaced (T + q) start p n t spawned) hdt hrun
    (fun t spawned hdue hgoes ht =>
      ⟨deals_fire hgoes ht.1, spaced_fire hperiod hdue (ht.1.running_iff.1 hgoes) ht.2⟩)
    ⟨hdeals, hspaced⟩
  simpa [update] using h.2

end Spawner

/-! ## Repeaters -/

namespace Repeater

structure Recurring (T start p total : ℚ) (t : Scheduler Exact) : Prop where
  on_time : OnTime T (start + t.count * p) t.count t
  before : ∀ k < t.count, Recurs p total k
  recurs : t.running = true → Recurs p total t.count
  last : t.running = false → ¬ Recurs p total t.count

/-- A repeater has started its rounds on time since an update began at `T₀`, on the way to the time
`T`. -/
structure Paced (T₀ T start p total : ℚ) (t : Scheduler Exact)
    (issued : Array (Due Exact)) : Prop where
  on_time : OnTime T (start + t.count * p) t.count t
  ahead : t.running = true → ∃ τ, Planned T τ t ∧ T₀ ≤ τ
  recurs : t.running = true → Recurs p total t.count
  last : t.running = false → ¬ Recurs p total t.count
  started : ∀ d ∈ issued.toList, Recurs p total d.id.round ∧
    ∃ σ, d.lag = .finite (T - σ) ∧ T₀ ≤ σ ∧ σ ≤ T ∧ σ ≤ start + d.id.round * p ∧
      start + d.id.round * p ≤ σ + (d.id.round + 1 : ℕ) * slack

variable {r : Repeater Exact} {T₀ T start p total q : ℚ}

theorem recurring_fire {t : Scheduler Exact} {issued : Array (Due Exact)}
    (hperiod : r.period = .finite p) (htotal : r.total = .finite total) (hdue : t.isDue = true)
    (hrun : t.running = true) (h : Recurring T start p total t) :
    Recurring T start p total (t.fire r.rhythm issued).1 := by
  have hcount : (t.fire r.rhythm issued).1.count = t.count + 1 := rfl
  have hgoes : (t.fire r.rhythm issued).1.running = true ↔ 0 < p ∧ t.count * p ≤ total := by
    simp [Scheduler.fire, rhythm, hperiod, htotal]
  have hrecurs : Recurs p total (t.count + 1) ↔ 0 < p ∧ t.count * p ≤ total := by
    unfold Recurs
    push_cast
    rw [add_sub_cancel_right]
    simp
  constructor
  · rw [hcount, time_succ]
    exact h.on_time.fire hdue fun _ _ _ => hperiod
  · intro k hk
    rw [hcount] at hk
    exact recurs_mono (Nat.lt_succ_iff.1 hk) (h.recurs hrun)
  · intro hgo
    exact hrecurs.2 (hgoes.1 hgo)
  · intro hstop hrec
    rw [hgoes.2 (hrecurs.1 hrec)] at hstop
    cases hstop

theorem Paced.recurring {t : Scheduler Exact} {issued : Array (Due Exact)} (hrun : t.running = true)
    (h : Paced T₀ T start p total t issued) : Recurring T start p total t :=
  ⟨h.on_time, fun _ hk => recurs_mono hk.le (h.recurs hrun), h.recurs, h.last⟩

theorem paced_fire {t : Scheduler Exact} {issued : Array (Due Exact)} (hT : T₀ ≤ T)
    (hperiod : r.period = .finite p) (htotal : r.total = .finite total) (hdue : t.isDue = true)
    (hrun : t.running = true) (h : Paced T₀ T start p total t issued) :
    Paced T₀ T start p total (t.fire r.rhythm issued).1 (t.fire r.rhythm issued).2 := by
  have hnext : Recurring T start p total (t.fire r.rhythm issued).1 :=
    recurring_fire hperiod htotal hdue hrun (h.recurring hrun)
  obtain ⟨τ, hτ, hlo, hhi⟩ := h.on_time
  obtain ⟨τ', hτ', hahead⟩ := h.ahead hrun
  have hsame : τ' = τ := by
    obtain ⟨d, w, hd, hw, rfl⟩ := hτ
    obtain ⟨d', w', hd', hw', rfl⟩ := hτ'
    rw [hd] at hd'
    rw [hw] at hw'
    cases hd'
    cases hw'
    rfl
  subst hsame
  have hlag := hτ.rest_eq
  have hle := hτ.isDue_iff.1 hdue
  have hissued : (t.fire r.rhythm issued).2 =
      issued.push ⟨⟨r.line, t.count⟩, r.group, .finite (T - min τ' T)⟩ := by
    rw [← hlag]
    rfl
  have hmin : min τ' T ≤ τ' := min_le_left _ _
  refine ⟨hnext.on_time, ?_, hnext.recurs, hnext.last, ?_⟩
  · intro hgo
    refine ⟨_, hτ.fire fun _ _ _ => hperiod, ?_⟩
    have hp : 0 < p := by
      rcases hnext.recurs hgo with hnone | ⟨hp, -⟩
      · exact absurd hnone (Nat.succ_ne_zero _)
      · exact hp
    have hstart : T₀ ≤ min τ' T := le_min hahead hT
    linarith
  · rw [hissued]
    intro d hd
    rw [Array.toList_push, List.mem_append, List.mem_singleton] at hd
    rcases hd with hd | rfl
    · exact h.started d hd
    · -- a firing is dated to the end of its delay, or to now if that is still to come
      refine ⟨h.recurs hrun, min τ' T, rfl, le_min hahead hT, min_le_right _ _, ?_, ?_⟩
      · exact hmin.trans hhi
      · have hslack := Scheduler.slack_pos
        have hge : τ' - slack ≤ min τ' T := le_min (by linarith) (by linarith)
        change start + t.count * p ≤ min τ' T + (t.count + 1 : ℕ) * slack
        push_cast
        linarith

theorem recurring_update (hdt : ¬ (Exact.finite q) ≤ 0) (hrun : r.scheduler.running = true)
    (hperiod : r.period = .finite p) (htotal : r.total = .finite total)
    (h : Recurring T start p total r.scheduler) :
    Recurring (T + q) start p total (r.update (.finite q)).1.scheduler := by
  refine Scheduler.update_induction (P := fun t _ => Recurring (T + q) start p total t)
    hdt hrun ?_ ?_
  · exact fun t issued hdue hgoes ht => recurring_fire hperiod htotal hdue hgoes ht
  · exact ⟨h.on_time.await q, h.before, h.recurs, h.last⟩

theorem paced_update (hq : 0 ≤ q) (hdt : ¬ (Exact.finite q) ≤ 0) (hrun : r.scheduler.running = true)
    (hperiod : r.period = .finite p) (htotal : r.total = .finite total)
    (hrecurs : Recurs p total r.scheduler.count)
    (htime : OnTime T (start + r.scheduler.count * p) r.scheduler.count r.scheduler)
    (hahead : ∃ τ, Planned T τ r.scheduler ∧ T ≤ τ) :
    Paced T (T + q) start p total (r.update (.finite q)).1.scheduler
      (r.update (.finite q)).2.toArray := by
  obtain ⟨τ, hτ, hle⟩ := hahead
  have hstart : Paced T (T + q) start p total (r.scheduler.await (.finite q)) #[] := by
    constructor
    · exact htime.await q
    · exact fun _ => ⟨τ, hτ.await q, hle⟩
    · exact fun _ => hrecurs
    · intro hstop
      have hgoes : (r.scheduler.await (.finite q)).running = true := hrun
      rw [hgoes] at hstop
      cases hstop
    · simp
  have h := Scheduler.update_induction (P := Paced T (T + q) start p total) hdt hrun
    (fun t issued hdue hgoes ht => paced_fire (by linarith) hperiod htotal hdue hgoes ht) hstart
  simpa [update] using h

end Repeater

end Barrage.Level
