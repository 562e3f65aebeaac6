import Barrage.Proofs.Level.Path

/-! # The lines of a history

A journal tells which lines have run and when; what a line has drawn, or what the tempo was, follows
from the level as the line found it. A history is followed here line by line, with the level at the
turn of each. -/

namespace Barrage.Level

open Script (Instruction)

variable {α : Type}

def Entry.line? : Entry α → Option (ℕ × α)
  | .executed index offset => some (index, offset)
  | .started .. => none

def Turn.index (t : Turn α) : ℕ := t.level.next

def Turn.line (t : Turn α) : ℕ × α := (t.index, t.offset)

theorem executedLines_eq_lines (journal : List (Entry α)) :
    executedLines journal = (journal.filterMap Entry.line?).map Prod.fst := by
  rw [executedLines, List.map_filterMap]
  refine List.filterMap_congr fun e _ => ?_
  cases e <;> rfl

theorem lines_eq_nil {journal : List (Entry α)} (h : ∀ e ∈ journal, e.executed? = none) :
    journal.filterMap Entry.line? = [] := by
  refine List.filterMap_eq_nil_iff.2 fun e he => ?_
  have hnone := h e he
  cases e with
  | executed => cases hnone
  | started => rfl

variable [Scalar α] {l : Level α} {f : Frame α} {world : Vec α} {dt : α}

/-- The lines that a call makes run. -/
def callTurns (l : Level α) : Call α → List (Turn α)
  | .update world dt =>
    if dt ≤ 0 ∨ l.waitingForClear = true ∧ 0 < l.live then []
    else turnsDue world dt (l.script.drop l.next) (l.enter dt)
  | .release => []

def turns (l : Level α) : List (Call α) → List (Turn α)
  | [] => []
  | c :: rest =>
    l.callTurns c ++
      match l.call c with
      | .error _ => []
      | .ok f => f.level.turns rest

theorem turns_append {earlier : List (Call α)} (hrun : l.run earlier = .ok f)
    (later : List (Call α)) : l.turns (earlier ++ later) = l.turns earlier ++
    f.level.turns later := by
  induction earlier generalizing l f with
  | nil =>
    cases hrun
    rfl
  | cons c earlier ih =>
    obtain ⟨first, hfirst, hrun⟩ := parts_of_ok hrun
    obtain ⟨second, hsecond, hrun⟩ := parts_of_ok hrun
    cases hrun
    simp only [List.cons_append, turns, hfirst, ih hsecond, List.append_assoc, behind_level]

theorem turns_snoc {earlier : List (Call α)} (hrun : l.run earlier = .ok f) (c : Call α) :
    l.turns (earlier ++ [c]) = l.turns earlier ++ f.level.callTurns c := by
  rw [turns_append hrun, turns]
  cases f.level.call c <;> simp [turns]

theorem turns_mono {earlier calls : List (Call α)} (hpart : earlier <+: calls)
    (hrun : l.run calls = .ok f) : l.turns earlier <+: l.turns calls := by
  obtain ⟨later, rfl⟩ := hpart
  rw [run_append] at hrun
  obtain ⟨before, hbefore, -⟩ := parts_of_ok hrun
  rw [turns_append hbefore]
  exact List.prefix_append _ _

theorem turns_cases (h : l.update world dt = .ok f) :
    (dt ≤ 0 ∧ f = ⟨l, [], []⟩ ∧ l.callTurns (.update world dt) = []) ∨
    (¬ dt ≤ 0 ∧ l.waitingForClear = true ∧ 0 < l.live ∧
      { l with clock := l.clock + dt }.advanceSchedulers world dt = .ok f ∧
      l.callTurns (.update world dt) = []) ∨
    (¬ dt ≤ 0 ∧ (l.waitingForClear = true → l.live = 0) ∧
      l.callTurns (.update world dt) = turnsDue world dt (l.script.drop l.next) (l.enter dt) ∧
      ∃ first last, runDue world dt (l.script.drop l.next) (l.enter dt) = .ok first ∧
        first.level.advanceSchedulers world dt = .ok last ∧
        f = last.behind first.journal first.events) := by
  rcases update_cases h with ⟨hdt, hf⟩ | ⟨hdt, hw, hlive, hadv⟩ | ⟨hdt, hclear, hplays⟩
  · exact Or.inl ⟨hdt, hf, if_pos (Or.inl hdt)⟩
  · exact Or.inr (Or.inl ⟨hdt, hw, hlive, hadv, if_pos (Or.inr ⟨hw, hlive⟩)⟩)
  · refine Or.inr (Or.inr ⟨hdt, hclear, if_neg ?_, hplays⟩)
    rintro (hle | ⟨hw, hlive⟩)
    · exact hdt hle
    · rw [hclear hw] at hlive
      exact lt_irrefl _ hlive

/-- An update that moves the clock either has its lines held back or runs those that are due; then
schedulers advance. What holds while lines run need not hold before or behind. -/
theorem update_induction {P E : Frame α → List (Turn α) → Prop} {h : Frame α}
    (turns : List (Turn α)) (hdt : ¬ dt ≤ 0)
    (held : ∀ f, h.level.waitingForClear = true → 0 < h.level.live →
      { h.level with clock := h.level.clock + dt }.advanceSchedulers world dt = .ok f →
      E (f.behind h.journal h.events) turns)
    (enter : (h.level.waitingForClear = true → h.level.live = 0) →
      P ⟨h.level.enter dt, h.journal, h.events⟩ turns)
    (skip : ∀ (g : Frame α) turns, P g turns → g.level.next < g.level.gate →
      P ⟨g.level.pass, g.journal, g.events⟩ turns)
    (execute : ∀ (g : Frame α) turns i offset first, P g turns → g.level.waitingForClear = false →
      g.level.wait ≤ 0 → g.level.gate ≤ g.level.next → g.level.script[g.level.next]? = some i →
      Scalar.clamp (dt + g.level.wait) 0 dt = .ok offset →
      g.level.pass.execute world g.level.next offset i = .ok first →
      P (first.behind (g.journal ++ [.executed g.level.next offset]) g.events)
        (turns ++ [⟨g.level, i, offset⟩]))
    (advance : ∀ (g f : Frame α) turns, P g turns → g.level.Rests →
      g.level.advanceSchedulers world dt = .ok f → E (f.behind g.journal g.events) turns)
    (hcall : h.level.update world dt = .ok f) :
    E (f.behind h.journal h.events) (turns ++ h.level.callTurns (.update world dt)) := by
  rcases turns_cases hcall with ⟨hle, -⟩ | ⟨-, hw, hlive, hadv, hnone⟩ |
    ⟨-, hclear, hturns, first, last, hdue, hadv, rfl⟩
  · exact absurd hle hdt
  · rw [hnone, List.append_nil]
    exact held f hw hlive hadv
  · have hdue' : runDue world dt ((h.level.enter dt).script.drop (h.level.enter dt).next)
        (h.level.enter dt) = .ok first := by
      simpa using hdue
    obtain ⟨hP, hrests⟩ := turnsDue_induction (h := ⟨h.level.enter dt, h.journal, h.events⟩) turns
      (fun g turns hg _ _ hgate _ => skip g turns hg hgate) execute (List.prefix_refl _)
      (enter_waitingForClear h.level dt) (enter hclear) hdue'
    have hlast := advance (first.behind h.journal h.events) last _ hP (hrests rfl) hadv
    rw [hturns]
    simpa [behind_behind] using hlast

theorem turns_induction {Q : List (Call α) → Frame α → List (Turn α) → Prop}
    (start : Q [] ⟨l, [], []⟩ []) {calls : List (Call α)}
    (step : ∀ earlier c before last, earlier ++ [c] <+: calls → l.run earlier = .ok before →
      Q earlier before (l.turns earlier) → before.level.call c = .ok last →
      Q (earlier ++ [c]) (last.behind before.journal before.events)
        (l.turns earlier ++ before.level.callTurns c))
    (hrun : l.run calls = .ok f) : Q calls f (l.turns calls) := by
  induction calls using List.reverseRecOn generalizing f with
  | nil =>
    cases hrun
    exact start
  | append_singleton earlier c ih =>
    obtain ⟨before, last, hbefore, hlast, rfl⟩ := run_snoc hrun
    have hQ := ih (fun e c b t hp => step e c b t (hp.trans (List.prefix_append _ _))) hbefore
    rw [turns_snoc hbefore]
    exact step earlier c before last (List.prefix_refl _) hbefore hQ hlast

/-! ## The first turn of a frame -/

theorem turnsDue_of_wait (rest : List (Instruction α)) (hwait : ¬ l.wait ≤ 0) :
    turnsDue world dt rest l = [] := by
  cases rest with
  | nil => rfl
  | cons => exact if_neg hwait

theorem turnsDue_of_due {rest : List (Instruction α)} (hrest : rest = l.script.drop l.next)
    (hwait : l.wait ≤ 0) (hahead : max l.next l.gate < l.script.length)
    (hrun : runDue world dt rest l = .ok f) :
    ∃ t later, turnsDue world dt rest l = t :: later ∧ t.index = max l.next l.gate ∧
      t.level.wait = l.wait ∧
      Scalar.clamp (dt + l.wait) 0 dt = .ok t.offset := by
  induction rest generalizing l with
  | nil =>
    have hover := List.drop_eq_nil_iff.1 hrest.symm
    omega
  | cons i rest ih =>
    have hlt : l.next < l.script.length := by omega
    rw [List.drop_eq_getElem_cons hlt] at hrest
    unfold runDue at hrun
    unfold turnsDue
    rw [if_pos hwait] at hrun ⊢
    by_cases hgate : l.next < l.gate
    · simp only [if_pos hgate] at hrun ⊢
      have hmax : max (l.next + 1) l.gate = max l.next l.gate := by omega
      have hahead' : max l.pass.next l.pass.gate < l.pass.script.length := hmax.trans_lt hahead
      obtain ⟨t, later, hturns, hindex, hfound⟩ :=
        ih (l := l.pass) (List.cons.inj hrest).2 hwait hahead' hrun
      exact ⟨t, later, hturns, hindex.trans hmax, hfound⟩
    · simp only [if_neg hgate] at hrun ⊢
      obtain ⟨offset, hoffset, -⟩ := parts_of_ok hrun
      simp only [hoffset]
      have hhere : l.next = max l.next l.gate := by omega
      exact ⟨_, _, rfl, hhere, rfl, rfl⟩

/-! ## Turns and journals -/

theorem lines_of_call {c : Call α} (hcall : l.call c = .ok f) :
    f.journal.filterMap Entry.line? = (l.callTurns c).map Turn.line := by
  cases c with
  | release =>
    cases hcall
    rfl
  | update world dt =>
    by_cases hdt : dt ≤ 0
    · rw [call, update_paused l world hdt] at hcall
      cases hcall
      rw [callTurns, if_pos (Or.inl hdt)]
      rfl
    have told (g f : Frame α) (turns : List (Turn α))
        (hg : g.journal.filterMap Entry.line? = turns.map Turn.line)
        (hf : ∀ e ∈ f.journal, e.executed? = none) :
        (f.behind g.journal g.events).journal.filterMap Entry.line? = turns.map Turn.line := by
      rw [behind_journal, List.filterMap_append, lines_eq_nil hf, List.append_nil, hg]
    have hlines := update_induction (h := ⟨l, [], []⟩)
      (P := fun g turns => g.journal.filterMap Entry.line? = turns.map Turn.line)
      (E := fun g turns => g.journal.filterMap Entry.line? = turns.map Turn.line)
      [] hdt ?_ ?_ ?_ ?_ ?_ hcall
    · simpa using hlines
    · exact fun f _ _ hadv => told ⟨l, [], []⟩ f [] rfl (advance_frame hadv).2.1
    · exact fun _ => rfl
    · exact fun g turns hg _ => hg
    · intro g turns i offset first hg _ _ _ _ _ hfirst
      have hsilent : first.journal.filterMap Entry.line? = [] := by
        have hnone := (execute_outcome hfirst).no_line
        rw [executedLines_eq_lines, List.map_eq_nil_iff] at hnone
        exact hnone
      rw [behind_journal, List.filterMap_append, List.filterMap_append, hg, hsilent,
        List.append_nil, List.map_append]
      rfl
    · exact fun g f turns hg _ hadv => told g f turns hg (advance_frame hadv).2.1

theorem lines_of_run {calls : List (Call α)} (hrun : l.run calls = .ok f) :
    f.journal.filterMap Entry.line? = (l.turns calls).map Turn.line := by
  refine turns_induction (Q := fun _ f turns => f.journal.filterMap Entry.line? =
    turns.map Turn.line) rfl ?_ hrun
  intro earlier c before last _ _ hQ hcall
  rw [behind_journal, List.filterMap_append, List.map_append, hQ, lines_of_call hcall]

theorem executedLines_of_run {calls : List (Call α)} (hrun : l.run calls = .ok f) :
    executedLines f.journal = (l.turns calls).map Turn.index := by
  rw [executedLines_eq_lines, lines_of_run hrun, List.map_map]
  rfl

structure Placed (script : List (Instruction α)) (h : Frame α) (turns : List (Turn α)) : Prop where
  script_eq : h.level.script = script
  instruction_eq : ∀ t ∈ turns, script[t.index]? = some t.instruction

theorem Placed.advance {script : List (Instruction α)} {h : Frame α} {turns : List (Turn α)}
    (hP : Placed script h turns) (hadv : h.level.advanceSchedulers world dt = .ok f) :
    Placed script (f.behind h.journal h.events) turns := by
  obtain ⟨⟨words, repeaters, spawners, live, hf⟩, -⟩ := advance_frame hadv
  refine ⟨?_, hP.instruction_eq⟩
  rw [behind_level, hf]
  exact hP.script_eq

theorem placed_call {script : List (Instruction α)} {h : Frame α} {turns : List (Turn α)}
    {c : Call α} (hP : Placed script h turns) (hcall : h.level.call c = .ok f) :
    Placed script (f.behind h.journal h.events) (turns ++ h.level.callTurns c) := by
  cases c with
  | release =>
    cases hcall
    rw [callTurns, List.append_nil]
    exact ⟨hP.script_eq, hP.instruction_eq⟩
  | update world dt =>
    by_cases hdt : dt ≤ 0
    · rw [call, update_paused h.level world hdt] at hcall
      cases hcall
      rw [callTurns, if_pos (Or.inl hdt), List.append_nil]
      exact ⟨hP.script_eq, hP.instruction_eq⟩
    refine update_induction (P := Placed script) (E := Placed script) turns hdt ?_ ?_ ?_ ?_ ?_ hcall
    · intro f _ _ hadv
      have hclock : Placed script ⟨{ h.level with clock := h.level.clock + dt }, h.journal,
        h.events⟩ turns :=
        ⟨hP.script_eq, hP.instruction_eq⟩
      exact hclock.advance hadv
    · exact fun _ => ⟨(enter_script _ _).trans hP.script_eq, hP.instruction_eq⟩
    · exact fun g turns hg _ => ⟨hg.script_eq, hg.instruction_eq⟩
    · intro g turns i offset first hg _ _ _ hget _ hfirst
      refine ⟨(execute_outcome hfirst).script_eq.trans hg.script_eq, fun t ht => ?_⟩
      rcases List.mem_append.1 ht with ht | ht
      · exact hg.instruction_eq t ht
      · obtain rfl := List.mem_singleton.1 ht
        rw [← hg.script_eq]
        exact hget
    · exact fun g f turns hg _ hadv => hg.advance hadv

theorem placed_run {calls : List (Call α)} (hrun : l.run calls = .ok f) :
    Placed l.script f (l.turns calls) := by
  refine turns_induction (Q := fun _ f turns => Placed l.script f turns) ⟨rfl, ?_⟩ ?_ hrun
  · intro t ht
    cases ht
  · intro earlier c before last _ _ hP hcall
    exact placed_call hP hcall

/-- Line by line, the turns go along the path. -/
theorem indices_of_run {script : List (Instruction α)} {tempo : α} {words : Words}
    {calls : List (Call α)} (hrun : (start script tempo words).run calls = .ok f) :
    ((start script tempo words).turns calls).map Turn.index =
      (List.range ((start script tempo words).turns calls).length).map (path script) := by
  have hlines := (onPath_run hrun).lines_eq
  rw [executedLines_of_run hrun, List.length_map] at hlines
  exact hlines

end Barrage.Level
