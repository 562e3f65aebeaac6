import Barrage.Proofs.Trajectory.Shape
import Barrage.Scalar.Single
import Barrage.Trajectory.Flight

/-! # The structure of trajectories

Every pattern change of a program has a latch of its own, and a flight has one flag for each of
them. Reading and setting a flag are total here, so that they stay in bounds is said by a second
run, which stops where it is asked for a flag that does not exist. With this, all that the check of
the blocks is good for can be put together. -/

namespace Barrage.Trajectory

variable {α : Type}

theorem repeat_keeps {β : Type} {P : β → Prop} {f : β → β} (hf : ∀ b, P b → P (f b)) (n : ℕ) {b : β}
    (hb : P b) : P (Nat.repeat f n b) := by
  induction n with
  | zero => exact hb
  | succ n ih => exact hf _ ih

variable [Scalar α]

theorem Progress.change_size (p : Progress α) (w : Window α) (pattern : Pattern.Packed) (latch : ℕ)
    (time : α) : (p.change w pattern latch time).latches.size = p.latches.size := by
  unfold Progress.change
  split_ifs <;> simp

variable [Elementary α]

/-! ## Silent effects -/

def Progress.Moved (p q : Progress α) : Prop := q.latches = p.latches ∧ q.announced = p.announced

omit [Scalar α] [Elementary α] in
theorem Progress.Moved.trans {p q r : Progress α} (h : p.Moved q) (k : q.Moved r) : p.Moved r :=
  ⟨k.1.trans h.1, k.2.trans h.2⟩

-- Effects are silent for two reasons, as part of a pass that is replayed and for want of pattern
-- changes. A loop leads from the second to the first, so both go through one induction.
mutual

theorem Effect.apply_silent (live : Bool) (time : α) (p : Progress α) :
    ∀ e : Effect α, live = false ∨ e.latches = [] → p.Moved (Effect.apply live time p e)
  | .motion window m, _ => by
    unfold Effect.apply
    split <;> exact ⟨rfl, rfl⟩
  | .shoot window pattern latch, h => by
    obtain rfl : live = false := by simpa using h
    exact ⟨rfl, rfl⟩
  | .loop window body period, h => by
    rw [Effect.latches_loop] at h
    unfold Effect.apply
    split
    · exact ⟨rfl, rfl⟩
    · split
      · have hpasses := repeat_keeps (P := p.Moved)
          (f := fun p => Effect.applyAll false period p body)
          (fun q hq => hq.trans (Effect.applyAll_silent false period q body (Or.inl rfl)))
        exact (hpasses _ ⟨rfl, rfl⟩).trans (Effect.applyAll_silent live _ _ body h)
      · exact Effect.applyAll_silent live _ p body h

theorem Effect.applyAll_silent (live : Bool) (time : α) (p : Progress α) :
    ∀ effects : List (Effect α), live = false ∨ Effect.latchesAll effects = [] →
      p.Moved (Effect.applyAll live time p effects)
  | [], _ => ⟨rfl, rfl⟩
  | e :: rest, h => by
    rw [Effect.latchesAll_cons, List.append_eq_nil_iff] at h
    have hfirst := Effect.apply_silent live time p e (h.imp_right And.left)
    exact hfirst.trans (Effect.applyAll_silent live time _ rest (h.imp_right And.right))

end

theorem replays_moved (p : Progress α) (body : List (Effect α)) (period : α) (passes : ℕ) :
    p.Moved (Nat.repeat (fun p => Effect.applyAll false period p body) passes p) :=
  repeat_keeps (fun q hq => hq.trans (Effect.applyAll_silent false period q body (Or.inl rfl)))
    passes ⟨rfl, rfl⟩

/-! ## Size -/

theorem Effect.applyAll_append (live : Bool) (time : α) (p : Progress α)
    (first second : List (Effect α)) : Effect.applyAll live time p (first ++ second) =
      Effect.applyAll live time (Effect.applyAll live time p first) second := by
  induction first generalizing p with
  | nil => rfl
  | cons e first ih => exact ih _

mutual

theorem Effect.apply_size (live : Bool) (time : α) (p : Progress α) :
    ∀ e : Effect α, (Effect.apply live time p e).latches.size = p.latches.size
  | .motion window m => by
    unfold Effect.apply
    split <;> rfl
  | .shoot window pattern latch => by
    unfold Effect.apply
    split
    · exact p.change_size window pattern latch time
    · rfl
  | .loop window body period => by
    unfold Effect.apply
    split
    · rfl
    · split
      · refine (Effect.applyAll_size live _ _ body).trans ?_
        exact congrArg Array.size (replays_moved p body period _).1
      · exact Effect.applyAll_size live _ p body

theorem Effect.applyAll_size (live : Bool) (time : α) (p : Progress α) :
    ∀ effects : List (Effect α), (Effect.applyAll live time p effects).latches.size = p.latches.size
  | [] => rfl
  | e :: rest => (Effect.applyAll_size live time _ rest).trans (Effect.apply_size live time p e)

end

/-! ## Bounds -/

mutual

/-- Applies an effect, but stops where it asks for a latch that is not there. -/
def Effect.guarded (live : Bool) (time : α) (p : Progress α) : Effect α → Option (Progress α)
  | .motion window m => some (Effect.apply live time p (.motion window m))
  | .shoot window pattern latch =>
    if live then if latch < p.latches.size then some (p.change window pattern latch time) else none
    else some p
  | .loop window body period =>
    match window.localTime time with
    | none => some p
    | some t =>
      if Scalar.isFinite period then
        let passes := Scalar.truncate maxPasses (t / period)
        let p := Nat.repeat (fun p => p.bind fun p => Effect.guardedAll false period p body)
          passes (some p)
        p.bind fun p => Effect.guardedAll live (t - Scalar.ofNat passes * period) p body
      else Effect.guardedAll live t p body

def Effect.guardedAll (live : Bool) (time : α) (p : Progress α) :
    List (Effect α) → Option (Progress α)
  | [] => some p
  | e :: rest => (Effect.guarded live time p e).bind fun p => Effect.guardedAll live time p rest

end

theorem repeat_some {β : Type} {f : β → β} {g : β → Option β} {P : β → Prop}
    (hg : ∀ b, P b → g b = some (f b)) (hf : ∀ b, P b → P (f b)) (n : ℕ) {b : β} (hb : P b) :
    Nat.repeat (fun b => b.bind g) n (some b) = some (Nat.repeat f n b) := by
  induction n with
  | zero => rfl
  | succ n ih =>
    change (Nat.repeat (fun b => b.bind g) n (some b)).bind g = _
    rw [ih]
    exact hg _ (repeat_keeps hf n hb)

mutual

theorem Effect.guarded_eq (live : Bool) (time : α) (p : Progress α) :
    ∀ e : Effect α, (∀ latch ∈ e.latches, latch < p.latches.size) →
      Effect.guarded live time p e = some (Effect.apply live time p e)
  | .motion window m, _ => by simp [Effect.guarded]
  | .shoot window pattern latch, h => by
    have hlt : latch < p.latches.size := h latch (by simp)
    simp only [Effect.guarded, Effect.apply, if_pos hlt]
    split <;> rfl
  | .loop window body period, h => by
    rw [Effect.latches_loop] at h
    have hlater : ∀ live time (q : Progress α), q.latches.size = p.latches.size →
        Effect.guardedAll live time q body = some (Effect.applyAll live time q body) :=
      fun live time q hq => Effect.guardedAll_eq live time q body (by rwa [hq])
    unfold Effect.guarded Effect.apply
    cases window.localTime time with
    | none => rfl
    | some t =>
      dsimp only
      by_cases hfinite : Scalar.isFinite period = true
      · rw [if_pos hfinite, if_pos hfinite,
          repeat_some (P := fun q : Progress α => q.latches.size = p.latches.size)
          (hlater false period) (fun q hq => (Effect.applyAll_size false period q body).trans hq) _
            rfl]
        exact hlater live _ _ (congrArg Array.size (replays_moved p body period _).1)
      · rw [if_neg hfinite, if_neg hfinite]
        exact hlater live _ p rfl

theorem Effect.guardedAll_eq (live : Bool) (time : α) (p : Progress α) :
    ∀ effects : List (Effect α), (∀ latch ∈ Effect.latchesAll effects, latch < p.latches.size) →
      Effect.guardedAll live time p effects = some (Effect.applyAll live time p effects)
  | [], _ => rfl
  | e :: rest, h => by
    rw [Effect.latchesAll_cons] at h
    rw [Effect.guardedAll, Effect.guarded_eq live time p e fun latch hl =>
      h latch (List.mem_append_left _ hl)]
    refine Effect.guardedAll_eq live time _ rest fun latch hl => ?_
    rw [Effect.apply_size]
    exact h latch (List.mem_append_right _ hl)

end

namespace Program

def guardedRun (program : Program α) (stage : ℕ) (origin : Vec α) (time : α)
    (latches : Array Bool) : Option (Progress α) :=
  match program.stages[stage]? with
  | some s => Effect.guardedAll true time ⟨origin, latches, []⟩ s.effects
  | none => some ⟨origin, latches, []⟩

theorem run_size (program : Program α) (stage : ℕ) (origin : Vec α) (time : α)
    (latches : Array Bool) :
    (program.run stage origin time latches).latches.size = latches.size := by
  unfold run
  split
  · exact Effect.applyAll_size true time _ _
  · rfl

def Numbered (program : Program α) : Prop :=
  program.pieces.filterMap Piece.latch? = List.range program.latches

omit [Scalar α] [Elementary α] in
theorem stage_latches {program : Program α} (h : program.Numbered) {s : Stage α}
    (hs : s ∈ program.stages) :
    (Effect.latchesAll s.effects).Sublist (List.range program.latches) := by
  have hpart := ((List.singleton_sublist.2 hs).flatMap fun s =>
    Effect.piecesAll s.effects).filterMap Piece.latch?
  rw [List.flatMap_singleton] at hpart
  rw [← h]
  exact hpart

theorem guardedRun_eq {program : Program α} (h : program.Numbered) (stage : ℕ)
    (origin : Vec α) (time : α) {latches : Array Bool} (hsize : latches.size = program.latches) :
    program.guardedRun stage origin time latches =
      some (program.run stage origin time latches) := by
  unfold guardedRun run
  cases hs : program.stages[stage]? with
  | none => rfl
  | some s =>
    refine Effect.guardedAll_eq true time _ s.effects fun latch hl => ?_
    have hmem := (stage_latches h (List.mem_of_getElem? hs)).subset hl
    exact (List.mem_range.1 hmem).trans_eq hsize.symm

end Program

namespace Flight

variable {τ : Type} {f g : Flight α τ}

/-- What can become of a flight, whatever is done with its channel. -/
inductive Reaches (f : Flight α τ) : Flight α τ → Prop where
  | start : Reaches f f
  | update {g : Flight α τ} (h : Reaches f g) (origin : Vec α) (time : α) :
      Reaches f (g.update origin time).2.1
  | completeStage {g : Flight α τ} (h : Reaches f g) : Reaches f g.completeStage.2
  | retune {g : Flight α τ} (h : Reaches f g) (channel : Channel τ) : Reaches f { g with channel }

theorem Reaches.latches_size (h : f.Reaches g) (hf : f.latches.size = f.program.latches) :
    g.program = f.program ∧ g.latches.size = g.program.latches := by
  induction h with
  | start => exact ⟨rfl, hf⟩
  | update _ origin time ih => exact ⟨ih.1, (Program.run_size _ _ _ _ _).trans ih.2⟩
  | @completeStage g _ ih =>
    unfold Flight.completeStage
    split
    · exact ih
    · exact ⟨ih.1, by simp [Program.cleared]⟩
  | retune _ channel ih => exact ih

end Flight

/-- Whatever becomes of a flight, every latch that its program asks for is there. -/
def Program.InBounds (program : Program α) : Prop :=
  (∀ (τ : Type) (channel : Channel τ) (f : Flight α τ), (Flight.start program channel).Reaches f →
    ∀ origin time, f.program.guardedRun f.stage origin time f.latches =
      some (f.program.run f.stage origin time f.latches)) ∧
  ∀ stage origin time, program.guardedRun stage origin time program.cleared =
    some (program.run stage origin time program.cleared)

theorem Program.inBounds_of_numbered {program : Program α} (h : program.Numbered) :
    program.InBounds := by
  constructor
  · intro τ channel f hreach origin time
    have hcleared : (Flight.start program channel).latches.size = program.latches := by
      simp [Flight.start, Program.cleared]
    obtain ⟨hprogram, hsize⟩ := hreach.latches_size hcleared
    have hnumbered : f.program.Numbered := by
      rw [hprogram]
      exact h
    exact Program.guardedRun_eq hnumbered f.stage origin time hsize
  · intro stage origin time
    exact Program.guardedRun_eq h stage origin time (by simp [Program.cleared])

/-- The check of a trajectory finds its first problem, and what passes the check is compiled as it
stands. -/
theorem nested_trajectories_compile (tokens : List (Token α)) :
    (Token.checkNesting 0 tokens = .ok () ↔
      (∀ p, p <+: tokens → Token.closings p ≤ Token.openings p) ∧
        Token.openings tokens = Token.closings tokens ∧
        ∀ p name, p ++ [.stage name] <+: tokens → Token.openings p = Token.closings p) ∧
    (∀ earlier t later problem, tokens = earlier ++ t :: later → Token.Orderly earlier →
      Token.offence? earlier t = some problem → Token.checkNesting 0 tokens = .error problem) ∧
    (Token.Orderly tokens → Token.openings tokens ≠ Token.closings tokens →
      Token.checkNesting 0 tokens =
        .error (.blocksLeftOpen (Token.openings tokens - Token.closings tokens))) ∧
    (Token.checkNesting 0 tokens = .ok () → ∀ (setting : Setting α) (w : Words),
      (∀ p d w', p <+: tokens → p.foldlM (Draft.token setting) Draft.blank w = .ok (d, w') →
        (p ++ [.closing] <+: tokens → d.outer ≠ []) ∧ (p = tokens → d.outer = [])) ∧
      ((∃ t ∈ tokens, ∃ n ∈ t.numbers, ¬ n.Measured) ∧
          compile setting tokens w = .error .unboundedRange ∨
        ∃ program w', compile setting tokens w = .ok (program, w') ∧
          Mirrors setting tokens program ∧ program.InBounds)) := by
  refine ⟨?_, ?_, ?_, ?_⟩
  · rw [Token.checkNesting_ok_iff, Token.orderly_iff, and_assoc, and_congr_right_iff]
    exact fun _ => and_comm
  · rintro earlier t later problem rfl hearlier ht
    exact Token.checkNesting_of_offence hearlier ht
  · intro ho hne
    rw [Token.checkNesting_of_orderly ho, if_neg hne]
  · intro hnest setting w
    obtain ⟨ho, heq⟩ := Token.checkNesting_ok_iff.1 hnest
    constructor
    · intro p d w' hp hd
      have hreflects := reflects_of_ok (fun q t hq => ho q t (hq.trans hp)) hd
      constructor
      · intro hclosing
        refine hreflects.outer_ne_nil ?_
        by_contra hge
        have hoffence := ho p .closing hclosing
        simp [Token.offence?, hge] at hoffence
      · rintro rfl
        exact hreflects.outer_eq_nil heq.le
    · have hsure : (compile setting tokens).Sure (∀ t ∈ tokens, ∀ n ∈ t.numbers, n.Measured) :=
        compile_sure setting id
      rcases hsure w with ⟨⟨program, w'⟩, hok⟩ | ⟨hwide, hfault⟩
      · have hmirrors := mirrors_of_ok hnest hok
        exact Or.inr ⟨program, w', hok, hmirrors, Program.inBounds_of_numbered hmirrors.latches⟩
      · push Not at hwide
        exact Or.inl ⟨hwide, hfault⟩

def loopingBoss : List (Token Float32) :=
  [.shoot (.packed ⟨3⟩), .opening, .lasting (.random 1 2), .linear .left (.literal 20),
    .shoot (.packed ⟨5⟩), .closing, .stage "Gem", .after (.beats 1),
    .move (.literal 0.5) (.literal 0.5), .boss]

theorem looping_boss_compiles :
    Token.checkNesting 0 (Token.closing :: loopingBoss) = .error .unexpectedClose ∧
    Token.checkNesting 0 (loopingBoss ++ [.opening, .opening]) = .error (.blocksLeftOpen 2) ∧
    ∃ program w', compile ⟨120, ⟨320, 180⟩⟩ loopingBoss (Words.cycle #[]) = .ok (program, w') ∧
      program.stages.map Stage.reward = [some 'G', none] ∧ program.pieces.length = 6 ∧
      program.pieces.filterMap Piece.latch? = List.range program.latches ∧ program.InBounds := by
  have hnest : Token.checkNesting 0 loopingBoss = .ok () := rfl
  obtain ⟨-, hproblem, -, -⟩ := nested_trajectories_compile (Token.closing :: loopingBoss)
  obtain ⟨-, -, hopen, -⟩ := nested_trajectories_compile (loopingBoss ++ [.opening, .opening])
  obtain ⟨-, -, -, hcompile⟩ := nested_trajectories_compile loopingBoss
  have horderly : Token.Orderly loopingBoss := (Token.checkNesting_ok_iff.1 hnest).1
  refine ⟨hproblem [] _ _ _ rfl Token.orderly_nil rfl, ?_, ?_⟩
  · refine hopen ?_ (by decide)
    rw [List.append_cons, Token.orderly_snoc, Token.orderly_snoc]
    exact ⟨⟨horderly, rfl⟩, rfl⟩
  · obtain ⟨-, ⟨⟨t, ht, n, hn, hwide⟩, -⟩ | ⟨program, w', hok, hmirrors, hbounds⟩⟩ :=
      hcompile hnest ⟨120, ⟨320, 180⟩⟩ (Words.cycle #[])
    · have hmeasured : ∀ t ∈ loopingBoss, ∀ n ∈ t.numbers, n.Measured := by decide +kernel
      exact absurd (hmeasured t ht n hn) hwide
    · exact ⟨program, w', hok, hmirrors.rewards, hmirrors.pieces.length_eq.symm,
        hmirrors.latches, hbounds⟩

end Barrage.Trajectory
