import Barrage.Proofs.Measured
import Barrage.Proofs.Trajectory.Nesting
import Barrage.Scalar.Exact

/-! # Scopes

A compilation is one pass that keeps a window, and a stack of the windows that it will come back to.
The same trajectory can be read by its blocks: the window of a motion is a matter of what stands
before it in its own block or stage, and of nothing else. Here the two are shown to agree on every
trajectory whose blocks are closed. -/

namespace Barrage.Trajectory

open Pattern (Packed)

variable {α : Type}

/-! ## Trajectories by blocks -/

/-- A token whose numbers are known, and which is no parenthesis and ends no stage. -/
inductive Clause (α : Type) where
  | shift (time : α) (cancelling : Bool)
  | lasting (time : α)
  | motion (motion : Motion α)
  /-- A motion that takes as long as the window in which it stands. -/
  | move (target : Vec α)
  | shoot (pattern : Packed)
  | boss

inductive Mark (α : Type) where
  | clause (clause : Clause α)
  | opening
  | closing
  | stage (reward : Option Char)

inductive Passage (α : Type) where
  | clause (clause : Clause α)
  | block (body : List (Passage α))

/-- A trajectory by its stages. All but the last of them have a reward. -/
structure Outline (α : Type) where
  acts : List (List (Passage α) × Option Char)
  last : List (Passage α)

mutual

def Passage.marks : Passage α → List (Mark α)
  | .clause c => [.clause c]
  | .block body => .opening :: (Passage.marksAll body ++ [.closing])

def Passage.marksAll : List (Passage α) → List (Mark α)
  | [] => []
  | p :: rest => p.marks ++ Passage.marksAll rest

end

def Outline.marks (o : Outline α) : List (Mark α) :=
  o.acts.flatMap (fun act => Passage.marksAll act.1 ++ [.stage act.2]) ++ Passage.marksAll o.last

def Mark.isShoot : Mark α → Bool
  | clause (.shoot _) => true
  | _ => false

def Mark.isBoss : Mark α → Bool
  | clause .boss => true
  | _ => false

def Passage.shoots (p : Passage α) : ℕ := p.marks.countP Mark.isShoot

def Passage.shift? : Passage α → Option (α × Bool)
  | clause (.shift time cancelling) => some (time, cancelling)
  | _ => none

def Passage.lasting? : Passage α → Option α
  | clause (.lasting time) => some time
  | _ => none

variable [Scalar α]

/-- The window in force behind some passages of a block or stage. It begins after all the shifts
among them, and the last one says whether it cancels. Its end is set by the last duration behind
that shift. -/
def windowAfter (before : List (Passage α)) : Window α :=
  let shifts := before.filterMap Passage.shift?
  let start := shifts.foldl (fun time shift => time + shift.1) 0
  let durations := (before.rtakeWhile fun p => p.shift?.isNone).filterMap Passage.lasting?
  { start
    stop := match durations.getLast? with
      | some time => start + time
      | none => Scalar.infinity
    cancelling := (shifts.getLast?.map Prod.snd).getD false }

mutual

/-- The effect of a passage in its window, if it has one. The number of earlier pattern changes is
the latch of the next. -/
def Passage.effects (latch : ℕ) (w : Window α) : Passage α → List (Effect α)
  | .clause (.motion m) => [.motion w m]
  | .clause (.move target) => [.motion w (.move target (w.stop - w.start))]
  | .clause (.shoot pattern) => [.shoot w pattern latch]
  | .clause (.shift ..) | .clause (.lasting _) | .clause .boss => []
  | .block body => [.loop w (Passage.effectsFrom latch [] body) (windowAfter body).loopPeriod]

def Passage.effectsFrom (latch : ℕ) (before : List (Passage α)) : List (Passage α) → List (Effect α)
  | [] => []
  | p :: rest =>
    p.effects latch (windowAfter before) ++ Passage.effectsFrom (latch + p.shoots)
      (before ++ [p]) rest

end

def Outline.stages (last : List (Passage α)) (latch : ℕ) :
    List (List (Passage α) × Option Char) → List (Stage α)
  | [] => [⟨Passage.effectsFrom latch [] last, none⟩]
  | act :: acts =>
    ⟨Passage.effectsFrom latch [] act.1, act.2⟩ ::
      Outline.stages last (latch + (Passage.marksAll act.1).countP Mark.isShoot) acts

def Outline.program (o : Outline α) : Program α where
  stages := Outline.stages o.last 0 o.acts
  boss := o.marks.any Mark.isBoss
  latches := o.marks.countP Mark.isShoot

/-! ## The window in force -/

theorem windowAfter_shift (before : List (Passage α)) (time : α) (cancelling : Bool) :
    windowAfter (before ++ [.clause (.shift time cancelling)]) =
      ⟨(windowAfter before).start + time, Scalar.infinity, cancelling⟩ := by
  simp [windowAfter, Passage.shift?]

theorem windowAfter_lasting (before : List (Passage α)) (time : α) :
    windowAfter (before ++ [.clause (.lasting time)]) =
      { windowAfter before with stop := (windowAfter before).start + time } := by
  simp [windowAfter, List.filterMap_cons, Passage.shift?, Passage.lasting?]

theorem windowAfter_other (before : List (Passage α)) {p : Passage α} (hshift : p.shift? = none)
    (hlasting : p.lasting? = none) : windowAfter (before ++ [p]) = windowAfter before := by
  simp [windowAfter, hshift, hlasting]

/-! ## Numbers first -/

variable {setting : Setting α}

/-- Resolves the numbers of a token, from left to right. -/
def Token.settle (setting : Setting α) (t : Token α) : Chance (Mark α) :=
  let resolve (n : Number α) := n.resolve setting.tempo
  match t with
  | .after time => return .clause (.shift (← resolve time) false)
  | .cancelAfter time => return .clause (.shift (← resolve time) true)
  | .lasting time => return .clause (.lasting (← resolve time))
  | .opening => return .opening
  | .closing => return .closing
  | .linear side speed => return .clause (.motion (.linear side (← resolve speed)))
  | .wave shape side start speed amplitude => do
    let start ← resolve start
    let speed ← resolve speed
    let amplitude ← resolve amplitude
    return .clause (.motion (.wave shape side start speed amplitude))
  | .move x y => do
    let x ← resolve x
    let y ← resolve y
    return .clause (.move ⟨x * setting.world.x, y * setting.world.y⟩)
  | .shoot pattern => return .clause (.shoot pattern.compile)
  | .stage name => return .stage name.toList.head?
  | .boss => return .clause .boss

def Draft.place (d : Draft α) : Mark α → Draft α
  | .clause (.shift time cancelling) => d.shift time cancelling
  | .clause (.lasting time) => d.last time
  | .clause (.motion m) => d.add (.motion d.window m)
  | .clause (.move target) =>
    d.add (.motion d.window (.move target (d.window.stop - d.window.start)))
  | .clause (.shoot pattern) => d.shoot pattern
  | .clause .boss => { d with boss := true }
  | .opening => d.openBlock
  | .closing => d.closeBlock
  | .stage reward => d.closeStage reward

theorem token_eq (d : Draft α) (t : Token α) :
    Draft.token setting d t = t.settle setting >>= fun m => pure (d.place m) := by
  cases t <;> simp [Draft.token, Token.settle, Draft.place]

theorem foldlM_token (d : Draft α) (tokens : List (Token α)) :
    tokens.foldlM (Draft.token setting) d =
      tokens.mapM (Token.settle setting) >>= fun marks => pure (marks.foldl Draft.place d) := by
  induction tokens generalizing d with
  | nil => simp
  | cons t tokens ih => simp [token_eq, ih]

/-- A compilation may as well resolve all numbers first. -/
theorem compile_eq (tokens : List (Token α)) :
    compile setting tokens =
      tokens.mapM (Token.settle setting) >>= fun marks =>
        pure (marks.foldl Draft.place Draft.blank).program := by
  rw [compile, foldlM_token]
  simp

/-! ## One pass -/

mutual

/-- The pass over a passage adds its effects in the window in force, and goes on with the one behind
it. -/
theorem Draft.place_passage (d : Draft α) (before : List (Passage α))
    (hw : d.window = windowAfter before) : ∀ p : Passage α, p.marks.foldl Draft.place d =
      { d with
        effects := d.effects ++ p.effects d.latches d.window
        window := windowAfter (before ++ [p])
        latches := d.latches + p.shoots
        boss := d.boss || p.marks.any Mark.isBoss }
  | .clause c => by
    cases c with
    | shift time cancelling =>
      rw [windowAfter_shift, ← hw]
      simp [Passage.marks, Passage.effects, Passage.shoots, Draft.place, Draft.shift, Mark.isShoot,
        Mark.isBoss]
    | lasting time =>
      rw [windowAfter_lasting, ← hw]
      simp [Passage.marks, Passage.effects, Passage.shoots, Draft.place, Draft.last, Mark.isShoot,
        Mark.isBoss]
    | motion | move | shoot | boss =>
      rw [windowAfter_other before rfl rfl, ← hw]
      simp [Passage.marks, Passage.effects, Passage.shoots, Draft.place, Draft.add, Draft.shoot,
        Mark.isShoot, Mark.isBoss]
  | .block body => by
    -- the body begins with the whole window, and behind it comes back what was put aside
    have hbody := Draft.place_passages d.openBlock [] rfl body
    rw [windowAfter_other before rfl rfl, ← hw, Passage.marks, List.foldl_cons, List.foldl_append]
    change Draft.closeBlock ((Passage.marksAll body).foldl Draft.place d.openBlock) = _
    rw [hbody]
    simp [Passage.effects, Passage.shoots, Passage.marks, Draft.openBlock, Draft.closeBlock,
      Mark.isShoot, Mark.isBoss]

theorem Draft.place_passages (d : Draft α) (before : List (Passage α))
    (hw : d.window = windowAfter before) :
    ∀ passages : List (Passage α), (Passage.marksAll passages).foldl Draft.place d =
      { d with
        effects := d.effects ++ Passage.effectsFrom d.latches before passages
        window := windowAfter (before ++ passages)
        latches := d.latches + (Passage.marksAll passages).countP Mark.isShoot
        boss := d.boss || (Passage.marksAll passages).any Mark.isBoss }
  | [] => by simp [Passage.marksAll, Passage.effectsFrom, ← hw]
  | p :: rest => by
    rw [Passage.marksAll, List.foldl_append, Draft.place_passage d before hw p,
      Draft.place_passages _ (before ++ [p]) rfl rest]
    simp [Passage.effectsFrom, Passage.shoots, hw, Nat.add_assoc, Bool.or_assoc]

end

theorem Draft.place_outline (d : Draft α) (hw : d.window = Window.whole) (heffects : d.effects = [])
    (o : Outline α) : (o.marks.foldl Draft.place d).program =
      ⟨d.stages ++ Outline.stages o.last d.latches o.acts, d.boss || o.marks.any Mark.isBoss,
        d.latches + o.marks.countP Mark.isShoot⟩ := by
  obtain ⟨acts, last⟩ := o
  induction acts generalizing d with
  | nil =>
    have hmarks : Outline.marks ⟨[], last⟩ = Passage.marksAll last := rfl
    rw [hmarks, Draft.place_passages d [] hw]
    simp [Draft.program, Draft.closeStage, Outline.stages, heffects]
  | cons act acts ih =>
    have hmarks : Outline.marks ⟨act :: acts, last⟩ =
        Passage.marksAll act.1 ++ .stage act.2 :: Outline.marks ⟨acts, last⟩ := by
      simp [Outline.marks]
    rw [hmarks, List.foldl_append, List.foldl_cons, Draft.place_passages d [] hw, Draft.place,
      ih _ rfl rfl]
    simp [Draft.closeStage, Outline.stages, heffects, Mark.isShoot, Mark.isBoss, Nat.add_assoc,
      Bool.or_assoc]

theorem place_blank (o : Outline α) :
    (o.marks.foldl Draft.place Draft.blank).program = o.program := by
  have hblank := Draft.place_outline Draft.blank rfl rfl o
  simpa [Draft.blank, Outline.program] using hblank

/-! ## Every trajectory has an outline -/

inductive Token.Settles : Token α → Mark α → Prop where
  | opening : Settles .opening .opening
  | closing : Settles .closing .closing
  | stage (name : String) (reward : Option Char) : Settles (.stage name) (.stage reward)
  | clause {t : Token α} (c : Clause α)
      (h : ∀ depth rest, Token.checkNesting depth (t :: rest) = Token.checkNesting depth rest) :
      Settles t (.clause c)

theorem settles_of_ok {t : Token α} {m : Mark α} {w w' : Words}
    (h : t.settle setting w = .ok (m, w')) : t.Settles m := by
  cases t with
  | opening =>
    obtain ⟨rfl, -⟩ := Prod.mk.inj (Except.ok.inj h)
    exact .opening
  | closing =>
    obtain ⟨rfl, -⟩ := Prod.mk.inj (Except.ok.inj h)
    exact .closing
  | stage name =>
    obtain ⟨rfl, -⟩ := Prod.mk.inj (Except.ok.inj h)
    exact .stage name _
  | after time | cancelAfter time | lasting time | linear side speed =>
    obtain ⟨v, w₁, -, h⟩ := draws_of_ok h
    obtain ⟨rfl, -⟩ := Prod.mk.inj (Except.ok.inj h)
    exact .clause _ fun depth rest => by cases depth <;> rfl
  | wave shape side start speed amplitude =>
    obtain ⟨a, w₁, -, h⟩ := draws_of_ok h
    obtain ⟨v, w₂, -, h⟩ := draws_of_ok h
    obtain ⟨b, w₃, -, h⟩ := draws_of_ok h
    obtain ⟨rfl, -⟩ := Prod.mk.inj (Except.ok.inj h)
    exact .clause _ fun depth rest => by cases depth <;> rfl
  | move x y =>
    obtain ⟨vx, w₁, -, h⟩ := draws_of_ok h
    obtain ⟨vy, w₂, -, h⟩ := draws_of_ok h
    obtain ⟨rfl, -⟩ := Prod.mk.inj (Except.ok.inj h)
    exact .clause _ fun depth rest => by cases depth <;> rfl
  | shoot | boss =>
    obtain ⟨rfl, -⟩ := Prod.mk.inj (Except.ok.inj h)
    exact .clause _ fun depth rest => by cases depth <;> rfl

/-- What is still to come of the blocks that are open, from the innermost outward. -/
def remainders (opened : List (List (Passage α))) : List (Mark α) :=
  opened.flatMap fun body => Passage.marksAll body ++ [.closing]

omit [Scalar α] in
/-- One more passage in front belongs to the innermost block that is open, or else to the stage. -/
theorem exists_prepend (p : Passage α) (opened : List (List (Passage α))) (o : Outline α) :
    ∃ (opened' : List (List (Passage α))) (o' : Outline α), opened'.length = opened.length ∧
      p.marks ++ (remainders opened ++ o.marks) = remainders opened' ++ o'.marks := by
  cases opened with
  | cons body outer => exact ⟨(p :: body) :: outer, o, rfl, by simp [remainders, Passage.marksAll]⟩
  | nil =>
    obtain ⟨acts, last⟩ := o
    cases acts with
    | nil => exact ⟨[], ⟨[], p :: last⟩, rfl, by simp [remainders, Outline.marks, Passage.marksAll]⟩
    | cons act acts =>
      exact ⟨[], ⟨(p :: act.1, act.2) :: acts, last⟩, rfl,
        by simp [remainders, Outline.marks, Passage.marksAll]⟩

omit [Scalar α] in
/-- From inside of some blocks, what is well nested first closes these and then has an outline. -/
theorem exists_outline {depth : ℕ} {tokens : List (Token α)} {marks : List (Mark α)}
    (hmarks : List.Forall₂ Token.Settles tokens marks)
    (hnest : Token.checkNesting depth tokens = .ok ()) :
    ∃ (opened : List (List (Passage α))) (o : Outline α), opened.length = depth ∧
      marks = remainders opened ++ o.marks := by
  induction hmarks generalizing depth with
  | nil =>
    have hdepth : depth = 0 := by
      by_contra hne
      simp [Token.checkNesting, hne] at hnest
    exact ⟨[], ⟨[], []⟩, hdepth.symm, rfl⟩
  | cons ht hrest ih =>
    cases ht with
    | opening =>
      rw [Token.checkNesting] at hnest
      obtain ⟨opened, o, hlength, rfl⟩ := ih hnest
      -- the innermost block that is open behind the parenthesis becomes a passage before it
      obtain ⟨body, outer, rfl⟩ := List.exists_cons_of_length_eq_add_one hlength
      obtain ⟨opened, o', hsame, hmarks⟩ := exists_prepend (.block body) outer o
      refine ⟨opened, o', hsame.trans (Nat.succ.inj hlength), ?_⟩
      rw [← hmarks]
      simp [remainders, Passage.marks]
    | closing =>
      cases depth with
      | zero => cases hnest
      | succ depth =>
        rw [Token.checkNesting] at hnest
        obtain ⟨opened, o, hlength, rfl⟩ := ih hnest
        exact ⟨[] :: opened, o, congrArg Nat.succ hlength, by simp [remainders, Passage.marksAll]⟩
    | stage name reward =>
      have hdepth : depth = 0 := by
        by_contra hne
        simp [Token.checkNesting, hne] at hnest
      subst hdepth
      rw [Token.checkNesting, if_pos rfl] at hnest
      obtain ⟨opened, o, hlength, rfl⟩ := ih hnest
      obtain rfl := List.length_eq_zero_iff.1 hlength
      exact ⟨[], ⟨([], reward) :: o.acts, o.last⟩, rfl,
        by simp [remainders, Outline.marks, Passage.marksAll]⟩
    | clause c hpasses =>
      rw [hpasses] at hnest
      obtain ⟨opened, o, hlength, rfl⟩ := ih hnest
      obtain ⟨opened', o', hsame, hmarks⟩ := exists_prepend (.clause c) opened o
      exact ⟨opened', o', hsame.trans hlength, by rw [← hmarks]; rfl⟩

/-! ## The main statement -/

def draws {β : Type} (c : Chance β) : Chance Unit := (fun _ => ()) <$> c

theorem draws_settle (t : Token α) :
    draws (t.settle setting) = draws (t.numbers.mapM (Number.resolve setting.tempo)) := by
  cases t <;> simp [draws, Token.settle, Token.numbers]

theorem draws_mapM_settle (tokens : List (Token α)) :
    draws (tokens.mapM (Token.settle setting)) =
      draws ((tokens.flatMap Token.numbers).mapM (Number.resolve setting.tempo)) := by
  have hthen : ∀ {β γ δ : Type} (c : Chance β) (d : Chance γ) (f : β → γ → δ),
      draws (c >>= fun b => d >>= fun e => pure (f b e)) = draws c >>= fun _ => draws d := by
    intro β γ δ c d f
    simp [draws]
  induction tokens with
  | nil => simp [draws]
  | cons t tokens ih =>
    rw [List.flatMap_cons, List.mapM_append, List.mapM_cons, hthen, hthen, draws_settle, ih]

/-- A trajectory whose blocks are closed means what it says by its blocks: the window of every
effect is the one in force where it stands in its own block or stage, and a loop runs as long as the
last window of its body. Each number is resolved once, in the order of the tokens, and where one
cannot be, the compilation fails with it. -/
theorem trajectories_are_read_by_scope {tokens : List (Token α)}
    (hnest : Token.checkNesting 0 tokens = .ok ()) (setting : Setting α) :
    draws (tokens.mapM (Token.settle setting)) =
      draws ((tokens.flatMap Token.numbers).mapM (Number.resolve setting.tempo)) ∧
    ∀ w, (∃ fault, tokens.mapM (Token.settle setting) w = .error fault ∧
      compile setting tokens w = .error fault) ∨
      ∃ marks w', tokens.mapM (Token.settle setting) w = .ok (marks, w') ∧
        (∃ o : Outline α, o.marks = marks) ∧
        ∀ o : Outline α, o.marks = marks → compile setting tokens w = .ok (o.program, w') := by
  refine ⟨draws_mapM_settle tokens, fun w => ?_⟩
  have hcompile : compile setting tokens w =
      tokens.mapM (Token.settle setting) w >>= fun p =>
      .ok ((p.1.foldl Draft.place Draft.blank).program, p.2) :=
    congrFun (compile_eq tokens) w
  cases hsettle : tokens.mapM (Token.settle setting) w with
  | error fault => exact Or.inl ⟨fault, rfl, by rw [hcompile, hsettle]; rfl⟩
  | ok result =>
    obtain ⟨marks, w'⟩ := result
    refine Or.inr ⟨marks, w', rfl, ?_, ?_⟩
    · have hmarks : List.Forall₂ Token.Settles tokens marks :=
        draws_mapM (R := Token.Settles) (fun _ _ _ _ h => settles_of_ok h) hsettle
      obtain ⟨opened, o, hnone, rfl⟩ := exists_outline hmarks hnest
      obtain rfl := List.length_eq_zero_iff.1 hnone
      exact ⟨o, rfl⟩
    · rintro o rfl
      rw [hcompile, hsettle, ← place_blank o]
      rfl

def loopBetweenShifts : List (Token Exact) :=
  [.after (.literal 1), .lasting (.literal 2), .opening, .cancelAfter (.beats 4),
    .linear .left (.literal 20), .lasting (.literal 3), .closing, .shoot (.packed ⟨3⟩),
    .after (.literal 4), .move (.literal 0) (.literal 1)]

def loopBetweenShiftsOutline : Outline Exact :=
  ⟨[], [.clause (.shift 1 false), .clause (.lasting 2),
    .block [.clause (.shift (4 * Number.secondsPerBeat 120) true),
      .clause (.motion (.linear .left 20)), .clause (.lasting 3)],
    .clause (.shoot ⟨3⟩), .clause (.shift 4 false), .clause (.move ⟨0 * 320, 1 * 180⟩)]⟩

def loopBetweenShiftsProgram : Program Exact :=
  let beats : Exact := 4 * Number.secondsPerBeat 120
  ⟨[⟨[.loop ⟨0 + 1, 0 + 1 + 2, false⟩ [.motion ⟨0 + beats, Scalar.infinity, true⟩
        (.linear .left 20)] (Window.loopPeriod ⟨0 + beats, 0 + beats + 3, true⟩),
      .shoot ⟨0 + 1, 0 + 1 + 2, false⟩ ⟨3⟩ 0,
      .motion ⟨0 + 1 + 4, Scalar.infinity, false⟩
        (.move ⟨0 * 320, 1 * 180⟩ (Scalar.infinity - (0 + 1 + 4)))], none⟩],
    false, 1⟩

theorem loop_between_shifts_is_read :
    Token.checkNesting 0 loopBetweenShifts = .ok () ∧
    compile ⟨120, ⟨320, 180⟩⟩ loopBetweenShifts (Words.cycle #[]) =
      .ok (loopBetweenShiftsProgram, Words.cycle #[]) := by
  have hnest : Token.checkNesting 0 loopBetweenShifts = .ok () := rfl
  have hsettle : loopBetweenShifts.mapM (Token.settle ⟨120, ⟨320, 180⟩⟩) (Words.cycle #[]) =
      .ok (loopBetweenShiftsOutline.marks, Words.cycle #[]) := rfl
  have hprogram : loopBetweenShiftsOutline.program = loopBetweenShiftsProgram := rfl
  refine ⟨hnest, ?_⟩
  obtain ⟨-, hread⟩ := trajectories_are_read_by_scope hnest ⟨120, ⟨320, 180⟩⟩
  rcases hread (Words.cycle #[]) with ⟨fault, hfault, -⟩ | ⟨marks, w', hmarks, -, hall⟩
  · rw [hsettle] at hfault
    cases hfault
  · rw [hsettle] at hmarks
    obtain ⟨rfl, rfl⟩ := Prod.mk.inj (Except.ok.inj hmarks)
    rw [hall loopBetweenShiftsOutline rfl, hprogram]

end Barrage.Trajectory
