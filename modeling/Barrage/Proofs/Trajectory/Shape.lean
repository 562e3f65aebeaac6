import Barrage.Proofs.Measured
import Barrage.Proofs.Trajectory.Nesting
import Barrage.Trajectory.Compile

/-! # The shape of a compiled trajectory

A compilation walks through the tokens once and keeps the blocks that are open on a stack. Written
out again with a pair of brackets for every loop, what it has built so far is what the tokens so far
say, in their order. This holds of the draft after every token, so the statement about a program is
an induction over its tokens. -/

namespace Barrage.Trajectory

open Pattern (Packed)

variable {α : Type}

/-- What a program consists of when its loops are written as brackets. -/
inductive Piece (α : Type) where
  | opening
  | closing
  | motion (motion : Motion α)
  | shoot (pattern : Packed) (latch : ℕ)

def Piece.latch? : Piece α → Option ℕ
  | shoot _ latch => some latch
  | _ => none

mutual

def Effect.pieces : Effect α → List (Piece α)
  | .motion _ m => [.motion m]
  | .shoot _ pattern latch => [.shoot pattern latch]
  | .loop _ body _ => .opening :: Effect.piecesAll body ++ [.closing]

def Effect.piecesAll : List (Effect α) → List (Piece α)
  | [] => []
  | e :: rest => e.pieces ++ Effect.piecesAll rest

end

def Effect.latches (e : Effect α) : List ℕ := e.pieces.filterMap Piece.latch?

def Effect.latchesAll (effects : List (Effect α)) : List ℕ :=
  (Effect.piecesAll effects).filterMap Piece.latch?

def openPieces : List (Window α × List (Effect α)) → List (Piece α)
  | [] => []
  | block :: outer => openPieces outer ++ (Effect.piecesAll block.2 ++ [.opening])

def Draft.pieces (d : Draft α) : List (Piece α) :=
  d.stages.flatMap (fun s => Effect.piecesAll s.effects) ++
    (openPieces d.outer ++ Effect.piecesAll d.effects)

def Program.pieces (program : Program α) : List (Piece α) :=
  program.stages.flatMap fun s => Effect.piecesAll s.effects

@[simp] theorem Effect.piecesAll_nil : Effect.piecesAll ([] : List (Effect α)) = [] := by
  simp [Effect.piecesAll]

theorem Effect.piecesAll_append (first second : List (Effect α)) :
    Effect.piecesAll (first ++ second) = Effect.piecesAll first ++ Effect.piecesAll second := by
  induction first with
  | nil => simp [Effect.piecesAll]
  | cons e rest ih => simp [Effect.piecesAll, ih]

theorem Effect.piecesAll_singleton (e : Effect α) : Effect.piecesAll [e] = e.pieces := by
  simp [Effect.piecesAll]

@[simp] theorem Effect.latches_motion (window : Window α) (m : Motion α) :
    (Effect.motion window m).latches = [] := by
  simp [latches, pieces, Piece.latch?]

@[simp] theorem Effect.latches_shoot (window : Window α) (pattern : Packed) (latch : ℕ) :
    (Effect.shoot window pattern latch).latches = [latch] := by
  simp [latches, pieces, Piece.latch?]

@[simp] theorem Effect.latches_loop (window : Window α) (body : List (Effect α)) (period : α) :
    (Effect.loop window body period).latches = Effect.latchesAll body := by
  simp [latches, latchesAll, pieces, List.filterMap_cons, Piece.latch?]

@[simp] theorem Effect.latchesAll_nil : Effect.latchesAll ([] : List (Effect α)) = [] := by
  simp [latchesAll]

@[simp] theorem Effect.latchesAll_cons (e : Effect α) (rest : List (Effect α)) :
    Effect.latchesAll (e :: rest) = e.latches ++ Effect.latchesAll rest := by
  simp [latchesAll, latches, piecesAll]

theorem Effect.latchesAll_append (first second : List (Effect α)) :
    Effect.latchesAll (first ++ second) = Effect.latchesAll first ++ Effect.latchesAll second := by
  rw [latchesAll, Effect.piecesAll_append, List.filterMap_append]
  rfl

namespace Token

def hasPiece : Token α → Bool
  | opening | closing | linear .. | wave .. | move .. | shoot _ => true
  | after _ | cancelAfter _ | lasting _ | stage _ | boss => false

def reward? : Token α → Option (Option Char)
  | stage name => some name.toList.head?
  | _ => none

def isStage (t : Token α) : Bool := t.reward?.isSome

end Token

variable [Scalar α] {setting : Setting α} {d d' : Draft α} {t : Token α}

inductive Token.Yields (setting : Setting α) : Token α → Piece α → Prop where
  | opening : Yields setting .opening .opening
  | closing : Yields setting .closing .closing
  | linear {side : Side} {speed : Number α} {v : α} {w w' : Words}
      (hv : speed.resolve setting.tempo w = .ok (v, w')) :
      Yields setting (.linear side speed) (.motion (.linear side v))
  | wave {shape : Wave} {side : Side} {start speed amplitude : Number α} {a v h : α}
      {w w₁ w₂ w₃ : Words}
      (ha : start.resolve setting.tempo w = .ok (a, w₁))
      (hv : speed.resolve setting.tempo w₁ = .ok (v, w₂))
      (hh : amplitude.resolve setting.tempo w₂ = .ok (h, w₃)) :
      Yields setting (.wave shape side start speed amplitude) (.motion (.wave shape side a v h))
  | move {x y : Number α} {vx vy duration : α} {w w₁ w₂ : Words}
      (hx : x.resolve setting.tempo w = .ok (vx, w₁))
      (hy : y.resolve setting.tempo w₁ = .ok (vy, w₂)) :
      Yields setting (.move x y)
        (.motion (.move ⟨vx * setting.world.x, vy * setting.world.y⟩ duration))
  | shoot {pattern : Pattern.Notation} {latch : ℕ} : Yields setting (.shoot pattern)
      (.shoot pattern.compile latch)

/-! ## One token -/

inductive Draft.Step (setting : Setting α) (d : Draft α) : Token α → Draft α → Prop where
  | aside {t : Token α} {window : Window α} {boss : Bool} (hpiece : t.hasPiece = false)
      (hstage : t.reward? = none) : Step setting d t { d with window, boss }
  | opening : Step setting d .opening d.openBlock
  | closing : Step setting d .closing d.closeBlock
  | motion {t : Token α} {m : Motion α} (hm : t.Yields setting (.motion m)) :
      Step setting d t (d.add (.motion d.window m))
  | shoot (pattern : Pattern.Notation) : Step setting d (.shoot pattern) (d.shoot pattern.compile)
  | stage (name : String) : Step setting d (.stage name) (d.closeStage name.toList.head?)

theorem token_step {w w' : Words} (h : Draft.token setting d t w = .ok (d', w')) :
    Draft.Step setting d t d' := by
  cases t with
  | after time | cancelAfter time | lasting time =>
    obtain ⟨v, w₁, hv, h⟩ := draws_of_ok h
    obtain ⟨rfl, -⟩ := Prod.mk.inj (Except.ok.inj h)
    exact .aside rfl rfl
  | boss =>
    obtain ⟨rfl, -⟩ := Prod.mk.inj (Except.ok.inj h)
    exact .aside rfl rfl
  | opening =>
    obtain ⟨rfl, -⟩ := Prod.mk.inj (Except.ok.inj h)
    exact .opening
  | closing =>
    obtain ⟨rfl, -⟩ := Prod.mk.inj (Except.ok.inj h)
    exact .closing
  | linear side speed =>
    obtain ⟨v, w₁, hv, h⟩ := draws_of_ok h
    obtain ⟨rfl, -⟩ := Prod.mk.inj (Except.ok.inj h)
    exact .motion (.linear hv)
  | wave shape side start speed amplitude =>
    obtain ⟨a, w₁, ha, h⟩ := draws_of_ok h
    obtain ⟨v, w₂, hv, h⟩ := draws_of_ok h
    obtain ⟨b, w₃, hb, h⟩ := draws_of_ok h
    obtain ⟨rfl, -⟩ := Prod.mk.inj (Except.ok.inj h)
    exact .motion (.wave ha hv hb)
  | move x y =>
    obtain ⟨vx, w₁, hx, h⟩ := draws_of_ok h
    obtain ⟨vy, w₂, hy, h⟩ := draws_of_ok h
    obtain ⟨rfl, -⟩ := Prod.mk.inj (Except.ok.inj h)
    exact .motion (.move hx hy)
  | shoot pattern =>
    obtain ⟨rfl, -⟩ := Prod.mk.inj (Except.ok.inj h)
    exact .shoot pattern
  | stage name =>
    obtain ⟨rfl, -⟩ := Prod.mk.inj (Except.ok.inj h)
    exact .stage name

namespace Draft

omit [Scalar α] in
theorem pieces_add (d : Draft α) (e : Effect α) : (d.add e).pieces = d.pieces ++ e.pieces := by
  simp [pieces, add, Effect.piecesAll_append, Effect.piecesAll_singleton]

theorem pieces_openBlock (d : Draft α) : d.openBlock.pieces = d.pieces ++ [.opening] := by
  simp [pieces, openBlock, openPieces]

theorem pieces_closeBlock (h : d.outer ≠ []) : d.closeBlock.pieces = d.pieces ++ [.closing] := by
  obtain ⟨stages, effects, window, outer, latches, boss⟩ := d
  cases outer with
  | nil => exact absurd rfl h
  | cons block outer =>
    simp [pieces, closeBlock, openPieces, Effect.piecesAll_append, Effect.piecesAll_singleton,
      Effect.pieces]

theorem pieces_closeStage (h : d.outer = []) (reward : Option Char) :
    (d.closeStage reward).pieces = d.pieces := by
  simp [pieces, closeStage, h, openPieces]

theorem pieces_program (h : d.outer = []) : d.program.pieces = d.pieces := by
  simp [pieces, Program.pieces, program, closeStage, h, openPieces]

end Draft

structure Reflects (setting : Setting α) (tokens : List (Token α)) (d : Draft α) : Prop where
  depth : d.outer.length + Token.closings tokens = Token.openings tokens
  rewards : d.stages.map Stage.reward = tokens.filterMap Token.reward?
  pieces : List.Forall₂ (Token.Yields setting) (tokens.filter Token.hasPiece) d.pieces
  latches : d.pieces.filterMap Piece.latch? = List.range d.latches

namespace Reflects

variable {tokens : List (Token α)}

theorem blank (setting : Setting α) : Reflects setting [] (Draft.blank : Draft α) := by
  constructor <;> simp [Draft.blank, Draft.pieces, openPieces, Token.openings, Token.closings]

theorem outer_ne_nil (h : Reflects setting tokens d)
    (hlt : Token.closings tokens < Token.openings tokens) : d.outer ≠ [] := by
  intro hnil
  have hdepth := h.depth
  rw [hnil] at hdepth
  simp only [List.length_nil] at hdepth
  omega

theorem outer_eq_nil (h : Reflects setting tokens d)
    (hle : Token.openings tokens ≤ Token.closings tokens) : d.outer = [] := by
  have hdepth := h.depth
  exact List.length_eq_zero_iff.1 (by omega)

theorem leave {p : Piece α} (h : Reflects setting tokens d) (hpieces : d'.pieces = d.pieces ++ [p])
    (ht : t.Yields setting p) (hstages : d'.stages = d.stages)
    (hdepth : d'.outer.length + Token.closings (tokens ++ [t]) = Token.openings (tokens ++ [t]))
    (hlatches : d'.latches = d.latches + p.latch?.toList.length)
    (hlatch : ∀ latch, p.latch? = some latch → latch = d.latches) :
    Reflects setting (tokens ++ [t]) d' := by
  have hpiece : t.hasPiece = true := by cases ht <;> rfl
  have hreward : t.reward? = none := by cases ht <;> rfl
  refine ⟨hdepth, ?_, ?_, ?_⟩
  · simp [hstages, h.rewards, hreward]
  · rw [hpieces, List.filter_append, List.filter_cons_of_pos hpiece]
    exact List.rel_append h.pieces (.cons ht .nil)
  · rw [hpieces, List.filterMap_append, h.latches, hlatches]
    cases hp : p.latch? with
    | none => simp [hp]
    | some latch => simp [hp, hlatch latch hp, List.range_succ]

theorem step (h : Reflects setting tokens d) (ht : Token.offence? tokens t = none)
    (hstep : Draft.Step setting d t d') : Reflects setting (tokens ++ [t]) d' := by
  have hdepth := h.depth
  cases hstep with
  | aside hpiece hstage =>
    have hneither : Token.closings [t] = 0 ∧ Token.openings [t] = 0 := by
      cases t <;> first | exact ⟨rfl, rfl⟩ | cases hpiece
    refine ⟨?_, ?_, ?_, h.latches⟩
    · simp [hneither, hdepth]
    · simp [h.rewards, hstage]
    · rw [List.filter_append, List.filter_cons_of_neg (by simp [hpiece]), List.filter_nil,
        List.append_nil]
      exact h.pieces
  | opening =>
    refine h.leave (Draft.pieces_openBlock d) .opening rfl ?_ rfl (by simp [Piece.latch?])
    rw [Token.closings_append, Token.openings_append]
    change d.outer.length + 1 + (_ + 0) = _ + 1
    omega
  | closing =>
    have hlt : Token.closings tokens < Token.openings tokens := by
      by_contra hge
      simp [Token.offence?, hge] at ht
    have hne := h.outer_ne_nil hlt
    refine h.leave (Draft.pieces_closeBlock hne) .closing ?_ ?_ ?_ (by simp [Piece.latch?])
    all_goals obtain ⟨block, outer, houter⟩ := List.exists_cons_of_ne_nil hne
    · simp [Draft.closeBlock, houter]
    · rw [Token.closings_append, Token.openings_append]
      rw [houter] at hdepth
      simp only [Draft.closeBlock, houter]
      change outer.length + (_ + 1) = _ + 0
      simp only [List.length_cons] at hdepth
      omega
    · simp [Draft.closeBlock, houter, Piece.latch?]
  | motion hm =>
    refine h.leave (Draft.pieces_add d _) hm rfl ?_ rfl (by simp [Piece.latch?])
    have hneither : Token.closings [t] = 0 ∧ Token.openings [t] = 0 := by
      cases hm <;> exact ⟨rfl, rfl⟩
    simp [hneither, hdepth, Draft.add]
  | shoot pattern =>
    refine h.leave (Draft.pieces_add d _) .shoot rfl ?_ rfl (by simp [Piece.latch?])
    rw [Token.closings_append, Token.openings_append]
    exact hdepth
  | stage name =>
    have hnil : d.outer = [] := by
      refine h.outer_eq_nil ?_
      by_contra hlt
      simp [Token.offence?, Nat.lt_of_not_le hlt] at ht
    refine ⟨?_, ?_, ?_, ?_⟩
    · rw [Token.closings_append, Token.openings_append]
      exact hdepth
    · simp [Draft.closeStage, h.rewards, Token.reward?]
    · simpa [Draft.pieces_closeStage hnil, Token.hasPiece] using h.pieces
    · rw [Draft.pieces_closeStage hnil]
      exact h.latches

end Reflects

/-! ## All tokens -/

theorem reflects_of_ok {tokens : List (Token α)} {w w' : Words} (ho : Token.Orderly tokens)
    (h : tokens.foldlM (Draft.token setting) Draft.blank w = .ok (d, w')) :
    Reflects setting tokens d := by
  induction tokens using List.reverseRecOn generalizing d w' with
  | nil =>
    obtain ⟨rfl, -⟩ := Prod.mk.inj (Except.ok.inj h)
    exact .blank setting
  | append_singleton tokens t ih =>
    obtain ⟨ho, ht⟩ := Token.orderly_snoc.1 ho
    rw [List.foldlM_append] at h
    obtain ⟨d₁, w₁, hd, h⟩ := draws_of_ok h
    rw [List.foldlM_cons] at h
    obtain ⟨d₂, w₂, hd₂, h⟩ := draws_of_ok h
    obtain ⟨rfl, -⟩ := Prod.mk.inj (Except.ok.inj h)
    exact (ih ho hd).step ht (token_step hd₂)

structure Mirrors (setting : Setting α) (tokens : List (Token α)) (program : Program α) : Prop where
  stages : program.stages.length = tokens.countP Token.isStage + 1
  rewards : program.stages.map Stage.reward = tokens.filterMap Token.reward? ++ [none]
  pieces : List.Forall₂ (Token.Yields setting) (tokens.filter Token.hasPiece) program.pieces
  latches : program.pieces.filterMap Piece.latch? = List.range program.latches

theorem mirrors_of_ok {tokens : List (Token α)} {program : Program α} {w w' : Words}
    (hnest : Token.checkNesting 0 tokens = .ok ())
    (h : compile setting tokens w = .ok (program, w')) : Mirrors setting tokens program := by
  obtain ⟨ho, heq⟩ := Token.checkNesting_ok_iff.1 hnest
  obtain ⟨d, w₁, hd, h⟩ := draws_of_ok h
  obtain ⟨rfl, -⟩ := Prod.mk.inj (Except.ok.inj h)
  have hr := reflects_of_ok ho hd
  have hnil := hr.outer_eq_nil heq.le
  have hrewards : d.program.stages.map Stage.reward = tokens.filterMap Token.reward? ++ [none] := by
    simp [Draft.program, Draft.closeStage, hr.rewards]
  refine ⟨?_, hrewards, ?_, ?_⟩
  · have hlength := congrArg List.length hrewards
    rw [List.length_map, List.length_append, List.length_filterMap_eq_countP] at hlength
    exact hlength
  · rw [Draft.pieces_program hnil]
    exact hr.pieces
  · rw [Draft.pieces_program hnil]
    exact hr.latches

end Barrage.Trajectory
