import Barrage.Scalar

/-!
Repeating actions. A scheduler collects elapsed time and fires its action each time a delay has
passed; a generator gives the delay before each next firing, and the action says whether there is to
be one. Action and generator work on a context that the caller of an update supplies and gets back.
-/

namespace Barrage

/-- What an action learns about its firing. -/
structure Firing (α : Type) where
  /-- Firings are counted from one. -/
  count : Nat
  /-- Time collected toward this firing. -/
  inWindow : α
  /-- Time since the scheduler was made. -/
  total : α
  /-- How long before the end of the update the firing was due. -/
  lag : α
  deriving DecidableEq, Repr

structure Scheduler (α : Type) where
  delay : α
  window : α
  total : α
  count : Nat
  running : Bool
  deriving DecidableEq, Repr

/-- Generator and action of a scheduler over a context `σ`. The generator is asked with the number
of firings so far and the time left over from the last. -/
structure Rhythm (α σ : Type) where
  delay : Nat → α → σ → α × σ
  act : Firing α → σ → Bool × σ

namespace Scheduler

variable {α σ : Type} [Scalar α]

/-- A delay counts as passed when it is missed by no more than this. -/
@[inline]
def tolerance : α := 1 / 100000

/-- Firings in one update at most; what is due beyond them is left to the next updates. -/
def maxFirings : Nat := 1024

def ofDelay (delay : α) : Scheduler α := ⟨delay, 0, 0, 0, true⟩

/-- Without an initial delay the generator is asked for the first one. -/
def start (r : Rhythm α σ) (initial : Option α) (context : σ) : Scheduler α × σ :=
  match initial with
  | some delay => (ofDelay delay, context)
  | none =>
    let (delay, context) := r.delay 0 0 context
    (ofDelay delay, context)

@[inline]
def isDue (s : Scheduler α) : Bool :=
  Scalar.isFinite s.delay && decide (s.delay ≤ s.window + tolerance)

/-- One firing: the action, then the generator, with the delay taken out of the window. -/
@[specialize]
def fire (r : Rhythm α σ) (s : Scheduler α) (context : σ) : Scheduler α × σ :=
  let rest := Scalar.max (s.window - s.delay) 0
  let count := s.count + 1
  let (running, context) := r.act ⟨count, s.window, s.total, rest⟩ context
  let (delay, context) := r.delay count rest context
  (⟨delay, rest, s.total, count, running⟩, context)

@[specialize]
def fireDue (r : Rhythm α σ) : Nat → Scheduler α → σ → Scheduler α × σ
  | 0, s, context => (s, context)
  | bound + 1, s, context =>
    if s.isDue then
      let (s, context) := s.fire r context
      if s.running then fireDue r bound s context else (s, context)
    else (s, context)

/-- Advances by `dt`. A scheduler whose action has said to stop stands still from then on. -/
@[specialize]
def update (r : Rhythm α σ) (s : Scheduler α) (context : σ) (dt : α) : Scheduler α × σ :=
  if dt ≤ 0 || !s.running then (s, context)
  else fireDue r maxFirings { s with window := s.window + dt, total := s.total + dt } context

end Scheduler

end Barrage
