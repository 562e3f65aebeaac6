import Barrage.Level.Event
import Barrage.Level.Pool
import Barrage.Trajectory.Compile

/-!
The level interpreter. A frame first runs the instructions whose wait is over, then the repeaters,
then the spawners, so that a group can spawn its first member in the frame that starts it. What was
due before the end of a frame is dated back by that much.
-/

namespace Barrage

open Level

structure Level (α : Type) where
  script : List (Script.Instruction α)
  /-- Index of the next instruction. -/
  next : Nat
  /-- Instructions below this index are skipped. -/
  gate : Nat
  /-- Time until the next instruction; below zero within a frame. -/
  wait : α
  waitingForClear : Bool
  clock : α
  tempo : α
  /-- Enemies spawned and not yet released by the host. -/
  live : Nat
  repeaters : List (Repeater α)
  spawners : List (Spawner α)
  words : Words

namespace Level

/-- What happens inside the interpreter. An offset is the part of the frame that passed before. -/
inductive Entry (α : Type) where
  | executed (index : Nat) (offset : α)
  | started (group : GroupId) (offset : α)

/-- A level after a frame or a part of it, what happened meanwhile, and what the host learns. -/
structure Frame (α : Type) where
  level : Level α
  journal : List (Entry α)
  events : List (Event α)

variable {α : Type}

def Frame.behind (journal : List (Entry α)) (events : List (Event α)) (f : Frame α) : Frame α :=
  { f with journal := journal ++ f.journal, events := events ++ f.events }

variable [Scalar α]

def start (script : List (Script.Instruction α)) (tempo : α) (words : Words) : Level α where
  script
  next := 0
  gate := 0
  wait := 0
  waitingForClear := false
  clock := 0
  tempo
  live := 0
  repeaters := []
  spawners := []
  words

def activeSchedulers (l : Level α) : Nat := l.spawners.length + l.repeaters.length

def isFinished (l : Level α) : Bool := l.script.length ≤ l.next && l.activeSchedulers == 0

def release (l : Level α) : Level α := { l with live := l.live - 1 }

def draw {β : Type} (l : Level α) (c : Chance β) : Except Fault (β × Level α) := do
  let (value, words) ← c.run l.words
  return (value, { l with words })

def resolve (l : Level α) (n : Number α) : Except Fault (α × Level α) := l.draw (n.resolve l.tempo)

/-- What a group draws when it starts: the time between its members, its trajectory and its
places. -/
def groupDraws (tempo : α) (world : Vec α) (group : Script.Group α) :
    Chance (α × Trajectory.Program α × List α) := do
  let window ← group.window.resolve tempo
  let program ← Trajectory.compile ⟨tempo, world⟩ group.trajectory
  let factors ← group.factors.mapM (Number.resolve tempo)
  return (Scalar.max window 0 / Scalar.ofNat group.members.length, program, factors)

/-- Opens a spawner for a group that starts `offset` into the frame. A group without members has
none. -/
def startGroup (l : Level α) (world : Vec α) (id : GroupId) (group : Script.Group α) (offset : α) :
    Except Fault (Level α) :=
  if group.members.isEmpty then return l
  else do
    let ((period, program, factors), l) ← l.draw (groupDraws l.tempo world group)
    let spawner : Spawner α :=
      { id, period, members := group.members, factors, side := group.side, program
        reward := group.reward, scheduler := Scheduler.ofDelay offset }
    return { l with spawners := l.spawners ++ [spawner] }

def execute (l : Level α) (world : Vec α) (index : Nat) (offset : α) :
    Script.Instruction α → Except Fault (Frame α)
  | .comment => return ⟨l, [], []⟩
  | .goto line => return ⟨{ l with gate := line - 1 }, [], []⟩
  | .goal kind count => return ⟨l, [], [.goal kind count]⟩
  | .background name => return ⟨l, [], [.background name]⟩
  | .renderMode mode stage => return ⟨l, [], [.renderMode mode stage]⟩
  | .playMusic path volume tempo => do
    let (volume, l) ← l.resolve volume
    let (tempo, l) ← l.resolve tempo
    let l := if 0 < tempo then { l with tempo } else l
    return ⟨l, [], [.playMusic ⟨path, volume, l.tempo⟩]⟩
  | .fadeMusic time => do
    let (time, l) ← l.resolve time
    return ⟨l, [], [.fadeMusic time]⟩
  | .tint red green blue => do
    let (red, l) ← l.resolve red
    let (green, l) ← l.resolve green
    let (blue, l) ← l.resolve blue
    return ⟨l, [], [.tint ⟨red, green, blue⟩]⟩
  | .text lines x y => do
    let (x, l) ← l.resolve x
    let (y, l) ← l.resolve y
    return ⟨l, [], [.text ⟨lines, x, y⟩]⟩
  | .spawn group => do
    let l ← l.startGroup world ⟨index, 0⟩ group offset
    return ⟨l, [.started ⟨index, 0⟩ offset], []⟩
  | .spawnRepeatedly gap total group => do
    let (gap, l) ← l.resolve gap
    let (total, l) ← l.resolve total
    let (window, l) ← l.resolve group.window
    let repeater : Repeater α :=
      { line := index, period := window + gap, total, group, scheduler := Scheduler.ofDelay offset }
    return ⟨{ l with repeaters := l.repeaters ++ [repeater] }, [], []⟩
  | .wait time => do
    let (time, l) ← l.resolve time
    return ⟨{ l with wait := l.wait + time }, [], []⟩
  | .waitUntilClear modulus => do
    let (modulus, l) ← l.resolve modulus
    return ⟨{ l with wait := modulus, waitingForClear := true }, [], []⟩
  | .finish => return ⟨l, [], [.finish]⟩

def runDue (world : Vec α) (dt : α) : List (Script.Instruction α) → Level α → Except Fault (Frame α)
  | [], l => return ⟨l, [], []⟩
  | instruction :: rest, l =>
    if l.wait ≤ 0 then
      let index := l.next
      let l := { l with next := index + 1 }
      if index < l.gate then runDue world dt rest l
      else do
        let offset ← Scalar.clamp (dt + l.wait) 0 dt
        let first ← l.execute world index offset instruction
        let journal := .executed index offset :: first.journal
        if first.level.waitingForClear then return { first with journal }
        else return (← runDue world dt rest first.level).behind journal first.events
    else return ⟨l, [], []⟩

def startDue (world : Vec α) (dt : α) :
    List (Due α) → Level α → Except Fault (Level α × List (Entry α))
  | [], l => return (l, [])
  | due :: rest, l => do
    let offset ← Scalar.clamp (dt - due.lag) 0 dt
    let l ← l.startGroup world due.id due.group offset
    let (l, journal) ← startDue world dt rest l
    return (l, .started due.id offset :: journal)

def advanceSchedulers (l : Level α) (world : Vec α) (dt : α) : Except Fault (Frame α) := do
  let (repeaters, due) := Repeater.updateAll dt l.repeaters
  let (l, journal) ← startDue world dt due { l with repeaters }
  let (spawners, requests) := Spawner.updateAll dt l.spawners
  return ⟨{ l with spawners, live := l.live + requests.length }, journal, requests.map .spawn⟩

/-- The next instruction falls on a multiple of the time that was waited for, by the level's
clock. -/
def rebase (l : Level α) : Level α :=
  { l with
    waitingForClear := false
    wait := if 0 < l.wait then l.wait - Scalar.remainder l.clock l.wait else l.wait }

/-- Advances a level by a frame. A frame without length changes nothing. -/
def update (l : Level α) (world : Vec α) (dt : α) : Except Fault (Frame α) :=
  if dt ≤ 0 then return ⟨l, [], []⟩
  else
    let l := { l with clock := l.clock + dt }
    if l.waitingForClear && 0 < l.live then l.advanceSchedulers world dt
    else do
      let l := if l.waitingForClear then l.rebase else { l with wait := l.wait - dt }
      let first ← runDue world dt (l.script.drop l.next) l
      return (← first.level.advanceSchedulers world dt).behind first.journal first.events

end Level

end Barrage
