import Barrage.Proofs.Firing
import Barrage.Proofs.Level.Run

/-! # Other line numbers

A line number is a name for the groups that the line starts, and says where a level stands in its
script. Nothing is decided by it, so a level that stands elsewhere in another script, and knows its
groups by other names, goes through the same steps. -/

namespace Barrage.Level

open Script (Instruction)

variable {α : Type}

section Names

variable (number : ℕ → ℕ)

def GroupId.renumber (id : GroupId) : GroupId := { id with line := number id.line }

def SpawnRequest.renumber (q : SpawnRequest α) : SpawnRequest α :=
  { q with group := q.group.renumber number }

def Event.renumber : Event α → Event α
  | .spawn request => .spawn (request.renumber number)
  | event => event

def Entry.renumber : Entry α → Entry α
  | .executed index offset => .executed (number index) offset
  | .started id offset => .started (id.renumber number) offset

def Due.renumber (d : Due α) : Due α := { d with id := d.id.renumber number }

def Repeater.renumber (r : Repeater α) : Repeater α := { r with line := number r.line }

def Spawner.renumber (s : Spawner α) : Spawner α := { s with id := s.id.renumber number }

/-- The level at another place of another script. -/
def transcribe (script : List (Instruction α)) (next : ℕ) (l : Level α) : Level α :=
  { l with
    script, next
    repeaters := l.repeaters.map (Repeater.renumber number)
    spawners := l.spawners.map (Spawner.renumber number) }

def Frame.transcribe (script : List (Instruction α)) (next : ℕ) (f : Frame α) : Frame α :=
  ⟨f.level.transcribe number script next, f.journal.map (Entry.renumber number),
    f.events.map (Event.renumber number)⟩

end Names

variable [Scalar α] {number : ℕ → ℕ} {script : List (Instruction α)} {next : ℕ} {l : Level α}
    {world : Vec α} {dt : α}

/-! ## Schedulers -/

theorem Repeater.rhythm_mirrors (number : ℕ → ℕ) (r : Repeater α) :
    r.rhythm.Mirrors (Array.map (Due.renumber number)) (r.renumber number).rhythm := by
  refine ⟨fun _ _ _ => rfl, fun firing due => ?_⟩
  simp only [rhythm, Array.map_push]
  rfl

theorem Repeater.update_renumber (number : ℕ → ℕ) (r : Repeater α) (dt : α) :
    (r.renumber number).update dt =
      ((r.update dt).1.renumber number, (r.update dt).2.map (Due.renumber number)) := by
  have hsame := Scheduler.update_mirrors (r.rhythm_mirrors number) r.scheduler #[] dt
  rw [Array.map_empty] at hsame
  have hscheduler : (r.renumber number).scheduler = r.scheduler := rfl
  simp only [update]
  rw [hscheduler, hsame, Array.toList_map]
  rfl

theorem Repeater.updateAll_renumber (number : ℕ → ℕ) (dt : α) (repeaters : List (Repeater α)) :
    updateAll dt (repeaters.map (renumber number)) =
      ((updateAll dt repeaters).1.map (renumber number),
        (updateAll dt repeaters).2.map (Due.renumber number)) := by
  induction repeaters with
  | nil => rfl
  | cons r rest ih =>
    have hgoes : ((r.update dt).1.renumber number).scheduler.running =
      (r.update dt).1.scheduler.running := rfl
    simp only [List.map_cons, updateAll, update_renumber, ih, List.map_append, hgoes]
    split <;> rfl

theorem Spawner.request_renumber (number : ℕ → ℕ) (s : Spawner α) (index : ℕ) (m : Script.Member) :
    (s.renumber number).request index m = (s.request index m).renumber number := rfl

theorem Spawner.rhythm_mirrors (number : ℕ → ℕ) (s : Spawner α) :
    s.rhythm.Mirrors (Array.map (SpawnRequest.renumber number)) (s.renumber number).rhythm := by
  refine ⟨fun _ _ _ => rfl, fun firing spawned => ?_⟩
  have hmembers : (s.renumber number).members = s.members := rfl
  simp only [rhythm, hmembers, request_renumber]
  cases s.members[firing.count - 1]? with
  | none => rfl
  | some member => simp

theorem Spawner.update_renumber (number : ℕ → ℕ) (s : Spawner α) (dt : α) :
    (s.renumber number).update dt =
      ((s.update dt).1.renumber number, (s.update dt).2.map (SpawnRequest.renumber number)) := by
  have hsame := Scheduler.update_mirrors (s.rhythm_mirrors number) s.scheduler #[] dt
  rw [Array.map_empty] at hsame
  have hscheduler : (s.renumber number).scheduler = s.scheduler := rfl
  simp only [update]
  rw [hscheduler, hsame, Array.toList_map]
  rfl

theorem Spawner.updateAll_renumber (number : ℕ → ℕ) (dt : α) (spawners : List (Spawner α)) :
    updateAll dt (spawners.map (renumber number)) =
      ((updateAll dt spawners).1.map (renumber number),
        (updateAll dt spawners).2.map (SpawnRequest.renumber number)) := by
  induction spawners with
  | nil => rfl
  | cons s rest ih =>
    have hgoes : ((s.update dt).1.renumber number).scheduler.running =
      (s.update dt).1.scheduler.running := rfl
    simp only [List.map_cons, updateAll, update_renumber, ih, List.map_append, hgoes]
    split <;> rfl

/-! ## Levels -/

omit [Scalar α] in
theorem draw_transcribe {β : Type} (l : Level α) (c : Chance β) :
    (l.transcribe number script next).draw c =
      (fun p => (p.1, p.2.transcribe number script next)) <$> l.draw c := by
  unfold draw
  rw [map_bind]
  rfl

theorem resolve_transcribe (l : Level α) (n : Number α) :
    (l.transcribe number script next).resolve n =
      (fun p => (p.1, p.2.transcribe number script next)) <$> l.resolve n := draw_transcribe l _

theorem startGroup_transcribe (l : Level α) (world : Vec α) (id : GroupId) (group : Script.Group α)
    (offset : α) :
    (l.transcribe number script next).startGroup world (id.renumber number) group offset =
      (·.transcribe number script next) <$> l.startGroup world id group offset := by
  unfold startGroup
  split
  · rfl
  · rw [draw_transcribe, map_bind, bind_map_left]
    refine congrArg (l.draw (groupDraws l.tempo world group) >>= ·) (funext fun p => ?_)
    simp [transcribe, Spawner.renumber]

theorem startDue_transcribe (world : Vec α) (dt : α) (due : List (Due α)) (l : Level α) :
    startDue world dt (due.map (Due.renumber number)) (l.transcribe number script next) =
      (fun p => (p.1.transcribe number script next, p.2.map (Entry.renumber number))) <$> startDue
        world dt due l := by
  induction due generalizing l with
  | nil => rfl
  | cons d rest ih =>
    have hid : (d.renumber number).id = d.id.renumber number := rfl
    simp only [List.map_cons, startDue, hid, startGroup_transcribe, ih, map_bind,
      bind_map_left, map_pure]
    rfl

theorem advance_transcribe (l : Level α) (world : Vec α) (dt : α) :
    (l.transcribe number script next).advanceSchedulers world dt =
      Frame.transcribe number script next <$> l.advanceSchedulers world dt := by
  have hrepeaters : (l.transcribe number script next).repeaters =
      l.repeaters.map (Repeater.renumber number) := rfl
  have hlevel : ∀ repeaters : List (Repeater α),
      { l.transcribe number script next with
          repeaters := repeaters.map (Repeater.renumber number) } =
        ({ l with repeaters }).transcribe number script next := fun _ => rfl
  simp only [advanceSchedulers, hrepeaters, Repeater.updateAll_renumber, hlevel,
    startDue_transcribe, map_bind, bind_map_left, map_pure]
  refine congrArg (_ >>= ·) (funext fun p => ?_)
  have hspawners : (p.1.transcribe number script next).spawners =
      p.1.spawners.map (Spawner.renumber number) := rfl
  have hevents : ∀ requests : List (SpawnRequest α),
      (requests.map (SpawnRequest.renumber number)).map Event.spawn =
      (requests.map Event.spawn).map (Event.renumber number) := by
    intro requests
    rw [List.map_map, List.map_map]
    rfl
  simp only [hspawners, Spawner.updateAll_renumber, hevents, List.length_map]
  rfl

/-- A step over one instruction, if it is not a jump. -/
theorem execute_transcribe (l : Level α) (world : Vec α) (index : ℕ) (offset : α)
    (i : Instruction α) (hstays : ∀ line, i ≠ .goto line) :
    (l.transcribe number script next).execute world (number index) offset i =
      Frame.transcribe number script next <$> l.execute world index offset i := by
  have hfirst : (⟨number index, 0⟩ : GroupId) = GroupId.renumber number ⟨index, 0⟩ := rfl
  cases i with
  | goto line => exact absurd rfl (hstays line)
  | comment | goal | background | renderMode | finish => rfl
  | playMusic path volume tempo =>
    simp only [execute, resolve_transcribe, map_bind, bind_map_left, map_pure]
    refine congrArg (_ >>= ·) (funext fun v => congrArg (_ >>= ·) (funext fun t => ?_))
    split <;> rfl
  | spawn group =>
    simp only [execute, hfirst, startGroup_transcribe, map_bind, bind_map_left, map_pure]
    rfl
  | spawnRepeatedly gap total group =>
    simp only [execute, resolve_transcribe, map_bind, bind_map_left, map_pure]
    refine congrArg (_ >>= ·) (funext fun g => congrArg (_ >>= ·) (funext fun t => ?_))
    refine congrArg (_ >>= ·) (funext fun w => ?_)
    simp [transcribe, Frame.transcribe, Repeater.renumber]
  | fadeMusic | tint | text | wait | waitUntilClear =>
    simp only [execute, resolve_transcribe, map_bind, bind_map_left, map_pure]
    rfl

end Barrage.Level
