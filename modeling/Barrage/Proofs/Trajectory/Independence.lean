import Barrage.Proofs.Channel
import Barrage.Proofs.Trajectory.Structure
import Barrage.Scalar.Exact

/-! # Flights without a history

The effects of a stage work on a position and on latches in one go, and never on one by way of the
other. Where they take an actor can be told without the latches, and what they announce without the
position. So an actor is where its program, stage, spawn point and time put it, by whatever updates
it came there, and all the actors of a program announce the same. -/

namespace Barrage.Trajectory

open Pattern (Packed)

variable {α : Type} [Scalar α] [Elementary α]

/-! ## Travel -/

mutual

def Effect.travel (time : α) (here : Vec α) : Effect α → Vec α
  | .motion window m =>
    match window.localTime time with
    | none => here
    | some t => m.displace t here
  | .shoot .. => here
  | .loop window body period =>
    match window.localTime time with
    | none => here
    | some t =>
      if Scalar.isFinite period then
        let passes := Scalar.truncate maxPasses (t / period)
        let here := Nat.repeat (fun here => Effect.travelAll period here body) passes here
        Effect.travelAll (t - Scalar.ofNat passes * period) here body
      else Effect.travelAll t here body

def Effect.travelAll (time : α) (here : Vec α) : List (Effect α) → Vec α
  | [] => here
  | e :: rest => Effect.travelAll time (Effect.travel time here e) rest

end

omit [Scalar α] [Elementary α] in
theorem repeat_map {β γ : Type} {φ : β → γ} {f : β → β} {g : γ → γ} (h : ∀ b, φ (f b) = g (φ b))
    (n : ℕ) (b : β) : φ (Nat.repeat f n b) = Nat.repeat g n (φ b) := by
  induction n with
  | zero => rfl
  | succ n ih =>
    change φ (f (Nat.repeat f n b)) = g (Nat.repeat g n (φ b))
    rw [h, ih]

mutual

theorem Effect.apply_position (live : Bool) (time : α) (p : Progress α) :
    ∀ e : Effect α, (Effect.apply live time p e).position = Effect.travel time p.position e
  | .motion window m => by
    unfold Effect.apply Effect.travel
    cases window.localTime time <;> rfl
  | .shoot window pattern latch => by
    unfold Effect.apply Effect.travel Progress.change
    split_ifs <;> rfl
  | .loop window body period => by
    unfold Effect.apply Effect.travel
    cases window.localTime time with
    | none => rfl
    | some t =>
      dsimp only
      split
      · rw [Effect.applyAll_position,
          repeat_map (g := fun here => Effect.travelAll period here body)
          fun p => Effect.applyAll_position false period p body]
      · exact Effect.applyAll_position live t p body

theorem Effect.applyAll_position (live : Bool) (time : α) (p : Progress α) :
    ∀ effects : List (Effect α),
      (Effect.applyAll live time p effects).position = Effect.travelAll time p.position effects
  | [] => rfl
  | e :: rest => by
    rw [Effect.applyAll, Effect.travelAll, Effect.applyAll_position live time _ rest,
      Effect.apply_position]

end

/-! ## Announcements -/

omit [Scalar α] [Elementary α] in
theorem Progress.Moved.symm {p q : Progress α} (h : p.Moved q) : q.Moved p := ⟨h.1.symm, h.2.symm⟩

omit [Elementary α] in
theorem Progress.Moved.change {p q : Progress α} (h : p.Moved q) (w : Window α)
    (pattern : Packed) (latch : ℕ) (time : α) :
    (p.change w pattern latch time).Moved (q.change w pattern latch time) := by
  obtain ⟨position, latches, announced⟩ := q
  obtain ⟨rfl, rfl⟩ := h
  unfold Progress.change
  split_ifs <;> exact ⟨rfl, rfl⟩

mutual

theorem Effect.apply_moved (live : Bool) (time : α) {p q : Progress α} (h : p.Moved q) :
    ∀ e : Effect α, (Effect.apply live time p e).Moved (Effect.apply live time q e)
  | .motion window m => by
    unfold Effect.apply
    split
    · exact h
    · exact h
  | .shoot window pattern latch => by
    unfold Effect.apply
    split
    · exact h.change window pattern latch time
    · exact h
  | .loop window body period => by
    unfold Effect.apply
    split
    · exact h
    · split
      · -- replayed passes are silent, so the two still differ in their positions alone
        have hp := replays_moved p body period
        have hq := replays_moved q body period
        exact Effect.applyAll_moved live _ (((hp _).symm.trans h).trans (hq _)) body
      · exact Effect.applyAll_moved live _ h body

theorem Effect.applyAll_moved (live : Bool) (time : α) {p q : Progress α} (h : p.Moved q) :
    ∀ effects : List (Effect α), (Effect.applyAll live time p effects).Moved
      (Effect.applyAll live time q effects)
  | [] => h
  | e :: rest => Effect.applyAll_moved live time (Effect.apply_moved live time h e) rest

end

namespace Program

def effects (program : Program α) (stage : ℕ) : List (Effect α) :=
  ((program.stages[stage]?).map Stage.effects).getD []

variable (program : Program α) (stage : ℕ) (origin : Vec α) (time : α) (latches : Array Bool)

theorem run_position :
    (program.run stage origin time latches).position = Effect.travelAll time origin
      (program.effects stage) := by
  unfold run effects
  cases program.stages[stage]? with
  | none => rfl
  | some s => exact Effect.applyAll_position true time _ s.effects

theorem position_eq : program.position stage origin time = Effect.travelAll time origin
    (program.effects stage) :=
  program.run_position stage origin time program.cleared

theorem run_moved (origin' : Vec α) :
    (program.run stage origin time latches).Moved (program.run stage origin' time latches) := by
  unfold run
  split
  · apply Effect.applyAll_moved
    exact ⟨rfl, rfl⟩
  · exact ⟨rfl, rfl⟩

end Program

/-! ## Voyages -/

/-- An actor that was spawned at `origin`, and the flight that moves it. -/
structure Voyage (α τ : Type) where
  origin : Vec α
  position : Vec α
  flight : Flight α τ

/-- What can be done with an actor. -/
inductive Call (α : Type) where
  | update (time : α)
  | completeStage
  /-- Puts the actor where a stage of its program has it at a moment. -/
  | evaluate (stage : ℕ) (time : α)
  /-- A pattern from elsewhere on the channel of the actor. -/
  | publish (pattern : Packed)

namespace Call

omit [Scalar α] [Elementary α]

def moves : Call α → Bool
  | update _ | evaluate .. => true
  | completeStage | publish _ => false

def completes : Call α → Bool
  | completeStage => true
  | _ => false

def flies : Call α → Bool
  | update _ | completeStage => true
  | evaluate .. | publish _ => false

def evaluates : Call α → Bool
  | evaluate .. => true
  | _ => false

def publishes : Call α → Bool
  | publish _ => true
  | _ => false

end Call

namespace Voyage

variable {τ : Type}

def perform (v : Voyage α τ) : Call α → Voyage α τ
  | .update time =>
    let (position, flight, _) := v.flight.update v.origin time
    { v with position, flight }
  | .completeStage => { v with flight := v.flight.completeStage.2 }
  | .evaluate stage time => { v with position := v.flight.program.position stage v.origin time }
  | .publish pattern =>
    { v with flight := { v.flight with channel := (v.flight.channel.publish pattern).channel } }

def run (v : Voyage α τ) (calls : List (Call α)) : Voyage α τ := calls.foldl perform v

def announces (v : Voyage α τ) : Call α → List Packed
  | .update time => (v.flight.program.run v.flight.stage v.origin time v.flight.latches).announced
  | .completeStage | .evaluate .. | .publish _ => []

def published (v : Voyage α τ) : List (Call α) → List Packed
  | [] => []
  | c :: rest => v.announces c ++ (v.perform c).published rest

def hears (v : Voyage α τ) : Call α → List (Delivery τ)
  | .update time => (v.flight.update v.origin time).2.2
  | .publish pattern => (v.flight.channel.publish pattern).heard
  | .completeStage | .evaluate .. => []

def heard (v : Voyage α τ) : List (Call α) → List (Delivery τ)
  | [] => []
  | c :: rest => v.hears c ++ (v.perform c).heard rest

variable {v v' : Voyage α τ}

theorem perform_origin (v : Voyage α τ) (c : Call α) : (v.perform c).origin = v.origin := by
  cases c <;> rfl

theorem perform_program (v : Voyage α τ) (c : Call α) :
    (v.perform c).flight.program = v.flight.program := by
  cases c with
  | completeStage =>
    simp only [perform, Flight.completeStage]
    split <;> rfl
  | update | evaluate | publish => rfl

theorem run_origin (v : Voyage α τ) (calls : List (Call α)) : (v.run calls).origin = v.origin := by
  induction calls generalizing v with
  | nil => rfl
  | cons c calls ih => exact (ih _).trans (v.perform_origin c)

theorem run_program (v : Voyage α τ) (calls : List (Call α)) :
    (v.run calls).flight.program = v.flight.program := by
  induction calls generalizing v with
  | nil => rfl
  | cons c calls ih => exact (ih _).trans (v.perform_program c)

theorem run_append (v : Voyage α τ) (first second : List (Call α)) :
    v.run (first ++ second) = (v.run first).run second :=
  List.foldl_append

/-! ### Stages -/

omit [Scalar α] [Elementary α] in
theorem completeStage_stage {f : Flight α τ} (h : f.stage ≤ f.program.stages.length - 1) :
    f.completeStage.2.stage = min (f.stage + 1) (f.program.stages.length - 1) := by
  unfold Flight.completeStage Flight.isLastStage
  by_cases hlast : f.program.stages.length ≤ f.stage + 1
  · rw [decide_eq_true hlast, if_pos rfl]
    dsimp only
    omega
  · rw [decide_eq_false hlast, if_neg Bool.false_ne_true]
    dsimp only
    omega

theorem run_stage (h : v.flight.stage ≤ v.flight.program.stages.length - 1)
    (calls : List (Call α)) : (v.run calls).flight.stage =
      min (v.flight.stage + calls.countP Call.completes) (v.flight.program.stages.length - 1) := by
  induction calls generalizing v with
  | nil => exact (Nat.min_eq_left h).symm
  | cons c calls ih =>
    have hstage : (v.perform c).flight.stage =
        min (v.flight.stage + [c].countP Call.completes) (v.flight.program.stages.length - 1) := by
      cases c with
      | completeStage => exact completeStage_stage h
      | update | evaluate | publish => exact (Nat.min_eq_left h).symm
    have hkept : (v.perform c).flight.stage ≤ (v.perform c).flight.program.stages.length - 1 := by
      rw [hstage, perform_program]
      exact Nat.min_le_right _ _
    have hcount : ([c] ++ calls).countP Call.completes = [c].countP Call.completes +
      calls.countP Call.completes :=
      List.countP_append
    change ((v.perform c).run calls).flight.stage = min (_ + ([c] ++ calls).countP Call.completes) _
    rw [ih hkept, hstage, perform_program, hcount]
    omega

/-! ### Positions -/

theorem perform_position {c : Call α} (h : c.moves = false) (v : Voyage α τ) :
    (v.perform c).position = v.position := by
  cases c with
  | completeStage | publish => rfl
  | update | evaluate => cases h

theorem run_position {calls : List (Call α)} (h : ∀ c ∈ calls, c.moves = false) (v : Voyage α τ) :
    (v.run calls).position = v.position := by
  induction calls generalizing v with
  | nil => rfl
  | cons c calls ih =>
    obtain ⟨hc, hcalls⟩ := List.forall_mem_cons.1 h
    exact (ih hcalls _).trans (perform_position hc v)

theorem update_position (v : Voyage α τ) (time : α) :
    (v.perform (.update time)).position = v.flight.program.position v.flight.stage v.origin time :=
  (Program.run_position ..).trans (Program.position_eq ..).symm

/-! ### Publications -/

/-- What decides about the patterns to come. -/
def course (v : Voyage α τ) : Program α × ℕ × Array Bool :=
  (v.flight.program, v.flight.stage, v.flight.latches)

theorem perform_course (h : v.course = v'.course) (c : Call α) :
    v.announces c = v'.announces c ∧ (v.perform c).course = (v'.perform c).course := by
  obtain ⟨origin, position, program, stage, latches, channel⟩ := v
  obtain ⟨origin', position', program', stage', latches', channel'⟩ := v'
  obtain ⟨rfl, rfl, rfl⟩ : program = program' ∧ stage = stage' ∧ latches = latches' := by
    simpa [course] using h
  cases c with
  | update time =>
    obtain ⟨hlatches, hannounced⟩ := program.run_moved stage origin' time latches origin
    exact ⟨hannounced, Prod.ext rfl (Prod.ext rfl hlatches)⟩
  | completeStage =>
    by_cases hlast : program.stages.length ≤ stage + 1 <;>
      simp [announces, course, perform, Flight.completeStage, Flight.isLastStage, hlast]
  | evaluate | publish => exact ⟨rfl, rfl⟩

theorem course_perform {c : Call α} (h : c.flies = false) (v : Voyage α τ) :
    v.announces c = [] ∧ (v.perform c).course = v.course := by
  cases c with
  | evaluate | publish => exact ⟨rfl, rfl⟩
  | update | completeStage => cases h

theorem published_filter (h : v.course = v'.course) (calls : List (Call α)) :
    v.published calls = v'.published (calls.filter Call.flies) := by
  induction calls generalizing v v' with
  | nil => rfl
  | cons c calls ih =>
    cases hc : c.flies with
    | true =>
      obtain ⟨hannounces, hcourse⟩ := perform_course h c
      rw [List.filter_cons_of_pos hc, published, published, hannounces, ih hcourse]
    | false =>
      obtain ⟨hnone, hcourse⟩ := course_perform hc v
      rw [List.filter_cons_of_neg (by simp [hc]), published, hnone, ih (hcourse.trans h),
        List.nil_append]

theorem perform_flight (h : v.flight = v'.flight) (c : Call α) :
    (v.perform c).flight = (v'.perform c).flight := by
  obtain ⟨origin, position, flight⟩ := v
  obtain ⟨origin', position', flight'⟩ := v'
  obtain rfl : flight = flight' := h
  cases c with
  | update time =>
    obtain ⟨hlatches, hannounced⟩ := flight.program.run_moved flight.stage origin' time
        flight.latches origin
    simp only [perform, Flight.update, hlatches, hannounced]
  | completeStage | evaluate | publish => rfl

theorem perform_channel {c : Call α} (h : c.publishes = false) (v : Voyage α τ) :
    v.flight.channel.publishAll (v.announces c) = ((v.perform c).flight.channel, v.hears c) := by
  cases c with
  | update | evaluate => rfl
  | completeStage =>
    simp only [announces, perform, hears, Flight.completeStage]
    split <;> rfl
  | publish => cases h

/-- Without patterns from elsewhere, the channel carries what the flight publishes, and this is what
is heard. -/
theorem run_channel {calls : List (Call α)} (h : ∀ c ∈ calls, c.publishes = false)
    (v : Voyage α τ) : v.flight.channel.publishAll (v.published calls) =
    ((v.run calls).flight.channel, v.heard calls) := by
  induction calls generalizing v with
  | nil => rfl
  | cons c calls ih =>
    obtain ⟨hc, hcalls⟩ := List.forall_mem_cons.1 h
    rw [published, Channel.publishAll_append, perform_channel hc v, ih hcalls]
    rfl

theorem run_flight (h : v.flight = v'.flight) (calls : List (Call α)) :
    (v.run calls).flight = (v'.run (calls.filter fun c => !c.evaluates)).flight := by
  induction calls generalizing v v' with
  | nil => exact h
  | cons c calls ih =>
    cases c with
    | evaluate stage time => exact ih (v := v.perform (.evaluate stage time)) h
    | update | completeStage | publish => exact ih (perform_flight h _)

end Voyage

/-! ## The main statement -/

/-- An update puts an actor where its program has one of that spawn point, in the stage that the
completions up to then have led to, at that time. Neither what has been done before nor its channel
have a part in it, and it stays there until it is moved again. The patterns that a flight publishes
follow from its program, updates and completions, and not from where its actor is; they are what its
channel carries. An evaluation publishes nothing. -/
theorem flights_have_no_history {τ : Type} (program : Program α) :
    (∀ (origin position : Vec α) (channel : Channel τ) (earlier later : List (Call α)) (time : α),
      (∀ c ∈ later, c.moves = false) →
        (Voyage.run ⟨origin, position, Flight.start program channel⟩
          (earlier ++ .update time :: later)).position =
          program.position (min (earlier.countP Call.completes) (program.stages.length - 1))
            origin time) ∧
    (∀ (origin origin' position position' : Vec α) (channel channel' : Channel τ)
      (calls calls' : List (Call α)), calls.filter Call.flies = calls'.filter Call.flies →
        Voyage.published ⟨origin, position, Flight.start program channel⟩ calls =
          Voyage.published ⟨origin', position', Flight.start program channel'⟩ calls') ∧
    (∀ (origin position : Vec α) (channel : Channel τ) (calls : List (Call α)),
      (∀ c ∈ calls, c.publishes = false) →
      let voyage : Voyage α τ := ⟨origin, position, Flight.start program channel⟩
      ((voyage.run calls).flight.channel, voyage.heard calls) =
        channel.publishAll (voyage.published calls)) ∧
    ∀ (origin origin' position position' : Vec α) (channel : Channel τ)
      (calls calls' : List (Call α)),
      (calls.filter fun c => !c.evaluates) = (calls'.filter fun c => !c.evaluates) →
        (Voyage.run ⟨origin, position, Flight.start program channel⟩ calls).flight =
          (Voyage.run ⟨origin', position', Flight.start program channel⟩ calls').flight := by
  refine ⟨?_, ?_, ?_, ?_⟩
  · intro origin position channel earlier later time hlater
    let start : Voyage α τ := ⟨origin, position, Flight.start program channel⟩
    have hstage : (start.run earlier).flight.stage =
        min (earlier.countP Call.completes) (program.stages.length - 1) := by
      simpa [start, Flight.start] using start.run_stage (Nat.zero_le _) earlier
    change (start.run (earlier ++ .update time :: later)).position = _
    rw [Voyage.run_append]
    change (((start.run earlier).perform (.update time)).run later).position = _
    rw [Voyage.run_position hlater, Voyage.update_position, hstage, start.run_program,
      start.run_origin]
    rfl
  · intro origin origin' position position' channel channel' calls calls' hcalls
    have hfirst : Voyage.published ⟨origin, position, Flight.start program channel⟩ calls =
        Voyage.published ⟨origin', position', Flight.start program channel'⟩
          (calls.filter Call.flies) :=
      Voyage.published_filter (by rfl) calls
    rw [hfirst, hcalls]
    exact (Voyage.published_filter rfl calls').symm
  · intro origin position channel calls hcalls
    exact (Voyage.run_channel hcalls _).symm
  · intro origin origin' position position' channel calls calls' hcalls
    have hfirst : (Voyage.run ⟨origin, position, Flight.start program channel⟩ calls).flight =
        (Voyage.run ⟨origin', position', Flight.start program channel⟩
          (calls.filter fun c => !c.evaluates)).flight :=
      Voyage.run_flight (by rfl) calls
    rw [hfirst, hcalls]
    exact (Voyage.run_flight rfl calls').symm

section

local instance still : Elementary Exact := ⟨fun x => x, fun _ => 0, fun _ => 1, fun _ _ => 0⟩

/-- A way to the left, and behind it a loop that leads to a point. -/
def detour : Program Exact :=
  ⟨[⟨[.motion ⟨1, Scalar.infinity, false⟩ (.linear .left 20),
    .shoot ⟨2, Scalar.infinity, false⟩ ⟨3⟩ 0], some 'G'⟩,
    ⟨[.loop Window.whole [.motion ⟨0, 2, false⟩ (.move ⟨160, 90⟩ 2), .shoot ⟨1, 3, false⟩ ⟨5⟩ 1] 3],
    none⟩], false, 2⟩

def detourCalls : List (Call Exact) :=
  [.update 5, .publish ⟨9⟩, .completeStage, .evaluate 0 7, .update 4, .completeStage]

theorem detour_has_no_history :
    (∀ c ∈ ([.publish ⟨3⟩, .completeStage] : List (Call Exact)), c.moves = false) ∧
    (Voyage.run ⟨⟨10, 20⟩, ⟨0, 0⟩, Flight.start detour (Channel.new : Channel Unit)⟩
      (detourCalls ++ .update 1 :: [.publish ⟨3⟩, .completeStage])).position = ⟨85, 55⟩ ∧
    detourCalls.filter Call.flies =
      ([.update 5, .completeStage, .update 4, .completeStage] : List (Call Exact)) ∧
    Voyage.published ⟨⟨10, 20⟩, ⟨0, 0⟩, Flight.start detour (Channel.new : Channel Unit)⟩
      detourCalls = [⟨3⟩, ⟨5⟩] ∧
    (∀ c ∈ ([.update 5, .completeStage, .update 4] : List (Call Exact)), c.publishes = false) ∧
    (Voyage.heard ⟨⟨10, 20⟩, ⟨0, 0⟩, Flight.start detour ⟨none, [(0, ())]⟩⟩
      [.update 5, .completeStage, .update 4]).map Delivery.pattern = [⟨3⟩, ⟨5⟩] ∧
    detourCalls.filter (fun c => !c.evaluates) =
      ([.update 5, .publish ⟨9⟩, .completeStage, .update 4, .completeStage] : List (Call Exact)) ∧
    (Voyage.run ⟨⟨10, 20⟩, ⟨0, 0⟩, Flight.start detour (Channel.new : Channel Unit)⟩
      detourCalls).flight.channel.last = some ⟨5⟩ := by
  obtain ⟨hposition, hpublished, hchannel, hflight⟩ := flights_have_no_history (τ := Unit) detour
  have hlater : ∀ c ∈ ([.publish ⟨3⟩, .completeStage] : List (Call Exact)), c.moves = false := by
    decide
  have hown : ∀ c ∈ ([.update 5, .completeStage, .update 4] : List (Call Exact)),
      c.publishes = false := by
    decide
  refine ⟨hlater, ?_, rfl, ?_, hown, ?_, rfl, ?_⟩
  · rw [hposition _ _ _ detourCalls _ 1 hlater]
    have hx : (detour.position 1 ⟨10, 20⟩ 1).x = 85 := by decide +kernel
    have hy : (detour.position 1 ⟨10, 20⟩ 1).y = 55 := by decide +kernel
    exact congrArg₂ Vec.mk hx hy
  · rw [hpublished ⟨10, 20⟩ ⟨0, 0⟩ ⟨0, 0⟩ ⟨0, 0⟩ .new (.carrying ⟨3⟩) detourCalls
      [.update 5, .completeStage, .update 4, .completeStage] rfl]
    decide +kernel
  · have hheard := congrArg Prod.snd (hchannel ⟨10, 20⟩ ⟨0, 0⟩ ⟨none, [(0, ())]⟩ _ hown)
    refine (congrArg (List.map Delivery.pattern) hheard).trans ?_
    decide +kernel
  · rw [hflight ⟨10, 20⟩ ⟨0, 0⟩ ⟨0, 0⟩ ⟨0, 0⟩ .new detourCalls
      [.update 5, .publish ⟨9⟩, .completeStage, .update 4, .completeStage] rfl]
    decide +kernel

end

end Barrage.Trajectory
