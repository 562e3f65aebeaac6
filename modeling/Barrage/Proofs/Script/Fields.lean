import Barrage.Proofs.Text.Lines
import Barrage.Script.Reader

/-! # Fields of an instruction

Every instruction asks for its fields before it takes any of them, so that a line with too few of
them is refused for just that, and no field is taken that is not there. -/

namespace Barrage.Script

open Trajectory (Token)

/-! ## Fields that are missing -/

def requiredForMusic : List (List Char) → String × ℕ
  | [] => ("music", 1)
  | command :: _ =>
    match String.ofList command with
    | "play" => ("music play", 3)
    | "fade" => ("music fade", 2)
    | _ => ("music", 1)

/-- Under which name an instruction asks for how many fields; a keyword without a meaning has
none. -/
def required (keyword : String) (args : List (List Char)) : Option (String × ℕ) :=
  match keyword with
  | "goto" => some (keyword, 1)
  | "goal" => some (keyword, 2)
  | "setting" => some (keyword, 1)
  | "mode" => some (keyword, 2)
  | "music" => some (requiredForMusic args)
  | "tint" => some (keyword, 3)
  | "text" => some (keyword, 3)
  | "spawn" => some (keyword, 5)
  | "repeat" => some (keyword, 7)
  | "wait" => some (keyword, 1)
  | "waitdefeated" => some (keyword, 1)
  | "end" => some (keyword, 0)
  | _ => none

variable {keyword name : String} {args : List (List Char)} {n : ℕ}

theorem readInstruction_unknown (h : required keyword args = none) :
    readInstruction keyword args = .ok .comment := by
  unfold readInstruction
  split
  case h_13 => rfl
  all_goals cases h

theorem readMusic_short (hrequired : requiredForMusic args = (name, n)) (hshort : args.length < n) :
    readMusic args = .error (.missingField name n args.length) := by
  cases args with
  | nil =>
    obtain ⟨rfl, rfl⟩ := Prod.mk.inj hrequired
    rfl
  | cons command rest =>
    unfold requiredForMusic at hrequired
    unfold readMusic
    dsimp only at hrequired ⊢
    generalize String.ofList command = kind at hrequired ⊢
    split
    case h_1 =>
      obtain ⟨-, rfl⟩ := Prod.mk.inj hrequired
      simp only [List.length_cons] at hshort
      omega
    case h_2 =>
      obtain ⟨rfl, rfl⟩ := Prod.mk.inj hrequired
      rfl
    case h_3 =>
      obtain ⟨-, rfl⟩ := Prod.mk.inj hrequired
      simp only [List.length_cons] at hshort
      omega
    case h_4 =>
      obtain ⟨rfl, rfl⟩ := Prod.mk.inj hrequired
      rfl
    case h_5 =>
      split at hrequired
      · contradiction
      · contradiction
      · obtain ⟨-, rfl⟩ := Prod.mk.inj hrequired
        simp only [List.length_cons] at hshort
        omega

theorem readInstruction_short (hrequired : required keyword args = some (name, n))
    (hshort : args.length < n) : readInstruction keyword args =
    .error (.missingField name n args.length) := by
  unfold readInstruction
  split
  case h_5 => exact readMusic_short (Option.some.inj hrequired) hshort
  case h_12 =>
    obtain ⟨-, rfl⟩ := Prod.mk.inj (Option.some.inj hrequired)
    cases hshort
  case h_13 =>
    unfold required at hrequired
    split at hrequired <;> contradiction
  all_goals
    obtain ⟨rfl, rfl⟩ := Prod.mk.inj (Option.some.inj hrequired)
    split
    · simp only [List.length_cons] at hshort
      omega
    · rfl

/-! ## Fields by position

The same grammar once more, as a reader that takes fields by their position and hands the number of
the line down to whatever may fail. Taking a field that is not there has no result, and `require` is
all that keeps it from that. -/

/-- Reading that takes fields by position: it fails with an error, and has no result if a field is
not there. -/
abbrev Fetching := ExceptT Error Option

namespace Positional

def field (fields : List (List Char)) (i : ℕ) : Fetching (List Char) :=
  ExceptT.mk (fields[i]?.map .ok)

def fieldsFrom (fields : List (List Char)) (i : ℕ) : Fetching (List (List Char)) :=
  ExceptT.mk (if i ≤ fields.length then some (.ok (fields.drop i)) else none)

def refuse {β : Type} (line : ℕ) (problem : Problem) : Fetching β := throw ⟨line, problem⟩

def require (args : List (List Char)) (expected : ℕ) (keyword : String) (line : ℕ) :
    Fetching Unit :=
  if args.length < expected then refuse line (.missingField keyword expected args.length)
    else pure ()

def orRefuse {β : Type} (result : Option β) (line : ℕ) (problem : Problem) : Fetching β :=
  match result with
  | some b => pure b
  | none => refuse line problem

def number (text : List Char) (line : ℕ) : Fetching (Number Float32) :=
  orRefuse (Number.read? (Text.trim text)) line (.malformedNumber (String.ofList text))

def lineNumber (text : List Char) (line : ℕ) : Fetching ℕ :=
  orRefuse (Decimal.unsigned? (UInt64.size - 1) (Text.trim text)) line
    (.malformedNumber (String.ofList text))

def integer (text : List Char) (line : ℕ) : Fetching ℤ :=
  orRefuse (Decimal.signed? (UInt32.size / 2 - 1) (Text.trim text)) line
    (.malformedNumber (String.ofList text))

def pattern (text : List Char) (line : ℕ) : Fetching Pattern.Notation :=
  orRefuse (Pattern.Notation.read? text) line (.malformedPattern (String.ofList text))

def member (text : List Char) (line : ℕ) : Fetching Member :=
  match text with
  | [] => refuse line (.malformedMember "")
  | letter :: rest =>
    if letter.isUpper then do return ⟨letter, ← pattern rest line⟩
    else refuse line (.malformedMember (String.ofList text))

def reward (text : List Char) (line : ℕ) : Fetching Reward :=
  orRefuse (Reward.read? text) line (.malformedNumber (String.ofList text))

/-! ### Trajectories -/

def word (words : List (List Char)) (keyword : String) (i line : ℕ) : Fetching (List Char) :=
  orRefuse words[i]? line (.missingField keyword (i + 1) words.length)

def wordNumber (words : List (List Char)) (keyword : String) (line i : ℕ) :
    Fetching (Number Float32) := do
  let text ← word words keyword i line
  orRefuse (Number.read? text) line (.malformedNumber (String.ofList text))

def token (text : List Char) (line : ℕ) : Fetching (Option (Token Float32)) := do
  let words := Text.words text
  let keyword := String.ofList (words.headD [])
  let number := wordNumber words keyword line
  let side := Side.ofName (String.ofList (words.getD 1 []))
  match keyword with
  | "after" => return some (.after (← number 1))
  | "cancelafter" => return some (.cancelAfter (← number 1))
  | "for" => return some (.lasting (← number 1))
  | "(" => return some .opening
  | ")" => return some .closing
  | "lin" => return some (.linear side (← number 2))
  | "sin" => return some (.wave .sine side (← number 2) (← number 3) (← number 4))
  | "cos" => return some (.wave .cosine side (← number 2) (← number 3) (← number 4))
  | "move" => return some (.move (← number 1) (← number 2))
  | "shoot" => return some (.shoot (← pattern (← word words keyword 1 line) line))
  | "stage" => return some (.stage (String.ofList (← word words keyword 1 line)))
  | "boss" => return some .boss
  | _ => return none

def nesting (line : ℕ) : ℕ → List (Token Float32) → Fetching Unit
  | depth, [] => if depth = 0 then pure () else refuse line (.blocksLeftOpen depth)
  | depth, .opening :: rest => nesting line (depth + 1) rest
  | 0, .closing :: _ => refuse line .unexpectedClose
  | depth + 1, .closing :: rest => nesting line depth rest
  | depth, .stage _ :: rest =>
    if depth = 0 then nesting line depth rest else refuse line .stageInsideBlock
  | depth, _ :: rest => nesting line depth rest

def trajectory (fields : List (List Char)) (line : ℕ) : Fetching (List (Token Float32)) := do
  let tokens ← fields.mapM (token · line)
  let tokens := tokens.filterMap id
  nesting line 0 tokens
  return tokens

/-! ### Instructions -/

def group (fields : List (List Char)) (line : ℕ) : Fetching (Group Float32) := do
  let window ← number (← field fields 0) line
  let members ← (Text.words (← field fields 1)).mapM (member · line)
  let reward ← reward (← field fields 2) line
  let side ← field fields 3
  let factors ← (Text.words (← field fields 4)).mapM (number · line)
  let trajectory ← trajectory (← fieldsFrom fields 5) line
  return { window, members, reward, side := Side.ofName (String.ofList side), factors, trajectory }

def music (args : List (List Char)) (line : ℕ) : Fetching (Instruction Float32) := do
  require args 1 "music" line
  match String.ofList (← field args 0) with
  | "play" =>
    require args 3 "music play" line
    let tempo ← match args[3]? with
      | some tempo => number tempo line
      | none => pure defaultTrackTempo
    return .playMusic (String.ofList (← field args 1)) (← number (← field args 2) line) tempo
  | "fade" =>
    require args 2 "music fade" line
    return .fadeMusic (← number (← field args 1) line)
  | _ => return .comment

def instruction (keyword : String) (args : List (List Char)) (line : ℕ) :
    Fetching (Instruction Float32) :=
  match keyword with
  | "goto" => do
    require args 1 keyword line
    return .goto (← lineNumber (← field args 0) line)
  | "goal" => do
    require args 2 keyword line
    return .goal (String.ofList (← field args 0)) (← integer (← field args 1) line)
  | "setting" => do
    require args 1 keyword line
    return .background (String.ofList (← field args 0))
  | "mode" => do
    require args 2 keyword line
    return .renderMode (← integer (← field args 0) line) (← integer (← field args 1) line)
  | "music" => music args line
  | "tint" => do
    require args 3 keyword line
    return .tint (← number (← field args 0) line) (← number (← field args 1) line)
      (← number (← field args 2) line)
  | "text" => do
    require args 3 keyword line
    return .text ((Text.splitAt '\\' (← field args 0)).map String.ofList)
      (← number (← field args 1) line) (← number (← field args 2) line)
  | "spawn" => do
    require args 5 keyword line
    return .spawn (← group args line)
  | "repeat" => do
    require args 7 keyword line
    return .spawnRepeatedly (← number (← field args 0) line) (← number (← field args 1) line)
      (← group (← fieldsFrom args 2) line)
  | "wait" => do
    require args 1 keyword line
    return .wait (← number (← field args 0) line)
  | "waitdefeated" => do
    require args 1 keyword line
    return .waitUntilClear (← number (← field args 0) line)
  | "end" => return .finish
  | _ => return .comment

def read (line : ℕ) (text : List Char) : Fetching (Instruction Float32) := do
  let fields := Text.fields (Text.dropEndWhile (fun c => c = '\r' || c = '\n') text)
  let keyword := String.ofList (Text.trim (← field fields 0))
  instruction keyword (← fieldsFrom fields 1) line

end Positional

/-! ### Agreement -/

variable {β γ : Type} {line : ℕ}

def located (line : ℕ) (result : Except Problem β) : Fetching β :=
  ExceptT.mk (some (result.mapError (Error.mk line)))

@[simp]
theorem refuse_bind (problem : Problem) (next : β → Fetching γ) :
    (Positional.refuse line problem >>= next) = Positional.refuse line problem := rfl

@[simp]
theorem located_ok (b : β) : located line (.ok b) = pure b := rfl

@[simp]
theorem located_error (problem : Problem) :
    located line (.error problem : Except Problem β) = Positional.refuse line problem := rfl

@[simp]
theorem located_pure (b : β) : located line (pure b) = pure b := rfl

@[simp]
theorem located_bind (result : Except Problem β) (next : β → Except Problem γ) :
    located line (result >>= next) = located line result >>= fun b => located line (next b) := by
  cases result <;> rfl

@[simp]
theorem located_map (f : β → γ) (result : Except Problem β) :
    located line (f <$> result) = f <$> located line result := by
  cases result <;> rfl

@[simp]
theorem located_mapM {α : Type} (f : α → Except Problem β) (list : List α) :
    located line (list.mapM f) = list.mapM (fun a => located line (f a)) := by
  induction list with
  | nil => rfl
  | cons a rest ih => simp [List.mapM_cons, ih]

namespace Positional

theorem number_eq (text : List Char) : number text line = located line (readNumber text) := by
  unfold number readNumber
  cases Number.read? (Text.trim text) <;> rfl

theorem lineNumber_eq (text : List Char) :
    lineNumber text line = located line (readLineNumber text) := by
  unfold lineNumber readLineNumber
  cases Decimal.unsigned? (UInt64.size - 1) (Text.trim text) <;> rfl

theorem integer_eq (text : List Char) : integer text line = located line (readInteger text) := by
  unfold integer readInteger
  cases Decimal.signed? (UInt32.size / 2 - 1) (Text.trim text) <;> rfl

theorem pattern_eq (text : List Char) : pattern text line = located line (Token.pattern text) := by
  unfold pattern Token.pattern
  cases Pattern.Notation.read? text <;> rfl

theorem member_eq (text : List Char) : member text line = located line (Member.read text) := by
  cases text with
  | nil => rfl
  | cons letter rest =>
    unfold member Member.read
    dsimp only
    split
    · rw [located_bind, pattern_eq]
      rfl
    · rfl

theorem reward_eq (text : List Char) : reward text line = located line (readReward text) := by
  unfold reward readReward
  cases Reward.read? text <;> rfl

theorem word_eq (words : List (List Char)) (keyword : String) (i : ℕ) :
    word words keyword i line = located line (Token.word words keyword i) := by
  unfold word Token.word
  cases words[i]? <;> rfl

theorem wordNumber_eq (words : List (List Char)) (keyword : String) (i : ℕ) :
    wordNumber words keyword line i = located line (Token.number words keyword i) := by
  unfold wordNumber Token.number
  rw [located_bind, word_eq]
  congr 1
  funext text
  cases Number.read? text <;> rfl

theorem token_eq (text : List Char) : token text line = located line (Token.read text) := by
  unfold token Token.read
  simp only [wordNumber_eq, word_eq, pattern_eq]
  generalize String.ofList ((Text.words text).headD []) = keyword
  split <;> simp only [located_bind, located_pure]

theorem nesting_eq (depth : ℕ) (tokens : List (Token Float32)) :
    nesting line depth tokens = located line (Token.checkNesting depth tokens) := by
  fun_induction Token.checkNesting depth tokens <;> simp_all [nesting]

theorem trajectory_eq (fields : List (List Char)) :
    trajectory fields line = located line (Token.readTrajectory fields) := by
  unfold trajectory Token.readTrajectory Token.readAll
  simp [token_eq, nesting_eq]

/-! ### Fields that are there -/

variable {first : List Char} {later : List (List Char)} {i : ℕ}

@[simp]
theorem field_zero : field (first :: later) 0 = pure first := rfl

@[simp]
theorem field_succ : field (first :: later) (i + 1) = field later i := rfl

@[simp]
theorem fieldsFrom_zero (fields : List (List Char)) : fieldsFrom fields 0 = pure fields := rfl

@[simp]
theorem fieldsFrom_succ : fieldsFrom (first :: later) (i + 1) = fieldsFrom later i := by
  simp [fieldsFrom]

theorem group_eq (window members reward side factors : List Char) (rest : List (List Char)) :
    group (window :: members :: reward :: side :: factors :: rest) line =
      located line (Group.read window members reward side factors rest) := by
  unfold group Group.read
  simp [number_eq, member_eq, reward_eq, trajectory_eq]

theorem require_enough (h : n ≤ args.length) : require args n keyword line = pure () :=
  if_neg (Nat.not_lt.2 h)

/-- The second demand of a command is for the fields behind the command. -/
theorem music_eq (args : List (List Char)) : music args line = located line (readMusic args) := by
  unfold music readMusic
  cases args with
  | nil => rfl
  | cons command rest =>
    rw [require_enough (by simp), field_zero, pure_bind, pure_bind]
    dsimp only
    generalize String.ofList command = kind
    split
    case h_1 =>
      rcases rest with _ | ⟨_, _ | ⟨_, _ | ⟨_, rest⟩⟩⟩ <;> simp +arith [require, missing, number_eq]
    case h_2 =>
      rcases rest with _ | ⟨_, rest⟩ <;> simp +arith [require, missing, number_eq]
    case h_3 => simp_all

-- Arguments are taken apart as far as the keyword asks for: fewer are refused on both sides, and
-- more do not matter.
theorem instruction_eq (keyword : String) (args : List (List Char)) :
    instruction keyword args line = located line (readInstruction keyword args) := by
  unfold instruction
  split
  case h_1 =>
    rcases args with _ | ⟨_, rest⟩ <;>
      simp +arith [readInstruction, require, missing, lineNumber_eq]
  case h_2 =>
    rcases args with _ | ⟨_, _ | ⟨_, rest⟩⟩ <;>
      simp +arith [readInstruction, require, missing, integer_eq]
  case h_3 => rcases args with _ | ⟨_, rest⟩ <;> simp +arith [readInstruction, require, missing]
  case h_4 =>
    rcases args with _ | ⟨_, _ | ⟨_, rest⟩⟩ <;>
      simp +arith [readInstruction, require, missing, integer_eq]
  case h_5 => exact music_eq args
  case h_6 =>
    rcases args with _ | ⟨_, _ | ⟨_, _ | ⟨_, rest⟩⟩⟩ <;>
      simp +arith [readInstruction, require, missing, number_eq]
  case h_7 =>
    rcases args with _ | ⟨_, _ | ⟨_, _ | ⟨_, rest⟩⟩⟩ <;>
      simp +arith [readInstruction, require, missing, number_eq]
  case h_8 =>
    rcases args with _ | ⟨_, _ | ⟨_, _ | ⟨_, _ | ⟨_, _ | ⟨_, rest⟩⟩⟩⟩⟩ <;>
      simp +arith [readInstruction, require, missing, group_eq]
  case h_9 =>
    rcases args with _ | ⟨_, _ | ⟨_, _ | ⟨_, _ | ⟨_, _ | ⟨_, _ | ⟨_, _ | ⟨_, rest⟩⟩⟩⟩⟩⟩⟩ <;>
      simp +arith [readInstruction, require, missing, number_eq, group_eq]
  case h_10 =>
    rcases args with _ | ⟨_, rest⟩ <;> simp +arith [readInstruction, require, missing, number_eq]
  case h_11 =>
    rcases args with _ | ⟨_, rest⟩ <;> simp +arith [readInstruction, require, missing, number_eq]
  case h_12 => simp [readInstruction]
  case h_13 =>
    unfold readInstruction
    split
    case h_13 => rfl
    all_goals contradiction

theorem located_read (line : ℕ) (text : List Char) :
    (located line (Instruction.read text)).run = some (Instruction.readLine line text) := by
  unfold Instruction.readLine
  cases Instruction.read text <;> rfl

/-- Every line has a result, with the number handed down to its error, so every field that is taken
is there. -/
theorem read_eq (line : ℕ) (text : List Char) :
    (read line text).run = some (Instruction.readLine line text) := by
  rw [← located_read]
  unfold read Instruction.read
  cases hfields : Text.fields (Text.dropEndWhile (fun c => c = '\r' || c = '\n') text) with
  | nil => exact absurd hfields (Text.fields_ne_nil _)
  | cons keyword args =>
    simp only [field_zero, fieldsFrom_succ, fieldsFrom_zero, pure_bind, instruction_eq]

end Positional

end Barrage.Script
