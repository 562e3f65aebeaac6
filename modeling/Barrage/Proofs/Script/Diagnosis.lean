import Barrage.Proofs.Script.Fields
import Barrage.Proofs.Text.Lines

/-! # Diagnosis of scripts

A script with a bad line is refused for the first of them, and the error has the number of that
line. -/

namespace Barrage.Script

variable {lines : List (List Char)} {start : ℕ}

theorem readLine_eq_ok_iff {text : List Char} {i : Instruction Float32} :
    Instruction.readLine start text = .ok i ↔ Instruction.read text = .ok i := by
  unfold Instruction.readLine
  cases Instruction.read text <;> simp

theorem line_of_readLine_eq_error {text : List Char} {e : Error}
    (h : Instruction.readLine start text = .error e) : e.line = start := by
  unfold Instruction.readLine at h
  cases hread : Instruction.read text with
  | ok i =>
    rw [hread] at h
    cases h
  | error problem =>
    rw [hread] at h
    exact (congrArg Error.line (Except.error.inj h)).symm

theorem readFrom_cons (text : List Char) (rest : List (List Char)) (start : ℕ) :
    readFrom start (text :: rest) =
      match Instruction.readLine start text with
      | .ok i => (readFrom (start + 1) rest).map (i :: ·)
      | .error e => .error e := by
  rw [readFrom]
  cases Instruction.readLine start text with
  | error => rfl
  | ok => cases readFrom (start + 1) rest <;> rfl

theorem readFrom_ok_iff {script : List (Instruction Float32)} :
    readFrom start lines = .ok script ↔
      List.Forall₂ (fun line i => Instruction.read line = .ok i) lines script := by
  induction lines generalizing start script with
  | nil =>
    rw [List.forall₂_nil_left_iff]
    exact ⟨fun h => (Except.ok.inj h).symm, fun h => congrArg Except.ok h.symm⟩
  | cons text rest ih =>
    rw [readFrom_cons, List.forall₂_cons_left_iff]
    cases hread : Instruction.readLine start text with
    | error e =>
      refine ⟨nofun, ?_⟩
      rintro ⟨i, later, hi, -⟩
      cases hread.symm.trans (readLine_eq_ok_iff.2 hi)
    | ok i =>
      have hi := readLine_eq_ok_iff.1 hread
      constructor
      · intro h
        cases hlater : readFrom (start + 1) rest with
        | error e =>
          rw [hlater] at h
          cases h
        | ok later =>
          rw [hlater] at h
          exact ⟨i, later, hi, ih.1 hlater, (Except.ok.inj h).symm⟩
      · rintro ⟨j, later, hj, hlater, rfl⟩
        obtain rfl := Except.ok.inj (hi.symm.trans hj)
        rw [ih.2 hlater]
        rfl

theorem readFrom_error_iff {e : Error} :
    readFrom start lines = .error e ↔
      ∃ before line after, lines = before ++ line :: after ∧
        (∀ earlier ∈ before, ∃ i, Instruction.read earlier = .ok i) ∧
        Instruction.readLine (start + before.length) line = .error e := by
  induction lines generalizing start e with
  | nil =>
    refine ⟨nofun, ?_⟩
    rintro ⟨before, line, after, h, -⟩
    exact absurd h.symm (by simp)
  | cons text rest ih =>
    rw [readFrom_cons]
    cases hread : Instruction.readLine start text with
    | error found =>
      constructor
      · intro h
        obtain rfl := Except.error.inj h
        exact ⟨[], text, rest, rfl, List.forall_mem_nil _, hread⟩
      · rintro ⟨before, line, after, hlines, hgood, hbad⟩
        cases before with
        | nil =>
          obtain ⟨rfl, -⟩ := List.cons.inj hlines
          obtain rfl := Except.error.inj (hread.symm.trans hbad)
          rfl
        | cons first before =>
          obtain ⟨rfl, -⟩ := List.cons.inj hlines
          obtain ⟨i, hi⟩ := hgood text List.mem_cons_self
          cases hread.symm.trans (readLine_eq_ok_iff.2 hi)
    | ok i =>
      have hlater : (readFrom (start + 1) rest).map (i :: ·) = .error e ↔
          readFrom (start + 1) rest = .error e := by
        cases readFrom (start + 1) rest <;> simp [Except.map]
      dsimp only
      rw [hlater, ih]
      constructor
      · rintro ⟨before, line, after, rfl, hgood, hbad⟩
        refine ⟨text :: before, line, after, rfl, ?_, ?_⟩
        · exact List.forall_mem_cons.2 ⟨⟨i, readLine_eq_ok_iff.1 hread⟩, hgood⟩
        · rwa [List.length_cons, ← Nat.add_assoc, Nat.add_right_comm]
      · rintro ⟨before, line, after, hlines, hgood, hbad⟩
        cases before with
        | nil =>
          obtain ⟨rfl, -⟩ := List.cons.inj hlines
          cases hread.symm.trans hbad
        | cons first before =>
          obtain ⟨-, rfl⟩ := List.cons.inj hlines
          refine ⟨before, line, after, rfl, fun earlier hmem =>
            hgood earlier (List.mem_cons_of_mem _ hmem), ?_⟩
          rwa [List.length_cons, ← Nat.add_assoc, Nat.add_right_comm] at hbad

/-- Every source has one choice of lines, whether line feeds come with carriage returns or not. It
is refused if and only if one of them is, and then with the error and the number of the first;
otherwise each line has been read by itself. Reading a line always has a result, so no field is
taken that is not there, and a known instruction with too few fields is refused for that, while
other keywords are fine with any. -/
theorem scripts_are_refused_for_their_first_bad_line (source : String) :
    (∀ lines, Text.MadeOf source.toList lines ↔ Text.lines source.toList = lines) ∧
    (∀ e, read source = .error e ↔
      ∃ before line after, Text.lines source.toList = before ++ line :: after ∧
        (∀ earlier ∈ before, ∃ i, Instruction.read earlier = .ok i) ∧
        Instruction.readLine (before.length + 1) line = .error e ∧ e.line = before.length + 1) ∧
    (∀ script, read source = .ok script ↔
      List.Forall₂ (fun line i => Instruction.read line = .ok i)
        (Text.lines source.toList) script) ∧
    (∀ start line, (Positional.read start line).run = some (Instruction.readLine start line)) ∧
    ∀ line, ∃ keyword args,
      Text.fields (Text.dropEndWhile (fun c => c = '\r' || c = '\n') line) = keyword :: args ∧
      (∀ name n, required (String.ofList (Text.trim keyword)) args = some (name, n) →
        args.length < n →
        Instruction.read line = .error (.missingField name n args.length)) ∧
      (required (String.ofList (Text.trim keyword)) args = none →
        Instruction.read line = .ok .comment) := by
  refine ⟨fun _ => Text.madeOf_iff, fun e => ?_, fun _ => readFrom_ok_iff, Positional.read_eq,
    fun line => ?_⟩
  · rw [read, readFrom_error_iff]
    constructor
    · rintro ⟨before, line, after, hlines, hgood, hbad⟩
      rw [Nat.add_comm] at hbad
      exact ⟨before, line, after, hlines, hgood, hbad, line_of_readLine_eq_error hbad⟩
    · rintro ⟨before, line, after, hlines, hgood, hbad, -⟩
      rw [Nat.add_comm] at hbad
      exact ⟨before, line, after, hlines, hgood, hbad⟩
  · obtain ⟨keyword, args, hfields⟩ :=
      List.exists_cons_of_ne_nil (Text.fields_ne_nil
        (Text.dropEndWhile (fun c => c = '\r' || c = '\n') line))
    have hread : Instruction.read line = readInstruction
        (String.ofList (Text.trim keyword)) args := by
      rw [Instruction.read, hfields]
    rw [hread]
    exact ⟨keyword, args, hfields, fun name n => readInstruction_short, readInstruction_unknown⟩

theorem spawn_without_members_is_refused :
    read "# intro\nspawn  3.0  A\ngoto" = .error ⟨2, .missingField "spawn" 5 2⟩ := by
  obtain ⟨-, hrefused, -, -, hfields⟩ :=
    scripts_are_refused_for_their_first_bad_line "# intro\nspawn  3.0  A\ngoto"
  obtain ⟨keyword, args, hline, hshort, -⟩ := hfields "spawn  3.0  A".toList
  have hspawn : Text.fields (Text.dropEndWhile (fun c => c = '\r' || c = '\n')
      "spawn  3.0  A".toList) = "spawn".toList :: ["3.0".toList, "A".toList] := by decide +kernel
  obtain ⟨rfl, rfl⟩ := List.cons.inj (hspawn.symm.trans hline)
  have hbad := hshort "spawn" 5 (by decide +kernel) (by decide)
  refine (hrefused _).2 ⟨["# intro".toList], "spawn  3.0  A".toList, ["goto".toList],
    by decide +kernel, ?_, ?_, rfl⟩
  · intro earlier hmem
    obtain rfl := List.mem_singleton.1 hmem
    exact ⟨.comment, by decide +kernel⟩
  · rw [Instruction.readLine, hbad]
    rfl

end Barrage.Script
