import Barrage.Proofs.Pattern.Shorthand

/-! # Edits of mnemonics

Each field follows the edits that address it, in order, and no others. So two mnemonics with the
same beginning make the same pattern if, field by field, their edits come to the same, wherever they
stand. -/

namespace Barrage.Pattern

/-! ## Fields -/

namespace Fields

theorem number_injective : Function.Injective number := by
  intro f g h
  have hnumber : ∀ field, f.number field = g.number field := congrFun h
  have hdigits : f.digits = g.digits := by
    ext i hi
    obtain ⟨field, hplace⟩ : ∃ field : Field, field.place = some ⟨i, hi⟩ := by
      have hall : ∀ place : Fin 10, ∃ field ∈ Field.all, field.place = some place := by decide
      obtain ⟨field, -, hplace⟩ := hall ⟨i, hi⟩
      exact ⟨field, hplace⟩
    have hsame := hnumber field
    rw [number_eq, number_eq, hplace] at hsame
    exact hsame
  have htexture : f.texture = g.texture := UInt64.toNat_inj.1 (hnumber .texture)
  cases f
  cases g
  exact congrArg₂ mk hdigits htexture

end Fields

/-- What edits make of the number of a field: those that address it are followed in order. -/
def follow (field : Field) (n : ℕ) (edits : List Edit) : ℕ :=
  (edits.filter fun e => e.field = field).foldl (fun n e => e.change.amend field.limit n) n

section

variable {field : Field} {n : ℕ}

theorem follow_append (edits later : List Edit) :
    follow field n (edits ++ later) = follow field (follow field n edits) later := by
  unfold follow
  rw [List.filter_append, List.foldl_append]

theorem follow_cons (e : Edit) (edits : List Edit) :
    follow field n (e :: edits) =
      follow field (if e.field = field then e.change.amend field.limit n else n) edits := by
  unfold follow
  by_cases haddressed : e.field = field
  · rw [List.filter_cons_of_pos (by simpa using haddressed), List.foldl_cons, if_pos haddressed]
  · rw [List.filter_cons_of_neg (by simpa using haddressed), if_neg haddressed]

theorem follow_of_unaddressed {edits : List Edit} (h : ∀ e ∈ edits, e.field ≠ field) :
    follow field n edits = n := by
  have hnone : (edits.filter fun e => e.field = field) = [] :=
    List.filter_eq_nil_iff.2 fun e he => by simpa using h e he
  rw [follow, hnone]
  rfl

theorem follow_of_set {edits : List Edit} {value : UInt64}
    (h : ⟨field, .set value⟩ ∈ edits) (m n : ℕ) : follow field m edits = follow field n edits := by
  obtain ⟨before, after, rfl⟩ := List.append_of_mem h
  rw [follow_append, follow_append, follow_cons, follow_cons, if_pos rfl, if_pos rfl]
  rfl

theorem Fields.number_edits (f : Fields) (edits : List Edit) (field : Field) :
    (edits.foldl apply f).number field = follow field (f.number field) edits := by
  induction edits generalizing f with
  | nil => rfl
  | cons e edits ih =>
    rw [List.foldl_cons, ih, follow_cons, number_apply, Function.update_apply]
    by_cases haddressed : e.field = field
    · rw [if_pos haddressed.symm, if_pos haddressed, haddressed]
    · rw [if_neg (Ne.symm haddressed), if_neg haddressed]

end

/-! ## Characters -/

def edits (c : Char) : List Edit := (modifier c).getD []

def allEdits (modifiers : List Char) : List Edit := modifiers.flatMap edits

theorem allEdits_append (earlier later : List Char) :
    allEdits (earlier ++ later) = allEdits earlier ++ allEdits later :=
  List.flatMap_append

theorem allEdits_cons (c : Char) (rest : List Char) :
    allEdits (c :: rest) = edits c ++ allEdits rest :=
  List.flatMap_cons

theorem allEdits_singleton (c : Char) : allEdits [c] = edits c := List.flatMap_singleton ..

namespace Fields

theorem ofMnemonic_cons (b : Char) (modifiers : List Char) :
    ofMnemonic (b :: modifiers) = (allEdits modifiers).foldl apply (ofBaseline b) := by
  rw [allEdits, List.foldl_flatMap]
  rfl

theorem number_ofMnemonic (b : Char) (modifiers : List Char) (field : Field) :
    (ofMnemonic (b :: modifiers)).number field = follow field ((ofBaseline b).number field)
      (allEdits modifiers) := by
  rw [ofMnemonic_cons, number_edits]

theorem number_ofMnemonic_append (b : Char) (earlier later : List Char) (field : Field) :
    (ofMnemonic (b :: (earlier ++ later))).number field =
      follow field ((ofMnemonic (b :: earlier)).number field) (allEdits later) := by
  rw [number_ofMnemonic, allEdits_append, follow_append, number_ofMnemonic]

/-- What comes to the same in every field may stand for each other anywhere. -/
theorem ofMnemonic_congr {s t : List Char}
    (h : ∀ field n, follow field n (allEdits s) = follow field n (allEdits t)) (b : Char)
    (before after : List Char) : ofMnemonic (b :: (before ++ (s ++ after))) =
    ofMnemonic (b :: (before ++ (t ++ after))) := by
  apply number_injective
  funext field
  rw [number_ofMnemonic_append, number_ofMnemonic_append, allEdits_append, allEdits_append,
    follow_append, follow_append, h]

end Fields

/-! ## Modifiers -/

/-- A modifier sets fields, or it moves one digit by one. -/
theorem edits_shape (c : Char) :
    (∀ e ∈ edits c, ∃ value, e.change = .set value) ∨
      ∃ field, field ≠ .texture ∧ (edits c = [⟨field, .increment⟩] ∨
        edits c = [⟨field, .decrement⟩]) := by
  unfold edits modifier
  split
  all_goals
    simp

/-- Moving a digit up goes on until nine. -/
theorem follow_replicate_increment {field : Field} (hdigit : field ≠ .texture) {n : ℕ}
    (hn : n ≤ 9) (k : ℕ) : follow field n (List.replicate k ⟨field, .increment⟩) =
    min 9 (n + k) := by
  have hlimit : field.limit = 9 := if_neg hdigit
  induction k generalizing n with
  | zero => exact (min_eq_right hn).symm
  | succ k ih =>
    rw [List.replicate_succ, follow_cons, if_pos rfl, hlimit]
    change follow field (min (n + 1) 9) _ = _
    rw [ih (min_le_right _ _)]
    omega

theorem follow_replicate_decrement (field : Field) (n k : ℕ) :
    follow field n (List.replicate k ⟨field, .decrement⟩) = n - k := by
  induction k generalizing n with
  | zero => rfl
  | succ k ih =>
    rw [List.replicate_succ, follow_cons, if_pos rfl]
    change follow field (n - 1) _ = _
    rw [ih]
    omega

theorem allEdits_replicate {c : Char} {e : Edit} (h : edits c = [e]) (k : ℕ) :
    allEdits (List.replicate k c) = List.replicate k e := by
  rw [allEdits, List.flatMap_replicate, h, List.flatten_replicate_singleton]

theorem follow_twice {edits : List Edit} (h : ∀ e ∈ edits, ∃ value, e.change = .set value)
    (field : Field) (n : ℕ) : follow field n (edits ++ edits) = follow field n edits := by
  rw [follow_append]
  by_cases haddressed : ∃ e ∈ edits, e.field = field
  · obtain ⟨e, he, rfl⟩ := haddressed
    obtain ⟨value, hset⟩ := h e he
    have hmem : ⟨e.field, .set value⟩ ∈ edits := by rwa [← hset]
    exact follow_of_set hmem _ _
  · have hnone : ∀ e ∈ edits, e.field ≠ field := fun e he hfield => haddressed ⟨e, he, hfield⟩
    rw [follow_of_unaddressed hnone]

theorem follow_swap {first second : List Edit} (h : ∀ e ∈ first, ∀ e' ∈ second, e.field ≠ e'.field)
    (field : Field) (n : ℕ) :
    follow field n (first ++ second) = follow field n (second ++ first) := by
  rw [follow_append, follow_append]
  by_cases haddressed : ∃ e ∈ first, e.field = field
  · obtain ⟨e, he, rfl⟩ := haddressed
    have hnone : ∀ e' ∈ second, e'.field ≠ e.field := fun e' he' => (h e he e' he').symm
    rw [follow_of_unaddressed hnone, follow_of_unaddressed hnone]
  · have hnone : ∀ e ∈ first, e.field ≠ field := fun e he hfield => haddressed ⟨e, he, hfield⟩
    rw [follow_of_unaddressed hnone, follow_of_unaddressed hnone]

theorem edits_of_increment {c : Char} {field : Field} (h : ⟨field, .increment⟩ ∈ edits c) :
    edits c = [⟨field, .increment⟩] ∧ field ≠ .texture := by
  rcases edits_shape c with hsets | ⟨other, hdigit, hup | hdown⟩
  · obtain ⟨value, hset⟩ := hsets _ h
    cases hset
  · rw [hup] at h ⊢
    cases List.mem_singleton.1 h
    exact ⟨rfl, hdigit⟩
  · rw [hdown] at h
    cases List.mem_singleton.1 h

theorem edits_of_decrement {c : Char} {field : Field} (h : ⟨field, .decrement⟩ ∈ edits c) :
    edits c = [⟨field, .decrement⟩] ∧ field ≠ .texture := by
  rcases edits_shape c with hsets | ⟨other, hdigit, hup | hdown⟩
  · obtain ⟨value, hset⟩ := hsets _ h
    cases hset
  · rw [hup] at h
    cases List.mem_singleton.1 h
  · rw [hdown] at h ⊢
    cases List.mem_singleton.1 h
    exact ⟨rfl, hdigit⟩

namespace Fields

theorem number_replicate_other {c : Char} {e : Edit} (h : edits c = [e]) (k : ℕ)
    {field : Field} (n : ℕ) (hother : e.field ≠ field) :
    follow field n (allEdits (List.replicate k c)) = n := by
  rw [allEdits_replicate h]
  apply follow_of_unaddressed
  intro e' he'
  rwa [List.eq_of_mem_replicate he']

/-- Each field of a mnemonic follows, from its baseline, those edits that address it, in order. So,
anywhere in a mnemonic, neighbours that edit different fields may change places; a character without
a meaning may go, and so may a modifier of one field that is set later on; a modifier that only sets
may be doubled; and copies of a modifier that moves a digit move it as often, until it comes to its
end. -/
theorem modifiers_edit_their_own_fields (b : Char) (before after : List Char) :
    (∀ (s : List Char) (field : Field),
      (ofMnemonic (b :: s)).number field =
        ((s.flatMap edits).filter fun e => e.field = field).foldl
          (fun n e => e.change.amend field.limit n) ((ofBaseline b).number field)) ∧
    (∀ c d, (∀ e ∈ edits c, ∀ e' ∈ edits d, e.field ≠ e'.field) →
      ofMnemonic (b :: (before ++ c :: d :: after)) =
        ofMnemonic (b :: (before ++ d :: c :: after))) ∧
    (∀ c, modifier c = none → ofMnemonic (b :: (before ++ c :: after)) =
      ofMnemonic (b :: (before ++ after))) ∧
    (∀ c, (∀ e ∈ edits c, ∃ value, e.change = .set value) →
      ofMnemonic (b :: (before ++ c :: c :: after)) = ofMnemonic (b :: (before ++ c :: after))) ∧
    (∀ c field, (∀ e ∈ edits c, e.field = field) →
      (∃ d ∈ after, ∃ value, ⟨field, .set value⟩ ∈ edits d) →
      ofMnemonic (b :: (before ++ c :: after)) = ofMnemonic (b :: (before ++ after))) ∧
    (∀ c field k, ⟨field, .increment⟩ ∈ edits c →
      (ofMnemonic (b :: (before ++ List.replicate k c))).number =
        Function.update (ofMnemonic (b :: before)).number field
          (min 9 ((ofMnemonic (b :: before)).number field + k))) ∧
    ∀ c field k, ⟨field, .decrement⟩ ∈ edits c →
      (ofMnemonic (b :: (before ++ List.replicate k c))).number =
        Function.update (ofMnemonic (b :: before)).number field
          ((ofMnemonic (b :: before)).number field - k) := by
  refine ⟨number_ofMnemonic b, fun c d hdisjoint => ?_, fun c hunknown => ?_, fun c hsets => ?_,
    fun c field hone hlater => ?_, fun c field k hup => ?_, fun c field k hdown => ?_⟩
  · refine ofMnemonic_congr (s := [c, d]) (t := [d, c]) (fun field n => ?_) b before after
    rw [allEdits_cons, allEdits_singleton, allEdits_cons, allEdits_singleton]
    exact follow_swap hdisjoint field n
  · refine ofMnemonic_congr (s := [c]) (t := []) (fun field n => ?_) b before after
    rw [allEdits_singleton, edits, hunknown]
    rfl
  · refine ofMnemonic_congr (s := [c, c]) (t := [c]) (fun field n => ?_) b before after
    rw [allEdits_cons, allEdits_singleton]
    exact follow_twice hsets field n
  · obtain ⟨d, hd, value, hset⟩ := hlater
    obtain ⟨between, rest, rfl⟩ := List.append_of_mem hd
    have hsame := ofMnemonic_congr (s := c :: (between ++ [d])) (t := between ++ [d])
      (fun other n => ?_) b before rest
    · simpa using hsame
    · rw [allEdits_cons, follow_append]
      -- in its own field the character is overruled later, and in others it has no say
      by_cases hother : other = field
      · subst hother
        have hmem : ⟨other, .set value⟩ ∈ allEdits (between ++ [d]) := by
          rw [allEdits_append, allEdits_singleton]
          exact List.mem_append_right _ hset
        exact follow_of_set hmem _ _
      · have hnone : ∀ e ∈ edits c, e.field ≠ other :=
          fun e he hfield => hother (hfield.symm.trans (hone e he))
        rw [follow_of_unaddressed hnone]
  · obtain ⟨halone, hdigit⟩ := edits_of_increment hup
    funext other
    rw [number_ofMnemonic_append, Function.update_apply]
    split
    · next hsame =>
      have hlimit := (ofMnemonic (b :: before)).number_le_limit field
      rw [Field.limit, if_neg hdigit] at hlimit
      rw [hsame, allEdits_replicate halone, follow_replicate_increment hdigit hlimit]
    · next hother => exact number_replicate_other halone k _ (Ne.symm hother)
  · obtain ⟨halone, hdigit⟩ := edits_of_decrement hdown
    funext other
    rw [number_ofMnemonic_append, Function.update_apply]
    split
    · next hsame => rw [hsame, allEdits_replicate halone, follow_replicate_decrement]
    · next hother => exact number_replicate_other halone k _ (Ne.symm hother)

/-- In one mnemonic, narrow spread and speed are told in either order, what is unknown and the first
texture are left out, the second texture is told once, and eight steps faster stop at the shortest
period. -/
theorem D3SF_told_otherwise :
    ofMnemonic "D3FSBT?X".toList = ofMnemonic "D3SFTXX".toList ∧
      (ofMnemonic ('D' :: (['3', 'S'] ++ List.replicate 8 'F'))).number .period = 0 := by
  have heditsF : edits 'F' = [⟨.period, .decrement⟩] := rfl
  have heditsX : edits 'X' = [⟨.texture, .set 130⟩] := rfl
  obtain ⟨-, hswap, -⟩ := modifiers_edit_their_own_fields 'D' ['3'] ['B', 'T', '?', 'X']
  obtain ⟨-, -, -, -, hlater, -⟩ := modifiers_edit_their_own_fields 'D' ['3', 'S', 'F']
    ['T', '?', 'X']
  obtain ⟨-, -, hunknown, -⟩ := modifiers_edit_their_own_fields 'D' ['3', 'S', 'F', 'T'] ['X']
  obtain ⟨-, -, -, htwice, -⟩ := modifiers_edit_their_own_fields 'D' ['3', 'S', 'F', 'T'] []
  obtain ⟨-, -, -, -, -, -, hdown⟩ := modifiers_edit_their_own_fields 'D' ['3', 'S'] []
  constructor
  · calc ofMnemonic "D3FSBT?X".toList
      _ = ofMnemonic "D3SFBT?X".toList := hswap 'F' 'S' (by decide)
      _ = ofMnemonic "D3SFT?X".toList := hlater 'B' .texture (by decide)
          ⟨'X', by decide, 130, by decide⟩
      _ = ofMnemonic "D3SFTX".toList := hunknown '?' rfl
      _ = ofMnemonic "D3SFTXX".toList := (htwice 'X' (by simp [heditsX])).symm
  · have hnumber := congrFun (hdown 'F' .period 8 (by simp [heditsF])) .period
    rw [hnumber, Function.update_self]
    decide

end Fields

end Barrage.Pattern
