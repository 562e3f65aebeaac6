import Barrage.Number.Reader
import Barrage.Proofs.Level.Loading
import Barrage.Proofs.Scalar.Rounding

/-! # The grammar of numeric fields

What a numeric field may look like is said here form by form, and reading accepts just that. A minus
may be the sign of a bound, the sign of its exponent or the mark between two bounds; the first one
behind the first character is the mark, and so a range can be read in one way only. -/

namespace Barrage

namespace Decimal

variable {text : List Char} {c : Char}

/-- A fraction begins with a sign, a digit or a point, and the words begin with two letters only. -/
theorem Notation.read?_of_letter (hsign : c ≠ '-' ∧ c ≠ '+') (hdigit : c.isDigit = false)
    (hpoint : c ≠ '.') (hword : c.toLower ≠ 'i' ∧ c.toLower ≠ 'n') :
    Notation.read? (c :: text) = none := by
  have hplain : sign (c :: text) = (false, c :: text) := by
    unfold sign
    split
    · next h => exact absurd (List.cons.inj h).1 hsign.1
    · next h => exact absurd (List.cons.inj h).1 hsign.2
    · rfl
  have hdigits : spanDigits (c :: text) = ([], c :: text) := by
    rw [spanDigits, List.span_eq_takeWhile_dropWhile, List.takeWhile_cons_of_neg (by simp [hdigit]),
      List.dropWhile_cons_of_neg (by simp [hdigit])]
  have hfraction : fraction? false (c :: text) = none := by
    unfold fraction?
    rw [hdigits]
    dsimp only
    split
    · next h => exact absurd (List.cons.inj h).1 hpoint
    · rfl
  have hnone : word? false (c :: text) = none := by
    have hother : ∀ word : String, word.toList.head? = some 'i' ∨ word.toList.head? = some 'n' →
        String.ofList ((c :: text).map Char.toLower) ≠ word := by
      rintro _ hhead rfl
      rw [String.toList_ofList, List.map_cons, List.head?_cons, Option.some.injEq,
        Option.some.injEq] at hhead
      exact hhead.elim hword.1 hword.2
    unfold word?
    split
    · next h => exact absurd h (hother "inf" (.inl rfl))
    · next h => exact absurd h (hother "infinity" (.inl rfl))
    · next h => exact absurd h (hother "nan" (.inr rfl))
    · rfl
  rw [Notation.read?, hplain]
  dsimp only
  rw [hfraction, hnone]
  rfl

theorem fraction?_signed (text : List Char) :
    ∃ size : Option (ℕ × ℤ), ∀ negative, fraction? negative text = size.map fun p =>
      .finite negative p.1 p.2 := by
  refine ⟨(fraction? false text).map fun | .finite _ m e => (m, e) | _ => (0, 0),
    fun negative => ?_⟩
  unfold fraction?
  dsimp only
  split_ifs
  · rfl
  · rw [Option.map_map, Option.map_map]
    rfl

theorem not_finite_of_word {negative : Bool} {note : Notation}
    (h : word? negative text = some note) : note.toSingle.isFinite = false := by
  unfold word? at h
  split at h
  · obtain rfl := Option.some.inj h
    cases negative <;> decide +kernel
  · obtain rfl := Option.some.inj h
    cases negative <;> decide +kernel
  · obtain rfl := Option.some.inj h
    decide +kernel
  · cases h

end Decimal

theorem Single.isFinite_neg (x : Float32) : (-x).isFinite = x.isFinite := by
  have hneg : unpacked (-x) = (unpacked x).neg := by
    refine unpack_pack ?_
    change Canonical (unpacked x).neg
    have hx := unpacked_canonical x
    cases hu : unpacked x with
    | finite s m e h =>
      rw [hu] at hx
      exact hx
    | _ => trivial
  change (unpacked (-x)).isFinite = (unpacked x).isFinite
  rw [hneg]
  cases unpacked x <;> rfl

namespace Number

/-- A decimal fraction that has this finite value. -/
def IsFraction (text : List Char) (value : Float32) : Prop :=
  Decimal.single? text = some value ∧ value.isFinite = true

/-- The forms of a numeric field. -/
inductive Denotes : List Char → Number Float32 → Prop where
  | literal {text : List Char} {value : Float32} : IsFraction text value →
      Denotes text (.literal value)
  | beats {text : List Char} {count : Float32} : IsFraction text count →
      Denotes ('b' :: text) (.beats count)
  | pi {text : List Char} {factor : Float32} : IsFraction text factor →
      Denotes ('p' :: text) (.pi factor)
  | turn {text : List Char} {count : Float32} : IsFraction text count →
      Denotes ('c' :: text) (.turn count)
  | random {before after : List Char} {lo hi : Float32} : IsFraction before lo →
      IsFraction after hi →
      '-' ∉ before.tail → Denotes ('R' :: (before ++ '-' :: after)) (.random lo hi)

variable {text before after : List Char} {v : Float32} {n : Number Float32}

theorem finite?_eq_some_iff : finite? text = some v ↔ IsFraction text v := Option.filter_eq_some_iff

theorem IsFraction.ne_nil (h : IsFraction text v) : text ≠ [] := by
  rintro rfl
  obtain ⟨h, -⟩ := h
  have hnone : Decimal.Notation.read? [] = none := rfl
  rw [Decimal.single?, hnone] at h
  cases h

theorem not_fraction_of_letter {c : Char} (hc : c ∈ ['R', 'b', 'p', 'c']) :
    ¬ IsFraction (c :: text) v := by
  rintro ⟨h, -⟩
  have hletter : (c ≠ '-' ∧ c ≠ '+') ∧ c.isDigit = false ∧ c ≠ '.' ∧ c.toLower ≠ 'i' ∧
      c.toLower ≠ 'n' := by
    simp only [List.mem_cons, List.not_mem_nil, or_false] at hc
    rcases hc with rfl | rfl | rfl | rfl <;> decide
  obtain ⟨hsign, hdigit, hpoint, hword⟩ := hletter
  rw [Decimal.single?, Decimal.Notation.read?_of_letter hsign hdigit hpoint hword] at h
  cases h

theorem IsFraction.neg (h : IsFraction text v)
    (hsign : text.head? ≠ some '-' ∧ text.head? ≠ some '+') : IsFraction ('-' :: text) (-v) := by
  obtain ⟨hread, hfinite⟩ := h
  obtain ⟨note, hnote, rfl⟩ := Option.map_eq_some_iff.1 hread
  have hplain : Decimal.sign text = (false, text) := by
    unfold Decimal.sign
    split
    · exact absurd rfl hsign.1
    · exact absurd rfl hsign.2
    · rfl
  rw [Decimal.Notation.read?, hplain] at hnote
  obtain ⟨size, hsize⟩ := Decimal.fraction?_signed text
  refine ⟨?_, (Single.isFinite_neg _).trans hfinite⟩
  change
    ((Decimal.fraction? true text <|> Decimal.word? true text).map Decimal.Notation.toSingle) = _
  change (Decimal.fraction? false text <|> Decimal.word? false text) = _ at hnote
  rw [hsize] at hnote ⊢
  cases size with
  | none =>
    have hword := Decimal.not_finite_of_word (show Decimal.word? false text = some note from hnote)
    rw [hfinite] at hword
    cases hword
  | some p =>
    obtain rfl := Option.some.inj hnote
    rfl

/-! ## Ranges -/

theorem splitAtMinus_append (h : '-' ∉ before) (after : List Char) :
    splitAtMinus (before ++ '-' :: after) = some (before, after) := by
  have hbefore : ∀ c ∈ before, decide (c ≠ '-') = true :=
    fun c hc => decide_eq_true fun heq => h (heq ▸ hc)
  rw [splitAtMinus, List.span_eq_takeWhile_dropWhile, List.takeWhile_append_of_pos hbefore,
    List.dropWhile_append_of_pos hbefore, List.takeWhile_cons_of_neg (by decide),
    List.dropWhile_cons_of_neg (by decide), List.append_nil]

theorem eq_of_splitAtMinus (h : splitAtMinus text = some (before, after)) :
    text = before ++ '-' :: after ∧ '-' ∉ before := by
  rw [splitAtMinus, List.span_eq_takeWhile_dropWhile] at h
  have hwhole := List.takeWhile_append_dropWhile (p := fun c => decide (c ≠ '-')) (l := text)
  split at h
  · next mark rest heq =>
    obtain ⟨hbefore, hrest⟩ := Prod.mk.inj heq
    obtain ⟨rfl, rfl⟩ := Prod.mk.inj (Option.some.inj h)
    have hmark : mark = '-' := by
      have hhead := List.head_dropWhile_not (fun c => decide (c ≠ '-'))
        (hrest ▸ List.cons_ne_nil mark rest)
      simp only [hrest, List.head_cons] at hhead
      simpa using hhead
    rw [hrest, hbefore, hmark] at hwhole
    refine ⟨hwhole.symm, fun hmem => ?_⟩
    rw [← hbefore] at hmem
    simpa using List.mem_takeWhile_imp hmem
  · cases h

/-- A range has one mark between its bounds, and what is before it and behind it are fractions. -/
theorem range?_eq_some_iff : range? text = some n ↔ Denotes ('R' :: text) n := by
  constructor
  · intro h
    cases text with
    | nil => cases h
    | cons c text =>
      obtain ⟨⟨before, after⟩, hsplit, h⟩ := Option.bind_eq_some_iff.1 h
      obtain ⟨lo, hlo, h⟩ := Option.bind_eq_some_iff.1 h
      obtain ⟨hi, hhi, h⟩ := Option.bind_eq_some_iff.1 h
      obtain rfl := Option.some.inj h
      obtain ⟨rfl, hmark⟩ := eq_of_splitAtMinus hsplit
      have hrange : Denotes ('R' :: (c :: before ++ '-' :: after)) (.random lo hi) :=
        .random (finite?_eq_some_iff.1 hlo) (finite?_eq_some_iff.1 hhi) hmark
      exact hrange
  · intro h
    cases h with
    | literal h => exact absurd h (not_fraction_of_letter (by decide))
    | @random before after lo hi hlo hhi hmark =>
      cases before with
      | nil => exact absurd rfl hlo.ne_nil
      | cons c before =>
        have hsplit := splitAtMinus_append (show '-' ∉ before from hmark) after
        rw [← finite?_eq_some_iff] at hlo hhi
        rw [List.cons_append, range?, hsplit]
        change (do return random (← finite? (c :: before)) (← finite? after)) = _
        rw [hlo, hhi]
        rfl

/-! ## All forms -/

theorem read?_eq_some_iff : read? text = some n ↔ Denotes text n := by
  constructor
  · intro h
    unfold read? at h
    split at h
    · exact range?_eq_some_iff.1 h
    all_goals
      obtain ⟨v, hv, rfl⟩ := Option.map_eq_some_iff.1 h
      rw [finite?_eq_some_iff] at hv
    · exact .beats hv
    · exact .pi hv
    · exact .turn hv
    · exact .literal hv
  · intro h
    cases h with
    | literal h =>
      unfold read?
      split
      iterate 4 exact absurd h (not_fraction_of_letter (by decide))
      rw [finite?_eq_some_iff.2 h]
      rfl
    | beats h | pi h | turn h =>
      rw [read?, finite?_eq_some_iff.2 h]
      rfl
    | random hlo hhi hmark => exact range?_eq_some_iff.2 (.random hlo hhi hmark)

/-- Behind its first character the first bound has no minus, so there is one place only where it can
end. -/
theorem bounds_unique {before' after' : List Char} (hbefore : before ≠ []) (hbefore' : before' ≠ [])
    (hmark : '-' ∉ before.tail) (hmark' : '-' ∉ before'.tail)
    (heq : before ++ '-' :: after = before' ++ '-' :: after') :
    before = before' ∧ after = after' := by
  obtain ⟨c, rest, rfl⟩ := List.exists_cons_of_ne_nil hbefore
  obtain ⟨c', rest', rfl⟩ := List.exists_cons_of_ne_nil hbefore'
  obtain ⟨rfl, htail⟩ : c = c' ∧ rest ++ '-' :: after = rest' ++ '-' :: after' := List.cons.inj heq
  have hsplit := splitAtMinus_append (show '-' ∉ rest from hmark) after
  have hsplit' := splitAtMinus_append (show '-' ∉ rest' from hmark') after'
  rw [htail, hsplit'] at hsplit
  obtain ⟨rfl, rfl⟩ := Prod.mk.inj (Option.some.inj hsplit)
  exact ⟨rfl, rfl⟩

theorem denotes_random_iff {lo hi : Float32} :
    Denotes text (.random lo hi) ↔ ∃! bounds : List Char × List Char,
    text = 'R' :: (bounds.1 ++ '-' :: bounds.2) ∧ '-' ∉ bounds.1.tail ∧
      IsFraction bounds.1 lo ∧ IsFraction bounds.2 hi := by
  constructor
  · intro h
    cases h with
    | @random before after _ _ hlo hhi hmark =>
      refine ⟨(before, after), ⟨rfl, hmark, hlo, hhi⟩, ?_⟩
      rintro ⟨before', after'⟩ ⟨heq, hmark', hlo', -⟩
      obtain ⟨rfl, rfl⟩ := bounds_unique hlo'.ne_nil hlo.ne_nil hmark' hmark
        (List.cons.inj heq).2.symm
      rfl
  · rintro ⟨bounds, ⟨rfl, hmark, hlo, hhi⟩, -⟩
    exact .random hlo hhi hmark

theorem denotes_beats_iff : Denotes text (.beats v) ↔ ∃ rest, text = 'b' :: rest ∧
    IsFraction rest v := by
  constructor
  · rintro ⟨⟩
    exact ⟨_, rfl, ‹_›⟩
  · rintro ⟨rest, rfl, h⟩
    exact .beats h

theorem denotes_pi_iff : Denotes text (.pi v) ↔ ∃ rest, text = 'p' :: rest ∧ IsFraction rest v := by
  constructor
  · rintro ⟨⟩
    exact ⟨_, rfl, ‹_›⟩
  · rintro ⟨rest, rfl, h⟩
    exact .pi h

theorem denotes_turn_iff : Denotes text (.turn v) ↔ ∃ rest, text = 'c' :: rest ∧
    IsFraction rest v := by
  constructor
  · rintro ⟨⟩
    exact ⟨_, rfl, ‹_›⟩
  · rintro ⟨rest, rfl, h⟩
    exact .turn h

theorem denotes_literal_iff : Denotes text (.literal v) ↔ IsFraction text v := by
  constructor
  · rintro ⟨⟩
    assumption
  · exact .literal

/-- A numeric field is read if it has one of the forms, and as what the form says; no text has two.
The bounds of a range are found in one way only and keep their signs, and all that is read is
finite. -/
theorem numbers_are_read_by_their_form (text : List Char) :
    (∀ lo hi, read? text = some (.random lo hi) ↔ ∃! bounds : List Char × List Char,
      text = 'R' :: (bounds.1 ++ '-' :: bounds.2) ∧ '-' ∉ bounds.1.tail ∧
        IsFraction bounds.1 lo ∧ IsFraction bounds.2 hi) ∧
    (∀ count, read? text = some (.beats count) ↔
      ∃ rest, text = 'b' :: rest ∧ IsFraction rest count) ∧
    (∀ factor, read? text = some (.pi factor) ↔
      ∃ rest, text = 'p' :: rest ∧ IsFraction rest factor) ∧
    (∀ count, read? text = some (.turn count) ↔
      ∃ rest, text = 'c' :: rest ∧ IsFraction rest count) ∧
    (∀ value, read? text = some (.literal value) ↔ IsFraction text value) ∧
    (read? text = none ↔ ∀ n, ¬ Denotes text n) ∧
    (∀ n n', Denotes text n → Denotes text n' → n = n') ∧
    (∀ n, read? text = some n → n.Finite) ∧
    ∀ before after lo hi, text = 'R' :: '-' :: (before ++ '-' :: '-' :: after) → '-' ∉ before →
      before.head? ≠ some '+' → after.head? ≠ some '-' ∧ after.head? ≠ some '+' →
      IsFraction before lo → IsFraction after hi → read? text = some (.random (-lo) (-hi)) := by
  refine ⟨fun lo hi => read?_eq_some_iff.trans denotes_random_iff,
    fun count => read?_eq_some_iff.trans denotes_beats_iff, fun factor =>
    read?_eq_some_iff.trans denotes_pi_iff, fun count => read?_eq_some_iff.trans denotes_turn_iff,
    fun value => read?_eq_some_iff.trans denotes_literal_iff, ?_,
    fun n n' h h' => ?_, fun n => finite_of_read?, ?_⟩
  · rw [Option.eq_none_iff_forall_ne_some]
    exact forall_congr' fun n => not_congr read?_eq_some_iff
  · exact Option.some.inj ((read?_eq_some_iff.2 h).symm.trans (read?_eq_some_iff.2 h'))
  · rintro before after lo hi rfl hmark hplus hsign hlo hhi
    have hminus : before.head? ≠ some '-' := fun hhead => hmark (List.mem_of_mem_head? hhead)
    have hrange : Denotes ('R' :: ('-' :: before ++ '-' :: '-' :: after)) (.random (-lo) (-hi)) :=
      .random (hlo.neg ⟨hminus, hplus⟩) (hhi.neg hsign) hmark
    exact read?_eq_some_iff.2 hrange

example : read? "R-5--2".toList = some (.random (-5) (-2)) := by decide +kernel

end Number

end Barrage
