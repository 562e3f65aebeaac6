import Barrage.Pattern.Mnemonic
import Barrage.Pattern.Volley
import Barrage.Proofs.Pattern.Packing

/-! # Mnemonics as shorthand

A mnemonic of any length keeps to digits and to the few textures that have a letter, so nothing of
it is lost when it is packed. The number that it makes, written out, is read as that number. -/

namespace Barrage

namespace Decimal

theorem value_eq (digits : List Char) : value digits = Nat.ofDigitChars 10 digits 0 := by
  unfold value Nat.ofDigitChars
  simp only [mul_comm]

theorem isDigit_toDigits {n : ℕ} {c : Char} (h : c ∈ Nat.toDigits 10 n) : c.isDigit = true :=
  Nat.isDigit_of_mem_toDigits (by decide) (by decide) h

theorem natural?_toDigits (n : ℕ) : natural? (Nat.toDigits 10 n) = some n := by
  have hall : (Nat.toDigits 10 n).all Char.isDigit = true :=
    List.all_eq_true.2 fun _ => isDigit_toDigits
  unfold natural?
  rw [hall, if_neg (by simp [Nat.toDigits_ne_nil]), value_eq, Nat.ofDigitChars_ten_toDigits]

theorem unsigned?_toDigits {limit n : ℕ} (h : n ≤ limit) :
    unsigned? limit (Nat.toDigits 10 n) = some n := by
  have hread : unsigned? limit (Nat.toDigits 10 n) =
      (natural? (Nat.toDigits 10 n)).filter fun m => decide (m ≤ limit) := by
    unfold unsigned?
    split
    · next rest hplus =>
      have hdigit : '+'.isDigit = true := isDigit_toDigits (n := n)
        (by rw [hplus]; exact List.mem_cons_self ..)
      cases hdigit
    · rfl
  rw [hread, natural?_toDigits]
  simp [h]

end Decimal

theorem Text.isLetter_of_isDigit {c : Char} (h : c.isDigit = true) : Text.isLetter c = false := by
  simp only [Char.isDigit, Bool.and_eq_true, decide_eq_true_eq, UInt32.le_iff_toNat_le, ge_iff_le]
    at h
  change 48 ≤ c.toNat ∧ c.toNat ≤ 57 at h
  unfold Text.isLetter
  rw [if_pos (by omega), Bool.eq_false_iff]
  intro halpha
  simp only [Char.isAlpha, Char.isUpper, Char.isLower, Bool.or_eq_true, Bool.and_eq_true,
    decide_eq_true_eq, UInt32.le_iff_toNat_le, ge_iff_le] at halpha
  change (65 ≤ c.toNat ∧ c.toNat ≤ 90) ∨ 97 ≤ c.toNat ∧ c.toNat ≤ 122 at halpha
  omega

namespace Pattern

theorem Notation.read?_code (p : Packed) : read? (toString p.code).toList = some (packed p) := by
  have htext : (toString p.code).toList = Nat.toDigits 10 p.code.toNat := by
    change (toString p.code.toNat).toList = _
    rw [Nat.toString_eq_ofList_toDigits, String.toList_ofList]
  have hcode := UInt64.toNat_lt p.code
  rw [htext]
  unfold read?
  split
  · next hnil => exact absurd hnil Nat.toDigits_ne_nil
  · next c rest htext =>
    have hdigit : c.isDigit = true :=
      Decimal.isDigit_toDigits (n := p.code.toNat) (by rw [htext]; exact List.mem_cons_self ..)
    rw [Text.isLetter_of_isDigit hdigit, if_neg Bool.false_ne_true, ← htext,
      Decimal.unsigned?_toDigits (by rw [UInt64.size]; omega), Option.map_some, UInt64.ofNat_toNat]

/-! ## Textures of mnemonics -/

def lastTexture : ℕ := 130

/-- Sets the texture, if it touches it, to one that has a letter. -/
def Edit.Modest (e : Edit) : Prop :=
  e.field = .texture → ∃ texture, e.change = .set texture ∧ texture.toNat ≤ lastTexture

theorem modifier_modest {c : Char} {edits : List Edit} (h : modifier c = some edits) :
    ∀ e ∈ edits, e.Modest := by
  unfold modifier at h
  split at h
  all_goals
    cases h
  all_goals
    simp [Edit.Modest, lastTexture]

namespace Fields

theorem texture_ofBaseline (c : Char) : (ofBaseline c).number .texture ≤ lastTexture := by
  unfold ofBaseline
  split
  · next digits texture hbaseline =>
    change texture.toNat ≤ lastTexture
    unfold baseline at hbaseline
    split at hbaseline <;> cases hbaseline <;> decide
  · decide

theorem texture_apply {f : Fields} {e : Edit} (he : e.Modest)
    (h : f.number .texture ≤ lastTexture) : (f.apply e).number .texture ≤ lastTexture := by
  rw [number_apply, Function.update_apply]
  split
  · next hfield =>
    obtain ⟨texture, hchange, hle⟩ := he hfield.symm
    rw [hchange]
    exact (min_le_left _ _).trans hle
  · exact h

theorem texture_modify {f : Fields} (c : Char) (h : f.number .texture ≤ lastTexture) :
    (f.modify c).number .texture ≤ lastTexture := by
  unfold modify
  cases hmodifier : modifier c with
  | none => exact h
  | some edits =>
    have hmodest := modifier_modest hmodifier
    exact List.foldlRecOn (motive := fun f => f.number .texture ≤ lastTexture) edits apply h
      fun f hf e he => texture_apply (hmodest e he) hf

theorem texture_ofMnemonic (mnemonic : List Char) :
    (ofMnemonic mnemonic).number .texture ≤ lastTexture := by
  cases mnemonic with
  | nil => decide
  | cons c modifiers =>
    exact List.foldlRecOn (motive := fun f => f.number .texture ≤ lastTexture) modifiers modify
      (texture_ofBaseline c) fun f hf m _ => texture_modify m hf

theorem amount_lt (f : Fields) : f.amount < (f.number .texture + 1) * 10 ^ 10 := by
  have hdigits := Nat.ofDigits_lt_base_pow_length (by decide) f.numerals_lt
  have htexture : f.number .texture = f.texture.toNat := rfl
  rw [length_numerals] at hdigits
  rw [amount_eq, htexture]
  omega

theorem amount_ofMnemonic (mnemonic : List Char) :
    (ofMnemonic mnemonic).amount ≤ UInt64.size - 1 := by
  have hlt := (ofMnemonic mnemonic).amount_lt
  have htexture := texture_ofMnemonic mnemonic
  unfold lastTexture at htexture
  rw [UInt64.size]
  omega

theorem unpack_pack_ofMnemonic (mnemonic : List Char) :
    unpack (ofMnemonic mnemonic).pack = ofMnemonic mnemonic :=
  (unpack_pack_iff _).2 (amount_ofMnemonic mnemonic)

end Fields

/-- A mnemonic of any length holds digits and packs without loss, and every packed number is read
from its own text. So whatever text is accepted as a pattern, the number that it stands for is
another text of the same pattern: that number comes back as it is, with the fields that a mnemonic
has compiled to, and is decoded alike. -/
theorem numbers_replace_mnemonics :
    (∀ mnemonic : List Char,
      let f := Fields.ofMnemonic mnemonic
      (∀ field, field ≠ .texture → f.number field ≤ 9) ∧ f.pack? = some f.pack ∧
        f.pack.code.toNat = f.amount ∧ Fields.unpack f.pack = f) ∧
    (∀ p : Packed, Notation.read? (toString p.code).toList = some (.packed p)) ∧
    ∀ (text : List Char) (written : Notation), Notation.read? text = some written →
      ∃ literal, Notation.read? (toString written.compile.code).toList = some literal ∧
        literal.compile = written.compile ∧
        (∀ mnemonic, written = .mnemonic mnemonic →
          Fields.unpack literal.compile = Fields.ofMnemonic mnemonic.toList) ∧
        ∀ {α : Type} [Scalar α] (worldWidth tempo : α),
          Volley.decode literal.compile worldWidth tempo =
            Volley.decode written.compile worldWidth tempo := by
  refine ⟨fun mnemonic => ?_, Notation.read?_code, fun text written _ => ?_⟩
  · intro f
    obtain ⟨hpack, hcode⟩ := f.pack_spec
    refine ⟨fun field hfield => ?_, hpack, ?_, Fields.unpack_pack_ofMnemonic mnemonic⟩
    · have hlimit := f.number_le_limit field
      rwa [Field.limit, if_neg hfield] at hlimit
    · rw [hcode]
      exact min_eq_left (Fields.amount_ofMnemonic mnemonic)
  · refine ⟨.packed written.compile, Notation.read?_code _, rfl, ?_, fun _ _ => rfl⟩
    rintro mnemonic rfl
    exact Fields.unpack_pack_ofMnemonic mnemonic.toList

/-- Three shots in a narrow spread, one step faster than usual. -/
theorem number_replaces_D3SF :
    Notation.read? "D3SF".toList = some (.mnemonic "D3SF") ∧
    ∃ literal, Notation.read? "9110024613".toList = some literal ∧
      Fields.unpack literal.compile = Fields.ofMnemonic "D3SF".toList ∧
      literal.compile = (Notation.mnemonic "D3SF").compile := by
  have hread : Notation.read? "D3SF".toList = some (.mnemonic "D3SF") := by decide +kernel
  have hcode : toString (Notation.mnemonic "D3SF").compile.code = "9110024613" := by decide +kernel
  obtain ⟨literal, hliteral, hcompile, hfields, -⟩ := numbers_replace_mnemonics.2.2 _ _ hread
  rw [hcode] at hliteral
  exact ⟨hread, literal, hliteral, hfields "D3SF" rfl, hcompile⟩

end Pattern

end Barrage
