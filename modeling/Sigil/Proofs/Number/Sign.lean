import Mathlib.Algebra.Group.Nat.Defs
import Mathlib.Tactic.SplitIfs
import Sigil.Proofs.Node.Grammar

/-!
# Floats that are read have no sign

A decimal without a sign is read as a float that scripts can write
(`Decimal.isSpoken_toFloat`): neither negative nor anything but a number. The
bits of such floats are those up to the bits of infinity
(`Number.isSpoken_iff`), and rounding, multiplying and dividing keep to them.
-/

namespace Sigil

namespace Number

/-- The bits of infinity, as a number. -/
def infinityBits : Nat := 2047 * 2 ^ 52

theorem isSpoken_iff {x : Float} : isSpoken x ↔ x.toBits.toNat ≤ infinityBits := by
  have bound := x.toBits.toNat_lt
  unfold isSpoken Binary.ofFloat infinityBits
  dsimp only
  generalize x.toBits.toNat = bits at bound ⊢
  by_cases sign : 2 ^ 63 ≤ bits
  · have : ¬ bits ≤ 2047 * 2 ^ 52 := by omega
    simp only [sign, decide_true, this, iff_false]
    split_ifs <;> simp
  · by_cases special : bits / 2 ^ 52 % 2 ^ 11 = 2047
    · by_cases fraction : bits % 2 ^ 52 = 0
      · simp only [sign, special, fraction, decide_false, if_true, true_iff]
        omega
      · simp only [special, fraction, if_true, if_false, Bool.false_eq_true, false_iff]
        omega
    · have : bits ≤ 2047 * 2 ^ 52 := by omega
      simp only [sign, special, decide_false, if_false, this, iff_true]
      split_ifs <;> rfl

section

open Float.Model

/-- A float before it is packed that is no negative one and is a number or infinite. -/
def Unsigned : UnpackedFloat → Bool
  | .infinity .positive | .zero .positive | .finite .positive .. => true
  | _ => false

theorem unsigned_dite {c : Prop} [Decidable c] {f : c → UnpackedFloat} {g : ¬ c → UnpackedFloat}
    (hf : ∀ h, Unsigned (f h)) (hg : ∀ h, Unsigned (g h)) :
    Unsigned (if h : c then f h else g h) := by
  split
  · next h => exact hf h
  · next h => exact hg h

theorem toNat_packComponents (e : BitVec 11) (m : BitVec 52) :
    (UnpackedFloat.packComponents Format.binary64 .positive e m).toNat =
      e.toNat * 2 ^ 52 + m.toNat := by
  simp only [UnpackedFloat.packComponents, UnpackedFloat.Sign.toBitVec, BitVec.toNat_append]
  rw [← Nat.shiftLeft_add_eq_or_of_lt m.isLt, Nat.shiftLeft_eq]
  simp

theorem toNat_packedInfinity :
    (UnpackedFloat.packedInfinity Format.binary64 .positive).toNat = infinityBits := by
  decide

theorem toNat_pack_le {f : UnpackedFloat} (h : Unsigned f) :
    (UnpackedFloat.pack Format.binary64 f).toNat ≤ infinityBits := by
  unfold infinityBits
  unfold UnpackedFloat.pack
  split
  · cases h
  · next sign =>
    cases sign
    · cases h
    · exact Nat.le_of_eq toNat_packedInfinity
  · next sign =>
    cases sign
    · cases h
    · exact Nat.zero_le _
  · next sign m e _ =>
    cases sign
    · cases h
    dsimp only
    split_ifs
    · exact Nat.le_of_eq toNat_packedInfinity
    all_goals
      rw [toNat_packComponents]
      have := (BitVec.ofNat 52 m).isLt
      simp only [BitVec.toNat_ofNat] at this ⊢
      omega

theorem unsigned_unpack {b : BitVec 64} (h : b.toNat ≤ infinityBits) :
    Unsigned (UnpackedFloat.unpack Format.binary64 b) := by
  unfold infinityBits at h
  have sign : @UnpackedFloat.unpackSign Format.binary64 b = 0#1 := by
    apply BitVec.eq_of_toNat_eq
    change (b.extractLsb 63 63).toNat = 0
    simp
    omega
  have positive : UnpackedFloat.Sign.ofBitVec 0#1 = .positive := rfl
  unfold UnpackedFloat.unpack
  dsimp only
  rw [sign, positive]
  refine unsigned_dite (fun hs => unsigned_dite (fun _ => ?infinite) fun hm => ?nan) fun _ =>
    unsigned_dite (fun _ => unsigned_dite (fun _ => ?zero) fun _ => ?small) fun _ => ?large
  case infinite | zero | small | large => rfl
  -- the greatest exponent leaves no room for a significand
  have exponent : b.toNat / 2 ^ 52 % 2 ^ 11 = 2047 := by
    have := congrArg BitVec.toNat hs
    simpa [UnpackedFloat.unpackExponent, Nat.shiftRight_eq_div_pow] using this
  refine absurd (BitVec.eq_of_toNat_eq ?_) hm
  simp [UnpackedFloat.unpackMantissa]
  omega

theorem unsigned_round {spec : Format} {m : Nat} {e : Int} {accuracy : UnpackedFloat.Accuracy} :
    Unsigned (UnpackedFloat.roundWithAccuracy spec .positive m e accuracy) := by
  unfold UnpackedFloat.roundWithAccuracy
  refine unsigned_dite (fun _ => ?huge) fun _ => ?ordinary
  case huge | ordinary => rfl

theorem unsigned_ofNat {spec : Format} {n : Nat} : Unsigned (UnpackedFloat.ofNat spec n) := by
  unfold UnpackedFloat.ofNat UnpackedFloat.ofInt UnpackedFloat.normalize
  split
  · next h =>
    rw [Int.compare_eq_lt] at h
    omega
  · trivial
  · exact unsigned_round

/-- A positive number, which is finite. -/
def Positive : UnpackedFloat → Bool
  | .finite .positive .. => true
  | _ => false

theorem unsigned_mul {spec : Format} {f g : UnpackedFloat} (hf : Unsigned f) (hg : Positive g) :
    Unsigned (UnpackedFloat.mul spec f g) :=
  match f, g, hf, hg with
  | .infinity .positive, .finite .positive .., _, _ | .zero .positive, .finite .positive .., _, _ =>
    rfl
  | .finite .positive .., .finite .positive .., _, _ => unsigned_round

theorem unsigned_div {spec : Format} {f g : UnpackedFloat} (hf : Unsigned f) (hg : Positive g) :
    Unsigned (UnpackedFloat.div spec f g) :=
  match f, g, hf, hg with
  | .infinity .positive, .finite .positive .., _, _ | .zero .positive, .finite .positive .., _, _ =>
    rfl
  | .finite .positive .., .finite .positive .., _, _ => unsigned_round

/-- The powers of ten that floats hold exactly are positive. -/
theorem positive_power (e : Fin 23) :
    Positive (Float.exactlyRepresentablePowersOfTen[e]).toModel.unpack := by
  decide +kernel +revert

theorem unsigned_ofScientific {spec : Format} {m : Nat} {e : Int} :
    Unsigned (UnpackedFloat.ofScientific spec m e) := by
  unfold UnpackedFloat.ofScientific
  refine unsigned_dite (fun _ => ?zero) fun _ => unsigned_dite (fun _ => ?huge) fun _ =>
    unsigned_dite (fun _ => ?tiny) fun _ => unsigned_dite (fun _ => ?scaledUp) fun _ => ?scaledDown
  case zero | huge | tiny => rfl
  case scaledUp => exact unsigned_mul rfl rfl
  case scaledDown => exact unsigned_div rfl rfl

theorem isSpoken_pack {f : UnpackedFloat} (h : Unsigned f) :
    isSpoken (.ofModel (Float.Model.pack f)) :=
  isSpoken_iff.mpr (toNat_pack_le h)

theorem isSpoken_ofScientific (m : Nat) (negative : Bool) (e : Nat) :
    isSpoken (Float.ofScientific m negative e) := by
  unfold Float.ofScientific
  have whole : Unsigned m.toUInt64.toFloat.toModel.unpack :=
    unsigned_unpack (toNat_pack_le unsigned_ofNat)
  split
  · next h =>
    have power := positive_power ⟨e, by omega⟩
    dsimp only
    split
    · exact isSpoken_pack (unsigned_div whole power)
    · exact isSpoken_pack (unsigned_mul whole power)
  · exact isSpoken_pack unsigned_ofScientific

end

end Number

/-- A decimal is read as a float that scripts can write. -/
theorem Decimal.isSpoken_toFloat (d : Decimal) : Number.isSpoken d.toFloat := by
  unfold toFloat
  dsimp only
  split_ifs
  · exact Number.isSpoken_ofScientific 0 false 0
  all_goals exact Number.isSpoken_ofScientific ..

end Sigil
