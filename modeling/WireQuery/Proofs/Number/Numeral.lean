import Mathlib
import WireQuery.Proofs.Number.Nearest

namespace WireQuery

namespace Decimal

variable {a b ds : List Char}

theorem value_append (a b : List Char) : value (a ++ b) = value a * 10 ^ b.length + value b := by
  induction b using List.reverseRecOn with
  | nil => simp [value]
  | append_singleton b c ih =>
    rw [← List.append_assoc, value_append_digit, ih, value_append_digit, List.length_append, List.length_singleton,
      pow_succ]
    ring

theorem value_zeros (n : Nat) : value (List.replicate n '0') = 0 := by
  induction n with
  | zero => rfl
  | succ n ih => rw [List.replicate_succ', value_append_digit, ih, Nat.sub_self]

theorem isDigit_of_mem_natChars (h : c ∈ natChars n) : c.isDigit = true :=
  Nat.isDigit_of_mem_toDigits (by decide) (by decide) h

theorem natChars_ne_nil (n : Nat) : natChars n ≠ [] := Nat.toDigits_ne_nil

/-- The digits of a positive number begin with another one than zero. -/
theorem head?_natChars (h : 0 < n) : (natChars n).head? ≠ some '0' := by
  induction n using Nat.strongRecOn with
  | _ n ih =>
    rw [natChars]
    by_cases hlt : n < 10
    · have hdigit : ∀ i : Fin 10, 0 < i.val → Nat.digitChar i.val ≠ '0' := by decide
      simpa [Nat.toDigits_of_lt_base hlt] using hdigit ⟨n, hlt⟩ h
    · rw [Nat.toDigits_of_base_le (by decide) (by omega), List.head?_append_of_ne_nil _ Nat.toDigits_ne_nil]
      exact ih (n / 10) (by omega) (by omega)

theorem lt_power_length (n : Nat) : n < 10 ^ (natChars n).length :=
  (Nat.length_toDigits_le_iff (by decide) Nat.length_toDigits_pos).mp (Nat.le_refl _)

theorem power_length_le (h : 0 < n) : 10 ^ ((natChars n).length - 1) ≤ n := by
  by_contra hlt
  rw [not_le] at hlt
  by_cases hone : (natChars n).length - 1 = 0
  · rw [hone] at hlt
    omega
  · have := (Nat.length_toDigits_le_iff (by decide) (Nat.pos_of_ne_zero hone)).mpr hlt
    rw [natChars] at this hone
    omega

end Decimal

namespace Numeral

def toRat (n : Numeral) : ℚ := n.digits * 10 ^ n.exponent

/-- The place of the leading digit of a numeral bounds its number. -/
theorem toRat_bounds {n : Numeral} (h : 0 < n.digits) :
    (10 : ℚ) ^ ((Decimal.natChars n.digits).length + n.exponent - 1) ≤ n.toRat ∧
      n.toRat < 10 ^ ((Decimal.natChars n.digits).length + n.exponent) := by
  have hpos : 0 < (Decimal.natChars n.digits).length := List.length_pos_of_ne_nil (Decimal.natChars_ne_nil _)
  have hlow : (10 : ℚ) ^ (((Decimal.natChars n.digits).length - 1 : Nat) : Int) ≤ n.digits := by
    exact_mod_cast Decimal.power_length_le h
  have hhigh : (n.digits : ℚ) < 10 ^ ((Decimal.natChars n.digits).length : Int) := by
    exact_mod_cast Decimal.lt_power_length n.digits
  have hp : (0 : ℚ) < 10 ^ n.exponent := by positivity
  unfold toRat
  constructor
  · calc (10 : ℚ) ^ ((Decimal.natChars n.digits).length + n.exponent - 1)
        = 10 ^ (((Decimal.natChars n.digits).length - 1 : Nat) : Int) * 10 ^ n.exponent := by
          rw [← zpow_add₀ (by norm_num)]
          congr 1
          omega
      _ ≤ n.digits * 10 ^ n.exponent := by gcongr
  · calc (n.digits : ℚ) * 10 ^ n.exponent < 10 ^ ((Decimal.natChars n.digits).length : Int) * 10 ^ n.exponent := by gcongr
      _ = 10 ^ ((Decimal.natChars n.digits).length + n.exponent) := by rw [← zpow_add₀ (by norm_num)]

theorem toRat_pos_iff {n : Numeral} : 0 < n.toRat ↔ 0 < n.digits := by
  have : (0 : ℚ) < 10 ^ n.exponent := by positivity
  simp [toRat, this]

/-- The place of its leading digit does not decide about a numeral near to a double. -/
theorem lead_of_near {n : Numeral} (hc : Binary.Canonical m e) (hx : Binary.Near m e n.toRat) :
    -400 ≤ (Decimal.natChars n.digits).length + n.exponent ∧ (Decimal.natChars n.digits).length + n.exponent ≤ 400 := by
  obtain ⟨hlow, hhigh⟩ := toRat_bounds (toRat_pos_iff.mp (hx.pos hc.pos))
  generalize (Decimal.natChars n.digits).length + n.exponent = lead at hlow hhigh
  have hone : (1 : ℚ) < 10 := by norm_num
  constructor
  · have : (10 : ℚ) ^ (-400 : Int) < 10 ^ lead := by
      calc (10 : ℚ) ^ (-400 : Int) ≤ 2 ^ (-1075 : Int) := by
            rw [zpow_neg, zpow_neg]
            exact inv_anti₀ (by positivity) (by exact_mod_cast (by decide +kernel : 2 ^ 1075 ≤ 10 ^ 400))
        _ ≤ n.toRat := hx.least hc
        _ < 10 ^ lead := hhigh
    exact ((zpow_lt_zpow_iff_right₀ hone).mp this).le
  · have : (10 : ℚ) ^ (lead - 1) < 10 ^ (400 : Int) := by
      calc (10 : ℚ) ^ (lead - 1) ≤ n.toRat := hlow
        _ < 2 ^ (1024 : Int) := hx.most hc
        _ ≤ 10 ^ (400 : Int) := by exact_mod_cast (by decide +kernel : 2 ^ 1024 ≤ 10 ^ 400)
    have := (zpow_lt_zpow_iff_right₀ hone).mp this
    omega

/-- A numeral whose number is near to a double is rounded to it. -/
theorem round_of_near {n : Numeral} (hc : Binary.Canonical m e) (hx : Binary.Near m e n.toRat) :
    n.round Binary.double = Binary.magnitude m e := by
  have hdigits := toRat_pos_iff.mp (hx.pos hc.pos)
  obtain ⟨hleast, hmost⟩ := lead_of_near hc hx
  unfold round
  dsimp only
  rw [if_neg (by omega), if_neg (by omega)]
  split
  · next h =>
    obtain ⟨k, hk⟩ := Int.eq_ofNat_of_zero_le h
    apply Binary.roundQuotient_of_near Nat.one_pos hc
    rw [toRat, hk, zpow_natCast] at hx
    simpa [hk] using hx
  · next h =>
    obtain ⟨k, hk⟩ := Int.eq_ofNat_of_zero_le (show 0 ≤ -n.exponent by omega)
    rw [hk, Int.toNat_natCast]
    apply Binary.roundQuotient_of_near (Nat.pow_pos (by decide)) hc
    rw [toRat, show n.exponent = -(k : Int) by omega, zpow_neg, zpow_natCast, ← div_eq_mul_inv] at hx
    simpa using hx

end Numeral

end WireQuery
