import Mathlib
import WireQuery.Number.Numeral

/-!
Which fractions round to a double: those between the two points halfway to its neighbours, and these points themselves where
the significand is even.
-/

namespace WireQuery.Binary

theorem divEven_eq {n d k : Nat} (hd : 0 < d) (hlow : 2 * k * d ≤ 2 * n + d) (hhigh : 2 * n ≤ 2 * k * d + d)
    (hodd : k % 2 = 1 → 2 * k * d < 2 * n + d ∧ 2 * n < 2 * k * d + d) : divEven n d = k := by
  have hn := Nat.div_add_mod n d
  have hr := Nat.mod_lt n hd
  set q := n / d with hq
  set r := n % d with hrem
  have hqk : q ≤ k := by
    by_contra h
    have : d * (k + 1) ≤ d * q := Nat.mul_le_mul_left d (by omega)
    nlinarith
  have hkq : k ≤ q + 1 := by
    by_contra h
    have : d * (q + 2) ≤ d * k := Nat.mul_le_mul_left d (by omega)
    nlinarith
  have hcomm : 2 * k * d = 2 * (d * k) := by ring
  rw [hcomm] at hlow hhigh hodd
  unfold divEven
  rw [← hq, ← hrem]
  dsimp only
  obtain rfl | rfl : k = q ∨ k = q + 1 := by omega
  · rw [if_neg]
    omega
  · rw [Nat.mul_succ] at hlow hhigh hodd
    rw [if_pos]
    omega

/-- `k` steps of `2 ^ q` are what a fraction rounds to: it is at most half a step away, and nearer if `k` is odd. -/
structure Nearest (k : Nat) (q : Int) (x : ℚ) : Prop where
  low : (k - 1 / 2) * 2 ^ q ≤ x
  high : x ≤ (k + 1 / 2) * 2 ^ q
  odd : k % 2 = 1 → (k - 1 / 2) * 2 ^ q < x ∧ x < (k + 1 / 2) * 2 ^ q

theorem divEven_eq_of_nearest {n d k : Nat} (hd : 0 < d) (hx : Nearest k q x) (hn : (n : ℚ) / d = x / 2 ^ q) :
    divEven n d = k := by
  have hd' : (0 : ℚ) < d := by exact_mod_cast hd
  have hp : (0 : ℚ) < 2 ^ q := by positivity
  obtain ⟨hlow, hhigh, hodd⟩ := hx
  rw [← le_div_iff₀ hp, ← hn, le_div_iff₀ hd'] at hlow
  rw [← div_le_iff₀ hp, ← hn, div_le_iff₀ hd'] at hhigh
  rw [← lt_div_iff₀ hp, ← div_lt_iff₀ hp, ← hn, lt_div_iff₀ hd', div_lt_iff₀ hd'] at hodd
  apply divEven_eq hd
  · exact_mod_cast (by linarith : (2 * k * d : ℚ) ≤ 2 * n + d)
  · exact_mod_cast (by linarith : (2 * n : ℚ) ≤ 2 * k * d + d)
  · intro h
    obtain ⟨hlow, hhigh⟩ := hodd h
    have h₁ : (2 * k * d : ℚ) < 2 * n + d := by linarith
    have h₂ : (2 * n : ℚ) < 2 * k * d + d := by linarith
    exact ⟨by exact_mod_cast h₁, by exact_mod_cast h₂⟩

/-- A power of two may be moved to the other side of the bar. -/
theorem shifted_quotient (num den : Nat) (q : Int) :
    (if 0 ≤ q then ((num : ℚ) / (den <<< q.toNat : Nat)) else ((num <<< (-q).toNat : Nat) : ℚ) / den) =
      (num : ℚ) / den / 2 ^ q := by
  split
  · next h =>
    obtain ⟨n, rfl⟩ := Int.eq_ofNat_of_zero_le h
    rw [Int.toNat_natCast, Nat.shiftLeft_eq, zpow_natCast, div_div]
    push_cast
    rfl
  · next h =>
    obtain ⟨n, hn⟩ := Int.eq_ofNat_of_zero_le (show 0 ≤ -q by omega)
    rw [hn, Int.toNat_natCast, Nat.shiftLeft_eq, show q = -(n : Int) by omega, zpow_neg, zpow_natCast]
    push_cast
    field_simp

/-- The powers of two around a fraction, as its parts give them. -/
theorem quotient_bounds {num den : Nat} (hn : 0 < num) (hd : 0 < den) :
    (2 : ℚ) ^ ((num.log2 : Int) - den.log2 - 1) ≤ (num : ℚ) / den ∧
      (num : ℚ) / den < 2 ^ ((num.log2 : Int) - den.log2 + 1) := by
  have hd' : (0 : ℚ) < den := by exact_mod_cast hd
  have hn₁ : (2 : ℚ) ^ num.log2 ≤ num := by exact_mod_cast Nat.log2_self_le hn.ne'
  have hn₂ : (num : ℚ) < 2 ^ (num.log2 + 1) := by exact_mod_cast Nat.lt_log2_self
  have hd₁ : (2 : ℚ) ^ den.log2 ≤ den := by exact_mod_cast Nat.log2_self_le hd.ne'
  have hd₂ : (den : ℚ) < 2 ^ (den.log2 + 1) := by exact_mod_cast Nat.lt_log2_self
  have hlow : (2 : ℚ) ^ ((num.log2 : Int) - den.log2 - 1) = 2 ^ num.log2 / 2 ^ (den.log2 + 1) := by
    rw [sub_sub, zpow_sub₀ two_ne_zero, zpow_natCast]
    exact_mod_cast rfl
  have hhigh : (2 : ℚ) ^ ((num.log2 : Int) - den.log2 + 1) = 2 ^ (num.log2 + 1) / 2 ^ den.log2 := by
    rw [sub_add_eq_add_sub, zpow_sub₀ two_ne_zero, zpow_natCast]
    exact_mod_cast rfl
  rw [hlow, hhigh]
  constructor
  · calc (2 : ℚ) ^ num.log2 / 2 ^ (den.log2 + 1) ≤ num / 2 ^ (den.log2 + 1) := by gcongr
      _ ≤ num / den := by gcongr
  · calc (num : ℚ) / den ≤ num / 2 ^ den.log2 := by gcongr
      _ < 2 ^ (num.log2 + 1) / 2 ^ den.log2 := by gcongr

/-- Whether a fraction lies under a power of two, decided without fractions. -/
theorem lt_power_iff (num : Nat) {den : Nat} (hd : 0 < den) (a : Int) :
    (if 0 ≤ a then num < den <<< a.toNat else num <<< (-a).toNat < den) ↔ (num : ℚ) / den < 2 ^ a := by
  have hd' : (0 : ℚ) < den := by exact_mod_cast hd
  have hone : (num : ℚ) / den < 2 ^ a ↔ (num : ℚ) / den / 2 ^ a < 1 := (div_lt_one (by positivity)).symm
  rw [hone, ← shifted_quotient]
  split
  · have : (0 : ℚ) < (den <<< a.toNat : Nat) := by
      rw [Nat.shiftLeft_eq]
      push_cast
      positivity
    rw [div_lt_one this]
    exact_mod_cast Iff.rfl
  · rw [div_lt_one hd']
    exact_mod_cast Iff.rfl

theorem le_log_iff {k : Int} (hx : 0 < x) : k ≤ Int.log 2 x ↔ (2 : ℚ) ^ k ≤ x := by
  rw [← Int.zpow_le_iff_le_log one_lt_two hx, Nat.cast_ofNat]

theorem log2Quotient_eq_log {num den : Nat} (hn : 0 < num) (hd : 0 < den) :
    log2Quotient num den = Int.log 2 ((num : ℚ) / den) := by
  have hpos : (0 : ℚ) < (num : ℚ) / den := by positivity
  obtain ⟨hlow, hhigh⟩ := quotient_bounds hn hd
  have hunder := lt_power_iff num hd ((num.log2 : Int) - den.log2)
  generalize ha : (num.log2 : Int) - den.log2 = a at hlow hhigh hunder
  have hleast := (le_log_iff hpos).mpr hlow
  have hmost := mt (le_log_iff hpos).mp (not_le.mpr hhigh)
  unfold log2Quotient
  rw [ha]
  by_cases hsmall : (num : ℚ) / den < 2 ^ a
  · have := mt (le_log_iff hpos).mp (not_le.mpr hsmall)
    rw [if_pos (hunder.mpr hsmall)]
    omega
  · have := (le_log_iff hpos).mpr (not_lt.mp hsmall)
    rw [if_neg (fun h => hsmall (hunder.mp h))]
    omega

/-- The one form in which a positive double is read: its significand is full, unless its exponent is the least. -/
structure Canonical (m : Nat) (e : Int) : Prop where
  pos : 0 < m
  lt : m < 2 ^ 53
  least : -1074 ≤ e
  most : e ≤ 971
  full : 2 ^ 52 ≤ m ∨ e = -1074

/-- The magnitude of `m * 2 ^ e`. -/
def magnitude (m : Nat) (e : Int) : Nat := (e + 1074).toNat * 2 ^ 52 + m

/-- How far below a double its interval begins: a quarter under a power of two, since the next double is half as far away. -/
def under (m : Nat) (e : Int) : ℚ := if m = 2 ^ 52 ∧ -1074 < e then 1 / 4 else 1 / 2

/-- The fractions that round to `m * 2 ^ e`. -/
structure Near (m : Nat) (e : Int) (x : ℚ) : Prop where
  low : (m - under m e) * 2 ^ e ≤ x
  high : x ≤ (m + 1 / 2) * 2 ^ e
  odd : m % 2 = 1 → (m - under m e) * 2 ^ e < x ∧ x < (m + 1 / 2) * 2 ^ e

theorem under_le (m : Nat) (e : Int) : under m e ≤ 1 / 2 := by
  unfold under
  split <;> norm_num

theorem Near.pos (h : Near m e x) (hm : 0 < m) : 0 < x := by
  have hm' : (1 : ℚ) ≤ m := by exact_mod_cast hm
  have hunder := under_le m e
  calc (0 : ℚ) < (m - under m e) * 2 ^ e := by
        have : (0 : ℚ) < m - under m e := by linarith
        positivity
    _ ≤ x := h.low

theorem Near.least (hc : Canonical m e) (hx : Near m e x) : (2 : ℚ) ^ (-1075 : Int) ≤ x := by
  have hm : (1 : ℚ) ≤ m := by exact_mod_cast hc.pos
  have hunder := under_le m e
  have hhalf : (1 : ℚ) / 2 ≤ m - under m e := by linarith
  have hpower : (2 : ℚ) ^ (-1074 : Int) ≤ 2 ^ e := zpow_le_zpow_right₀ one_le_two hc.least
  calc (2 : ℚ) ^ (-1075 : Int) = 1 / 2 * 2 ^ (-1074 : Int) := by
        rw [show (-1075 : Int) = -1 + -1074 by rfl, zpow_add₀ two_ne_zero]
        norm_num
    _ ≤ (m - under m e) * 2 ^ e := mul_le_mul hhalf hpower (by positivity) (by linarith)
    _ ≤ x := hx.low

theorem Near.lt_power (hc : Canonical m e) (hx : Near m e x) : x < 2 ^ (53 + e) := by
  have hm : (m : ℚ) + 1 ≤ 2 ^ 53 := by exact_mod_cast hc.lt
  calc x ≤ (m + 1 / 2) * 2 ^ e := hx.high
    _ < 2 ^ 53 * 2 ^ e := by gcongr; linarith
    _ = 2 ^ (53 + e) := by rw [zpow_add₀ two_ne_zero]; norm_num

theorem Near.most (hc : Canonical m e) (hx : Near m e x) : x < 2 ^ (1024 : Int) := by
  have := hc.most
  calc x < 2 ^ (53 + e) := hx.lt_power hc
    _ ≤ 2 ^ (1024 : Int) := zpow_le_zpow_right₀ one_le_two (by omega)

/-- The magnitude that rounding at an exponent gives. -/
theorem roundQuotient_of_nearest {num den k : Nat} {q : Int} (hn : 0 < num) (hd : 0 < den)
    (hq : max (Int.log 2 ((num : ℚ) / den) - 52) (-1074) = q) (hx : Nearest k q ((num : ℚ) / den)) :
    roundQuotient double num den = min (magnitude k q) double.infinity := by
  have hdiv := shifted_quotient num den q
  have hprecision : ((double.precision - 1 : Nat) : Int) = 52 := rfl
  have hscale : (double.scale : Int) = 1074 := rfl
  have himplicit : double.implicitBit = 2 ^ 52 := rfl
  unfold roundQuotient
  rw [if_neg hn.ne', log2Quotient_eq_log hn hd, hprecision, hscale, hq, himplicit]
  dsimp only
  split at hdiv
  · next hq' =>
    have hpos : 0 < den <<< q.toNat := by
      rw [Nat.shiftLeft_eq]
      positivity
    rw [if_pos hq', divEven_eq_of_nearest hpos hx hdiv, magnitude]
  · next hq' =>
    rw [if_neg hq', divEven_eq_of_nearest hd hx hdiv, magnitude]

theorem Canonical.magnitude_lt (h : Canonical m e) : magnitude m e < double.infinity := by
  have hinfinity : double.infinity = 2047 * 2 ^ 52 := rfl
  have := h.lt
  have := h.least
  have := h.most
  unfold magnitude
  omega

/-- A power of two may stand at the exponent below as well. -/
theorem magnitude_pred (h : -1074 < e) : magnitude (2 ^ 53) (e - 1) = magnitude (2 ^ 52) e := by
  unfold magnitude
  omega

theorem Near.nearest (hx : Near m e x) : Nearest m e x := by
  have hunder := under_le m e
  have hlow : ((m : ℚ) - 1 / 2) * 2 ^ e ≤ (m - under m e) * 2 ^ e := by gcongr
  exact ⟨hlow.trans hx.low, hx.high, fun h => ⟨hlow.trans_lt (hx.odd h).1, (hx.odd h).2⟩⟩

theorem Near.log_lt (hc : Canonical m e) (hx : Near m e x) : Int.log 2 x < 53 + e := by
  rw [← not_le, le_log_iff (hx.pos hc.pos), not_le]
  exact hx.lt_power hc

/-- Rounding takes place at the exponent of the double, unless the fraction lies under a power of two. -/
theorem Near.exponent (hc : Canonical m e) (hx : Near m e x) (h : (2 : ℚ) ^ (52 + e) ≤ x ∨ e = -1074) :
    max (Int.log 2 x - 52) (-1074) = e := by
  have hlog := hx.log_lt hc
  have hleast := hc.least
  obtain hle | rfl := h
  · have := (le_log_iff (hx.pos hc.pos)).mpr hle
    omega
  · omega

/-- Below the full significands at its exponent only a power of two has fractions near to it. -/
theorem Near.eq_power (hc : Canonical m e) (hx : Near m e x) (he : -1074 < e) (hlt : x < 2 ^ (52 + e)) : m = 2 ^ 52 := by
  have hfull : 2 ^ 52 ≤ m := hc.full.resolve_right he.ne'
  have hunder := under_le m e
  by_contra hne
  have hm : (2 : ℚ) ^ 52 + 1 ≤ m := by exact_mod_cast lt_of_le_of_ne hfull (Ne.symm hne)
  have : (2 : ℚ) ^ (52 + e) ≤ x := by
    calc (2 : ℚ) ^ (52 + e) = 2 ^ 52 * 2 ^ e := by rw [zpow_add₀ two_ne_zero]; norm_num
      _ ≤ (m - under m e) * 2 ^ e := by
          gcongr
          linarith
      _ ≤ x := hx.low
  exact absurd this (not_le.mpr hlt)

/-- Under a power of two the steps are half as wide. -/
theorem Near.nearest_pred (hx : Near (2 ^ 52) e x) (he : -1074 < e) (hlt : x < 2 ^ (52 + e)) :
    Nearest (2 ^ 53) (e - 1) x ∧ max (Int.log 2 x - 52) (-1074) = e - 1 := by
  have hp : (0 : ℚ) < 2 ^ (e - 1) := by positivity
  have hhigh : x < 2 ^ 53 * 2 ^ (e - 1) := by
    calc x < 2 ^ (52 + e) := hlt
      _ = 2 ^ 53 * 2 ^ (e - 1) := by
          rw [show 52 + e = 53 + (e - 1) by ring, zpow_add₀ two_ne_zero]
          norm_num
  have hlow : ((2 : ℚ) ^ 53 - 1 / 2) * 2 ^ (e - 1) ≤ x := by
    calc ((2 : ℚ) ^ 53 - 1 / 2) * 2 ^ (e - 1) = ((2 ^ 52 : Nat) - under (2 ^ 52) e) * 2 ^ e := by
          rw [under, if_pos ⟨rfl, he⟩, show e = 1 + (e - 1) by ring, zpow_add₀ two_ne_zero, add_sub_cancel_left]
          push_cast
          ring
      _ ≤ x := hx.low
  have hleast : 51 + e ≤ Int.log 2 x := by
    rw [le_log_iff (hx.pos (by positivity))]
    calc (2 : ℚ) ^ (51 + e) = 2 ^ 52 * 2 ^ (e - 1) := by
          rw [show 51 + e = 52 + (e - 1) by ring, zpow_add₀ two_ne_zero]
          norm_num
      _ ≤ (2 ^ 53 - 1 / 2) * 2 ^ (e - 1) := by gcongr; norm_num
      _ ≤ x := hlow
  have hmost : ¬52 + e ≤ Int.log 2 x := by
    rw [le_log_iff (hx.pos (by positivity)), not_le]
    exact hlt
  refine ⟨⟨by exact_mod_cast hlow, ?_, by norm_num⟩, by omega⟩
  push_cast
  linarith

/-- Whatever is near to a double is rounded to it. -/
theorem roundQuotient_of_near {num den : Nat} (hd : 0 < den) (hc : Canonical m e)
    (hx : Near m e ((num : ℚ) / den)) : roundQuotient double num den = magnitude m e := by
  have hn : 0 < num := by
    rw [Nat.pos_iff_ne_zero]
    rintro rfl
    simpa using hx.pos hc.pos
  by_cases hfull : (2 : ℚ) ^ (52 + e) ≤ (num : ℚ) / den ∨ e = -1074
  · rw [roundQuotient_of_nearest hn hd (hx.exponent hc hfull) hx.nearest, min_eq_left hc.magnitude_lt.le]
  · obtain ⟨hlt, he⟩ := not_or.mp hfull
    rw [not_le] at hlt
    have he : -1074 < e := lt_of_le_of_ne hc.least (Ne.symm he)
    obtain rfl := hx.eq_power hc he hlt
    obtain ⟨hnearest, hexponent⟩ := hx.nearest_pred he hlt
    rw [roundQuotient_of_nearest hn hd hexponent hnearest, magnitude_pred he, min_eq_left hc.magnitude_lt.le]

/-- The bits of a finite number are its sign and its magnitude. -/
theorem read_finite_inv {bits : Nat} (hb : bits < 2 ^ 64) (h : read double bits = .finite negative m e) :
    bits = signed double negative (magnitude m e) ∧ (m = 0 ∧ e = -1074 ∨ Canonical m e) := by
  have hsign : double.signBit = 2 ^ 63 := rfl
  have himplicit : double.implicitBit = 2 ^ 52 := rfl
  have hexponents : 1 <<< double.exponentBits = 2048 := rfl
  have hscale : (double.scale : Int) = 1074 := rfl
  simp only [read, hsign, himplicit, hexponents, hscale] at h
  unfold signed magnitude
  rw [hsign]
  split at h
  · split at h <;> simp at h
  · split at h
    · simp only [Reading.finite.injEq] at h
      obtain ⟨hneg, hm, he⟩ := h
      refine ⟨?_, ?_⟩
      · cases negative <;> simp at hneg ⊢ <;> omega
      · by_cases h0 : m = 0
        · exact .inl ⟨h0, he.symm⟩
        · exact .inr ⟨by omega, by omega, by omega, by omega, .inr he.symm⟩
    · simp only [Reading.finite.injEq] at h
      obtain ⟨hneg, hm, he⟩ := h
      refine ⟨?_, .inr ⟨by omega, by omega, by omega, by omega, .inl (by omega)⟩⟩
      cases negative <;> simp at hneg ⊢ <;> omega

end WireQuery.Binary
