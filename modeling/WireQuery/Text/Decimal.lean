namespace WireQuery.Decimal

def natChars (n : Nat) : List Char := Nat.toDigits 10 n

def intChars : Int → List Char
  | .ofNat n => natChars n
  | .negSucc n => '-' :: natChars (n + 1)

def natText (n : Nat) : String := String.ofList (natChars n)

def intText (i : Int) : String := String.ofList (intChars i)

/-- The number that a run of decimal digits stands for. -/
def value (digits : List Char) : Nat :=
  digits.foldl (fun n c => 10 * n + (c.toNat - '0'.toNat)) 0

theorem value_append_digit (ds : List Char) (c : Char) :
    value (ds ++ [c]) = 10 * value ds + (c.toNat - '0'.toNat) := by
  simp [value]

/-- A number is its digits before the last, and the last. -/
theorem value_natChars (n : Nat) : value (natChars n) = n := by
  induction n using Nat.strongRecOn with
  | _ n ih =>
    by_cases h : n < 10
    · rw [natChars, Nat.toDigits_of_lt_base h]
      have hd := Nat.toNat_digitChar_of_lt_ten h
      simp only [value, List.foldl_cons, List.foldl_nil, hd]
      have : '0'.toNat = 48 := rfl
      omega
    · have hs : natChars n = natChars (n / 10) ++ [Nat.digitChar (n % 10)] := by
        have := Nat.toDigits_append_toDigits (b := 10) (n := n / 10) (d := n % 10)
          (by decide) (by omega) (Nat.mod_lt _ (by decide))
        rw [Nat.toDigits_of_lt_base (Nat.mod_lt _ (by decide)), Nat.div_add_mod] at this
        exact this.symm
      have hd := Nat.toNat_digitChar_of_lt_ten (Nat.mod_lt n (show 10 > 0 by decide))
      rw [hs, value_append_digit, ih (n / 10) (by omega), hd]
      have : '0'.toNat = 48 := rfl
      omega

/-- An optional sign before an integer: whether it is negative, and what follows. -/
def readSign : List Char → Bool × List Char
  | '+' :: r => (false, r)
  | '-' :: r => (true, r)
  | r => (false, r)

theorem readSign_length (s : List Char) : (readSign s).2.length ≤ s.length := by
  unfold readSign
  split <;> simp

end WireQuery.Decimal
