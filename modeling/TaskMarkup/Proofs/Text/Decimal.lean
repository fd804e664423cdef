import Mathlib.Algebra.Group.Nat.Defs
import TaskMarkup.Proofs.Token.Tiling
import TaskMarkup.Text.Decimal

namespace TaskMarkup

namespace Text

theorem decimal_eq_ofDigitChars (ds : List Char) : decimal ds = Nat.ofDigitChars 10 ds 0 :=
  Nat.ofDigitChars_eq_foldl.symm

@[simp] theorem decimal_toDigits (n : Nat) : decimal (Nat.toDigits 10 n) = n := by
  rw [decimal_eq_ofDigitChars, Nat.ofDigitChars_ten_toDigits]

@[simp] theorem decimal_zeroFill (width : Nat) (ds : List Char) :
    decimal (zeroFill width ds) = decimal ds := by
  simp [decimal_eq_ofDigitChars, zeroFill, Nat.ofDigitChars_append]

theorem decimal_lt {ds : List Char} (h : ∀ c ∈ ds, c.isDigit = true) :
    decimal ds < 10 ^ ds.length := by
  rw [decimal_eq_ofDigitChars]
  induction ds with
  | nil => simp
  | cons c ds ih =>
    have hc : c.toNat - '0'.toNat ≤ 9 := by
      have := h c (by simp)
      simp only [Char.isDigit, Bool.and_eq_true, decide_eq_true_eq] at this
      have h9 : c.toNat ≤ 57 := this.2
      have h0 : '0'.toNat = 48 := rfl
      omega
    have := ih fun d hd => h d (by simp [hd])
    rw [Nat.ofDigitChars_cons, Nat.ofDigitChars_eq_ofDigitChars_zero, List.length_cons,
      Nat.pow_succ]
    calc
      10 ^ ds.length * (10 * 0 + (c.toNat - '0'.toNat)) + Nat.ofDigitChars 10 ds 0
          < 10 ^ ds.length * (10 * 0 + (c.toNat - '0'.toNat)) + 10 ^ ds.length := by omega
      _ = 10 ^ ds.length * (c.toNat - '0'.toNat + 1) := by
        rw [Nat.mul_zero, Nat.zero_add, Nat.mul_succ]
      _ ≤ 10 ^ ds.length * 10 := Nat.mul_le_mul_left _ (by omega)

end Text

theorem Token.Spelled.value_lt {t : Token} (h : t.Spelled) (ht : t.tag = .number) :
    t.value?.getD 0 < 10 ^ 8 := by
  have hnum : Text.isNumeral t.text = true := by
    cases h with
    | reserved hd _ => simp [Tag.ofChar?_eq_some_iff, ht, Tag.char?] at hd
    | spaces hs _ _ => simp [ht] at hs
    | plain _ _ _ hn => exact hn.1 ht
  simp only [Text.isNumeral, Bool.and_eq_true, decide_eq_true_eq] at hnum
  have hlt : Text.decimal t.text < _ := Text.decimal_lt (by simpa using hnum.2)
  simp only [Token.value?, ht, if_true, Option.getD_some]
  exact Nat.lt_of_lt_of_le hlt (Nat.pow_le_pow_right (by decide) hnum.1.2)

end TaskMarkup
