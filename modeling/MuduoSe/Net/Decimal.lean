/-
# Numbers as they are written

`decimal` and `toString` are what `%zd` and `%d` print; `number` and `integer` read it back. What
they print has no character but digits and a sign, and an `int` has at most 11.

Key definitions: `number`, `integer`.
Key theorems: `number_decimal`, `integer_toString`, `toString_length`.
-/
import MuduoSe.Net.HttpBody

namespace MuduoSe

/-- A digit as it is written. -/
def isDigit (c : Byte) : Bool := 48 ≤ c && c ≤ 57

/-- The number with these digits. -/
def number (s : Bytes) : Option ℕ :=
  if s ≠ [] ∧ s.all isDigit then some (s.foldl (fun n c => 10 * n + (c.toNat - 48)) 0) else none

/-- The number with these digits behind its sign. -/
def integer : Bytes → Option ℤ
  | 45 :: s => (number s).map fun n => -(n : ℤ)
  | s => (number s).map fun n => (n : ℤ)

/-- The digits of a number as characters. -/
theorem decimal_eq (n : ℕ) : decimal n = (Nat.toDigits 10 n).map fun c => c.toNat.toUInt8 := by
  unfold decimal bytes
  rw [Nat.toString_eq_repr, Nat.repr_eq_ofList_toDigits, String.toList_ofList]

theorem toDigits_toNat {n : ℕ} {c : Char} (hc : c ∈ Nat.toDigits 10 n) :
    c.toNat.toUInt8.toNat = c.toNat ∧ 48 ≤ c.toNat ∧ c.toNat ≤ 57 := by
  obtain ⟨h1, h2⟩ := Char.isDigit_iff_toNat.mp (Nat.isDigit_of_mem_toDigits (by decide) (by decide) hc)
  have h1 : 48 ≤ c.toNat := h1
  have h2 : c.toNat ≤ 57 := h2
  refine ⟨?_, h1, h2⟩
  rw [Nat.toUInt8, UInt8.toNat_ofNat', Nat.mod_eq_of_lt (by omega)]

theorem decimal_digits {n : ℕ} : ∀ c ∈ decimal n, isDigit c = true := by
  intro c hc
  rw [decimal_eq] at hc
  obtain ⟨d, hd, rfl⟩ := List.mem_map.mp hc
  obtain ⟨h, h1, h2⟩ := toDigits_toNat hd
  unfold isDigit
  rw [Bool.and_eq_true, decide_eq_true_eq, decide_eq_true_eq, UInt8.le_iff_toNat_le, UInt8.le_iff_toNat_le, h]
  exact ⟨h1, h2⟩

theorem decimal_ne_nil (n : ℕ) : decimal n ≠ [] := by
  rw [decimal_eq, Ne, List.map_eq_nil_iff]
  exact Nat.toDigits_ne_nil

/-- **The digits of a number are read back as it.** -/
theorem number_decimal (n : ℕ) : number (decimal n) = some n := by
  have hvalue : (decimal n).foldl (fun n c => 10 * n + (c.toNat - 48)) 0 = n := by
    rw [decimal_eq, List.foldl_map]
    calc (Nat.toDigits 10 n).foldl (fun n c => 10 * n + (c.toNat.toUInt8.toNat - 48)) 0
        = (Nat.toDigits 10 n).foldl (fun n c => 10 * n + (c.toNat - 48)) 0 := by
          apply List.foldl_ext
          intro m c hc
          rw [(toDigits_toNat hc).1]
      _ = Nat.ofDigitChars 10 (Nat.toDigits 10 n) 0 := Nat.ofDigitChars_eq_foldl.symm
      _ = n := Nat.ofDigitChars_ten_toDigits
  unfold number
  rw [if_pos ⟨decimal_ne_nil n, List.all_eq_true.mpr decimal_digits⟩, hvalue]

theorem integer_decimal (n : ℕ) : integer (decimal n) = some (n : ℤ) := by
  unfold integer
  split
  · rename_i s hs
    have hsign : isDigit 45 = true := decimal_digits 45 (by rw [hs]; exact List.mem_cons_self)
    exact absurd hsign (by decide)
  · rw [number_decimal]
    rfl

theorem bytes_negSucc (n : ℕ) : bytes (toString (Int.negSucc n)) = 45 :: decimal (n + 1) := by
  show bytes ("-" ++ toString (n + 1)) = _
  unfold bytes
  rw [String.toList_append, List.map_append]
  rfl

/-- **An `int` is read back as it was written by `%d`.** -/
theorem integer_toString : ∀ n : ℤ, integer (bytes (toString n)) = some n
  | .ofNat n => integer_decimal n
  | .negSucc n => by
    rw [bytes_negSucc, integer, number_decimal]
    rfl

theorem decimal_free {c : Byte} (hc : isDigit c = false) (n : ℕ) : c ∉ decimal n := by
  intro hmem
  rw [decimal_digits c hmem] at hc
  cases hc

/-- A character that is no digit and no sign does not occur. -/
theorem toString_free {c : Byte} (hc : isDigit c = false) (hsign : c ≠ 45) : ∀ n : ℤ, c ∉ bytes (toString n)
  | .ofNat n => decimal_free hc n
  | .negSucc n => by
    rw [bytes_negSucc, List.mem_cons, not_or]
    exact ⟨hsign, decimal_free hc (n + 1)⟩

theorem decimal_length_iff {n k : ℕ} (h : 0 < k) : (decimal n).length ≤ k ↔ n < 10 ^ k := by
  unfold decimal bytes
  rw [List.length_map, String.length_toList, Nat.toString_eq_repr]
  exact Nat.length_repr_le_iff h

theorem toString_length {n : ℤ} (h : -2147483648 ≤ n) (h' : n < 2147483648) :
    (bytes (toString n)).length ≤ 11 := by
  cases n with
  | ofNat n =>
    have hn : (n : ℤ) < 2147483648 := h'
    have hlen : (decimal n).length ≤ 10 := (decimal_length_iff (by decide)).mpr (by omega)
    have hle : (decimal n).length ≤ 11 := by omega
    exact hle
  | negSucc n =>
    have hlen : (decimal (n + 1)).length ≤ 10 := (decimal_length_iff (by decide)).mpr (by omega)
    rw [bytes_negSucc, List.length_cons]
    omega

end MuduoSe
