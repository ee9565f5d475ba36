import Mathlib.Algebra.Group.Int.Defs
import Mathlib.Algebra.Group.Nat.Defs
import Mathlib.Data.List.TakeWhile
import Mathlib.Tactic.Common

/-!
# Byte strings, C strings and decimal numerals

* `ascii`: the bytes of a string literal; `lower`: the bytes with ASCII letters in lower case.
* `cstr`: what a function on C strings (`strlen`, `strcmp`, `%s`) sees of a buffer: the bytes
  before the first NUL.
* `decimal n`: what `%d` prints of a number `n ≥ 0`; `value`: the number that a string of digits
  denotes. `value_decimal`: the second undoes the first.
-/

namespace RedisImpl

/-- A byte string, with any bytes (NUL included). -/
abbrev Bytes := List UInt8

/-- The bytes of an ASCII string literal. -/
def ascii (s : String) : Bytes := s.toList.map fun c => c.toNat.toUInt8

/-- `tolower` in the C locale. -/
def toLower (c : UInt8) : UInt8 := if 65 ≤ c && c ≤ 90 then c + 32 else c

def lower (s : Bytes) : Bytes := s.map toLower

/-- The C string in a buffer: the bytes before the first NUL. -/
def cstr (s : Bytes) : Bytes := s.takeWhile (· ≠ 0)

theorem zero_notMem_cstr (s : Bytes) : 0 ∉ cstr s := by
  intro h
  simpa using List.mem_takeWhile_imp h

/-- A byte string without NUL is its own C string. -/
theorem cstr_eq_self {s : Bytes} (h : 0 ∉ s) : cstr s = s := by
  refine List.takeWhile_eq_self_iff.mpr fun x hx => ?_
  have : x ≠ 0 := fun h0 => h (h0 ▸ hx)
  simpa using this

/-- The C string in a buffer that was filled with `s` and terminated. -/
theorem cstr_append_zero {s : Bytes} (h : 0 ∉ s) (t : Bytes) : cstr (s ++ 0 :: t) = s := by
  have hp : ∀ x ∈ s, decide (x ≠ 0) = true := fun x hx => by
    have : x ≠ 0 := fun h0 => h (h0 ▸ hx)
    simpa using this
  rw [cstr, List.takeWhile_append_of_pos hp]
  simp

/-- A buffer is its C string, or goes on behind the terminator. -/
theorem eq_cstr_or (s : Bytes) : s = cstr s ∨ ∃ t, s = cstr s ++ 0 :: t := by
  have hs : s = cstr s ++ s.dropWhile (fun c => decide (c ≠ 0)) := List.takeWhile_append_dropWhile.symm
  cases hd : s.dropWhile (fun c => decide (c ≠ 0)) with
  | nil => exact .inl (by rw [hd, List.append_nil] at hs; exact hs)
  | cons c t =>
    have hc : c = 0 := by
      have := List.head?_dropWhile_not (fun c : UInt8 => decide (c ≠ 0)) s
      rw [hd] at this
      simpa using this
    rw [hd, hc] at hs
    exact .inr ⟨t, hs⟩

/-- What lies behind the terminator does not count. -/
theorem cstr_append_of_mem {s : Bytes} (h : 0 ∈ s) (t : Bytes) : cstr (s ++ t) = cstr s := by
  rw [cstr, List.takeWhile_append, if_neg]
  · rfl
  · intro hlen
    have hall := List.takeWhile_eq_self_iff.mp
      ((List.takeWhile_prefix fun c => decide (c ≠ 0)).eq_of_length hlen)
    exact absurd (hall 0 h) (by decide)

/-! ## Digits -/

def isDigit (c : UInt8) : Bool := 48 ≤ c && c ≤ 57

/-- The number that a string of digits denotes. -/
def value (ds : Bytes) : Nat := ds.foldl (fun v c => v * 10 + (c.toNat - 48)) 0

/-- The digits of `n`, without leading zeros. -/
def decimal (n : Nat) : Bytes := (Nat.toDigits 10 n).map fun c => c.toNat.toUInt8

theorem isDigit_iff {c : UInt8} : isDigit c = true ↔ 48 ≤ c.toNat ∧ c.toNat ≤ 57 := by
  simp [isDigit, UInt8.le_iff_toNat_le]

theorem ne_zero_of_isDigit {c : UInt8} (h : isDigit c = true) : c ≠ 0 := by
  rintro rfl
  exact absurd h (by decide)

theorem zero_notMem_digits {ds : Bytes} (h : ∀ c ∈ ds, isDigit c = true) : 0 ∉ ds :=
  fun h0 => ne_zero_of_isDigit (h 0 h0) rfl

private theorem toNat_digitByte {c : Char} (h : c.isDigit = true) :
    c.toNat.toUInt8.toNat = c.toNat ∧ 48 ≤ c.toNat ∧ c.toNat ≤ 57 := by
  have h' : 48 ≤ c.toNat ∧ c.toNat ≤ 57 := by
    simp only [Char.isDigit, Bool.and_eq_true, decide_eq_true_eq, UInt32.le_iff_toNat_le,
      ge_iff_le] at h
    exact h
  refine ⟨?_, h'⟩
  simp only [Nat.toUInt8, UInt8.toNat_ofNat']
  omega

private theorem isDigit_of_mem_toDigits {n : Nat} {c : Char} (h : c ∈ Nat.toDigits 10 n) :
    c.isDigit = true :=
  Nat.isDigit_of_mem_toDigits (by decide) (by decide) h

/-- The bytes of a numeral are digits. -/
theorem isDigit_of_mem_decimal {n : Nat} {c : UInt8} (h : c ∈ decimal n) : isDigit c = true := by
  obtain ⟨d, hd, rfl⟩ := List.mem_map.mp h
  obtain ⟨he, hlo, hhi⟩ := toNat_digitByte (isDigit_of_mem_toDigits hd)
  exact isDigit_iff.mpr (by omega)

theorem zero_notMem_decimal (n : Nat) : 0 ∉ decimal n :=
  zero_notMem_digits fun _ => isDigit_of_mem_decimal

theorem decimal_ne_nil (n : Nat) : decimal n ≠ [] := by
  simp [decimal]

private theorem foldl_digitBytes (ds : List Char) (h : ∀ c ∈ ds, c.isDigit = true) (v : Nat) :
    (ds.map fun c => c.toNat.toUInt8).foldl (fun v c => v * 10 + (c.toNat - 48)) v =
      Nat.ofDigitChars 10 ds v := by
  induction ds generalizing v with
  | nil => rfl
  | cons d ds ih =>
    obtain ⟨he, -, -⟩ := toNat_digitByte (h d (by simp))
    have hd : v * 10 + (d.toNat - 48) = 10 * v + (d.toNat - '0'.toNat) := by
      rw [Nat.mul_comm]
      rfl
    rw [List.map_cons, List.foldl_cons, he, hd, Nat.ofDigitChars_cons]
    exact ih (fun c hc => h c (by simp [hc])) _

/-- The numeral of `n` denotes `n`. -/
theorem value_decimal (n : Nat) : value (decimal n) = n := by
  rw [value, decimal, foldl_digitBytes _ (fun c hc => isDigit_of_mem_toDigits hc)]
  exact Nat.ofDigitChars_ten_toDigits

/-- A number below `10 ^ k` has at most `k` digits. -/
theorem length_decimal_le {n k : Nat} (hk : 0 < k) (h : n < 10 ^ k) : (decimal n).length ≤ k := by
  rw [decimal, List.length_map]
  exact (Nat.length_toDigits_le_iff (by decide) hk).mpr h

end RedisImpl
