import RedisImpl.Lib.Bytes
import Mathlib.Algebra.Order.Ring.Rat
import Mathlib.Order.Monotone.Defs
import Mathlib.Tactic.Linarith
import Mathlib.Tactic.Positivity

/-!
# What the program takes from C and its library

* `Rounding`: what storing the exact result of an operation in a `double` or a `float` gives. The
  expiry check and the queue manager compute with both. How they round is left open, but for what
  every IEEE rounding mode has: it is monotone, and the integers up to `2^53` are doubles.
* `Clock`: a reading of `clock_gettime`.
* `calloc`, for the sizes that the code computes as an `int`.
* `Libc`: `fnmatch`. A pattern without special characters matches exactly the strings that are
  equal to it up to the case of ASCII letters (`FNM_CASEFOLD`); patterns with special characters are
  some fixed relation.
-/

namespace RedisImpl

/-- `struct timespec`. -/
structure Timespec where
  tvSec : Int
  tvNsec : Int
  deriving DecidableEq

/-- What `clock_gettime` gives: the nanoseconds are below a second, and the seconds since the start
of the clock are a number that a `double` has (285 million years). -/
def Timespec.Clock (ts : Timespec) : Prop :=
  0 ≤ ts.tvSec ∧ ts.tvSec ≤ 2 ^ 53 ∧ 0 ≤ ts.tvNsec ∧ ts.tvNsec < 1000000000

/-- `ts` is not later than `ts'`. -/
def Timespec.NotAfter (ts ts' : Timespec) : Prop :=
  ts.tvSec < ts'.tvSec ∨ ts.tvSec = ts'.tvSec ∧ ts.tvNsec ≤ ts'.tvNsec

/-- The rounding of a value to a `double` and to a `float`. -/
structure Rounding where
  dbl : ℚ → ℚ
  flt : ℚ → ℚ
  dbl_mono : Monotone dbl
  flt_mono : Monotone flt
  dbl_int : ∀ n : Int, 0 ≤ n → n ≤ 2 ^ 53 → dbl n = n

/-- Exact arithmetic. -/
def Rounding.exact : Rounding :=
  ⟨fun q => q, fun q => q, fun _ _ h => h, fun _ _ h => h, fun _ _ _ => rfl⟩

/-- `ts->tv_sec + ts->tv_nsec/1e9`, computed in `double`. -/
def Rounding.seconds (r : Rounding) (ts : Timespec) : ℚ :=
  r.dbl (r.dbl ts.tvSec + r.dbl (r.dbl ts.tvNsec / 1000000000))

/-- The fraction of a second in a clock reading is between 0 and 1. -/
theorem Rounding.fraction_le (r : Rounding) {ts : Timespec} (h : ts.Clock) :
    0 ≤ r.dbl (r.dbl ts.tvNsec / 1000000000) ∧ r.dbl (r.dbl ts.tvNsec / 1000000000) ≤ 1 := by
  obtain ⟨-, -, hlo, hhi⟩ := h
  have h0 : (0 : ℚ) ≤ ts.tvNsec := by exact_mod_cast hlo
  have h1 : (ts.tvNsec : ℚ) ≤ 1000000000 := by exact_mod_cast hhi.le
  rw [r.dbl_int ts.tvNsec hlo (by omega)]
  have hd0 := r.dbl_int 0 (by omega) (by omega)
  have hd1 := r.dbl_int 1 (by omega) (by omega)
  norm_num at hd0 hd1
  constructor
  · rw [← hd0]
    exact r.dbl_mono (by positivity)
  · calc r.dbl (ts.tvNsec / 1000000000) ≤ r.dbl 1 := r.dbl_mono (by linarith)
      _ = 1 := hd1

/-- The time in seconds never goes back, in spite of the rounding. -/
theorem Rounding.seconds_mono (r : Rounding) {ts ts' : Timespec} (h : ts.Clock) (h' : ts'.Clock)
    (hle : ts.NotAfter ts') : r.seconds ts ≤ r.seconds ts' := by
  apply r.dbl_mono
  rcases hle with hlt | ⟨heq, hn⟩
  · have hs : (ts.tvSec : ℚ) + 1 ≤ ts'.tvSec := by exact_mod_cast hlt
    have hf := (r.fraction_le h).2
    have hf' := (r.fraction_le h').1
    rw [r.dbl_int ts.tvSec h.1 h.2.1, r.dbl_int ts'.tvSec h'.1 h'.2.1]
    linarith
  · have hns : (ts.tvNsec : ℚ) ≤ ts'.tvNsec := by exact_mod_cast hn
    have hd := r.dbl_mono hns
    have hf : r.dbl (r.dbl ts.tvNsec / 1000000000) ≤ r.dbl (r.dbl ts'.tvNsec / 1000000000) :=
      r.dbl_mono (by linarith)
    rw [heq]
    linarith

/-- An `int` as a `size_t`. -/
def sizeT (n : Int) : Nat := (n % 2 ^ 64).toNat

/-- `calloc(n, 1)`. No object is larger than `PTRDIFF_MAX`. -/
def calloc (n : Nat) : Option Bytes := if n < 2 ^ 63 then some (List.replicate n 0) else none

theorem sizeT_of_nonneg {n : Int} (h0 : 0 ≤ n) (h : n < 2 ^ 32) : sizeT n = n.toNat := by
  rw [sizeT]
  omega

theorem calloc_of_nonneg {n : Int} (h0 : 0 ≤ n) (h : n < 2 ^ 31) :
    calloc (sizeT (n + 1)) = some (List.replicate (n.toNat + 1) 0) := by
  rw [sizeT_of_nonneg (by omega) (by omega), calloc, if_pos (by omega)]
  congr 2
  omega

theorem calloc_of_neg {n : Int} (h : n < -1) (hlo : -2 ^ 31 ≤ n) : calloc (sizeT (n + 1)) = none := by
  rw [calloc, if_neg]
  rw [sizeT]
  omega

/-- The characters of a pattern that `fnmatch` does not take literally: `*`, `?`, `[`, `\`. -/
def isSpecial (c : UInt8) : Bool := c = 42 || c = 63 || c = 91 || c = 92

structure Libc where
  rounding : Rounding
  /-- `fnmatch(pattern, string, FNM_CASEFOLD) == 0`. -/
  fnmatch : Bytes → Bytes → Bool
  fnmatch_literal : ∀ pattern string, (∀ c ∈ pattern, isSpecial c = false) →
    (fnmatch pattern string = true ↔ lower pattern = lower string)

/-- A library whose arithmetic is exact and whose `fnmatch` knows literal patterns only. -/
def Libc.exact : Libc where
  rounding := .exact
  fnmatch pattern string := lower pattern = lower string
  fnmatch_literal pattern string _ := by simp

/-- `does_the_strings_match(pattern, target)`, on C strings in buffers. Neither is NULL here, so it
never returns `MATCH_ERROR`. -/
def Libc.doesTheStringsMatch (lc : Libc) (pattern target : Bytes) : Bool :=
  lc.fnmatch (cstr pattern) (cstr target)

end RedisImpl
