import RedisImpl.Lib.Bytes

/-!
# Numbers in C strings

`string_to_uint` of `util.c`, which the reader of the protocol and SET's expiry options use.
-/

namespace RedisImpl

/-- `string_to_uint`: the digits of a C string, modulo `2^32`. -/
def stringToUint (string : Bytes) : BitVec 32 :=
  (cstr string).foldl (fun num c => num * 10 + BitVec.ofInt 32 (c.toInt8.toInt - 48)) 0

private theorem foldl_digits (ds : Bytes) (h : ∀ c ∈ ds, isDigit c = true) (n : Nat) :
    ds.foldl (fun (num : BitVec 32) c => num * 10 + BitVec.ofInt 32 (c.toInt8.toInt - 48))
      (BitVec.ofNat 32 n) = BitVec.ofNat 32 (ds.foldl (fun v c => v * 10 + (c.toNat - 48)) n) := by
  induction ds generalizing n with
  | nil => rfl
  | cons c ds ih =>
    obtain ⟨hlo, hhi⟩ := isDigit_iff.mp (h c (by simp))
    have hc : BitVec.ofInt 32 (c.toInt8.toInt - 48) = BitVec.ofNat 32 (c.toNat - 48) := by
      have hi : c.toInt8.toInt = c.toNat := by
        show c.toBitVec.toInt = c.toNat
        rw [BitVec.toInt_eq_toNat_of_lt (by simp; omega)]
        simp
      rw [hi, show ((c.toNat : Int) - 48) = ((c.toNat - 48 : Nat) : Int) by omega]
      rfl
    rw [List.foldl_cons, List.foldl_cons, hc, ← ih (fun x hx => h x (by simp [hx]))]
    congr 1
    apply BitVec.eq_of_toNat_eq
    simp [BitVec.toNat_add, BitVec.toNat_mul, Nat.add_mod, Nat.mul_mod]

/-- On digits it gives the number that they denote, modulo `2^32`. -/
theorem stringToUint_digits {ds : Bytes} (h : ∀ c ∈ ds, isDigit c = true) :
    stringToUint ds = BitVec.ofNat 32 (value ds) := by
  rw [stringToUint, cstr_eq_self (zero_notMem_digits h)]
  exact foldl_digits ds h 0

/-- The bytes after the first NUL do not count. -/
theorem stringToUint_append_zero {ds : Bytes} (h : ∀ c ∈ ds, isDigit c = true) (t : Bytes) :
    stringToUint (ds ++ 0 :: t) = BitVec.ofNat 32 (value ds) := by
  rw [← stringToUint_digits h, stringToUint, stringToUint, cstr_append_zero (zero_notMem_digits h),
    cstr_eq_self (zero_notMem_digits h)]

end RedisImpl
