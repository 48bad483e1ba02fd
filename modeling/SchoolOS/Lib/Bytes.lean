import SchoolOS.Lib.CInt

/-!
# Integers in memory

A block of memory is its bytes, by offset. An integer is stored in little-endian order, and an `int`
is read back from four bytes. A wider store than the read is what `pthread_join` makes of an `int`:
it stores eight bytes, and a read of the first four finds the low half.
-/

namespace SchoolOS

/-- The bytes of a block. -/
abbrev Block := ℕ → BitVec 8

namespace Block

/-- The store of the low `n` bytes of `v`. -/
def store (b : Block) (n off : ℕ) (v : ℤ) : Block := fun k =>
  if off ≤ k ∧ k < off + n then BitVec.ofInt 8 (v / 2 ^ (8 * (k - off))) else b k

/-- The `int` at an offset. -/
def load (b : Block) (off : ℕ) : ℤ :=
  toInt ((b off).toNat + 2 ^ 8 * (b (off + 1)).toNat + 2 ^ 16 * (b (off + 2)).toNat +
    2 ^ 24 * (b (off + 3)).toNat)

theorem store_of_lt {b : Block} {n off j : ℕ} {v : ℤ} (h : j < n) :
    ((b.store n off v (off + j)).toNat : ℤ) = v / 2 ^ (8 * j) % 2 ^ 8 := by
  rw [store, if_pos (by omega), Nat.add_sub_cancel_left, BitVec.toNat_ofInt,
    Int.toNat_of_nonneg (by omega)]
  rfl

/-- The four low bytes of an integer. -/
theorem sum_bytes (v : ℤ) :
    v / 2 ^ (8 * 0) % 2 ^ 8 + 2 ^ 8 * (v / 2 ^ (8 * 1) % 2 ^ 8) +
      2 ^ 16 * (v / 2 ^ (8 * 2) % 2 ^ 8) +
      2 ^ 24 * (v / 2 ^ (8 * 3) % 2 ^ 8) = v % 2 ^ 32 := by
  have hone : v = v % 2 ^ 8 + 2 ^ 8 * (v / 2 ^ 8) := by omega
  have htwo : v / 2 ^ 8 = v / 2 ^ 8 % 2 ^ 8 + 2 ^ 8 * (v / 2 ^ 16) := by omega
  have hthree : v / 2 ^ 16 = v / 2 ^ 16 % 2 ^ 8 + 2 ^ 8 * (v / 2 ^ 24) := by omega
  have hfour : v / 2 ^ 24 = v / 2 ^ 24 % 2 ^ 8 + 2 ^ 8 * (v / 2 ^ 32) := by omega
  have hall : v = v % 2 ^ 32 + 2 ^ 32 * (v / 2 ^ 32) := by omega
  simp only [Nat.reduceMul, pow_zero, Int.ediv_one]
  omega

theorem load_store_same (b : Block) {n off : ℕ} (v : ℤ) (h : 4 ≤ n) :
    (b.store n off v).load off = toInt v := by
  have hbyte : ∀ j < 4, ((b.store n off v (off + j)).toNat : ℤ) = v / 2 ^ (8 * j) % 2 ^ 8 := by
    intro j hj
    exact store_of_lt (by omega)
  have hzero : ((b.store n off v off).toNat : ℤ) = v / 2 ^ (8 * 0) % 2 ^ 8 := hbyte 0 (by omega)
  rw [load, hzero, hbyte 1 (by omega), hbyte 2 (by omega), hbyte 3 (by omega), sum_bytes]
  exact Int.emod_bmod v (2 ^ 32)

theorem load_store_other (b : Block) {n off off' : ℕ} (v : ℤ)
    (h : off' + 4 ≤ off ∨ off + n ≤ off') :
    (b.store n off v).load off' = b.load off' := by
  have hbyte : ∀ j < 4, b.store n off v (off' + j) = b (off' + j) := by
    intro j hj
    rw [store, if_neg (by omega)]
  have hzero : b.store n off v off' = b off' := hbyte 0 (by omega)
  rw [load, load, hzero, hbyte 1 (by omega), hbyte 2 (by omega), hbyte 3 (by omega)]

end Block

end SchoolOS
