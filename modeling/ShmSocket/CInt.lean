import Mathlib.Data.Int.Basic
import Mathlib.Data.Nat.Bits
import Mathlib.Tactic

/-! The fixed-width integer conversions of the C sources. -/
namespace ShmSocket

abbrev Byte := UInt8

/-- Process ids; a live process has a positive one. -/
abbrev Pid := ℕ

/-- Conversion to `uint32_t`. -/
def u32 (x : ℤ) : ℕ := (x % 2 ^ 32).toNat

/-- Conversion to a 64-bit `size_t`. -/
def sizeT (x : ℤ) : ℕ := (x % 2 ^ 64).toNat

/-- Conversion of a 32-bit pattern to `int`, two's complement. -/
def i32 (x : ℕ) : ℤ := Int.bmod x (2 ^ 32)

@[simp] theorem u32_natCast {x : ℕ} (h : x < 2 ^ 32) : u32 x = x := by
  unfold u32
  omega

theorem sizeT_natCast {x : ℕ} (h : x < 2 ^ 64) : sizeT x = x := by
  unfold sizeT
  omega

theorem i32_of_lt {x : ℕ} (h : x < 2 ^ 31) : i32 x = x := by
  unfold i32
  rw [Int.bmod_eq_of_le] <;> omega

theorem i32_lt (x : ℕ) : i32 x < 2 ^ 31 := by
  have h : Int.bmod x (2 ^ 32) < ((2 ^ 32 : ℕ) + 1) / 2 := Int.bmod_lt (by omega)
  unfold i32
  omega

theorem le_i32 (x : ℕ) : -2 ^ 31 ≤ i32 x := by
  have h : -(((2 ^ 32 : ℕ) : ℤ) / 2) ≤ Int.bmod x (2 ^ 32) := Int.le_bmod (by omega)
  unfold i32
  omega

/-- A wider value whose low 32 bits are small loses only the high bits. -/
theorem i32_mod {x : ℕ} (h : x % 2 ^ 32 < 2 ^ 31) : i32 x = (x % 2 ^ 32 : ℕ) := by
  unfold i32
  rw [Int.bmod_def]
  split_ifs <;> omega

theorem i32_neg {x : ℕ} (h : 2 ^ 31 ≤ x % 2 ^ 32) : i32 x < 0 := by
  unfold i32
  rw [Int.bmod_def]
  split_ifs <;> omega

/-- Storing a 32-bit pattern in an `int` and reading it back loses nothing. -/
@[simp] theorem u32_i32 {x : ℕ} (h : x < 2 ^ 32) : u32 (i32 x) = x := by
  unfold u32 i32
  rw [Int.bmod_def]
  split_ifs <;> omega

theorem u32_i32_mod (x : ℕ) : u32 (i32 x) = x % 2 ^ 32 := by
  unfold u32 i32
  rw [Int.bmod_def]
  split_ifs <;> omega

/-- An `int` holds the low 32 bits of a pattern and no more. -/
theorem i32_eq_iff {x y : ℕ} : i32 x = i32 y ↔ x % 2 ^ 32 = y % 2 ^ 32 := by
  constructor
  · intro h
    rw [← u32_i32_mod, h, u32_i32_mod]
  · intro h
    unfold i32
    rw [Int.bmod_def, Int.bmod_def]
    split_ifs <;> omega

end ShmSocket
