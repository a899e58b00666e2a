import Metakernel.ByteMemory

/-!
# Byte copies of util.c

`memcpy` is `memcpy_lo_hi`; `memmove` picks the direction by comparing the pointers. The loop
index is a number here; `ByteLoops` has the loops with their `int`.
-/
namespace Util

open ByteMemory

/-- `count` iterations of the ascending loop, starting at index `i`. -/
def copyUp (m : Memory) (dst src : ℕ) : ℕ → ℕ → Memory
  | 0, _ => m
  | count + 1, i => copyUp (Function.update m (dst + i) (m (src + i))) dst src count (i + 1)

/-- The descending loop, with `i + 1` bytes left to copy at index `i`. -/
def copyDown (m : Memory) (dst src : ℕ) : ℕ → Memory
  | 0 => m
  | i + 1 => copyDown (Function.update m (dst + i) (m (src + i))) dst src i

def memcpyLoHi (m : Memory) (dst src size : ℕ) : Memory := copyUp m dst src size 0

def memcpyHiLo (m : Memory) (dst src size : ℕ) : Memory := copyDown m dst src size

def memmove (m : Memory) (dst src size : ℕ) : Memory :=
  if dst < src then memcpyLoHi m dst src size else memcpyHiLo m dst src size

/-- Copying upwards reads each source byte before it is overwritten when the destination
starts below the source or the ranges are apart. -/
theorem copyUp_spec (dst src : ℕ) : ∀ (count : ℕ) (m : Memory) (i : ℕ),
    (dst ≤ src ∨ src + i + count ≤ dst) → ∀ b, copyUp m dst src count i b =
      if dst + i ≤ b ∧ b < dst + i + count then m (src + (b - dst)) else m b
  | 0, m, i, _, b => by
    rw [copyUp, if_neg (by omega)]
  | count + 1, m, i, h, b => by
    rw [copyUp, copyUp_spec dst src count _ (i + 1) (by omega) b]
    by_cases hin : dst + (i + 1) ≤ b ∧ b < dst + (i + 1) + count
    · rw [if_pos hin, if_pos (by omega), Function.update_of_ne (by omega)]
    · rw [if_neg hin]
      by_cases hb : b = dst + i
      · subst hb
        rw [if_pos (by omega), Function.update_self]
        congr 1
        omega
      · rw [Function.update_of_ne hb, if_neg (by omega)]

theorem copyUp_elsewhere (dst src b : ℕ) : ∀ (count : ℕ) (m : Memory) (i : ℕ),
    (∀ k < count, b ≠ dst + (i + k)) → copyUp m dst src count i b = m b
  | 0, _, _, _ => rfl
  | count + 1, m, i, h => by
    rw [copyUp, copyUp_elsewhere dst src b count _ (i + 1) fun k hk => by
      rw [Nat.add_right_comm, Nat.add_assoc]
      exact h (k + 1) (by omega)]
    exact Function.update_of_ne (h 0 (by omega)) _ _

theorem memcpyLoHi_spec {m : Memory} {dst src size : ℕ} (h : dst ≤ src ∨ src + size ≤ dst)
    (b : ℕ) : memcpyLoHi m dst src size b =
      if dst ≤ b ∧ b < dst + size then m (src + (b - dst)) else m b := by
  have := copyUp_spec dst src size m 0 (by omega) b
  simpa [memcpyLoHi] using this

/-- Copying downwards does so when the destination starts above the source or the ranges are
apart. -/
theorem copyDown_spec (dst src : ℕ) : ∀ (count : ℕ) (m : Memory),
    (src ≤ dst ∨ dst + count ≤ src) → ∀ b, copyDown m dst src count b =
      if dst ≤ b ∧ b < dst + count then m (src + (b - dst)) else m b
  | 0, m, _, b => by
    rw [copyDown, if_neg (by omega)]
  | count + 1, m, h, b => by
    rw [copyDown, copyDown_spec dst src count _ (by omega) b]
    by_cases hin : dst ≤ b ∧ b < dst + count
    · rw [if_pos hin, if_pos (by omega), Function.update_of_ne (by omega)]
    · rw [if_neg hin]
      by_cases hb : b = dst + count
      · subst hb
        rw [if_pos (by omega), Function.update_self]
        congr 1
        omega
      · rw [Function.update_of_ne hb, if_neg (by omega)]

/-- The comparison of the pointers picks a direction that reads before it writes, however the
ranges overlap. -/
theorem memmove_spec (m : Memory) (dst src size b : ℕ) : memmove m dst src size b =
    if dst ≤ b ∧ b < dst + size then m (src + (b - dst)) else m b := by
  unfold memmove
  split
  · exact memcpyLoHi_spec (by omega) b
  · exact copyDown_spec dst src size m (by omega) b

end Util
