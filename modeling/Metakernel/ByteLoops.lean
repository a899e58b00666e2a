import Metakernel.IntLoops
import Metakernel.Util

/-!
# The byte loops of util.c with their counters

Each loop counts with an `int` and reads and writes at addresses of 32 bits. Where no range wraps
around, the copies are those of `Util`.
-/
namespace ByteLoops

open ByteMemory IntLoops

/-- A counter of 32 bits has been through all of its values before. -/
def loopBound : ℕ := 4294967297

def copyByte (dst src i : ℕ) (m : Memory) : Memory :=
  Function.update m (wadd dst i) (m (wadd src i))

def memcpyLoHi (m : Memory) (dst src : ℕ) (size : BitVec 32) : Option Memory :=
  forLoop (fun i => i.ult size) (· + 1) (fun i => copyByte dst src i.toNat) loopBound 0 m

def memcpyHiLo (m : Memory) (dst src : ℕ) (size : BitVec 32) : Option Memory :=
  forLoop (fun i => BitVec.sle 0#32 i) (· - 1) (fun i => copyByte dst src i.toNat) loopBound
    (size - 1) m

def memmove (m : Memory) (dst src : ℕ) (size : BitVec 32) : Option Memory :=
  if dst < src then memcpyLoHi m dst src size else memcpyHiLo m dst src size

def setByte (ptr : ℕ) (val : UInt8) (i : ℕ) (m : Memory) : Memory :=
  Function.update m (wadd ptr i) val

/-- The loop ends at `val`, which is promoted to `int`; `size` is not read. -/
def memset (m : Memory) (ptr : ℕ) (val : UInt8) (_size : BitVec 32) : Option Memory :=
  forLoop (fun i => BitVec.slt i (BitVec.ofNat 32 val.toNat)) (· + 1)
    (fun i => setByte ptr val i.toNat) loopBound 0 m

section Copies

variable {dst src : ℕ}

theorem foldl_copyByte : ∀ (count i : ℕ) (m : Memory), dst + i + count ≤ 4294967296 →
    src + i + count ≤ 4294967296 →
    (List.range' i count).foldl (fun m i => copyByte dst src i m) m =
      Util.copyUp m dst src count i
  | 0, _, _, _, _ => rfl
  | count + 1, i, m, hd, hs => by
    have hbyte : copyByte dst src i m = Function.update m (dst + i) (m (src + i)) := by
      rw [copyByte, wadd_eq (by omega), wadd_eq (by omega)]
    rw [List.range'_succ, List.foldl_cons, foldl_copyByte count (i + 1) _ (by omega) (by omega),
      hbyte, Util.copyUp]

theorem foldr_copyByte : ∀ (count : ℕ) (m : Memory), dst + count ≤ 4294967296 →
    src + count ≤ 4294967296 →
    (List.range count).foldr (copyByte dst src) m = Util.copyDown m dst src count
  | 0, _, _, _ => rfl
  | count + 1, m, hd, hs => by
    have hbyte : copyByte dst src count m =
        Function.update m (dst + count) (m (src + count)) := by
      rw [copyByte, wadd_eq (by omega), wadd_eq (by omega)]
    rw [List.range_succ, List.foldr_append, List.foldr_cons, List.foldr_nil,
      foldr_copyByte count _ (by omega) (by omega), hbyte, Util.copyDown]

variable {size : BitVec 32} (m : Memory)

theorem memcpyLoHi_eq (hdst : dst + size.toNat ≤ 4294967296)
    (hsrc : src + size.toNat ≤ 4294967296) :
    memcpyLoHi m dst src size = some (Util.memcpyLoHi m dst src size.toNat) := by
  have hsize := size.isLt
  rw [memcpyLoHi, forLoop_upTo (copyByte dst src) hsize (fun i _ => BitVec.ult_eq_decide) size.toNat
    loopBound 0 m (by simp) (by unfold loopBound; omega)]
  exact congrArg some (foldl_copyByte size.toNat 0 m (by omega) (by omega))

theorem memcpyHiLo_eq (hsize : size.toNat < 2147483648)
    (hdst : dst + size.toNat ≤ 4294967296) (hsrc : src + size.toNat ≤ 4294967296) :
    memcpyHiLo m dst src size = some (Util.memcpyHiLo m dst src size.toNat) := by
  rw [memcpyHiLo, forLoop_downFrom (copyByte dst src) size.toNat loopBound (size - 1) m
    (by rw [BitVec.sub_add_cancel]) hsize (by unfold loopBound; omega)]
  exact congrArg some (foldr_copyByte size.toNat m hdst hsrc)

theorem memmove_eq (hsize : size.toNat < 2147483648) (hdst : dst + size.toNat ≤ 4294967296)
    (hsrc : src + size.toNat ≤ 4294967296) :
    memmove m dst src size = some (Util.memmove m dst src size.toNat) := by
  unfold memmove Util.memmove
  split
  · exact memcpyLoHi_eq m hdst hsrc
  · exact memcpyHiLo_eq m hsize hdst hsrc

structure Moved (m m' : Memory) (dst src size : ℕ) : Prop where
  copied : ∀ i < size, m' (dst + i) = m (src + i)
  frame : ∀ b, b < dst ∨ dst + size ≤ b → m' b = m b

/-- The range arrives as it was, however source and destination overlap. -/
theorem memmove_moves (hsize : size.toNat < 2147483648) (hdst : dst + size.toNat ≤ 4294967296)
    (hsrc : src + size.toNat ≤ 4294967296) :
    ∃ m', memmove m dst src size = some m' ∧ Moved m m' dst src size.toNat := by
  refine ⟨_, memmove_eq m hsize hdst hsrc, ?_, ?_⟩
  · intro i hi
    rw [Util.memmove_spec, if_pos (by omega), Nat.add_sub_cancel_left]
  · intro b hb
    rw [Util.memmove_spec, if_neg (by omega)]

end Copies

theorem memmove_moves_overlapping :
    ∃ m', memmove UInt8.ofNat 101 100 3 = some m' ∧ Moved UInt8.ofNat m' 101 100 3 :=
  memmove_moves UInt8.ofNat (by decide) (by decide) (by decide)

/-- What `memset` leaves: as many bytes of `val` as `val` says. -/
def filled (m : Memory) (ptr : ℕ) (val : UInt8) : Memory := fun b =>
  if ∃ k < val.toNat, b = wadd ptr k then val else m b

theorem foldl_setByte (ptr : ℕ) (val : UInt8) (b : ℕ) : ∀ (count i : ℕ) (m : Memory),
    (List.range' i count).foldl (fun m i => setByte ptr val i m) m b =
      if ∃ k < count, b = wadd ptr (i + k) then val else m b
  | 0, _, _ => by simp
  | count + 1, i, m => by
    rw [List.range'_succ, List.foldl_cons, foldl_setByte ptr val b count (i + 1)]
    by_cases hb : b = wadd ptr i
    · have hfirst : setByte ptr val i m b = val := by rw [setByte, hb, Function.update_self]
      rw [hfirst, ite_self, if_pos ⟨0, by omega, hb⟩]
    · rw [setByte, Function.update_of_ne hb]
      refine if_congr ?_ rfl rfl
      constructor
      · rintro ⟨k, hk, rfl⟩
        exact ⟨k + 1, by omega, by rw [Nat.add_right_comm, Nat.add_assoc]⟩
      · rintro ⟨k, hk, heq⟩
        cases k with
        | zero => exact absurd heq hb
        | succ k => exact ⟨k, by omega, by rw [heq, Nat.add_right_comm, Nat.add_assoc]⟩

theorem memset_eq (m : Memory) (ptr : ℕ) (val : UInt8) (size : BitVec 32) :
    memset m ptr val size = some (filled m ptr val) := by
  have hval : val.toNat < 256 := val.toNat_lt
  have hofNat : (BitVec.ofNat 32 val.toNat).toNat = val.toNat := by
    rw [BitVec.toNat_ofNat]
    omega
  have hgo : ∀ i : BitVec 32, i.toNat ≤ val.toNat →
      BitVec.slt i (BitVec.ofNat 32 val.toNat) = decide (i.toNat < val.toNat) := by
    intro i hi
    rw [slt_of_small (by omega) (by omega), hofNat]
  rw [memset, forLoop_upTo (setByte ptr val) (by omega) hgo val.toNat loopBound 0 m
    (by simp) (by unfold loopBound; omega)]
  refine congrArg some (funext fun b => ?_)
  have := foldl_setByte ptr val b val.toNat 0 m
  simpa [filled] using this

theorem filled_zero (m : Memory) (ptr : ℕ) : filled m ptr 0 = m := by
  funext b
  simp [filled]

/-- The range holds `val`, and nothing else has changed. -/
structure Filled (m m' : Memory) (ptr : ℕ) (val : UInt8) (size : ℕ) : Prop where
  range : ∀ i < size, m' (ptr + i) = val
  frame : ∀ b, b < ptr ∨ ptr + size ≤ b → m' b = m b

/-- Where `size` and `val` differ, the memory held `val` already. -/
def Held (m : Memory) (ptr : ℕ) (val : UInt8) (size : ℕ) : Prop :=
  (∀ i < size, val.toNat ≤ i → m (ptr + i) = val) ∧
    ∀ i < val.toNat, size ≤ i → m (wadd ptr i) = val

/-- `memset` fills its range exactly when the bytes it leaves out, and those it writes beyond, held
the value before. -/
theorem memset_fills_iff (m : Memory) (ptr : ℕ) (val : UInt8) {size : BitVec 32}
    (hptr : ptr + size.toNat ≤ 4294967296) :
    (∃ m', memset m ptr val size = some m' ∧ Filled m m' ptr val size.toNat) ↔
      Held m ptr val size.toNat := by
  have hval : val.toNat < 256 := val.toNat_lt
  rw [memset_eq]
  constructor
  · rintro ⟨m', heq, hrange, hframe⟩
    obtain rfl := Option.some.inj heq
    refine ⟨fun i hi hle => ?_, fun i hi hle => ?_⟩
    · have hunset : ¬ ∃ k < val.toNat, ptr + i = wadd ptr k := by
        rintro ⟨k, hk, heq⟩
        unfold wadd at heq
        omega
      rw [← hrange i hi, filled, if_neg hunset]
    · have hout : wadd ptr i < ptr ∨ ptr + size.toNat ≤ wadd ptr i := by
        unfold wadd
        omega
      rw [← hframe _ hout, filled, if_pos ⟨i, hi, rfl⟩]
  · rintro ⟨hrange, hbeyond⟩
    refine ⟨_, rfl, fun i hi => ?_, fun b hb => ?_⟩
    · unfold filled
      split
      · rfl
      · next hunset =>
        refine hrange i hi (Nat.not_lt.mp fun hlt => hunset ⟨i, hlt, ?_⟩)
        rw [wadd_eq (by omega)]
    · unfold filled
      split
      · next hset =>
        obtain ⟨k, hk, rfl⟩ := hset
        refine (hbeyond k hk ?_).symm
        unfold wadd at hb
        omega
      · rfl

end ByteLoops
