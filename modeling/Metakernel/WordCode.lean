import Mathlib.Data.BitVec
import Mathlib.Data.Set.Basic
import Mathlib.Order.CompletePartialOrder
import Mathlib.Tactic.IntervalCases
import Mathlib.Tactic.Ring

/-!
# Words in memory and straight code

A memory of bytes at 32-bit addresses that wrap around, and code without jumps that moves words
between it and registers.
-/
namespace WordCode

abbrev Memory := BitVec 32 → BitVec 8

def span (a : BitVec 32) (n : ℕ) : Set (BitVec 32) := {b | (b - a).toNat < n}

def load (m : Memory) (a : BitVec 32) : BitVec 32 := m (a + 3) ++ m (a + 2) ++ m (a + 1) ++ m a

def store (m : Memory) (a v : BitVec 32) : Memory := fun b =>
  if (b - a).toNat < 4 then v.extractLsb' (8 * (b - a).toNat) 8 else m b

section Words

variable {m m' : Memory} {a b v : BitVec 32} {n k : ℕ}

@[simp] theorem mem_span : b ∈ span a n ↔ (b - a).toNat < n := Iff.rfl

theorem span_subset (h : (b - a).toNat + n ≤ k) : span b n ⊆ span a k := by
  intro x hx
  have hsum : x - a = (x - b) + (b - a) := by ring
  rw [mem_span] at hx ⊢
  rw [hsum, BitVec.toNat_add]
  exact lt_of_le_of_lt (Nat.mod_le _ _) (by omega)

theorem span_apart {x y : BitVec 32} (hxy : x.toNat + n ≤ y.toNat)
    (hy : y.toNat + k ≤ 4294967296 + x.toNat) : Disjoint (span (a + x) n) (span (a + y) k) := by
  rw [Set.disjoint_left]
  intro b hx hb
  rw [mem_span] at hx hb
  bv_omega

theorem store_frame (h : b ∉ span a 4) : store m a v b = m b := if_neg h

theorem load_congr (h : ∀ b ∈ span a 4, m' b = m b) : load m' a = load m a := by
  have hbyte : ∀ k : BitVec 32, k.toNat < 4 → m' (a + k) = m (a + k) := fun k hk =>
    h _ (by rwa [mem_span, add_sub_cancel_left])
  have hfirst := hbyte 0 (by decide)
  rw [add_zero] at hfirst
  rw [load, load, hbyte 3 (by decide), hbyte 2 (by decide), hbyte 1 (by decide), hfirst]

theorem load_bit (m : Memory) (a : BitVec 32) {i : ℕ} (hi : i < 32) :
    (load m a).getLsbD i = (m (a + BitVec.ofNat 32 (i / 8))).getLsbD (i % 8) := by
  have hfirst : a + BitVec.ofNat 32 0 = a := add_zero a
  simp only [load, BitVec.getLsbD_append]
  interval_cases i
  all_goals simp only [Nat.reduceLT, Nat.reduceSub, Nat.reduceDiv, Nat.reduceMod, if_true, if_false,
    hfirst]
  all_goals rfl

theorem load_store (m : Memory) (a v : BitVec 32) : load (store m a v) a = v := by
  apply BitVec.eq_of_getLsbD_eq
  intro i hi
  have hbyte : (BitVec.ofNat 32 (i / 8)).toNat = i / 8 := by
    rw [BitVec.toNat_ofNat]
    omega
  rw [load_bit _ _ hi, store, add_sub_cancel_left, hbyte, if_pos (by omega),
    BitVec.getLsbD_extractLsb', decide_eq_true (by omega : i % 8 < 8), Bool.true_and]
  congr 1
  omega

theorem load_store_apart (h : Disjoint (span a 4) (span b 4)) :
    load (store m a v) b = load m b :=
  load_congr fun _ hx => store_frame (Set.disjoint_right.mp h hx)

theorem store_store (m : Memory) (a u v : BitVec 32) : store (store m a u) a v = store m a v := by
  funext b
  unfold store
  split <;> rfl

theorem store_load (m : Memory) (a : BitVec 32) : store m a (load m a) = m := by
  funext b
  unfold store
  split
  · rename_i hb
    have hba : a + BitVec.ofNat 32 (b - a).toNat = b := by
      rw [BitVec.ofNat_toNat, BitVec.setWidth_eq]
      ring
    apply BitVec.eq_of_getLsbD_eq
    intro i hi
    have hbit : 8 * (b - a).toNat + i < 32 := by omega
    have hbyte : (8 * (b - a).toNat + i) / 8 = (b - a).toNat := by omega
    have hrest : (8 * (b - a).toNat + i) % 8 = i := by omega
    rw [BitVec.getLsbD_extractLsb', decide_eq_true hi, Bool.true_and, load_bit m a hbit, hbyte,
      hrest, hba]
  · rfl

end Words

inductive Place (ρ : Type) where
  | reg (r : ρ)
  | word (base : ρ) (disp : BitVec 32)
  deriving DecidableEq, Repr

inductive Source (ρ : Type) where
  | place (p : Place ρ)
  | imm (v : BitVec 32)
  deriving DecidableEq, Repr

inductive Op where
  | mov | add | and | or | shr
  deriving DecidableEq, Repr

/-- `invlpg` changes neither registers nor memory. -/
inductive Instr (ρ : Type) where
  | op (f : Op) (dst : Place ρ) (src : Source ρ)
  | invlpg (p : Place ρ)
  deriving DecidableEq, Repr

structure State (ρ : Type) where
  regs : ρ → BitVec 32
  mem : Memory

variable {ρ : Type} [DecidableEq ρ]

@[simp] def Op.eval : Op → BitVec 32 → BitVec 32 → BitVec 32
  | .mov, _, v => v
  | .add, u, v => u + v
  | .and, u, v => u &&& v
  | .or, u, v => u ||| v
  | .shr, u, v => u >>> (v.toNat % 32)

@[simp] def State.get (s : State ρ) : Place ρ → BitVec 32
  | .reg r => s.regs r
  | .word base disp => load s.mem (s.regs base + disp)

@[simp] def State.value (s : State ρ) : Source ρ → BitVec 32
  | .place p => s.get p
  | .imm v => v

@[simp] def State.put (s : State ρ) (p : Place ρ) (v : BitVec 32) : State ρ :=
  match p with
  | .reg r => { s with regs := Function.update s.regs r v }
  | .word base disp => { s with mem := store s.mem (s.regs base + disp) v }

@[simp] def step (s : State ρ) : Instr ρ → State ρ
  | .op f dst src => s.put dst (f.eval (s.get dst) (s.value src))
  | .invlpg _ => s

def run (code : List (Instr ρ)) (s : State ρ) : State ρ := code.foldl step s

@[simp] theorem run_nil (s : State ρ) : run [] s = s := rfl

@[simp] theorem run_cons (i : Instr ρ) (code : List (Instr ρ)) (s : State ρ) :
    run (i :: code) s = run code (step s i) := rfl

theorem run_append (code code' : List (Instr ρ)) (s : State ρ) :
    run (code ++ code') s = run code' (run code s) := List.foldl_append

end WordCode
