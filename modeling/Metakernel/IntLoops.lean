import Mathlib.Data.Nat.Find
import Mathlib.Logic.Function.Iterate
import Mathlib.Tactic.Common

/-!
# While loops and `int` counters

A loop runs on fuel and yields nothing when the fuel runs out. A counted loop carries its
32-bit counter beside the state, so that the test and the step are those of machine
integers; within the signed range it is a fold over the numbers below the bound.
-/
namespace IntLoops

variable {σ : Type*}

def whileLoop (go : σ → Bool) (body : σ → σ) : ℕ → σ → Option σ
  | 0, _ => none
  | fuel + 1, s => if go s then whileLoop go body fuel (body s) else some s

/-- `for(; go i; i = next i) body`, from the counter `i`. -/
def forLoop (go : BitVec 32 → Bool) (next : BitVec 32 → BitVec 32) (body : BitVec 32 → σ → σ)
    (fuel : ℕ) (i : BitVec 32) (s : σ) : Option σ :=
  (whileLoop (fun p => go p.1) (fun p => (next p.1, body p.1 p.2)) fuel (i, s)).map Prod.snd

def StopsAfter (go : σ → Bool) (body : σ → σ) (s : σ) (n : ℕ) : Prop :=
  (∀ k < n, go (body^[k] s) = true) ∧ go (body^[n] s) = false

theorem StopsAfter.succ_iff {go : σ → Bool} {body : σ → σ} {s : σ} (h : go s = true) (n : ℕ) :
    StopsAfter go body s (n + 1) ↔ StopsAfter go body (body s) n := by
  constructor
  · rintro ⟨hgo, hstop⟩
    exact ⟨fun k hk => hgo (k + 1) (by omega), hstop⟩
  · rintro ⟨hgo, hstop⟩
    refine ⟨fun k hk => ?_, hstop⟩
    cases k with
    | zero => exact h
    | succ k => exact hgo k (by omega)

theorem exists_stopsAfter (go : σ → Bool) (body : σ → σ) (s : σ)
    (h : ∃ n, go (body^[n] s) = false) : ∃ n, StopsAfter go body s n :=
  ⟨Nat.find h, fun _ hk => eq_true_of_ne_false (Nat.find_min h hk), Nat.find_spec h⟩

/-- With more fuel than rounds the loop ends in the state of its last round, and it ends in
no other way. -/
theorem whileLoop_eq_some_iff {go : σ → Bool} {body : σ → σ} {t : σ} (fuel : ℕ) (s : σ) :
    whileLoop go body fuel s = some t ↔
      ∃ n < fuel, StopsAfter go body s n ∧ body^[n] s = t := by
  induction fuel generalizing s with
  | zero => simp [whileLoop]
  | succ fuel ih =>
    cases h : go s with
    | false =>
      rw [whileLoop, h]
      constructor
      · intro heq
        exact ⟨0, by omega, ⟨fun k hk => absurd hk (Nat.not_lt_zero k), h⟩,
          Option.some.inj heq⟩
      · rintro ⟨n, -, ⟨hgo, -⟩, rfl⟩
        cases n with
        | zero => rfl
        | succ n =>
          have : go s = true := hgo 0 (by omega)
          simp [h] at this
    | true =>
      rw [whileLoop, if_pos h, ih]
      constructor
      · rintro ⟨n, hn, hstop, rfl⟩
        exact ⟨n + 1, by omega, (StopsAfter.succ_iff h n).mpr hstop, rfl⟩
      · rintro ⟨n, hn, hstop, rfl⟩
        cases n with
        | zero =>
          have : go s = false := hstop.2
          simp [h] at this
        | succ n => exact ⟨n, by omega, (StopsAfter.succ_iff h n).mp hstop, rfl⟩

section Counters

theorem toInt_of_small {i : BitVec 32} (h : i.toNat < 2147483648) : i.toInt = i.toNat :=
  BitVec.toInt_eq_toNat_of_lt (by omega)

theorem slt_of_small {i n : BitVec 32} (hi : i.toNat < 2147483648) (hn : n.toNat < 2147483648) :
    BitVec.slt i n = decide (i.toNat < n.toNat) := by
  rw [BitVec.slt_eq_decide, toInt_of_small hi, toInt_of_small hn]
  exact decide_eq_decide.mpr Int.ofNat_lt

variable {go : BitVec 32 → Bool} {next : BitVec 32 → BitVec 32} {body : BitVec 32 → σ → σ}

theorem forLoop_stop (fuel : ℕ) {i : BitVec 32} (h : go i = false) (s : σ) :
    forLoop go next body (fuel + 1) i s = some s := by
  simp [forLoop, whileLoop, h]

theorem forLoop_go (fuel : ℕ) {i : BitVec 32} (h : go i = true) (s : σ) :
    forLoop go next body (fuel + 1) i s = forLoop go next body fuel (next i) (body i s) := by
  simp [forLoop, whileLoop, h]

/-- A counter that goes up by one is let through exactly below `n`. -/
theorem forLoop_upTo (body : ℕ → σ → σ) {n : ℕ} (hn : n < 4294967296)
    (hgo : ∀ i : BitVec 32, i.toNat ≤ n → go i = decide (i.toNat < n)) :
    ∀ (count fuel : ℕ) (i : BitVec 32) (s : σ), i.toNat + count = n → count < fuel →
      forLoop go (· + 1) (fun i => body i.toNat) fuel i s =
        some ((List.range' i.toNat count).foldl (fun s i => body i s) s) := by
  intro count
  induction count with
  | zero =>
    intro fuel i s hi hfuel
    obtain ⟨fuel, rfl⟩ : ∃ k, fuel = k + 1 := ⟨fuel - 1, by omega⟩
    rw [forLoop_stop fuel (by rw [hgo i (by omega)]; exact decide_eq_false (by omega))]
    rfl
  | succ count ih =>
    intro fuel i s hi hfuel
    obtain ⟨fuel, rfl⟩ : ∃ k, fuel = k + 1 := ⟨fuel - 1, by omega⟩
    have hnext : (i + 1).toNat = i.toNat + 1 := by bv_omega
    rw [forLoop_go fuel (by rw [hgo i (by omega)]; exact decide_eq_true (by omega)),
      ih fuel (i + 1) _ (by omega) (by omega), hnext]
    rfl

/-- A counter that goes down by one is stopped by its sign, below zero. -/
theorem forLoop_downFrom (body : ℕ → σ → σ) :
    ∀ (count fuel : ℕ) (i : BitVec 32) (s : σ), (i + 1).toNat = count → count < 2147483648 →
      count < fuel →
      forLoop (fun i => BitVec.sle 0#32 i) (· - 1) (fun i => body i.toNat) fuel i s =
        some ((List.range count).foldr body s) := by
  intro count
  induction count with
  | zero =>
    intro fuel i s hi _ hfuel
    obtain ⟨fuel, rfl⟩ : ∃ k, fuel = k + 1 := ⟨fuel - 1, by omega⟩
    have hi : i = -1 := by bv_omega
    subst hi
    exact forLoop_stop fuel (by decide) s
  | succ count ih =>
    intro fuel i s hi hcount hfuel
    obtain ⟨fuel, rfl⟩ : ∃ k, fuel = k + 1 := ⟨fuel - 1, by omega⟩
    have htoNat : i.toNat = count := by bv_omega
    have hsign : BitVec.sle 0#32 i = true := by
      have hsigned : i.toInt = i.toNat := toInt_of_small (by omega)
      rw [BitVec.sle_iff_toInt_le, hsigned]
      exact Int.natCast_nonneg _
    rw [forLoop_go fuel hsign, ih fuel (i - 1) _ (by bv_omega) (by omega) (by omega), htoNat,
      List.range_succ, List.foldr_append]
    rfl

end Counters

end IntLoops
