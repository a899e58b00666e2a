import Mathlib.Algebra.Order.Ring.Int
import Mathlib.Tactic.Positivity
import Metakernel.LoadAccounting

/-!
# The credit for sleeping

`sched_restart_thread` closes a part of the gap between `stat.remaining` and `stat.soft_priority`,
more of it the longer the thread has slept. The same steps in the integers say which values the
code has to represent.
-/
namespace Scheduler

open LoadAccounting (restartRemaining restart_remaining)

variable {τ : Type} [DecidableEq τ]

def slept (s : State τ) (t : τ) : ℕ := s.sched.epoch.toNat - (s.threads t).epoch.toNat

/-- What `sched_restart_thread` computes for a thread that has slept. -/
structure Credit where
  pow : ℕ
  diff : ℤ
  gap : ℤ
  divisor : ℤ
  quotient : ℤ
  increase : ℤ
  remaining : ℤ

/-- The steps of `sched_restart_thread` in the integers. -/
def credit (epochs : ℕ) (softPriority remaining : ℤ) : Credit :=
  let pow := if epochs > 30 then 30 else epochs
  let diff := softPriority - remaining
  let gap := if diff < 0 then 0 else diff
  let divisor := 2 * 2 ^ pow
  let quotient := gap.tdiv divisor
  let increase := gap - quotient
  { pow, diff, gap, divisor, quotient, increase, remaining := remaining + increase }

def IsInt (n : ℤ) : Prop := -2 ^ 31 ≤ n ∧ n < 2 ^ 31

/-- Every value of the signed type `int` is one. -/
structure Credit.Representable (c : Credit) : Prop where
  diff : IsInt c.diff
  gap : IsInt c.gap
  divisor : IsInt c.divisor
  quotient : IsInt c.quotient
  increase : IsInt c.increase
  remaining : IsInt c.remaining

def restarted (alloc : Allocator) (s : State τ) (t : τ) : ℤ :=
  ((schedRestartThread alloc s t).threads t).remaining.toInt

structure SleepCredit (alloc : Allocator) (s : State τ) (t : τ) : Prop where
  bounded : (s.threads t).remaining.toInt ≤ restarted alloc s t ∧
    restarted alloc s t ≤ max (s.threads t).remaining.toInt (s.threads t).softPriority.toInt
  monotone : ∀ (s' : State τ) (t' : τ),
    (s'.threads t').softPriority = (s.threads t).softPriority →
    (s'.threads t').remaining = (s.threads t).remaining → slept s' t' ≤ slept s t →
      restarted alloc s' t' ≤ restarted alloc s t
  representable : 0 < slept s t → (credit (slept s t) (s.threads t).softPriority.toInt
    (s.threads t).remaining.toInt).Representable
  divisor : 0 < slept s t → (credit (slept s t) (s.threads t).softPriority.toInt
    (s.threads t).remaining.toInt).divisor ≠ 0

section Values

variable (epochs : ℕ) (softPriority remaining : ℤ)

theorem credit_divisor_pos : 0 < (credit epochs softPriority remaining).divisor := by
  simp only [credit]
  positivity

theorem credit_gap_eq : (credit epochs softPriority remaining).gap =
    max 0 (softPriority - remaining) := by
  simp only [credit]
  split <;> omega

theorem credit_gap_nonneg : 0 ≤ (credit epochs softPriority remaining).gap := by
  rw [credit_gap_eq]
  exact le_max_left _ _

theorem credit_quotient_eq : (credit epochs softPriority remaining).quotient =
    (credit epochs softPriority remaining).gap / (credit epochs softPriority remaining).divisor :=
  Int.tdiv_eq_ediv_of_nonneg (credit_gap_nonneg epochs softPriority remaining)

theorem credit_quotient_bounds : 0 ≤ (credit epochs softPriority remaining).quotient ∧
    (credit epochs softPriority remaining).quotient ≤
      (credit epochs softPriority remaining).gap := by
  have hgap := credit_gap_nonneg epochs softPriority remaining
  rw [credit_quotient_eq]
  exact ⟨Int.ediv_nonneg hgap (credit_divisor_pos epochs softPriority remaining).le,
    Int.ediv_le_self _ hgap⟩

theorem credit_bounded : remaining ≤ (credit epochs softPriority remaining).remaining ∧
    (credit epochs softPriority remaining).remaining ≤ max remaining softPriority := by
  obtain ⟨hlow, hhigh⟩ := credit_quotient_bounds epochs softPriority remaining
  have hgap := credit_gap_eq epochs softPriority remaining
  have hsum : (credit epochs softPriority remaining).remaining = remaining +
      ((credit epochs softPriority remaining).gap -
        (credit epochs softPriority remaining).quotient) := rfl
  omega

theorem credit_monotone {epochs epochs' : ℕ} (h : epochs ≤ epochs') :
    (credit epochs softPriority remaining).remaining ≤
      (credit epochs' softPriority remaining).remaining := by
  have hpow : (credit epochs softPriority remaining).pow ≤
      (credit epochs' softPriority remaining).pow := by
    simp only [credit]
    split <;> split <;> omega
  have hdiv : (credit epochs softPriority remaining).divisor ≤
      (credit epochs' softPriority remaining).divisor := by
    have hle : (2 : ℤ) ^ (credit epochs softPriority remaining).pow ≤
        2 ^ (credit epochs' softPriority remaining).pow :=
      pow_le_pow_right₀ (by norm_num) hpow
    exact mul_le_mul_of_nonneg_left hle (by norm_num)
  have hquot : (credit epochs' softPriority remaining).quotient ≤
      (credit epochs softPriority remaining).quotient := by
    rw [credit_quotient_eq epochs]
    refine Int.le_ediv_of_mul_le (credit_divisor_pos _ _ _) ?_
    calc (credit epochs' softPriority remaining).quotient *
          (credit epochs softPriority remaining).divisor
        ≤ (credit epochs' softPriority remaining).quotient *
          (credit epochs' softPriority remaining).divisor :=
          mul_le_mul_of_nonneg_left hdiv (credit_quotient_bounds _ _ _).1
      _ ≤ (credit epochs' softPriority remaining).gap := by
          rw [credit_quotient_eq]
          exact Int.ediv_mul_le _ (credit_divisor_pos _ _ _).ne'
  have hincrease : (credit epochs softPriority remaining).increase ≤
      (credit epochs' softPriority remaining).increase := sub_le_sub_left hquot _
  exact add_le_add_right hincrease remaining

variable {softPriority remaining}

theorem credit_representable (hsoft : 0 ≤ softPriority) (hsoft' : softPriority < 2 ^ 31)
    (hrem : 0 ≤ remaining) (hrem' : remaining < 2 ^ 31) :
    (credit epochs softPriority remaining).Representable ↔ epochs < 30 := by
  have hdiv : (credit epochs softPriority remaining).divisor =
    2 * 2 ^ (credit epochs softPriority remaining).pow := rfl
  constructor
  · intro h
    by_contra hlong
    have hpow : (credit epochs softPriority remaining).pow = 30 := by
      simp only [credit]
      split <;> omega
    have hrange := h.divisor.2
    rw [hdiv, hpow] at hrange
    norm_num at hrange
  · intro hshort
    have hpow : (credit epochs softPriority remaining).pow ≤ 29 := by
      simp only [credit]
      split <;> omega
    have hle : (2 : ℤ) ^ (credit epochs softPriority remaining).pow ≤ 2 ^ 29 :=
      pow_le_pow_right₀ (by norm_num) hpow
    have hpos := credit_divisor_pos epochs softPriority remaining
    obtain ⟨hlow, hhigh⟩ := credit_quotient_bounds epochs softPriority remaining
    obtain ⟨hnew, hnew'⟩ := credit_bounded epochs softPriority remaining
    have hgap := credit_gap_eq epochs softPriority remaining
    have hdiff : (credit epochs softPriority remaining).diff = softPriority - remaining := rfl
    have hincrease : (credit epochs softPriority remaining).increase =
      (credit epochs softPriority remaining).gap -
        (credit epochs softPriority remaining).quotient := rfl
    constructor <;> constructor <;> omega

end Values

section Machine

theorem shifted_toNat {pow : ℕ} (hpow : pow ≤ 30) :
    ((2 <<< pow : ℕ) : BitVec 32).toNat = 2 * 2 ^ pow := by
  have hle : 2 ^ pow ≤ 2 ^ 30 := Nat.pow_le_pow_right (by omega) hpow
  rw [BitVec.natCast_eq_ofNat, BitVec.toNat_ofNat, Nat.shiftLeft_eq]
  exact Nat.mod_eq_of_lt (by omega)

/-- The divisor that overflows gives the quotient of the integers too, which is 0. -/
theorem gap_sdiv {gap : BitVec 32} (hgap : 0 ≤ gap.toInt) {pow : ℕ} (hpow : pow ≤ 30) :
    (gap.sdiv (2 <<< pow)).toInt = gap.toInt.tdiv (2 * 2 ^ pow) := by
  have hlt : gap.toInt < 2 ^ 31 := BitVec.toInt_lt
  rw [BitVec.toInt_sdiv]
  obtain hpow | rfl := hpow.lt_or_eq
  · have hle : 2 ^ pow ≤ 2 ^ 29 := Nat.pow_le_pow_right (by omega) (by omega)
    have hshift := shifted_toNat hpow.le
    have hbounds : 0 ≤ gap.toInt.tdiv (2 * 2 ^ pow) ∧
        gap.toInt.tdiv (2 * 2 ^ pow) ≤ gap.toInt := by
      rw [Int.tdiv_eq_ediv_of_nonneg hgap]
      exact ⟨Int.ediv_nonneg hgap (by positivity), Int.ediv_le_self _ hgap⟩
    have hdiv : ((2 <<< pow : ℕ) : BitVec 32).toInt = 2 * 2 ^ pow := by
      rw [BitVec.toInt_eq_toNat_of_lt (by omega), hshift]
      push_cast
      rfl
    rw [hdiv]
    exact Int.bmod_eq_of_le (by omega) (by omega)
  · have hdiv : ((2 <<< 30 : ℕ) : BitVec 32).toInt = -2 ^ 31 := by decide
    rw [hdiv, Int.tdiv_neg, Int.tdiv_eq_zero_of_lt hgap (by omega),
      Int.tdiv_eq_zero_of_lt hgap (by omega)]
    rfl

variable {schedEpoch : BitVec 32} {th : Thread}

theorem diff_toInt (hsoft : 0 ≤ th.softPriority.toInt) (hrem : 0 ≤ th.remaining.toInt) :
    (th.softPriority - th.remaining).toInt = th.softPriority.toInt - th.remaining.toInt := by
  have hsoft' : th.softPriority.toInt < 2 ^ 31 := BitVec.toInt_lt
  have hrem' : th.remaining.toInt < 2 ^ 31 := BitVec.toInt_lt
  rw [BitVec.toInt_sub]
  exact Int.bmod_eq_of_le (by omega) (by omega)

theorem clamped_toInt (diff : BitVec 32) :
    (if diff.slt 0 then 0 else diff).toInt = if diff.toInt < 0 then 0 else diff.toInt := by
  have hzero : (0 : BitVec 32).toInt = 0 := rfl
  simp only [BitVec.slt, decide_eq_true_eq, hzero]
  split <;> rfl

theorem restartIncrease_toInt (hsoft : 0 ≤ th.softPriority.toInt)
    (hrem : 0 ≤ th.remaining.toInt) (hslept : th.epoch.toNat ≤ schedEpoch.toNat) :
    (restartIncrease schedEpoch th).toInt = (credit (schedEpoch.toNat - th.epoch.toNat)
      th.softPriority.toInt th.remaining.toInt).increase := by
  set c := credit (schedEpoch.toNat - th.epoch.toNat) th.softPriority.toInt th.remaining.toInt
    with hc
  have helapsed : (schedEpoch - th.epoch).toNat = schedEpoch.toNat - th.epoch.toNat :=
    BitVec.toNat_sub_of_le (BitVec.le_def.mpr hslept)
  have hpow : (if (30 : BitVec 32).ult (schedEpoch - th.epoch) then 30
      else (schedEpoch - th.epoch).toNat) = c.pow := by
    rw [BitVec.ult, helapsed]
    simp only [hc, credit, decide_eq_true_eq, gt_iff_lt]
    rfl
  have hpow_le : c.pow ≤ 30 := by
    simp only [hc, credit]
    split <;> omega
  have hgap := clamped_toInt (th.softPriority - th.remaining)
  rw [diff_toInt hsoft hrem] at hgap
  have hgap_nonneg : 0 ≤ c.gap := credit_gap_nonneg _ _ _
  obtain ⟨hquot, hquot'⟩ : 0 ≤ c.quotient ∧ c.quotient ≤ c.gap := credit_quotient_bounds _ _ _
  simp only [restartIncrease, hpow]
  generalize (if (th.softPriority - th.remaining).slt 0 then 0
    else th.softPriority - th.remaining) = gap at hgap ⊢
  change gap.toInt = c.gap at hgap
  have hgap_lt : gap.toInt < 2 ^ 31 := BitVec.toInt_lt
  have hsdiv : (gap.sdiv (2 <<< c.pow)).toInt = c.quotient := by
    rw [gap_sdiv (hgap ▸ hgap_nonneg) hpow_le, hgap]
    rfl
  rw [BitVec.toInt_sub, hsdiv, hgap]
  exact Int.bmod_eq_of_le (by omega) (by omega)

end Machine

section Restart

variable {s s' : State τ} {t t' : τ}

theorem restarted_of_awake (alloc : Allocator) (h : slept s t = 0) :
    restarted alloc s t = (s.threads t).remaining.toInt := by
  have hult : (s.threads t).epoch.ult s.sched.epoch = false := by
    rw [slept] at h
    rw [BitVec.ult, decide_eq_false_iff_not]
    omega
  rw [restarted, restart_remaining, if_pos rfl, restartRemaining, hult]
  rfl

theorem restarted_of_slept (alloc : Allocator) (hsoft : 0 ≤ (s.threads t).softPriority.toInt)
    (hrem : 0 ≤ (s.threads t).remaining.toInt) (h : 0 < slept s t) :
    restarted alloc s t = (credit (slept s t) (s.threads t).softPriority.toInt
      (s.threads t).remaining.toInt).remaining := by
  have hlt : (s.threads t).epoch.toNat < s.sched.epoch.toNat := by
    rw [slept] at h
    omega
  have hult : (s.threads t).epoch.ult s.sched.epoch = true := by
    rw [BitVec.ult, decide_eq_true_eq]
    exact hlt
  have hinc := restartIncrease_toInt hsoft hrem hlt.le
  have hsum : (credit (slept s t) (s.threads t).softPriority.toInt
      (s.threads t).remaining.toInt).remaining = (s.threads t).remaining.toInt +
    (credit (slept s t) (s.threads t).softPriority.toInt
      (s.threads t).remaining.toInt).increase := rfl
  obtain ⟨hlow, hhigh⟩ := credit_bounded (slept s t) (s.threads t).softPriority.toInt
    (s.threads t).remaining.toInt
  have hsoft' : (s.threads t).softPriority.toInt < 2 ^ 31 := BitVec.toInt_lt
  have hrem' : (s.threads t).remaining.toInt < 2 ^ 31 := BitVec.toInt_lt
  rw [restarted, restart_remaining, if_pos rfl, restartRemaining, hult, if_pos rfl,
    BitVec.toInt_add, hinc]
  change ((s.threads t).remaining.toInt + (credit (slept s t) _ _).increase).bmod _ = _
  rw [← hsum]
  exact Int.bmod_eq_of_le (by omega) (by omega)

theorem restarted_bounded (alloc : Allocator) (hsoft : 0 ≤ (s.threads t).softPriority.toInt)
    (hrem : 0 ≤ (s.threads t).remaining.toInt) :
    (s.threads t).remaining.toInt ≤ restarted alloc s t ∧
      restarted alloc s t ≤
        max (s.threads t).remaining.toInt (s.threads t).softPriority.toInt := by
  obtain hawake | hslept := Nat.eq_zero_or_pos (slept s t)
  · rw [restarted_of_awake alloc hawake]
    exact ⟨le_refl _, le_max_left _ _⟩
  · rw [restarted_of_slept alloc hsoft hrem hslept]
    exact credit_bounded _ _ _

/-- Two threads with the same numbers, of which one has slept longer. -/
theorem restarted_monotone (alloc : Allocator) (hsoft : 0 ≤ (s.threads t).softPriority.toInt)
    (hrem : 0 ≤ (s.threads t).remaining.toInt)
    (heq : (s'.threads t').softPriority = (s.threads t).softPriority)
    (heq' : (s'.threads t').remaining = (s.threads t).remaining)
    (hle : slept s' t' ≤ slept s t) : restarted alloc s' t' ≤ restarted alloc s t := by
  obtain hawake | hslept := Nat.eq_zero_or_pos (slept s' t')
  · rw [restarted_of_awake alloc hawake, heq']
    exact (restarted_bounded alloc hsoft hrem).1
  · rw [restarted_of_slept alloc (heq ▸ hsoft) (heq' ▸ hrem) hslept,
      restarted_of_slept alloc hsoft hrem (hslept.trans_le hle), heq, heq']
    exact credit_monotone _ _ hle

/-- The result is always in bounds and monotone; the values are all representable except for the
divisor of a thread that has slept for 30 epochs or more. -/
theorem sleep_credit (alloc : Allocator) (hsoft : 0 ≤ (s.threads t).softPriority.toInt)
    (hrem : 0 ≤ (s.threads t).remaining.toInt) :
    SleepCredit alloc s t ↔ slept s t < 30 := by
  have hrepr := credit_representable (slept s t) hsoft BitVec.toInt_lt hrem BitVec.toInt_lt
  constructor
  · intro h
    obtain hawake | hslept := Nat.eq_zero_or_pos (slept s t)
    · omega
    · exact hrepr.mp (h.representable hslept)
  · intro hshort
    refine ⟨restarted_bounded alloc hsoft hrem, fun s' t' heq heq' hle => ?_, fun _ => ?_,
      fun _ => ?_⟩
    · exact restarted_monotone alloc hsoft hrem heq heq' hle
    · exact hrepr.mpr hshort
    · exact (credit_divisor_pos _ _ _).ne'

end Restart

def sleptFor (epoch : BitVec 32) : State (Fin 1) :=
  ⟨fun _ => { newThread 10 with remaining := 0 },
    { schedInit exactSizes 0 0 with epoch }⟩

theorem sleep_credit_29 : SleepCredit exactSizes (sleptFor 29) 0 :=
  (sleep_credit exactSizes (s := sleptFor 29) (t := 0) (by decide) (by decide)).mpr (by decide)

theorem sleep_credit_30 : 0 ≤ ((sleptFor 30).threads 0).softPriority.toInt ∧
    0 ≤ ((sleptFor 30).threads 0).remaining.toInt ∧ ¬ SleepCredit exactSizes (sleptFor 30) 0 := by
  refine ⟨by decide, by decide, fun h => ?_⟩
  have hdivisor := (h.representable (by decide)).divisor.2
  exact absurd hdivisor (by decide)

end Scheduler
