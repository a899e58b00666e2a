import Metakernel.EpochFairness
import Metakernel.HeapOperations
import Metakernel.LoadAccounting

/-!
# Preemption by priority

The current thread stays in the running queue under the key that it had when it was selected, while
`current_remaining` counts down. `keep_current_thread` compares with the head of the queue only, so
a thread that is itself the head is not compared with any other.
-/
namespace Scheduler

open IndexedHeaps GuardedRuns

variable {τ : Type} [DecidableEq τ]

/-- Threads come, and the current thread is in none of the special modes. -/
def Ticks (s : State τ) : Event τ → Prop
  | .meanwhile (.insert _ _) => True
  | .resched _ => ∀ c ∈ s.sched.currentThread, (s.threads c).status = .runnable
  | _ => False

instance (s : State τ) (e : Event τ) : Decidable (Ticks s e) :=
  match e with
  | .meanwhile (.insert _ _) => inferInstanceAs (Decidable True)
  | .resched _ => inferInstanceAs (Decidable (∀ c ∈ s.sched.currentThread, _))
  | .meanwhile (.restart _ _) | .meanwhile (.elsewhere _ _) | .remove _ _ | .eschew
  | .changeRemaining _ _ | .adjustPriority _ _ | .setPriority _ _ | .setHardPriority _ _
  | .setStatus _ _ => inferInstanceAs (Decidable False)

def PreemptionBound (s : State τ) : Prop :=
  ∀ c, s.sched.currentThread = some c → ∀ u, s.sched.runningQueue.holds u → u ≠ c →
    keyOf s.threads u ≤ s.sched.currentRemaining.toInt + priorityBoost.toInt

/-- The current thread is the head of its queue and keeps some time after the next tick, and one of
the two threads below it then overwhelms it. -/
def Overlooked (s : State τ) : Prop :=
  ∃ c ∈ s.sched.currentThread, heapHead s.sched.runningQueue = some c ∧
    1 < s.sched.currentRemaining.toInt ∧ ∃ j ∈ [2, 3], j ≤ s.sched.runningQueue.size ∧
      s.sched.currentRemaining.toInt - 1 + priorityBoost.toInt <
        keyOf s.threads (s.sched.runningQueue.dataName j)

instance (s : State τ) : Decidable (Overlooked s) :=
  inferInstanceAs (Decidable (∃ c ∈ s.sched.currentThread, _))

/-- A current thread that would go on and is denied the CPU has no smaller time left than the
threads below it in the queue: the time is written to the queue in place. -/
def DenialFits (s : State τ) : Event τ → Prop
  | .resched env => env.admitted = false → ∀ c ∈ s.sched.currentThread,
      1 < s.sched.currentRemaining.toInt →
      ¬ Overwhelmed s c (s.sched.currentRemaining - 1) →
      AboveChildren s.threads s.sched.runningQueue (s.threads c).priorityHeapPos
        (s.sched.currentRemaining - 1)
  | _ => True

instance (s : State τ) (e : Event τ) : Decidable (DenialFits s e) :=
  match e with
  | .resched _ => inferInstanceAs (Decidable (_ → ∀ c ∈ s.sched.currentThread, _))
  | .meanwhile _ | .remove _ _ | .eschew | .changeRemaining _ _ | .adjustPriority _ _
  | .setPriority _ _ | .setHardPriority _ _ | .setStatus _ _ => inferInstanceAs (Decidable True)

structure Counted (s : State τ) (R F : Set τ) : Prop where
  members : Members 0 s R F
  seated : Seated s R
  sorted : Sorted s
  keys : ∀ u ∈ R ∪ F, 0 ≤ keyOf s.threads u
  left : 0 ≤ s.sched.currentRemaining.toInt
  spent : ∀ c, s.sched.currentThread = some c →
    s.sched.currentRemaining.toInt ≤ keyOf s.threads c

section Tick

variable {s s' s₀ : State τ} {R F R' F' : Set τ} {c t u : τ} {env : Env τ} {m : ℕ}

theorem left_toInt {left : BitVec 32} (h : 0 ≤ left.toInt) : (left - 1).toInt = left.toInt - 1 := by
  have hone : (1 : BitVec 32).toInt = 1 := rfl
  have hlt : left.toInt < 2 ^ 31 := BitVec.toInt_lt
  rw [BitVec.toInt_sub, hone]
  exact Int.bmod_eq_of_le (by omega) (by omega)

theorem half_nonneg (x : BitVec 32) : 0 ≤ (x / 2).toInt := by
  have hlt := x.isLt
  have hhalf : (x / 2).toNat = x.toNat / 2 := BitVec.toNat_udiv
  rw [BitVec.toInt_eq_toNat_of_lt (by omega)]
  exact Int.natCast_nonneg _

section

omit [DecidableEq τ]

theorem Sorted.le_head (h : Sorted s) {j : ℕ} (hj : 1 ≤ j) (hjn : j ≤ s.sched.runningQueue.size) :
    keyOf s.threads (s.sched.runningQueue.dataName j) ≤
      keyOf s.threads (s.sched.runningQueue.dataName 1) :=
  Ordered.le_first (maxHeap_iff.mp h.running) hj hjn

theorem taken_bound (h : Sorted s') (ht : takeHead s₀ = some s') : PreemptionBound s' := by
  obtain ⟨x, hx, rfl⟩ := Option.map_eq_some_iff.mp ht
  intro c hc u hu _
  cases hc
  obtain ⟨i, hi, rfl⟩ := hu
  have hsize : i < s₀.sched.runningQueue.size := hi
  have hle := h.le_head (j := i + 1) (by omega) hi
  have hhead : x = s₀.sched.runningQueue.dataName 1 := by
    rw [heapHead, if_pos (by omega)] at hx
    exact (Option.some_inj.mp hx).symm
  have hboost : priorityBoost.toInt = 5 := rfl
  have hkey : (s₀.threads x).remaining.toInt =
    keyOf s₀.threads (s₀.sched.runningQueue.dataName 1) := by rw [hhead]; rfl
  change keyOf s₀.threads (s₀.sched.runningQueue.dataName (i + 1)) ≤
    keyOf s₀.threads (s₀.sched.runningQueue.dataName 1) at hle
  change keyOf s₀.threads (s₀.sched.runningQueue.dataName (i + 1)) ≤
    (s₀.threads x).remaining.toInt + priorityBoost.toInt
  omega

/-- Nobody overwhelms the head, so the two threads below it decide. -/
theorem head_bound (h : Sorted s) (hm : Members m s R F)
    (hhead : heapHead s.sched.runningQueue = some c) {left : ℤ} :
    (∀ u, s.sched.runningQueue.holds u → u ≠ c → keyOf s.threads u ≤ left) ↔
      ∀ j ∈ [2, 3], j ≤ s.sched.runningQueue.size →
        keyOf s.threads (s.sched.runningQueue.dataName j) ≤ left := by
  have hfirst : s.sched.runningQueue.dataName 1 = c := by
    rw [heapHead] at hhead
    split at hhead
    · exact Option.some_inj.mp hhead
    · cases hhead
  constructor
  · intro hall j hj hjn
    have htwo : 2 ≤ j := by
      simp only [List.mem_cons, List.not_mem_nil, or_false] at hj
      omega
    apply hall
    · exact (holds_iff hm.parts.running).mpr (Indexed.slot_mem hm.parts.running (by omega) hjn)
    · rw [← hfirst]
      intro heq
      have hone := index_inj hm.parts.running (by omega) hjn le_rfl (by omega) heq
      omega
  · rintro hbelow u ⟨i, hi, rfl⟩ hne
    have hi' : 2 ≤ i + 1 := by
      by_contra hlt
      obtain rfl : i = 0 := by omega
      exact hne hfirst
    rcases Ordered.le_second_or_third (maxHeap_iff.mp h.running) hi' hi with hle | ⟨hn, hle⟩
    · exact hle.trans (hbelow 2 (by simp) (by omega))
    · exact hle.trans (hbelow 3 (by simp) hn)

end

/-- `keep_current_thread` takes the head, unless it leaves everything as it was. -/
theorem keep_cases (hk : keepCurrentThread env s c = some s') :
    (∃ s₀, takeHead s₀ = some s') ∧ heapHead s.sched.runningQueue ≠ some c ∨
      s' = s ∧ ¬ Overwhelmed s c s.sched.currentRemaining := by
  obtain ⟨x, hx, hk⟩ := Option.bind_eq_some_iff.mp hk
  split at hk
  · rename_i hover
    refine Or.inl ⟨⟨_, hk⟩, ?_⟩
    rw [hx]
    exact fun heq => hover.2 (Option.some_inj.mp heq)
  · rename_i hover
    cases hk
    refine Or.inr ⟨rfl, ?_⟩
    rintro ⟨y, hy, hless⟩
    rw [hx] at hy
    cases hy
    exact hover hless

omit [DecidableEq τ] in
/-- A thread that is not overwhelmed by another one at the head is overwhelmed by nobody. -/
theorem kept_bound (h : Sorted s) {x : τ} (hhead : heapHead s.sched.runningQueue = some x)
    (hne : x ≠ c) (hover : ¬ Overwhelmed s c s.sched.currentRemaining)
    (hleft : 0 ≤ s.sched.currentRemaining.toInt) (hu : s.sched.runningQueue.holds u) :
    keyOf s.threads u ≤ s.sched.currentRemaining.toInt + priorityBoost.toInt := by
  obtain ⟨i, hi, rfl⟩ := hu
  have hle := h.le_head (j := i + 1) (by omega) hi
  have hfirst : s.sched.runningQueue.dataName 1 = x := by
    rw [heapHead, if_pos (by omega)] at hhead
    exact Option.some_inj.mp hhead
  rw [hfirst] at hle
  refine hle.trans ?_
  have hnot : ¬ (s.sched.currentRemaining + priorityBoost).slt (s.threads x).remaining :=
    fun hslt => hover ⟨x, hhead, hslt, hne⟩
  have hboost : priorityBoost.toInt = 5 := rfl
  have hlt : s.sched.currentRemaining.toInt < 2 ^ 31 := BitVec.toInt_lt
  have hkey : (s.threads x).remaining.toInt < 2 ^ 31 := BitVec.toInt_lt
  rw [BitVec.slt, decide_eq_true_eq, not_lt, BitVec.toInt_add, hboost] at hnot
  change (s.threads x).remaining.toInt ≤ _
  -- a sum that overflows is larger than every key
  by_cases hsum : s.sched.currentRemaining.toInt + 5 < 2 ^ 31
  · rw [Int.bmod_eq_of_le (by omega) (by omega)] at hnot
    omega
  · omega

theorem sle_zero_iff {x : BitVec 32} : x.sle 0 = true ↔ x.toInt ≤ 0 := by
  rw [BitVec.sle_eq_decide, decide_eq_true_iff]
  rfl

theorem Counted.keepsOrder (h : Counted s R F) {e : Event τ} (hticks : Ticks s e)
    (hfits : DenialFits s e) : KeepsOrder s e := by
  cases e with
  | meanwhile a => trivial
  | resched env =>
    intro c hc _
    have hcur : s.sched.currentThread = some c := hc
    have hR := h.seated c hcur
    obtain ⟨h1, hn, hslot⟩ := Indexed.slot_pos h.members.parts.running hR
    have hslot : s.sched.runningQueue.dataName (s.threads c).priorityHeapPos = c := hslot
    have hfit : Fits s.threads s.sched.runningQueue (s.threads c).priorityHeapPos
        (s.threads (s.sched.runningQueue.dataName (s.threads c).priorityHeapPos)).remaining :=
      h.sorted.running.fits h1 hn
    rw [hslot] at hfit
    have hless : (s.sched.currentRemaining - 1).toInt < (s.threads c).remaining.toInt := by
      have hspent := h.spent c hcur
      rw [left_toInt h.left]
      change s.sched.currentRemaining.toInt ≤ (s.threads c).remaining.toInt at hspent
      omega
    have hbelow : BelowParent s.threads s.sched.runningQueue (s.threads c).priorityHeapPos
        (s.sched.currentRemaining - 1) := fun h2 => hless.le.trans (hfit.1 h2)
    constructor
    · intro _ hleft _
      have hleft' : 0 ≤ (s.sched.currentRemaining - 1).toInt := by
        have hpos := mt sle_zero_iff.mpr (Bool.eq_false_iff.mp hleft)
        omega
      have hult := HeapFile.direction_iff (w := .priority) (h.keys c (Or.inl hR)) hleft'
      refine ⟨fun heq => ?_, fun _ hup => ?_, fun _ _ => hbelow⟩
      · rw [heq] at hless
        exact absurd hless (lt_irrefl _)
      · exact absurd (hult.mp hup) (not_lt.mpr hless.le)
    · intro hstays hnot
      refine ⟨hbelow, ?_⟩
      have hrun := hticks c hc
      rcases hstays with (hatomic | hno) | ⟨hleft, hover⟩
      · rw [hrun] at hatomic
        cases hatomic
      · rw [hrun] at hno
        cases hno
      · apply hfits _ c hc _ hover
        · by_contra hadmitted
          exact hnot (Or.inr (Bool.eq_true_of_not_eq_false hadmitted))
        · have hpos := mt sle_zero_iff.mpr (Bool.eq_false_iff.mp hleft)
          rw [left_toInt h.left] at hpos
          omega
  | remove t env => trivial
  | eschew => trivial
  | setStatus t status => trivial
  | changeRemaining t remaining => exact hticks.elim
  | adjustPriority t priority => exact hticks.elim
  | setPriority t priority => exact hticks.elim
  | setHardPriority t priority => exact hticks.elim

/-- A current thread that can run goes on to the second half of `sched_resched`. -/
theorem tick_afterTest (hticks : Ticks s (.resched env)) {out : Option τ}
    (hr : schedResched env s = some (s', out)) :
    afterTest env (s.setSched fun sc => { sc with
      affinityCount := sc.affinityCount + env.pageFaults }) = some (s', out) := by
  rw [schedResched_eq] at hr
  obtain ⟨s₁, h₁, hr⟩ := Option.bind_eq_some_iff.mp hr
  rw [testRunnable] at h₁
  split at h₁
  · rename_i c hc
    rw [if_pos] at h₁
    · cases h₁
      exact hr
    · have hrun : (s.threads c).status = .runnable := hticks c hc
      exact congrArg Status.isRunnable hrun
  · cases h₁
    exact hr

/-- What the tick decides: the head is taken, or the current thread stays. -/
theorem check_cases (hrun : ∀ c, s.sched.currentThread = some c → (s.threads c).status = .runnable)
    (hk : checkCurrentThread env s = some s') :
    (∃ s₀, takeHead s₀ = some s') ∧ (∀ c, s.sched.currentThread = some c →
        s.sched.currentRemaining.toInt ≤ 0 ∨ heapHead s.sched.runningQueue ≠ some c) ∨
      s' = s ∧ ∃ c, s.sched.currentThread = some c ∧ 0 < s.sched.currentRemaining.toInt ∧
        ¬ Overwhelmed s c s.sched.currentRemaining := by
  cases hcur : s.sched.currentThread with
  | none =>
    rw [checkCurrentThread, hcur] at hk
    exact Or.inl ⟨⟨_, hk⟩, by simp⟩
  | some c =>
    rw [check_runnable hcur (hrun c hcur)] at hk
    split at hk
    · rename_i hless
      refine Or.inl ⟨⟨_, hk⟩, ?_⟩
      rintro d ⟨⟩
      exact Or.inl (sle_zero_iff.mp hless)
    · rename_i hleft
      rcases keep_cases hk with ⟨htaken, hne⟩ | ⟨rfl, hover⟩
      · refine Or.inl ⟨htaken, ?_⟩
        rintro d ⟨⟩
        exact Or.inr hne
      · refine Or.inr ⟨rfl, c, rfl, ?_, hover⟩
        exact not_le.mp (mt sle_zero_iff.mpr hleft)

section

omit [DecidableEq τ]

theorem tickStart_fields (env : Env τ) (s : State τ) : (tickStart env s).threads = s.threads ∧
    (tickStart env s).sched.runningQueue = s.sched.runningQueue ∧
    (tickStart env s).sched.finishedQueue = s.sched.finishedQueue ∧
    (tickStart env s).sched.currentThread = s.sched.currentThread := by
  rw [tickStart, chargeTick]
  split <;> exact ⟨rfl, rfl, rfl, rfl⟩

theorem tickStart_runs (hticks : Ticks s (.resched env)) (c : τ)
    (hc : (tickStart env s).sched.currentThread = some c) :
    ((tickStart env s).threads c).status = .runnable := by
  obtain ⟨hthreads, -, -, hcurrent⟩ := tickStart_fields env s
  rw [hthreads]
  exact hticks c (hcurrent.symm.trans hc)

theorem tickStart_left (h : 0 ≤ s.sched.currentRemaining.toInt)
    (hcur : s.sched.currentThread = some c) :
    (tickStart env s).sched.currentRemaining.toInt = s.sched.currentRemaining.toInt - 1 := by
  rw [tickStart_current hcur]
  exact left_toInt h

theorem Counted.head (h : Counted s R F) (hcur : s.sched.currentThread = some c) :
    ∃ x, heapHead s.sched.runningQueue = some x := by
  have hpos := Indexed.slot_pos h.members.parts.running (h.seated c hcur)
  have hsize : s.sched.runningQueue.size ≠ 0 := by omega
  exact ⟨_, if_pos hsize⟩

end

theorem Counted.kept_bound (h : Counted s R F) (hcur : s.sched.currentThread = some c)
    (hleft : 0 < (tickStart env s).sched.currentRemaining.toInt)
    (hover : ¬ Overwhelmed (tickStart env s) c (tickStart env s).sched.currentRemaining)
    (hsort : Sorted (tickStart env s)) :
    PreemptionBound (tickStart env s) ↔ ¬ Overlooked s := by
  obtain ⟨hthreads, hqueue, hfinished, hcurrent⟩ := tickStart_fields env s
  obtain ⟨x, hx⟩ := h.head hcur
  have hcharged : (tickStart env s).sched.currentRemaining.toInt =
      s.sched.currentRemaining.toInt - 1 := tickStart_left h.left hcur
  have hbound : PreemptionBound (tickStart env s) ↔ ∀ u, s.sched.runningQueue.holds u → u ≠ c →
      keyOf s.threads u ≤ s.sched.currentRemaining.toInt - 1 + priorityBoost.toInt := by
    rw [PreemptionBound, hthreads, hqueue, hcurrent, hcharged, hcur]
    constructor
    · exact fun hall => hall c rfl
    · rintro hall d ⟨⟩
      exact hall
  rw [hbound]
  by_cases hxc : x = c
  · subst hxc
    rw [head_bound h.sorted h.members hx]
    constructor
    · rintro hall ⟨d, hd, -, -, j, hj, hjn, hlt⟩
      exact absurd (hall j hj hjn) (not_le.mpr hlt)
    · intro hnot j hj hjn
      by_contra hlt
      refine hnot ⟨x, hcur, hx, ?_, j, hj, hjn, not_le.mp hlt⟩
      omega
  · constructor
    · rintro - ⟨d, hd, hhead, -⟩
      obtain rfl : c = d := Option.some_inj.mp (hcur.symm.trans hd)
      exact hxc (Option.some_inj.mp (hx.symm.trans hhead))
    · intro _ u hu _
      rw [← hqueue] at hx hu
      have hle := Scheduler.kept_bound hsort hx hxc hover hleft.le hu
      rw [hthreads, hcharged] at hle
      exact hle

/-- After `check_current_thread` nobody overwhelms the current thread, unless it was kept as the
head. -/
theorem Counted.check_bound (h : Counted s R F) (hticks : Ticks s (.resched env))
    (hsort : Sorted (tickStart env s)) (hsort' : Sorted s')
    (hk : checkCurrentThread env (tickStart env s) = some s') :
    (PreemptionBound s' ↔ ¬ Overlooked s) ∧ (Overlooked s → s' = tickStart env s) := by
  obtain ⟨-, hqueue, -, hcurrent⟩ := tickStart_fields env s
  have hrun := tickStart_runs hticks
  rcases check_cases hrun hk with ⟨⟨s₀, ht⟩, htaken⟩ | ⟨rfl, c, hc, hleft, hover⟩
  · have hnot : ¬ Overlooked s := by
      rintro ⟨c, hc, hhead, hleft, -⟩
      rcases htaken c (hcurrent.trans hc) with hspent | hother
      · rw [tickStart_left h.left hc] at hspent
        omega
      · exact hother (hqueue ▸ hhead)
    exact ⟨iff_of_true (taken_bound hsort' ht) hnot, fun hover => absurd hover hnot⟩
  · exact ⟨h.kept_bound (hcurrent.symm.trans hc) hleft hover hsort, fun _ => rfl⟩

omit [DecidableEq τ] in
theorem Counted.charged (h : Counted s R F) (env : Env τ) :
    Members 0 (tickStart env s) R F ∧ Seated (tickStart env s) R ∧ Sorted (tickStart env s) := by
  have hm : Members 0 (s.setSched fun sc => { sc with
      affinityCount := sc.affinityCount + env.pageFaults }) R F :=
    h.members.setSched _ ⟨rfl, rfl, rfl, rfl⟩
  obtain ⟨hmc, hsc⟩ := hm.chargeTick h.seated
  obtain ⟨hthreads, hqueue, hfinished, -⟩ := tickStart_fields env s
  refine ⟨hmc, hsc, ?_, ?_⟩
  · rw [hthreads, hqueue]
    exact h.sorted.running
  · rw [hthreads, hfinished]
    exact h.sorted.finished

theorem Counted.sorted_check (h : Counted s R F) (hticks : Ticks s (.resched env))
    (hfits : DenialFits s (.resched env))
    (hk : checkCurrentThread env (tickStart env s) = some s') : Sorted s' := by
  obtain ⟨hm, hseat, hsort⟩ := h.charged env
  refine (hsort.check hm hseat ?_ hk).1
  intro c hc
  have hcur : s.sched.currentThread = some c := (tickStart_fields env s).2.2.2.symm.trans hc
  have hrun : (s.threads c).status.isRunnable = true := by
    rw [hticks c hcur]
    rfl
  have htick := h.keepsOrder hticks hfits c hcur hrun
  rw [tickStart_current hcur]
  exact ⟨htick.overwhelmed, htick.excluded⟩

omit [DecidableEq τ] in
theorem doExclusion_refused (h : (doExclusion env s c).2 = false) : env.admitted = false := by
  by_contra hadmitted
  have hgranted := doExclusion_granted (c := c) (s := s)
    (Or.inr (Bool.eq_true_of_not_eq_false hadmitted))
  rw [h] at hgranted
  cases hgranted

omit [DecidableEq τ] in
theorem doExclusion_admitted (hrun : (s.threads c).status = .runnable)
    (h : (doExclusion env s c).2 = true) : env.admitted = true := by
  rw [doExclusion, if_pos (Or.inl (by rw [hrun]; decide))] at h
  split at h
  · assumption
  · cases h

theorem afterTest_cases {out : Option τ} (hr : afterTest env s = some (s', out)) :
    (heapHead s.sched.runningQueue = none ∧ s' = s) ∨
      ∃ s₂ c, checkCurrentThread env (chargeTick s) = some s₂ ∧ s₂.sched.currentThread = some c ∧
        ((doExclusion env s₂ c).2 = true ∧ s' = (doExclusion env s₂ c).1 ∨
          (doExclusion env s₂ c).2 = false ∧ goIdle (doExclusion env s₂ c).1 = some s') := by
  rw [afterTest] at hr
  split at hr
  · rename_i hempty
    cases hr
    exact Or.inl ⟨hempty.1, rfl⟩
  · obtain ⟨s₂, h₂, hr⟩ := Option.bind_eq_some_iff.mp hr
    obtain ⟨c, hc, hr⟩ := Option.bind_eq_some_iff.mp hr
    refine Or.inr ⟨s₂, c, h₂, hc, ?_⟩
    dsimp only at hr
    split at hr
    · rename_i hgranted
      cases hr
      exact Or.inl ⟨hgranted, rfl⟩
    · rename_i hno
      obtain ⟨s₃, h₃, hr⟩ := Option.bind_eq_some_iff.mp hr
      cases hr
      exact Or.inr ⟨Bool.eq_false_iff.mpr hno, h₃⟩

/-- A tick that leaves a current thread leaves it overwhelmed exactly when it was overlooked. -/
theorem Counted.tick_bound (h : Counted s R F) (hticks : Ticks s (.resched env)) {out : Option τ}
    (hr : schedResched env s = some (s', out)) :
    PreemptionBound s' ↔ ¬ (env.admitted = true ∧ Overlooked s) := by
  rcases afterTest_cases (tick_afterTest hticks hr) with
    ⟨hempty, rfl⟩ | ⟨s₂, c, hk, hc, ⟨hgranted, rfl⟩ | ⟨hrefused, hidle⟩⟩
  · have hnone : ∀ c, s.sched.currentThread ≠ some c := by
      intro c hc
      obtain ⟨x, hx⟩ := h.head hc
      exact absurd (hx.symm.trans hempty) nofun
    refine iff_of_true (fun c hc => absurd hc (hnone c)) ?_
    rintro ⟨-, c, hc, -⟩
    exact hnone c hc
  · -- up to `do_exclusion` it makes no difference whether the thread is admitted
    have hsort₂ : Sorted s₂ := h.sorted_check
      (show Ticks s (.resched { env with admitted := true }) from hticks) nofun hk
    obtain ⟨hbound, hkept⟩ := h.check_bound hticks (h.charged env).2.2 hsort₂ hk
    obtain ⟨held, excl, hflags⟩ := doExclusion_flags env s₂ c
    have hsame : PreemptionBound (doExclusion env s₂ c).1 ↔ PreemptionBound s₂ := by
      rw [hflags]
      exact Iff.rfl
    rw [hsame, hbound]
    constructor
    · exact fun hnot hover => hnot hover.2
    · intro hnot hover
      refine hnot ⟨?_, hover⟩
      have hcur : s.sched.currentThread = some c := by
        rw [hkept hover] at hc
        exact (tickStart_fields env s).2.2.2.symm.trans hc
      apply doExclusion_admitted _ hgranted
      rw [hkept hover, (tickStart_fields env s).1]
      exact hticks c hcur
  · obtain ⟨d, -, rfl⟩ := Option.map_eq_some_iff.mp hidle
    refine iff_of_true (fun c hc => ?_) ?_
    · cases hc
    · rw [doExclusion_refused hrefused]
      exact fun hover => absurd hover.1 nofun

omit [DecidableEq τ] in
theorem takeHead_threads (ht : takeHead s = some s') : s'.threads = s.threads := by
  obtain ⟨x, -, rfl⟩ := Option.map_eq_some_iff.mp ht
  rfl

theorem keep_remaining (hm : Members m s R F) (hR : c ∈ R)
    (hk : keepCurrentThread env s c = some s') (u : τ) :
    (s'.threads u).remaining = (s.threads u).remaining ∨
      u = c ∧ (s'.threads u).remaining = s.sched.currentRemaining := by
  obtain ⟨x, -, hk⟩ := Option.bind_eq_some_iff.mp hk
  split at hk
  · obtain ⟨h1, hn, hslot⟩ := Indexed.slot_pos hm.parts.running hR
    let threads₁ := (affinityHeapSetKey s.threads s.sched.affinityQueue
      (s.threads c).affinityHeapPos env.preemptionPageFaults).1
    have haff : ∀ v, (threads₁ v).remaining = (s.threads v).remaining ∧
        (threads₁ v).priorityHeapPos = (s.threads v).priorityHeapPos :=
      affinityHeapSetKey_affinityOnly (fun threads : τ → Thread => (threads c).affinityHeapPos)
        env.preemptionPageFaults s.threads s.sched.affinityQueue
    have hset : ((priorityHeapSetKey threads₁ s.sched.runningQueue (threads₁ c).priorityHeapPos
        s.sched.currentRemaining).1 u).remaining =
        if u = c then s.sched.currentRemaining else (threads₁ u).remaining := by
      apply LoadAccounting.setKey_remaining
      · exact h1.trans_eq (haff c).2.symm
      · exact (haff c).2.trans_le hn
      · exact (congrArg s.sched.runningQueue.dataName (haff c).2).trans hslot
    rw [takeHead_threads hk]
    by_cases hu : u = c
    · rw [if_pos hu] at hset
      exact Or.inr ⟨hu, hset⟩
    · rw [if_neg hu] at hset
      exact Or.inl (hset.trans (haff u).1)
  · cases hk
    exact Or.inl rfl

theorem check_remaining (hm : Members m s R F) (hseat : Seated s R)
    (hrun : ∀ c, s.sched.currentThread = some c → (s.threads c).status = .runnable)
    (hk : checkCurrentThread env s = some s') (u : τ) :
    (s'.threads u).remaining = (s.threads u).remaining ∨
      (∃ x : BitVec 32, (s'.threads u).remaining = x / 2) ∨
      0 < s.sched.currentRemaining.toInt ∧ (s'.threads u).remaining = s.sched.currentRemaining := by
  have hnext : ∀ {s : State τ}, takeHead (if s.sched.runningQueue.size = 0 then
      doEpoch env.globalEpoch s else s) = some s' → s'.threads = s.threads := by
    intro s ht
    rw [takeHead_threads ht]
    split <;> rfl
  cases hcur : s.sched.currentThread with
  | none =>
    rw [checkCurrentThread, hcur] at hk
    rw [hnext hk]
    exact Or.inl rfl
  | some c =>
    rw [check_runnable hcur (hrun c hcur)] at hk
    split at hk
    · rw [hnext hk]
      have hstat := congrArg Prod.fst (retire_stat s c u)
      simp only [stat] at hstat
      by_cases hu : u = c
      · rw [hu, setThread_self] at hstat
        rw [hu]
        exact Or.inr (Or.inl ⟨_, hstat⟩)
      · rw [setThread_ne _ _ hu] at hstat
        exact Or.inl hstat
    · rename_i hleft
      rcases keep_remaining hm (hseat c hcur) hk u with hsame | ⟨-, hset⟩
      · exact Or.inl hsame
      · exact Or.inr (Or.inr ⟨not_le.mp (mt sle_zero_iff.mpr hleft), hset⟩)

/-- What `check_current_thread` leaves. -/
theorem Counted.check (h : Counted s R F) (hticks : Ticks s (.resched env))
    (hfits : DenialFits s (.resched env))
    (hk : checkCurrentThread env (tickStart env s) = some s') : ∃ R' F', Counted s' R' F' := by
  obtain ⟨hthreads, -, -, hcurrent⟩ := tickStart_fields env s
  obtain ⟨hm, hseat, hsort⟩ := h.charged env
  have hrun := tickStart_runs hticks
  obtain ⟨R', F', hm', hseat', hunion⟩ := hm.check hseat hk
  have hkeys : ∀ u ∈ R' ∪ F', 0 ≤ keyOf s'.threads u := by
    intro u hu
    rw [hunion] at hu
    rw [keyOf]
    rcases check_remaining hm hseat hrun hk u with hsame | ⟨x, hhalf⟩ | ⟨hpos, hleft⟩
    · rw [hsame, hthreads]
      exact h.keys u hu
    · rw [hhalf]
      exact half_nonneg x
    · rw [hleft]
      exact hpos.le
  have hsort' := h.sorted_check hticks hfits hk
  suffices hspent : 0 ≤ s'.sched.currentRemaining.toInt ∧ ∀ c, s'.sched.currentThread = some c →
      s'.sched.currentRemaining.toInt ≤ keyOf s'.threads c from
    ⟨R', F', hm', hseat', hsort', hkeys, hspent.1, hspent.2⟩
  rcases check_cases hrun hk with ⟨⟨s₀, ht⟩, -⟩ | ⟨rfl, c, hc, hleft, -⟩
  · have hfresh := takeHead_fresh ht
    obtain ⟨x, -, hx⟩ := Option.map_eq_some_iff.mp ht
    have hcur : s'.sched.currentThread = some x := by rw [← hx]; rfl
    constructor
    · rw [hfresh x hcur]
      exact hkeys x (Or.inl (hseat' x hcur))
    · intro c hc
      rw [hfresh c hc]
      exact le_rfl
  · refine ⟨hleft.le, fun d hd => ?_⟩
    have hcur : s.sched.currentThread = some d := hcurrent.symm.trans hd
    have hspent := h.spent d hcur
    rw [tickStart_left h.left hcur, hthreads]
    omega

omit [DecidableEq τ] in
theorem Counted.setFlags (h : Counted s R F) (held excl : Bool) :
    Counted (s.setSched fun sc => { sc with holdingExclusion := held, excluded := excl }) R F :=
  ⟨h.members.setSched _ ⟨rfl, rfl, rfl, rfl⟩, h.seated,
    h.sorted.setSched _ ⟨rfl, rfl⟩ ⟨rfl, rfl⟩, h.keys, h.left, h.spent⟩

theorem Counted.tick (address : τ ↪ ThreadBlock) (h : Counted s R F)
    (hticks : Ticks s (.resched env)) (hfits : DenialFits s (.resched env)) {out : Option τ}
    (hr : schedResched env s = some (s', out)) : ∃ R' F', Counted s' R' F' := by
  have hsort := h.sorted.resched address h.members h.seated (h.keepsOrder hticks hfits) hr
  rcases afterTest_cases (tick_afterTest hticks hr) with
    ⟨-, rfl⟩ | ⟨s₂, c, hk, hc, ⟨-, rfl⟩ | ⟨-, hidle⟩⟩
  · exact ⟨R, F, h.members.setSched _ ⟨rfl, rfl, rfl, rfl⟩, h.seated, hsort, h.keys, h.left,
      h.spent⟩
  · obtain ⟨R', F', h'⟩ := h.check hticks hfits hk
    obtain ⟨held, excl, hflags⟩ := doExclusion_flags env s₂ c
    rw [hflags]
    exact ⟨R', F', h'.setFlags held excl⟩
  · obtain ⟨R', F', h'⟩ := h.check hticks hfits hk
    obtain ⟨held, excl, hflags⟩ := doExclusion_flags env s₂ c
    have hflagged := h'.setFlags held excl
    rw [← hflags] at hflagged
    obtain ⟨hm, hseat⟩ := hflagged.members.goIdle hidle
    obtain ⟨d, -, rfl⟩ := Option.map_eq_some_iff.mp hidle
    refine ⟨R', F', hm, hseat, hsort, fun u hu => ?_, hflagged.left, nofun⟩
    by_cases hud : u = d
    · have hleft := hflagged.left
      rw [hud]
      simpa [keyOf, State.setThread, State.setSched] using hleft
    · have hkey := hflagged.keys u hu
      simpa [keyOf, State.setThread, State.setSched, hud] using hkey

theorem Counted.insert (address : τ ↪ ThreadBlock) (h : Counted s R F) {alloc : Allocator}
    (ht : ¬ s.queued t) : Counted (schedInsertThread alloc s t) (insert t R) F := by
  have hout : t ∉ R ∪ F := fun hmem => ht (h.members.queued_iff.mpr hmem)
  have hm := (h.members.insertThread address alloc hout).spare_le (Nat.zero_le 1)
  have hsort : Sorted (schedInsertThread alloc s t) := by
    refine h.sorted.meanwhile (a := .insert t alloc) h.members ?_
    exact if_neg ht
  have hother : ∀ u, u ≠ t →
      keyOf (schedInsertThread alloc s t).threads u = keyOf s.threads u := by
    intro u hu
    rw [keyOf, LoadAccounting.insert_remaining, if_neg hu]
    rfl
  refine ⟨hm, ?_, hsort, fun u hu => ?_, h.left, fun c hc => ?_⟩
  · exact h.seated.mono (Set.subset_insert t R) rfl
  · by_cases hut : u = t
    · rw [keyOf, LoadAccounting.insert_remaining, if_pos hut]
      exact half_nonneg _
    · rw [hother u hut]
      rw [Set.insert_union] at hu
      exact h.keys u (hu.resolve_left hut)
  · have hcur : s.sched.currentThread = some c := hc
    rw [hother c]
    · exact h.spent c hcur
    · rintro rfl
      exact hout (Or.inl (h.seated c hcur))

theorem step_preserves_counted (address : τ ↪ ThreadBlock) (h : Counted s R F) {e : Event τ}
    (hticks : Ticks s e) (hfits : DenialFits s e) (he : step s e = some s') :
    ∃ R' F', Counted s' R' F' := by
  cases e with
  | resched env =>
    obtain ⟨⟨s₁, out⟩, hr, rfl⟩ := Option.map_eq_some_iff.mp he
    exact h.tick address hticks hfits hr
  | meanwhile a =>
    cases a with
    | insert t alloc =>
      simp only [step, meanwhile] at he
      split at he
      · cases he
      · rename_i ht
        cases he
        exact ⟨_, _, h.insert address ht⟩
    | restart t alloc => exact hticks.elim
    | elsewhere t th => exact hticks.elim
  | remove t env => exact hticks.elim
  | eschew => exact hticks.elim
  | setStatus t status => exact hticks.elim
  | changeRemaining t remaining => exact hticks.elim
  | adjustPriority t priority => exact hticks.elim
  | setPriority t priority => exact hticks.elim
  | setHardPriority t priority => exact hticks.elim

omit [DecidableEq τ] in
theorem counted_start (alloc : Allocator) (any : τ) (id : BitVec 32) (threads : τ → Thread) :
    Counted (⟨threads, schedInit alloc any id⟩ : State τ) ∅ ∅ := by
  refine ⟨members_start alloc any id threads, nofun, ⟨fun j hj hjn => ?_, fun j hj hjn => ?_⟩,
    fun u hu => ?_, le_rfl, nofun⟩
  · have hempty : j ≤ 0 := hjn
    omega
  · have hempty : j ≤ 0 := hjn
    omega
  · exact absurd hu (by simp)

/-- In a run of ticks and insertions in which no denied call breaks the order, a tick leaves a
current thread that another one overwhelms exactly when the current thread was the head of the
queue, kept some time, and was overlooked. -/
theorem preemption_bound (address : τ ↪ ThreadBlock) {alloc : Allocator} {any : τ}
    {id : BitVec 32} {threads : τ → Thread}
    (h : Execution step (fun s e => Ticks s e ∧ DenialFits s e) ⟨threads, schedInit alloc any id⟩ s)
    (hticks : Ticks s (.resched env)) (he : step s (.resched env) = some s') :
    PreemptionBound s' ↔ ¬ (env.admitted = true ∧ Overlooked s) := by
  obtain ⟨R, F, hcounted⟩ : ∃ R F, Counted s R F := by
    refine h.preserves (I := fun s => ∃ R F, Counted s R F) ?_
      ⟨∅, ∅, counted_start alloc any id threads⟩
    rintro s₁ e s₂ ⟨R, F, hcounted⟩ ⟨hticks, hfits⟩ he
    exact step_preserves_counted address hcounted hticks hfits he
  obtain ⟨⟨s₁, out⟩, hr, rfl⟩ := Option.map_eq_some_iff.mp he
  exact hcounted.tick_bound hticks hr

end Tick

def rivals : State (Fin 3) :=
  ⟨fun t => newThread (if t = 2 then 40 else 38), schedInit exactSizes 0 0⟩

def rivalTicks (n : ℕ) : List (Event (Fin 3)) :=
  [.meanwhile (.insert 1 exactSizes), .meanwhile (.insert 2 exactSizes)] ++
    List.replicate n (.resched (alone true))

/-- With 15 ticks to go nobody overwhelms the current thread after the next one. -/
theorem preemption_bound_early : ∃ s s' : State (Fin 3),
    Execution step (fun s e => Ticks s e ∧ DenialFits s e) rivals s ∧
      step s (.resched (alone true)) = some s' ∧ s'.sched.currentThread = some 2 ∧
      PreemptionBound s' := by
  have hrun : (follow step (fun s e => Ticks s e ∧ DenialFits s e) rivals (rivalTicks 6)).map
      (fun s => decide (Ticks s (.resched (alone true)) ∧ ¬ Overlooked s ∧
        ((step s (.resched (alone true))).map fun s => s.sched.currentThread) = some (some 2))) =
      some true := by decide +kernel
  obtain ⟨s, hs, hd⟩ := Option.map_eq_some_iff.mp hrun
  obtain ⟨hticks, hnot, hstep⟩ := of_decide_eq_true hd
  obtain ⟨s', hs', hcur⟩ := Option.map_eq_some_iff.mp hstep
  exact ⟨s, s', execution_of_follow hs, hs', hcur,
    (preemption_bound firstBlocks (execution_of_follow hs) hticks hs').mpr fun h => hnot h.2⟩

/-- Thread 2 was selected with 20 ticks, of which 13 are left, and thread 1 waits with 19. -/
theorem preemption_overlooked : ∃ s s' : State (Fin 3),
    Execution step (fun s e => Ticks s e ∧ DenialFits s e) rivals s ∧
      Ticks s (.resched (alone true)) ∧ step s (.resched (alone true)) = some s' ∧
      s'.sched.currentThread = some 2 ∧ s'.sched.currentRemaining = 13 ∧
      ¬ PreemptionBound s' := by
  have hrun : (follow step (fun s e => Ticks s e ∧ DenialFits s e) rivals (rivalTicks 7)).bind
      (fun s => (step s (.resched (alone true))).map fun s' => decide
        (Ticks s (.resched (alone true)) ∧ s'.sched.currentThread = some 2 ∧
          s'.sched.currentRemaining = 13 ∧ s'.sched.runningQueue.holds 1 ∧
          (s'.threads 1).remaining = 19)) = some true := by
    decide +kernel
  obtain ⟨s, hs, hstep⟩ := Option.bind_eq_some_iff.mp hrun
  obtain ⟨s', hs', hd⟩ := Option.map_eq_some_iff.mp hstep
  obtain ⟨hticks, hcur, hleft, hholds, hkey⟩ := of_decide_eq_true hd
  refine ⟨s, s', execution_of_follow hs, hticks, hs', hcur, hleft, fun h => ?_⟩
  have hle := h 2 hcur 1 hholds (by decide)
  rw [keyOf, hkey, hleft] at hle
  exact absurd hle (by decide)

end Scheduler
