import Metakernel.Exclusion
import Metakernel.RunQueueOrder

/-!
# The thread that rescheduling returns

`sched_resched` and `sched_remove_resched` of a scheduler that has any number of threads, and any
value of `exclusion` when they test it. Other CPUs insert threads that the scheduler does not hold
while `rebalance_load` has dropped its lock.
-/
namespace Scheduler

open IndexedHeaps GuardedRuns

variable {τ : Type} [DecidableEq τ]

def checkExclusionSpecific (cpu exclusion : BitVec 32) : Bool := exclusion == cpu

/-- The answer of the test comes from exclusion.c. -/
def Env.answered (env : Env τ) (answer : Bool) : Env τ := { env with admitted := answer }

def Meanwhile.thread : Meanwhile τ → τ
  | .insert t _ | .restart t _ | .elsewhere t _ => t

def Meanwhile.arrives : Meanwhile τ → Bool
  | .insert _ _ | .restart _ _ => true
  | .elsewhere _ _ => false

def joined (a : Meanwhile τ) (Q : Set τ) : Set τ := if a.arrives then insert a.thread Q else Q

def Foreign (stolen : Option τ) : Set τ → List (Meanwhile τ) → Prop
  | Q, [] => ∀ t, stolen = some t → t ∉ Q
  | Q, a :: actions => a.thread ∉ Q ∧ Foreign stolen (joined a Q) actions

def Window.Brings (w : Window τ) : Prop := (∃ a ∈ w.actions, a.arrives = true) ∨ w.stolen ≠ none

def OthersLeft (env : Env τ) (s : State τ) (c : τ) : Prop :=
  (∃ t, t ≠ c ∧ s.queued t) ∨ env.window.Brings

/-- The threads that come when `c` is removed are none that are queued. -/
def Arrivals (env : Env τ) (s : State τ) (c : τ) : Prop :=
  Foreign env.window.stolen {t | t ≠ c ∧ s.queued t} env.window.actions

section Window

variable {s s' : State τ} {R F Q : Set τ} {a : Meanwhile τ} {c : τ} {m : ℕ}

omit [DecidableEq τ] in
theorem joined_nonempty : (joined a Q).Nonempty ↔ Q.Nonempty ∨ a.arrives = true := by
  rw [joined]
  split
  · rename_i harrives
    exact iff_of_true (Set.insert_nonempty _ _) (Or.inr harrives)
  · rename_i hnot
    exact (or_iff_left hnot).symm

theorem Members.meanwhile_joins (address : τ ↪ ThreadBlock) (h : Members 1 s R F)
    (ha : a.thread ∉ R ∪ F) : ∃ s' R', Scheduler.meanwhile s a = some s' ∧ Members 1 s' R' F ∧
      R' ∪ F = joined a (R ∪ F) := by
  have h₀ : Members 0 s R F := h.spare_le (Nat.zero_le 1)
  have hout : ¬ s.queued a.thread := fun hq => ha (h.queued_iff.mp hq)
  cases a with
  | insert t alloc =>
    exact ⟨_, _, if_neg hout, h₀.insertThread address alloc ha, Set.insert_union⟩
  | restart t alloc =>
    exact ⟨_, _, if_neg hout, h₀.restartThread address alloc ha, Set.insert_union⟩
  | elsewhere t th => exact ⟨_, R, if_neg hout, h.setOutside _ ha, rfl⟩

theorem Members.window_joins (address : τ ↪ ThreadBlock) {stolen : Option τ}
    {actions : List (Meanwhile τ)} (h : Members 1 s R F) (hw : Foreign stolen (R ∪ F) actions) :
    ∃ s' R', actions.foldlM Scheduler.meanwhile s = some s' ∧ Members 1 s' R' F ∧
      (∀ t, stolen = some t → t ∉ R' ∪ F) ∧
      ((R' ∪ F).Nonempty ↔ (R ∪ F).Nonempty ∨ ∃ a ∈ actions, a.arrives = true) := by
  induction actions generalizing s R with
  | nil => exact ⟨s, R, rfl, h, hw, by simp⟩
  | cons a actions ih =>
    obtain ⟨s₁, R₁, h₁, hm₁, hjoined⟩ := h.meanwhile_joins address hw.1
    obtain ⟨s₂, R₂, h₂, hm₂, hout, hne⟩ := ih hm₁ (hjoined ▸ hw.2)
    refine ⟨s₂, R₂, ?_, hm₂, hout, ?_⟩
    · rw [List.foldlM_cons, h₁]
      exact h₂
    · rw [hne, hjoined, joined_nonempty]
      simp only [List.mem_cons, exists_eq_or_imp]
      exact or_assoc

theorem Members.rebalance_joins (address : τ ↪ ThreadBlock) {w : Window τ} (h : Members 1 s R F)
    (hw : Foreign w.stolen (R ∪ F) w.actions) :
    ∃ s' R', rebalanceLoad w s = some s' ∧ Members 0 s' R' F ∧
      ((R' ∪ F).Nonempty ↔ (R ∪ F).Nonempty ∨ w.Brings) := by
  obtain ⟨s₁, R₁, h₁, hm₁, hout, hne⟩ := h.window_joins address hw
  have hactions : rebalanceLoad w s = w.stolen.elim (some s₁) fun t =>
      if s₁.queued t then none else some (schedReassignThread s₁ t) := by
    rw [rebalanceLoad, h₁]
    cases w.stolen <;> rfl
  cases hstolen : w.stolen with
  | none =>
    refine ⟨s₁, R₁, by rw [hactions, hstolen, Option.elim_none], hm₁.spare_le (Nat.zero_le 1), ?_⟩
    simp [Window.Brings, hstolen, hne]
  | some t =>
    have ht := hout t hstolen
    refine ⟨_, _, ?_, hm₁.reassignThread address ht, ?_⟩
    · rw [hactions, hstolen, Option.elim_some]
      exact if_neg fun hq => ht (hm₁.queued_iff.mp hq)
    · rw [Set.insert_union]
      simp [Window.Brings, hstolen, Set.insert_nonempty]

/-- `remove_current` puts the head of what is left in the place of `c`. -/
theorem Members.removeCurrent_returns (address : τ ↪ ThreadBlock) (h : Members 0 s R F)
    (hc : c ∈ R) {env : Env τ} (hw : Arrivals env s c) :
    ∃ s' R', Scheduler.removeCurrent env s c = some s' ∧ Members 0 s' R' F ∧
      s'.sched.currentThread = heapHead s'.sched.runningQueue ∧
      ((R' ∪ F).Nonempty ↔ OthersLeft env s c) := by
  have hrest : {t | t ≠ c ∧ s.queued t} = R \ {c} ∪ F := by
    ext t
    have hcF := h.notMem_finished hc
    rw [Set.mem_ofPred_eq, h.queued_iff]
    simp only [Set.mem_union, Set.mem_sdiff, Set.mem_singleton_iff]
    constructor
    · tauto
    · rintro (⟨hR, hne⟩ | hF)
      · exact ⟨hne, Or.inl hR⟩
      · exact ⟨fun heq => hcF (heq ▸ hF), Or.inr hF⟩
  rw [Arrivals, hrest] at hw
  obtain ⟨s₁, R₁, h₁, hm₁, hne⟩ := (h.detach address env hc).rebalance_joins address hw
  refine ⟨_, R₁, ?_, hm₁.setSched (fun sc => { sc with
    currentThread := heapHead sc.runningQueue }) ⟨rfl, rfl, rfl, rfl⟩, rfl, ?_⟩
  · rw [removeCurrent_eq, h₁]
    rfl
  · rw [hne, ← hrest]
    rfl

end Window

/-- The state after `check_current_thread`; it is not called when no thread is left. -/
def picked (env : Env τ) (s : State τ) : Option (State τ) :=
  if heapHead s.sched.runningQueue = none ∧ heapHead s.sched.finishedQueue = none then none
  else checkCurrentThread env (chargeTick s)

/-- The state on which `sched_resched` calls `do_exclusion`. -/
def selected (env : Env τ) (s : State τ) : Option (State τ) :=
  (testRunnable env (s.setSched fun sc => { sc with
    affinityCount := sc.affinityCount + env.pageFaults })).bind (picked env)

/-- `do_exclusion` returns early for an atomic thread when the scheduler does not hold the
exclusion. -/
def EntersUntested (s : State τ) : Prop :=
  ∃ c, s.sched.currentThread = some c ∧ (s.threads c).status = .atomic ∧
    s.sched.holdingExclusion = false

section Calls

variable {s s' : State τ} {R F : Set τ} {env : Env τ} {c : τ} {m : ℕ}

omit [DecidableEq τ] in
theorem Members.takeHead_returns (h : Members m s R F) (hR : R.Nonempty) :
    ∃ s', Scheduler.takeHead s = some s' ∧ s'.sched.currentThread ≠ none := by
  have hhead : heapHead s.sched.runningQueue ≠ none :=
    fun hnone => hR.ne_empty ((Held.head_eq_none_iff h.parts.running).mp hnone)
  obtain ⟨c, hc⟩ := Option.ne_none_iff_exists'.mp hhead
  refine ⟨_, by rw [Scheduler.takeHead, hc]; rfl, ?_⟩
  simp [State.setSched]

omit [DecidableEq τ] in
theorem Members.nextHead_returns (h : Members m s R F) (hne : (R ∪ F).Nonempty)
    (globalEpoch : BitVec 32) :
    ∃ s', Scheduler.takeHead (if s.sched.runningQueue.size = 0 then
      Scheduler.doEpoch globalEpoch s else s) = some s' ∧ s'.sched.currentThread ≠ none := by
  split
  · rename_i hsize
    rw [(Held.size_eq_zero_iff h.parts.running).mp hsize, Set.empty_union] at hne
    exact (h.doEpoch globalEpoch).takeHead_returns hne
  · rename_i hsize
    refine h.takeHead_returns (Set.nonempty_iff_ne_empty.mpr fun hempty => hsize ?_)
    exact (Held.size_eq_zero_iff h.parts.running).mpr hempty

theorem Members.keep_returns (h : Members m s R F) (hcur : s.sched.currentThread = some c)
    (hc : c ∈ R) : ∃ s', keepCurrentThread env s c = some s' ∧ s'.sched.currentThread ≠ none := by
  have hhead : heapHead s.sched.runningQueue ≠ none :=
    fun hnone => Set.Nonempty.ne_empty ⟨c, hc⟩ ((Held.head_eq_none_iff h.parts.running).mp hnone)
  obtain ⟨x, hx⟩ := Option.ne_none_iff_exists'.mp hhead
  rw [keepCurrentThread, hx, Option.bind_some]
  split
  · exact ((h.setKeyAffinity (fun threads => (threads c).affinityHeapPos) _).setKeyRunning
      (fun threads => (threads c).priorityHeapPos) _).takeHead_returns ⟨c, hc⟩
  · refine ⟨s, rfl, ?_⟩
    simp [hcur]

theorem Members.check_returns (h : Members m s R F) (hseat : Seated s R)
    (hne : (R ∪ F).Nonempty) (env : Env τ) :
    ∃ s', checkCurrentThread env s = some s' ∧ s'.sched.currentThread ≠ none := by
  rw [checkCurrentThread]
  split
  · rename_i c hcur
    have hc := hseat c hcur
    split
    · refine ⟨s, rfl, ?_⟩
      simp [hcur]
    · split
      · refine (h.retire hc).nextHead_returns ?_ env.globalEpoch
        exact ⟨c, Or.inr (Set.mem_insert c F)⟩
      · exact h.keep_returns hcur hc
  · exact h.nextHead_returns hne env.globalEpoch

omit [DecidableEq τ] in
theorem doExclusion_iff : (doExclusion env s c).2 = true ↔ Granted env s c := by
  refine ⟨fun h => ?_, doExclusion_granted⟩
  rw [doExclusion] at h
  by_cases hadmitted : env.admitted = true
  · exact Or.inr hadmitted
  · split at h
    · simp at h
    · rename_i htest
      push Not at htest
      exact Or.inl ⟨htest.1, Bool.eq_false_iff.mpr htest.2⟩

omit [DecidableEq τ] in
theorem heads_none_iff (h : Members m s R F) : (heapHead s.sched.runningQueue = none ∧
    heapHead s.sched.finishedQueue = none) ↔ R ∪ F = ∅ := by
  rw [Held.head_eq_none_iff h.parts.running, Held.head_eq_none_iff h.parts.finished,
    Set.union_empty_iff]

theorem picked_returns (h : Members m s R F) (hseat : Seated s R) (hne : (R ∪ F).Nonempty)
    (env : Env τ) : ∃ s₁ c, picked env s = some s₁ ∧ s₁.sched.currentThread = some c := by
  obtain ⟨hm, hs⟩ := h.chargeTick hseat
  obtain ⟨s₁, h₁, hcur⟩ := hm.check_returns hs hne env
  obtain ⟨c, hc⟩ := Option.ne_none_iff_exists'.mp hcur
  refine ⟨s₁, c, ?_, hc⟩
  rw [picked, if_neg (mt (heads_none_iff h).mp hne.ne_empty)]
  exact h₁

/-- `sched_resched` after `test_runnable` returns, and no thread when none is picked or the one
that is picked is refused. -/
theorem afterTest_returns (h : Members m s R F) (hseat : Seated s R) (env : Env τ) :
    ∃ s' out, afterTest env s = some (s', out) ∧ (∀ t, s'.queued t ↔ t ∈ R ∪ F) ∧
      (out = none ↔ ∀ s₁, picked env s = some s₁ → ∀ c, s₁.sched.currentThread = some c →
        ¬ Granted env s₁ c) := by
  have hqueued : ∀ {s' out}, afterTest env s = some (s', out) →
      ∀ t, s'.queued t ↔ t ∈ R ∪ F := by
    intro s' out hr t
    obtain ⟨R', F', hm', -, hunion⟩ := h.afterTest hseat hr
    rw [hm'.queued_iff, hunion]
  by_cases hempty : heapHead s.sched.runningQueue = none ∧ heapHead s.sched.finishedQueue = none
  · have hrun : afterTest env s = some (s, s.sched.currentThread) := by
      rw [afterTest, if_pos hempty]
      rfl
    have hnone : s.sched.currentThread = none := by
      refine Option.eq_none_iff_forall_not_mem.mpr fun c hc => ?_
      have hcR := hseat c hc
      rw [(Held.head_eq_none_iff h.parts.running).mp hempty.1] at hcR
      exact hcR
    refine ⟨s, _, hrun, hqueued hrun, iff_of_true hnone fun s₁ hpicked => ?_⟩
    rw [picked, if_pos hempty] at hpicked
    cases hpicked
  · have hne : (R ∪ F).Nonempty :=
      Set.nonempty_iff_ne_empty.mpr (mt (heads_none_iff h).mpr hempty)
    obtain ⟨s₁, c, hpicked, hc⟩ := picked_returns h hseat hne env
    have h₁ : checkCurrentThread env (chargeTick s) = some s₁ := by
      rw [← hpicked]
      exact (if_neg hempty).symm
    have hrun : afterTest env s = if (doExclusion env s₁ c).2 = true then
        some ((doExclusion env s₁ c).1, (doExclusion env s₁ c).1.sched.currentThread)
        else (goIdle (doExclusion env s₁ c).1).map fun s => (s, none) := by
      rw [afterTest, if_neg hempty, h₁]
      simp only [Option.bind_eq_bind, Option.bind_some, hc]
      split
      · rfl
      · rw [Option.map_eq_bind]
        rfl
    have hkept : (doExclusion env s₁ c).1.sched.currentThread = some c := by
      obtain ⟨held, out, heq⟩ := doExclusion_flags env s₁ c
      rw [heq]
      exact hc
    simp only [hpicked, Option.some_inj, forall_eq', hc, ← doExclusion_iff]
    split at hrun
    · rename_i hyes
      refine ⟨_, _, hrun, hqueued hrun, ?_⟩
      simp [hkept, hyes]
    · rename_i hno
      rw [goIdle, hkept] at hrun
      exact ⟨_, _, hrun, hqueued hrun, iff_of_true rfl hno⟩

/-- `test_runnable` returns; the queues hold what is left. -/
theorem Members.testRunnable_returns (address : τ ↪ ThreadBlock) (h : Members 0 s R F)
    (hseat : Seated s R) (hw : ∀ c, s.sched.currentThread = some c → Arrivals env s c) :
    ∃ s₁ R', Scheduler.testRunnable env s = some s₁ ∧ Members 0 s₁ R' F ∧ Seated s₁ R' := by
  have hsome : ∃ s₁, Scheduler.testRunnable env s = some s₁ := by
    rw [Scheduler.testRunnable]
    split
    · rename_i c hcur
      split
      · exact ⟨s, rfl⟩
      · obtain ⟨s₁, -, h₁, -⟩ := h.removeCurrent_returns address (hseat c hcur) (hw c hcur)
        rw [h₁]
        exact ⟨_, rfl⟩
    · exact ⟨s, rfl⟩
  obtain ⟨s₁, h₁⟩ := hsome
  obtain ⟨R', hm, hs⟩ := h.testRunnable address hseat h₁
  exact ⟨s₁, R', h₁, hm, hs⟩

/-- `sched_remove_resched` before its test. -/
theorem removed_returns (address : τ ↪ ThreadBlock) (h : Members 0 s R F) (hc : c ∈ R)
    (hw : Arrivals env s c) : ∃ s₁, removeCurrent env s c = some s₁ ∧
      ((∃ t, (loadRemaining (epochWhenIdle env s₁)).queued t) ↔
        OthersLeft env s c) ∧
      ((loadRemaining (epochWhenIdle env s₁)).sched.currentThread ≠ none ↔
        OthersLeft env s c) := by
  obtain ⟨s₁, R₁, h₁, hm₁, hcur, hne⟩ := h.removeCurrent_returns address hc hw
  have hseat : Seated s₁ R₁ := fun d hd => hm₁.head_mem (hcur.symm.trans hd)
  obtain ⟨R₂, F₂, hm₂, hs₂, hunion⟩ := hm₁.epochWhenIdle hseat env
  obtain ⟨hm₃, -⟩ := hm₂.loadRemaining hs₂
  have hkept : (loadRemaining (epochWhenIdle env s₁)).sched.currentThread =
      (epochWhenIdle env s₁).sched.currentThread := by
    rw [loadRemaining]
    split <;> rfl
  refine ⟨s₁, h₁, ?_, ?_⟩
  · simp only [hm₃.queued_iff, hunion, ← hne]
    rfl
  · rw [hkept, ← hne, Set.nonempty_iff_ne_empty, Ne, Ne, not_iff_not, ← heads_none_iff hm₁, ← hcur,
      epochWhenIdle]
    split
    · rename_i hidle
      simp [State.setSched, doEpoch, hidle]
    · rename_i hnot
      push Not at hnot
      exact ⟨fun hnone => ⟨hnone, hnot hnone⟩, fun hboth => hboth.1⟩

/-- The call returns, and it returns no thread exactly if none is queued then or the CPU is
excluded. -/
def ReturnsNullIff (r : Option (State τ × Option τ)) (excluded : Prop) : Prop :=
  ∃ s' out, r = some (s', out) ∧ (out = none ↔ (∀ t, ¬ s'.queued t) ∨ excluded)

/-- `sched_remove_resched` with the thread that it returns. -/
def removeReturn (env : Env τ) (s : State τ) (c : τ) : Option (State τ × Option τ) :=
  (schedRemoveResched env s c).map fun s' => (s', s'.sched.currentThread)

omit [DecidableEq τ] in
theorem returnsNull_unique {r : State τ × Option τ} {excluded : Prop} :
    ReturnsNullIff (some r) excluded ↔ (r.2 = none ↔ (∀ t, ¬ r.1.queued t) ∨ excluded) := by
  constructor
  · rintro ⟨s', out, heq, h⟩
    cases heq
    exact h
  · exact fun h => ⟨r.1, r.2, rfl, h⟩

theorem resched_returns (address : τ ↪ ThreadBlock) (h : Members 0 s R F) (hseat : Seated s R)
    (hw : ∀ c, s.sched.currentThread = some c → Arrivals env s c) (answer : Bool) :
    ∃ r, schedResched (env.answered answer) s = some r ∧
      (ReturnsNullIff (some r) (answer = false) ↔
        answer = true ∨ ∀ s₁, selected env s = some s₁ → ¬ EntersUntested s₁) := by
  have h₀ : Members 0 (s.setSched fun sc => { sc with
      affinityCount := sc.affinityCount + env.pageFaults }) R F :=
    h.setSched _ ⟨rfl, rfl, rfl, rfl⟩
  obtain ⟨s₁, R₁, htest, hm, hs⟩ : ∃ s₁ R₁, _ := h₀.testRunnable_returns address hseat hw
  obtain ⟨s', out, hrun, hqueued, hout⟩ := afterTest_returns hm hs (env.answered answer)
  have hpicked : picked (env.answered answer) s₁ = picked env s₁ := rfl
  refine ⟨(s', out), ?_, ?_⟩
  · rw [schedResched_eq]
    exact (congrArg (fun r => r.bind (afterTest (env.answered answer))) htest).trans hrun
  · rw [returnsNull_unique, selected, htest, Option.bind_some]
    simp only [hqueued]
    rcases Set.eq_empty_or_nonempty (R₁ ∪ F) with hempty | hne
    · have hnone : picked env s₁ = none := if_pos ((heads_none_iff hm).mpr hempty)
      rw [hpicked, hnone] at hout
      simp_all
    · obtain ⟨s₂, c, h₂, hc⟩ := picked_returns hm hs hne env
      obtain ⟨t, ht⟩ := hne
      have hall : ¬ ∀ t, t ∉ R₁ ∪ F := fun hall => hall t ht
      rw [hpicked, h₂] at hout
      rw [h₂]
      simp only [Option.some_inj, forall_eq', hc, Granted, Env.answered] at hout
      simp only [Option.some_inj, forall_eq', EntersUntested, hc, exists_eq_left', hall, hout]
      cases answer <;> simp

/-- With no thread left only a CPU that is admitted returns from `sched_remove_resched`. -/
theorem removeReturn_cases (address : τ ↪ ThreadBlock) (h : Members 0 s R F) (hc : c ∈ R)
    (hw : Arrivals env s c) (answer : Bool) :
    (¬ OthersLeft env s c ∧ answer = false ∧ removeReturn (env.answered answer) s c = none) ∨
    (OthersLeft env s c ∨ answer = true) ∧ ∃ r, removeReturn (env.answered answer) s c = some r ∧
      ((∃ t, r.1.queued t) ↔ OthersLeft env s c) ∧
      (r.2 = none ↔ ¬ OthersLeft env s c ∨ answer = false) := by
  have hw₁ : Arrivals (env.answered answer) s c := hw
  obtain ⟨s₁, h₁, hqueued, hcur⟩ := removed_returns address h hc hw₁
  have hrun : schedRemoveResched (env.answered answer) s c =
      if answer then some (loadRemaining (epochWhenIdle (env.answered answer) s₁))
      else goIdle (loadRemaining (epochWhenIdle (env.answered answer) s₁)) := by
    rw [schedRemoveResched, h₁]
    rfl
  have hothers : OthersLeft (env.answered answer) s c = OthersLeft env s c := rfl
  rw [hothers] at hqueued hcur
  cases answer with
  | true =>
    refine Or.inr ⟨Or.inr rfl, _, by rw [removeReturn, hrun]; rfl, hqueued, ?_⟩
    rw [← hcur]
    simp
  | false =>
    cases hnext : (loadRemaining (epochWhenIdle (env.answered false) s₁)).sched.currentThread with
    | none =>
      refine Or.inl ⟨fun hleft => hcur.mpr hleft hnext, rfl, ?_⟩
      rw [removeReturn, hrun]
      simp [goIdle, hnext]
    | some d =>
      have hleft : OthersLeft env s c := hcur.mp (by simp [hnext])
      refine Or.inr ⟨Or.inl hleft, _, by rw [removeReturn, hrun]; simp [goIdle, hnext]; rfl, hqueued, ?_⟩
      simp [State.setSched]

end Calls

/-- `sched_resched` always returns. It returns no thread as it should unless it selects an atomic
thread that `do_exclusion` does not test. `sched_remove_resched` follows a null pointer when it
removes the last thread of a CPU that `check_exclusion_specific` does not admit; otherwise it
returns no thread as it should, and also when nobody holds the exclusion. -/
theorem rescheduling_null_iff (address : τ ↪ ThreadBlock) {s : State τ} {R F : Set τ}
    (h : Members 0 s R F) (hseat : Seated s R) (env : Env τ) (exclusion : BitVec 32)
    (hw : ∀ c, s.sched.currentThread = some c → Arrivals env s c) :
    (∃ r, schedResched (env.answered (Exclusion.checkExclusion s.sched.cpuId exclusion)) s = some r) ∧
    (ReturnsNullIff (schedResched (env.answered (Exclusion.checkExclusion s.sched.cpuId exclusion)) s)
        (Exclusion.checkExclusion s.sched.cpuId exclusion = false) ↔
      Exclusion.checkExclusion s.sched.cpuId exclusion = true ∨
        ∀ s₁, selected env s = some s₁ → ¬ EntersUntested s₁) ∧
    ∀ c, s.sched.currentThread = some c →
      (ReturnsNullIff (removeReturn (env.answered (checkExclusionSpecific s.sched.cpuId exclusion)) s c)
          (checkExclusionSpecific s.sched.cpuId exclusion = false) ↔
        exclusion = s.sched.cpuId ∨ OthersLeft env s c) ∧
      (ReturnsNullIff (removeReturn (env.answered (checkExclusionSpecific s.sched.cpuId exclusion)) s c)
          (Exclusion.checkExclusion s.sched.cpuId exclusion = false) ↔
        exclusion = s.sched.cpuId ∨ exclusion ≠ -1 ∧ OthersLeft env s c) := by
  obtain ⟨r, hr, hiff⟩ := resched_returns address h hseat hw
    (Exclusion.checkExclusion s.sched.cpuId exclusion)
  refine ⟨⟨r, hr⟩, hr ▸ hiff, fun c hcur => ?_⟩
  have hspecific : checkExclusionSpecific s.sched.cpuId exclusion = false ↔
      exclusion ≠ s.sched.cpuId := beq_eq_false_iff_ne
  have hcheck : Exclusion.checkExclusion s.sched.cpuId exclusion = false ↔
      exclusion ≠ s.sched.cpuId ∧ exclusion ≠ -1 := by
    rw [Exclusion.checkExclusion, Bool.or_eq_false_iff, beq_eq_false_iff_ne, beq_eq_false_iff_ne,
      ne_comm]
  rcases removeReturn_cases address h (hseat c hcur) (hw c hcur)
    (checkExclusionSpecific s.sched.cpuId exclusion) with
      ⟨hnobody, hrefused, hnull⟩ | ⟨hsome, r, hr, hleft, hnull⟩
  · have hnot : ∀ excluded, ¬ ReturnsNullIff (none : Option (State τ × Option τ)) excluded := by
      rintro excluded ⟨s', out, heq, -⟩
      cases heq
    rw [hspecific] at hrefused
    simp [hnull, hnot, hrefused, hnobody]
  · have hqueued : (∀ t, ¬ r.1.queued t) ↔ ¬ OthersLeft env s c := by
      rw [← hleft, not_exists]
    have hadmitted : OthersLeft env s c ∨ exclusion = s.sched.cpuId :=
      hsome.imp_right fun htrue => beq_iff_eq.mp htrue
    rw [hr, returnsNull_unique, returnsNull_unique, hqueued, hnull, hspecific, hcheck]
    constructor
    · exact iff_of_true Iff.rfl hadmitted.symm
    · by_cases hcpu : exclusion = s.sched.cpuId
      · simp [hcpu]
      · simp [hcpu, hadmitted.resolve_right hcpu]

/-- The current one of two threads is removed, while another CPU holds the exclusion. -/
def twoInserted : List (Event (Fin 3)) :=
  [.meanwhile (.insert 1 exactSizes), .meanwhile (.insert 2 exactSizes), .resched (alone true)]

theorem rescheduling_null_iff_two : ∃ (s : State (Fin 3)) (c : Fin 3),
    s.sched.cpuId = 0 ∧ s.sched.currentThread = some c ∧
      (∃ r, schedResched ((alone true).answered (Exclusion.checkExclusion 0 7)) s = some r) ∧
      ReturnsNullIff (removeReturn ((alone true).answered (checkExclusionSpecific 0 7)) s c)
        (checkExclusionSpecific 0 7 = false) := by
  have hrun : (follow step (fun _ _ => True) emptyScheduler twoInserted).map (fun s =>
      decide (s.sched.cpuId = 0 ∧ s.sched.currentThread = some 2 ∧ s.queued 1)) = some true := by
    decide +kernel
  obtain ⟨s, hs, hd⟩ := Option.map_eq_some_iff.mp hrun
  obtain ⟨hid, hcur, hother⟩ := of_decide_eq_true hd
  obtain ⟨R, F, hm, hseat⟩ := reachable_members firstBlocks (execution_of_follow hs)
  have hall := rescheduling_null_iff firstBlocks hm hseat (alone true) 7 (by
    rintro c - t ⟨⟩)
  rw [hid] at hall
  have hleft : OthersLeft (alone true) s 2 := Or.inl ⟨1, by decide, hother⟩
  exact ⟨s, 2, hid, hcur, hall.1, (hall.2.2 2 hcur).1.mpr (Or.inr hleft)⟩

/-- The only thread of a scheduler is removed, and nobody holds the exclusion. -/
def oneInserted : List (Event (Fin 3)) := [.meanwhile (.insert 1 exactSizes), .resched (alone true)]

theorem last_thread_followed : ∃ (s : State (Fin 3)) (c : Fin 3),
    Execution step (fun _ _ => True) emptyScheduler s ∧ (∃ R F, Members 0 s R F ∧ Seated s R) ∧
      s.sched.currentThread = some c ∧ Arrivals (alone true) s c ∧
      ¬ ReturnsNullIff (removeReturn ((alone true).answered
        (checkExclusionSpecific s.sched.cpuId (-1))) s c)
          (checkExclusionSpecific s.sched.cpuId (-1) = false) := by
  have hrun : (follow step (fun _ _ => True) emptyScheduler oneInserted).map (fun s =>
      decide (s.sched.currentThread = some 1) && (removeReturn ((alone true).answered
        (checkExclusionSpecific s.sched.cpuId (-1))) s 1).isNone) = some true := by decide +kernel
  obtain ⟨s, hs, hd⟩ := Option.map_eq_some_iff.mp hrun
  rw [Bool.and_eq_true, decide_eq_true_iff, Option.isNone_iff_eq_none] at hd
  have hexec := execution_of_follow hs
  refine ⟨s, 1, hexec, reachable_members firstBlocks hexec, hd.1, ?_, ?_⟩
  · rintro t ⟨⟩
  · rintro ⟨s', out, heq, -⟩
    rw [hd.2] at heq
    cases heq

end Scheduler
