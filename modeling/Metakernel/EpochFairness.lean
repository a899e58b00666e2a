import Mathlib.Data.Fintype.Basic
import Metakernel.RunQueueOrder

/-!
# One epoch

From the selection of the first thread of an epoch on, only `sched_resched` is called and no
exclusion is in force. The current thread stays in the running queue under the key it had when it
was selected, so it stays the head until it is retired.
-/
namespace Scheduler

open IndexedHeaps GuardedRuns

variable {τ : Type} [DecidableEq τ]

/-- What the calls after `s` lead to and return. The call with the number 0 is the one that
selected the current thread of `s`. -/
def calls (envs : ℕ → Env τ) (s : State τ) : ℕ → Option (State τ × Option τ)
  | 0 => some (s, s.sched.currentThread)
  | n + 1 => (calls envs s n).bind fun r => schedResched (envs n) r.1

def turns (s : State τ) (t : τ) : ℕ := max 1 (s.threads t).remaining.toNat

/-- All queued threads can run, their numbers are in range, none has been retired, and the head of
the running queue has just been selected. -/
structure EpochStart (s : State τ) : Prop where
  finished : s.sched.finishedQueue.size = 0
  runnable : ∀ t, s.queued t → (s.threads t).status = .runnable
  remaining : ∀ t, s.queued t → 0 ≤ keyOf s.threads t ∧ keyOf s.threads t < 2 ^ 30
  softPriority : ∀ t, s.queued t → (s.threads t).softPriority.toNat < 2 ^ 30
  current : ∃ t, s.sched.currentThread = some t ∧ heapHead s.sched.runningQueue = some t
  fresh : Fresh s

instance [Fintype τ] (s : State τ) : Decidable (EpochStart s) :=
  decidable_of_iff (s.sched.finishedQueue.size = 0 ∧
      (∀ t, s.queued t → (s.threads t).status = .runnable) ∧
      (∀ t, s.queued t → 0 ≤ keyOf s.threads t ∧ keyOf s.threads t < 2 ^ 30) ∧
      (∀ t, s.queued t → (s.threads t).softPriority.toNat < 2 ^ 30) ∧
      (∃ t, s.sched.currentThread = some t ∧ heapHead s.sched.runningQueue = some t) ∧
      ∀ c, s.sched.currentThread = some c → s.sched.currentRemaining = (s.threads c).remaining)
    ⟨fun ⟨h₁, h₂, h₃, h₄, h₅, h₆⟩ => ⟨h₁, h₂, h₃, h₄, h₅, h₆⟩,
      fun ⟨h₁, h₂, h₃, h₄, h₅, h₆⟩ => ⟨h₁, h₂, h₃, h₄, h₅, h₆⟩⟩

/-- What `retire_current_thread` makes of the time of `t`. -/
def refill (s : State τ) (t : τ) : ℕ :=
  ((s.threads t).remaining.toNat + (s.threads t).softPriority.toNat) / 2

structure Progress (s s' : State τ) (done rest : List τ) : Prop where
  running : ∀ t, s'.sched.runningQueue.holds t ↔ t ∈ rest
  finished : ∀ t, s'.sched.finishedQueue.holds t ↔ t ∈ done
  waiting : ∀ t ∈ rest, (s'.threads t).remaining = (s.threads t).remaining
  retired : ∀ t ∈ done, (s'.threads t).remaining.toNat = refill s t
  epoch : s'.sched.epoch = s.sched.epoch

/-- The beginning of `sched_resched` when there is a current thread that can run. -/
def tickStart (env : Env τ) (s : State τ) : State τ :=
  chargeTick (s.setSched fun sc => { sc with
    affinityCount := sc.affinityCount + env.pageFaults })

/-- Of the calls from `s'` on, the one after the number `n` retires the last thread and starts an
epoch with all threads, which had the times of `s` before. -/
def NextEpoch (envs : ℕ → Env τ) (s s' : State τ) (all : List τ) (n : ℕ) : Prop :=
  ∃ s₁ s₂ last head, calls envs s' n = some (s₁, some last) ∧
    takeHead (doEpoch (envs n).globalEpoch (retireCurrentThread (tickStart (envs n) s₁) last)) =
      some s₂ ∧
    calls envs s' (n + 1) = some (s₂, some head) ∧
    s₂.sched.epoch = updateEpoch (envs n).globalEpoch (s.sched.epoch + 1) ∧
    (∀ t, s₂.sched.runningQueue.holds t ↔ t ∈ all) ∧ s₂.sched.finishedQueue.size = 0 ∧
    ∀ t ∈ all, (s₂.threads t).remaining.toNat = refill s t

/-- The threads of the running queue are served in the given order, one after the other, each for
its turns, and then the next epoch starts. -/
structure FairEpoch (envs : ℕ → Env τ) (s : State τ) (order : List τ) : Prop where
  nodup : order.Nodup
  mem : ∀ t, t ∈ order ↔ s.sched.runningQueue.holds t
  descending : order.Pairwise fun t u => keyOf s.threads u ≤ keyOf s.threads t
  turn : ∀ done t rest, order = done ++ t :: rest → ∀ k < turns s t,
    ∃ s', calls envs s ((done.map (turns s)).sum + k) = some (s', some t) ∧
      Progress s s' done (t :: rest)
  next : NextEpoch envs s s order ((order.map (turns s)).sum - 1)

def stat (th : Thread) : BitVec 32 × BitVec 32 × Status :=
  (th.remaining, th.softPriority, th.status)

section Stat

variable {s s' : State τ} {R F : Set τ} {t c u : τ} {env : Env τ}

theorem heapDelete_stat (threads : τ → Thread) (heap : Heap τ) (num : ℕ) (u : τ) :
    stat ((heapDelete byRemaining threads heap num).1 u) = stat (threads u) := by
  rw [heapDelete]
  split
  · rfl
  · dsimp only
    split <;> rfl

theorem affinityHeapSetKey_stat (threads : τ → Thread) (heap : Heap τ) (index : ℕ)
    (val : BitVec 32) (u : τ) :
    stat ((affinityHeapSetKey threads heap index val).1 u) = stat (threads u) := by
  have hset : ∀ tmp, stat (setThread threads tmp (fun th => { th with affinity := val }) u) =
      stat (threads u) := by
    intro tmp
    by_cases hu : u = tmp
    · subst hu
      rw [setThread_self]
      rfl
    · rw [setThread_ne _ _ hu]
  rw [affinityHeapSetKey]
  split
  · rfl
  · rw [heapMoveKey]
    split
    · split <;> exact hset _
    · exact hset _

/-- Of the fields the scheduler reads, `retire_current_thread` writes the time of one thread. -/
theorem retire_stat (s : State τ) (c u : τ) :
    stat ((retireCurrentThread s c).threads u) = stat (setThread s.threads c (fun th => { th with
      epoch := s.sched.epoch + 1
      remaining := (th.remaining + th.softPriority) / 2 }) u) := by
  have hinsert : ∀ (threads : τ → Thread) (heap : Heap τ),
      stat ((heapInsert byRemaining threads heap c).1 u) = stat (threads u) := fun _ _ => rfl
  exact (hinsert _ _).trans ((heapDelete_stat _ _ _ _).trans (affinityHeapSetKey_stat _ _ _ _ _))

omit [DecidableEq τ] in
theorem tickStart_current (hcur : s.sched.currentThread = some t) :
    tickStart env s = s.setSched fun sc => { sc with
      affinityCount := sc.affinityCount + env.pageFaults
      currentRemaining := sc.currentRemaining - 1 } := by
  rw [tickStart, chargeTick, if_pos]
  · rfl
  · rw [State.setSched, hcur]
    exact Option.some_ne_none t

/-- With no exclusion in force a call returns what `check_current_thread` selects. -/
theorem resched_admitted (hadmitted : env.admitted = true) (hcur : s.sched.currentThread = some t)
    (hrun : (s.threads t).status = .runnable) (hhead : heapHead s.sched.runningQueue ≠ none)
    (hcheck : checkCurrentThread env (tickStart env s) = some s')
    (hcur' : s'.sched.currentThread = some u) (hrun' : (s'.threads u).status = .runnable) :
    schedResched env s = some (s', some u) := by
  have htest : testRunnable env (s.setSched fun sc => { sc with
      affinityCount := sc.affinityCount + env.pageFaults }) = some (s.setSched fun sc => { sc with
        affinityCount := sc.affinityCount + env.pageFaults }) := by
    rw [testRunnable]
    split
    · rename_i d hd
      obtain rfl : t = d := Option.some_inj.mp (hcur.symm.trans hd)
      exact if_pos (congrArg Status.isRunnable hrun)
    · rfl
  have hexcl : doExclusion env s' u = (s', true) := by
    simp [doExclusion, hrun', hadmitted]
  rw [tickStart] at hcheck
  simp only [schedResched, htest, Option.bind_eq_bind, Option.bind_some]
  rw [if_neg fun hempty => hhead hempty.1, hcheck, Option.bind_some, hcur', Option.bind_some, hexcl]
  simp [hcur']

theorem check_runnable (hcur : s.sched.currentThread = some t)
    (hrun : (s.threads t).status = .runnable) :
    checkCurrentThread env s = if s.sched.currentRemaining.sle 0 then
      takeHead (if (retireCurrentThread s t).sched.runningQueue.size = 0 then
        doEpoch env.globalEpoch (retireCurrentThread s t) else retireCurrentThread s t)
    else keepCurrentThread env s t := by
  rw [checkCurrentThread]
  split
  · rename_i d hd
    obtain rfl : t = d := Option.some_inj.mp (hcur.symm.trans hd)
    rw [if_neg]
    rw [hrun]
    decide
  · rename_i hnone
    rw [hcur] at hnone
    cases hnone

theorem keep_head (hhead : heapHead s.sched.runningQueue = some t) :
    keepCurrentThread env s t = some s := by
  rw [keepCurrentThread, hhead, Option.bind_some, if_neg fun hover => hover.2 rfl]

end Stat

def InRange (th : Thread) : Prop :=
  th.remaining.toNat < 2 ^ 30 ∧ th.softPriority.toNat < 2 ^ 30 ∧ th.status = .runnable

structure Phase (s s' : State τ) (R D : Set τ) : Prop where
  members : Members 0 s' R D
  sorted : Sorted s'
  range : ∀ u ∈ R ∪ D, InRange (s.threads u)
  waiting : ∀ u ∈ R, stat (s'.threads u) = stat (s.threads u)
  retired : ∀ u ∈ D, (s'.threads u).remaining.toNat = refill s u
  status : ∀ u ∈ D, (s'.threads u).status = .runnable
  epoch : s'.sched.epoch = s.sched.epoch

structure Turn (s s' : State τ) (R D : Set τ) (t : τ) (left : ℕ) : Prop extends
    Phase s s' R D where
  head : heapHead s'.sched.runningQueue = some t
  current : s'.sched.currentThread = some t
  time : s'.sched.currentRemaining.toNat = left
  bound : left < 2 ^ 30

section Turns

variable {s s' : State τ} {R D : Set τ} {t u : τ} {left : ℕ} {env : Env τ}

section

omit [DecidableEq τ]

theorem Turn.mem (h : Turn s s' R D t left) : t ∈ R := h.members.head_mem h.head

theorem Phase.runnable (h : Phase s s' R D) (hu : u ∈ R ∪ D) :
    (s'.threads u).status = .runnable := by
  obtain hR | hD := hu
  · have hstat := congrArg (fun x => x.2.2) (h.waiting u hR)
    exact hstat.trans (h.range u (Or.inl hR)).2.2
  · exact h.status u hD

theorem Phase.setSched (h : Phase s s' R D) (f : Sched τ → Sched τ)
    (hf : (f s'.sched).runningQueue = s'.sched.runningQueue ∧
      (f s'.sched).finishedQueue = s'.sched.finishedQueue ∧
      (f s'.sched).affinityQueue = s'.sched.affinityQueue ∧
      (f s'.sched).cpuId = s'.sched.cpuId ∧ (f s'.sched).epoch = s'.sched.epoch) :
    Phase s (s'.setSched f) R D := by
  obtain ⟨hR, hF, hA, hid, hepoch⟩ := hf
  refine ⟨h.members.setSched f ⟨hR, hF, hA, hid⟩, h.sorted.setSched f ?_ ?_, h.range, h.waiting,
    h.retired, h.status, hepoch.trans h.epoch⟩
  · rw [hR]
    exact ⟨rfl, rfl⟩
  · rw [hF]
    exact ⟨rfl, rfl⟩

end

theorem sub_one_sle_zero {x : BitVec 32} (hx : x.toNat < 2 ^ 30) :
    (x - 1).sle 0 = true ↔ x.toNat ≤ 1 := by
  rw [BitVec.sle_eq_decide, decide_eq_true_iff]
  have hint : (x - 1).toInt = (x.toInt - (1 : BitVec 32).toInt).bmod (2 ^ 32) := BitVec.toInt_sub
  have hx' : x.toInt = x.toNat := BitVec.toInt_eq_toNat_of_lt (by omega)
  rw [hint, hx', show (1 : BitVec 32).toInt = 1 from rfl, show (0 : BitVec 32).toInt = 0 from rfl]
  rw [Int.bmod_eq_of_le (by omega) (by omega)]
  omega

theorem half_sum {a b : BitVec 32} (ha : a.toNat < 2 ^ 30) (hb : b.toNat < 2 ^ 30) :
    ((a + b) / 2).toNat = (a.toNat + b.toNat) / 2 := by
  rw [BitVec.toNat_udiv, BitVec.toNat_add, Nat.mod_eq_of_lt (by omega)]
  rfl

omit [DecidableEq τ] in
theorem Turn.start (h : Turn s s' R D t left) (env : Env τ) :
    Phase s (tickStart env s') R D ∧
      heapHead (tickStart env s').sched.runningQueue = some t ∧
      (tickStart env s').sched.currentThread = some t ∧
      (tickStart env s').sched.currentRemaining = s'.sched.currentRemaining - 1 := by
  rw [tickStart_current h.current]
  exact ⟨h.toPhase.setSched _ ⟨rfl, rfl, rfl, rfl, rfl⟩, h.head, h.current, rfl⟩

theorem Turn.resched (h : Turn s s' R D t left) {s'' : State τ} (hadmitted : env.admitted = true)
    (hcheck : checkCurrentThread env (tickStart env s') = some s'')
    (hcur : s''.sched.currentThread = some u) (hrun : (s''.threads u).status = .runnable) :
    schedResched env s' = some (s'', some u) := by
  refine resched_admitted hadmitted h.current (h.runnable (Or.inl h.mem)) ?_ hcheck hcur hrun
  rw [h.head]
  exact Option.some_ne_none t

/-- The current thread has time left. It is the head itself, so nothing overwhelms it. -/
theorem Turn.keep (h : Turn s s' R D t left) (hleft : 2 ≤ left) (hadmitted : env.admitted = true) :
    ∃ s'', schedResched env s' = some (s'', some t) ∧ Turn s s'' R D t (left - 1) := by
  obtain ⟨hphase, hhead, hcur, htime⟩ := h.start env
  have hrun := hphase.runnable (Or.inl h.mem)
  have hcheck : checkCurrentThread env (tickStart env s') = some (tickStart env s') := by
    rw [check_runnable hcur hrun, if_neg]
    · exact keep_head hhead
    · intro hless
      rw [htime, sub_one_sle_zero (h.time ▸ h.bound), h.time] at hless
      omega
  refine ⟨_, h.resched hadmitted hcheck hcur hrun, hphase, hhead, hcur, ?_, ?_⟩
  · rw [htime, ← h.time]
    exact BitVec.toNat_sub_of_le (Nat.one_le_of_lt (hleft.trans_eq h.time.symm))
  · have hbound := h.bound
    omega

theorem Turn.retire (env : Env τ) (h : Turn s s' R D t left) (hleft : left ≤ 1) :
    checkCurrentThread env (tickStart env s') =
        takeHead (if (retireCurrentThread (tickStart env s') t).sched.runningQueue.size = 0 then
          doEpoch env.globalEpoch (retireCurrentThread (tickStart env s') t)
        else retireCurrentThread (tickStart env s') t) ∧
      Phase s (retireCurrentThread (tickStart env s') t) (R \ {t}) (insert t D) := by
  obtain ⟨hphase, -, hcur, htime⟩ := h.start env
  constructor
  · rw [check_runnable hcur (hphase.runnable (Or.inl h.mem)), if_pos]
    rw [htime, sub_one_sle_zero (h.time ▸ h.bound), h.time]
    exact hleft
  · have hother : ∀ u, u ≠ t → stat ((retireCurrentThread (tickStart env s') t).threads u) =
        stat ((tickStart env s').threads u) := by
      intro u hu
      rw [retire_stat, setThread_ne _ _ hu]
    have hself := retire_stat (tickStart env s') t t
    rw [setThread_self] at hself
    have hstat := hphase.waiting t h.mem
    obtain ⟨hrem, hsoft, -⟩ := h.range t (Or.inl h.mem)
    have hD : ∀ u ∈ D, u ≠ t := fun u hu heq =>
      h.members.notMem_finished h.mem (heq ▸ hu)
    have hunion : R \ {t} ∪ insert t D ⊆ R ∪ D := by
      rintro u (⟨hu, -⟩ | rfl | hu)
      · exact Or.inl hu
      · exact Or.inl h.mem
      · exact Or.inr hu
    refine ⟨hphase.members.retire h.mem, hphase.sorted.retire hphase.members h.mem,
      fun u hu => h.range u (hunion hu), ?_, ?_, ?_, ?_⟩
    · rintro u ⟨hu, hne⟩
      rw [hother u hne]
      exact hphase.waiting u hu
    · rintro u (rfl | hu)
      · have hrefill := congrArg (fun x => x.1.toNat) hself
        have hrem' := congrArg (fun x => x.1) hstat
        have hsoft' := congrArg (fun x => x.2.1) hstat
        simp only [stat] at hrefill hrem' hsoft'
        rw [hrefill, hrem', hsoft', half_sum hrem hsoft]
        rfl
      · have hkeep := congrArg (fun x => x.1.toNat) (hother u (hD u hu))
        exact hkeep.trans (hphase.retired u hu)
    · rintro u (rfl | hu)
      · have hstatus := congrArg (fun x => x.2.2) hself
        exact hstatus.trans (hphase.runnable (Or.inl h.mem))
      · have hkeep := congrArg (fun x => x.2.2) (hother u (hD u hu))
        exact hkeep.trans (hphase.status u hu)
    · exact hphase.epoch

omit [DecidableEq τ] in
theorem Phase.size_eq_zero_iff (h : Phase s s' R D) : s'.sched.runningQueue.size = 0 ↔ R = ∅ :=
  Held.size_eq_zero_iff h.members.parts.running

theorem Turn.next (h : Turn s s' R D t left) (hleft : left ≤ 1) (hrest : (R \ {t}).Nonempty)
    (hadmitted : env.admitted = true) :
    ∃ s'' u, schedResched env s' = some (s'', some u) ∧
      Turn s s'' (R \ {t}) (insert t D) u (s.threads u).remaining.toNat := by
  obtain ⟨hcheck, hphase⟩ := h.retire env hleft
  have hsize := mt hphase.size_eq_zero_iff.mp hrest.ne_empty
  rw [if_neg hsize, takeHead, heapHead, if_pos hsize, Option.map_some] at hcheck
  have hu := Indexed.slot_mem hphase.members.parts.running le_rfl
    (Nat.one_le_iff_ne_zero.mpr hsize)
  have hturn := hphase.setSched (fun sc => { sc with
    currentThread := some
      ((retireCurrentThread (tickStart env s') t).sched.runningQueue.dataName 1)
    currentRemaining := ((retireCurrentThread (tickStart env s') t).threads
      ((retireCurrentThread (tickStart env s') t).sched.runningQueue.dataName 1)).remaining })
    ⟨rfl, rfl, rfl, rfl, rfl⟩
  refine ⟨_, _, h.resched hadmitted hcheck rfl (hturn.runnable (Or.inl hu)), hturn, ?_, rfl, ?_, ?_⟩
  · exact if_pos hsize
  · exact congrArg (fun x => x.1.toNat) (hphase.waiting _ hu)
  · exact (hphase.range _ (Or.inl hu)).1

/-- No thread is left, and an epoch starts with those that have been retired. -/
theorem Turn.last (h : Turn s s' R D t left) (hleft : left ≤ 1) (hrest : R \ {t} = ∅)
    (hadmitted : env.admitted = true) :
    ∃ s'' u, takeHead (doEpoch env.globalEpoch (retireCurrentThread (tickStart env s') t)) =
        some s'' ∧ schedResched env s' = some (s'', some u) ∧
      s''.sched.epoch = updateEpoch env.globalEpoch (s.sched.epoch + 1) ∧
      (∀ v, s''.sched.runningQueue.holds v ↔ v ∈ insert t D) ∧
      s''.sched.finishedQueue.size = 0 ∧
      ∀ v ∈ insert t D, (s''.threads v).remaining.toNat = refill s v := by
  obtain ⟨hcheck, hphase⟩ := h.retire env hleft
  have hsize := hphase.size_eq_zero_iff.mpr hrest
  rw [if_pos hsize] at hcheck
  have hepoch := hphase.members.doEpoch env.globalEpoch
  have hmem : t ∈ insert t D := Set.mem_insert t D
  have hpos := Indexed.slot_pos hepoch.parts.running hmem
  have hne : (doEpoch env.globalEpoch
      (retireCurrentThread (tickStart env s') t)).sched.runningQueue.size ≠ 0 := by omega
  have hu := Indexed.slot_mem hepoch.parts.running le_rfl (Nat.one_le_iff_ne_zero.mpr hne)
  rw [takeHead, heapHead, if_pos hne, Option.map_some] at hcheck
  refine ⟨_, _, ?_, h.resched hadmitted hcheck rfl (hphase.runnable (Or.inr hu)), ?_, ?_, hsize, ?_⟩
  · rw [takeHead, heapHead, if_pos hne, Option.map_some]
  · show updateEpoch env.globalEpoch (_ + 1) = _
    rw [hphase.epoch]
  · exact fun v => holds_iff hepoch.parts.running
  · exact hphase.retired

theorem calls_add {envs : ℕ → Env τ} {n : ℕ} (h : calls envs s n = some (s', s'.sched.currentThread))
    (m : ℕ) : calls envs s (n + m) = calls (fun i => envs (n + i)) s' m := by
  induction m with
  | zero => exact h
  | succ m ih =>
    rw [← Nat.add_assoc, calls, calls, ih]

theorem Turn.serve (h : Turn s s' R D t left) {envs : ℕ → Env τ}
    (hadmitted : ∀ n, (envs n).admitted = true) {k : ℕ} (hk : k < max 1 left) :
    ∃ s'', calls envs s' k = some (s'', some t) ∧ Turn s s'' R D t (left - k) := by
  induction k with
  | zero => exact ⟨s', by rw [calls, h.current], h⟩
  | succ k ih =>
    obtain ⟨s₁, hcall, hturn⟩ := ih (by omega)
    obtain ⟨s₂, htick, hnext⟩ := hturn.keep (by omega) (hadmitted k)
    exact ⟨s₂, by rw [calls, hcall, Option.bind_some, htick], hnext⟩

omit [DecidableEq τ] in
theorem Phase.progress (h : Phase s s' R D) {done rest : List τ} (hR : ∀ u, u ∈ R ↔ u ∈ rest)
    (hD : ∀ u, u ∈ D ↔ u ∈ done) : Progress s s' done rest where
  running u := (holds_iff h.members.parts.running).trans (hR u)
  finished u := (holds_iff h.members.parts.finished).trans (hD u)
  waiting u hu := congrArg (fun x => x.1) (h.waiting u ((hR u).mpr hu))
  retired u hu := h.retired u ((hD u).mpr hu)
  epoch := h.epoch

omit [DecidableEq τ] in
theorem Turn.key_le (h : Turn s s' R D t left) (hu : u ∈ R) :
    keyOf s.threads u ≤ keyOf s.threads t := by
  have hkey : ∀ v ∈ R, keyOf s'.threads v = keyOf s.threads v :=
    fun v hv => congrArg (fun x => x.1.toInt) (h.waiting v hv)
  obtain ⟨h1, hn, hslot⟩ := Indexed.slot_pos h.members.parts.running hu
  have hle := Ordered.le_first (maxHeap_iff.mp h.sorted.running) h1 hn
  have hfirst : s'.sched.runningQueue.dataName 1 = t := by
    have hhead := h.head
    rw [heapHead, if_pos (by omega)] at hhead
    exact Option.some_inj.mp hhead
  rw [hslot] at hle
  simp only [layout, hfirst] at hle
  rwa [hkey u hu, hkey t h.mem] at hle

/-- From `s'` on the threads of `R` are served in the given order, those of `past` having been
retired before. -/
structure Served (envs : ℕ → Env τ) (s s' : State τ) (past : List τ) (R : Set τ)
    (order : List τ) : Prop where
  nodup : order.Nodup
  mem : ∀ t, t ∈ order ↔ t ∈ R
  descending : order.Pairwise fun t u => keyOf s.threads u ≤ keyOf s.threads t
  turn : ∀ done t rest, order = done ++ t :: rest → ∀ k < turns s t,
    ∃ s'', calls envs s' ((done.map (turns s)).sum + k) = some (s'', some t) ∧
      Progress s s'' (past ++ done) (t :: rest)
  next : NextEpoch envs s s' (past ++ order) ((order.map (turns s)).sum - 1)

variable {envs : ℕ → Env τ} {past order : List τ}

theorem Turn.served_last (h : Turn s s' R D t (s.threads t).remaining.toNat)
    (hrest : R \ {t} = ∅) (hpast : ∀ u, u ∈ D ↔ u ∈ past)
    (hadmitted : ∀ n, (envs n).admitted = true) : Served envs s s' past R [t] := by
  have hmem : ∀ u, u ∈ [t] ↔ u ∈ R := by
    intro u
    rw [List.mem_singleton]
    refine ⟨fun hu => hu ▸ h.mem, fun hu => ?_⟩
    by_contra hne
    exact Set.eq_empty_iff_forall_notMem.mp hrest u ⟨hu, hne⟩
  refine ⟨List.nodup_singleton t, hmem, List.pairwise_singleton _ _, ?_, ?_⟩
  · intro done u rest horder k hk
    obtain ⟨rfl, rfl, rfl⟩ : done = [] ∧ t = u ∧ rest = [] := by
      cases done with
      | nil => simpa using horder
      | cons d done => simp at horder
    obtain ⟨s'', hcall, hturn⟩ := h.serve hadmitted hk
    refine ⟨s'', by simpa using hcall, hturn.toPhase.progress (fun v => (hmem v).symm) ?_⟩
    simpa using hpast
  · have hlast : turns s t - 1 < turns s t := by
      rw [turns]
      omega
    obtain ⟨s₁, hcall, hturn⟩ := h.serve hadmitted hlast
    obtain ⟨s₂, u, hepoch, htick, hnew⟩ := hturn.last (by rw [turns]; omega) hrest
      (hadmitted (turns s t - 1))
    have hall : ∀ v, v ∈ insert t D ↔ v ∈ past ++ [t] := by
      intro v
      simp [hpast, or_comm]
    simp only [List.map_cons, List.map_nil, List.sum_cons, List.sum_nil, Nat.add_zero]
    refine ⟨s₁, s₂, t, u, hcall, hepoch, ?_, hnew.1, fun v => (hnew.2.1 v).trans (hall v),
      hnew.2.2.1, fun v hv => hnew.2.2.2 v ((hall v).mpr hv)⟩
    rw [calls, hcall, Option.bind_some, htick]

/-- The turn of `t` comes before those of the threads that wait. -/
theorem Turn.served_cons (h : Turn s s' R D t (s.threads t).remaining.toNat)
    (hpast : ∀ u, u ∈ D ↔ u ∈ past) (hadmitted : ∀ n, (envs n).admitted = true)
    (hrest : (R \ {t}).Nonempty) {s₂ : State τ}
    (hcall : calls envs s' (turns s t) = some (s₂, s₂.sched.currentThread))
    (hserved : Served (fun i => envs (turns s t + i)) s s₂ (past ++ [t]) (R \ {t}) order) :
    Served envs s s' past R (t :: order) := by
  have hmem : ∀ u, u ∈ t :: order ↔ u ∈ R := by
    intro u
    rw [List.mem_cons, hserved.mem]
    by_cases hu : u = t
    · simp [hu, h.mem]
    · simp [hu]
  refine ⟨?_, hmem, ?_, ?_, ?_⟩
  · rw [List.nodup_cons, hserved.mem]
    exact ⟨fun ht => ht.2 rfl, hserved.nodup⟩
  · rw [List.pairwise_cons]
    exact ⟨fun u hu => h.key_le ((hserved.mem u).mp hu).1, hserved.descending⟩
  · intro done u rest horder k hk
    cases done with
    | nil =>
      obtain ⟨rfl, rfl⟩ : t = u ∧ order = rest := by simpa using horder
      obtain ⟨s'', hcall', hturn⟩ := h.serve hadmitted hk
      refine ⟨s'', by simpa using hcall', hturn.toPhase.progress (fun v => (hmem v).symm) ?_⟩
      simpa using hpast
    | cons d done =>
      obtain ⟨rfl, hsplit⟩ : t = d ∧ order = done ++ u :: rest := by simpa using horder
      obtain ⟨s'', hcall', hprogress⟩ := hserved.turn done u rest hsplit k hk
      refine ⟨s'', ?_, by simpa using hprogress⟩
      rw [← calls_add hcall] at hcall'
      rw [List.map_cons, List.sum_cons, Nat.add_assoc]
      exact hcall'
  · obtain ⟨s₁, s₃, last, head, hlast, hepoch, hfirst, hnew⟩ := hserved.next
    have hpos : 1 ≤ (order.map (turns s)).sum := by
      obtain ⟨u, hu⟩ := hrest
      have hturn : turns s u ∈ order.map (turns s) := List.mem_map_of_mem ((hserved.mem u).mpr hu)
      exact List.sum_pos_iff_exists_pos_nat.mpr ⟨turns s u, hturn, le_max_left 1 _⟩
    have hindex : ((t :: order).map (turns s)).sum - 1 =
        turns s t + ((order.map (turns s)).sum - 1) := by
      rw [List.map_cons, List.sum_cons]
      omega
    rw [hindex]
    refine ⟨s₁, s₃, last, head, ?_, hepoch, ?_, hnew.1, ?_, hnew.2.2.1, ?_⟩
    · rw [calls_add hcall]
      exact hlast
    · rw [Nat.add_assoc, calls_add hcall]
      exact hfirst
    · simpa using hnew.2.1
    · simpa using hnew.2.2.2

theorem Turn.wholeEpoch (address : τ ↪ ThreadBlock) {n : ℕ}
    (h : Turn s s' R D t (s.threads t).remaining.toNat) (hn : R.ncard = n + 1)
    (hpast : ∀ u, u ∈ D ↔ u ∈ past) (hadmitted : ∀ n, (envs n).admitted = true) :
    ∃ order, Served envs s s' past R order := by
  induction n generalizing s' R D t envs past with
  | zero =>
    have hcard := ncard_remove address R h.mem
    have hrest : R \ {t} = ∅ :=
      (Set.ncard_eq_zero (ncard_le_blocks address _).1).mp (by omega)
    exact ⟨[t], h.served_last hrest hpast hadmitted⟩
  | succ n ih =>
    have hcard := ncard_remove address R h.mem
    have hrest : (R \ {t}).Nonempty := Set.nonempty_of_ncard_ne_zero (by omega)
    have hlast : turns s t - 1 < turns s t := by
      rw [turns]
      omega
    obtain ⟨s₁, hcall, hturn⟩ := h.serve hadmitted hlast
    obtain ⟨s₂, u, htick, hnext⟩ := hturn.next (by rw [turns]; omega) hrest
      (hadmitted (turns s t - 1))
    have hpast' : ∀ v, v ∈ insert t D ↔ v ∈ past ++ [t] := by
      intro v
      simp [hpast, or_comm]
    obtain ⟨order, hserved⟩ := ih hnext (show (R \ {t}).ncard = n + 1 by omega) hpast'
      (fun i => hadmitted (turns s t + i))
    refine ⟨t :: order, h.served_cons hpast hadmitted hrest ?_ hserved⟩
    rw [hnext.current, show turns s t = turns s t - 1 + 1 by omega, calls, hcall, Option.bind_some,
      htick]

end Turns

/-- From the start of an epoch with the running queue in order, and with no exclusion in force,
every thread is selected once, in the order of the time it has, is returned by as many calls as it
has time, at least one, and is retired; the next epoch starts when all of them have been. -/
theorem epoch_fairness (address : τ ↪ ThreadBlock) {alloc : Allocator} {any : τ}
    {id : BitVec 32} {threads : τ → Thread} {s : State τ}
    (h : Execution step (fun _ _ => True) ⟨threads, schedInit alloc any id⟩ s)
    (hstart : EpochStart s) (hheap : MaxHeap s.threads s.sched.runningQueue) (envs : ℕ → Env τ)
    (hadmitted : ∀ n, (envs n).admitted = true) : ∃ order, FairEpoch envs s order := by
  obtain ⟨R, F, hm, hseat⟩ := reachable_members address h
  obtain ⟨t, hcur, hhead⟩ := hstart.current
  have hF : F = ∅ := by
    rw [Set.eq_empty_iff_forall_notMem]
    intro u hu
    have hpos := Indexed.slot_pos hm.parts.finished hu
    have hempty := hstart.finished
    omega
  subst hF
  have hqueued : ∀ u, u ∈ R ∪ ∅ → s.queued u := fun u hu => hm.queued_iff.mpr hu
  have hrange : ∀ u ∈ R ∪ ∅, InRange (s.threads u) := by
    intro u hu
    obtain ⟨hnonneg, hless⟩ := hstart.remaining u (hqueued u hu)
    refine ⟨?_, hstart.softPriority u (hqueued u hu), hstart.runnable u (hqueued u hu)⟩
    rw [keyOf, BitVec.toInt_eq_toNat_cond] at hnonneg hless
    have hbound := (s.threads u).remaining.isLt
    split at hless <;> omega
  have hmem : t ∈ R := hseat t hcur
  have hturn : Turn s s R ∅ t (s.threads t).remaining.toNat := by
    refine ⟨⟨hm, ⟨hheap, fun j hj hjn => ?_⟩, hrange, fun _ _ => rfl, fun _ hu => hu.elim,
      fun _ hu => hu.elim, rfl⟩, hhead, hcur, ?_, (hrange t (Or.inl hmem)).1⟩
    · have hempty := hstart.finished
      omega
    · rw [hstart.fresh t hcur]
  have hpos := Set.ncard_pos (ncard_le_blocks address R).1 |>.mpr ⟨t, hmem⟩
  have hpast : ∀ u, u ∈ (∅ : Set τ) ↔ u ∈ ([] : List τ) := by simp
  obtain ⟨order, hserved⟩ := hturn.wholeEpoch address (n := R.ncard - 1) (by omega) hpast hadmitted
  refine ⟨order, hserved.nodup, fun u => ?_, hserved.descending, hserved.turn, hserved.next⟩
  rw [hserved.mem, holds_iff hm.parts.running]

/-- A scheduler without threads; two of the threads have the soft priority 2. -/
def threeThreads : State (Fin 3) :=
  ⟨fun t => newThread (if t = 0 then 0 else 2), schedInit exactSizes 0 0⟩

def startAll : List (Event (Fin 3)) :=
  [.meanwhile (.insert 0 exactSizes), .meanwhile (.insert 1 exactSizes),
    .meanwhile (.insert 2 exactSizes)]

theorem epoch_fairness_second : ∃ s : State (Fin 3),
    Execution step (fun _ _ => True) threeThreads s ∧ s.sched.epoch = 1 ∧ EpochStart s ∧
      ∃ order, FairEpoch (fun _ => alone true) s order := by
  have hrun : (follow step (fun _ _ => True) threeThreads
      (startAll ++ List.replicate 4 (.resched (alone true)))).map
      (fun s => decide (s.sched.epoch = 1 ∧ EpochStart s ∧
        MaxHeap s.threads s.sched.runningQueue)) = some true := by decide +kernel
  obtain ⟨s, hs, hd⟩ := Option.map_eq_some_iff.mp hrun
  obtain ⟨hepoch, hstart, hheap⟩ := of_decide_eq_true hd
  have hexec := execution_of_follow hs
  exact ⟨s, hexec, hepoch, hstart,
    epoch_fairness firstBlocks hexec hstart hheap (fun _ => alone true) fun _ => rfl⟩

/-- While two threads are in the finished queue, the first of them loses more priority than it has
time left, and then its priority is set again. It keeps its place at the head with no time at all,
so that it is selected first in the next epoch, before the thread with more time. -/
theorem epoch_out_of_order : ∃ s₀ s : State (Fin 3),
    Execution step (fun _ _ => True) threeThreads s₀ ∧
      schedResched (alone true) s₀ = some (s, some 1) ∧ s₀.sched.epoch = 0 ∧ s.sched.epoch = 1 ∧
      EpochStart s ∧ ∀ order, ¬ FairEpoch (fun _ => alone true) s order := by
  have hrun : (follow step (fun _ _ => True) threeThreads
      (startAll ++ List.replicate 3 (.resched (alone true)) ++
        [.adjustPriority 1 (-2), .adjustPriority 1 0])).map
      (fun s₀ => decide (s₀.sched.epoch = 0 ∧ ∃ r ∈ schedResched (alone true) s₀, r.2 = some 1 ∧
        r.1.sched.epoch = 1 ∧ EpochStart r.1 ∧ r.1.sched.currentThread = some 1 ∧
        r.1.sched.runningQueue.holds 2 ∧ turns r.1 1 = 1 ∧
        keyOf r.1.threads 1 < keyOf r.1.threads 2 ∧
        (schedResched (alone true) r.1).map Prod.snd = some (some 2))) = some true := by
    decide +kernel
  obtain ⟨s₀, hs₀, hd⟩ := Option.map_eq_some_iff.mp hrun
  obtain ⟨hzero, ⟨s, out⟩, hcall, rfl, hone, hstart, hcur, hheld, hturns, hkeys, hsecond⟩ :=
    of_decide_eq_true hd
  dsimp only at hcur hturns hsecond
  refine ⟨s₀, s, execution_of_follow hs₀, hcall, hzero, hone, hstart, fun order h => ?_⟩
  have hmem : (2 : Fin 3) ∈ order := (h.mem 2).mpr hheld
  obtain _ | ⟨t, rest⟩ := order
  · cases hmem
  · -- the first thread is the one that has been selected
    obtain ⟨s', hfirst, -⟩ := h.turn [] t rest rfl 0 (le_max_left 1 _)
    obtain ⟨-, rfl⟩ : s = s' ∧ (1 : Fin 3) = t := by
      simpa [calls, hcur] using hfirst
    obtain _ | ⟨u, rest⟩ := rest
    · simp at hmem
    · obtain ⟨s'', hnext, -⟩ := h.turn [1] u rest rfl 0 (le_max_left 1 _)
      have hcalls : calls (fun _ => alone true) s 1 = schedResched (alone true) s := rfl
      simp only [List.map_cons, List.map_nil, List.sum_cons, List.sum_nil, hturns, Nat.add_zero,
        hcalls] at hnext
      rw [hnext, Option.map_some] at hsecond
      obtain rfl : u = 2 := by simpa using hsecond
      exact absurd ((List.pairwise_cons.mp h.descending).1 2 (by simp)) (not_le.mpr hkeys)

end Scheduler
