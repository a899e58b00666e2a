import Metakernel.SchedulerMembership

/-!
# What a call leaves alone

A call on a scheduler writes to the threads of its queues and to the thread that it is given. No
call writes a status.
-/
namespace Scheduler

open IndexedHeaps

variable {τ : Type} [DecidableEq τ]

structure Within (S : Set τ) (s s' : State τ) : Prop where
  outside : ∀ u, u ∉ S → s'.threads u = s.threads u
  status : ∀ u, (s'.threads u).status = (s.threads u).status
  cpuId : s'.sched.cpuId = s.sched.cpuId

section Frames

variable {s s' s'' : State τ} {R F A S S' : Set τ} {t : τ} {m : ℕ}

section

omit [DecidableEq τ]

theorem Within.refl (S : Set τ) (s : State τ) : Within S s s :=
  ⟨fun _ _ => rfl, fun _ => rfl, rfl⟩

theorem Within.trans (h : Within S s s') (h' : Within S s' s'') : Within S s s'' :=
  ⟨fun u hu => (h'.outside u hu).trans (h.outside u hu),
    fun u => (h'.status u).trans (h.status u), h'.cpuId.trans h.cpuId⟩

theorem Within.mono (h : Within S s s') (hS : S ⊆ S') : Within S' s s' :=
  ⟨fun u hu => h.outside u fun hmem => hu (hS hmem), h.status, h.cpuId⟩

theorem within_setSched (f : Sched τ → Sched τ) (hf : (f s.sched).cpuId = s.sched.cpuId) :
    Within S s (s.setSched f) := ⟨fun _ _ => rfl, fun _ => rfl, hf⟩

end

theorem within_setThread (f : Thread → Thread) (ht : t ∈ S)
    (hf : ∀ th, (f th).status = th.status) : Within S s (s.setThread t f) := by
  refine ⟨fun u hu => ?_, fun u => ?_, rfl⟩
  · have hut : u ≠ t := fun heq => hu (heq ▸ ht)
    simp [State.setThread, hut]
  · by_cases hut : u = t
    · subst hut
      simpa [State.setThread] using hf (s.threads u)
    · simp [State.setThread, hut]

omit [DecidableEq τ] in
theorem within_of_repositioned {k : HeapKind} (hk : ∀ th p, (k.setPos th p).status = th.status)
    {threads : τ → Thread} {sched : Sched τ} (h : Repositioned k S s.threads threads)
    (hid : sched.cpuId = s.sched.cpuId) : Within S s ⟨threads, sched⟩ := by
  refine ⟨fun u hu => (h u).2 hu, fun u => ?_, hid⟩
  obtain ⟨p, hp⟩ := (h u).1
  exact (congrArg Thread.status hp).trans (hk _ _)

theorem Parts.insertRunning_within (h : Parts s R F A) (hR : t ∉ R) : Within (insert t R) s
    (s.onRunning fun threads heap => heapInsert byRemaining threads heap t) :=
  within_of_repositioned (fun _ _ => rfl) (heapInsert_held h.running hR).2 rfl

theorem Parts.insertFinished_within (h : Parts s R F A) (hF : t ∉ F) : Within (insert t F) s
    (s.onFinished fun threads heap => heapInsert byRemaining threads heap t) :=
  within_of_repositioned (fun _ _ => rfl) (heapInsert_held h.finished hF).2 rfl

theorem Parts.insertAffinity_within (h : Parts s R F A) (hA : t ∉ A) : Within (insert t A) s
    (s.onAffinity fun threads heap => heapInsert byAffinity threads heap t) :=
  within_of_repositioned (fun _ _ => rfl) (heapInsert_held h.affinity hA).2 rfl

theorem deleteRunning_repositioned {k : HeapKind} [k.Lawful] {threads : τ → Thread}
    {heap : Heap τ} {num : ℕ} (h : Held k threads heap S) :
    Repositioned k S threads (heapDelete k threads heap num).1 := by
  by_cases hnum : 1 ≤ num ∧ num ≤ heap.size
  · obtain ⟨-, hrep, -⟩ := heapDelete_held h hnum.1 hnum.2
    exact fun t => ⟨(hrep t).1, fun ht => (hrep t).2 fun hmem => ht hmem.1⟩
  · rw [heapDelete, if_pos (by omega)]
    exact .refl _ _ _

theorem Parts.deleteRunning_within (h : Parts s R F A) (num : (τ → Thread) → ℕ) : Within R s
    (s.onRunning fun threads heap => heapDelete byRemaining threads heap (num threads)) :=
  within_of_repositioned (fun _ _ => rfl) (deleteRunning_repositioned h.running) rfl

theorem Parts.deleteFinished_within (h : Parts s R F A) (num : (τ → Thread) → ℕ) : Within F s
    (s.onFinished fun threads heap => heapDelete byRemaining threads heap (num threads)) :=
  within_of_repositioned (fun _ _ => rfl) (deleteRunning_repositioned h.finished) rfl

theorem Parts.deleteAffinity_within (h : Parts s R F A) (num : (τ → Thread) → ℕ) : Within A s
    (s.onAffinity fun threads heap => heapDelete byAffinity threads heap (num threads)) :=
  within_of_repositioned (fun _ _ => rfl) (deleteRunning_repositioned h.affinity) rfl

theorem Parts.setKeyRunning_within (h : Parts s R F A) (index : (τ → Thread) → ℕ)
    (val : BitVec 32) : Within R s
    (s.onRunning fun threads heap => priorityHeapSetKey threads heap (index threads) val) := by
  rw [State.onRunning, priorityHeapSetKey]
  split
  · exact .refl _ _
  · rename_i hin
    have h1 : 1 ≤ index s.threads := by omega
    have hn : index s.threads ≤ s.sched.runningQueue.size := by omega
    have hwrite : Within R s (s.setThread (s.sched.runningQueue.dataName (index s.threads))
        fun th => { th with remaining := val }) :=
      within_setThread _ (Indexed.slot_mem h.running h1 hn) fun _ => rfl
    have hkey : Parts (s.setThread (s.sched.runningQueue.dataName (index s.threads))
        fun th => { th with remaining := val }) R F A := h.setThread _ fun _ => ⟨rfl, rfl⟩
    have hrep := (heapMoveKey_held
      ((s.threads (s.sched.runningQueue.dataName (index s.threads))).remaining.ult val)
      hkey.running h1 hn).2.1
    exact hwrite.trans (within_of_repositioned (fun _ _ => rfl) hrep rfl)

theorem Parts.setKeyFinished_within (h : Parts s R F A) (index : (τ → Thread) → ℕ)
    (val : BitVec 32) : Within F s
    (s.onFinished fun threads heap => priorityHeapSetKey threads heap (index threads) val) := by
  obtain ⟨houtside, hstatus, -⟩ := h.swap.setKeyRunning_within index val
  exact ⟨houtside, hstatus, rfl⟩

theorem Parts.setKeyAffinity_within (h : Parts s R F A) (index : (τ → Thread) → ℕ)
    (val : BitVec 32) : Within A s
    (s.onAffinity fun threads heap => affinityHeapSetKey threads heap (index threads) val) := by
  rw [State.onAffinity, affinityHeapSetKey]
  split
  · exact .refl _ _
  · rename_i hin
    have h1 : 1 ≤ index s.threads := by omega
    have hn : index s.threads ≤ s.sched.affinityQueue.size := by omega
    have hwrite : Within A s (s.setThread (s.sched.affinityQueue.dataName (index s.threads))
        fun th => { th with affinity := val }) :=
      within_setThread _ (Indexed.slot_mem h.affinity h1 hn) fun _ => rfl
    have hkey : Parts (s.setThread (s.sched.affinityQueue.dataName (index s.threads))
        fun th => { th with affinity := val }) R F A := h.setThread _ fun _ => ⟨rfl, rfl⟩
    have hrep := (heapMoveKey_held
      (val.ult (s.threads (s.sched.affinityQueue.dataName (index s.threads))).affinity)
      hkey.affinity h1 hn).2.1
    exact hwrite.trans (within_of_repositioned (fun _ _ => rfl) hrep rfl)

omit [DecidableEq τ] in
theorem Members.of_threads {threads' : τ → Thread} (h : Members m s R F)
    (hsame : ∀ u ∈ R ∪ F, threads' u = s.threads u) : Members m ⟨threads', s.sched⟩ R F := by
  refine ⟨h.parts.congr fun u hu => ?_, fun u hu => ?_, h.room⟩
  · rw [hsame u (by simpa using hu)]
    exact ⟨rfl, rfl⟩
  · show (threads' u).cpuId = s.sched.cpuId
    rw [hsame u hu]
    exact h.cpu u hu

theorem Members.enter_within (alloc : Allocator) (h : Members m s R F) (ht : t ∉ R ∪ F) (n : ℕ)
    (count : BitVec 32) :
    Within (insert t (R ∪ F)) s (enterRunning alloc ((enterAffinity alloc s t n).setSched
      fun sc => { sc with totalCount := count }) t n) := by
  have hmem : t ∈ insert t (R ∪ F) := Set.mem_insert _ _
  have hsub : insert t R ⊆ insert t (R ∪ F) := Set.insert_subset_insert Set.subset_union_left
  have hcpu : Within (insert t (R ∪ F)) s (s.setThread t fun th => { th with
      cpuId := s.sched.cpuId, affinity := 0 }) := within_setThread _ hmem fun _ => rfl
  have hp₀ := (h.parts.setOutside (fun th => { th with cpuId := s.sched.cpuId, affinity := 0 })
    (by simpa using ht)).setSched (fun sc => { sc with
      affinityQueue := heapGrow alloc sc.affinityQueue n }) ⟨rfl, rfl⟩ ⟨rfl, rfl⟩
        (heapGrow_kept _ _ _)
  have hp₁ := ((hp₀.insertAffinity ht).setSched (fun sc => { sc with totalCount := count })
    ⟨rfl, rfl⟩ ⟨rfl, rfl⟩ ⟨rfl, rfl⟩).setSched (fun sc => { sc with
      runningQueue := heapGrow alloc sc.runningQueue n
      finishedQueue := heapGrow alloc sc.finishedQueue n }) (heapGrow_kept _ _ _)
        (heapGrow_kept _ _ _) ⟨rfl, rfl⟩
  have haff : Within (insert t (R ∪ F)) s (enterAffinity alloc s t n) :=
    (hcpu.trans (within_setSched _ rfl)).trans (hp₀.insertAffinity_within ht)
  have hrun := (hp₁.insertRunning_within fun hR => ht (Or.inl hR)).mono hsub
  exact ⟨fun u hu => (hrun.outside u hu).trans (haff.outside u hu),
    fun u => (hrun.status u).trans (haff.status u), hrun.cpuId.trans haff.cpuId⟩

theorem Members.insertThread_within (alloc : Allocator) (h : Members m s R F) (ht : t ∉ R ∪ F) :
    Within (insert t (R ∪ F)) s (schedInsertThread alloc s t) := by
  have hmem : t ∈ insert t (R ∪ F) := Set.mem_insert _ _
  have hstart := (h.setSched (fun sc => { sc with
    totalCount := sc.totalCount + (s.threads t).softPriority }) ⟨rfl, rfl, rfl, rfl⟩).setOutside
      (fun th => { th with remaining := th.softPriority / 2, epoch := s.sched.epoch }) ht
  refine Within.trans (Within.trans (within_setSched _ rfl) (within_setThread _ hmem ?_))
    (hstart.enter_within alloc ht _ _)
  exact fun _ => rfl

theorem Members.restartThread_within (alloc : Allocator) (h : Members m s R F) (ht : t ∉ R ∪ F) :
    Within (insert t (R ∪ F)) s (schedRestartThread alloc s t) := by
  have hmem : t ∈ insert t (R ∪ F) := Set.mem_insert _ _
  have hstart := h.setOutside (fun th => if th.epoch.ult s.sched.epoch then
    { th with remaining := th.remaining + restartIncrease s.sched.epoch th } else th) ht
  refine Within.trans (Within.trans (within_setThread _ hmem ?_) (hstart.enter_within alloc ht _ _))
    (within_setThread _ hmem ?_)
  · intro th
    split <;> rfl
  · exact fun _ => rfl

theorem Members.reassignThread_within (h : Members m s R F) (ht : t ∉ R ∪ F) :
    Within (insert t (R ∪ F)) s (schedReassignThread s t) := by
  have hmem : t ∈ insert t (R ∪ F) := Set.mem_insert _ _
  have hsub : insert t R ⊆ insert t (R ∪ F) := Set.insert_subset_insert Set.subset_union_left
  have hp₀ := h.parts.setOutside (fun th => if th.cpuId ≠ s.sched.cpuId then { th with
    cpuId := s.sched.cpuId, affinity := 0 } else th) (by simpa using ht)
  have hp₁ := hp₀.insertAffinity ht
  refine Within.trans (Within.trans (Within.trans (Within.trans (within_setThread _ hmem ?_)
    (hp₀.insertAffinity_within ht)) (within_setSched _ rfl))
      ((Parts.insertRunning_within (hp₁.setSched _ ?_ ?_ ?_) ?_).mono hsub))
        (within_setThread _ hmem ?_)
  · intro th
    split <;> rfl
  · exact ⟨rfl, rfl⟩
  · exact ⟨rfl, rfl⟩
  · exact ⟨rfl, rfl⟩
  · exact fun hR => ht (Or.inl hR)
  · exact fun _ => rfl

theorem Members.deleteFromQueue_within (h : Members m s R F) (ht : t ∈ R ∪ F) :
    Within (R ∪ F) s (Scheduler.deleteFromQueue s t) := by
  rw [Scheduler.deleteFromQueue]
  by_cases hR : t ∈ R
  · rw [if_pos ((h.inRunning_iff ht).mpr hR)]
    exact ((h.parts.deleteRunning_within _).mono Set.subset_union_left).trans
      ((h.parts.deleteRunning hR _ rfl).deleteAffinity_within fun threads =>
        (threads t).affinityHeapPos)
  · rw [if_neg fun hpos => hR ((h.inRunning_iff ht).mp hpos)]
    exact ((h.parts.deleteFinished_within _).mono Set.subset_union_right).trans
      ((h.parts.deleteFinished (ht.resolve_left hR) _ rfl).deleteAffinity_within fun threads =>
        (threads t).affinityHeapPos)

theorem Members.eschew_within (h : Members m s R F) :
    Within (R ∪ F) s (schedEschewThread s).1 := by
  rw [schedEschewThread]
  obtain hnone | ⟨out, hout, -, hsome⟩ := h.lowestAffinity
  · rw [hnone]
    exact .refl _ _
  · rw [hsome]
    refine Within.trans (Within.trans (h.deleteFromQueue_within hout) (within_setSched _ rfl))
      (within_setThread _ hout ?_)
    exact fun _ => rfl

theorem Members.detach_within (h : Members m s R F) (env : Env τ) {c : τ} (hc : c ∈ R) :
    Within (R ∪ F) s (detachCurrent env s c) := by
  have hmem : c ∈ R ∪ F := Or.inl hc
  have h₀ : Members m (((s.setSched fun sc => { sc with
      totalCount := sc.totalCount - (s.threads c).remaining }).setThread c fun th => { th with
        epoch := s.sched.epoch, remaining := s.sched.currentRemaining }).setSched fun sc => { sc with
          affinityCount := sc.affinityCount + env.removalPageFaults }) R F := by
    refine Members.setSched (Members.setThread (Members.setSched h _ ?_) _ ?_) _ ?_
    · exact ⟨rfl, rfl, rfl, rfl⟩
    · exact fun _ => ⟨rfl, rfl, rfl⟩
    · exact ⟨rfl, rfl, rfl, rfl⟩
  refine Within.trans (Within.trans (Within.trans (Within.trans (within_setSched _ rfl)
    (within_setThread _ hmem ?_)) (within_setSched _ rfl))
      (h₀.parts.deleteAffinity_within fun threads => (threads c).affinityHeapPos)) ?_
  · exact fun _ => rfl
  · exact ((h₀.parts.deleteAffinity hmem).deleteRunning_within fun threads =>
      (threads c).priorityHeapPos).mono Set.subset_union_left

theorem Members.retire_within (h : Members m s R F) {c : τ} (hc : c ∈ R) :
    Within (R ∪ F) s (retireCurrentThread s c) := by
  have hmem : c ∈ R ∪ F := Or.inl hc
  have hthread : Members m (s.setThread c fun th => { th with
      epoch := s.sched.epoch + 1
      remaining := (th.remaining + th.softPriority) / 2 }) R F :=
    h.setThread _ fun _ => ⟨rfl, rfl, rfl⟩
  have hcount := hthread.setSched (fun sc => { sc with
      runningCount := sc.runningCount + ((s.setThread c fun th => { th with
        epoch := s.sched.epoch + 1
        remaining := (th.remaining + th.softPriority) / 2 }).threads c).remaining })
    ⟨rfl, rfl, rfl, rfl⟩
  have hkey := hcount.setKeyAffinity (fun threads => (threads c).affinityHeapPos)
    s.sched.affinityCount
  have hdelete := hkey.parts.deleteRunning hc (fun threads => (threads c).priorityHeapPos) rfl
  have hsub : insert c F ⊆ R ∪ F := Set.insert_subset hmem Set.subset_union_right
  refine Within.trans (Within.trans (Within.trans (Within.trans (within_setThread _ hmem ?_)
    (within_setSched _ rfl)) (hcount.parts.setKeyAffinity_within
      (fun threads => (threads c).affinityHeapPos) _)) ((hkey.parts.deleteRunning_within
        fun threads => (threads c).priorityHeapPos).mono Set.subset_union_left))
          ((hdelete.insertFinished_within (h.notMem_finished hc)).mono hsub)
  exact fun _ => rfl

omit [DecidableEq τ] in
theorem takeHead_within (ht : takeHead s = some s') : Within S s s' := by
  obtain ⟨c, -, rfl⟩ := Option.map_eq_some_iff.mp ht
  exact within_setSched _ rfl

omit [DecidableEq τ] in
theorem nextHead_within {globalEpoch : BitVec 32}
    (ht : takeHead (if s.sched.runningQueue.size = 0 then doEpoch globalEpoch s else s) =
      some s') : Within S s s' := by
  split at ht
  · exact Within.trans (within_setSched _ rfl) (takeHead_within ht)
  · exact takeHead_within ht

theorem Members.keep_within (h : Members m s R F) {env : Env τ} {c : τ}
    (hk : keepCurrentThread env s c = some s') : Within (R ∪ F) s s' := by
  obtain ⟨x, -, hk⟩ := Option.bind_eq_some_iff.mp hk
  split at hk
  · have haff := h.setKeyAffinity (fun threads => (threads c).affinityHeapPos)
      env.preemptionPageFaults
    exact ((h.parts.setKeyAffinity_within (fun threads => (threads c).affinityHeapPos) _).trans
      ((haff.parts.setKeyRunning_within (fun threads => (threads c).priorityHeapPos) _).mono
        Set.subset_union_left)).trans (takeHead_within hk)
  · cases hk
    exact .refl _ _

theorem Members.check_within (h : Members m s R F) (hseat : Seated s R) {env : Env τ}
    (hc : checkCurrentThread env s = some s') : Within (R ∪ F) s s' := by
  rw [checkCurrentThread] at hc
  split at hc
  · rename_i c hcur
    split at hc
    · cases hc
      exact .refl _ _
    · split at hc
      · exact (h.retire_within (hseat c hcur)).trans (nextHead_within hc)
      · exact h.keep_within hc
  · exact nextHead_within hc

theorem Members.afterTest_within (h : Members m s R F) (hseat : Seated s R) {env : Env τ}
    {out : Option τ} (hr : Scheduler.afterTest env s = some (s', out)) : Within (R ∪ F) s s' := by
  rw [Scheduler.afterTest] at hr
  split at hr
  · cases hr
    exact .refl _ _
  · obtain ⟨s₂, h₂, hr⟩ := Option.bind_eq_some_iff.mp hr
    obtain ⟨hmc, hsc⟩ := h.chargeTick hseat
    obtain ⟨R₂, F₂, hm₂, hs₂, hunion⟩ := hmc.check hsc h₂
    have hcharge : Within (R ∪ F) s (Scheduler.chargeTick s) := by
      rw [Scheduler.chargeTick]
      split
      · exact within_setSched _ rfl
      · exact .refl _ _
    obtain ⟨c, hc, hr⟩ := Option.bind_eq_some_iff.mp hr
    have hexcl : Within (R ∪ F) s₂ (Scheduler.doExclusion env s₂ c).1 := by
      rw [Scheduler.doExclusion]
      split
      · split
        · dsimp only
          split
          · exact within_setSched _ rfl
          · exact .refl _ _
        · dsimp only
          exact within_setSched _ rfl
      · exact .refl _ _
    have hall := (hcharge.trans (hmc.check_within hsc h₂)).trans hexcl
    dsimp only at hr
    split at hr
    · cases hr
      exact hall
    · obtain ⟨s₃, h₃, hr⟩ := Option.bind_eq_some_iff.mp hr
      cases hr
      obtain ⟨d, hd, rfl⟩ := Option.map_eq_some_iff.mp h₃
      have hmem : d ∈ R ∪ F := by
        rw [← hunion]
        exact Or.inl ((hm₂.doExclusion hs₂ env c).2 d hd)
      refine Within.trans hall (Within.trans (within_setThread _ hmem ?_) (within_setSched _ rfl))
      exact fun _ => rfl

theorem Members.changeRemaining_within (h : Members m s R F) (remaining : BitVec 32) :
    Within (R ∪ F) s (schedChangeRemaining s t remaining) := by
  rw [schedChangeRemaining]
  split
  · have h₀ := h.setSched (fun sc => { sc with
      totalCount := sc.totalCount + (remaining - (s.threads t).remaining) }) ⟨rfl, rfl, rfl, rfl⟩
    dsimp only
    split
    · exact Within.trans (within_setSched _ rfl) ((h₀.parts.setKeyRunning_within
        (fun _ => (s.threads t).priorityHeapPos) remaining).mono Set.subset_union_left)
    · exact Within.trans (within_setSched _ rfl) ((h₀.parts.setKeyFinished_within
        (fun _ => (s.threads t).priorityHeapPos) remaining).mono Set.subset_union_right)
  · exact within_setSched _ rfl

theorem Members.chargePriority_within (h : Members m s R F) (diff : BitVec 32) :
    Within (insert t (R ∪ F)) s (Scheduler.chargePriority s t diff) := by
  have hmem : t ∈ insert t (R ∪ F) := Set.mem_insert _ _
  have hclamp : Within (insert t (R ∪ F)) s (s.setThread t fun th =>
      if th.remaining.slt 0 then { th with remaining := 0 } else th) := by
    apply within_setThread _ hmem
    intro th
    split <;> rfl
  rw [Scheduler.chargePriority]
  split
  · exact hclamp.trans ((h.clampRemaining.changeRemaining_within _).mono (Set.subset_insert _ _))
  · exact hclamp

end Frames

end Scheduler
