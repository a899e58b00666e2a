import Metakernel.PriorityInheritance

/-!
# Walks along the waiting threads

`thread_adjust_priority` and `detect_deadlock` go from a mutex to its holder and on to the mutex
that the holder waits for. The first one stops at a thread that does not sleep, the second one also
walks around the queue of every mutex that it meets.
-/
namespace Synchronization

open LinkedNodes DataStructures PartialPaths

variable {τ μ κ : Type} [DecidableEq τ] [DecidableEq μ] [DecidableEq κ]

def SleepsOn (s : State τ μ κ) (x : τ) (m : μ) : Prop :=
  SleepsOnMutex s x ∧ (s.threads x).waitObj = .mutex m

instance (s : State τ μ κ) (x : τ) (m : μ) : Decidable (SleepsOn s x m) :=
  inferInstanceAs (Decidable (_ ∧ _))

/-- The threads and the mutexes from `x` on: a thread that sleeps on a mutex, the mutex, its
holder, up to a thread that sleeps on none. -/
inductive WaitChain (s : State τ μ κ) : τ → List τ → List μ → Prop where
  | stop {x} : ¬ SleepsOnMutex s x → WaitChain s x [x] []
  | step {x m y l k} : SleepsOnMutex s x → (s.threads x).waitObj = .mutex m →
      (s.mutexes m).holder = some y → WaitChain s y l k → WaitChain s x (x :: l) (m :: k)

section Adjustment

variable {s s' : State τ μ κ} {x y : τ} {m : μ} {l l' : List τ} {k k' : List μ}
  {priority : BitVec 32}

section

omit [DecidableEq τ] [DecidableEq μ] [DecidableEq κ]

theorem heir_of_sleeps (hx : SleepsOnMutex s x) (hobj : (s.threads x).waitObj = .mutex m) :
    heir s x = (s.mutexes m).holder := by
  unfold SleepsOnMutex at hx
  rw [heir, if_pos hx, hobj]

theorem heir_of_awake (hx : ¬ SleepsOnMutex s x) : heir s x = none := if_neg hx

theorem WaitChain.path (h : WaitChain s x l k) : Path (heir s) x l := by
  induction h with
  | stop hx => exact .stop (heir_of_awake hx)
  | step hx hobj hy _ ih => exact .step ((heir_of_sleeps hx hobj).trans hy) ih

theorem WaitChain.held (h : WaitChain s x l k) : ∀ y ∈ l, SleepsOnMutex s y → heir s y ≠ none := by
  induction h with
  | stop hx =>
    intro y hy hs
    obtain rfl := List.mem_singleton.mp hy
    exact absurd hs hx
  | step hx hobj hy _ ih =>
    intro z hz hs
    rcases List.mem_cons.mp hz with rfl | hz
    · rw [heir_of_sleeps hx hobj, hy]
      simp
    · exact ih z hz hs

theorem WaitChain.mem_mutexes (h : WaitChain s x l k) (n : μ) :
    n ∈ k ↔ ∃ y ∈ l, SleepsOn s y n := by
  induction h with
  | @stop x hx =>
    refine iff_of_false List.not_mem_nil ?_
    rintro ⟨y, hy, hsleeps, -⟩
    obtain rfl := List.mem_singleton.mp hy
    exact hx hsleeps
  | @step x m y l k hx hobj _ _ ih =>
    have hfirst : SleepsOn s x n ↔ n = m := by
      constructor
      · intro hn
        have heq := hn.2.symm.trans hobj
        cases heq
        rfl
      · rintro rfl
        exact ⟨hx, hobj⟩
    rw [List.mem_cons, ih, ← hfirst]
    simp only [List.mem_cons, exists_eq_or_imp]

theorem Reprioritized.sleepsOn (h : Reprioritized s s') (x : τ) (n : μ) :
    SleepsOn s' x n ↔ SleepsOn s x n := by
  obtain ⟨p, hp⟩ := h.thread x
  rw [SleepsOn, SleepsOn, SleepsOnMutex, SleepsOnMutex, hp]

end

theorem bump_priCount (s : State τ μ κ) (x : τ) (n : μ) :
    ((bump s x priority).mutexes n).priCount =
      (s.mutexes n).priCount + if SleepsOn s x n then priority else 0 := by
  by_cases hx : SleepsOnMutex s x
  · have hwait : (s.threads x).waitType = .mutex ∧ (s.threads x).status = .intSleep := hx
    cases hobj : (s.threads x).waitObj with
    | mutex m =>
      by_cases hn : n = m
      · simp [bump, SleepsOn, hx, hwait, hobj, hn]
      · simp [bump, SleepsOn, hwait, hobj, hn, Ne.symm hn]
    | _ => simp [bump, SleepsOn, hobj]
  · have hwait : ¬ ((s.threads x).waitType = .mutex ∧ (s.threads x).status = .intSleep) := hx
    simp [bump, SleepsOn, hwait, hx]

/-- A completed walk counts the change once at every mutex on which a thread of the path sleeps. -/
theorem threadAdjustPriority_priCount {fuel : ℕ}
    (h : threadAdjustPriority fuel s x priority = some s') (hl : Path (heir s) x l) (n : μ) :
    (s'.mutexes n).priCount =
      (s.mutexes n).priCount + if ∃ y ∈ l, SleepsOn s y n then priority else 0 := by
  induction fuel generalizing s x l with
  | zero => cases h
  | succ fuel ih =>
    rw [threadAdjustPriority_succ] at h
    have hsame := bump_reprioritized s x priority
    cases hl with
    | stop hx =>
      rw [hx] at h
      dsimp only at h
      split at h <;> cases h
      simp [bump_priCount]
    | @step _ y l hx hrest =>
      have hpath : Path (heir s) x (x :: l) := .step hx hrest
      rw [hx] at h
      have hrest' : Path (heir (bump s x priority)) y l := hrest.congr fun v _ => hsame.heir v
      rw [ih h hrest', bump_priCount]
      simp only [hsame.sleepsOn, List.mem_cons, exists_eq_or_imp]
      by_cases hn : SleepsOn s x n
      · -- a later thread that sleeps on n would lead to the same holder
        have hlater : ¬ ∃ v ∈ l, SleepsOn s v n := by
          rintro ⟨v, hv, hvn⟩
          refine hpath.not_fork hv ?_
          rw [heir_of_sleeps hvn.1 hvn.2, heir_of_sleeps hn.1 hn.2]
        simp [hn, hlater]
      · simp [hn]

end Adjustment

/-- The change reaches every thread and every mutex of the chain once, and nothing else. -/
theorem adjustment_follows_chain {s : State τ μ κ} {t : τ} {l : List τ} {k : List μ}
    (h : WaitChain s t l k) (priority : BitVec 32) {fuel : ℕ} (hfuel : l.length ≤ fuel) :
    ∃ s', threadAdjustPriority fuel s t priority = some s' ∧
      (∀ u, (s'.threads u).softPriority =
        (s.threads u).softPriority + if u ∈ l then priority else 0) ∧
      ∀ m, (s'.mutexes m).priCount = (s.mutexes m).priCount + if m ∈ k then priority else 0 := by
  obtain ⟨s', hrun⟩ : ∃ s', threadAdjustPriority fuel s t priority = some s' :=
    threadAdjustPriority_returns h.path hfuel h.held
  obtain ⟨l', hpath, hsoft⟩ := threadAdjustPriority_path hrun
  rw [hpath.unique h.path] at hsoft
  refine ⟨s', hrun, hsoft, fun m => ?_⟩
  rw [threadAdjustPriority_priCount hrun h.path]
  simp only [h.mem_mutexes]

/-- Thread `x` sleeps alone on `m`. -/
def asleepOn (x : Fin 3) (m : Fin 2) : Thread (Fin 3) (Fin 2) Unit :=
  { idleThread with
    waitType := .mutex
    waitObj := .mutex m
    queueNext := some x
    queueLast := some x
    status := .intSleep }

/-- Thread 0 sleeps on mutex 0, whose holder 1 sleeps on mutex 1, whose holder 2 does not sleep. -/
def threeInChain : State (Fin 3) (Fin 2) Unit :=
  { start with
    threads := fun t => if t = 0 then asleepOn 0 0 else if t = 1 then asleepOn 1 1 else idleThread
    mutexes := fun m => ⟨true, 0, 0, some (if m = 0 then 0 else 1),
      some (if m = 0 then 1 else 2)⟩ }

theorem threeInChain_chain : WaitChain threeInChain 0 [0, 1, 2] [0, 1] :=
  .step (m := 0) (y := 1) (by decide) rfl rfl
    (.step (m := 1) (y := 2) (by decide) rfl rfl (.stop (by decide)))

theorem adjustment_follows_three : ∃ s', threadAdjustPriority 3 threeInChain 0 7 = some s' ∧
    (∀ u, (s'.threads u).softPriority = 7) ∧ ∀ m, (s'.mutexes m).priCount = 7 := by
  obtain ⟨s', hrun, hsoft, hcount⟩ := adjustment_follows_chain threeInChain_chain 7 (le_refl 3)
  refine ⟨s', hrun, fun u => ?_, fun m => ?_⟩
  · rw [hsoft]
    revert u
    decide
  · rw [hcount]
    revert m
    decide

/-- The walk of `detect_deadlock` around the queue of `m`, with a bound on its steps. -/
def walkQueue (fuel : ℕ) (s : State τ μ κ) (t : τ) (m : μ) : Option Bool :=
  match (s.mutexes m).queue with
  | none => some false
  | some q => queueHolds s.threads t q fuel q

/-- `detect_deadlock`. A null holder and a `wait_obj` that is no mutex lead out of the modelled
objects. -/
def detectDeadlock : ℕ → State τ μ κ → τ → μ → Option Bool
  | 0, _, _, _ => none
  | fuel + 1, s, t, m => do
    let queued ← walkQueue fuel s t m
    if queued then some true
    else
      let h ← (s.mutexes m).holder
      if h = t then some true
      else if (s.threads h).waitType ≠ .mutex then some false
      else match (s.threads h).waitObj with
        | .mutex newMutex => detectDeadlock fuel s t newMutex
        | _ => none

/-- The mutexes met from `m` on: over the holder to the mutex that it waits for, up to the mutex
that `t` holds or whose holder waits for none. -/
inductive HolderChain (s : State τ μ κ) (t : τ) : μ → List μ → Prop where
  | self {m} : (s.mutexes m).holder = some t → HolderChain s t m [m]
  | idle {m h} : (s.mutexes m).holder = some h → h ≠ t → (s.threads h).waitType ≠ .mutex →
      HolderChain s t m [m]
  | step {m h n l} : (s.mutexes m).holder = some h → h ≠ t → (s.threads h).waitType = .mutex →
      (s.threads h).waitObj = .mutex n → HolderChain s t n l → HolderChain s t m (m :: l)

section Detection

variable {s : State τ μ κ} {t q x : τ} {m : μ} {l : List τ} {k : List μ}
  {threads : τ → Thread τ μ κ} {fuel : ℕ}

section

omit [DecidableEq μ] [DecidableEq κ]

/-- A walk from `x` over `l` that comes back to `q`. -/
theorem queueHolds_walk (h : (some x :: (l.map some ++ [some q])).IsChain
      (Linked threadNext threadLast threads)) (hq : q ∉ l) (hfuel : l.length < fuel) :
    queueHolds threads t q fuel x = some (decide (t ∈ x :: l)) := by
  induction l generalizing x fuel with
  | nil =>
    obtain ⟨fuel, rfl⟩ := Nat.exists_eq_succ_of_ne_zero (Nat.ne_of_gt hfuel)
    have hnext : (threads x).queueNext = some q := (List.isChain_cons_cons.mp h).1.1
    rw [queueHolds, hnext]
    by_cases hx : x = t
    · simp [hx]
    · simp [hx, Ne.symm hx]
  | cons y l ih =>
    obtain ⟨fuel, rfl⟩ := Nat.exists_eq_succ_of_ne_zero (show fuel ≠ 0 by omega)
    obtain ⟨hlink, hrest⟩ := List.isChain_cons_cons.mp h
    have hnext : (threads x).queueNext = some y := hlink.1
    have hy : y ≠ q := by
      rintro rfl
      exact hq List.mem_cons_self
    have hwalk := ih hrest (fun hmem => hq (List.mem_cons_of_mem _ hmem))
      (Nat.lt_of_succ_lt_succ hfuel)
    rw [queueHolds, hnext]
    by_cases hx : x = t
    · simp [hx]
    · simp [hx, Ne.symm hx, hy, hwalk]

theorem walkQueue_ring (h : Sleepers s.threads (s.mutexes m).queue l) (hfuel : l.length ≤ fuel) :
    walkQueue fuel s t m = some (decide (t ∈ l)) := by
  rw [walkQueue, h.entry]
  cases l with
  | nil => rfl
  | cons q l => exact queueHolds_walk h.ring.links (List.nodup_cons.mp h.nodup).1 hfuel

/-- What one pass of `detect_deadlock` does at a mutex with the holder `x`. -/
theorem detectDeadlock_pass (h : Sleepers s.threads (s.mutexes m).queue l)
    (hfuel : l.length ≤ fuel) (hx : (s.mutexes m).holder = some x) :
    detectDeadlock (fuel + 1) s t m =
      if t ∈ l ∨ x = t then some true
      else if (s.threads x).waitType ≠ .mutex then some false
      else match (s.threads x).waitObj with
        | .mutex newMutex => detectDeadlock fuel s t newMutex
        | _ => none := by
  rw [detectDeadlock, walkQueue_ring h hfuel, Option.bind_eq_bind, Option.bind_some, hx]
  by_cases ht : t ∈ l
  · simp [ht]
  · by_cases hxt : x = t <;> simp [ht, hxt]

end

end Detection

omit [DecidableEq μ] [DecidableEq κ] in
/-- The answer is right: on a chain that ends, with a ring at every mutex that is met, the search
returns whether `t` holds one of the mutexes or is in one of the queues. -/
theorem deadlock_detection_exact {s : State τ μ κ} {t : τ} {m : μ} {l : List μ}
    (h : HolderChain s t m l) {ring : μ → List τ}
    (hring : ∀ n ∈ l, Sleepers s.threads (s.mutexes n).queue (ring n)) :
    ∃ bound, ∀ fuel, bound ≤ fuel → ∃ b, detectDeadlock fuel s t m = some b ∧
      (b = true ↔ ∃ n ∈ l, (s.mutexes n).holder = some t ∨ t ∈ ring n) := by
  induction h with
  | @self m hself =>
    refine ⟨(ring m).length + 1, fun fuel hfuel => ?_⟩
    obtain ⟨fuel, rfl⟩ := Nat.exists_eq_succ_of_ne_zero (show fuel ≠ 0 by omega)
    have hpass := detectDeadlock_pass (t := t) (hring m (List.mem_singleton_self m))
      (Nat.le_of_succ_le_succ hfuel) hself
    refine ⟨true, ?_, ?_⟩
    · rw [hpass]
      simp
    · simp [hself]
  | @idle m h hholder hne htype =>
    refine ⟨(ring m).length + 1, fun fuel hfuel => ?_⟩
    obtain ⟨fuel, rfl⟩ := Nat.exists_eq_succ_of_ne_zero (show fuel ≠ 0 by omega)
    have hpass := detectDeadlock_pass (t := t) (hring m (List.mem_singleton_self m))
      (Nat.le_of_succ_le_succ hfuel) hholder
    refine ⟨decide (t ∈ ring m), ?_, ?_⟩
    · rw [hpass]
      by_cases ht : t ∈ ring m <;> simp [ht, hne, htype]
    · simp [hholder, hne]
  | @step m h n l hholder hne htype hobj _ ih =>
    obtain ⟨bound, hrest⟩ := ih fun n' hn' => hring n' (List.mem_cons_of_mem _ hn')
    refine ⟨max bound (ring m).length + 1, fun fuel hfuel => ?_⟩
    obtain ⟨fuel, rfl⟩ := Nat.exists_eq_succ_of_ne_zero (show fuel ≠ 0 by omega)
    have hmax := Nat.le_of_succ_le_succ hfuel
    have hpass := detectDeadlock_pass (t := t) (hring m List.mem_cons_self)
      ((le_max_right _ _).trans hmax) hholder
    by_cases ht : t ∈ ring m
    · refine ⟨true, ?_, ?_⟩
      · rw [hpass]
        simp [ht]
      · simp [ht]
    · obtain ⟨b, hb, hiff⟩ := hrest fuel ((le_max_left _ _).trans hmax)
      refine ⟨b, ?_, ?_⟩
      · rw [hpass]
        simp [ht, hne, htype, hobj, hb]
      · rw [hiff]
        simp [ht, hholder, hne]

theorem threeInChain_rings (m : Fin 2) : Sleepers threeInChain.threads
    (threeInChain.mutexes m).queue (if m = 0 then [0] else [1]) := by
  rcases (show m = 0 ∨ m = 1 by omega) with rfl | rfl
  · refine ⟨rfl, by decide, by decide, ?_⟩
    simp [Linked, threadNext, threadLast, threeInChain, asleepOn]
  · refine ⟨rfl, by decide, by decide, ?_⟩
    simp [Linked, threadNext, threadLast, threeInChain, asleepOn]

theorem deadlock_detection_exact_three : ∃ bound, ∀ fuel, bound ≤ fuel →
    detectDeadlock fuel threeInChain 2 0 = some true := by
  have hchain : HolderChain threeInChain 2 0 [0, 1] :=
    .step (m := 0) (h := 1) (n := 1) rfl (by decide) rfl rfl (.self rfl)
  obtain ⟨bound, hfound⟩ := deadlock_detection_exact hchain fun n _ => threeInChain_rings n
  refine ⟨bound, fun fuel hfuel => ?_⟩
  obtain ⟨b, hb, hiff⟩ := hfound fuel hfuel
  rw [hb, hiff.mpr ⟨1, by decide, Or.inl rfl⟩]

end Synchronization
