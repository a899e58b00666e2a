import Metakernel.WaitChains

/-!
# The recorded holder and its priority

A thread that acquires a mutex is to be recorded as its holder and to be raised by `pri_count`, and
to be lowered by it when it releases the mutex. There are five ways to acquire one. On the first of
them `mutex_lock` passes on a variable that it has not assigned. On the last one `mutex_unlock`
clears the `wait_obj` of a sleeper and follows it, and a thread that got the mutex in spite of that
would be raised by `mutex_unlock` and again by itself.
-/
namespace Synchronization

open LinkedNodes DataStructures GuardedRuns PartialPaths PointUpdates

variable {τ μ κ : Type} [DecidableEq τ] [DecidableEq μ] [DecidableEq κ]

inductive Way where
  | immediate | secondTry | spin | trylock
  deriving DecidableEq, Repr

/-- `mutex_lock` after its spin lock; a thread that was handed the mutex comes back to here. -/
def grantedCode (m : μ) : List (Instr τ μ κ) := [.priorityBoost m, .numSpinDec m, .timerRestore]

def wayCode (m : μ) : Way → List (Instr τ μ κ)
  | .immediate => mutexLock m
  | .secondTry => .secondTry m :: grantedCode m
  | .spin => .spinLock m :: grantedCode m
  | .trylock => mutexTrylock m

/-- Carries out the instructions of `t` without interruption. `current` is what the unassigned
variable holds. -/
def runWith (t : τ) (current : Option τ) : ℕ → State τ μ κ → List (Instr τ μ κ) →
    Option (State τ μ κ)
  | _, s, [] => some s
  | 0, _, _ :: _ => none
  | fuel + 1, s, i :: rest =>
    (perform s t current i).bind fun r => runWith t current fuel r.1 (r.2 ++ rest)

/-- A running thread takes a clear lock word, up to the end of the call. -/
def lockCall (s : State τ μ κ) (t : τ) (current : Option τ) (way : Way) (m : μ) :
    Option (State τ μ κ) :=
  if (s.threads t).status = .runnable ∧ (s.mutexes m).word = false then
    runWith t current 5 s (wayCode m way)
  else none

def Recorded (s : State τ μ κ) (t : τ) (m : μ) : Prop :=
  (s.mutexes m).holder = some t ∧ (s.mutexes m).word = true

instance (s : State τ μ κ) (t : τ) (m : μ) : Decidable (Recorded s t m) :=
  inferInstanceAs (Decidable (_ ∧ _))

/-- The end of `mutex_lock` for a thread that was handed the mutex. -/
def grantCall (s : State τ μ κ) (t : τ) (m : μ) : Option (State τ μ κ) :=
  if (s.threads t).status = .runnable ∧ Recorded s t m then runWith t none 4 s (grantedCode m)
  else none

def Way.records (t : τ) (current : Option τ) : Way → Option τ
  | .immediate => current
  | .secondTry | .spin | .trylock => some t

inductive HoldEvent (τ μ : Type) where
  | request (u : τ) (n : μ)
  | lock (u : τ) (current : Option τ) (way : Way) (n : μ)
  | lockSleep (u : τ)
  | unlock (u : τ) (n : μ)
  | grant (u : τ) (n : μ)
  | adjustPriority (x : τ) (priority : BitVec 32)
  deriving DecidableEq, Repr

def holdStep (s : State τ μ κ) : HoldEvent τ μ → Option (State τ μ κ)
  | .request u n =>
    if (s.threads u).status = .runnable then (runCode u 5 s (requestCode n)).map Prod.fst else none
  | .lock u current way n => lockCall s u current way n
  | .lockSleep u =>
    if (s.threads u).status = .runnable ∧ (s.threads u).waitType = .mutex then
      (sleepCall s u).map Prod.fst
    else none
  | .unlock u n =>
    if (s.threads u).status = .runnable then (unlockCall s u false n).map Prod.fst else none
  | .grant u n => grantCall s u n
  | .adjustPriority x priority => threadAdjustPriority walkBound s x priority

/-- A walk that begins at `y` comes to `t` over locked mutexes only; the holder of a mutex that was
given up to a spinning thread stays recorded. -/
def Through (s : State τ μ κ) (t y : τ) : Prop :=
  ∀ l, Path (heir s) y l → ∀ x ∈ l, ∀ n, SleepsOn s x n → (s.mutexes n).holder = some t →
    (s.mutexes n).word = true

/-- What does not disturb the priority of `t` while it holds `m`: `m` is not given up, a mutex is
given up by `t` exactly when it is recorded for `t`, no priority reaches `t` directly or over a
mutex that it has given up, and nobody waits where `t` is raised for the second time. -/
def Undisturbed (t : τ) (m : μ) (s : State τ μ κ) : HoldEvent τ μ → Prop
  | .request _ _ | .lock _ _ _ _ => True
  | .lockSleep u => ∀ n, (s.threads u).waitObj = .mutex n → ∀ h ∈ (s.mutexes n).holder,
      (h = t → (s.mutexes n).word = true) ∧ Through s t h
  | .unlock u n => n ≠ m ∧ (s.mutexes n).word = true ∧ (u = t ↔ (s.mutexes n).holder = some t)
  | .grant u n => u = t → (s.mutexes n).priCount = 0
  | .adjustPriority x _ => x ≠ t ∧ Through s t x

/-- What the sleepers of `n` add to the priority of `t`. -/
def share (s : State τ μ κ) (t : τ) (n : μ) : BitVec 32 :=
  if Recorded s t n then (s.mutexes n).priCount else 0

/-- What the sleepers of the mutexes other than `m` add to the priority of `t`. -/
def othersShare [Fintype μ] (s : State τ μ κ) (t : τ) (m : μ) : BitVec 32 :=
  ∑ n ∈ Finset.univ.erase m, share s t n

def ownPriority [Fintype μ] (s : State τ μ κ) (t : τ) : BitVec 32 :=
  (s.threads t).softPriority - ∑ n, share s t n

structure Boosted (x : Option τ) (n : μ) (s s' : State τ μ κ) : Prop where
  holder : (s'.mutexes n).holder = x
  priCount : (s'.mutexes n).priCount = (s.mutexes n).priCount
  soft : ∀ u, (s'.threads u).softPriority =
    (s.threads u).softPriority + if x = some u then (s.mutexes n).priCount else 0
  other : ∀ k, k ≠ n → s'.mutexes k = s.mutexes k

section Taking

variable {s s' s₁ : State τ μ κ} {t u w : τ} {m n k : μ} {x current : Option τ} {fuel : ℕ}
  {i : Instr τ μ κ} {code rest : List (Instr τ μ κ)} {priority : BitVec 32} {way : Way}

theorem runWith_nil : runWith t current fuel s [] = some s := by
  cases fuel <;> rfl

theorem runWith_cons (h : perform s t current i = some (s₁, code)) :
    runWith t current (fuel + 1) s (i :: rest) = runWith t current fuel s₁ (code ++ rest) := by
  rw [runWith, h, Option.bind_some]

theorem perform_adjust (h : ¬ SleepsOnMutex s w) :
    perform s t current (.adjustPriority w priority) = some
      (s.setThread w fun th => { th with softPriority := th.softPriority + priority }, []) := by
  simp only [perform, threadAdjustPriority_stops h, Option.map_some]

/-- The end of `mutex_lock` records and raises its own thread. -/
theorem runWith_granted (ht : (s.threads t).status = .runnable)
    (h : runWith t current 4 s (grantedCode m) = some s') :
    Boosted (some t) m s s' ∧ (s'.mutexes m).word = (s.mutexes m).word := by
  rw [grantedCode, runWith_cons rfl, List.singleton_append,
    runWith_cons (perform_adjust (not_sleepsOnMutex_of_runnable (by simpa using ht))),
    List.nil_append, runWith_cons rfl, List.nil_append, runWith_cons rfl, List.nil_append,
    runWith_nil] at h
  cases h
  refine ⟨⟨?_, ?_, fun u => ?_, fun k hk => ?_⟩, ?_⟩
  · simp
  · simp
  · by_cases hu : u = t
    · simp [hu]
    · simp [hu, Ne.symm hu]
  · simp [hk]
  · simp

omit [DecidableEq κ] in
theorem Boosted.of_acquire (h : Boosted x m (acquire s t m) s') : Boosted x m s s' := by
  refine ⟨h.holder, ?_, fun u => ?_, fun k hk => ?_⟩
  · rw [h.priCount]
    simp [acquire]
  · rw [h.soft]
    simp [acquire]
  · rw [h.other k hk]
    simp [acquire, hk]

theorem runWith_immediate (hw : (s.mutexes m).word = false)
    (h : runWith t current 5 s (mutexLock m) = some s') :
    Boosted current m s s' ∧ (s'.mutexes m).word = true := by
  have htry : perform s t current (.firstTry m) = some (acquire s t m, [.staleBoost m]) := by
    simp [perform, hw]
  rw [mutexLock, runWith_cons htry, List.append_nil] at h
  cases current with
  | none =>
    rw [runWith_cons rfl, List.append_nil] at h
    cases h
  | some x =>
    rw [runWith_cons rfl, List.append_nil] at h
    have hawake : ¬ SleepsOnMutex (((acquire s t m).setMutex m fun mx =>
        { mx with holder := some x }).setThread x fun th => { th with waitObj := .none }) x := by
      intro hx
      rw [runWith, perform, threadAdjustPriority_null hx (by simp)] at h
      cases h
    rw [runWith_cons (perform_adjust hawake), List.append_nil, runWith_nil] at h
    cases h
    refine ⟨.of_acquire (t := t) ⟨?_, ?_, fun u => ?_, fun k hk => ?_⟩, ?_⟩
    · simp
    · simp
    · by_cases hu : u = x
      · simp [hu]
      · simp [hu, Ne.symm hu]
    · simp [hk]
    · simp [acquire]

theorem runWith_trylock (hw : (s.mutexes m).word = false) (ht : (s.threads t).status = .runnable)
    (h : runWith t current 5 s (mutexTrylock m) = some s') :
    Boosted (some t) m s s' ∧ (s'.mutexes m).word = true := by
  let s₀ : State τ μ κ := { s with timerCount := s.timerCount + 1 }
  have htry : perform s₀ t current (.tryWord m) =
      some (acquire s₀ t m, [.recordHolder m, .timerRestore]) := by
    simp [perform, s₀, hw]
  rw [mutexTrylock, runWith_cons rfl, List.nil_append, runWith_cons htry, List.append_nil,
    runWith_cons rfl, List.singleton_append,
    runWith_cons (perform_adjust (not_sleepsOnMutex_of_runnable
      (by simpa [acquire, s₀] using ht))), List.nil_append, runWith_cons rfl, List.nil_append,
    runWith_nil] at h
  cases h
  refine ⟨⟨?_, ?_, fun u => ?_, fun k hk => ?_⟩, ?_⟩
  · simp
  · simp [acquire, s₀]
  · by_cases hu : u = t
    · simp [hu, acquire, s₀]
    · simp [hu, Ne.symm hu, acquire, s₀]
  · simp [hk, acquire, s₀]
  · simp [acquire]

/-- On every way somebody is recorded and raised; on all but the first one it is the caller. -/
theorem lockCall_boosts (h : lockCall s t current way m = some s') :
    (s.mutexes m).word = false ∧ Boosted (way.records t current) m s s' ∧
      (s'.mutexes m).word = true := by
  rw [lockCall] at h
  split at h
  · rename_i hen
    obtain ⟨ht, hw⟩ := hen
    refine ⟨hw, ?_⟩
    have hword : ((acquire s t m).mutexes m).word = true := by simp [acquire]
    have hrunning : ((acquire s t m).threads t).status = .runnable := ht
    cases way with
    | immediate => exact runWith_immediate hw h
    | secondTry =>
      have htry : perform s t current (.secondTry m) = some (acquire s t m, []) := by
        simp [perform, hw]
      rw [wayCode, runWith_cons htry, List.nil_append] at h
      obtain ⟨hboost, hkeep⟩ := runWith_granted hrunning h
      exact ⟨hboost.of_acquire, hkeep.trans hword⟩
    | spin =>
      have hspin : perform s t current (.spinLock m) = some (acquire s t m, []) := by
        simp [perform, hw]
      rw [wayCode, runWith_cons hspin, List.nil_append] at h
      obtain ⟨hboost, hkeep⟩ := runWith_granted hrunning h
      exact ⟨hboost.of_acquire, hkeep.trans hword⟩
    | trylock => exact runWith_trylock hw ht h
  · cases h

theorem grantCall_boosts (h : grantCall s t m = some s') :
    Recorded s t m ∧ Boosted (some t) m s s' ∧ (s'.mutexes m).word = true := by
  rw [grantCall] at h
  split at h
  · rename_i hen
    obtain ⟨hboost, hkeep⟩ := runWith_granted hen.1 h
    exact ⟨hen.2, hboost, hkeep.trans hen.2.2⟩
  · cases h

end Taking

structure Freed (u : τ) (n : μ) (s s' : State τ μ κ) : Prop where
  word : (s'.mutexes n).word = false
  soft : ∀ x, (s'.threads x).softPriority =
    (s.threads x).softPriority - if u = x then (s.mutexes n).priCount else 0
  other : ∀ k, k ≠ n → s'.mutexes k = s.mutexes k

structure Handed (u w : τ) (n : μ) (s s' : State τ μ κ) : Prop where
  word : (s'.mutexes n).word = (s.mutexes n).word
  holder : (s'.mutexes n).holder = some w
  soft : ∀ x, (s'.threads x).softPriority =
    (s.threads x).softPriority - (if u = x then (s.mutexes n).priCount else 0) +
      if w = x then (s'.mutexes n).priCount else 0
  other : ∀ k, k ≠ n → s'.mutexes k = s.mutexes k

section GivingUp

variable {s s' s₁ : State τ μ κ} {t u w : τ} {m n : μ} {r : List τ}

omit [DecidableEq κ] in
theorem handOff_raises (h : handOff s t m w = some s') :
    (∀ x, (s'.threads x).softPriority =
      (s.threads x).softPriority + if w = x then (s'.mutexes m).priCount else 0) ∧
    ∀ k, k ≠ m → s'.mutexes k = s.mutexes k := by
  have hawake : ¬ SleepsOnMutex (passOn s t m w) w := by
    intro hw
    rw [handOff_eq, threadAdjustPriority_null hw (passOn_thread s t m w).1] at h
    cases h
  rw [handOff_eq, threadAdjustPriority_stops hawake] at h
  cases h
  refine ⟨fun x => ?_, fun k hk => ?_⟩
  · obtain ⟨a, b, hab⟩ := threadQueueRemove_relinked s.threads (s.mutexes m).queue x
    by_cases hx : x = w
    · subst hx
      simp [passOn, hab]
    · simp [passOn, hab, hx, Ne.symm hx]
  · simp [passOn, hk]

theorem unlockCall_gives_up (hu : (s.threads u).status = .runnable)
    (h : unlockCall s u false n = some (s', r)) :
    Freed u n s s' ∨ (s.mutexes n).numSpin = 0 ∧
      ∃ w, (s.mutexes n).queue = some w ∧ Handed u w n s s' := by
  obtain ⟨s₁, hadj, hend⟩ := unlockCall_ends hu h
  rw [threadAdjustPriority_stops (s := { s with timerCount := s.timerCount + 1 })
    (not_sleepsOnMutex_of_runnable hu)] at hadj
  cases hadj
  have hlower : ∀ x, ((s.setThread u fun th =>
      { th with softPriority := th.softPriority + -(s.mutexes n).priCount }).threads
        x).softPriority =
      (s.threads x).softPriority - if u = x then (s.mutexes n).priCount else 0 := by
    intro x
    by_cases hx : x = u
    · simp [hx, sub_eq_add_neg]
    · simp [hx, Ne.symm hx]
  obtain rfl | rfl | ⟨hn, w, s₂, hq, h₂, rfl⟩ := hend
  · refine Or.inl ⟨?_, hlower, fun k hk => ?_⟩
    · simp [release]
    · simp [release, hk]
  · refine Or.inl ⟨?_, hlower, fun k hk => ?_⟩
    · simp [release]
    · simp [release, hk]
  · refine Or.inr ⟨hn, w, hq, ?_⟩
    obtain ⟨hsoft, hother⟩ := handOff_raises h₂
    obtain ⟨p, hp⟩ := (handOff_handedOff h₂).mutex n
    refine ⟨?_, ?_, fun x => ?_, hother⟩
    · simp [hp]
    · simp [hp]
    · rw [← hlower x]
      by_cases hx : x = w
      · subst hx
        simpa using hsoft x
      · simpa [hx] using hsoft x

end GivingUp

section Shares

variable [Fintype μ] {s s' : State τ μ κ} {t u w x y : τ} {m n k : μ} {l : List τ} {r : List τ}
  {priority : BitVec 32} {current : Option τ} {way : Way} {e : HoldEvent τ μ}

omit [DecidableEq τ] [DecidableEq μ] [DecidableEq κ] [Fintype μ] in
theorem recorded_congr (h : s'.mutexes n = s.mutexes n) : Recorded s' t n ↔ Recorded s t n := by
  rw [Recorded, Recorded, h]

omit [DecidableEq μ] [DecidableEq κ] [Fintype μ] in
theorem share_congr (h : s'.mutexes n = s.mutexes n) : share s' t n = share s t n := by
  simp only [share, recorded_congr h, h]

omit [DecidableEq κ] in
/-- The own priority is kept when the priority changes as the share of one mutex does. -/
theorem ownPriority_change (hother : ∀ k, k ≠ n → share s' t k = share s t k)
    (hsoft : (s'.threads t).softPriority + share s t n =
      (s.threads t).softPriority + share s' t n) : ownPriority s' t = ownPriority s t := by
  have hsum := sum_change hother
  rw [ownPriority, ownPriority]
  linear_combination hsoft - hsum

omit [DecidableEq μ] [DecidableEq κ] in
theorem ownPriority_congr (hshare : ∀ k : μ, share s' t k = share s t k)
    (hsoft : (s'.threads t).softPriority = (s.threads t).softPriority) :
    ownPriority s' t = ownPriority s t := by
  rw [ownPriority, ownPriority, hsoft, Finset.sum_congr rfl fun k _ => hshare k]

omit [DecidableEq κ] in
theorem softPriority_eq (s : State τ μ κ) (t : τ) (m : μ) :
    (s.threads t).softPriority = ownPriority s t + (share s t m + othersShare s t m) := by
  rw [ownPriority, othersShare, Finset.add_sum_erase _ _ (Finset.mem_univ m)]
  abel

omit [DecidableEq τ] [DecidableEq μ] [DecidableEq κ] [Fintype μ] in
theorem exists_of_heir {h : τ} (hx : heir s x = some h) :
    ∃ n, SleepsOn s x n ∧ (s.mutexes n).holder = some h := by
  by_cases hsleep : SleepsOnMutex s x
  · cases hobj : (s.threads x).waitObj with
    | mutex n => exact ⟨n, ⟨hsleep, hobj⟩, (heir_of_sleeps hsleep hobj).symm.trans hx⟩
    | _ =>
      unfold SleepsOnMutex at hsleep
      rw [heir, if_pos hsleep, hobj] at hx
      cases hx
  · rw [heir_of_awake hsleep] at hx
    cases hx

omit [DecidableEq τ] [DecidableEq μ] [DecidableEq κ] [Fintype μ] in
theorem heir_of_sleepsOn (h : SleepsOn s x n) : heir s x = (s.mutexes n).holder :=
  heir_of_sleeps h.1 h.2

omit [Fintype μ] in
/-- A completed walk changes the share of a mutex on which a thread of the path sleeps. -/
theorem threadAdjustPriority_share {fuel : ℕ}
    (h : threadAdjustPriority fuel s y priority = some s') (hl : Path (heir s) y l) (n : μ) :
    share s' t n = share s t n +
      if Recorded s t n ∧ ∃ x ∈ l, SleepsOn s x n then priority else 0 := by
  have hrecorded : Recorded s' t n ↔ Recorded s t n := by
    obtain ⟨p, hp⟩ := (threadAdjustPriority_reprioritized h).mutex n
    rw [Recorded, Recorded, hp]
  rw [share, share, threadAdjustPriority_priCount h hl n]
  by_cases hn : Recorded s t n
  · simp [hrecorded, hn]
  · simp [hrecorded, hn]

omit [Fintype μ] in
/-- A walk that begins at `t` raises `t` and none of the shares of `t`. -/
theorem threadAdjustPriority_start {fuel : ℕ}
    (h : threadAdjustPriority fuel s t priority = some s') :
    (s'.threads t).softPriority = (s.threads t).softPriority + priority ∧
      ∀ n, share s' t n = share s t n := by
  obtain ⟨l, hl, hsoft⟩ := threadAdjustPriority_path h
  refine ⟨?_, fun n => ?_⟩
  · rw [hsoft, if_pos hl.mem]
  · rw [threadAdjustPriority_share h hl, if_neg, add_zero]
    rintro ⟨hn, x, hx, hsleeps⟩
    exact hl.not_back hx ((heir_of_sleepsOn hsleeps).trans hn.1)

/-- A walk that comes to `t` has raised the share of the mutex that it came over. -/
theorem threadAdjustPriority_ownPriority {fuel : ℕ} (hne : y ≠ t) (hthrough : Through s t y)
    (h : threadAdjustPriority fuel s y priority = some s') :
    ownPriority s' t = ownPriority s t := by
  obtain ⟨l, hl, hsoft⟩ := threadAdjustPriority_path h
  have hheir : ∀ x n, SleepsOn s x n → Recorded s t n → heir s x = some t := by
    intro x n hsleeps hn
    exact (heir_of_sleepsOn hsleeps).trans hn.1
  by_cases ht : t ∈ l
  · obtain ⟨x, hx, hxt⟩ := hl.pred ht (Ne.symm hne)
    obtain ⟨n, hsleeps, hholder⟩ := exists_of_heir hxt
    have hn : Recorded s t n := ⟨hholder, hthrough l hl x hx n hsleeps hholder⟩
    apply ownPriority_change (n := n)
    · intro k hk
      rw [threadAdjustPriority_share h hl, if_neg, add_zero]
      rintro ⟨hrec, v, hv, hvk⟩
      -- the threads that lead to `t` are one thread, which sleeps on one mutex
      obtain rfl := hl.pred_unique hx hv hxt (hheir v k hvk hrec)
      have hobj := hvk.2.symm.trans hsleeps.2
      cases hobj
      exact hk rfl
    · rw [hsoft, if_pos ht, threadAdjustPriority_share h hl, if_pos ⟨hn, x, hx, hsleeps⟩]
      abel
  · apply ownPriority_congr
    · intro k
      rw [threadAdjustPriority_share h hl, if_neg, add_zero]
      rintro ⟨hrec, x, hx, hsleeps⟩
      exact ht (hl.next_mem hx (hheir x k hsleeps hrec))
    · rw [hsoft, if_neg ht, add_zero]

omit [DecidableEq μ] [DecidableEq κ] [Fintype μ] in
theorem share_of_recorded (h : Recorded s t n) : share s t n = (s.mutexes n).priCount := if_pos h

omit [DecidableEq μ] [DecidableEq κ] [Fintype μ] in
theorem share_of_not_recorded (h : ¬ Recorded s t n) : share s t n = 0 := if_neg h

omit [DecidableEq τ] [DecidableEq μ] [DecidableEq κ] [Fintype μ] in
theorem not_recorded_of_clear (h : (s.mutexes n).word = false) : ¬ Recorded s t n := by
  rintro ⟨-, hw⟩
  rw [h] at hw
  cases hw

omit [DecidableEq μ] [DecidableEq κ] [Fintype μ] in
theorem Boosted.share {x : Option τ} (h : Boosted x n s s') (hw : (s'.mutexes n).word = true) :
    share s' t n = if x = some t then (s.mutexes n).priCount else 0 := by
  simp [Synchronization.share, Recorded, h.holder, h.priCount, hw]

/-- Taking a clear mutex raises whoever is recorded by the share that comes with it. -/
theorem lock_ownPriority (h : lockCall s u current way n = some s') :
    ownPriority s' t = ownPriority s t := by
  obtain ⟨hclear, hboost, hw⟩ := lockCall_boosts h
  apply ownPriority_change (n := n)
  · intro k hk
    exact share_congr (hboost.other k hk)
  · rw [hboost.soft, hboost.share hw, share_of_not_recorded (not_recorded_of_clear hclear),
      add_zero]

omit [Fintype μ] in
theorem grant_softPriority (h : grantCall s t n = some s') :
    (s'.threads t).softPriority = (s.threads t).softPriority + (s.mutexes n).priCount ∧
      (∀ k, share s' t k = share s t k) ∧ Recorded s' t n := by
  obtain ⟨hrec, hboost, hw⟩ := grantCall_boosts h
  refine ⟨?_, fun k => ?_, hboost.holder, hw⟩
  · rw [hboost.soft, if_pos rfl]
  · by_cases hk : k = n
    · subst hk
      rw [hboost.share hw, if_pos rfl, share_of_recorded hrec]
    · exact share_congr (hboost.other k hk)

theorem grant_ownPriority (h : grantCall s u n = some s')
    (hzero : u = t → (s.mutexes n).priCount = 0) : ownPriority s' t = ownPriority s t := by
  by_cases hu : u = t
  · subst hu
    obtain ⟨hsoft, hshare, -⟩ := grant_softPriority h
    apply ownPriority_congr hshare
    rw [hsoft, hzero rfl, add_zero]
  · obtain ⟨hrec, hboost, hw⟩ := grantCall_boosts h
    have hne : some u ≠ some t := by simpa using hu
    apply ownPriority_congr
    · intro k
      by_cases hk : k = n
      · subst hk
        rw [hboost.share hw, if_neg hne, share_of_not_recorded]
        rintro ⟨hholder, -⟩
        exact hne (hrec.1.symm.trans hholder)
      · exact share_congr (hboost.other k hk)
    · rw [hboost.soft, if_neg hne, add_zero]

/-- Whoever gives up a mutex that is recorded for it is lowered by the share that goes with it. -/
theorem unlock_ownPriority (hu : (s.threads u).status = .runnable)
    (hw : (s.mutexes n).word = true) (hown : u = t ↔ (s.mutexes n).holder = some t)
    (h : unlockCall s u false n = some (s', r)) : ownPriority s' t = ownPriority s t := by
  have hold : share s t n = if u = t then (s.mutexes n).priCount else 0 := by
    simp [share, Recorded, hw, hown]
  rcases unlockCall_gives_up hu h with hfree | ⟨-, w, -, hhand⟩
  · apply ownPriority_change (n := n)
    · intro k hk
      exact share_congr (hfree.other k hk)
    · rw [hfree.soft, hold, share_of_not_recorded (not_recorded_of_clear hfree.word)]
      abel
  · apply ownPriority_change (n := n)
    · intro k hk
      exact share_congr (hhand.other k hk)
    · have hnew : share s' t n = if w = t then (s'.mutexes n).priCount else 0 := by
        simp [share, Recorded, hhand.word, hw, hhand.holder]
      rw [hhand.soft, hold, hnew]
      abel

section

omit [DecidableEq κ] [Fintype μ]

theorem fallAsleep_softPriority (s : State τ μ κ) (u x : τ) (n : μ) :
    ((fallAsleep s u n).threads x).softPriority = (s.threads x).softPriority := by
  obtain ⟨a, b, c, d, hx⟩ := fallAsleep_thread s u x n
  rw [hx]

theorem fallAsleep_holder (s : State τ μ κ) (u : τ) (n k : μ) :
    ((fallAsleep s u n).mutexes k).holder = (s.mutexes k).holder ∧
      ((fallAsleep s u n).mutexes k).word = (s.mutexes k).word := by
  rw [fallAsleep_mutexes]
  by_cases hk : k = n <;> simp [hk]

/-- The thread that falls asleep is not on the way of the walk that begins at the holder. -/
theorem Through.fallAsleep {h : τ} (hthrough : Through s t h) (hu : (s.threads u).waitType = .mutex)
    (hobj : (s.threads u).waitObj = .mutex n) (hholder : (s.mutexes n).holder = some h) :
    Through (fallAsleep s u n) t h := by
  intro l hl x hx k hsleeps hk
  have hasleep : heir (Synchronization.fallAsleep s u n) u = some h := by
    obtain ⟨a, b, c, d, hthread⟩ := fallAsleep_thread s u u n
    rw [heir, hthread]
    simp [hu, hobj, (fallAsleep_holder s u n n).1, hholder]
  have hne : ∀ v ∈ l, v ≠ u := by
    rintro v hv rfl
    exact hl.not_back hv hasleep
  have hsame : ∀ v ∈ l, ∀ k, SleepsOn (Synchronization.fallAsleep s u n) v k ↔ SleepsOn s v k := by
    intro v hv k
    obtain ⟨a, b, c, d, hthread⟩ := fallAsleep_thread s u v n
    rw [SleepsOn, SleepsOn, SleepsOnMutex, SleepsOnMutex, hthread]
    simp [hne v hv]
  have hpath : Path (heir s) h l := by
    refine hl.congr fun v hv => ?_
    obtain ⟨a, b, c, d, hthread⟩ := fallAsleep_thread s u v n
    rw [heir, heir, hthread]
    simp [hne v hv, (fallAsleep_holder s u n _).1]
  rw [(fallAsleep_holder s u n k).1] at hk
  rw [(fallAsleep_holder s u n k).2]
  exact hthrough l hpath x hx k ((hsame x hx k).mp hsleeps) hk

end

/-- A thread that goes to sleep on a mutex raises the share of its holder and the holder. -/
theorem lockSleep_ownPriority (hu : (s.threads u).waitType = .mutex)
    (hg : Undisturbed t m s (.lockSleep u)) (h : sleepCall s u = some (s', r)) :
    ownPriority s' t = ownPriority s t := by
  obtain ⟨-, n, hobj, hend⟩ := sleepCall_cases h
  have hrecorded : ∀ k, Recorded (fallAsleep s u n) t k ↔ Recorded s t k := by
    intro k
    rw [Recorded, Recorded, (fallAsleep_holder s u n k).1, (fallAsleep_holder s u n k).2]
  have hother : ∀ k, k ≠ n → share (fallAsleep s u n) t k = share s t k := by
    intro k hk
    apply share_congr
    rw [fallAsleep_mutexes, if_neg hk]
  rw [(fallAsleep_holder s u n n).1, fallAsleep_softPriority] at hend
  -- the share of `n` is that of somebody else
  have hunrecorded : ¬ Recorded s t n → ownPriority (fallAsleep s u n) t = ownPriority s t := by
    intro hn
    apply ownPriority_congr
    · intro k
      by_cases hk : k = n
      · subst hk
        rw [share_of_not_recorded hn, share_of_not_recorded (fun hn' => hn ((hrecorded k).mp hn'))]
      · exact hother k hk
    · exact fallAsleep_softPriority s u t n
  rcases hend with ⟨hnone, rfl⟩ | ⟨h, hholder, hadj⟩
  · apply hunrecorded
    rintro ⟨hholder, -⟩
    rw [hnone] at hholder
    cases hholder
  · obtain ⟨hlocked, hthrough⟩ := hg n hobj h hholder
    by_cases hht : h = t
    · subst hht
      have hn : Recorded s h n := ⟨hholder, hlocked rfl⟩
      obtain ⟨hsoft, hshare⟩ := threadAdjustPriority_start hadj
      apply ownPriority_change (n := n)
      · intro k hk
        rw [hshare, hother k hk]
      · rw [hsoft, hshare, fallAsleep_softPriority, share_of_recorded hn,
          share_of_recorded ((hrecorded n).mpr hn), fallAsleep_mutexes, if_pos rfl, add_assoc,
          add_comm (s.threads u).softPriority]
    · have hn : ¬ Recorded s t n := by
        rintro ⟨hholder', -⟩
        exact hht (Option.some_inj.mp (hholder.symm.trans hholder'))
      rw [threadAdjustPriority_ownPriority hht (hthrough.fallAsleep hu hobj hholder) hadj]
      exact hunrecorded hn

omit [DecidableEq τ] [DecidableEq μ] [DecidableEq κ] [Fintype μ] in
theorem made_call {c : Prop} [Decidable c] {call : Option (State τ μ κ × List τ)}
    (h : (if c then call.map Prod.fst else none) = some s') : c ∧ ∃ r, call = some (s', r) := by
  split at h
  · rename_i hc
    obtain ⟨⟨s', r⟩, hcall, rfl⟩ := Option.map_eq_some_iff.mp h
    exact ⟨hc, r, hcall⟩
  · cases h

omit [Fintype μ] in
theorem request_keeps (h : runCode u 5 s (requestCode n) = some (s', r)) :
    (∀ x, (s'.threads x).softPriority = (s.threads x).softPriority) ∧
      ∀ k, (s'.mutexes k).holder = (s.mutexes k).holder ∧
        (s'.mutexes k).word = (s.mutexes k).word ∧
        (s'.mutexes k).priCount = (s.mutexes k).priCount := by
  cases h
  refine ⟨fun x => ?_, fun k => ?_⟩
  · by_cases hx : x = u <;> simp [hx]
  · by_cases hk : k = n <;> simp [hk]

theorem request_ownPriority (h : runCode u 5 s (requestCode n) = some (s', r)) :
    ownPriority s' t = ownPriority s t := by
  obtain ⟨hsoft, hkeep⟩ := request_keeps h
  apply ownPriority_congr
  · intro k
    obtain ⟨hholder, hw, hcount⟩ := hkeep k
    have hrecorded : Recorded s' t k ↔ Recorded s t k := by
      rw [Recorded, Recorded, hholder, hw]
    simp only [share, hrecorded, hcount]
  · exact hsoft t

theorem step_preserves_ownPriority (hg : Undisturbed t m s e) (he : holdStep s e = some s') :
    ownPriority s' t = ownPriority s t := by
  cases e with
  | request u n =>
    obtain ⟨-, r, hcall⟩ := made_call he
    exact request_ownPriority hcall
  | lock u current way n => exact lock_ownPriority he
  | lockSleep u =>
    obtain ⟨⟨-, hwait⟩, r, hcall⟩ := made_call he
    exact lockSleep_ownPriority hwait hg hcall
  | unlock u n =>
    obtain ⟨hu, r, hcall⟩ := made_call he
    obtain ⟨-, hw, hown⟩ := hg
    exact unlock_ownPriority hu hw hown hcall
  | grant u n => exact grant_ownPriority he hg
  | adjustPriority x priority => exact threadAdjustPriority_ownPriority hg.1 hg.2 he

omit [DecidableEq τ] [DecidableEq μ] [DecidableEq κ] [Fintype μ] in
theorem Reprioritized.recorded (h : Reprioritized s s') : Recorded s' t n ↔ Recorded s t n := by
  obtain ⟨p, hp⟩ := h.mutex n
  rw [Recorded, Recorded, hp]

omit [Fintype μ] in
/-- While `m` is not given up, its holder stays recorded. -/
theorem step_preserves_recorded (hrec : Recorded s t m) (hg : Undisturbed t m s e)
    (he : holdStep s e = some s') : Recorded s' t m := by
  cases e with
  | request u n =>
    obtain ⟨-, r, hcall⟩ := made_call he
    obtain ⟨hholder, hw, -⟩ := (request_keeps hcall).2 m
    exact ⟨hholder.trans hrec.1, hw.trans hrec.2⟩
  | lock u current way n =>
    obtain ⟨hclear, hboost, -⟩ := lockCall_boosts he
    have hne : m ≠ n := by
      rintro rfl
      exact not_recorded_of_clear hclear hrec
    exact (recorded_congr (hboost.other m hne)).mpr hrec
  | lockSleep u =>
    obtain ⟨-, r, hcall⟩ := made_call he
    obtain ⟨-, n, -, hend⟩ := sleepCall_cases hcall
    have hasleep : Recorded (fallAsleep s u n) t m :=
      ⟨(fallAsleep_holder s u n m).1.trans hrec.1, (fallAsleep_holder s u n m).2.trans hrec.2⟩
    rcases hend with ⟨-, rfl⟩ | ⟨h, -, hadj⟩
    · exact hasleep
    · exact (threadAdjustPriority_reprioritized hadj).recorded.mpr hasleep
  | unlock u n =>
    obtain ⟨hu, r, hcall⟩ := made_call he
    have hsame : s'.mutexes m = s.mutexes m := by
      rcases unlockCall_gives_up hu hcall with hfree | ⟨-, w, -, hhand⟩
      · exact hfree.other m (Ne.symm hg.1)
      · exact hhand.other m (Ne.symm hg.1)
    exact (recorded_congr hsame).mpr hrec
  | grant u n =>
    obtain ⟨hrec', hboost, hw⟩ := grantCall_boosts he
    by_cases hn : m = n
    · subst hn
      exact ⟨hboost.holder.trans (hrec'.1.symm.trans hrec.1), hw⟩
    · exact (recorded_congr (hboost.other m hn)).mpr hrec
  | adjustPriority x priority =>
    exact (threadAdjustPriority_reprioritized he).recorded.mpr hrec

omit [Fintype μ] in
theorem run_preserves_recorded (hrun : Execution holdStep (Undisturbed t m) s s')
    (hrec : Recorded s t m) : Recorded s' t m := by
  refine hrun.preserves (I := fun s => Recorded s t m) ?_ hrec
  intro s₁ e s₂ h hg he
  exact step_preserves_recorded h hg he

theorem run_preserves_ownPriority (hrun : Execution holdStep (Undisturbed t m) s s') :
    ownPriority s' t = ownPriority s t := by
  refine hrun.preserves (I := fun s' => ownPriority s' t = ownPriority s t) ?_ rfl
  intro s₁ e s₂ h hg he
  exact (step_preserves_ownPriority hg he).trans h

/-- After the release the thread is back at its own priority and the shares of its other
mutexes. -/
theorem release_softPriority (hrec : Recorded s t m) (ht : (s.threads t).status = .runnable)
    (hself : (s.mutexes m).numSpin = 0 → (s.mutexes m).queue ≠ some t)
    (h : unlockCall s t false m = some (s', r)) :
    (s'.threads t).softPriority = ownPriority s t + othersShare s t m := by
  have hlower : (s'.threads t).softPriority =
      (s.threads t).softPriority - (s.mutexes m).priCount := by
    rcases unlockCall_gives_up ht h with hfree | ⟨hn, w, hq, hhand⟩
    · rw [hfree.soft, if_pos rfl]
    · have hwt : w ≠ t := by
        rintro rfl
        exact hself hn hq
      rw [hhand.soft, if_pos rfl, if_neg hwt, add_zero]
  rw [hlower, softPriority_eq s t m, share_of_recorded hrec]
  abel

end Shares

/-- From `s` to `s'` the thread `t` acquires `m`: it takes the lock word, or it is in the queue, is
handed the mutex and goes on later. The proposition says when `t` is recorded and raised once. -/
inductive Acquires [Fintype μ] (t : τ) (m : μ) : Prop → State τ μ κ → State τ μ κ → Prop where
  | immediate {s s' current} : lockCall s t current .immediate m = some s' →
      Acquires t m (current = some t) s s'
  | direct {s s' current way} : way ≠ .immediate → lockCall s t current way m = some s' →
      Acquires t m True s s'
  | handOff {s s₁ s₂ s' u r} : (s.threads u).status = .runnable → u ≠ t →
      (s.mutexes m).word = true → (s.mutexes m).holder ≠ some t → (s.mutexes m).numSpin = 0 →
      (s.mutexes m).queue = some t → unlockCall s u false m = some (s₁, r) →
      Execution holdStep (Undisturbed t m) s₁ s₂ → grantCall s₂ t m = some s' →
      Acquires t m (othersShare s₂ t m + (s₂.mutexes m).priCount = othersShare s t m) s s'

section Holding

variable [Fintype μ] {s s₁ s₂ s₃ : State τ μ κ} {t : τ} {m : μ} {r : List τ} {current : Option τ}
  {way : Way}

omit [DecidableEq τ] in
theorem Way.records_self (h : way ≠ .immediate) : way.records t current = some t := by
  cases way with
  | immediate => exact absurd rfl h
  | _ => rfl

omit [Fintype μ] in
/-- When the caller is recorded, it is raised by `pri_count`, its new share. -/
theorem lockCall_held (h : lockCall s t current way m = some s₁)
    (hway : way.records t current = some t) :
    Recorded s₁ t m ∧
      (s₁.threads t).softPriority = (s.threads t).softPriority + (s₁.mutexes m).priCount + 0 := by
  obtain ⟨-, hboost, hw⟩ := lockCall_boosts h
  refine ⟨⟨hboost.holder.trans hway, hw⟩, ?_⟩
  rw [hboost.soft, if_pos hway, hboost.priCount, add_zero]

theorem handOff_held {s' : State τ μ κ} {u : τ} (hu : (s.threads u).status = .runnable)
    (hut : u ≠ t) (hw : (s.mutexes m).word = true) (hholder : (s.mutexes m).holder ≠ some t)
    (hcall : unlockCall s u false m = some (s₁, r))
    (hwait : Execution holdStep (Undisturbed t m) s₁ s₂) (hgrant : grantCall s₂ t m = some s') :
    Recorded s' t m ∧
      (s'.threads t).softPriority = (s.threads t).softPriority + (s'.mutexes m).priCount +
        (othersShare s₂ t m + (s₂.mutexes m).priCount - othersShare s t m) := by
  have hown : ownPriority s₂ t = ownPriority s t :=
    (run_preserves_ownPriority hwait).trans
      (unlock_ownPriority hu hw (iff_of_false hut hholder) hcall)
  obtain ⟨hrec₂, hboost, -⟩ := grantCall_boosts hgrant
  obtain ⟨hsoft, -, hrec⟩ := grant_softPriority hgrant
  refine ⟨hrec, ?_⟩
  -- the priority before the hand-off and before the second boost
  have hbefore := softPriority_eq s t m
  rw [share_of_not_recorded (fun h => hholder h.1), zero_add] at hbefore
  have hwoken := softPriority_eq s₂ t m
  rw [share_of_recorded hrec₂, hown] at hwoken
  rw [hboost.priCount]
  linear_combination hsoft + hwoken - hbefore

/-- A thread that was raised by `pri_count` and by `extra` is lowered by `pri_count` alone. -/
theorem held_iff {extra : BitVec 32} (hrec : Recorded s₁ t m)
    (hsoft : (s₁.threads t).softPriority =
      (s.threads t).softPriority + (s₁.mutexes m).priCount + extra)
    (hrun : Execution holdStep (Undisturbed t m) s₁ s₂)
    (ht : (s₂.threads t).status = .runnable)
    (hself : (s₂.mutexes m).numSpin = 0 → (s₂.mutexes m).queue ≠ some t)
    (hcall : unlockCall s₂ t false m = some (s₃, r)) :
    ((s₁.mutexes m).holder = some t ∧
      (s₁.threads t).softPriority = (s.threads t).softPriority + (s₁.mutexes m).priCount ∧
      (s₃.threads t).softPriority = (s.threads t).softPriority) ↔
    extra = 0 ∧ othersShare s₂ t m = othersShare s₁ t m := by
  have hback : (s₃.threads t).softPriority = ownPriority s₁ t + othersShare s₂ t m := by
    rw [release_softPriority (run_preserves_recorded hrun hrec) ht hself hcall,
      run_preserves_ownPriority hrun]
  have hraised := softPriority_eq s₁ t m
  rw [share_of_recorded hrec] at hraised
  constructor
  · rintro ⟨-, honce, hsame⟩
    have hextra : extra = 0 := by linear_combination honce - hsoft
    refine ⟨hextra, ?_⟩
    linear_combination hsame - hback + hraised - honce
  · rintro ⟨rfl, hother⟩
    rw [add_zero] at hsoft
    refine ⟨hrec.1, hsoft, ?_⟩
    rw [hback, hother]
    linear_combination hsoft - hraised

end Holding

/-- A thread that sleeps on the mutex is never handed it: the unlock follows its null `wait_obj`.
On the other ways the acquiring thread is recorded, raised by `pri_count`, and back at its former
priority after the release, exactly when `mutex_lock` found its own thread in the unassigned
variable, a second boost adds nothing, and the mutexes that it holds besides add what they added
before. -/
theorem recorded_holder [Fintype μ] (t : τ) (m : μ) :
    (∀ (s : State τ μ κ) (u : τ), (s.threads u).status = .runnable → (s.mutexes m).numSpin = 0 →
      (s.mutexes m).queue = some t → SleepsOnMutex s t → unlockCall s u false m = none) ∧
    ∀ (s s₁ s₂ s₃ : State τ μ κ) (r : List τ) (once : Prop), Acquires t m once s s₁ →
      Execution holdStep (Undisturbed t m) s₁ s₂ → (s₂.threads t).status = .runnable →
      ((s₂.mutexes m).numSpin = 0 → (s₂.mutexes m).queue ≠ some t) →
      unlockCall s₂ t false m = some (s₃, r) →
      (((s₁.mutexes m).holder = some t ∧
        (s₁.threads t).softPriority = (s.threads t).softPriority + (s₁.mutexes m).priCount ∧
        (s₃.threads t).softPriority = (s.threads t).softPriority) ↔
      once ∧ othersShare s₂ t m = othersShare s₁ t m) := by
  refine ⟨fun s u hu hn hq hs => unlockCall_null false hu hn hq hs, ?_⟩
  intro s s₁ s₂ s₃ r once hacq hrun ht hself hcall
  cases hacq with
  | @immediate _ _ current hlock =>
    by_cases hcurrent : current = some t
    · obtain ⟨hrec, hsoft⟩ := lockCall_held hlock hcurrent
      rw [held_iff hrec hsoft hrun ht hself hcall]
      simp [hcurrent]
    · -- somebody else is recorded
      have hholder : (s₁.mutexes m).holder = current := (lockCall_boosts hlock).2.1.holder
      refine iff_of_false ?_ ?_
      · rintro ⟨hrec, -⟩
        exact hcurrent (hholder.symm.trans hrec)
      · rintro ⟨hrec, -⟩
        exact hcurrent hrec
  | direct hway hlock =>
    obtain ⟨hrec, hsoft⟩ := lockCall_held hlock (Way.records_self hway)
    rw [held_iff hrec hsoft hrun ht hself hcall]
    simp
  | handOff hu hut hw hholder _ _ hhand hwait hgrant =>
    obtain ⟨hrec, hsoft⟩ := handOff_held hu hut hw hholder hhand hwait hgrant
    rw [held_iff hrec hsoft hrun ht hself hcall, sub_eq_zero]

omit [DecidableEq τ] [DecidableEq μ] [DecidableEq κ] in
theorem through_awake {s : State τ μ κ} {t y : τ} (h : ¬ SleepsOnMutex s y) : Through s t y := by
  intro l hl x hx n hsleeps _
  cases hl with
  | stop =>
    obtain rfl := List.mem_singleton.mp hx
    exact absurd hsleeps.1 h
  | step hy =>
    rw [heir_of_awake h] at hy
    cases hy

/-- A thread asks for the mutex, or it goes to sleep on it while its holder `t` is awake. -/
def Waits (t : τ) (m : μ) (s : State τ μ κ) : HoldEvent τ μ → Prop
  | .request _ _ => True
  | .lockSleep u => (s.threads u).waitObj = .mutex m ∧ Recorded s t m ∧ ¬ SleepsOnMutex s t
  | _ => False

instance (t : τ) (m : μ) (s : State τ μ κ) (e : HoldEvent τ μ) : Decidable (Waits t m s e) := by
  cases e <;> unfold Waits <;> infer_instance

omit [DecidableEq τ] [DecidableEq μ] [DecidableEq κ] in
theorem Waits.undisturbed {t : τ} {m : μ} {s : State τ μ κ} {e : HoldEvent τ μ}
    (h : Waits t m s e) : Undisturbed t m s e := by
  cases e with
  | request u n => exact trivial
  | lockSleep u =>
    obtain ⟨hobj, ⟨hholder, hw⟩, hawake⟩ := h
    intro n hn y hy
    have hmn := hobj.symm.trans hn
    cases hmn
    have hyt := hy.symm.trans hholder
    cases hyt
    exact ⟨fun _ => hw, through_awake hawake⟩
  | _ => exact False.elim h

def asleep (t : Fin 5) (priority : BitVec 32) : Thread (Fin 5) Unit Unit :=
  { idleThread with
    waitType := .mutex
    waitObj := .mutex ()
    queueNext := some t
    queueLast := some t
    softPriority := priority
    status := .intSleep }

def sleeperLeft : State (Fin 5) Unit Unit :=
  { start with
    threads := fun t => if t = 2 then asleep 2 3
      else { idleThread with softPriority := if t = 0 then 10 else 7 }
    mutexes := fun _ => ⟨false, 0, 3, some 2, none⟩ }

/-- Thread 0 takes the mutex at once, others come to wait for it, and thread 0 releases it. -/
def holdOnce (current : Option (Fin 5)) (waits : List (HoldEvent (Fin 5) Unit)) :
    Option (State (Fin 5) Unit Unit × State (Fin 5) Unit Unit × State (Fin 5) Unit Unit) := do
  let s₁ ← lockCall sleeperLeft 0 current .immediate ()
  let s₂ ← follow holdStep (Waits 0 ()) s₁ waits
  let s₃ ← (unlockCall s₂ 0 false ()).map Prod.fst
  some (s₁, s₂, s₃)

def ownerAndSleeper : State (Fin 5) Unit Unit :=
  { start with
    threads := fun t => if t = 1 then asleep 1 7
      else { idleThread with softPriority := if t = 0 then 17 else 3 }
    mutexes := fun _ => ⟨true, 0, 7, some 1, some 0⟩ }

theorem othersShare_unit (s s' : State (Fin 5) Unit Unit) (t : Fin 5) :
    othersShare s t () = othersShare s' t () := rfl

/-- Thread 1 falls asleep while thread 0 holds the mutex, and thread 3 spins when it releases it. -/
theorem recorded_holder_waited :
    (∃ s₁ s₂ s₃ : State (Fin 5) Unit Unit,
      holdOnce (some 0) [.request 1 (), .lockSleep 1, .request 3 ()] = some (s₁, s₂, s₃) ∧
        (s₂.threads 0).softPriority = 20 ∧ (s₁.mutexes ()).holder = some 0 ∧
        (s₁.threads 0).softPriority = 10 + (s₁.mutexes ()).priCount ∧
        (s₃.threads 0).softPriority = 10) ∧
    unlockCall ownerAndSleeper 0 false () = none := by
  refine ⟨?_, (recorded_holder 1 ()).1 ownerAndSleeper 0 rfl rfl rfl (by decide)⟩
  have hrun : (holdOnce (some 0) [.request 1 (), .lockSleep 1, .request 3 ()]).map (fun r => decide
      ((r.2.1.threads 0).softPriority = 20 ∧ (r.2.1.threads 0).status = .runnable ∧
        (r.2.1.mutexes ()).queue = some 1)) = some true := by decide +kernel
  obtain ⟨⟨s₁, s₂, s₃⟩, hhold, hd⟩ := Option.map_eq_some_iff.mp hrun
  obtain ⟨hsoft, ht, hqueue⟩ := of_decide_eq_true hd
  refine ⟨s₁, s₂, s₃, hhold, hsoft, ?_⟩
  simp only [holdOnce, Option.bind_eq_bind, Option.bind_eq_some_iff] at hhold
  obtain ⟨_, hlock, _, hfollow, _, hrelease, heq⟩ := hhold
  cases heq
  obtain ⟨⟨_, r⟩, hcall, rfl⟩ := Option.map_eq_some_iff.mp hrelease
  have hexec : Execution holdStep (Undisturbed 0 ()) s₁ s₂ :=
    (execution_of_follow hfollow).weaken fun _ _ => Waits.undisturbed
  have hself : (s₂.mutexes ()).numSpin = 0 → (s₂.mutexes ()).queue ≠ some 0 := by
    intro _
    rw [hqueue]
    decide
  exact ((recorded_holder 0 ()).2 _ s₁ s₂ _ r _ (.immediate hlock) hexec ht hself hcall).mpr
    ⟨rfl, othersShare_unit s₂ s₁ 0⟩

/-- Thread 1 stands in the unassigned variable, and thread 0 is lowered by 3 without having been
raised. Thread 1 sleeps on the mutex of thread 0, and the unlock that would hand it over has no
result. -/
theorem holder_misrecorded :
    (∃ s₁ s₂ s₃ : State (Fin 5) Unit Unit,
      holdOnce (some 1) [.request 3 ()] = some (s₁, s₂, s₃) ∧
        (sleeperLeft.threads 0).softPriority = 10 ∧ (s₁.mutexes ()).holder = some 1 ∧
        (s₁.mutexes ()).priCount = 3 ∧ (s₁.threads 0).softPriority = 10 ∧
        (s₃.threads 0).softPriority = 7) ∧
    (ownerAndSleeper.mutexes ()).queue = some 1 ∧ SleepsOnMutex ownerAndSleeper 1 ∧
      unlockCall ownerAndSleeper 0 false () = none := by
  constructor
  · have hrun : (holdOnce (some 1) [.request 3 ()]).map (fun r => decide
        ((sleeperLeft.threads 0).softPriority = 10 ∧ (r.1.mutexes ()).holder = some 1 ∧
          (r.1.mutexes ()).priCount = 3 ∧ (r.1.threads 0).softPriority = 10 ∧
          (r.2.2.threads 0).softPriority = 7)) = some true := by decide +kernel
    obtain ⟨⟨s₁, s₂, s₃⟩, hhold, hd⟩ := Option.map_eq_some_iff.mp hrun
    exact ⟨s₁, s₂, s₃, hhold, of_decide_eq_true hd⟩
  · have hsleeps : SleepsOnMutex ownerAndSleeper 1 := by decide
    exact ⟨rfl, hsleeps, unlockCall_null false rfl rfl rfl hsleeps⟩

end Synchronization
