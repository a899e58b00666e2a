import Metakernel.Synchronization

/-!
# The queue of a mutex

The sleepers of a mutex form a ring that `mutex->queue` enters at the newest one. A hand-off
wakes the thread at the entry and deletes its predecessor, the oldest sleeper; the two are the
same thread only in a ring of one. Before it wakes the thread it clears its `wait_obj`, and
`thread_adjust_priority` follows that pointer when the thread sleeps on a mutex.
-/
namespace Synchronization

open LinkedNodes DataStructures GuardedRuns

variable {τ μ κ : Type} [DecidableEq τ] [DecidableEq μ] [DecidableEq κ]

abbrev isThread (p : Option τ) : Prop := p.isSome = true

section

omit [DecidableEq μ] [DecidableEq κ]

theorem threadRingFields : RingFields
    (threadNext : NodeField (τ → Thread τ μ κ) (Option τ) (Option τ)) threadLast isThread where
  next_lawful := by
    constructor
    · intro m p v hp _
      obtain ⟨x, rfl⟩ := Option.isSome_iff_exists.mp hp
      simp [threadNext]
    · intro m p q v hp hq hne
      obtain ⟨x, rfl⟩ := Option.isSome_iff_exists.mp hp
      obtain ⟨y, rfl⟩ := Option.isSome_iff_exists.mp hq
      have hxy : y ≠ x := fun h => hne (congrArg some h)
      simp [threadNext, hxy]
  last_lawful := by
    constructor
    · intro m p v hp _
      obtain ⟨x, rfl⟩ := Option.isSome_iff_exists.mp hp
      simp [threadLast]
    · intro m p q v hp hq hne
      obtain ⟨x, rfl⟩ := Option.isSome_iff_exists.mp hp
      obtain ⟨y, rfl⟩ := Option.isSome_iff_exists.mp hq
      have hxy : y ≠ x := fun h => hne (congrArg some h)
      simp [threadLast, hxy]
  next_untouched := by
    intro m p q v hp hq
    obtain ⟨x, rfl⟩ := Option.isSome_iff_exists.mp hp
    obtain ⟨y, rfl⟩ := Option.isSome_iff_exists.mp hq
    by_cases hxy : y = x <;> simp [threadNext, threadLast, hxy]
  last_untouched := by
    intro m p q v hp hq
    obtain ⟨x, rfl⟩ := Option.isSome_iff_exists.mp hp
    obtain ⟨y, rfl⟩ := Option.isSome_iff_exists.mp hq
    by_cases hxy : y = x <;> simp [threadNext, threadLast, hxy]

structure Sleepers (threads : τ → Thread τ μ κ) (queue : Option τ) (l : List τ) : Prop where
  entry : queue = l.head?
  ring : NodeRing threadNext threadLast isThread threads (l.map some)

theorem Sleepers.nodup {threads : τ → Thread τ μ κ} {queue : Option τ} {l : List τ}
    (h : Sleepers threads queue l) : l.Nodup := h.ring.nodup.of_map

theorem Sleepers.congr {threads threads' : τ → Thread τ μ κ} {queue : Option τ} {l : List τ}
    (h : Sleepers threads queue l)
    (hl : ∀ u ∈ l, (threads' u).queueNext = (threads u).queueNext ∧
      (threads' u).queueLast = (threads u).queueLast) : Sleepers threads' queue l := by
  refine ⟨h.entry, h.ring.congr ?_ ?_⟩
  · intro p hp
    obtain ⟨u, hu, rfl⟩ := List.mem_map.mp hp
    exact (hl u hu).1
  · intro p hp
    obtain ⟨u, hu, rfl⟩ := List.mem_map.mp hp
    exact (hl u hu).2

end

omit [DecidableEq τ] in
theorem none_not_thread : ¬ isThread (none : Option τ) := by simp

omit [DecidableEq τ] in
theorem head_map_some (l : List τ) : (l.map some).head?.getD none = l.head? := by
  cases l <;> rfl

omit [DecidableEq μ] [DecidableEq κ] in
theorem Sleepers.insert {threads : τ → Thread τ μ κ} {queue : Option τ} {l : List τ} {t : τ}
    (h : Sleepers threads queue l) (ht : t ∉ l) :
    Sleepers (threadQueueInsert threads queue t).1 (threadQueueInsert threads queue t).2
      (t :: l) := by
  have ht' : some t ∉ l.map some := by simpa using ht
  have hring := clistInsert_ring threadRingFields none_not_thread h.ring rfl ht'
  rw [head_map_some, ← h.entry] at hring
  exact ⟨clistInsert_entry _ _ _, hring⟩

omit [DecidableEq μ] [DecidableEq κ] in
theorem Sleepers.remove {threads : τ → Thread τ μ κ} {queue : Option τ} {l : List τ}
    (h : Sleepers threads queue l) :
    Sleepers (threadQueueRemove threads queue).1 (threadQueueRemove threads queue).2
      l.dropLast := by
  rcases List.eq_nil_or_concat l with rfl | ⟨ys, z, rfl⟩
  · have hq : queue = none := h.entry
    subst hq
    exact ⟨rfl, ring_nil _⟩
  · have hring := h.ring
    rw [List.concat_eq_append, List.map_append, List.map_singleton] at hring
    have hlast : threadLast.get threads queue = some z := by
      have hhead := hring.last_head.1
      rw [h.entry]
      cases ys with
      | nil => exact hhead
      | cons y ys => exact hhead
    have hrot : NodeRing threadNext threadLast isThread threads (some z :: ys.map some) :=
      hring.rotate
    have hdel := clistDelete_ring threadRingFields none_not_thread hrot
    rw [head_map_some] at hdel
    simp only [threadQueueRemove, hlast, List.concat_eq_append, List.dropLast_concat]
    exact ⟨hdel.2, hdel.1⟩

/-- Carries out the instructions of thread `t` without interruption, and lists the threads passed
to `thread_restart`. -/
def runCode (t : τ) : ℕ → State τ μ κ → List (Instr τ μ κ) → Option (State τ μ κ × List τ)
  | _, s, [] => some (s, [])
  | 0, _, _ :: _ => none
  | fuel + 1, s, i :: rest =>
    (perform s t none i).bind fun r =>
      (runCode t fuel r.1 (r.2 ++ rest)).map fun out =>
        (out.1, match i with
          | .restart w => w :: out.2
          | _ => out.2)

def sleepCall (s : State τ μ κ) (t : τ) : Option (State τ μ κ × List τ) :=
  runCode t 4 s [.lockSleep]

/-- `mutex_unlock(m)` or `async_mutex_unlock(m)` by `t`. -/
def unlockCall (s : State τ μ κ) (t : τ) (async : Bool) (m : μ) :
    Option (State τ μ κ × List τ) :=
  if async then runCode t 5 s (asyncMutexUnlock m) else runCode t 6 s (mutexUnlock m)

structure Quiet (m : μ) (s s' : State τ μ κ) : Prop where
  thread : ∀ u, (s'.threads u).queueNext = (s.threads u).queueNext ∧
    (s'.threads u).queueLast = (s.threads u).queueLast ∧
    (s'.threads u).status = (s.threads u).status
  waitType : ∀ u, (s'.threads u).waitType = (s.threads u).waitType
  queue : (s'.mutexes m).queue = (s.mutexes m).queue

section

omit [DecidableEq τ] [DecidableEq μ] [DecidableEq κ]

theorem Quiet.refl (m : μ) (s : State τ μ κ) : Quiet m s s :=
  ⟨fun _ => ⟨rfl, rfl, rfl⟩, fun _ => rfl, rfl⟩

theorem Quiet.trans {m : μ} {s s' s'' : State τ μ κ} (h : Quiet m s s') (h' : Quiet m s' s'') :
    Quiet m s s'' where
  thread u := ⟨(h'.thread u).1.trans (h.thread u).1, (h'.thread u).2.1.trans (h.thread u).2.1,
    (h'.thread u).2.2.trans (h.thread u).2.2⟩
  waitType u := (h'.waitType u).trans (h.waitType u)
  queue := h'.queue.trans h.queue

theorem Reprioritized.quiet {s s' : State τ μ κ} (h : Reprioritized s s') (m : μ) :
    Quiet m s s' where
  thread u := by
    obtain ⟨p, hp⟩ := h.thread u
    simp [hp]
  waitType u := by
    obtain ⟨p, hp⟩ := h.thread u
    rw [hp]
  queue := by
    obtain ⟨p, hp⟩ := h.mutex m
    rw [hp]

end

omit [DecidableEq μ] [DecidableEq κ] in
theorem Quiet.sleepers {m : μ} {s s' : State τ μ κ} {l : List τ} (h : Quiet m s s')
    (hl : Sleepers s.threads (s.mutexes m).queue l) :
    Sleepers s'.threads (s'.mutexes m).queue l := by
  rw [h.queue]
  exact hl.congr fun u _ => ⟨(h.thread u).1, (h.thread u).2.1⟩

theorem walkBound_succ : walkBound = 4294967295 + 1 := rfl

/-- As `lock_sleep` leaves its thread. -/
def SleepsOnMutex (s : State τ μ κ) (x : τ) : Prop :=
  (s.threads x).waitType = .mutex ∧ (s.threads x).status = .intSleep

instance (s : State τ μ κ) (x : τ) : Decidable (SleepsOnMutex s x) :=
  inferInstanceAs (Decidable (_ ∧ _))

omit [DecidableEq τ] [DecidableEq μ] [DecidableEq κ] in
theorem not_sleepsOnMutex_of_runnable {s : State τ μ κ} {x : τ}
    (h : (s.threads x).status = .runnable) : ¬ SleepsOnMutex s x := by
  rintro ⟨-, hs⟩
  rw [h] at hs
  cases hs

omit [DecidableEq τ] [DecidableEq μ] [DecidableEq κ] in
theorem Quiet.sleepsOnMutex {m : μ} {s s' : State τ μ κ} (h : Quiet m s s') (x : τ) :
    SleepsOnMutex s' x ↔ SleepsOnMutex s x := by
  rw [SleepsOnMutex, SleepsOnMutex, h.waitType, (h.thread x).2.2]

omit [DecidableEq κ] in
/-- The walk of `thread_adjust_priority` stops at once at a thread that does not sleep on a
mutex. -/
theorem threadAdjustPriority_stops {s : State τ μ κ} {w : τ} {priority : BitVec 32}
    (h : ¬ SleepsOnMutex s w) : threadAdjustPriority walkBound s w priority =
      some (s.setThread w fun th => { th with softPriority := th.softPriority + priority }) := by
  rw [walkBound_succ, threadAdjustPriority]
  dsimp only
  rw [if_neg]
  simpa [SleepsOnMutex] using h

omit [DecidableEq κ] in
theorem threadAdjustPriority_null {fuel : ℕ} {s : State τ μ κ} {w : τ} {priority : BitVec 32}
    (h : SleepsOnMutex s w) (hobj : (s.threads w).waitObj = .none) :
    threadAdjustPriority fuel s w priority = none := by
  cases fuel with
  | zero => rfl
  | succ fuel => simp [threadAdjustPriority, h.1, h.2, hobj]

/-- The section under `num_mutex`, for a running thread. -/
theorem perform_testSpin {s : State τ μ κ} {t : τ} {async : Bool} {m : μ}
    (ht : (s.threads t).status = .runnable) :
    ∃ s', Quiet m s s' ∧ perform s t none (.testSpin async m) = some (s',
      if (s.mutexes m).numSpin ≠ 0 then [.unlockSpun m]
      else .testQueue async m :: if async then [] else [.timerRestore]) := by
  cases async with
  | true =>
    by_cases hn : (s.mutexes m).numSpin ≠ 0
    · refine ⟨{ s with timerCount := s.timerCount + 1 },
        ⟨fun _ => ⟨rfl, rfl, rfl⟩, fun _ => rfl, rfl⟩, ?_⟩
      simp only [perform, if_true, Option.map_some, if_pos hn]
    · refine ⟨s, .refl m s, ?_⟩
      simp only [perform, if_true, Option.map_some, if_neg hn]
  | false =>
    have hadj : threadAdjustPriority walkBound s t (-(s.mutexes m).priCount) = _ :=
      threadAdjustPriority_stops (not_sleepsOnMutex_of_runnable ht)
    refine ⟨_, (threadAdjustPriority_reprioritized hadj).quiet m, ?_⟩
    simp only [perform, Bool.false_eq_true, if_false, hadj, Option.map_some]
    split <;> rfl

/-- The hand-off up to the boost of the new holder. -/
def passOn (s : State τ μ κ) (t : τ) (m : μ) (w : τ) : State τ μ κ :=
  let q := threadQueueRemove s.threads (s.mutexes m).queue
  let s := { s with threads := q.1 }
  let s := s.setMutex m fun mx =>
    { mx with queue := q.2, priCount := mx.priCount - (s.threads w).softPriority, holder := some w }
  let s := s.setThread w fun th => { th with waitObj := .none }
  (s.setOwns t m false).setOwns w m true

section

omit [DecidableEq κ]

theorem handOff_eq (s : State τ μ κ) (t : τ) (m : μ) (w : τ) : handOff s t m w =
    threadAdjustPriority walkBound (passOn s t m w) w ((passOn s t m w).mutexes m).priCount := rfl

theorem passOn_thread (s : State τ μ κ) (t : τ) (m : μ) (w : τ) :
    ((passOn s t m w).threads w).waitObj = .none ∧
      (SleepsOnMutex (passOn s t m w) w ↔ SleepsOnMutex s w) := by
  obtain ⟨a, b, hab⟩ := threadQueueRemove_relinked s.threads (s.mutexes m).queue w
  simp [passOn, SleepsOnMutex, hab]

theorem handOff_returns {s : State τ μ κ} {w : τ} (h : ¬ SleepsOnMutex s w) (t : τ) (m : μ) :
    ∃ s', handOff s t m w = some s' :=
  ⟨_, threadAdjustPriority_stops fun hw => h ((passOn_thread s t m w).2.mp hw)⟩

/-- `wait_obj` is null by the time that `thread_adjust_priority` follows it. -/
theorem handOff_null {s : State τ μ κ} {w : τ} (h : SleepsOnMutex s w) (t : τ) (m : μ) :
    handOff s t m w = none :=
  threadAdjustPriority_null ((passOn_thread s t m w).2.mpr h) (passOn_thread s t m w).1

end

theorem runCode_nil (fuel : ℕ) (s : State τ μ κ) (t : τ) : runCode t fuel s [] = some (s, []) := by
  cases fuel <;> rfl

theorem runCode_cons {fuel : ℕ} {s s₁ : State τ μ κ} {t : τ} {i : Instr τ μ κ}
    {code rest : List (Instr τ μ κ)} (h : perform s t none i = some (s₁, code))
    (hi : ∀ w, i ≠ .restart w) :
    runCode t (fuel + 1) s (i :: rest) = runCode t fuel s₁ (code ++ rest) := by
  rw [runCode, h, Option.bind_some]
  cases i with
  | restart w => exact absurd rfl (hi w)
  | _ => exact Option.map_id'

theorem runCode_restart (fuel : ℕ) (s : State τ μ κ) (t w : τ) (rest : List (Instr τ μ κ)) :
    runCode t (fuel + 1) s (.restart w :: rest) =
      (runCode t fuel (s.setThread w fun th => { th with status := .runnable }) rest).map
        fun out => (out.1, w :: out.2) := rfl

theorem runCode_timerRestore (fuel : ℕ) (s : State τ μ κ) (t : τ) (async : Bool) :
    runCode t (fuel + 1) s (if async then [] else [.timerRestore]) =
      some (if async then s else { s with timerCount := s.timerCount - 1 }, []) := by
  cases async with
  | true => exact runCode_nil _ _ _
  | false => exact (runCode_cons rfl (by simp)).trans (runCode_nil _ _ _)

omit [DecidableEq τ] [DecidableEq μ] [DecidableEq κ] in
theorem quiet_timer (m : μ) (s : State τ μ κ) (async : Bool) :
    Quiet m s (if async then s else { s with timerCount := s.timerCount - 1 }) := by
  cases async <;> exact ⟨fun _ => ⟨rfl, rfl, rfl⟩, fun _ => rfl, rfl⟩

theorem runCode_testQueue_free {s : State τ μ κ} {t : τ} {m : μ} (async : Bool)
    (hq : (s.mutexes m).queue = none) : ∃ s',
      runCode t 4 s (.testQueue async m :: if async then [] else [.timerRestore]) = some (s', []) ∧
      Quiet m s s' := by
  have hperf : perform s t none (.testQueue async m) =
      some (s, if async then [.unlockFree m] else [.clearHolder m, .unlockFree m]) := by
    simp only [perform, hq]
  rw [runCode_cons hperf (by simp)]
  cases async with
  | true =>
    exact ⟨release s t m, rfl, fun _ => ⟨rfl, rfl, rfl⟩, fun _ => rfl, by simp [release]⟩
  | false =>
    refine ⟨{ release (s.setMutex m fun mx => { mx with holder := none }) t m with
      timerCount := s.timerCount - 1 }, rfl, fun _ => ⟨rfl, rfl, rfl⟩, fun _ => rfl, ?_⟩
    simp [release]

theorem runCode_testQueue_handOff {s : State τ μ κ} {t w : τ} {m : μ} (async : Bool)
    (hq : (s.mutexes m).queue = some w) (hw : ¬ SleepsOnMutex s w) : ∃ s₂ s',
      runCode t 4 s (.testQueue async m :: if async then [] else [.timerRestore]) =
        some (s', [w]) ∧ handOff s t m w = some s₂ ∧
      Quiet m (s₂.setThread w fun th => { th with status := .runnable }) s' ∧
      (s'.mutexes m).holder = some w := by
  obtain ⟨s₂, h₂⟩ := handOff_returns hw t m
  have hperf : perform s t none (.testQueue async m) = some (s₂, [.restart w]) := by
    simp only [perform, hq, h₂, Option.map_some]
  refine ⟨s₂, _, ?_, h₂, quiet_timer m _ async, ?_⟩
  · rw [runCode_cons hperf (by simp), List.singleton_append, runCode_restart,
      runCode_timerRestore, Option.map_some]
  · obtain ⟨p, hp⟩ := (handOff_handedOff h₂).mutex m
    cases async <;> simp [hp]

theorem runCode_testQueue_null {s : State τ μ κ} {t w : τ} {m : μ} (async : Bool)
    (hq : (s.mutexes m).queue = some w) (hw : SleepsOnMutex s w) :
    runCode t 4 s (.testQueue async m :: if async then [] else [.timerRestore]) = none := by
  have hperf : perform s t none (.testQueue async m) = none := by
    simp only [perform, hq, handOff_null hw, Option.map_none]
  rw [runCode, hperf, Option.bind_none]

/-- What an unlock by a running thread does: it follows the null `wait_obj` of the thread at the
entry of the queue, it leaves the queue alone, or it hands the mutex to the thread at the entry. -/
theorem unlockCall_cases {s : State τ μ κ} {t : τ} {m : μ} (async : Bool)
    (ht : (s.threads t).status = .runnable) :
    ((s.mutexes m).numSpin = 0 ∧ (∃ w, (s.mutexes m).queue = some w ∧ SleepsOnMutex s w) ∧
      unlockCall s t async m = none) ∨
    ∃ s' r, unlockCall s t async m = some (s', r) ∧
      (((s.mutexes m).numSpin ≠ 0 ∨ (s.mutexes m).queue = none) ∧ r = [] ∧ Quiet m s s' ∨
      (s.mutexes m).numSpin = 0 ∧ ∃ w s₁ s₂, (s.mutexes m).queue = some w ∧
        ¬ SleepsOnMutex s w ∧ r = [w] ∧ Quiet m s s₁ ∧ handOff s₁ t m w = some s₂ ∧
        Quiet m (s₂.setThread w fun th => { th with status := .runnable }) s' ∧
        (s'.mutexes m).holder = some w) := by
  obtain ⟨s₀, hs₀, hrun₀⟩ : ∃ s₀, ((s₀.threads t).status = .runnable ∧ Quiet m s s₀ ∧
      (s₀.mutexes m).numSpin = (s.mutexes m).numSpin) ∧
      unlockCall s t async m = runCode t 5 s₀ [.testSpin async m] := by
    cases async with
    | true => exact ⟨s, ⟨ht, .refl m s, rfl⟩, rfl⟩
    | false =>
      have hperf : perform s t none .timerDisable =
        some ({ s with timerCount := s.timerCount + 1 }, []) := rfl
      exact ⟨{ s with timerCount := s.timerCount + 1 },
        ⟨ht, ⟨fun _ => ⟨rfl, rfl, rfl⟩, fun _ => rfl, rfl⟩, rfl⟩, runCode_cons hperf (by simp)⟩
  obtain ⟨s₁, hquiet₁, hperf⟩ : ∃ s₁, Quiet m s₀ s₁ ∧ _ := perform_testSpin hs₀.1
  have hquiet := hs₀.2.1.trans hquiet₁
  rw [hrun₀, runCode_cons hperf (by simp), List.append_nil, hs₀.2.2]
  split
  · rename_i hn
    refine Or.inr ⟨release s₁ t m, [], rfl, Or.inl ⟨Or.inl hn, rfl, hquiet.trans ?_⟩⟩
    exact ⟨fun _ => ⟨rfl, rfl, rfl⟩, fun _ => rfl, by simp [release]⟩
  · rename_i hn
    cases hq : (s.mutexes m).queue with
    | none =>
      obtain ⟨s', hrun, hfree⟩ := runCode_testQueue_free (t := t) async (hquiet.queue.trans hq)
      exact Or.inr ⟨s', [], hrun, Or.inl ⟨Or.inr rfl, rfl, hquiet.trans hfree⟩⟩
    | some w =>
      have hw₁ := hquiet.sleepsOnMutex w
      by_cases hw : SleepsOnMutex s w
      · exact Or.inl ⟨not_not.mp hn, ⟨w, rfl, hw⟩,
          runCode_testQueue_null async (hquiet.queue.trans hq) (hw₁.mpr hw)⟩
      · obtain ⟨s₂, s', hrun, hhand, hrest, hholder⟩ := runCode_testQueue_handOff (t := t) async
          (hquiet.queue.trans hq) (fun h => hw (hw₁.mp h))
        exact Or.inr ⟨s', [w], hrun, Or.inr ⟨not_not.mp hn, w, s₁, s₂, rfl, hw, rfl, hquiet, hhand,
          hrest, hholder⟩⟩

omit [DecidableEq κ] in
theorem handOff_sleepers {s s' : State τ μ κ} {t w : τ} {m : μ} {l : List τ}
    (h : handOff s t m w = some s') (hl : Sleepers s.threads (s.mutexes m).queue l) :
    Sleepers s'.threads (s'.mutexes m).queue l.dropLast ∧
      ∀ u, (s'.threads u).status = (s.threads u).status := by
  have hh := handOff_handedOff h
  refine ⟨?_, fun u => ?_⟩
  · obtain ⟨p, hp⟩ := hh.mutex m
    have hqueue : (s'.mutexes m).queue = (threadQueueRemove s.threads (s.mutexes m).queue).2 := by
      simp [hp]
    rw [hqueue]
    exact hl.remove.congr fun u _ => hh.links u
  · obtain ⟨a, b, p, hp⟩ := hh.thread u
    rw [hp]

/-- In the hand-off branch the newest thread of the ring is woken and the oldest one leaves it. -/
theorem unlockCall_handOff {s : State τ μ κ} {t w : τ} {m : μ} {l : List τ} (async : Bool)
    (ht : (s.threads t).status = .runnable) (hn : (s.mutexes m).numSpin = 0)
    (hl : Sleepers s.threads (s.mutexes m).queue (w :: l)) (hw : ¬ SleepsOnMutex s w) : ∃ s',
      unlockCall s t async m = some (s', [w]) ∧ (s'.mutexes m).holder = some w ∧
      Sleepers s'.threads (s'.mutexes m).queue (w :: l).dropLast ∧
      ∀ u, (s'.threads u).status = if u = w then .runnable else (s.threads u).status := by
  have hq : (s.mutexes m).queue = some w := hl.entry
  obtain ⟨-, ⟨w', hw', hsleeps⟩, -⟩ | ⟨s', r, hcall, hfree | hhand⟩ :=
    unlockCall_cases (m := m) async ht
  · obtain rfl : w' = w := Option.some_inj.mp (hw'.symm.trans hq)
    exact absurd hsleeps hw
  · rcases hfree.1 with h | h
    · exact absurd hn h
    · rw [h] at hq
      cases hq
  · obtain ⟨-, w', s₁, s₂, hw', -, rfl, hquiet, hoff, hrest, hholder⟩ := hhand
    obtain rfl : w' = w := Option.some_inj.mp (hw'.symm.trans hq)
    obtain ⟨hring, hstatus⟩ := handOff_sleepers hoff (hquiet.sleepers hl)
    refine ⟨s', hcall, hholder, hrest.sleepers (hring.congr fun u _ => ?_), fun u => ?_⟩
    · by_cases hu : u = w' <;> simp [hu]
    · rw [(hrest.thread u).2.2]
      by_cases hu : u = w'
      · simp [hu]
      · simp [hu, hstatus, (hquiet.thread u).2.2]

theorem unlockCall_null {s : State τ μ κ} {t w : τ} {m : μ} (async : Bool)
    (ht : (s.threads t).status = .runnable) (hn : (s.mutexes m).numSpin = 0)
    (hq : (s.mutexes m).queue = some w) (hw : SleepsOnMutex s w) :
    unlockCall s t async m = none := by
  obtain ⟨-, -, hnull⟩ | ⟨s', r, -, hfree | ⟨-, w', -, -, hw', hawake, -⟩⟩ :=
    unlockCall_cases (m := m) async ht
  · exact hnull
  · rcases hfree.1 with h | h
    · exact absurd hn h
    · rw [h] at hq
      cases hq
  · obtain rfl : w' = w := Option.some_inj.mp (hw'.symm.trans hq)
    exact absurd hw hawake

def HandsOver (s : State τ μ κ) (t : τ) (async : Bool) (m : μ) (l : List τ) : Prop :=
  ∃ s' w l', unlockCall s t async m = some (s', [w]) ∧ (s'.mutexes m).holder = some w ∧
    w ∈ l ∧ Sleepers s'.threads (s'.mutexes m).queue l' ∧ l'.Perm (l.erase w)

theorem handsOver_iff {s : State τ μ κ} {t : τ} {m : μ} {l : List τ} (async : Bool)
    (ht : (s.threads t).status = .runnable) (hn : (s.mutexes m).numSpin = 0)
    (hl : Sleepers s.threads (s.mutexes m).queue l) (hne : l ≠ []) :
    HandsOver s t async m l ↔ l.length = 1 ∧ ∀ w ∈ l.head?, ¬ SleepsOnMutex s w := by
  cases l with
  | nil => exact absurd rfl hne
  | cons w l =>
    by_cases hw : SleepsOnMutex s w
    · refine iff_of_false ?_ fun h => h.2 w rfl hw
      rintro ⟨s', w', l', hcall, -⟩
      rw [unlockCall_null async ht hn hl.entry hw] at hcall
      cases hcall
    · obtain ⟨s', hcall, hholder, hring, -⟩ := unlockCall_handOff async ht hn hl hw
      cases l with
      | nil =>
        refine iff_of_true ⟨s', w, [], hcall, hholder, by simp, hring, by simp⟩ ⟨rfl, ?_⟩
        rintro _ ⟨⟩
        exact hw
      | cons x l =>
        refine iff_of_false ?_ (by simp)
        rintro ⟨s'', w', l', hcall', -, -, hring', hperm⟩
        rw [hcall] at hcall'
        cases hcall'
        -- the woken thread is still the entry of the ring
        have hhead : l'.head? = some w := hring'.entry.symm.trans hring.entry
        have hmem : w ∈ (w :: x :: l).erase w := hperm.subset (List.mem_of_mem_head? hhead)
        rw [List.erase_cons_head] at hmem
        exact (List.nodup_cons.mp hl.nodup).1 hmem

omit [DecidableEq μ] [DecidableEq κ] in
theorem Sleepers.eq_singleton {threads : τ → Thread τ μ κ} {queue : Option τ} {l : List τ} {w : τ}
    (h : Sleepers threads queue l) (hq : queue = some w) (hw : (threads w).queueNext = some w) :
    l = [w] := by
  have hhead := h.entry.symm.trans hq
  cases l with
  | nil => cases hhead
  | cons x l =>
    obtain rfl : x = w := Option.some_inj.mp hhead
    cases l with
    | nil => rfl
    | cons y l =>
      have hnext : threadNext.get threads (some x) = some y := h.ring.next_head
      have hxy : x = y := Option.some_inj.mp (hw.symm.trans hnext)
      exact absurd h.nodup (by simp [hxy])

structure History (τ μ κ : Type) where
  state : State τ μ κ
  slept : τ → ℕ
  woken : τ → ℕ

inductive QueueEvent (τ : Type) where
  | sleep (t : τ)
  | unlock (t : τ) (async : Bool)

/-- `lock_sleep` is called for the running thread, which waits for `m`. -/
def queueStep (m : μ) (h : History τ μ κ) : QueueEvent τ → Option (History τ μ κ)
  | .sleep t =>
    if (h.state.threads t).status = .runnable ∧ (h.state.threads t).waitType = .mutex ∧
        (h.state.threads t).waitObj = .mutex m then
      (sleepCall h.state t).map fun r =>
        ⟨r.1, Function.update h.slept t (h.slept t + 1), fun u => h.woken u + r.2.count u⟩
    else none
  | .unlock t async =>
    if (h.state.threads t).status = .runnable then
      (unlockCall h.state t async m).map fun r =>
        ⟨r.1, h.slept, fun u => h.woken u + r.2.count u⟩
    else none

structure Accounted (m : μ) (h : History τ μ κ) (l : List τ) : Prop where
  ring : Sleepers h.state.threads (h.state.mutexes m).queue l
  asleep : ∀ t ∈ l, SleepsOnMutex h.state t
  count : ∀ t, h.slept t = h.woken t + if t ∈ l then 1 else 0

/-- `lock_sleep` up to the boost of the holder. -/
def fallAsleep (s : State τ μ κ) (t : τ) (m : μ) : State τ μ κ :=
  let s := (s.setMutex m fun mx => { mx with numSpin := mx.numSpin - 1 }).setThread t
    fun th => { th with counted := none }
  let q := threadQueueInsert s.threads (s.mutexes m).queue t
  (({ s with threads := q.1 }).setMutex m fun mx =>
      { mx with queue := q.2, priCount := mx.priCount + (s.threads t).softPriority }).setThread t
    fun th => { th with status := .intSleep, useReentry := true }

/-- `lock_sleep` before the thread is put into the queue. -/
def stopsSpinning (s : State τ μ κ) (t : τ) (m : μ) : State τ μ κ :=
  (s.setMutex m fun mx => { mx with numSpin := mx.numSpin - 1 }).setThread t
    fun th => { th with counted := none }

theorem sleepCall_cases {s s' : State τ μ κ} {t : τ} {r : List τ}
    (h : sleepCall s t = some (s', r)) : r = [] ∧ ∃ m, (s.threads t).waitObj = .mutex m ∧
      (((fallAsleep s t m).mutexes m).holder = none ∧ s' = fallAsleep s t m ∨
      ∃ h, ((fallAsleep s t m).mutexes m).holder = some h ∧
        threadAdjustPriority walkBound (fallAsleep s t m) h
          ((fallAsleep s t m).threads t).softPriority = some s') := by
  cases hobj : (s.threads t).waitObj with
  | mutex m =>
    have h₁ : perform s t none .lockSleep = some (stopsSpinning s t m,
        [.enqueue m, .sleepStatus, .boostHolder m]) := by
      simp only [perform, hobj, stopsSpinning]
    rw [sleepCall, runCode_cons h₁ (by simp), List.append_nil, runCode_cons rfl (by simp),
      List.nil_append, runCode_cons rfl (by simp), List.nil_append] at h
    obtain ⟨⟨s₁, code⟩, hp, h⟩ := Option.bind_eq_some_iff.mp h
    have hp : perform (fallAsleep s t m) t none (.boostHolder m) = some (s₁, code) := hp
    obtain ⟨rfl, hend⟩ := boostHolder_cases hp
    rw [List.nil_append, runCode_nil] at h
    cases h
    exact ⟨rfl, m, rfl, hend⟩
  | none =>
    have h₁ : perform s t none .lockSleep = some (s, [.fault]) := by simp only [perform, hobj]
    rw [sleepCall, runCode_cons h₁ (by simp)] at h
    cases h
  | cond c =>
    have h₁ : perform s t none .lockSleep = some (s, [.fault]) := by simp only [perform, hobj]
    rw [sleepCall, runCode_cons h₁ (by simp)] at h
    cases h

section

omit [DecidableEq κ]

theorem fallAsleep_thread (s : State τ μ κ) (t u : τ) (m : μ) : ∃ a b c d,
    (fallAsleep s t m).threads u = { s.threads u with
      queueNext := a, queueLast := b, counted := c, useReentry := d,
      status := if u = t then .intSleep else (s.threads u).status } := by
  obtain ⟨a, b, hab⟩ := threadQueueInsert_relinked (stopsSpinning s t m).threads
    ((stopsSpinning s t m).mutexes m).queue t u
  rw [stopsSpinning] at hab
  by_cases hu : u = t
  · subst hu
    refine ⟨a, b, none, true, ?_⟩
    simp only [fallAsleep, State.setThread_threads, if_true, State.setMutex_threads]
    rw [hab]
    simp
  · refine ⟨a, b, (s.threads u).counted, (s.threads u).useReentry, ?_⟩
    simp only [fallAsleep, State.setThread_threads, if_neg hu, State.setMutex_threads]
    rw [hab]
    simp [hu]

theorem fallAsleep_mutexes (s : State τ μ κ) (t : τ) (m n : μ) :
    (fallAsleep s t m).mutexes n = if n = m then { s.mutexes m with
      numSpin := (s.mutexes m).numSpin - 1
      queue := some t
      priCount := (s.mutexes m).priCount + (s.threads t).softPriority } else s.mutexes n := by
  have hentry : ∀ threads queue, (threadQueueInsert (μ := μ) (κ := κ) threads queue t).2 = some t :=
    fun threads queue => clistInsert_entry _ _ _
  by_cases hn : n = m <;> simp [fallAsleep, hn, hentry]

theorem Sleepers.spinEnds {s : State τ μ κ} {t : τ} {m : μ} {l : List τ}
    (hl : Sleepers s.threads (s.mutexes m).queue l) :
    Sleepers (stopsSpinning s t m).threads ((stopsSpinning s t m).mutexes m).queue l := by
  have hq : ((stopsSpinning s t m).mutexes m).queue = (s.mutexes m).queue := by
    simp [stopsSpinning]
  rw [hq]
  refine hl.congr fun v _ => ?_
  by_cases hv : v = t <;> simp [stopsSpinning, hv]

theorem fallAsleep_sleepers {s : State τ μ κ} {t : τ} {m : μ} {l : List τ}
    (hl : Sleepers s.threads (s.mutexes m).queue l) (ht : t ∉ l) :
    Sleepers (fallAsleep s t m).threads ((fallAsleep s t m).mutexes m).queue (t :: l) := by
  have hins := (hl.spinEnds (t := t)).insert ht
  have hqueue : ((fallAsleep s t m).mutexes m).queue =
      (threadQueueInsert (stopsSpinning s t m).threads
        ((stopsSpinning s t m).mutexes m).queue t).2 := by
    rw [fallAsleep_mutexes, if_pos rfl]
    exact (clistInsert_entry _ _ _).symm
  rw [hqueue]
  refine hins.congr fun u _ => ?_
  by_cases hu : u = t
  · subst hu
    simp [fallAsleep, stopsSpinning]
  · simp [fallAsleep, hu, stopsSpinning]

end

/-- `lock_sleep` puts its thread at the entry of the ring and wakes nobody. -/
theorem sleepCall_sleepers {s s' : State τ μ κ} {t : τ} {m : μ} {l r : List τ}
    (hobj : (s.threads t).waitObj = .mutex m) (hl : Sleepers s.threads (s.mutexes m).queue l)
    (ht : t ∉ l) (h : sleepCall s t = some (s', r)) :
    r = [] ∧ Sleepers s'.threads (s'.mutexes m).queue (t :: l) ∧
      ∀ u, (s'.threads u).waitType = (s.threads u).waitType ∧
        (s'.threads u).status = if u = t then .intSleep else (s.threads u).status := by
  obtain ⟨rfl, m', hobj', hend⟩ := sleepCall_cases h
  obtain rfl : m = m' := by
    rw [hobj] at hobj'
    cases hobj'
    rfl
  have hq : Quiet m (fallAsleep s t m) s' := by
    obtain ⟨-, rfl⟩ | ⟨x, -, hadj⟩ := hend
    · exact .refl m _
    · exact (threadAdjustPriority_reprioritized hadj).quiet m
  refine ⟨rfl, hq.sleepers (fallAsleep_sleepers hl ht), fun u => ?_⟩
  rw [hq.waitType, (hq.thread u).2.2]
  obtain ⟨a, b, c, d, hu⟩ := fallAsleep_thread s t u m
  rw [hu]
  exact ⟨rfl, rfl⟩

omit [DecidableEq μ] [DecidableEq κ] in
theorem accounted_start {m : μ} {s : State τ μ κ} (hq : (s.mutexes m).queue = none) :
    Accounted m ⟨s, fun _ => 0, fun _ => 0⟩ [] where
  ring := ⟨hq, ring_nil _⟩
  asleep := by simp
  count := by simp

theorem step_preserves_accounted {m : μ} {h h' : History τ μ κ} {e : QueueEvent τ}
    {l : List τ} (hacc : Accounted m h l) (he : queueStep m h e = some h') :
    ∃ l', Accounted m h' l' := by
  cases e with
  | sleep t =>
    simp only [queueStep] at he
    split at he
    · rename_i hen
      obtain ⟨⟨s', r⟩, hcall, rfl⟩ := Option.map_eq_some_iff.mp he
      have ht : t ∉ l := fun hmem => not_sleepsOnMutex_of_runnable hen.1 (hacc.asleep t hmem)
      obtain ⟨rfl, hring, hwait⟩ := sleepCall_sleepers hen.2.2 hacc.ring ht hcall
      refine ⟨t :: l, hring, fun u hu => ?_, fun u => ?_⟩
      · show (s'.threads u).waitType = _ ∧ (s'.threads u).status = _
        rw [(hwait u).1, (hwait u).2]
        by_cases hut : u = t
        · subst hut
          exact ⟨hen.2.1, if_pos rfl⟩
        · rw [if_neg hut]
          exact hacc.asleep u (List.mem_of_ne_of_mem hut hu)
      · have hcount := hacc.count u
        by_cases hu : u = t
        · subst hu
          simpa [ht] using hcount
        · simpa [hu] using hcount
    · cases he
  | unlock t async =>
    simp only [queueStep] at he
    split at he
    · rename_i hen
      obtain ⟨⟨s', r⟩, hcall, rfl⟩ := Option.map_eq_some_iff.mp he
      obtain ⟨-, -, hnull⟩ | ⟨s'', r', hcall', hfree | hhand⟩ := unlockCall_cases (m := m) async hen
      · rw [hcall] at hnull
        cases hnull
      · rw [hcall] at hcall'
        cases hcall'
        obtain ⟨-, rfl, hquiet⟩ := hfree
        refine ⟨l, hquiet.sleepers hacc.ring, fun u hu => ?_, fun u => ?_⟩
        · exact (hquiet.sleepsOnMutex u).mpr (hacc.asleep u hu)
        · simpa using hacc.count u
      · obtain ⟨-, w, -, -, hw, hawake, -⟩ := hhand
        have hmem : w ∈ l := List.mem_of_mem_head? (hacc.ring.entry.symm.trans hw)
        exact absurd (hacc.asleep w hmem) hawake
    · cases he

/-- An unlock that reaches the ring wakes and records the thread that leaves it, and keeps the
others, exactly when the ring holds one thread and this thread does not sleep as `lock_sleep` leaves
it. In a run of `lock_sleep` and unlocks every thread of the ring sleeps so: an unlock that reaches
it has no result, and nobody is ever woken. -/
theorem hand_off_exact (m : μ) :
    (∀ (s : State τ μ κ) (t : τ) (async : Bool) (l : List τ), (s.threads t).status = .runnable →
      (s.mutexes m).numSpin = 0 → Sleepers s.threads (s.mutexes m).queue l → l ≠ [] →
      (HandsOver s t async m l ↔ l.length = 1 ∧ ∀ w ∈ l.head?, ¬ SleepsOnMutex s w)) ∧
    ∀ (s : State τ μ κ) (h : History τ μ κ), (s.mutexes m).queue = none →
      Execution (queueStep m) (fun _ _ => True) ⟨s, fun _ => 0, fun _ => 0⟩ h →
      ∃ l, Sleepers h.state.threads (h.state.mutexes m).queue l ∧
        (∀ t, h.slept t = h.woken t + if t ∈ l then 1 else 0) ∧
        (∀ t, t ∈ l → SleepsOnMutex h.state t) ∧
        ∀ t async, (h.state.threads t).status = .runnable → (h.state.mutexes m).numSpin = 0 →
          l ≠ [] → unlockCall h.state t async m = none := by
  refine ⟨fun s t async l ht hn hl hne => handsOver_iff async ht hn hl hne, ?_⟩
  intro s h hq hrun
  have hacc : ∃ l, Accounted m h l := by
    refine hrun.preserves (I := fun h => ∃ l, Accounted m h l) ?_ ⟨[], accounted_start hq⟩
    rintro h₁ e h₂ ⟨l, hI⟩ - he
    exact step_preserves_accounted hI he
  obtain ⟨l, hl⟩ := hacc
  refine ⟨l, hl.ring, hl.count, hl.asleep, fun t async ht hn hne => ?_⟩
  obtain ⟨w, r, rfl⟩ := List.exists_cons_of_ne_nil hne
  exact unlockCall_null async ht hn hl.ring.entry (hl.asleep w List.mem_cons_self)

def contended (spinners : BitVec 32) : History (Fin 3) Unit Unit where
  state := { start with
    threads := fun t =>
      if t = 0 then idleThread else { idleThread with waitType := .mutex, waitObj := .mutex () }
    mutexes := fun _ => ⟨true, spinners, 0, none, some 0⟩ }
  slept _ := 0
  woken _ := 0

/-- Thread 1 is in the queue, and its `lock_sleep` has not come to its status. -/
def enqueued : State (Fin 3) Unit Unit :=
  { (contended 0).state with
    threads := fun t => if t = 1 then { idleThread with
      waitType := .mutex, waitObj := .mutex (), queueNext := some 1, queueLast := some 1 }
      else idleThread
    mutexes := fun _ => ⟨true, 0, 0, some 1, some 0⟩ }

theorem enqueued_ring : Sleepers enqueued.threads (enqueued.mutexes ()).queue [1] :=
  ⟨rfl, by decide, by decide, by simp [Linked, threadNext, threadLast, enqueued]⟩

/-- The hand-off to a thread that does not sleep yet is exact, and a run in which thread 1 falls
asleep leaves nothing to hand over to. -/
theorem hand_off_exact_one : HandsOver enqueued 0 false () [1] ∧
    ∃ h : History (Fin 3) Unit Unit,
      Execution (queueStep ()) (fun _ _ => True) (contended 1) h ∧ h.slept 1 = h.woken 1 + 1 ∧
        SleepsOnMutex h.state 1 ∧ unlockCall h.state 0 false () = none := by
  constructor
  · refine ((hand_off_exact ()).1 enqueued 0 false [1] rfl rfl enqueued_ring (by simp)).mpr
      ⟨rfl, ?_⟩
    rintro _ ⟨⟩
    decide
  · have hstep : (queueStep () (contended 1) (.sleep 1)).map (fun h => ((h.state.mutexes ()).queue,
        (h.state.threads 1).queueNext, (h.state.threads 0).status, (h.state.mutexes ()).numSpin)) =
        some (some 1, some 1, .runnable, 0) := by decide +kernel
    obtain ⟨h, hh, hfacts⟩ := Option.map_eq_some_iff.mp hstep
    simp only [Prod.mk.injEq] at hfacts
    obtain ⟨hqueue, hnext, hstatus, hspin⟩ := hfacts
    have hrun : Execution (queueStep ()) (fun _ _ => True) (contended 1) h :=
      .tail (e := .sleep 1) (.refl _) trivial hh
    obtain ⟨l, hl, hcount, hasleep, hnull⟩ := (hand_off_exact ()).2 (contended 1).state h rfl hrun
    obtain rfl : l = [1] := hl.eq_singleton hqueue hnext
    exact ⟨h, hrun, by simpa using hcount 1, hasleep 1 (by simp),
      hnull 0 false hstatus hspin (by simp)⟩

/-- Thread 1 sleeps on the mutex, thread 2 lies in its queue, and its status is not written yet. -/
def sleeperAndEnqueued : List (Event (Fin 3) Unit Unit) :=
  .call 0 (.mutexLock ()) :: List.replicate 3 (.exec 0 (some 0)) ++
  .call 1 (.mutexLock ()) :: List.replicate 7 (.exec 1 none) ++
  .call 2 (.mutexLock ()) :: List.replicate 7 (.exec 2 none) ++
  .tick 1 :: List.replicate 6 (.exec 1 none) ++
  .tick 2 :: List.replicate 4 (.exec 2 none)

/-- An unlock that finds one sleeper follows its null `wait_obj`. One that finds the newest thread
of the ring awake wakes it, keeps it in the ring and drops the sleeper. -/
theorem hand_off_drops_sleeper :
    (∃ h : History (Fin 3) Unit Unit,
      Execution (queueStep ()) (fun _ _ => True) (contended 1) h ∧
        Sleepers h.state.threads (h.state.mutexes ()).queue [1] ∧ SleepsOnMutex h.state 1 ∧
        ¬ HandsOver h.state 0 false () [1] ∧ unlockCall h.state 0 false () = none) ∧
    ∃ s : State (Fin 3) Unit Unit, Execution next (fun _ _ => True) start s ∧
      Sleepers s.threads (s.mutexes ()).queue [2, 1] ∧ SleepsOnMutex s 1 ∧
      ¬ HandsOver s 0 false () [2, 1] ∧
      ∃ s', unlockCall s 0 false () = some (s', [2]) ∧ (s'.mutexes ()).holder = some 2 ∧
        Sleepers s'.threads (s'.mutexes ()).queue [2] := by
  constructor
  · have hstep : (queueStep () (contended 1) (.sleep 1)).map (fun h => decide
        ((h.state.mutexes ()).queue = some 1 ∧ (h.state.threads 1).queueNext = some 1 ∧
          (h.state.threads 1).queueLast = some 1 ∧ (h.state.threads 0).status = .runnable ∧
          (h.state.mutexes ()).numSpin = 0 ∧ SleepsOnMutex h.state 1)) = some true := by
      decide +kernel
    obtain ⟨h, hh, hfacts⟩ := Option.map_eq_some_iff.mp hstep
    obtain ⟨hqueue, hnext, hlast, hstatus, hspin, hsleeps⟩ := of_decide_eq_true hfacts
    have hring : Sleepers h.state.threads (h.state.mutexes ()).queue [1] :=
      ⟨hqueue, by decide, by decide, by simp [Linked, threadNext, threadLast, hnext, hlast]⟩
    refine ⟨h, .tail (e := .sleep 1) (.refl _) trivial hh, hring, hsleeps, ?_,
      unlockCall_null false hstatus hspin hqueue hsleeps⟩
    rw [handsOver_iff false hstatus hspin hring (by simp)]
    exact fun hone => hone.2 1 rfl hsleeps
  · have hrun : (follow next (fun _ _ => True) start sleeperAndEnqueued).map (fun s => decide
        ((s.mutexes ()).queue = some 2 ∧ (s.mutexes ()).numSpin = 0 ∧
          (s.threads 0).status = .runnable ∧ (s.threads 1).queueNext = some 2 ∧
          (s.threads 2).queueNext = some 1 ∧ (s.threads 1).queueLast = some 2 ∧
          (s.threads 2).queueLast = some 1 ∧ SleepsOnMutex s 1 ∧ ¬ SleepsOnMutex s 2)) =
        some true := by decide +kernel
    obtain ⟨s, hs, hfacts⟩ := Option.map_eq_some_iff.mp hrun
    obtain ⟨hqueue, hspin, hstatus, hn1, hn2, hl1, hl2, hsleeps, hawake⟩ := of_decide_eq_true hfacts
    have hring : Sleepers s.threads (s.mutexes ()).queue [2, 1] := by
      refine ⟨hqueue, by decide, by decide, ?_⟩
      simp [Linked, threadNext, threadLast, hn1, hn2, hl1, hl2]
    obtain ⟨s', hcall, hholder, hring', -⟩ := unlockCall_handOff false hstatus hspin hring hawake
    refine ⟨s, execution_of_follow hs, hring, hsleeps, ?_, s', hcall, hholder, hring'⟩
    rw [handsOver_iff false hstatus hspin hring (by simp)]
    exact fun hone => absurd hone.1 (by decide)

end Synchronization
