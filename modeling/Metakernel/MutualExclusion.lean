import Metakernel.Synchronization

/-!
# One owner for each mutex

A thread owns a mutex from the moment it sets the lock word, or is handed the mutex, until it
clears the word or hands the mutex on. Nothing here depends on the timer or on the queues.
-/
namespace Synchronization

open GuardedRuns

variable {τ μ κ : Type} [DecidableEq τ] [DecidableEq μ] [DecidableEq κ]

def isRelease (m : μ) : Instr τ μ κ → Bool
  | .testSpin _ n | .testQueue _ n | .unlockSpun n | .unlockFree n => n = m
  | _ => false

def releases (m : μ) (code : List (Instr τ μ κ)) : ℕ := code.countP (isRelease m)

section

omit [DecidableEq τ] [DecidableEq κ]

@[simp] theorem releases_nil (m : μ) : releases m ([] : List (Instr τ μ κ)) = 0 := rfl

theorem releases_cons (m : μ) (i : Instr τ μ κ) (code : List (Instr τ μ κ)) :
    releases m (i :: code) = releases m code + if isRelease m i then 1 else 0 := by
  simp [releases, List.countP_cons]

theorem releases_append (m : μ) (l r : List (Instr τ μ κ)) :
    releases m (l ++ r) = releases m l + releases m r := by simp [releases]

end

inductive OwnershipStep (s : State τ μ κ) (t : τ) (i : Instr τ μ κ) (s' : State τ μ κ)
    (code : List (Instr τ μ κ)) : Prop where
  | keep : (∀ m, (s'.mutexes m).word = (s.mutexes m).word) → s'.owns = s.owns →
      (∀ m, releases m code = releases m [i]) → OwnershipStep s t i s' code
  | acquire (m : μ) : (s.mutexes m).word = false →
      (∀ n, (s'.mutexes n).word = if n = m then true else (s.mutexes n).word) →
      (∀ u n, s'.owns u n = if u = t ∧ n = m then true else s.owns u n) →
      (∀ n, releases n code = 0) → OwnershipStep s t i s' code
  | release (m : μ) : isRelease m i = true →
      (∀ n, (s'.mutexes n).word = if n = m then false else (s.mutexes n).word) →
      (∀ u n, s'.owns u n = if u = t ∧ n = m then false else s.owns u n) →
      (∀ n, releases n code = 0) → OwnershipStep s t i s' code
  | handOff (m : μ) (w : τ) : isRelease m i = true →
      (∀ n, (s'.mutexes n).word = (s.mutexes n).word) →
      (∀ u n, s'.owns u n = if u = w ∧ n = m then true else if u = t ∧ n = m then false
        else s.owns u n) →
      (∀ n, releases n code = 0) → OwnershipStep s t i s' code

section

omit [DecidableEq κ]

theorem acquire_ownership {s : State τ μ κ} {t : τ} {m : μ} {i : Instr τ μ κ}
    {code : List (Instr τ μ κ)} (hw : ¬ (s.mutexes m).word = true)
    (hc : ∀ n, releases n code = 0) : OwnershipStep s t i (acquire s t m) code := by
  refine .acquire m (by simpa using hw) (fun n => ?_) (fun u n => ?_) hc
  · by_cases hn : n = m <;> simp [acquire, hn]
  · simp [acquire]

theorem release_ownership {s : State τ μ κ} {t : τ} {m : μ} {i : Instr τ μ κ}
    (hi : isRelease m i = true) : OwnershipStep s t i (release s t m) [] := by
  refine .release m hi (fun n => ?_) (fun u n => ?_) fun _ => rfl
  · by_cases hn : n = m <;> simp [release, hn]
  · simp [release]

theorem reprioritized_ownership {s s' : State τ μ κ} {t : τ} {i : Instr τ μ κ}
    {code : List (Instr τ μ κ)} (h : Reprioritized s s')
    (hc : ∀ m, releases m code = releases m [i]) : OwnershipStep s t i s' code := by
  refine .keep (fun m => ?_) h.owns hc
  obtain ⟨p, hp⟩ := h.mutex m
  rw [hp]

end

theorem perform_ownership {s s' : State τ μ κ} {t : τ} {stale : Option τ} {i : Instr τ μ κ}
    {code : List (Instr τ μ κ)} (h : perform s t stale i = some (s', code)) :
    OwnershipStep s t i s' code := by
  cases i with
  | adjustPriority w priority =>
    obtain ⟨h₁, rfl⟩ := adjustPriority_cases h
    exact reprioritized_ownership (threadAdjustPriority_reprioritized h₁) fun _ => rfl
  | firstTry m =>
    simp only [perform] at h
    split at h <;> rename_i hw <;> cases h
    · exact .keep (fun _ => rfl) rfl fun _ => rfl
    · exact acquire_ownership hw fun _ => rfl
  | secondTry m =>
    simp only [perform] at h
    split at h <;> rename_i hw <;> cases h
    · exact .keep (fun _ => rfl) rfl fun _ => rfl
    · exact acquire_ownership hw fun _ => rfl
  | spinLock m =>
    simp only [perform] at h
    split at h <;> rename_i hw <;> cases h
    exact acquire_ownership hw fun _ => rfl
  | tryWord m =>
    simp only [perform] at h
    split at h <;> rename_i hw <;> cases h
    · exact .keep (fun _ => rfl) rfl fun _ => rfl
    · exact acquire_ownership hw fun _ => rfl
  | asyncTryWord m =>
    simp only [perform] at h
    split at h <;> rename_i hw <;> cases h
    · exact .keep (fun _ => rfl) rfl fun _ => rfl
    · exact acquire_ownership hw fun _ => rfl
  | testSpin async m =>
    obtain ⟨s₁, h₁, hend⟩ := testSpin_cases h
    have hs₁ : (∀ n, (s₁.mutexes n).word = (s.mutexes n).word) ∧ s₁.owns = s.owns := by
      rcases h₁ with ⟨-, rfl⟩ | ⟨-, h₁⟩
      · exact ⟨fun _ => rfl, rfl⟩
      · have hr := threadAdjustPriority_reprioritized h₁
        refine ⟨fun n => ?_, hr.owns⟩
        obtain ⟨p, hp⟩ := hr.mutex n
        rw [hp]
    rcases hend with ⟨-, rfl, rfl⟩ | ⟨-, rfl, rfl⟩
    · cases async <;> exact .keep hs₁.1 hs₁.2 fun _ => rfl
    · cases async <;> exact .keep hs₁.1 hs₁.2 fun _ => rfl
  | testQueue async m =>
    rcases testQueue_cases h with ⟨w, -, h₁, rfl⟩ | ⟨-, rfl, rfl⟩
    · have hh := handOff_handedOff h₁
      refine .handOff m w (by simp [isRelease]) (fun n => ?_) hh.owns fun _ => rfl
      obtain ⟨p, hp⟩ := hh.mutex n
      rw [hp]
    · cases async <;> exact .keep (fun _ => rfl) rfl fun _ => rfl
  | unlockSpun m =>
    cases h
    exact release_ownership (by simp [isRelease])
  | unlockFree m =>
    cases h
    exact release_ownership (by simp [isRelease])
  | boostHolder m =>
    obtain ⟨rfl, ⟨-, rfl⟩ | ⟨x, -, h₁⟩⟩ := boostHolder_cases h
    · exact .keep (fun _ => rfl) rfl fun _ => rfl
    · exact reprioritized_ownership (threadAdjustPriority_reprioritized h₁) fun _ => rfl
  | detectDeadlock m =>
    obtain ⟨hd, rfl⟩ := detectDeadlock_cases h
    refine .keep (fun _ => rfl) rfl fun n => ?_
    obtain rfl | rfl | rfl | ⟨_, rfl⟩ := detectAt_code hd <;> rfl
  | takeSleeper c =>
    simp only [perform] at h
    split at h
    · cases h
      exact .keep (fun _ => rfl) rfl fun _ => rfl
    · split at h <;> cases h <;> exact .keep (fun _ => rfl) rfl fun _ => rfl
  | staleBoost m =>
    simp only [perform] at h
    split at h <;> cases h
    all_goals refine .keep (fun n => ?_) rfl fun _ => rfl
    all_goals by_cases hn : n = m <;> simp [hn]
  | _ =>
    simp only [perform] at h
    repeat' split at h
    all_goals cases h
    all_goals refine .keep (fun n => ?_) rfl fun _ => rfl
    all_goals first
      | rfl
      | simp only [State.setThread_mutexes, State.setMutex_mutexes]
        split <;> simp [*]

structure Exclusive (s : State τ μ κ) : Prop where
  unique : ∀ t u m, s.owns t m = true → s.owns u m = true → t = u
  word : ∀ m, (s.mutexes m).word = true ↔ ∃ t, s.owns t m = true
  once : ∀ t m, releases m (s.threads t).code ≤ 1
  owner : ∀ t m, releases m (s.threads t).code = 1 → s.owns t m = true

section

omit [DecidableEq τ] [DecidableEq κ]

theorem exclusive_initial {s : State τ μ κ} (h : Initial s) : Exclusive s where
  unique t u m ht := by simp [h.owns] at ht
  word m := by simp [h.mutex, h.owns]
  once t m := by simp [(h.thread t).1]
  owner t m := by simp [(h.thread t).1]

theorem Exclusive.mono {s s' : State τ μ κ} (h : Exclusive s)
    (hw : ∀ m, (s'.mutexes m).word = (s.mutexes m).word) (ho : s'.owns = s.owns)
    (hc : ∀ t m, releases m (s'.threads t).code ≤ releases m (s.threads t).code) :
    Exclusive s' where
  unique := by
    rw [ho]
    exact h.unique
  word m := by
    rw [hw, ho]
    exact h.word m
  once t m := (hc t m).trans (h.once t m)
  owner t m hm := by
    have hle := hc t m
    have hone := h.once t m
    rw [ho]
    exact h.owner t m (by omega)

theorem releases_reenter (m : μ) (code : List (Instr τ μ κ)) :
    releases m (reenter code) ≤ releases m code := by
  unfold reenter
  split
  · simp [releases_cons]
  · simp [releases_cons]
  · simp [releases, isRelease]

end

omit [DecidableEq κ] in
theorem Exclusive.resumed {s : State τ μ κ} {t : τ} {rest : List (Instr τ μ κ)}
    (h : Exclusive (setCode s t rest)) : Exclusive (resumed s t rest) := by
  unfold Synchronization.resumed
  split
  · refine h.mono (fun _ => rfl) rfl fun u m => ?_
    by_cases hu : u = t
    · simpa [setCode, hu] using releases_reenter m rest
    · simp [setCode, hu]
  · exact h

omit [DecidableEq τ] [DecidableEq κ] in
theorem releases_call (m : μ) (c : Call μ κ) :
    releases m (c.code : List (Instr τ μ κ)) = if m ∈ c.unlocks then 1 else 0 := by
  cases c <;> simp [Call.code, mutexLock, mutexTrylock, asyncMutexTrylock, mutexUnlock,
    asyncMutexUnlock, condWait, doWait, condSignal, Call.unlocks, releases_cons, isRelease, eq_comm]

omit [DecidableEq κ] in
theorem Exclusive.call {s : State τ μ κ} {t : τ} {c : Call μ κ} (h : Exclusive s)
    (hown : ∀ m ∈ c.unlocks, s.owns t m = true) : Exclusive (setCode s t c.code) where
  unique := h.unique
  word := h.word
  once u m := by
    by_cases hu : u = t
    · simp only [setCode, State.setThread_threads, hu, if_true, releases_call]
      split <;> omega
    · simpa [setCode, hu] using h.once u m
  owner u m hm := by
    by_cases hu : u = t
    · simp only [setCode, State.setThread_threads, hu, if_true, releases_call] at hm
      split at hm
      · rename_i hmem
        exact hu ▸ hown m hmem
      · cases hm
    · exact h.owner u m (by simpa [setCode, hu] using hm)

omit [DecidableEq τ] [DecidableEq κ] in
/-- The thread that carries out a releasing instruction owns the mutex. -/
theorem Exclusive.releaser {s : State τ μ κ} {t : τ} {i : Instr τ μ κ}
    {rest : List (Instr τ μ κ)} {m : μ} (h : Exclusive s) (hcode : (s.threads t).code = i :: rest)
    (hi : isRelease m i = true) : s.owns t m = true ∧ releases m rest = 0 := by
  have hone := h.once t m
  rw [hcode, releases_cons, if_pos hi] at hone
  refine ⟨h.owner t m ?_, by omega⟩
  rw [hcode, releases_cons, if_pos hi]
  omega

section

omit [DecidableEq κ]

theorem Exclusive.acquired {s s' : State τ μ κ} {t : τ} {m : μ} (h : Exclusive s)
    (hfree : (s.mutexes m).word = false)
    (hw : ∀ n, (s'.mutexes n).word = if n = m then true else (s.mutexes n).word)
    (ho : ∀ u n, s'.owns u n = if u = t ∧ n = m then true else s.owns u n)
    (hc : ∀ u n, releases n (s'.threads u).code ≤ releases n (s.threads u).code) :
    Exclusive s' := by
  have hnone : ∀ u, s.owns u m ≠ true := by
    intro u hu
    have hset := (h.word m).mpr ⟨u, hu⟩
    rw [hfree] at hset
    cases hset
  refine ⟨fun u v n hu hv => ?_, fun n => ?_, fun u n => (hc u n).trans (h.once u n), ?_⟩
  · by_cases hn : n = m
    · subst hn
      have honly : ∀ x, s'.owns x n = true → x = t := by
        intro x hx
        rw [ho] at hx
        split at hx
        · rename_i hxt
          exact hxt.1
        · exact absurd hx (hnone x)
      rw [honly u hu, honly v hv]
    · simp only [ho, hn, and_false, if_false] at hu hv
      exact h.unique u v n hu hv
  · by_cases hn : n = m
    · subst hn
      simp only [hw, if_true, true_iff]
      exact ⟨t, by simp [ho]⟩
    · simp only [hw, ho, hn, and_false, if_false]
      exact h.word n
  · intro u n hone
    have hle := hc u n
    have honce := h.once u n
    have hold := h.owner u n (by omega)
    rw [ho]
    split
    · rfl
    · exact hold

/-- `t` gives `m` up, to `w` or to nobody. -/
theorem Exclusive.passed {s s' : State τ μ κ} {t : τ} {m : μ} {w : Option τ} (h : Exclusive s)
    (hown : s.owns t m = true)
    (hw : ∀ n, (s'.mutexes n).word = if n = m then w.isSome else (s.mutexes n).word)
    (ho : ∀ u n, s'.owns u n = if n = m then decide (some u = w) else s.owns u n)
    (hc : ∀ u n, releases n (s'.threads u).code ≤ releases n (s.threads u).code)
    (ht : releases m (s'.threads t).code = 0) : Exclusive s' := by
  refine ⟨fun u v n hu hv => ?_, fun n => ?_, fun u n => (hc u n).trans (h.once u n), ?_⟩
  · by_cases hn : n = m
    · simp only [ho, hn, if_true, decide_eq_true_eq] at hu hv
      exact Option.some_inj.mp (hu.trans hv.symm)
    · simp only [ho, hn, if_false] at hu hv
      exact h.unique u v n hu hv
  · by_cases hn : n = m
    · simp only [hw, ho, hn, if_true, decide_eq_true_eq, Option.isSome_iff_exists]
      exact exists_congr fun _ => eq_comm
    · simp only [hw, ho, hn, if_false]
      exact h.word n
  · intro u n hone
    have hle := hc u n
    have honce := h.once u n
    have hold := h.owner u n (by omega)
    by_cases hn : n = m
    · -- the only thread that owed an unlock of `m` was `t`
      subst hn
      obtain rfl := h.unique u t n hold hown
      omega
    · simp only [ho, hn, if_false]
      exact hold

theorem Exclusive.perform {s s₁ : State τ μ κ} {t : τ} {i : Instr τ μ κ}
    {rest code : List (Instr τ μ κ)} (h : Exclusive s) (hcode : (s.threads t).code = i :: rest)
    (hs : ∀ u, (s₁.threads u).code = (s.threads u).code) (hstep : OwnershipStep s t i s₁ code) :
    Exclusive (setCode s₁ t (code ++ rest)) := by
  have hself : ((setCode s₁ t (code ++ rest)).threads t).code = code ++ rest := by simp [setCode]
  have hless : (∀ n, releases n code ≤ releases n [i]) → ∀ u n,
      releases n ((setCode s₁ t (code ++ rest)).threads u).code ≤
        releases n (s.threads u).code := by
    intro hle u n
    by_cases hu : u = t
    · subst hu
      have := hle n
      rw [hself, hcode, releases_append, ← List.singleton_append, releases_append]
      omega
    · simp [setCode, hu, hs]
  cases hstep with
  | keep hw ho hrel => exact h.mono hw ho (hless fun n => (hrel n).le)
  | acquire m hfree hw ho hrel => exact h.acquired hfree hw ho (hless fun n => by simp [hrel n])
  | release m hi hw ho hrel =>
    obtain ⟨hown, hrest⟩ := h.releaser hcode hi
    refine h.passed (w := none) hown hw (fun u n => ?_) (hless fun n => by simp [hrel n]) ?_
    · show s₁.owns u n = _
      rw [ho]
      by_cases hn : n = m
      · subst hn
        by_cases hu : u = t
        · simp [hu]
        · simpa [hu] using fun hun => hu (h.unique u t n hun hown)
      · simp [hn]
    · rw [hself, releases_append, hrel, hrest]
  | handOff m w hi hw ho hrel =>
    obtain ⟨hown, hrest⟩ := h.releaser hcode hi
    refine h.passed (w := some w) hown (fun n => ?_) (fun u n => ?_)
      (hless fun n => by simp [hrel n]) ?_
    · by_cases hn : n = m
      · subst hn
        simpa [setCode] using (hw n).trans ((h.word n).mpr ⟨t, hown⟩)
      · simpa [setCode, hn] using hw n
    · show s₁.owns u n = _
      rw [ho]
      by_cases hn : n = m
      · subst hn
        by_cases hu : u = w
        · simp [hu]
        · by_cases hut : u = t
          · subst hut
            simp [hu]
          · simpa [hu, hut] using fun hun => hut (h.unique u t n hun hown)
      · simp [hn]
    · rw [hself, releases_append, hrel, hrest]

end

theorem step_preserves_exclusive {s s' : State τ μ κ} {e : Event τ μ κ} (h : Exclusive s)
    (he : next s e = some s') : Exclusive s' := by
  obtain ⟨t, c, -, -, hown, rfl⟩ | ⟨t, -, -, rfl⟩ |
    ⟨t, stale, i, rest, s₁, code, -, hcode, hp, rfl⟩ := next_cases he
  · exact h.call hown
  · refine h.mono (fun _ => rfl) rfl fun u m => ?_
    by_cases hu : u = t
    · simp [setCode, hu, releases_cons, isRelease]
    · simp [setCode, hu]
  · have hex := h.perform hcode (perform_code hp) (perform_ownership hp)
    split
    · rename_i hi
      subst hi
      have hnil : code = [] := by
        simp only [perform] at hp
        split at hp <;> cases hp
        rfl
      subst hnil
      exact hex.resumed
    · exact hex

/-- In every interleaving of the calls of any number of threads, at most one thread owns a mutex,
and its lock word is set exactly when there is an owner. -/
theorem mutual_exclusion {s₀ s : State τ μ κ} (h₀ : Initial s₀)
    (h : Execution next (fun _ _ => True) s₀ s) (m : μ) :
    (∀ t u, s.owns t m = true → s.owns u m = true → t = u) ∧
      ((s.mutexes m).word = true ↔ ∃ t, s.owns t m = true) := by
  have hex : Exclusive s := h.preserves
    (fun _ _ _ hI _ he => step_preserves_exclusive hI he) (exclusive_initial h₀)
  exact ⟨fun t u => hex.unique t u m, hex.word m⟩

/-- Thread `u` is in the queue for the mutex of `t`, not yet asleep, and is handed the mutex while
its lock word stays set. -/
def passedToQueued (t u : τ) : List (Event τ Unit Unit) :=
  .call t (.mutexLock ()) :: List.replicate 3 (.exec t (some t)) ++
  .call u (.mutexLock ()) :: List.replicate 7 (.exec u none) ++
  .tick u :: List.replicate 4 (.exec u none) ++
  .call t (.mutexUnlock ()) :: List.replicate 5 (.exec t none)

theorem mutual_exclusion_hand_off : ∃ s : State (Fin 2) Unit Unit,
    Execution next (fun _ _ => True) start s ∧ s.owns 1 () = true ∧
      (s.mutexes ()).word = true ∧ ∀ u, s.owns u () = true → u = 1 := by
  have hrun : (follow next (fun _ _ => True) start (passedToQueued (0 : Fin 2) 1)).map
      (fun s => s.owns 1 ()) = some true := by decide +kernel
  obtain ⟨s, hs, hown⟩ := Option.map_eq_some_iff.mp hrun
  have hexec := execution_of_follow hs
  obtain ⟨hone, hword⟩ := mutual_exclusion start_initial hexec ()
  exact ⟨s, hexec, hown, hword.mpr ⟨1, hown⟩, fun u hu => hone u 1 hu hown⟩

end Synchronization
