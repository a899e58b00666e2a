import Mathlib.Data.BitVec
import Metakernel.MutualExclusion
import Metakernel.SpinSleepLock

/-!
# Sleepers of one mutex are not forgotten

Runs of `mutex_lock`, `mutex_unlock` and the timer on one mutex follow the protocol of a lock
whose contenders spin and may be put to sleep, as long as `num_spin` is only lowered by threads
it counts, nobody registers behind the back of an unlock that has found `num_spin` zero, and
`timer_count` does not wrap.
-/
namespace Synchronization

open GuardedRuns SpinSleepLock

variable {τ κ : Type} [DecidableEq τ] [DecidableEq κ]

/-- The thread is inside `sync_check`. -/
def syncChecking (th : Thread τ Unit κ) : Bool :=
  th.code.head?.any fun i => i.inHandler && decide (i ≠ .schedule)

/-- Calls of `mutex_lock` and `mutex_unlock` only, and `sync_check` only while `timer_count` is
zero. -/
def oneMutexRun [Fintype τ] (s : State τ Unit κ) (e : Event τ Unit κ) : Bool :=
  (match e with
    | .call _ c => decide (c = .mutexLock () ∨ c = .mutexUnlock ())
    | _ => true) &&
  match next s e with
  | some s' => decide (∀ t, syncChecking (s'.threads t) = true → s'.timerCount = 0)
  | none => true

/-- Instructions of an unlock that has found `num_spin` zero. -/
def Instr.foundNone {μ : Type} : Instr τ μ κ → Bool
  | .testQueue _ _ | .clearHolder _ | .unlockFree _ => true
  | _ => false

/-- `num_spin` is lowered for a thread it counts, nobody is added to it between the test of an
unlock and the release, and `timer_count` does not wrap. -/
def keepsCount [Fintype τ] (s : State τ Unit κ) : Event τ Unit κ → Bool
  | .exec t _ =>
    match (s.threads t).code.head? with
    | some (.numSpinDec _) | some .lockSleep => decide ((s.threads t).counted = some ())
    | some (.numSpinInc _) => decide (∀ u, ∀ i ∈ (s.threads u).code, i.foundNone = false)
    | some .timerDisable => decide (s.timerCount ≠ 65535)
    | _ => true
  | _ => true

abbrev boostCode : List (Instr τ Unit κ) := [.priorityBoost (), .numSpinDec (), .timerRestore]

abbrev spinCode : List (Instr τ Unit κ) := .spinLock () :: boostCode

abbrev retryCode : List (Instr τ Unit κ) := .secondTry () :: boostCode

/-- The instructions left to a thread that is not interrupted, whether `num_spin` counts it, and
its phase in the protocol. A thread woken from its sleep runs on as if it were counted. -/
inductive Main : Option Unit → List (Instr τ Unit κ) → Phase → Prop where
  | idle : Main none [] .away
  | firstTry : Main none [.firstTry ()] .away
  | staleBoost : Main none [.staleBoost ()] .away
  | staleAdjust (w p) : Main none [.adjustPriority w p] .away
  | staleNull : Main none [.fault] .away
  | setWaitObj : Main none (slowPath ()) .away
  | disable : Main none (.timerDisable :: .setWaitType .mutex :: .numSpinInc () :: retryCode) .away
  | setWaitType : Main none (.setWaitType .mutex :: .numSpinInc () :: retryCode) .busy
  | register : Main none (.numSpinInc () :: retryCode) .busy
  | retry : Main (some ()) retryCode .retry
  | back : Main (some ()) (.timerRestore :: spinCode) .back
  | spin : Main (some ()) spinCode .spin
  | boost : Main (some ()) boostCode .won
  | adjust (w p) : Main (some ()) [.adjustPriority w p, .numSpinDec (), .timerRestore] .won
  | withdraw : Main (some ()) [.numSpinDec (), .timerRestore] .won
  | wokenBoost : Main none boostCode .away
  | wokenAdjust (w p) : Main none [.adjustPriority w p, .numSpinDec (), .timerRestore] .away
  | wokenWithdraw : Main none [.numSpinDec (), .timerRestore] .away
  | restore : Main none [.timerRestore] .busy
  | unlock : Main none [.timerDisable, .testSpin false ()] .away
  | testSpin : Main none [.testSpin false ()] .busy
  | unlockSpun : Main none [.unlockSpun ()] .passing
  | testQueue : Main none [.testQueue false (), .timerRestore] .alone
  | restart (w) : Main none [.restart w, .timerRestore] .busy
  | clearHolder : Main none [.clearHolder (), .unlockFree (), .timerRestore] .freeing
  | unlockFree : Main none [.unlockFree (), .timerRestore] .freeing

inductive At : Option Unit → Bool → List (Instr τ Unit κ) → Phase → Prop where
  | main {c code p} : Main c code p → At c false code p
  | syncCheck {c code p} : Main c code p → At c false (.syncCheck :: .schedule :: code) p
  | detect {c code p} : Main c code p → At c false (.detectDeadlock () :: .schedule :: code) p
  | lockSleep {c code p} : Main c code p → At c false (.lockSleep :: .schedule :: code) p
  | schedule {c code p} : Main c code p → At c false (.schedule :: code) p
  | enqueue : At none false
      (.enqueue () :: .sleepStatus :: .boostHolder () :: .schedule :: spinCode) .leaving
  | sleepStatus : At none false (.sleepStatus :: .boostHolder () :: .schedule :: spinCode) .away
  | boostHolder : At none true (.boostHolder () :: .schedule :: spinCode) .away
  | asleep : At none true (.schedule :: spinCode) .away
  | fault {c code p} : Main c code p → At c false (.fault :: .schedule :: code) p

omit [DecidableEq τ] [DecidableEq κ] in
theorem Main.counted_iff {c : Option Unit} {code : List (Instr τ Unit κ)} {p : Phase}
    (h : Main c code p) : c = some () ↔ p.counted = true := by
  cases h <;> simp [Phase.counted]

omit [DecidableEq τ] [DecidableEq κ] in
theorem At.counted_iff {c : Option Unit} {r : Bool} {code : List (Instr τ Unit κ)} {p : Phase}
    (h : At c r code p) : c = some () ↔ p.counted = true := by
  cases h with
  | main h | syncCheck h | detect h | lockSleep h | schedule h | fault h => exact h.counted_iff
  | _ => simp [Phase.counted]

variable [Fintype τ]

def countedThreads (a : SpinSleepLock.State τ) : Finset τ :=
  Finset.univ.filter fun t => (a.phase t).counted = true

/-- The state `s` of the kernel shows the protocol in the state `a`. -/
structure Refines (s : State τ Unit κ) (a : SpinSleepLock.State τ) : Prop where
  thread : ∀ t, At (s.threads t).counted (s.threads t).useReentry (s.threads t).code (a.phase t)
  waits : ∀ t, (s.threads t).waitType ≠ .cond
  owner : ∀ t, s.owns t () = true ↔ a.owner = some t
  sleepers : a.sleepers = (s.mutexes ()).queue.isSome
  clock : a.clock = s.timerCount.toNat
  numSpin : (s.mutexes ()).numSpin = BitVec.ofNat 32 (countedThreads a).card

theorem card_move (a : SpinSleepLock.State τ) (t : τ) (p : Phase) :
    (countedThreads (a.move t p)).card + (if (a.phase t).counted then 1 else 0) =
      (countedThreads a).card + if p.counted then 1 else 0 := by
  have hrest : (countedThreads (a.move t p)).erase t = (countedThreads a).erase t := by
    ext u
    by_cases hu : u = t <;> simp [countedThreads, hu]
  have hsplit : ∀ b : SpinSleepLock.State τ, (countedThreads b).card =
      ((countedThreads b).erase t).card + if (b.phase t).counted then 1 else 0 := by
    intro b
    split
    · rename_i hb
      exact (Finset.card_erase_add_one (by simpa [countedThreads] using hb)).symm
    · rename_i hb
      rw [Finset.erase_eq_of_notMem (by simpa [countedThreads] using hb), add_zero]
  rw [hsplit a, hsplit (a.move t p), hrest]
  simp only [move_phase, if_true]
  omega

omit [Fintype τ] in
/-- A thread that leaves for the queue is inside `sync_check`. -/
theorem At.leaving {th : Thread τ Unit κ}
    (h : At th.counted th.useReentry th.code .leaving) : syncChecking th = true := by
  generalize hc : th.counted = c at h
  generalize hr : th.useReentry = r at h
  generalize hcode : th.code = code at h
  cases h with
  | enqueue => simp [syncChecking, hcode, Instr.inHandler]
  | main h | syncCheck h | detect h | lockSleep h | schedule h | fault h => cases h

omit [DecidableEq τ] [DecidableEq κ] [Fintype τ] in
theorem At.found {c : Option Unit} {r : Bool} {code : List (Instr τ Unit κ)} {p : Phase}
    (h : At c r code p) (hp : p = .alone ∨ p = .freeing) : ∃ i ∈ code, i.foundNone = true := by
  have hmain : ∀ {code : List (Instr τ Unit κ)}, Main c code p →
      ∃ i ∈ code, i.foundNone = true := by
    intro code h
    cases h <;> simp_all [Instr.foundNone]
  cases h with
  | main h => exact hmain h
  | syncCheck h | detect h | lockSleep h | schedule h | fault h =>
    obtain ⟨i, hi, hf⟩ := hmain h
    exact ⟨i, by simp [hi], hf⟩
  | _ => simp at hp

/-- Thread `t` carries out an instruction and is in phase `p` afterwards. -/
theorem Refines.perform {s s₁ : State τ Unit κ} {a a' : SpinSleepLock.State τ} {t : τ} {p : Phase}
    {stale : Option τ} {i : Instr τ Unit κ} {code new : List (Instr τ Unit κ)}
    (h : Refines s a) (hp : perform s t stale i = some (s₁, code)) (hi : ∀ w, i ≠ .awaken w)
    (hself : At (s₁.threads t).counted (s₁.threads t).useReentry new p)
    (hwait : (s₁.threads t).waitType ≠ .cond) (hphase : a'.phase = (a.move t p).phase)
    (howner : ∀ u, s₁.owns u () = true ↔ a'.owner = some u)
    (hsleep : a'.sleepers = (s₁.mutexes ()).queue.isSome)
    (hclock : a'.clock = s₁.timerCount.toNat)
    (hspin : (s₁.mutexes ()).numSpin + (if (a.phase t).counted then 1 else 0) =
      (s.mutexes ()).numSpin + if p.counted then 1 else 0) :
    Refines (setCode s₁ t new) a' := by
  have hother : ∀ u, u ≠ t → Touched (s.threads u) (s₁.threads u) :=
    fun u hu => perform_touched hp hi hu
  refine ⟨fun u => ?_, fun u => ?_, howner, hsleep, hclock, ?_⟩
  · rw [hphase, move_phase]
    by_cases hu : u = t
    · subst hu
      simpa [setCode] using hself
    · obtain ⟨o, x, y, q, st, heq⟩ := hother u hu
      simpa [setCode, hu, heq] using h.thread u
  · by_cases hu : u = t
    · subst hu
      simpa [setCode] using hwait
    · obtain ⟨o, x, y, q, st, heq⟩ := hother u hu
      simpa [setCode, hu, heq] using h.waits u
  · have hcard := card_move a t p
    have hsame : countedThreads a' = countedThreads (a.move t p) := by
      simp [countedThreads, hphase]
    have hbit : ∀ b : Bool, BitVec.ofNat 32 (if b then 1 else 0) = if b then 1 else 0 := by decide
    have hnat := congrArg (BitVec.ofNat 32) hcard
    rw [BitVec.ofNat_add, BitVec.ofNat_add, hbit, hbit, ← h.numSpin, ← hspin] at hnat
    show (s₁.mutexes ()).numSpin = _
    rw [hsame]
    exact ((BitVec.add_left_inj _).mp hnat).symm

theorem Refines.stutter {s s₁ : State τ Unit κ} {a : SpinSleepLock.State τ} {t : τ}
    {stale : Option τ} {i : Instr τ Unit κ} {code new : List (Instr τ Unit κ)}
    (h : Refines s a) (hp : Synchronization.perform s t stale i = some (s₁, code))
    (hi : ∀ w, i ≠ .awaken w)
    (hself : At (s₁.threads t).counted (s₁.threads t).useReentry new (a.phase t))
    (hwait : (s₁.threads t).waitType ≠ .cond) (howns : s₁.owns = s.owns)
    (hqueue : (s₁.mutexes ()).queue = (s.mutexes ()).queue)
    (hclock : s₁.timerCount = s.timerCount)
    (hspin : (s₁.mutexes ()).numSpin = (s.mutexes ()).numSpin) :
    Refines (setCode s₁ t new) a := by
  refine h.perform hp hi hself hwait ?_ ?_ ?_ ?_ ?_
  · funext u
    by_cases hu : u = t <;> simp [hu]
  · rw [howns]
    exact h.owner
  · rw [hqueue]
    exact h.sleepers
  · rw [hclock]
    exact h.clock
  · rw [hspin]

omit [DecidableEq τ] [DecidableEq κ] in
theorem Refines.free {s : State τ Unit κ} {a : SpinSleepLock.State τ} (h : Refines s a)
    (hex : Exclusive s) (hw : ¬ (s.mutexes ()).word = true) : a.owner = none := by
  cases ho : a.owner with
  | none => rfl
  | some u => exact absurd ((hex.word ()).mpr ⟨u, (h.owner u).mpr ho⟩) hw

omit [DecidableEq τ] [DecidableEq κ] in
theorem Refines.taken {s : State τ Unit κ} {a : SpinSleepLock.State τ} (h : Refines s a)
    (hex : Exclusive s) (hw : (s.mutexes ()).word = true) : a.owner ≠ none := by
  obtain ⟨u, hu⟩ := (hex.word ()).mp hw
  rw [(h.owner u).mp hu]
  simp

omit [DecidableEq κ] in
theorem Refines.acquired {s : State τ Unit κ} {a : SpinSleepLock.State τ} (h : Refines s a)
    (ho : a.owner = none) (t u : τ) : (acquire s t ()).owns u () = true ↔ some t = some u := by
  have hnone : s.owns u () ≠ true := by
    rw [Ne, h.owner u, ho]
    simp
  simp [acquire, hnone, eq_comm]

omit [DecidableEq κ] in
theorem Refines.released {s : State τ Unit κ} {a : SpinSleepLock.State τ} (h : Refines s a)
    {t : τ} (ho : a.owner = some t) (u : τ) :
    (release s t ()).owns u () = true ↔ none = some u := by
  by_cases hu : u = t
  · simp [release, hu]
  · have hnone : s.owns u () ≠ true := by
      rw [Ne, h.owner u, ho]
      simpa using Ne.symm hu
    simp [release, hu, hnone]

omit [DecidableEq τ] in
theorem card_countedThreads_lt (few : Fintype.card τ < 2 ^ 32) (a : SpinSleepLock.State τ) :
    (countedThreads a).card < 2 ^ 32 :=
  (Finset.card_le_univ _).trans_lt few

omit [DecidableEq κ] [DecidableEq τ] in
/-- `num_spin` is zero exactly when nobody is counted. -/
theorem Refines.numSpin_eq_zero {s : State τ Unit κ} {a : SpinSleepLock.State τ}
    (h : Refines s a) (few : Fintype.card τ < 2 ^ 32) :
    (s.mutexes ()).numSpin = 0 ↔ ∀ u, (a.phase u).counted = false := by
  have hlt := card_countedThreads_lt few a
  rw [h.numSpin]
  constructor
  · intro hz u
    have hcard : (countedThreads a).card = 0 := by
      have hnat := congrArg BitVec.toNat hz
      rw [BitVec.toNat_ofNat, Nat.mod_eq_of_lt hlt] at hnat
      exact hnat
    have hempty := Finset.card_eq_zero.mp hcard
    have hu : u ∉ countedThreads a := by simp [hempty]
    simpa [countedThreads] using hu
  · intro hall
    have hempty : countedThreads a = ∅ := by
      ext u
      simp [countedThreads, hall u]
    simp [hempty]

theorem Refines.reprioritized {s s₁ : State τ Unit κ} {a : SpinSleepLock.State τ} {t : τ}
    {stale : Option τ} {i : Instr τ Unit κ} {code new : List (Instr τ Unit κ)}
    (h : Refines s a) (hp : Synchronization.perform s t stale i = some (s₁, code))
    (hi : ∀ w, i ≠ .awaken w) (hadj : Reprioritized s s₁)
    (hself : At (s.threads t).counted (s.threads t).useReentry new (a.phase t)) :
    Refines (setCode s₁ t new) a := by
  obtain ⟨q, hq⟩ := hadj.thread t
  obtain ⟨r, hr⟩ := hadj.mutex ()
  refine h.stutter hp hi ?_ ?_ hadj.owns ?_ hadj.timerCount ?_
  · simpa [hq] using hself
  · simpa [hq] using h.waits t
  · simp [hr]
  · simp [hr]

theorem timer_inc {c : BitVec 16} (h : c ≠ 65535) : (c + 1).toNat = c.toNat + 1 := by
  have hlt := c.isLt
  have hne : c.toNat ≠ 65535 := fun he => h (BitVec.eq_of_toNat_eq he)
  rw [BitVec.toNat_add]
  exact Nat.mod_eq_of_lt (by simp; omega)

theorem timer_dec {c : BitVec 16} (h : 0 < c.toNat) : (c - 1).toNat = c.toNat - 1 := by
  have hlt := c.isLt
  rw [BitVec.toNat_sub]
  simp
  omega

omit [DecidableEq κ] [Fintype τ] in
theorem touched_setThread (s : State τ Unit κ) (w t : τ) {f : Thread τ Unit κ → Thread τ Unit κ}
    (hf : Touched (s.threads w) (f (s.threads w))) :
    Touched (s.threads t) ((s.setThread w f).threads t) := by
  by_cases ht : t = w
  · subst ht
    simpa using hf
  · simpa [ht] using .refl _

/-- A thread stops the clock, before it is counted or when it unlocks. -/
theorem Refines.stopsClock {s s₁ : State τ Unit κ} {a : SpinSleepLock.State τ} {t : τ}
    {stale : Option τ} {code new : List (Instr τ Unit κ)} (h : Refines s a)
    (hp : Synchronization.perform s t stale .timerDisable = some (s₁, code))
    (hself : At (s.threads t).counted (s.threads t).useReentry new .busy)
    (hq : a.phase t = .away) (hleave : ∀ u, a.phase u ≠ .leaving) (hmax : s.timerCount ≠ 65535) :
    ∃ a', Step a t a' ∧ Refines (setCode s₁ t new) a' := by
  have hperf := hp
  cases hp
  refine ⟨_, .stop hq hleave, h.perform hperf (by simp) (p := .busy) hself (h.waits t) rfl h.owner
    h.sleepers ?_ ?_⟩
  · rw [timer_inc hmax, ← h.clock]
  · simp [hq, Phase.counted]

theorem Refines.wins {s : State τ Unit κ} {a : SpinSleepLock.State τ} {t : τ} {stale : Option τ}
    {i : Instr τ Unit κ} {code new : List (Instr τ Unit κ)} (h : Refines s a)
    (hp : Synchronization.perform s t stale i = some (acquire s t (), code))
    (hi : ∀ w, i ≠ .awaken w)
    (hself : At (s.threads t).counted (s.threads t).useReentry new .won)
    (hq : a.phase t = .retry ∨ a.phase t = .spin) (ho : a.owner = none) :
    ∃ a', Step a t a' ∧ Refines (setCode (acquire s t ()) t new) a' := by
  refine ⟨_, .win hq ho, h.perform hp hi (p := .won) ?_ ?_ rfl (h.acquired ho t) ?_ h.clock ?_⟩
  · simpa [acquire] using hself
  · simpa [acquire] using h.waits t
  · simpa [acquire] using h.sleepers
  · rcases hq with hq | hq <;> simp [acquire, hq, Phase.counted]

/-- An unlock passes the lock word on to whoever is counted, and goes on to the queue if nobody
is. -/
theorem Refines.testsSpin {s s₁ : State τ Unit κ} {a : SpinSleepLock.State τ} {t : τ}
    {stale : Option τ} {code : List (Instr τ Unit κ)} (few : Fintype.card τ < 2 ^ 32)
    (h : Refines s a)
    (hp : Synchronization.perform s t stale (.testSpin false ()) = some (s₁, code))
    (hc : (s.threads t).counted = none) (hr : (s.threads t).useReentry = false)
    (hq : a.phase t = .busy) (ho : a.owner = some t) :
    ∃ a', Step a t a' ∧ Refines (setCode s₁ t code) a' := by
  have hperf := hp
  have hw := h.waits t
  obtain ⟨s₂, ⟨⟨⟩, -⟩ | ⟨-, h₂⟩, hend⟩ := testSpin_cases hp
  have hadj := threadAdjustPriority_reprioritized h₂
  obtain ⟨x, hx⟩ := hadj.thread t
  obtain ⟨y, hy⟩ := hadj.mutex ()
  have howns : ∀ u, s₂.owns u () = true ↔ a.owner = some u := by
    rw [hadj.owns]
    exact h.owner
  rcases hend with ⟨hn, rfl, rfl⟩ | ⟨hn, rfl, rfl⟩
  · have hsome : ∃ u, (a.phase u).counted = true := by
      by_contra hcon
      exact hn ((h.numSpin_eq_zero few).mpr (by simpa using hcon))
    refine ⟨_, .pass hq ho hsome, h.perform hperf (by simp) (p := .passing) ?_ ?_ rfl howns ?_ ?_
      ?_⟩
    · simp only [hx, hc, hr]
      exact .main .unlockSpun
    · simpa [hx] using hw
    · simpa [hy] using h.sleepers
    · simpa [hadj.timerCount] using h.clock
    · simp [hy, hq, Phase.counted]
  · have hnone := (h.numSpin_eq_zero few).mp hn
    refine ⟨_, .lonely hq ho hnone, h.perform hperf (by simp) (p := .alone) ?_ ?_ rfl howns ?_ ?_
      ?_⟩
    · simp only [hx, hc, hr]
      exact .main .testQueue
    · simpa [hx] using hw
    · simpa [hy] using h.sleepers
    · simpa [hadj.timerCount] using h.clock
    · simp [hy, hq, Phase.counted]

/-- An unlock that nobody contends for hands the mutex to a sleeper, or goes on to free it. -/
theorem Refines.testsQueue {s s₁ : State τ Unit κ} {a : SpinSleepLock.State τ} {t : τ}
    {stale : Option τ} {code : List (Instr τ Unit κ)} (h : Refines s a)
    (hp : Synchronization.perform s t stale (.testQueue false ()) = some (s₁, code))
    (hc : (s.threads t).counted = none) (hr : (s.threads t).useReentry = false)
    (hq : a.phase t = .alone) (ho : a.owner = some t) :
    ∃ a', Step a t a' ∧ Refines (setCode s₁ t (code ++ [.timerRestore])) a' := by
  have hperf := hp
  have hw := h.waits t
  rcases testQueue_cases hp with ⟨w, hqueue, h₂, rfl⟩ | ⟨hqueue, rfl, rfl⟩
  · have hh := handOff_handedOff h₂
    obtain ⟨x, y, z, hx⟩ := hh.thread t
    obtain ⟨y', hy⟩ := hh.mutex ()
    refine ⟨_, .handOff w (s₁.mutexes ()).queue.isSome hq, h.perform hperf (by simp)
      (p := .busy) ?_ ?_ rfl ?_ rfl ?_ ?_⟩
    · simp only [hx, hc, hr]
      exact .main (.restart w)
    · simpa [hx] using hw
    · intro u
      have hold := h.owner u
      rw [hh.owns]
      by_cases huw : u = w
      · simp [huw]
      · by_cases hut : u = t
        · subst hut
          simpa [huw] using Ne.symm huw
        · simpa [huw, hut, ho, Ne.symm huw, Ne.symm hut] using hold
    · simpa [hh.timerCount] using h.clock
    · simp [hy, hq, Phase.counted]
  · refine ⟨_, .empty hq ?_, h.perform hperf (by simp) (p := .freeing) ?_ hw rfl
      h.owner h.sleepers h.clock ?_⟩
    · rw [h.sleepers, hqueue]
      rfl
    · simp only [Bool.false_eq_true, if_false, hc, hr]
      exact .main .clearHolder
    · simp [hq, Phase.counted]

/-- One instruction of a thread outside of the handler is a step of the protocol, or none. -/
theorem main_step {s s₁ : State τ Unit κ} {a : SpinSleepLock.State τ} {t : τ}
    {stale : Option τ} {i : Instr τ Unit κ} {rest code : List (Instr τ Unit κ)}
    (hR : Refines s a) (hS : Safe a) (hex : Exclusive s) (few : Fintype.card τ < 2 ^ 32)
    (hcode : (s.threads t).code = i :: rest)
    (hA : At (s.threads t).counted (s.threads t).useReentry (s.threads t).code (a.phase t))
    (hin : ¬ i.inHandler = true) (hg : keepsCount s (.exec t stale) = true)
    (hleave : i = .timerDisable → ∀ u, a.phase u ≠ .leaving)
    (hp : perform s t stale i = some (s₁, code)) :
    ∃ a', (a' = a ∨ Step a t a') ∧ Refines (setCode s₁ t (code ++ rest)) a' := by
  have hw := hR.waits t
  have hown : ∀ m, isRelease m i = true → a.owner = some t := by
    intro m hi
    exact (hR.owner t).mp (hex.releaser (m := ()) hcode hi).1
  obtain ⟨hr, hM⟩ : (s.threads t).useReentry = false ∧
      Main (s.threads t).counted (i :: rest) (a.phase t) := by
    rw [hcode] at hA
    generalize (s.threads t).counted = c at hA ⊢
    generalize (s.threads t).useReentry = r at hA ⊢
    generalize a.phase t = q at hA ⊢
    cases hA with
    | main hM => exact ⟨rfl, hM⟩
    | fault hM => cases hp
    | _ => exact absurd rfl hin
  simp only [keepsCount, hcode, List.head?_cons] at hg
  have hperf := hp
  generalize hc : (s.threads t).counted = c at hM
  generalize hq : a.phase t = q at hM
  cases hM with
  | firstTry =>
    simp only [perform] at hp
    split at hp <;> rename_i hword <;> cases hp
    · refine ⟨a, Or.inl rfl, hR.stutter hperf (by simp) ?_ hw rfl rfl rfl rfl⟩
      rw [hc, hr, hq]
      exact .main .setWaitObj
    · have ho := hR.free hex hword
      refine ⟨{ a with owner := some t }, Or.inr (.take hq ho), hR.perform hperf (by simp)
        (p := .away) ?_ hw ?_ (hR.acquired ho t) hR.sleepers hR.clock ?_⟩
      · simp only [acquire, State.setOwns_threads, State.setMutex_threads, hc, hr]
        exact .main .staleBoost
      · funext u
        by_cases hu : u = t <;> simp [hu, hq]
      · simp [acquire, hq]
  | staleBoost =>
    simp only [perform] at hp
    split at hp <;> cases hp
    · rename_i x
      obtain ⟨o, y, z, p, st, heq⟩ := touched_setThread
        (s.setMutex () fun mx => { mx with holder := some x }) x t
        (f := fun th => { th with waitObj := .none }) ⟨.none, _, _, _, _, rfl⟩
      refine ⟨a, Or.inl rfl, hR.stutter hperf (by simp) ?_ ?_ rfl (by simp) rfl (by simp)⟩
      · rw [heq, hq]
        simp only [State.setMutex_threads, hc, hr]
        exact .main (.staleAdjust x _)
      · rw [heq]
        exact hw
    · refine ⟨a, Or.inl rfl, hR.stutter hperf (by simp) ?_ hw rfl (by simp) rfl (by simp)⟩
      simp only [State.setMutex_threads, hc, hr, hq]
      exact .main .staleNull
  | staleNull => cases hp
  | staleAdjust w p =>
    obtain ⟨h₂, rfl⟩ := adjustPriority_cases hp
    refine ⟨a, Or.inl rfl, hR.reprioritized hperf (by simp)
      (threadAdjustPriority_reprioritized h₂) ?_⟩
    rw [hc, hr, hq]
    exact .main .idle
  | setWaitObj =>
    cases hp
    refine ⟨a, Or.inl rfl, hR.stutter hperf (by simp) ?_ (by simpa using hw) rfl rfl rfl rfl⟩
    simp only [State.setThread_threads, if_true, hc, hr, hq]
    exact .main .disable
  | disable =>
    cases hp
    obtain ⟨a', hstep, href⟩ := hR.stopsClock hperf (by rw [hc, hr]; exact .main .setWaitType) hq
      (hleave rfl) (by simpa using hg)
    exact ⟨a', Or.inr hstep, href⟩
  | setWaitType =>
    cases hp
    refine ⟨a, Or.inl rfl, hR.stutter hperf (by simp) ?_ (by simp) rfl rfl rfl rfl⟩
    simp only [State.setThread_threads, if_true, hc, hr, hq]
    exact .main .register
  | register =>
    cases hp
    have hnone : ∀ u, a.phase u ≠ .alone ∧ a.phase u ≠ .freeing := by
      intro u
      have hu : ∀ i ∈ (s.threads u).code, i.foundNone = false := by
        simp only [decide_eq_true_eq] at hg
        exact hg u
      by_contra hcon
      obtain ⟨i, hi, hf⟩ := (hR.thread u).found (by tauto)
      rw [hu i hi] at hf
      cases hf
    refine ⟨_, Or.inr (.count hq hnone), hR.perform hperf (by simp) (p := .retry) ?_ ?_ rfl
      hR.owner ?_ hR.clock ?_⟩
    · simp only [State.setThread_threads, State.setMutex_threads, if_true, hr]
      exact .main .retry
    · simpa using hw
    · simpa using hR.sleepers
    · simp [hq, Phase.counted]
  | retry =>
    simp only [perform] at hp
    split at hp <;> rename_i hword <;> cases hp
    · refine ⟨_, Or.inr (.lose hq (hR.taken hex hword)), hR.perform hperf (by simp) (p := .back)
        ?_ hw rfl hR.owner hR.sleepers hR.clock ?_⟩
      · rw [hc, hr]
        exact .main .back
      · simp [hq, Phase.counted]
    · obtain ⟨a', hstep, href⟩ := hR.wins hperf (by simp) (by rw [hc, hr]; exact .main .boost)
        (Or.inl hq) (hR.free hex hword)
      exact ⟨a', Or.inr hstep, href⟩
  | back =>
    cases hp
    have hrun := hS.stops_le t
    rw [hq, hR.clock] at hrun
    refine ⟨_, Or.inr (.settle hq), hR.perform hperf (by simp) (p := .spin) ?_ hw rfl hR.owner
      hR.sleepers ?_ ?_⟩
    · simp only [hc, hr]
      exact .main .spin
    · rw [timer_dec (by simp only [Phase.stops] at hrun; omega), ← hR.clock]
    · simp [hq, Phase.counted]
  | spin =>
    simp only [perform] at hp
    split at hp <;> rename_i hword <;> cases hp
    obtain ⟨a', hstep, href⟩ := hR.wins hperf (by simp) (by rw [hc, hr]; exact .main .boost)
      (Or.inr hq) (hR.free hex hword)
    exact ⟨a', Or.inr hstep, href⟩
  | boost =>
    cases hp
    refine ⟨a, Or.inl rfl, hR.stutter hperf (by simp) ?_ (by simpa using hw) rfl (by simp) rfl
      (by simp)⟩
    simp only [State.setThread_threads, State.setMutex_threads, if_true, hc, hr, hq]
    exact .main (.adjust t _)
  | adjust w p =>
    obtain ⟨h₂, rfl⟩ := adjustPriority_cases hp
    refine ⟨a, Or.inl rfl, hR.reprioritized hperf (by simp)
      (threadAdjustPriority_reprioritized h₂) ?_⟩
    rw [hc, hr, hq]
    exact .main .withdraw
  | withdraw =>
    cases hp
    refine ⟨_, Or.inr (.uncount hq), hR.perform hperf (by simp) (p := .busy) ?_ ?_ rfl
      hR.owner ?_ hR.clock ?_⟩
    · simp only [State.setThread_threads, State.setMutex_threads, if_true, hr]
      exact .main .restore
    · simpa using hw
    · simpa using hR.sleepers
    · simp [hq, Phase.counted]
  | wokenBoost =>
    cases hp
    refine ⟨a, Or.inl rfl, hR.stutter hperf (by simp) ?_ (by simpa using hw) rfl (by simp) rfl
      (by simp)⟩
    simp only [State.setThread_threads, State.setMutex_threads, if_true, hc, hr, hq]
    exact .main (.wokenAdjust t _)
  | wokenAdjust w p =>
    obtain ⟨h₂, rfl⟩ := adjustPriority_cases hp
    refine ⟨a, Or.inl rfl, hR.reprioritized hperf (by simp)
      (threadAdjustPriority_reprioritized h₂) ?_⟩
    rw [hc, hr, hq]
    exact .main .wokenWithdraw
  | wokenWithdraw => simp [hc] at hg
  | restore =>
    cases hp
    have hrun := hS.stops_le t
    rw [hq, hR.clock] at hrun
    refine ⟨_, Or.inr (.start hq), hR.perform hperf (by simp) (p := .away) ?_ hw rfl hR.owner
      hR.sleepers ?_ ?_⟩
    · simp only [hc, hr]
      exact .main .idle
    · rw [timer_dec (by simp only [Phase.stops] at hrun; omega), ← hR.clock]
    · simp [hq, Phase.counted]
  | unlock =>
    cases hp
    obtain ⟨a', hstep, href⟩ := hR.stopsClock hperf (by rw [hc, hr]; exact .main .testSpin) hq
      (hleave rfl) (by simpa using hg)
    exact ⟨a', Or.inr hstep, href⟩
  | testSpin =>
    obtain ⟨a', hstep, href⟩ := hR.testsSpin few hp hc hr hq (hown () rfl)
    rw [List.append_nil]
    exact ⟨a', Or.inr hstep, href⟩
  | unlockSpun =>
    cases hp
    have ho := hown () rfl
    refine ⟨_, Or.inr (.clear hq), hR.perform hperf (by simp) (p := .away) ?_ hw rfl
      (hR.released ho) ?_ hR.clock ?_⟩
    · simp only [release, State.setOwns_threads, State.setMutex_threads, hc, hr]
      exact .main .idle
    · simpa [release] using hR.sleepers
    · simp [release, hq, Phase.counted]
  | testQueue =>
    obtain ⟨a', hstep, href⟩ := hR.testsQueue hp hc hr hq (hown () rfl)
    exact ⟨a', Or.inr hstep, href⟩
  | restart w =>
    cases hp
    obtain ⟨o, y, z, p, st, heq⟩ := touched_setThread s w t
      (f := fun th => { th with status := .runnable }) ⟨_, _, _, _, .runnable, rfl⟩
    refine ⟨a, Or.inl rfl, hR.stutter hperf (by simp) ?_ ?_ rfl rfl rfl rfl⟩
    · rw [heq, hq]
      simp only [hc, hr]
      exact .main .restore
    · rw [heq]
      exact hw
  | clearHolder =>
    cases hp
    refine ⟨a, Or.inl rfl, hR.stutter hperf (by simp) ?_ hw rfl (by simp) rfl (by simp)⟩
    simp only [State.setMutex_threads, hc, hr, hq]
    exact .main .unlockFree
  | unlockFree =>
    cases hp
    have ho := hown () rfl
    refine ⟨_, Or.inr (.free hq), hR.perform hperf (by simp) (p := .busy) ?_ hw rfl
      (hR.released ho) ?_ hR.clock ?_⟩
    · simp only [release, State.setOwns_threads, State.setMutex_threads, hc, hr]
      exact .main .restore
    · simpa [release] using hR.sleepers
    · simp [release, hq, Phase.counted]

omit [DecidableEq τ] [DecidableEq κ] [Fintype τ] in
/-- A counted thread that has not stopped the clock is at its spin. -/
theorem Main.spinning {c : Option Unit} {code : List (Instr τ Unit κ)} {p : Phase}
    (h : Main c code p) (hc : c = some ()) (hp : p.stops = 0) : code = spinCode ∧ p = .spin := by
  cases h <;> simp_all [Phase.stops]

/-- The same for one instruction of the interrupt handler before the thread is scheduled again. -/
theorem handler_step {s s₁ : State τ Unit κ} {a : SpinSleepLock.State τ} {t : τ}
    {stale : Option τ} {i : Instr τ Unit κ} {rest code : List (Instr τ Unit κ)}
    (hR : Refines s a) (hS : Safe a) (hcode : (s.threads t).code = i :: rest)
    (hi : i.inHandler = true) (hsched : i ≠ .schedule) (hzero : s.timerCount = 0)
    (hg : keepsCount s (.exec t stale) = true)
    (hp : perform s t stale i = some (s₁, code)) :
    ∃ a', (a' = a ∨ Step a t a') ∧ Refines (setCode s₁ t (code ++ rest)) a' := by
  have hw := hR.waits t
  have hA := hR.thread t
  have hclock : a.clock = 0 := by
    rw [hR.clock, hzero]
    rfl
  rw [hcode] at hA
  simp only [keepsCount, hcode, List.head?_cons] at hg
  have hperf := hp
  generalize hc : (s.threads t).counted = c at hA
  generalize hr : (s.threads t).useReentry = r at hA
  generalize hq : a.phase t = q at hA
  cases hA with
  | main h => cases h <;> simp [Instr.inHandler] at hi
  | schedule h => exact absurd rfl hsched
  | asleep => exact absurd rfl hsched
  | fault h => simp [Instr.inHandler] at hi
  | syncCheck h =>
    simp only [perform] at hp
    split at hp
    · cases hp
      refine ⟨a, Or.inl rfl, hR.stutter hperf (by simp) ?_ hw rfl rfl rfl rfl⟩
      rw [hc, hr, hq]
      exact .schedule h
    · split at hp <;> cases hp <;>
        refine ⟨a, Or.inl rfl, hR.stutter hperf (by simp) ?_ hw rfl rfl rfl rfl⟩ <;>
        rw [hc, hr, hq]
      · exact .detect h
      · exact .fault h
    · rename_i hwait
      exact absurd hwait hw
  | detect h =>
    obtain ⟨hd, rfl⟩ := detectDeadlock_cases hp
    refine ⟨a, Or.inl rfl, hR.stutter hperf (by simp) ?_ hw rfl rfl rfl rfl⟩
    rw [hc, hr, hq]
    obtain rfl | rfl | rfl | ⟨_, rfl⟩ := detectAt_code hd
    · exact .schedule h
    · exact .fault h
    · exact .lockSleep h
    · exact .detect h
  | lockSleep h =>
    have hcount : c = some () := by simpa [hc] using hg
    have hstops := (hS.running hclock).1 t
    rw [hq] at hstops
    obtain ⟨rfl, rfl⟩ := h.spinning hcount hstops
    subst hcount
    simp only [perform] at hp
    split at hp <;> cases hp
    · refine ⟨_, Or.inr (.leave hq hclock), hR.perform hperf (by simp) (p := .leaving) ?_ ?_ rfl
        hR.owner ?_ hR.clock ?_⟩
      · simp only [State.setThread_threads, State.setMutex_threads, if_true, hr]
        exact .enqueue
      · simpa using hw
      · simpa using hR.sleepers
      · simp [hq, Phase.counted]
    · refine ⟨a, Or.inl rfl, hR.stutter hperf (by simp) ?_ hw rfl rfl rfl rfl⟩
      rw [hc, hr, hq]
      exact .fault h
  | enqueue =>
    cases hp
    obtain ⟨x, y, hxy⟩ := threadQueueInsert_relinked s.threads (s.mutexes ()).queue t t
    refine ⟨_, Or.inr (.sleep hq), hR.perform hperf (by simp) (p := .away) ?_ ?_ rfl
      hR.owner ?_ hR.clock ?_⟩
    · simp only [State.setMutex_threads, hxy, hc, hr]
      exact .sleepStatus
    · simpa [hxy] using hw
    · simp [threadQueueInsert]
    · simp [hq, Phase.counted]
  | sleepStatus =>
    cases hp
    refine ⟨a, Or.inl rfl, hR.stutter hperf (by simp) ?_ (by simpa using hw) rfl rfl rfl rfl⟩
    simp only [State.setThread_threads, if_true, hc, hq]
    exact .boostHolder
  | boostHolder =>
    have hnew : At (s.threads t).counted (s.threads t).useReentry
        (.schedule :: spinCode : List (Instr τ Unit κ)) (a.phase t) := by
      rw [hc, hr, hq]
      exact .asleep
    obtain ⟨rfl, ⟨-, rfl⟩ | ⟨x, -, h₂⟩⟩ := boostHolder_cases hp
    · exact ⟨a, Or.inl rfl, hR.stutter hperf (by simp) hnew hw rfl rfl rfl rfl⟩
    · exact ⟨a, Or.inl rfl, hR.reprioritized hperf (by simp)
        (threadAdjustPriority_reprioritized h₂) hnew⟩

omit [DecidableEq κ] in
theorem Refines.setCode {s : State τ Unit κ} {a : SpinSleepLock.State τ} {t : τ}
    {new : List (Instr τ Unit κ)} (h : Refines s a)
    (hself : At (s.threads t).counted (s.threads t).useReentry new (a.phase t)) :
    Refines (setCode s t new) a := by
  refine ⟨fun u => ?_, fun u => ?_, h.owner, h.sleepers, h.clock, h.numSpin⟩
  · by_cases hu : u = t
    · subst hu
      simpa [Synchronization.setCode] using hself
    · simpa [Synchronization.setCode, hu] using h.thread u
  · by_cases hu : u = t
    · subst hu
      simpa [Synchronization.setCode] using h.waits u
    · simpa [Synchronization.setCode, hu] using h.waits u

omit [DecidableEq κ] in
theorem Refines.resumed {s : State τ Unit κ} {a : SpinSleepLock.State τ} {t : τ}
    {rest : List (Instr τ Unit κ)} (h : Refines s a)
    (hcode : (s.threads t).code = .schedule :: rest) : Refines (resumed s t rest) a := by
  have hA := h.thread t
  rw [hcode] at hA
  generalize hc : (s.threads t).counted = c at hA
  generalize hr : (s.threads t).useReentry = r at hA
  generalize hq : a.phase t = q at hA
  unfold Synchronization.resumed
  cases hA with
  | main hM => cases hM
  | schedule hM =>
    rw [hr, if_neg (by simp)]
    exact h.setCode (by rw [hc, hr, hq]; exact .main hM)
  | asleep =>
    rw [hr, if_pos rfl]
    refine ⟨fun u => ?_, fun u => ?_, h.owner, h.sleepers, h.clock, h.numSpin⟩
    · by_cases hu : u = t
      · subst hu
        simpa [Synchronization.setCode, hc, hq, reenter] using .main .wokenBoost
      · simpa [Synchronization.setCode, hu] using h.thread u
    · by_cases hu : u = t
      · subst hu
        simpa [Synchronization.setCode] using h.waits u
      · simpa [Synchronization.setCode, hu] using h.waits u

structure Protocol (s : State τ Unit κ) : Prop where
  refined : ∃ a, Refines s a ∧ Safe a
  exclusive : Exclusive s
  quiet : ∀ t, syncChecking (s.threads t) = true → s.timerCount = 0

theorem protocol_initial {s : State τ Unit κ} (h : Initial s) : Protocol s where
  refined := by
    refine ⟨⟨fun _ => .away, none, false, 0⟩, ⟨fun t => ?_, fun t => ?_, fun t => ?_, ?_, ?_, ?_⟩,
      ⟨?_, ?_, ?_, ?_, ?_, ?_, ?_⟩⟩
    · obtain ⟨hcode, -, -, -, hr, hc⟩ := h.thread t
      rw [hcode, hr, hc]
      exact .main .idle
    · simp [(h.thread t).2.1]
    · simp [h.owns]
    · simp [h.mutex]
    · simp [h.timer]
    · simp [h.mutex, countedThreads, Phase.counted]
    · simp [pending, Phase.stops, Phase.waiting]
    all_goals simp [Phase.owning]
  exclusive := exclusive_initial h
  quiet t := by simp [syncChecking, (h.thread t).1]

theorem oneMutexRun_quiet {s s' : State τ Unit κ} {e : Event τ Unit κ}
    (h : oneMutexRun s e = true) (he : next s e = some s') :
    ∀ t, syncChecking (s'.threads t) = true → s'.timerCount = 0 := by
  have hright := (Bool.and_eq_true_iff.mp h).2
  rw [he] at hright
  exact of_decide_eq_true hright

omit [DecidableEq κ] in
theorem Refines.call {s : State τ Unit κ} {a : SpinSleepLock.State τ} {t : τ} {c : Call Unit κ}
    (h : Refines s a) (hcode : (s.threads t).code = [])
    (hc : c = .mutexLock () ∨ c = .mutexUnlock ()) : Refines (Synchronization.setCode s t c.code) a := by
  have hA := h.thread t
  refine h.setCode ?_
  rw [hcode] at hA
  generalize (s.threads t).counted = n at hA ⊢
  generalize (s.threads t).useReentry = r at hA ⊢
  generalize a.phase t = q at hA ⊢
  cases hA with
  | main hM =>
    cases hM
    rcases hc with rfl | rfl
    · exact .main .firstTry
    · exact .main .unlock

omit [DecidableEq κ] in
theorem Refines.tick {s : State τ Unit κ} {a : SpinSleepLock.State τ} {t : τ}
    (h : Refines s a)
    (hhead : ∀ i ∈ (s.threads t).code.head?, i.inHandler = false ∧ i ≠ .fault) :
    Refines (Synchronization.setCode s t (.syncCheck :: .schedule :: (s.threads t).code)) a := by
  have hA := h.thread t
  refine h.setCode ?_
  generalize (s.threads t).counted = n at hA ⊢
  generalize (s.threads t).useReentry = r at hA ⊢
  generalize (s.threads t).code = code at hA hhead ⊢
  generalize a.phase t = q at hA ⊢
  cases hA with
  | main hM => exact .syncCheck hM
  | fault hM => exact absurd rfl (hhead _ rfl).2
  | _ => simp [Instr.inHandler] at hhead

theorem step_preserves_refined {s s' : State τ Unit κ} {e : Event τ Unit κ}
    (few : Fintype.card τ < 2 ^ 32) (h : Protocol s)
    (hone : oneMutexRun s e = true) (hkeep : keepsCount s e = true) (he : next s e = some s') :
    ∃ a, Refines s' a ∧ Safe a := by
  obtain ⟨a, hR, hS⟩ := h.refined
  have hquiet := oneMutexRun_quiet hone he
  obtain ⟨t, c, rfl, hcode, -, rfl⟩ | ⟨t, rfl, hhead, rfl⟩ |
    ⟨t, stale, i, rest, s₁, code, rfl, hcode, hp, rfl⟩ := next_cases he
  · have hc := (Bool.and_eq_true_iff.mp hone).1
    exact ⟨a, hR.call hcode (of_decide_eq_true hc), hS⟩
  · exact ⟨a, hR.tick hhead, hS⟩
  · split at hquiet
    · rename_i hi
      subst hi
      rw [if_pos rfl]
      simp only [perform] at hp
      split at hp <;> cases hp
      exact ⟨a, hR.resumed hcode, hS⟩
    · rename_i hi
      rw [if_neg hi]
      obtain ⟨a', hstep, hR'⟩ : ∃ a', (a' = a ∨ Step a t a') ∧
          Refines (setCode s₁ t (code ++ rest)) a' := by
        by_cases hin : i.inHandler = true
        · have hzero : s.timerCount = 0 := h.quiet t (by simp [syncChecking, hcode, hin, hi])
          exact handler_step hR hS hcode hin hi hzero hkeep hp
        · refine main_step hR hS h.exclusive few hcode (hR.thread t) hin hkeep ?_ hp
          rintro rfl u hu
          cases hp
          have hchk := At.leaving (hu ▸ hR.thread u)
          have hut : u ≠ t := by
            rintro rfl
            simp [syncChecking, hcode, Instr.inHandler] at hchk
          have hone' := hquiet u (by simpa [setCode, hut] using hchk)
          have hzero := h.quiet u hchk
          simp [setCode, hzero] at hone'
      refine ⟨a', hR', ?_⟩
      rcases hstep with rfl | hstep
      · exact hS
      · exact step_preserves_safe hS hstep

theorem step_preserves_protocol {s s' : State τ Unit κ} {e : Event τ Unit κ}
    (few : Fintype.card τ < 2 ^ 32) (h : Protocol s)
    (hone : oneMutexRun s e = true) (hkeep : keepsCount s e = true) (he : next s e = some s') :
    Protocol s' where
  refined := step_preserves_refined few h hone hkeep he
  exclusive := step_preserves_exclusive h.exclusive he
  quiet := oneMutexRun_quiet hone he

/-- Following `queue_next` from `mutex->queue` leads to `t`, which is asleep. -/
def AsleepIn {μ : Type} (s : State τ μ κ) (m : μ) (t : τ) : Prop :=
  (s.threads t).status = .intSleep ∧ ∃ k, (threadNext.get s.threads)^[k] (s.mutexes m).queue = some t

omit [DecidableEq κ] [Fintype τ] in
theorem AsleepIn.queue_ne {μ : Type} {s : State τ μ κ} {m : μ} {t : τ} (h : AsleepIn s m t) :
    (s.mutexes m).queue ≠ none := by
  intro hq
  obtain ⟨-, k, hk⟩ := h
  rw [hq, Function.iterate_fixed (by rfl)] at hk
  cases hk

/-- Threads live at different addresses, none of them null. -/
abbrev ThreadAddress := { a : Fin (2 ^ 32) // a ≠ 0 }

omit [DecidableEq τ] in
theorem card_lt_of_address (address : τ ↪ ThreadAddress) : Fintype.card τ < 2 ^ 32 := by
  have hle := Fintype.card_le_of_embedding address
  have hlt : Fintype.card ThreadAddress < Fintype.card (Fin (2 ^ 32)) :=
    Fintype.card_subtype_lt (x := 0) (by simp)
  rw [Fintype.card_fin] at hlt
  omega

/-- While a thread sleeps in the queue of the mutex, the lock word is set, or an unlock has
cleared it for a thread that `num_spin` counts and that the timer cannot put to sleep. -/
theorem sleeper_has_waker (address : τ ↪ ThreadAddress) {s₀ s : State τ Unit κ} (h₀ : Initial s₀)
    (h : Execution next (fun s e => oneMutexRun s e = true ∧ keepsCount s e = true) s₀ s) {t : τ}
    (ht : AsleepIn s () t) : (s.mutexes ()).word = true ∨
      (s.mutexes ()).numSpin ≠ 0 ∧ s.timerCount ≠ 0 ∧ ∃ u, (s.threads u).counted = some () := by
  have few := card_lt_of_address address
  have hP : Protocol s := h.preserves
    (fun _ _ _ hI hg he => step_preserves_protocol few hI hg.1 hg.2 he) (protocol_initial h₀)
  obtain ⟨a, hR, hS⟩ := hP.refined
  have hsleep : a.sleepers = true := by
    rw [hR.sleepers]
    exact Option.isSome_iff_ne_none.mpr ht.queue_ne
  rcases hS.sleepers_served hsleep with ho | ⟨⟨u, hu⟩, hclock⟩
  · obtain ⟨u, hu⟩ := Option.ne_none_iff_exists'.mp ho
    exact Or.inl ((hP.exclusive.word ()).mpr ⟨u, (hR.owner u).mpr hu⟩)
  · refine Or.inr ⟨fun hz => ?_, fun hz => hclock ?_, u, (hR.thread u).counted_iff.mpr hu⟩
    · rw [(hR.numSpin_eq_zero few).mp hz u] at hu
      cases hu
    · rw [hR.clock, hz]
      rfl

/-- Thread 1 has gone to sleep and thread 2 spins when thread 0 unlocks. -/
def releaseToSpinner : List (Event (Fin 3) Unit Empty) :=
  .call 0 (.mutexLock ()) :: List.replicate 3 (.exec 0 (some 0)) ++
  .call 1 (.mutexLock ()) :: List.replicate 7 (.exec 1 none) ++
  .tick 1 :: List.replicate 6 (.exec 1 none) ++
  .call 2 (.mutexLock ()) :: List.replicate 7 (.exec 2 none) ++
  .call 0 (.mutexUnlock ()) :: List.replicate 3 (.exec 0 none)

def threadAddress : Fin 3 ↪ ThreadAddress :=
  ⟨fun t => ⟨⟨t + 1, by omega⟩, Fin.ne_of_val_ne (Nat.succ_ne_zero _)⟩, by
    intro t u h
    simp only [Subtype.mk.injEq, Fin.mk.injEq] at h
    omega⟩

theorem sleeper_has_waker_spinning : ∃ s : State (Fin 3) Unit Empty,
    Execution next (fun s e => oneMutexRun s e = true ∧ keepsCount s e = true) start s ∧
      AsleepIn s () 1 ∧ (s.mutexes ()).numSpin ≠ 0 ∧ s.timerCount ≠ 0 := by
  have hrun : (follow next (fun s e => oneMutexRun s e = true ∧ keepsCount s e = true) start
      releaseToSpinner).map (fun s => decide ((s.threads 1).status = .intSleep ∧
        (s.mutexes ()).queue = some 1 ∧ (s.mutexes ()).word = false)) = some true := by
    decide +kernel
  obtain ⟨s, hs, hfacts⟩ := Option.map_eq_some_iff.mp hrun
  obtain ⟨hstatus, hqueue, hword⟩ := of_decide_eq_true hfacts
  have hexec := execution_of_follow hs
  have hasleep : AsleepIn s () 1 := ⟨hstatus, 0, hqueue⟩
  rcases sleeper_has_waker threadAddress start_initial hexec hasleep with h | ⟨hn, ht, -⟩
  · rw [hword] at h
    cases h
  · exact ⟨s, hexec, hasleep, hn, ht⟩

/-- A thread sleeps in the queue of a mutex whose lock word is clear. -/
theorem sleeper_on_clear_word : ∃ s : State (Fin 3) Unit Empty,
    Execution next (fun s e => oneMutexRun s e = true) start s ∧ AsleepIn s () 1 ∧
      (s.mutexes ()).word = false := by
  have hrun : (follow next (fun s e => oneMutexRun s e = true) start releaseToSpinner).map
      (fun s => decide ((s.threads 1).status = .intSleep ∧
        (s.mutexes ()).queue = some 1 ∧ (s.mutexes ()).word = false)) = some true := by
    decide +kernel
  obtain ⟨s, hs, hfacts⟩ := Option.map_eq_some_iff.mp hrun
  obtain ⟨hstatus, hqueue, hword⟩ := of_decide_eq_true hfacts
  exact ⟨s, execution_of_follow hs, ⟨hstatus, 0, hqueue⟩, hword⟩

end Synchronization
