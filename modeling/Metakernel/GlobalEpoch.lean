import Metakernel.Scheduler
import Metakernel.GuardedRuns

/-!
# The global epoch

`update_epoch` of thread_sched.c, as `do_epoch` calls it on any number of CPUs, one access to the
shared words after the other. The result is read after the lock has been given back.
-/
namespace GlobalEpoch

open GuardedRuns

inductive Place where
  | outside
  | lock (n : BitVec 32)
  | test (n : BitVec 32)
  | store (n : BitVec 32)
  | unlock (n : BitVec 32)
  | load (n : BitVec 32)
  deriving DecidableEq, Repr

/-- `epoch` is the field of the scheduler of each CPU. -/
structure State (κ : Type*) where
  globalEpoch : BitVec 32
  locked : Bool
  epoch : κ → BitVec 32
  place : κ → Place

inductive Action where
  | doEpoch | lock | test | store | unlock | load
  deriving DecidableEq, Repr

structure Event (κ : Type*) where
  action : Action
  cpu : κ
  deriving DecidableEq, Repr

section Calls

variable {κ : Type*} [DecidableEq κ]

def State.move (s : State κ) (k : κ) (p : Place) : State κ :=
  { s with place := Function.update s.place k p }

def next (s : State κ) (e : Event κ) : Option (State κ) :=
  match e.action, s.place e.cpu with
  | .doEpoch, .outside => some (s.move e.cpu (.lock (s.epoch e.cpu + 1)))
  | .lock, .lock n => if s.locked then none else some { s.move e.cpu (.test n) with locked := true }
  | .test, .test n => some (s.move e.cpu (if s.globalEpoch.ult n then .store n else .unlock n))
  | .store, .store n => some { s.move e.cpu (.unlock n) with globalEpoch := n }
  | .unlock, .unlock n => some { s.move e.cpu (.load n) with locked := false }
  | .load, .load _ =>
    some { s.move e.cpu .outside with epoch := Function.update s.epoch e.cpu s.globalEpoch }
  | _, _ => none

def Step (s : State κ) (e : Event κ) (t : State κ) : Prop := next s e = some t

/-- The schedulers as `sched_static_init` leaves them. -/
def start (κ : Type*) : State κ := ⟨0, false, fun _ => 0, fun _ => .outside⟩

/-- The number of stores to `global_epoch`. -/
def stores (es : List (Event κ)) : ℕ := es.countP fun e => e.action = .store

inductive Moves (s : State κ) (k : κ) : Action → State κ → Prop where
  | doEpoch : s.place k = .outside → Moves s k .doEpoch (s.move k (.lock (s.epoch k + 1)))
  | lock {n} : s.place k = .lock n → s.locked = false →
      Moves s k .lock { s.move k (.test n) with locked := true }
  | testLow {n} : s.place k = .test n → s.globalEpoch < n → Moves s k .test (s.move k (.store n))
  | testHigh {n} : s.place k = .test n → n ≤ s.globalEpoch → Moves s k .test (s.move k (.unlock n))
  | store {n} : s.place k = .store n →
      Moves s k .store { s.move k (.unlock n) with globalEpoch := n }
  | unlock {n} : s.place k = .unlock n →
      Moves s k .unlock { s.move k (.load n) with locked := false }
  | load {n} : s.place k = .load n →
      Moves s k .load { s.move k .outside with epoch := Function.update s.epoch k s.globalEpoch }

variable {s t : State κ} {e : Event κ} {es : List (Event κ)} {o : Option κ} {k j : κ} {a : Action}
  {n : BitVec 32} {p : Place}

theorem Step.moves (h : Step s ⟨a, k⟩ t) : Moves s k a t := by
  simp only [Step, next] at h
  split at h
  · cases h
    exact .doEpoch ‹_›
  · split at h
    · cases h
    · cases h
      exact .lock ‹_› (Bool.eq_false_iff.mpr ‹_›)
  · cases h
    split
    · rename_i hlow
      exact .testLow ‹_› (BitVec.ult_iff_lt.mp hlow)
    · rename_i hhigh
      exact .testHigh ‹_› (BitVec.not_lt.mp (mt BitVec.ult_iff_lt.mpr hhigh))
  · cases h
    exact .store ‹_›
  · cases h
    exact .unlock ‹_›
  · cases h
    exact .load ‹_›
  · cases h

def Place.holds : Place → Bool
  | .test _ | .store _ | .unlock _ => true
  | _ => false

def Place.asked : Place → Option (BitVec 32)
  | .outside => none
  | .lock n | .test n | .store n | .unlock n | .load n => some n

/-- The global epoch is at least `n` when a CPU is done with it, and less when it is about to store. -/
def Place.Agrees (globalEpoch : BitVec 32) : Place → Prop
  | .store n => globalEpoch < n
  | .unlock n | .load n => n ≤ globalEpoch
  | _ => True

structure Invariant (s : State κ) (o : Option κ) : Prop where
  locked : s.locked = o.isSome
  owner : ∀ k, (s.place k).holds = true ↔ o = some k
  behind : ∀ k, s.epoch k ≤ s.globalEpoch
  asked : ∀ k n, (s.place k).asked = some n → n = s.epoch k + 1
  agrees : ∀ k, (s.place k).Agrees s.globalEpoch

omit [DecidableEq κ] in
theorem start_invariant : Invariant (start κ) none := by
  refine ⟨rfl, fun k => ?_, fun k => BitVec.le_refl _, fun k n h => ?_, fun k => trivial⟩
  · simp [start, Place.holds]
  · simp [start, Place.asked] at h

omit [DecidableEq κ] in
theorem Invariant.store_next (h : Invariant s o) (hk : s.place k = .store n) :
    n.toNat = s.globalEpoch.toNat + 1 := by
  have hasked := h.asked k n (by rw [hk]; rfl)
  have hagrees := h.agrees k
  have hbehind := h.behind k
  rw [hk, Place.Agrees] at hagrees
  rw [hasked] at hagrees ⊢
  bv_omega

theorem Invariant.move {o' : Option κ} (h : Invariant s o) (hplace : t.place = Function.update s.place k p)
    (hlocked : t.locked = o'.isSome) (hown : p.holds = true ↔ o' = some k)
    (hothers : ∀ j, j ≠ k → (o' = some j ↔ o = some j)) (hepoch : ∀ j, j ≠ k → t.epoch j = s.epoch j)
    (hbehind : ∀ j, t.epoch j ≤ t.globalEpoch) (hasked : ∀ n, p.asked = some n → n = t.epoch k + 1)
    (hagrees : p.Agrees t.globalEpoch) (hkept : ∀ j, j ≠ k → (s.place j).Agrees t.globalEpoch) :
    Invariant t o' := by
  refine ⟨hlocked, fun j => ?_, hbehind, fun j n hn => ?_, fun j => ?_⟩
  all_goals
    rw [hplace] at *
    by_cases hj : j = k
  · subst hj
    rw [Function.update_self]
    exact hown
  · rw [Function.update_of_ne hj, hothers j hj]
    exact h.owner j
  · subst hj
    rw [Function.update_self] at hn
    exact hasked n hn
  · rw [Function.update_of_ne hj] at hn
    rw [hepoch j hj]
    exact h.asked j n hn
  · subst hj
    rw [Function.update_self]
    exact hagrees
  · rw [Function.update_of_ne hj]
    exact hkept j hj

omit [DecidableEq κ] in
theorem Invariant.raised (h : Invariant s (some k)) {g : BitVec 32} (hg : s.globalEpoch ≤ g) (hj : j ≠ k) :
    (s.place j).Agrees g := by
  have hagrees := h.agrees j
  have hout : ¬ (s.place j).holds = true := by
    rw [h.owner j, Option.some.injEq]
    exact fun heq => hj heq.symm
  cases hplace : s.place j with
  | store n => simp [hplace, Place.holds] at hout
  | unlock n => simp [hplace, Place.holds] at hout
  | load n =>
    rw [hplace] at hagrees
    exact BitVec.le_trans hagrees hg
  | _ => trivial

/-- Only the store changes the global epoch, and only the last read that of a scheduler. -/
theorem Invariant.step (h : Invariant s o) (hs : Step s ⟨a, k⟩ t) : ∃ o', Invariant t o' ∧
    t.globalEpoch.toNat = s.globalEpoch.toNat + (if a = .store then 1 else 0) ∧
    t.epoch = if a = .load then Function.update s.epoch k s.globalEpoch else s.epoch := by
  have hown := h.owner k
  cases hs.moves with
  | doEpoch hk =>
    rw [hk] at hown
    refine ⟨o, h.move rfl h.locked hown (fun _ _ => Iff.rfl) (fun _ _ => rfl) h.behind ?_ trivial
      fun j _ => h.agrees j, rfl, rfl⟩
    rintro n ⟨⟩
    rfl
  | lock hk hfree =>
    rw [h.locked] at hfree
    have hnone : o = none := Option.not_isSome_iff_eq_none.mp (by simp [hfree])
    subst hnone
    refine ⟨some k, h.move rfl rfl (by simp [Place.holds]) ?_ (fun _ _ => rfl) h.behind ?_ trivial
      fun j _ => h.agrees j, rfl, rfl⟩
    · intro j hj
      simpa using Ne.symm hj
    · exact fun n hn => h.asked k n (by rw [hk]; exact hn)
  | testLow hk hlow =>
    rw [hk] at hown
    exact ⟨o, h.move rfl h.locked hown (fun _ _ => Iff.rfl) (fun _ _ => rfl) h.behind
      (fun n hn => h.asked k n (by rw [hk]; exact hn)) hlow fun j _ => h.agrees j, rfl, rfl⟩
  | testHigh hk hhigh =>
    rw [hk] at hown
    exact ⟨o, h.move rfl h.locked hown (fun _ _ => Iff.rfl) (fun _ _ => rfl) h.behind
      (fun n hn => h.asked k n (by rw [hk]; exact hn)) hhigh fun j _ => h.agrees j, rfl, rfl⟩
  | @store n hk =>
    have hone := h.store_next hk
    rw [hk] at hown
    obtain rfl := hown.mp rfl
    have hraise : s.globalEpoch ≤ n := BitVec.le_def.mpr (by omega)
    exact ⟨some k, h.move rfl h.locked hown (fun _ _ => Iff.rfl) (fun _ _ => rfl)
      (fun j => BitVec.le_trans (h.behind j) hraise) (fun n hn => h.asked k n (by rw [hk]; exact hn))
      (BitVec.le_refl _) fun j hj => h.raised hraise hj, hone, rfl⟩
  | unlock hk =>
    have hagrees := h.agrees k
    rw [hk] at hown hagrees
    obtain rfl := hown.mp rfl
    refine ⟨none, h.move rfl rfl (by simp [Place.holds]) ?_ (fun _ _ => rfl) h.behind
      (fun n hn => h.asked k n (by rw [hk]; exact hn)) hagrees fun j _ => h.agrees j, rfl, rfl⟩
    intro j hj
    simpa using Ne.symm hj
  | load hk =>
    rw [hk] at hown
    refine ⟨o, h.move rfl h.locked hown (fun _ _ => Iff.rfl) ?_ ?_ (fun n hn => by cases hn) trivial
      fun j _ => h.agrees j, rfl, rfl⟩
    · exact fun j hj => Function.update_of_ne hj _ _
    · intro j
      simp only [State.move, Function.update_apply]
      split
      · exact BitVec.le_refl _
      · exact h.behind j

omit [DecidableEq κ] in
theorem stores_cons : stores (⟨a, k⟩ :: es) = stores es + if a = .store then 1 else 0 := by
  simp [stores, List.countP_cons]

/-- Along a run the global epoch goes up by the number of stores, and no scheduler falls back. -/
theorem Invariant.run (h : Invariant s o) (hrun : Trace Step s es t) : (∃ o', Invariant t o') ∧
    t.globalEpoch.toNat = s.globalEpoch.toNat + stores es ∧ ∀ k, s.epoch k ≤ t.epoch k := by
  induction hrun generalizing o with
  | nil s => exact ⟨⟨o, h⟩, rfl, fun k => BitVec.le_refl _⟩
  | @cons s u t e es hstep _ ih =>
    obtain ⟨a, k⟩ := e
    obtain ⟨o', h', hglobal, hepoch⟩ := h.step hstep
    obtain ⟨hend, hstores, hup⟩ := ih h'
    refine ⟨hend, by rw [stores_cons]; omega, fun j => BitVec.le_trans ?_ (hup j)⟩
    rw [hepoch]
    split
    · by_cases hj : j = k
      · subst hj
        rw [Function.update_self]
        exact h.behind j
      · rw [Function.update_of_ne hj]
        exact BitVec.le_refl _
    · exact BitVec.le_refl _

theorem Invariant.load (h : Invariant s o) (hs : Step s ⟨.load, k⟩ t) :
    t.epoch k = Scheduler.updateEpoch s.globalEpoch (s.epoch k + 1) ∧ t.epoch k = s.globalEpoch ∧
      (s.epoch k ≠ BitVec.allOnes 32 → s.epoch k < t.epoch k) := by
  obtain ⟨o', h', -, hepoch⟩ := h.step hs
  rw [if_pos rfl] at hepoch
  have hagrees := h.agrees k
  cases hs.moves with
  | load hk =>
    have hasked := h.asked k _ (by rw [hk]; rfl)
    rw [hk, Place.Agrees, hasked] at hagrees
    have hmax : (BitVec.allOnes 32).toNat = 4294967295 := rfl
    simp only [Function.update_self]
    refine ⟨?_, trivial, fun hne => ?_⟩
    · rw [Scheduler.updateEpoch, if_neg]
      intro hlt
      exact absurd (BitVec.ult_iff_lt.mp hlt) (BitVec.not_lt.mpr hagrees)
    · rw [BitVec.lt_def]
      have hlow : (s.epoch k).toNat ≠ 4294967295 := fun h => hne (BitVec.eq_of_toNat_eq (h.trans hmax.symm))
      bv_omega

variable (κ) in
/-- Every store begins the next epoch, so none is skipped and none is begun twice. A scheduler gets an
epoch that no CPU has left behind, and later than its own as long as there is one. -/
theorem epochs_counted (hrun : Trace Step (start κ) es s) :
    s.globalEpoch.toNat = stores es ∧ (∀ k, s.epoch k ≤ s.globalEpoch) ∧
    ∀ es' t u k, Trace Step s es' t → Step t ⟨.load, k⟩ u →
      u.epoch k = Scheduler.updateEpoch t.globalEpoch (t.epoch k + 1) ∧
      (∀ j, s.epoch j ≤ u.epoch k) ∧
      (u.epoch k).toNat = stores es + stores es' ∧
      (t.epoch k ≠ BitVec.allOnes 32 → t.epoch k < u.epoch k) := by
  obtain ⟨⟨o, h⟩, hglobal, -⟩ := start_invariant.run hrun
  have hcount : s.globalEpoch.toNat = stores es := by
    rw [hglobal]
    simp [start]
  refine ⟨hcount, h.behind, fun es' t u k hrun' hload => ?_⟩
  obtain ⟨⟨o', h'⟩, hlater, -⟩ := h.run hrun'
  obtain ⟨hatomic, hread, hup⟩ := h'.load hload
  refine ⟨hatomic, fun j => ?_, by rw [hread, hlater, hcount], hup⟩
  rw [hread]
  refine BitVec.le_trans (h.behind j) (BitVec.le_def.mpr ?_)
  omega

end Calls

theorem trace_of_foldlM {κ : Type*} [DecidableEq κ] {s t : State κ} {es : List (Event κ)}
    (h : es.foldlM next s = some t) : Trace Step s es t := by
  induction es generalizing s with
  | nil =>
    cases h
    exact .nil _
  | cons e es ih =>
    rw [List.foldlM_cons] at h
    obtain ⟨u, hu, ht⟩ := Option.bind_eq_some_iff.mp h
    exact .cons hu (ih ht)

def endTogether : List (Event Bool) :=
  [⟨.doEpoch, true⟩, ⟨.doEpoch, false⟩, ⟨.lock, true⟩, ⟨.test, true⟩, ⟨.store, true⟩, ⟨.unlock, true⟩,
    ⟨.lock, false⟩, ⟨.test, false⟩, ⟨.load, true⟩, ⟨.unlock, false⟩]

theorem epochs_counted_together : ∃ s u, Trace Step (start Bool) endTogether s ∧
    Step s ⟨.load, false⟩ u ∧ u.epoch false = 1 := by
  have hrun : endTogether.foldlM next (start Bool) ≠ none := by decide
  obtain ⟨s, hs⟩ := Option.ne_none_iff_exists'.mp hrun
  have hload : (endTogether.foldlM next (start Bool)).bind (fun s => next s ⟨.load, false⟩) ≠ none := by
    decide
  rw [hs, Option.bind_some] at hload
  obtain ⟨u, hu⟩ := Option.ne_none_iff_exists'.mp hload
  have htrace := trace_of_foldlM hs
  obtain ⟨-, -, hlater⟩ := epochs_counted Bool htrace
  obtain ⟨-, -, hcount, -⟩ := hlater [] s u false (.nil s) hu
  exact ⟨s, u, htrace, hu, BitVec.eq_of_toNat_eq hcount⟩

end GlobalEpoch
