import Mathlib.Data.Fintype.BigOperators
import Mathlib.Algebra.Order.BigOperators.Group.Finset
import Metakernel.PointUpdates

/-!
# A lock whose contenders spin and may be put to sleep

Contenders are counted while they spin. A clock may put a spinning contender to sleep, and
threads stop the clock around what it must not interrupt. The owner gives the lock to a spinner
by clearing it, with the clock left stopped for the spinner to start again; when nobody is
counted it hands the lock to a sleeper, or clears it when there is none.
-/
namespace SpinSleepLock

open PointUpdates

inductive Phase where
  | away | busy | retry | back | spin | won | passing | alone | freeing | leaving
  deriving DecidableEq, Repr

namespace Phase

def counted : Phase → Bool
  | .retry | .back | .spin | .won => true
  | _ => false

/-- The thread relies on whoever clears the lock to stop the clock for it. -/
def waiting : Phase → Bool
  | .back | .spin => true
  | _ => false

theorem not_waiting {p : Phase} (h : p.counted = false) : p.waiting = false := by
  cases p with
  | back | spin => cases h
  | _ => rfl

def owning : Phase → Bool
  | .won | .passing | .alone | .freeing => true
  | _ => false

def stops : Phase → ℕ
  | .away | .spin | .leaving => 0
  | _ => 1

end Phase

structure State (τ : Type*) where
  phase : τ → Phase
  owner : Option τ
  sleepers : Bool
  clock : ℕ

variable {τ : Type*} [DecidableEq τ]

def State.move (a : State τ) (t : τ) (p : Phase) : State τ :=
  { a with phase := Function.update a.phase t p }

/-- Steps of thread `t`. -/
inductive Step (a : State τ) (t : τ) : State τ → Prop where
  | stop : a.phase t = .away → (∀ u, a.phase u ≠ .leaving) →
      Step a t { a.move t .busy with clock := a.clock + 1 }
  | start : a.phase t = .busy → Step a t { a.move t .away with clock := a.clock - 1 }
  | count : a.phase t = .busy → (∀ u, a.phase u ≠ .alone ∧ a.phase u ≠ .freeing) →
      Step a t (a.move t .retry)
  | win : a.phase t = .retry ∨ a.phase t = .spin → a.owner = none →
      Step a t { a.move t .won with owner := some t }
  | lose : a.phase t = .retry → a.owner ≠ none → Step a t (a.move t .back)
  | settle : a.phase t = .back → Step a t { a.move t .spin with clock := a.clock - 1 }
  | uncount : a.phase t = .won → Step a t (a.move t .busy)
  | take : a.phase t = .away → a.owner = none → Step a t { a with owner := some t }
  | pass : a.phase t = .busy → a.owner = some t → (∃ u, (a.phase u).counted = true) →
      Step a t (a.move t .passing)
  | lonely : a.phase t = .busy → a.owner = some t → (∀ u, (a.phase u).counted = false) →
      Step a t (a.move t .alone)
  | clear : a.phase t = .passing → Step a t { a.move t .away with owner := none }
  | handOff (w : τ) (b : Bool) : a.phase t = .alone →
      Step a t { a.move t .busy with owner := some w, sleepers := b }
  | empty : a.phase t = .alone → a.sleepers = false → Step a t (a.move t .freeing)
  | free : a.phase t = .freeing → Step a t { a.move t .busy with owner := none }
  | leave : a.phase t = .spin → a.clock = 0 → Step a t (a.move t .leaving)
  | sleep : a.phase t = .leaving → Step a t { a.move t .away with sleepers := true }

@[simp] theorem move_phase (a : State τ) (t u : τ) (p : Phase) :
    (a.move t p).phase u = if u = t then p else a.phase u := by
  simp [State.move, Function.update_apply]

@[simp] theorem move_owner (a : State τ) (t : τ) (p : Phase) : (a.move t p).owner = a.owner := rfl

@[simp] theorem move_sleepers (a : State τ) (t : τ) (p : Phase) :
    (a.move t p).sleepers = a.sleepers := rfl

@[simp] theorem move_clock (a : State τ) (t : τ) (p : Phase) : (a.move t p).clock = a.clock := rfl

variable [Fintype τ]

def pending (a : State τ) : ℕ :=
  if a.owner = none ∧ ∃ u, (a.phase u).waiting = true then 1 else 0

/-- What holds in every state. The clock is stopped at least once for every thread that has
stopped it, and once more while a spinner may take a cleared lock. -/
structure Safe (a : State τ) : Prop where
  clock : ∑ u, (a.phase u).stops + pending a ≤ a.clock
  owner : ∀ u, (a.phase u).owning = true → a.owner = some u
  passing : ∀ u, a.phase u = .passing → ∃ v, (a.phase v).counted = true
  alone : ∀ u, a.phase u = .alone ∨ a.phase u = .freeing → ∀ v, (a.phase v).counted = false
  freeing : ∀ u, a.phase u = .freeing → a.sleepers = false
  leaving : ∀ u, a.phase u = .leaving → a.owner ≠ none ∧ a.clock = 0
  sleepers : a.sleepers = true → a.owner ≠ none ∨ ∃ v, (a.phase v).counted = true

theorem sum_move (a : State τ) (t : τ) (p : Phase) :
    ∑ u, ((a.move t p).phase u).stops + (a.phase t).stops = ∑ u, (a.phase u).stops + p.stops := by
  have hsum := sum_change (f := fun u => (a.phase u).stops)
    (g := fun u => ((a.move t p).phase u).stops) (i := t) fun u hu => by simp [hu]
  simpa using hsum

omit [DecidableEq τ] in
theorem pending_waiting {a : State τ} {t : τ} (h : a.owner = none)
    (ht : (a.phase t).waiting = true) : pending a = 1 := by
  have hex : ∃ u, (a.phase u).waiting = true := ⟨t, ht⟩
  simp [pending, h, hex]

omit [DecidableEq τ] in
theorem Safe.stops_le {a : State τ} (h : Safe a) (t : τ) :
    (a.phase t).stops + pending a ≤ a.clock := by
  have hle : (a.phase t).stops ≤ ∑ u, (a.phase u).stops :=
    Finset.single_le_sum (f := fun u => (a.phase u).stops) (fun _ _ => Nat.zero_le _)
      (Finset.mem_univ t)
  have := h.clock
  omega

/-! How the clock inequality survives a move of thread `t` to `p`: the owner stays, there is an
owner, or the lock has been cleared. -/

section ClockMoves

variable {a b : State τ} {t : τ} {p : Phase}

theorem Safe.clock_move (h : Safe a) (hb : b.phase = (a.move t p).phase)
    (hle : p.stops + pending b + a.clock ≤ (a.phase t).stops + pending a + b.clock) :
    ∑ u, (b.phase u).stops + pending b ≤ b.clock := by
  have hsum := sum_move a t p
  have hc := h.clock
  rw [hb]
  omega

theorem Safe.clock_same (h : Safe a) (hb : b.phase = (a.move t p).phase) (ho : b.owner = a.owner)
    (hw : p.waiting = true → (a.phase t).waiting = true ∨ a.owner ≠ none)
    (hle : p.stops + a.clock ≤ (a.phase t).stops + b.clock) :
    ∑ u, (b.phase u).stops + pending b ≤ b.clock := by
  have hpend : pending b ≤ pending a := by
    unfold pending
    split
    · rename_i hn
      obtain ⟨hn, u, hu⟩ := hn
      rw [ho] at hn
      rw [hb, move_phase] at hu
      rw [if_pos]
      split at hu
      · exact ⟨hn, t, (hw hu).resolve_right (not_not.mpr hn)⟩
      · exact ⟨hn, u, hu⟩
    · exact Nat.zero_le _
  exact h.clock_move hb (by omega)

theorem Safe.clock_owned (h : Safe a) (hb : b.phase = (a.move t p).phase) (ho : b.owner ≠ none)
    (hle : p.stops + a.clock ≤ (a.phase t).stops + pending a + b.clock) :
    ∑ u, (b.phase u).stops + pending b ≤ b.clock := by
  have hpend : pending b = 0 := by simp [pending, ho]
  exact h.clock_move hb (by omega)

theorem Safe.clock_cleared (h : Safe a) (hb : b.phase = (a.move t p).phase)
    (hle : p.stops + 1 + a.clock ≤ (a.phase t).stops + b.clock ∨
      (∀ u, (b.phase u).waiting = false) ∧ p.stops + a.clock ≤ (a.phase t).stops + b.clock) :
    ∑ u, (b.phase u).stops + pending b ≤ b.clock := by
  rcases hle with hle | ⟨hw, hle⟩
  · have hpend : pending b ≤ 1 := by
      unfold pending
      split <;> omega
    exact h.clock_move hb (by omega)
  · have hpend : pending b = 0 := by simp [pending, hw]
    exact h.clock_move hb (by omega)

end ClockMoves

omit [Fintype τ] in
theorem counted_move {a : State τ} {t : τ} {p : Phase}
    (hp : (a.phase t).counted = true → p.counted = true) (h : ∃ v, (a.phase v).counted = true) :
    ∃ v, ((a.move t p).phase v).counted = true := by
  obtain ⟨v, hv⟩ := h
  refine ⟨v, ?_⟩
  by_cases hvt : v = t
  · subst hvt
    simpa using hp hv
  · simpa [hvt] using hv

omit [DecidableEq τ] in
theorem Safe.no_leaving {a : State τ} {t : τ} (h : Safe a) (ht : 0 < (a.phase t).stops) (u : τ) :
    a.phase u ≠ .leaving := by
  intro hu
  have hstop := h.stops_le t
  have hzero := (h.leaving u hu).2
  omega

omit [DecidableEq τ] in
/-- While the clock runs nobody has stopped it, and a lock with a spinner has an owner. -/
theorem Safe.running {a : State τ} (h : Safe a) (hc : a.clock = 0) :
    (∀ u, (a.phase u).stops = 0) ∧ ∀ u, (a.phase u).waiting = true → a.owner ≠ none := by
  refine ⟨fun u => ?_, fun u hu hn => ?_⟩
  · have := h.stops_le u
    omega
  · have := h.stops_le u
    rw [pending_waiting hn hu] at this
    omega

omit [DecidableEq τ] in
/-- Without an owner, or with `t` as the owner, no other thread is about to give the lock up. -/
theorem Safe.sole {a : State τ} {t : τ} (h : Safe a) (ho : a.owner = none ∨ a.owner = some t) :
    ∀ u, u ≠ t → (a.phase u).owning = false := by
  intro u hu
  by_contra hown
  have howner := h.owner u (by simpa using hown)
  rcases ho with ho | ho
  · rw [ho] at howner
    cases howner
  · rw [ho] at howner
    exact hu (Option.some_inj.mp howner).symm

omit [DecidableEq τ] in
theorem Safe.sole_running {a : State τ} {t : τ} (h : Safe a) (hc : a.clock = 0) :
    ∀ u, u ≠ t → (a.phase u).owning = false := by
  intro u _
  have hzero := (h.running hc).1 u
  cases hq : a.phase u <;> simp_all [Phase.owning, Phase.stops]

/-! The rest of the invariant after a move of thread `t` to `p`: no other thread is about to give the
lock up, or the owner and the sleepers stay. -/

section Moves

variable {a b : State τ} {t : τ} {p : Phase}

omit [Fintype τ] in
theorem moved_self (hb : b.phase = (a.move t p).phase) : b.phase t = p := by
  rw [hb, move_phase, if_pos rfl]

omit [Fintype τ] in
theorem moved_other {u : τ} (hb : b.phase = (a.move t p).phase) (hu : u ≠ t) :
    b.phase u = a.phase u := by
  rw [hb, move_phase, if_neg hu]

theorem Safe.move_sole (h : Safe a) (hb : b.phase = (a.move t p).phase)
    (hclock : ∑ u, (b.phase u).stops + pending b ≤ b.clock)
    (hsole : ∀ u, u ≠ t → (a.phase u).owning = false)
    (howner : p.owning = true → b.owner = some t)
    (hpassing : p = .passing → ∃ v, (b.phase v).counted = true)
    (halone : p = .alone ∨ p = .freeing → ∀ v, (b.phase v).counted = false)
    (hfreeing : p = .freeing → b.sleepers = false)
    (hleaving : p = .leaving → b.owner ≠ none ∧ b.clock = 0)
    (hrest : (∀ u, a.phase u ≠ .leaving) ∨ b.owner ≠ none ∧ b.clock = a.clock)
    (hsleepers : b.sleepers = true → b.owner ≠ none ∨ ∃ v, (b.phase v).counted = true) :
    Safe b := by
  have hself : b.phase t = p := moved_self hb
  have hother : ∀ u, u ≠ t → b.phase u = a.phase u := fun _ hu => moved_other hb hu
  have hmoved : ∀ {u}, (b.phase u).owning = true → u = t := by
    intro u hu
    by_contra hne
    rw [hother u hne, hsole u hne] at hu
    cases hu
  refine ⟨hclock, fun u hu => ?_, fun u hu => ?_, fun u hu => ?_, fun u hu => ?_, fun u hu => ?_,
    hsleepers⟩
  · obtain rfl := hmoved hu
    exact howner (hself ▸ hu)
  · obtain rfl := hmoved (show (b.phase u).owning = true by rw [hu]; rfl)
    exact hpassing (hself.symm.trans hu)
  · obtain rfl := hmoved (show (b.phase u).owning = true by rcases hu with hu | hu <;> rw [hu] <;> rfl)
    rw [hself] at hu
    exact halone hu
  · obtain rfl := hmoved (show (b.phase u).owning = true by rw [hu]; rfl)
    exact hfreeing (hself.symm.trans hu)
  · by_cases hut : u = t
    · subst hut
      exact hleaving (hself.symm.trans hu)
    · rw [hother u hut] at hu
      rcases hrest with hno | ⟨ho, hc⟩
      · exact absurd hu (hno u)
      · exact ⟨ho, hc.trans (h.leaving u hu).2⟩

theorem Safe.move_same (h : Safe a) (hb : b.phase = (a.move t p).phase)
    (hclock : ∑ u, (b.phase u).stops + pending b ≤ b.clock) (ho : b.owner = a.owner)
    (hs : b.sleepers = a.sleepers) (howning : p.owning = false) (hp : p ≠ .leaving)
    (hkept : (a.phase t).counted = true → p.counted = true)
    (hnew : p.counted = true → (a.phase t).counted = true ∨
      ∀ u, a.phase u ≠ .alone ∧ a.phase u ≠ .freeing)
    (hrest : (∀ u, a.phase u ≠ .leaving) ∨ b.clock = a.clock) : Safe b := by
  have hself : b.phase t = p := moved_self hb
  have hother : ∀ u, u ≠ t → b.phase u = a.phase u := fun _ hu => moved_other hb hu
  have hmoved : ∀ {u}, (b.phase u).owning = true → b.phase u = a.phase u := by
    intro u hu
    refine hother u ?_
    rintro rfl
    rw [hself, howning] at hu
    cases hu
  have hcounted : (∃ v, (a.phase v).counted = true) → ∃ v, (b.phase v).counted = true := by
    intro hv
    rw [hb]
    exact counted_move hkept hv
  refine ⟨hclock, fun u hu => ?_, fun u hu => ?_, fun u hu v => ?_, fun u hu => ?_, fun u hu => ?_,
    fun hserved => ?_⟩
  · rw [hmoved hu] at hu
    rw [ho]
    exact h.owner u hu
  · rw [hmoved (by rw [hu]; rfl)] at hu
    exact hcounted (h.passing u hu)
  · rw [hmoved (by rcases hu with hu | hu <;> rw [hu] <;> rfl)] at hu
    by_cases hv : v = t
    · subst hv
      rw [hself]
      by_contra hc
      rcases hnew (by simpa using hc) with hold | hno
      · rw [h.alone u hu v] at hold
        cases hold
      · exact hu.elim (hno u).1 (hno u).2
    · rw [hother v hv]
      exact h.alone u hu v
  · rw [hmoved (by rw [hu]; rfl)] at hu
    rw [hs]
    exact h.freeing u hu
  · rw [hother u fun hut => hp (by rw [← hself, ← hut, hu])] at hu
    rcases hrest with hno | hc
    · exact absurd hu (hno u)
    · rw [ho, hc]
      exact h.leaving u hu
  · rw [hs] at hserved
    rw [ho]
    exact (h.sleepers hserved).imp_right hcounted

end Moves

/-! One lemma for each step. -/

section Steps

variable {a : State τ} {t : τ}

theorem Safe.stop (h : Safe a) (hp : a.phase t = .away) (hl : ∀ u, a.phase u ≠ .leaving) :
    Safe { a.move t .busy with clock := a.clock + 1 } := by
  refine h.move_same rfl (h.clock_same rfl rfl (by simp [Phase.waiting]) ?_) rfl rfl rfl (by simp)
    (by simp [hp, Phase.counted]) (by simp [Phase.counted]) (Or.inl hl)
  simp only [hp, Phase.stops]
  omega

theorem Safe.start (h : Safe a) (hp : a.phase t = .busy) :
    Safe { a.move t .away with clock := a.clock - 1 } := by
  have hstop := h.stops_le t
  have hrun := h.no_leaving (t := t) (by simp [hp, Phase.stops])
  refine h.move_same rfl (h.clock_same rfl rfl (by simp [Phase.waiting]) ?_) rfl rfl rfl (by simp)
    (by simp [hp, Phase.counted]) (by simp [Phase.counted]) (Or.inl hrun)
  simp only [hp, Phase.stops] at hstop ⊢
  omega

theorem Safe.count (h : Safe a) (hp : a.phase t = .busy)
    (hno : ∀ u, a.phase u ≠ .alone ∧ a.phase u ≠ .freeing) :
    Safe (a.move t .retry) :=
  h.move_same rfl (h.clock_same rfl rfl (by simp [Phase.waiting]) (by simp [hp, Phase.stops])) rfl
    rfl rfl (by simp) (by simp [hp, Phase.counted]) (fun _ => Or.inr hno) (Or.inr rfl)

theorem Safe.win (h : Safe a) (hp : a.phase t = .retry ∨ a.phase t = .spin) (hn : a.owner = none) :
    Safe { a.move t .won with owner := some t } := by
  refine h.move_sole rfl (h.clock_owned rfl (by simp) ?_) (h.sole (Or.inl hn)) (fun _ => rfl)
    (by simp) (by simp) (by simp) (by simp) (Or.inr ⟨by simp, rfl⟩) (fun _ => Or.inl (by simp))
  rcases hp with hp | hp
  · simp [hp, Phase.stops]
  · have hpend := pending_waiting hn (show (a.phase t).waiting = true by rw [hp]; rfl)
    simp [hp, Phase.stops, hpend]

theorem Safe.lose (h : Safe a) (hp : a.phase t = .retry) (hn : a.owner ≠ none) :
    Safe (a.move t .back) :=
  h.move_same rfl (h.clock_same rfl rfl (fun _ => Or.inr hn) (by simp [hp, Phase.stops])) rfl rfl rfl
    (by simp) (by simp [Phase.counted]) (fun _ => Or.inl (by rw [hp]; rfl)) (Or.inr rfl)

theorem Safe.settle (h : Safe a) (hp : a.phase t = .back) :
    Safe { a.move t .spin with clock := a.clock - 1 } := by
  have hstop := h.stops_le t
  have hrun := h.no_leaving (t := t) (by simp [hp, Phase.stops])
  refine h.move_same rfl (h.clock_same rfl rfl (by simp [hp, Phase.waiting]) ?_) rfl rfl rfl (by simp)
    (by simp [Phase.counted]) (fun _ => Or.inl (by rw [hp]; rfl)) (Or.inl hrun)
  simp only [hp, Phase.stops] at hstop ⊢
  omega

theorem Safe.uncount (h : Safe a) (hp : a.phase t = .won) : Safe (a.move t .busy) := by
  have howner := h.owner t (by rw [hp]; rfl)
  have hheld : a.owner ≠ none := by simp [howner]
  exact h.move_sole rfl (h.clock_same rfl rfl (by simp [Phase.waiting]) (by simp [hp, Phase.stops]))
    (h.sole (Or.inr howner)) (by simp [Phase.owning]) (by simp) (by simp) (by simp) (by simp)
    (Or.inr ⟨hheld, rfl⟩) (fun _ => Or.inl hheld)

theorem Safe.take (h : Safe a) (hp : a.phase t = .away) (hn : a.owner = none) :
    Safe { a with owner := some t } := by
  have hself : a.phase = (a.move t .away).phase := by
    funext u
    by_cases hu : u = t <;> simp [hu, hp]
  exact h.move_sole hself (h.clock_owned hself (by simp) (by simp [hp, Phase.stops]))
    (h.sole (Or.inl hn)) (by simp [Phase.owning]) (by simp) (by simp) (by simp) (by simp)
    (Or.inr ⟨by simp, rfl⟩) (fun _ => Or.inl (by simp))

theorem Safe.pass (h : Safe a) (hp : a.phase t = .busy) (hown : a.owner = some t)
    (hc : ∃ u, (a.phase u).counted = true) :
    Safe (a.move t .passing) := by
  have hheld : a.owner ≠ none := by simp [hown]
  exact h.move_sole rfl (h.clock_same rfl rfl (by simp [Phase.waiting]) (by simp [hp, Phase.stops]))
    (h.sole (Or.inr hown)) (fun _ => hown) (fun _ => counted_move (by simp [hp, Phase.counted]) hc)
    (by simp) (by simp) (by simp) (Or.inr ⟨hheld, rfl⟩) (fun _ => Or.inl hheld)

omit [Fintype τ] in
theorem counted_move_none {p : Phase} (hp : p.counted = false)
    (h : ∀ u, (a.phase u).counted = false) (v : τ) : ((a.move t p).phase v).counted = false := by
  rw [move_phase]
  split
  · exact hp
  · exact h v

theorem Safe.lonely (h : Safe a) (hp : a.phase t = .busy) (hown : a.owner = some t)
    (hc : ∀ u, (a.phase u).counted = false) :
    Safe (a.move t .alone) := by
  have hheld : a.owner ≠ none := by simp [hown]
  exact h.move_sole rfl (h.clock_same rfl rfl (by simp [Phase.waiting]) (by simp [hp, Phase.stops]))
    (h.sole (Or.inr hown)) (fun _ => hown) (by simp) (fun _ => counted_move_none rfl hc) (by simp)
    (by simp) (Or.inr ⟨hheld, rfl⟩) (fun _ => Or.inl hheld)

theorem Safe.clear (h : Safe a) (hp : a.phase t = .passing) :
    Safe { a.move t .away with owner := none } := by
  have howner := h.owner t (by rw [hp]; rfl)
  have hrun := h.no_leaving (t := t) (by simp [hp, Phase.stops])
  have hcount := counted_move (a := a) (t := t) (p := .away) (by simp [hp, Phase.counted])
    (h.passing t hp)
  exact h.move_sole rfl (h.clock_cleared rfl (Or.inl (by simp [hp, Phase.stops])))
    (h.sole (Or.inr howner)) (by simp [Phase.owning]) (by simp) (by simp) (by simp) (by simp)
    (Or.inl hrun) (fun _ => Or.inr hcount)

theorem Safe.handOff (h : Safe a) (hp : a.phase t = .alone) (w : τ) (b : Bool) :
    Safe { a.move t .busy with owner := some w, sleepers := b } := by
  have howner := h.owner t (by rw [hp]; rfl)
  exact h.move_sole rfl (h.clock_owned rfl (by simp) (by simp [hp, Phase.stops]))
    (h.sole (Or.inr howner)) (by simp [Phase.owning]) (by simp) (by simp) (by simp) (by simp)
    (Or.inr ⟨by simp, rfl⟩) (fun _ => Or.inl (by simp))

theorem Safe.empty (h : Safe a) (hp : a.phase t = .alone) (he : a.sleepers = false) :
    Safe (a.move t .freeing) := by
  have howner := h.owner t (by rw [hp]; rfl)
  have hheld : a.owner ≠ none := by simp [howner]
  exact h.move_sole rfl (h.clock_same rfl rfl (by simp [Phase.waiting]) (by simp [hp, Phase.stops]))
    (h.sole (Or.inr howner)) (fun _ => howner) (by simp)
    (fun _ => counted_move_none rfl (h.alone t (Or.inl hp))) (fun _ => he) (by simp)
    (Or.inr ⟨hheld, rfl⟩) (fun _ => Or.inl hheld)

theorem Safe.free (h : Safe a) (hp : a.phase t = .freeing) :
    Safe { a.move t .busy with owner := none } := by
  have howner := h.owner t (by rw [hp]; rfl)
  have hrun := h.no_leaving (t := t) (by simp [hp, Phase.stops])
  have hnone := counted_move_none (t := t) (p := .busy) rfl (h.alone t (Or.inr hp))
  have hwaiting : ∀ u, ((a.move t .busy).phase u).waiting = false :=
    fun u => Phase.not_waiting (hnone u)
  refine h.move_sole rfl (h.clock_cleared rfl (Or.inr ⟨hwaiting, by simp [hp, Phase.stops]⟩))
    (h.sole (Or.inr howner)) (by simp [Phase.owning]) (by simp) (by simp) (by simp) (by simp)
    (Or.inl hrun) (fun hs => ?_)
  have hempty : a.sleepers = true := hs
  rw [h.freeing t hp] at hempty
  cases hempty

theorem Safe.leave (h : Safe a) (hp : a.phase t = .spin) (hc : a.clock = 0) :
    Safe (a.move t .leaving) := by
  have hheld := (h.running hc).2 t (by rw [hp]; rfl)
  exact h.move_sole rfl (h.clock_same rfl rfl (by simp [Phase.waiting]) (by simp [hp, Phase.stops]))
    (h.sole_running hc) (by simp [Phase.owning]) (by simp) (by simp) (by simp)
    (fun _ => ⟨hheld, hc⟩) (Or.inr ⟨hheld, rfl⟩) (fun _ => Or.inl hheld)

theorem Safe.sleep (h : Safe a) (hp : a.phase t = .leaving) :
    Safe { a.move t .away with sleepers := true } := by
  obtain ⟨hheld, hc⟩ := h.leaving t hp
  exact h.move_sole rfl (h.clock_same rfl rfl (by simp [Phase.waiting]) (by simp [hp, Phase.stops]))
    (h.sole_running hc) (by simp [Phase.owning]) (by simp) (by simp) (by simp) (by simp)
    (Or.inr ⟨hheld, rfl⟩) (fun _ => Or.inl hheld)

theorem step_preserves_safe {b : State τ} (h : Safe a) (hs : Step a t b) : Safe b := by
  cases hs with
  | stop hp hl => exact h.stop hp hl
  | start hp => exact h.start hp
  | count hp hno => exact h.count hp hno
  | win hp hn => exact h.win hp hn
  | lose hp hn => exact h.lose hp hn
  | settle hp => exact h.settle hp
  | uncount hp => exact h.uncount hp
  | take hp hn => exact h.take hp hn
  | pass hp hown hc => exact h.pass hp hown hc
  | lonely hp hown hc => exact h.lonely hp hown hc
  | clear hp => exact h.clear hp
  | handOff w b hp => exact h.handOff hp w b
  | empty hp he => exact h.empty hp he
  | free hp => exact h.free hp
  | leave hp hc => exact h.leave hp hc
  | sleep hp => exact h.sleep hp

end Steps

omit [DecidableEq τ] in
/-- With sleepers there is an owner, or a contender with the clock stopped. -/
theorem Safe.sleepers_served {a : State τ} (h : Safe a) (hs : a.sleepers = true) :
    a.owner ≠ none ∨ (∃ v, (a.phase v).counted = true) ∧ a.clock ≠ 0 := by
  rcases h.sleepers hs with ho | ⟨v, hv⟩
  · exact Or.inl ho
  · by_cases ho : a.owner = none
    · refine Or.inr ⟨⟨v, hv⟩, fun hc => ?_⟩
      obtain ⟨hzero, howned⟩ := h.running hc
      have hz := hzero v
      have hw := howned v
      cases hq : a.phase v <;> simp_all [Phase.counted, Phase.stops, Phase.waiting]
    · exact Or.inl ho

end SpinSleepLock
