import Mathlib.Logic.Function.Basic
import Mathlib.Tactic.Common

/-!
# Calls that take locks

A call reads and writes a state, takes and releases locks, and need not return. What it did to the
locks is recorded in order, also when it does not return.
-/
namespace LockCalls

inductive Action (ι : Type) where
  | lock (i : ι)
  | unlock (i : ι)
  deriving DecidableEq, Repr

structure Outcome (ι σ α : Type) where
  log : List (Action ι)
  state : σ
  result : Option α

def Call (ι σ α : Type) : Type := σ → Outcome ι σ α

variable {ι σ α β : Type}

namespace Call

protected def pure (a : α) : Call ι σ α := fun s => ⟨[], s, some a⟩

protected def bind (x : Call ι σ α) (f : α → Call ι σ β) : Call ι σ β := fun s =>
  match (x s).result with
  | none => ⟨(x s).log, (x s).state, none⟩
  | some a =>
    ⟨(x s).log ++ (f a (x s).state).log, (f a (x s).state).state, (f a (x s).state).result⟩

instance : Monad (Call ι σ) where
  pure := Call.pure
  bind := Call.bind

def halt : Call ι σ α := fun s => ⟨[], s, none⟩

def compute (f : σ → Option (σ × α)) : Call ι σ α := fun s =>
  match f s with
  | some r => ⟨[], r.1, some r.2⟩
  | none => ⟨[], s, none⟩

def inspect (f : σ → Option α) : Call ι σ α := compute fun s => (f s).map fun a => (s, a)

def change (f : σ → Option σ) : Call ι σ Unit := compute fun s => (f s).map fun s => (s, ())

def read (f : σ → α) : Call ι σ α := fun s => ⟨[], s, some (f s)⟩

def write (f : σ → σ) : Call ι σ Unit := fun s => ⟨[], f s, some ()⟩

def spinLock (i : ι) : Call ι σ Unit := fun s => ⟨[.lock i], s, some ()⟩

def spinUnlock (i : ι) : Call ι σ Unit := fun s => ⟨[.unlock i], s, some ()⟩

theorem bind_returns {x : Call ι σ α} {f : α → Call ι σ β} {s : σ} {a : α}
    (h : (x s).result = some a) : (x >>= f) s =
      ⟨(x s).log ++ (f a (x s).state).log, (f a (x s).state).state,
        (f a (x s).state).result⟩ := by
  show Call.bind x f s = _
  rw [Call.bind, h]

theorem bind_result {x : Call ι σ α} {f : α → Call ι σ β} {s : σ} {a : α}
    (h : (x s).result = some a) : ((x >>= f) s).result = (f a (x s).state).result := by
  rw [bind_returns h]

theorem bind_halts {x : Call ι σ α} {f : α → Call ι σ β} {s : σ} (h : (x s).result = none) :
    (x >>= f) s = ⟨(x s).log, (x s).state, none⟩ := by
  show Call.bind x f s = _
  rw [Call.bind, h]

theorem compute_halts {g : σ → Option (σ × α)} {s : σ} (h : g s = none) :
    (compute g : Call ι σ α) s = ⟨[], s, none⟩ := by
  rw [compute, h]

end Call

variable [DecidableEq ι] {held held₁ held₂ : ι → Bool}

/-- `none` for a lock that is taken twice, and for a lock that is released without being held. -/
def perform (held : ι → Bool) : Action ι → Option (ι → Bool)
  | .lock i => if held i then none else some (Function.update held i true)
  | .unlock i => if held i then some (Function.update held i false) else none

def performAll (held : ι → Bool) (log : List (Action ι)) : Option (ι → Bool) :=
  log.foldlM perform held

def free : ι → Bool := fun _ => false

theorem performAll_append (held : ι → Bool) (log log' : List (Action ι)) :
    performAll held (log ++ log') = (performAll held log).bind fun h => performAll h log' :=
  List.foldlM_append

@[simp] theorem performAll_nil (held : ι → Bool) : performAll held [] = some held := rfl

theorem performAll_lock {i : ι} (h : held i = false) :
    performAll held [.lock i] = some (Function.update held i true) := by
  simp [performAll, perform, h]

theorem performAll_unlock {i : ι} (h : held i = true) :
    performAll held [.unlock i] = some (Function.update held i false) := by
  simp [performAll, perform, h]

def Disciplined (x : Call ι σ α) (s : σ) : Prop :=
  ∃ h, performAll free (x s).log = some h ∧ ((x s).result.isSome → h = free)

def Meets (P : σ → Prop) (held : ι → Bool) (x : Call ι σ α) (held₁ : ι → Bool)
    (Q : α → σ → Prop) : Prop :=
  ∀ s, P s → ∃ h, performAll held (x s).log = some h ∧
    ∀ a, (x s).result = some a → h = held₁ ∧ Q a (x s).state

section Rules

variable {P P' : σ → Prop} {Q Q' : α → σ → Prop} {R : β → σ → Prop} {x : Call ι σ α}
  {f : α → Call ι σ β} {i : ι}

theorem Meets.disciplined {s : σ} (h : Meets P free x free Q) (hs : P s) : Disciplined x s := by
  obtain ⟨held, hlog, hret⟩ := h s hs
  refine ⟨held, hlog, fun hsome => ?_⟩
  obtain ⟨a, ha⟩ := Option.isSome_iff_exists.mp hsome
  exact (hret a ha).1

theorem Meets.settles {s : σ} {a : α} (h : Meets P held x held₁ Q) (hs : P s)
    (ha : (x s).result = some a) :
    performAll held (x s).log = some held₁ ∧ Q a (x s).state := by
  obtain ⟨held', hlog, hret⟩ := h s hs
  obtain ⟨rfl, hQ⟩ := hret a ha
  exact ⟨hlog, hQ⟩

theorem Meets.before (h : Meets P held x held₁ Q) (hP : ∀ s, P' s → P s) :
    Meets P' held x held₁ Q := fun s hs => h s (hP s hs)

theorem Meets.after (h : Meets P held x held₁ Q) (hQ : ∀ a s, Q a s → Q' a s) :
    Meets P held x held₁ Q' := by
  intro s hs
  obtain ⟨held', hlog, hret⟩ := h s hs
  exact ⟨held', hlog, fun a ha => ⟨(hret a ha).1, hQ _ _ (hret a ha).2⟩⟩

theorem meets_pure {a : α} (h : ∀ s, P s → Q a s) : Meets P held (pure a : Call ι σ α) held Q := by
  intro s hs
  refine ⟨held, rfl, fun b hb => ⟨rfl, ?_⟩⟩
  cases hb
  exact h s hs

theorem meets_halt : Meets P held (Call.halt : Call ι σ α) held₁ Q :=
  fun _ _ => ⟨held, rfl, fun _ ha => nomatch ha⟩

theorem meets_write {g : σ → σ} {S : σ → Prop} (h : ∀ s, P s → S (g s)) :
    Meets P held (Call.write g : Call ι σ Unit) held (fun _ => S) :=
  fun s hs => ⟨held, rfl, fun _ _ => ⟨rfl, h s hs⟩⟩

theorem meets_lock (h : held i = false) :
    Meets P held (Call.spinLock i : Call ι σ Unit) (Function.update held i true) (fun _ => P) :=
  fun _ hs => ⟨_, performAll_lock h, fun _ _ => ⟨rfl, hs⟩⟩

theorem meets_unlock (h : held i = true) :
    Meets P held (Call.spinUnlock i : Call ι σ Unit) (Function.update held i false) (fun _ => P) :=
  fun _ hs => ⟨_, performAll_unlock h, fun _ _ => ⟨rfl, hs⟩⟩

theorem Meets.bind (hx : Meets P held x held₁ Q) (hf : ∀ a, Meets (Q a) held₁ (f a) held₂ R) :
    Meets P held (x >>= f) held₂ R := by
  intro s hs
  obtain ⟨h₁, hlog, hret⟩ := hx s hs
  cases hres : (x s).result with
  | none =>
    rw [Call.bind_halts hres]
    exact ⟨h₁, hlog, fun _ ha => nomatch ha⟩
  | some a =>
    obtain ⟨rfl, hQ⟩ := hret a hres
    obtain ⟨h₂, hlog₂, hret₂⟩ := hf a _ hQ
    rw [Call.bind_returns hres]
    refine ⟨h₂, ?_, hret₂⟩
    rw [performAll_append, hlog]
    exact hlog₂

/-- What is read is a function of the state in which the rest is carried out. -/
theorem meets_read_bind {g : σ → α} (h : ∀ s, P s → Meets (· = s) held (f (g s)) held₁ R) :
    Meets P held (Call.read g >>= f) held₁ R := by
  intro s hs
  rw [Call.bind_returns (x := Call.read g) (a := g s) rfl]
  exact h s hs s rfl

theorem Meets.foldlM {γ : Type} {step : α → γ → Call ι σ α} (l : List γ) (a : α)
    (hstep : ∀ a c, c ∈ l → Meets (Q a) held (step a c) held Q) :
    Meets (Q a) held (l.foldlM step a) held Q := by
  induction l generalizing a with
  | nil => exact meets_pure fun s hs => hs
  | cons c l ih =>
    rw [List.foldlM_cons]
    refine (hstep a c (by simp)).bind fun b => ih b fun a c hc => ?_
    exact hstep a c (by simp [hc])

end Rules

def Strays (held : ι → Bool) (x : Call ι σ α) (s : σ) : Prop := performAll held (x s).log = none

section Strays

variable {x : Call ι σ α} {f : α → Call ι σ β} {s : σ} {a : α} {i : ι}

theorem strays_unlock (h : held i = false) :
    Strays held (Call.spinUnlock i : Call ι σ Unit) s := by
  simp [Strays, Call.spinUnlock, performAll, perform, h]

theorem Strays.bind (h : Strays held x s) : Strays held (x >>= f) s := by
  cases hres : (x s).result with
  | none =>
    rw [Strays, Call.bind_halts hres]
    exact h
  | some a =>
    rw [Strays, Call.bind_returns hres, performAll_append, show performAll held _ = none from h]
    rfl

theorem Strays.bind_right (hlog : performAll held (x s).log = some held₁)
    (hres : (x s).result = some a) (h : Strays held₁ (f a) (x s).state) :
    Strays held (x >>= f) s := by
  rw [Strays, Call.bind_returns hres, performAll_append, hlog]
  exact h

theorem strays_read_bind {g : σ → α} (h : Strays held (f (g s)) s) :
    Strays held (Call.read g >>= f) s := Strays.bind_right (x := Call.read g) rfl rfl h

theorem strays_write_bind {g : σ → σ} {f : Unit → Call ι σ β} (h : Strays held (f ()) (g s)) :
    Strays held (Call.write g >>= f) s := Strays.bind_right (x := Call.write g) rfl rfl h

theorem Strays.not_disciplined (h : Strays free x s) : ¬ Disciplined x s := by
  rintro ⟨held, hlog, -⟩
  rw [show performAll free _ = none from h] at hlog
  cases hlog

end Strays

/-- From the state `s` with the locks `held` the call returns `a` in the state `s₁` with the locks
`held₁`. -/
def Ends (held : ι → Bool) (x : Call ι σ α) (s : σ) (held₁ : ι → Bool) (a : α) (s₁ : σ) : Prop :=
  performAll held (x s).log = some held₁ ∧ (x s).result = some a ∧ (x s).state = s₁

def Returns (held : ι → Bool) (x : Call ι σ α) (s : σ) (held₁ : ι → Bool) (Good : α → Prop) :
    Prop :=
  ∃ a, performAll held (x s).log = some held₁ ∧ (x s).result = some a ∧ Good a

abbrev Restores (held : ι → Bool) (x : Call ι σ α) (s : σ) (Good : α → Prop) : Prop :=
  Returns held x s held Good

section FromState

variable {x : Call ι σ α} {f : α → Call ι σ β} {s s₁ s₂ : σ} {a : α} {b : β} {i : ι}
  {Good : α → Prop} {Fine : β → Prop}

theorem ends_pure : Ends held (pure a : Call ι σ α) s held a s := ⟨rfl, rfl, rfl⟩

theorem ends_write (g : σ → σ) : Ends held (Call.write g : Call ι σ Unit) s held () (g s) :=
  ⟨rfl, rfl, rfl⟩

theorem ends_read (g : σ → α) : Ends held (Call.read g : Call ι σ α) s held (g s) s :=
  ⟨rfl, rfl, rfl⟩

theorem ends_compute {g : σ → Option (σ × α)} (h : g s = some (s₁, a)) :
    Ends held (Call.compute g : Call ι σ α) s held a s₁ := by
  rw [Ends, Call.compute, h]
  exact ⟨rfl, rfl, rfl⟩

theorem ends_lock (h : held i = false) : Ends held (Call.spinLock i : Call ι σ Unit) s
    (Function.update held i true) () s := ⟨performAll_lock h, rfl, rfl⟩

theorem update_back (h : held i = false) :
    Function.update (Function.update held i true) i false = held := by
  rw [Function.update_idem, ← h, Function.update_eq_self]

/-- The end of a lock section, which gives back the locks from before it. -/
theorem ends_unlock (h : held i = false) :
    Ends (Function.update held i true) (Call.spinUnlock i : Call ι σ Unit) s held () s := by
  have hend := performAll_unlock (Function.update_self i true held)
  rw [update_back h] at hend
  exact ⟨hend, rfl, rfl⟩

theorem Ends.bind (hx : Ends held x s held₁ a s₁) (hf : Ends held₁ (f a) s₁ held₂ b s₂) :
    Ends held (x >>= f) s held₂ b s₂ := by
  obtain ⟨hlog, hres, rfl⟩ := hx
  rw [Ends, Call.bind_returns hres, performAll_append, hlog]
  exact hf

theorem update_ne (h : held i = false) : Function.update held i true ≠ held := by
  intro heq
  have hi := congrFun heq i
  rw [Function.update_self, h] at hi
  cases hi

/-! The state and the locks after the first part decide what the rest does. -/

theorem Ends.returns_iff (hx : Ends held x s held₁ a s₁) :
    Returns held (x >>= f) s held₂ Fine ↔ Returns held₁ (f a) s₁ held₂ Fine := by
  obtain ⟨hlog, hres, rfl⟩ := hx
  rw [Returns, Call.bind_returns hres, performAll_append, hlog]
  rfl

theorem Ends.returns (hx : Ends held x s held₁ a s₁) (ha : Good a) : Returns held x s held₁ Good :=
  ⟨a, hx.1, hx.2.1, ha⟩

theorem not_returns (h : (x s).result = none) : ¬ Returns held x s held₁ Good := by
  rintro ⟨a, -, hres, -⟩
  rw [h] at hres
  cases hres

theorem not_returns_bind (h : (x s).result = none) : ¬ Returns held (x >>= f) s held₁ Fine :=
  not_returns (by rw [Call.bind_halts h])

@[simp] theorem returns_pure :
    Returns held (pure a : Call ι σ α) s held₁ Good ↔ held = held₁ ∧ Good a := by
  constructor
  · rintro ⟨a', hlog, hres, hgood⟩
    cases hres
    exact ⟨Option.some_inj.mp hlog, hgood⟩
  · rintro ⟨rfl, hgood⟩
    exact ⟨a, rfl, rfl, hgood⟩

@[simp] theorem returns_halt : ¬ Returns held (Call.halt : Call ι σ α) s held₁ Good :=
  not_returns rfl

@[simp] theorem returns_read {g : σ → α} {f : α → Call ι σ β} :
    Returns held (Call.read g >>= f) s held₁ Fine ↔ Returns held (f (g s)) s held₁ Fine :=
  (ends_read g).returns_iff

@[simp] theorem returns_write {g : σ → σ} {f : Unit → Call ι σ β} :
    Returns held (Call.write g >>= f) s held₁ Fine ↔ Returns held (f ()) (g s) held₁ Fine :=
  (ends_write g).returns_iff

theorem returns_compute {g : σ → Option (σ × α)} (h : g s = some (s₁, a)) :
    Returns held (Call.compute g >>= f) s held₁ Fine ↔ Returns held (f a) s₁ held₁ Fine :=
  (ends_compute h).returns_iff

@[simp] theorem returns_lock {f : Unit → Call ι σ β} (h : held i = false) :
    Returns held (Call.spinLock i >>= f) s held₁ Fine ↔
      Returns (Function.update held i true) (f ()) s held₁ Fine := (ends_lock h).returns_iff

@[simp] theorem returns_unlock {f : Unit → Call ι σ β} (h : held i = false) :
    Returns (Function.update held i true) (Call.spinUnlock i >>= f) s held₁ Fine ↔
      Returns held (f ()) s held₁ Fine := (ends_unlock h).returns_iff

theorem ends_inspect {g : σ → Option α} (h : g s = some a) :
    Ends held (Call.inspect g) s held a s := ends_compute (by rw [h]; rfl)

end FromState

/-- With a result the call returns it, and the locks `held₁` are held; with none it does not
return. -/
structure Runs (held : ι → Bool) (x : Call ι σ α) (s : σ) (held₁ : ι → Bool)
    (r : Option (σ × α)) : Prop where
  ends : ∀ p, r = some p → Ends held x s held₁ p.2 p.1
  halts : r = none → (x s).result = none

section Runs

variable {x : Call ι σ α} {f : α → Call ι σ β} {s : σ} {a : α} {i : ι} {r : Option (σ × α)}
  {t : Option (σ × β)}

theorem Ends.runs {s₁ : σ} (h : Ends held x s held₁ a s₁) : Runs held x s held₁ (some (s₁, a)) := by
  refine ⟨fun p hp => ?_, fun hnone => by cases hnone⟩
  cases hp
  exact h

theorem runs_none (h : (x s).result = none) : Runs held x s held₁ none :=
  ⟨fun _ hp => (by cases hp), fun _ => h⟩

theorem runs_pure : Runs held (pure a : Call ι σ α) s held (some (s, a)) := ends_pure.runs

theorem runs_compute {g : σ → Option (σ × α)} : Runs held (Call.compute g) s held (g s) := by
  cases hg : g s with
  | none => exact runs_none (congrArg Outcome.result (Call.compute_halts hg))
  | some r => exact (ends_compute hg).runs

theorem Ends.runs_bind {s₁ : σ} (hx : Ends held x s held₁ a s₁)
    (hf : Runs held₁ (f a) s₁ held₂ t) : Runs held (x >>= f) s held₂ t := by
  refine ⟨fun p hp => hx.bind (hf.ends p hp), fun hnone => ?_⟩
  rw [Call.bind_result hx.2.1, hx.2.2]
  exact hf.halts hnone

theorem Runs.bind {k : σ × α → Option (σ × β)} (hx : Runs held x s held₁ r)
    (hf : ∀ a s₁, r = some (s₁, a) → Runs held₁ (f a) s₁ held₂ (k (s₁, a))) :
    Runs held (x >>= f) s held₂ (r >>= k) := by
  cases r with
  | none => exact runs_none (congrArg Outcome.result (Call.bind_halts (hx.halts rfl)))
  | some r => exact (hx.ends r rfl).runs_bind (hf r.2 r.1 rfl)

theorem Runs.bind_inspect {o : Option α} {k : α → Option (σ × β)}
    (hx : Runs held x s held₁ (o.map fun a => (s, a)))
    (hf : ∀ a, o = some a → Runs held₁ (f a) s held₂ (k a)) :
    Runs held (x >>= f) s held₂ (o >>= k) := by
  cases o with
  | none => exact runs_none (congrArg Outcome.result (Call.bind_halts (hx.halts rfl)))
  | some a => exact (hx.ends (s, a) rfl).runs_bind (hf a rfl)

theorem Runs.bind_change {x : Call ι σ Unit} {f : Unit → Call ι σ β} {o : Option σ}
    {k : σ → Option (σ × β)} (hx : Runs held x s held₁ (o.map fun s => (s, ())))
    (hf : ∀ s₁, o = some s₁ → Runs held₁ (f ()) s₁ held₂ (k s₁)) :
    Runs held (x >>= f) s held₂ (o >>= k) := by
  cases o with
  | none => exact runs_none (congrArg Outcome.result (Call.bind_halts (hx.halts rfl)))
  | some s₁ => exact (hx.ends (s₁, ()) rfl).runs_bind (hf s₁ rfl)

theorem runs_section (h : held i = false)
    (hx : Runs (Function.update held i true) x s (Function.update held i true) r) :
    Runs held (Call.spinLock i >>= fun _ => x >>= fun a => Call.spinUnlock i >>= fun _ => pure a) s
      held r := by
  refine (ends_lock h).runs_bind ?_
  have hend : Runs (Function.update held i true)
      (x >>= fun a => Call.spinUnlock i >>= fun _ => pure a) s held (r >>= some) :=
    hx.bind fun a s₁ _ => (ends_unlock h).runs_bind runs_pure
  rwa [Option.bind_eq_bind, Option.bind_fun_some] at hend

theorem runs_section_unit {x : Call ι σ Unit} {r : Option (σ × Unit)} (h : held i = false)
    (hx : Runs (Function.update held i true) x s (Function.update held i true) r) :
    Runs held (Call.spinLock i >>= fun _ => x >>= fun _ => Call.spinUnlock i) s held r := by
  refine (ends_lock h).runs_bind ?_
  have hend : Runs (Function.update held i true) (x >>= fun _ => Call.spinUnlock i) s held
      (r >>= some) := hx.bind fun _ _ _ => (ends_unlock h).runs
  rwa [Option.bind_eq_bind, Option.bind_fun_some] at hend

theorem Runs.restores_iff (h : Runs held x s held r) :
    Restores held x s (fun _ => True) ↔ r ≠ none := by
  cases r with
  | none => exact iff_of_false (not_returns (h.halts rfl)) (by simp)
  | some r => exact iff_of_true ((h.ends r rfl).returns trivial) (by simp)

end Runs

end LockCalls
