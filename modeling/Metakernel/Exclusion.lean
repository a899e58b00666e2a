import Metakernel.RendezvousBarrier

/-!
# Exclusion between CPUs

Every CPU calls `do_exclusion` of scheduler.c once per tick with the status of its current
thread. `clear_exclusion` joins the point `first`, `set_exclusion` the point `second`; the writes
to `exclusion` and the steps of `rendezvous_join` are single steps.
-/
namespace Exclusion

open GuardedRuns
open RendezvousBarrier (Rendezvous rendezvousInit zeroed Arrival joinSection Point Place bump Rounds)

/-- The states that `RUNNABLE_STATE` accepts. -/
inductive Status where
  | runnable | noResched | exclusive | atomic
  deriving DecidableEq, Repr

inductive Phase where
  | idle
  | clear
  | join (p : Point)
  | setCond (p : Point)
  | spin (p : Point)
  | testHolding
  | set
  | check
  deriving DecidableEq, Repr

/-- `holding` and `excluded` are the flags `HOLDING_EXCLUSION` and `EXCLUDED`, `proceed` the value
that `do_exclusion` returned last. `joined` lists the calls of `rendezvous_join` that the CPU
makes in each tick, `entered` and `left` count them. -/
structure Cpu where
  phase : Phase
  holding : Bool
  excluded : Bool
  proceed : Bool
  tick : ℕ
  joined : ℕ → List Point
  entered : Point → ℕ
  left : Point → ℕ

structure State (n : ℕ) where
  points : Point → Rendezvous
  exclusion : BitVec 32
  cpus : Fin n → Cpu

variable {n : ℕ}

def cpuId (c : Fin n) : BitVec 32 := BitVec.ofNat 32 c

def clearExclusion (exclusion : BitVec 32) : BitVec 32 :=
  if exclusion ≠ -1 then -1 else exclusion

def setExclusion (cpu exclusion : BitVec 32) : BitVec 32 :=
  if cpu ≠ -1 then (if exclusion = -1 then cpu else exclusion) else exclusion

def checkExclusion (cpu exclusion : BitVec 32) : Bool := cpu == exclusion || exclusion == -1

/-- The tests of `do_exclusion` up to its first call; `none` is the early return. -/
def doExclusion (status : Status) (holding : Bool) : Option Phase :=
  if status ≠ .atomic ∨ holding = true then
    if status ≠ .atomic ∧ holding = true then some .clear else some .testHolding
  else none

/-- Where `do_exclusion` goes on after the join of a point. -/
def afterJoin : Point → Phase
  | .first => .testHolding
  | .second => .check

def wants : Status → Bool
  | .exclusive | .atomic => true
  | _ => false

def Cpu.finish (u : Cpu) (proceed : Bool) : Cpu :=
  { u with phase := .idle, proceed := proceed, tick := u.tick + 1 }

def Cpu.join (u : Cpu) (p : Point) (a : Arrival) : Cpu :=
  { u with
    phase := match a with
      | .last => .setCond p
      | .wait => .spin p
    joined := Function.update u.joined u.tick (u.joined u.tick ++ [p])
    entered := bump u.entered p }

def Cpu.leave (u : Cpu) (p : Point) : Cpu :=
  { u with phase := afterJoin p, left := bump u.left p }

def State.setCpu (s : State n) (c : Fin n) (u : Cpu) : State n :=
  { s with cpus := Function.update s.cpus c u }

def next (status : Fin n → ℕ → Status) (s : State n) (c : Fin n) : Option (State n) :=
  let u := s.cpus c
  let st := status c u.tick
  match u.phase with
  | .idle =>
    match doExclusion st u.holding with
    | some phase => some (s.setCpu c { u with phase := phase })
    | none => some (s.setCpu c (u.finish true))
  | .clear =>
    some { s.setCpu c { u with phase := .join .first } with
      exclusion := clearExclusion s.exclusion }
  | .join p =>
    some { s.setCpu c (u.join p (joinSection (s.points p)).2) with
      points := Function.update s.points p (joinSection (s.points p)).1 }
  | .setCond p =>
    some { s.setCpu c (u.leave p) with
      points := Function.update s.points p { s.points p with cond := true } }
  | .spin p => if (s.points p).cond then some (s.setCpu c (u.leave p)) else some s
  | .testHolding =>
    if u.holding then some (s.setCpu c { u with phase := .check })
    else some (s.setCpu c { u with phase := .set })
  | .set =>
    some { s.setCpu c { u with phase := .join .second } with
      exclusion := setExclusion (if wants st then cpuId c else -1) s.exclusion }
  | .check =>
    if checkExclusion (cpuId c) s.exclusion then
      some (s.setCpu c ({ u with holding := u.holding || wants st }.finish true))
    else some (s.setCpu c ({ u with excluded := true }.finish false))

/-- The points are initialised for all CPUs in zeroed storage; `exclusion` is zero, as static data
is. -/
def start (max : BitVec 32) : State max.toNat :=
  ⟨fun _ => rendezvousInit zeroed max, 0,
    fun _ => ⟨.idle, false, false, false, 0, fun _ => [], fun _ => 0, fun _ => 0⟩⟩

/-- The call does not go through `clear_exclusion`. -/
def KeepsExclusion (status : Fin n → ℕ → Status) (s : State n) (c : Fin n) : Prop :=
  (s.cpus c).phase = .idle → (s.cpus c).holding = true → status c (s.cpus c).tick = .atomic

def Cpu.Inside (u : Cpu) (p : Point) : Prop := u.phase = .setCond p ∨ u.phase = .spin p

def NoOvertaking (s : State n) (c : Fin n) : Prop :=
  ∀ p, (s.cpus c).phase = .join p → (s.points p).reset = true → ∀ i, ¬ (s.cpus i).Inside p

instance (status : Fin n → ℕ → Status) (s : State n) (c : Fin n) :
    Decidable (KeepsExclusion status s c) :=
  inferInstanceAs (Decidable (_ → _ → _))

instance (u : Cpu) (p : Point) : Decidable (u.Inside p) := inferInstanceAs (Decidable (_ ∨ _))

instance (s : State n) (c : Fin n) : Decidable (NoOvertaking s c) :=
  inferInstanceAs (Decidable (∀ _, _ → _ → ∀ _, ¬ _))

/-- In the ticks without an atomic thread the CPUs make the same joins, none waits at a point that
another does not join, and a thread that is neither exclusive nor atomic leaves no
`HOLDING_EXCLUSION` behind. -/
structure LockStep (status : Fin n → ℕ → Status) (s : State n) : Prop where
  comparable : ∀ k, (∀ i, status i k ≠ .atomic) → ∀ i j,
    (s.cpus i).joined k <+: (s.cpus j).joined k ∨ (s.cpus j).joined k <+: (s.cpus i).joined k
  complete : ∀ k, (∀ i, status i k ≠ .atomic) → ∀ i j, k < (s.cpus i).tick →
    (s.cpus j).joined k <+: (s.cpus i).joined k
  awaited : ∀ k, (∀ i, status i k ≠ .atomic) → ∀ i j p, (s.cpus i).tick = k →
    (s.cpus i).phase = .spin p → (k < (s.cpus j).tick → p ∈ (s.cpus j).joined k) ∧
      ∀ q, (s.cpus j).tick = k → (s.cpus j).phase = .spin q → q = p
  released : ∀ i k, (s.cpus i).phase = .idle → (s.cpus i).tick = k + 1 →
    wants (status i k) = false → (s.cpus i).holding = false

/-- A waiting CPU sees `cond` set, or a CPU is about to set it, or a CPU has yet to join. -/
def NotStranded (s : State n) : Prop :=
  ∀ i p, (s.cpus i).phase = .spin p → (s.points p).cond = true ∨
    (∃ j, (s.cpus j).phase = .setCond p) ∨ ∃ j, (s.cpus j).entered p < (s.cpus i).entered p

/-- The joins of the tick under way when the call did not go through `clear_exclusion`. -/
def Present (st : Status) (joined : List Point) : Phase → Prop
  | .idle | .testHolding | .set | .join .second => joined = []
  | .setCond .second | .spin .second => joined = [.second]
  | .check => st ≠ .atomic → joined = [.second]
  | .clear | .join .first | .setCond .first | .spin .first => False

/-- What a CPU has joined when it never went through `clear_exclusion`. -/
structure Regular (status : ℕ → Status) (u : Cpu) : Prop where
  future : ∀ k, u.tick < k → u.joined k = []
  past : ∀ k, k < u.tick → status k ≠ .atomic → u.joined k = [.second]
  present : Present (status u.tick) (u.joined u.tick) u.phase
  held : u.phase ≠ .idle → u.holding = true → status u.tick = .atomic
  kept : u.phase = .idle → u.holding = true → ∃ k, u.tick = k + 1 ∧ wants (status k) = true

variable {status : ℕ → Status} {u : Cpu}

theorem Regular.joined_cases (h : Regular status u) {k : ℕ} (hk : status k ≠ .atomic) :
    u.joined k = [] ∨ u.joined k = [.second] := by
  rcases Nat.lt_trichotomy k u.tick with hlt | heq | hgt
  · exact Or.inr (h.past k hlt hk)
  · subst heq
    have hpresent := h.present
    unfold Present at hpresent
    split at hpresent <;> simp_all
  · exact Or.inl (h.future k hgt)

theorem Regular.spin_second (h : Regular status u) {p : Point} (hp : u.phase = .spin p) :
    p = .second := by
  have hpresent := h.present
  rw [hp] at hpresent
  cases p
  · exact hpresent.elim
  · rfl

theorem Regular.finish (h : Regular status u)
    (hjoined : status u.tick ≠ .atomic → u.joined u.tick = [.second]) {v : Cpu}
    (htick : v.tick = u.tick + 1) (hv : v.joined = u.joined) (hphase : v.phase = .idle)
    (hkept : v.holding = true → wants (status u.tick) = true) : Regular status v := by
  constructor
  · intro k hk
    rw [hv]
    exact h.future k (by omega)
  · intro k hk hs
    rw [hv]
    by_cases heq : k = u.tick
    · subst heq
      exact hjoined hs
    · exact h.past k (by omega) hs
  · rw [hphase]
    rw [Present, hv]
    exact h.future _ (by omega)
  · intro hne
    exact absurd hphase hne
  · exact fun _ hh => ⟨u.tick, htick, hkept hh⟩

theorem Regular.advance (h : Regular status u) {a : Phase} {left : Point → ℕ}
    (hpresent : Present (status u.tick) (u.joined u.tick) a)
    (hphase : a ≠ .idle) (hheld : u.holding = true → status u.tick = .atomic) :
    Regular status { u with phase := a, left := left } :=
  ⟨h.future, h.past, hpresent, fun _ => hheld, fun hidle => absurd hidle hphase⟩

theorem Regular.join (h : Regular status u) (hu : u.phase = .join .second) (a : Arrival) :
    Regular status (u.join .second a) := by
  have hpresent := h.present
  rw [hu, Present] at hpresent
  constructor
  · intro k hk
    have hne : k ≠ u.tick := Nat.ne_of_gt hk
    simpa [Cpu.join, hne] using h.future k hk
  · intro k hk hs
    have hne : k ≠ u.tick := Nat.ne_of_lt hk
    simpa [Cpu.join, hne] using h.past k hk hs
  · cases a <;> simp [Cpu.join, Present, hpresent]
  · intro _ hh
    exact h.held (by simp [hu]) hh
  · cases a <;> simp [Cpu.join]

section Steps

variable {status : Fin n → ℕ → Status} {s t : State n} {c i : Fin n}

theorem next_cpu_of_ne (hn : next status s c = some t) (hi : i ≠ c) : t.cpus i = s.cpus i := by
  unfold next at hn
  dsimp only at hn
  repeat' split at hn
  all_goals
    cases hn
    simp [State.setCpu, hi]

theorem doExclusion_keeps {st : Status} {holding : Bool} (h : holding = true → st = .atomic) :
    doExclusion st holding = some .testHolding ∨ (doExclusion st holding = none ∧ st = .atomic) := by
  cases holding <;> cases st <;> simp_all [doExclusion]

theorem idle_regular (h : Regular (status c) (s.cpus c)) (hphase : (s.cpus c).phase = .idle)
    (hg : KeepsExclusion status s c) (hn : next status s c = some t) :
    Regular (status c) (t.cpus c) := by
  have hpresent := h.present
  rw [hphase] at hpresent
  simp only [next, hphase] at hn
  rcases doExclusion_keeps (hg hphase) with hd | ⟨hd, hatomic⟩
  · rw [hd] at hn
    cases hn
    simpa [State.setCpu] using h.advance (a := .testHolding) hpresent (by simp) (hg hphase)
  · rw [hd] at hn
    cases hn
    simp only [State.setCpu, Function.update_self]
    refine h.finish (fun hne => absurd hatomic hne) rfl rfl rfl fun _ => ?_
    rw [hatomic]
    rfl

theorem check_regular (h : Regular (status c) (s.cpus c)) (hphase : (s.cpus c).phase = .check)
    (hn : next status s c = some t) : Regular (status c) (t.cpus c) := by
  have hpresent := h.present
  rw [hphase] at hpresent
  have hheld := h.held (by simp [hphase])
  have hwants : (s.cpus c).holding = true → wants (status c (s.cpus c).tick) = true := by
    intro hh
    rw [hheld hh]
    rfl
  simp only [next, hphase] at hn
  split at hn
  · cases hn
    simp only [State.setCpu, Function.update_self]
    refine h.finish hpresent rfl rfl rfl fun hh => ?_
    rcases Bool.or_eq_true_iff.mp hh with hh | hh
    · exact hwants hh
    · exact hh
  · cases hn
    simp only [State.setCpu, Function.update_self]
    exact h.finish hpresent rfl rfl rfl hwants

theorem next_regular (h : Regular (status c) (s.cpus c)) (hg : KeepsExclusion status s c)
    (hn : next status s c = some t) : Regular (status c) (t.cpus c) := by
  have hpresent := h.present
  cases hphase : (s.cpus c).phase with
  | idle => exact idle_regular h hphase hg hn
  | clear =>
    rw [hphase] at hpresent
    exact hpresent.elim
  | join p =>
    rw [hphase] at hpresent
    cases p
    · exact hpresent.elim
    · simp only [next, hphase] at hn
      cases hn
      simpa [State.setCpu] using h.join hphase _
  | setCond p =>
    have hheld := h.held (by simp [hphase])
    rw [hphase] at hpresent
    cases p
    · exact hpresent.elim
    · simp only [next, hphase] at hn
      cases hn
      simpa [State.setCpu, Cpu.leave, afterJoin] using
        h.advance (a := .check) (fun _ => hpresent) (by simp) hheld
  | spin p =>
    have hheld := h.held (by simp [hphase])
    rw [hphase] at hpresent
    cases p
    · exact hpresent.elim
    · simp only [next, hphase] at hn
      split at hn
      · cases hn
        simpa [State.setCpu, Cpu.leave, afterJoin] using
          h.advance (a := .check) (fun _ => hpresent) (by simp) hheld
      · cases hn
        exact h
  | testHolding =>
    have hheld := h.held (by simp [hphase])
    rw [hphase] at hpresent
    simp only [next, hphase] at hn
    split at hn
    · rename_i hh
      cases hn
      simpa [State.setCpu] using
        h.advance (a := .check) (fun hne => absurd (hheld hh) hne) (by simp) hheld
    · cases hn
      simpa [State.setCpu] using h.advance (a := .set) hpresent (by simp) hheld
  | set =>
    have hheld := h.held (by simp [hphase])
    rw [hphase] at hpresent
    simp only [next, hphase] at hn
    cases hn
    simpa [State.setCpu] using h.advance (a := .join .second) hpresent (by simp) hheld
  | check => exact check_regular h hphase hn

theorem start_regular (max : BitVec 32) (status : ℕ → Status) (i : Fin max.toNat) :
    Regular status ((start max).cpus i) := by
  constructor <;> simp [start, Present]

theorem step_preserves_regular (h : ∀ i, Regular (status i) (s.cpus i))
    (hg : KeepsExclusion status s c) (hn : next status s c = some t) :
    ∀ i, Regular (status i) (t.cpus i) := by
  intro i
  by_cases hi : i = c
  · subst hi
    exact next_regular (h i) hg hn
  · rw [next_cpu_of_ne hn hi]
    exact h i

theorem lockStep_of_regular (h : ∀ i, Regular (status i) (s.cpus i)) : LockStep status s := by
  constructor
  · intro k hk i j
    rcases (h i).joined_cases (hk i) with hi | hi <;>
      rcases (h j).joined_cases (hk j) with hj | hj <;> simp [hi, hj]
  · intro k hk i j hlt
    rw [(h i).past k hlt (hk i)]
    rcases (h j).joined_cases (hk j) with hj | hj <;> simp [hj]
  · intro k hk i j p _ hp
    rw [(h i).spin_second hp]
    refine ⟨fun hlt => ?_, fun q _ hq => (h j).spin_second hq⟩
    rw [(h j).past k hlt (hk j)]
    exact List.mem_singleton_self _
  · intro i k hidle hk hw
    by_contra hh
    obtain ⟨k', hk', hw'⟩ := (h i).kept hidle (Bool.eq_true_of_not_eq_false hh)
    have heq : k' = k := by omega
    rw [heq, hw] at hw'
    cases hw'

end Steps

def Phase.place : Phase → Place
  | .join p => .outside p
  | .setCond p => .setCond p
  | .spin p => .spin p
  | _ => .outside .first

theorem place_setCond {a : Phase} {p : Point} : a.place = .setCond p ↔ a = .setCond p := by
  cases a <;> simp [Phase.place]

def view (s : State n) : RendezvousBarrier.State (Fin n) where
  points := s.points
  cpus i := ⟨(s.cpus i).phase.place, (s.cpus i).entered, (s.cpus i).left⟩
  signalled _ := []

def Cpu.Counted (u : Cpu) : Prop :=
  ∀ p, (u.Inside p → u.entered p = u.left p + 1) ∧ (¬ u.Inside p → u.entered p = u.left p)

structure Joins (max : BitVec 32) (s : State max.toNat) : Prop where
  counted : ∀ i, (s.cpus i).Counted
  rounds : ∀ p, ∃ r, Rounds max (view s) p r

variable {max : BitVec 32} {s t : State max.toNat} {c : Fin max.toNat} {p : Point}

theorem Cpu.Counted.advance {u v : Cpu} (h : u.Counted) (hentered : v.entered = u.entered)
    (hleft : v.left = u.left) (hinside : ∀ p, v.Inside p ↔ u.Inside p) : v.Counted := by
  intro p
  rw [hentered, hleft, hinside]
  exact h p

theorem Cpu.Counted.join {u : Cpu} (h : u.Counted) (hp : u.phase = .join p) (a : Arrival) :
    (u.join p a).Counted := by
  intro q
  have hout : ¬ u.Inside q := by simp [Cpu.Inside, hp]
  have heq := (h q).2 hout
  by_cases hq : q = p
  · subst hq
    cases a <;> simp [Cpu.join, Cpu.Inside, heq]
  · have hne := Ne.symm hq
    cases a <;> simp [Cpu.join, Cpu.Inside, heq, hne, RendezvousBarrier.bump_of_ne _ hq]

theorem Cpu.Counted.leave {u : Cpu} (h : u.Counted) (hp : u.Inside p) : (u.leave p).Counted := by
  intro q
  have hout : ¬ (u.leave p).Inside q := by
    cases p <;> simp [Cpu.Inside, Cpu.leave, afterJoin]
  refine ⟨fun hin => absurd hin hout, fun _ => ?_⟩
  by_cases hq : q = p
  · subst hq
    simp [Cpu.leave, (h q).1 hp]
  · have hin : ¬ u.Inside q := by
      rcases hp with hp | hp <;> simp [Cpu.Inside, hp, Ne.symm hq]
    simp [Cpu.leave, (h q).2 hin, RendezvousBarrier.bump_of_ne _ hq]

theorem doExclusion_cases (st : Status) (holding : Bool) : doExclusion st holding = some .clear ∨
    doExclusion st holding = some .testHolding ∨ doExclusion st holding = none := by
  cases holding <;> cases st <;> simp [doExclusion]

theorem next_points {status : Fin n → ℕ → Status} {s t : State n} {c : Fin n}
    (hn : next status s c = some t) :
    (t.points = s.points ∧ (t.cpus c).entered = (s.cpus c).entered ∧
      (t.cpus c).left = (s.cpus c).left ∧ ∀ p, ((t.cpus c).phase = .setCond p ↔
        (s.cpus c).phase = .setCond p) ∧ ((t.cpus c).Inside p ↔ (s.cpus c).Inside p)) ∨
    (∃ p, (s.cpus c).phase = .join p ∧
      t.points = Function.update s.points p (joinSection (s.points p)).1 ∧
      t.cpus c = (s.cpus c).join p (joinSection (s.points p)).2) ∨
    (∃ p, (s.cpus c).phase = .setCond p ∧
      t.points = Function.update s.points p { s.points p with cond := true } ∧
      t.cpus c = (s.cpus c).leave p) ∨
    ∃ p, (s.cpus c).phase = .spin p ∧ (s.points p).cond = true ∧ t.points = s.points ∧
      t.cpus c = (s.cpus c).leave p := by
  unfold next at hn
  dsimp only at hn
  split at hn
  · rename_i hphase
    rcases doExclusion_cases (status c (s.cpus c).tick) (s.cpus c).holding with hd | hd | hd <;>
      rw [hd] at hn <;> cases hn <;>
      exact Or.inl (by simp [State.setCpu, Cpu.finish, Cpu.Inside, hphase])
  · rename_i hphase
    cases hn
    exact Or.inl (by simp [State.setCpu, Cpu.Inside, hphase])
  · rename_i p hphase
    cases hn
    exact Or.inr (Or.inl ⟨p, hphase, rfl, by simp [State.setCpu]⟩)
  · rename_i p hphase
    cases hn
    exact Or.inr (Or.inr (Or.inl ⟨p, hphase, rfl, by simp [State.setCpu]⟩))
  · rename_i p hphase
    split at hn
    · rename_i hcond
      cases hn
      exact Or.inr (Or.inr (Or.inr ⟨p, hphase, hcond, rfl, by simp [State.setCpu]⟩))
    · cases hn
      exact Or.inl (by simp)
  · rename_i hphase
    split at hn <;> cases hn <;> exact Or.inl (by simp [State.setCpu, Cpu.Inside, hphase])
  · rename_i hphase
    cases hn
    exact Or.inl (by simp [State.setCpu, Cpu.Inside, hphase])
  · rename_i hphase
    split at hn <;> cases hn <;>
      exact Or.inl (by simp [State.setCpu, Cpu.finish, Cpu.Inside, hphase])

theorem start_joins (two : 2 ≤ max.toNat) : Joins max (start max) := by
  constructor
  · intro i p
    simp [start, Cpu.Inside]
  · intro p
    obtain ⟨r, hr⟩ := (RendezvousBarrier.start_inv two).rounds p
    refine ⟨r, hr.congr rfl rfl (fun _ => rfl) (fun _ => rfl) fun i => ?_⟩
    simp [view, start, Phase.place, RendezvousBarrier.start]

theorem join_preserves_joins (two : 2 ≤ max.toNat) (h : Joins max s) (hg : NoOvertaking s c)
    (hne : ∀ i, i ≠ c → t.cpus i = s.cpus i) (hp : (s.cpus c).phase = .join p)
    (hpoints : t.points = Function.update s.points p (joinSection (s.points p)).1)
    (hc : t.cpus c = (s.cpus c).join p (joinSection (s.points p)).2) : Joins max t := by
  constructor
  · intro i
    by_cases hi : i = c
    · subst hi
      rw [hc]
      exact (h.counted i).join hp _
    · rw [hne i hi]
      exact h.counted i
  · intro q
    have hview : ∃ r, Rounds max ((view s).join c p) q r := by
      obtain ⟨r, hr⟩ := h.rounds q
      have hplace : ((view s).cpus c).place = .outside p := by simp [view, hp, Phase.place]
      by_cases hq : q = p
      · subst hq
        have hcount : ((view s).cpus c).entered q = r := by
          have hout : ¬ (s.cpus c).Inside q := by simp [Cpu.Inside, hp]
          have heq := (h.counted c q).2 hout
          have hle := hr.left_le c
          have hentered := hr.entered c
          simp only [view] at hle hentered ⊢
          omega
        cases hreset : (s.points q).reset
        · by_cases hmax : max = ((view s).points q).count + 1
          · exact ⟨r + 1, hr.join_last hreset hcount hmax⟩
          · exact ⟨r, hr.join_wait hreset hcount hmax⟩
        · refine ⟨r, hr.join_reset (fun i hi => ?_) two hreset fun i => ?_⟩
          · exact (h.counted i q).1 (Or.inl (place_setCond.mp hi))
          · have heq := (h.counted i q).2 (hg q hp hreset i)
            have hentered := (hr.reset.mp hreset).2 i
            simp only [view] at hentered ⊢
            omega
      · exact ⟨r, hr.join_of_ne hplace hq⟩
    obtain ⟨r, hr⟩ := hview
    refine ⟨r, hr.congr ?_ rfl (fun i => ?_) (fun i => ?_) fun i => ?_⟩
    · simp [view, hpoints, RendezvousBarrier.State.join]
    all_goals
      by_cases hi : i = c
      · subst hi
        cases ha : (joinSection (s.points p)).2 <;>
          simp [view, hc, ha, Cpu.join, Phase.place, RendezvousBarrier.State.join,
            RendezvousBarrier.Cpu.enter, RendezvousBarrier.Arrival.place]
      · simp [view, hne i hi, hi, RendezvousBarrier.State.join]

theorem leave_preserves_joins (h : Joins max s) (hne : ∀ i, i ≠ c → t.cpus i = s.cpus i)
    (hp : (s.cpus c).Inside p) (hc : t.cpus c = (s.cpus c).leave p)
    {v : RendezvousBarrier.State (Fin max.toNat)} (hcpus : v.cpus = (view s).cpus)
    (hpoints : v.points = t.points) (hcond : (v.points p).cond = true)
    (hrounds : ∀ q, ∃ r, Rounds max v q r) : Joins max t := by
  constructor
  · intro i
    by_cases hi : i = c
    · subst hi
      rw [hc]
      exact (h.counted i).leave hp
    · rw [hne i hi]
      exact h.counted i
  · intro q
    obtain ⟨r, hr⟩ := hrounds q
    have hplace : (v.cpus c).place = .setCond p ∨ (v.cpus c).place = .spin p := by
      rw [hcpus]
      rcases hp with hp | hp <;> simp [view, hp, Phase.place]
    have hcount : (v.cpus c).entered p = (v.cpus c).left p + 1 := by
      rw [hcpus]
      exact (h.counted c p).1 hp
    refine ⟨r, (hr.leave hcount hplace hcond).forget.congr ?_ rfl (fun i => ?_) (fun i => ?_)
      fun i => ?_⟩
    · simp [view, hpoints, RendezvousBarrier.State.leave]
    all_goals
      by_cases hi : i = c
      · subst hi
        cases p <;>
          simp [view, hc, hcpus, Cpu.leave, afterJoin, Phase.place, RendezvousBarrier.State.leave,
            RendezvousBarrier.Cpu.leave]
      · simp [view, hne i hi, hcpus, hi, RendezvousBarrier.State.leave]

theorem step_preserves_joins (two : 2 ≤ max.toNat) {status : Fin max.toNat → ℕ → Status}
    (h : Joins max s) (hg : NoOvertaking s c) (hn : next status s c = some t) : Joins max t := by
  have hne : ∀ i, i ≠ c → t.cpus i = s.cpus i := fun i hi => next_cpu_of_ne hn hi
  rcases next_points hn with ⟨hpoints, hentered, hleft, hphase⟩ | ⟨p, hp, hpoints, hc⟩ |
    ⟨p, hp, hpoints, hc⟩ | ⟨p, hp, hcond, hpoints, hc⟩
  · constructor
    · intro i
      by_cases hi : i = c
      · subst hi
        exact (h.counted i).advance hentered hleft fun p => (hphase p).2
      · rw [hne i hi]
        exact h.counted i
    · intro q
      obtain ⟨r, hr⟩ := h.rounds q
      refine ⟨r, hr.congr (by simp [view, hpoints]) rfl (fun i => ?_) (fun i => ?_) fun i => ?_⟩
      all_goals
        by_cases hi : i = c
        · subst hi
          simp [view, hentered, hleft, place_setCond, (hphase q).1]
        · simp [view, hne i hi]
  · exact join_preserves_joins two h hg hne hp hpoints hc
  · apply leave_preserves_joins (v := (view s).setCond c p) h hne (Or.inl hp) hc
    · rfl
    · simp [RendezvousBarrier.State.setCond, view, hpoints]
    · simp [RendezvousBarrier.State.setCond]
    · intro q
      obtain ⟨r, hr⟩ := h.rounds q
      exact ⟨r, hr.setCond (place_setCond.mpr hp)⟩
  · exact leave_preserves_joins (v := view s) h hne (Or.inr hp) hc rfl hpoints.symm hcond h.rounds

theorem Joins.notStranded (h : Joins max s) : NotStranded s := by
  intro i p hp
  obtain ⟨r, hr⟩ := h.rounds p
  rcases hr.not_stranded ((h.counted i p).1 (Or.inr hp)) with hcond | ⟨j, hj⟩ | hlate
  · exact Or.inl hcond
  · exact Or.inr (Or.inl ⟨j, place_setCond.mp hj⟩)
  · exact Or.inr (Or.inr hlate)

/-- As long as no call goes through `clear_exclusion` the CPUs stay in lock-step. Where in addition
no CPU opens the next round of a point before all have left the last one, no CPU is stranded. -/
theorem exclusion_lock_step (max : BitVec 32) (two : 2 ≤ max.toNat)
    (status : Fin max.toNat → ℕ → Status) {s : State max.toNat}
    (h : Execution (next status) (KeepsExclusion status) (start max) s) :
    LockStep status s ∧
      (Execution (next status) (fun s c => KeepsExclusion status s c ∧ NoOvertaking s c)
        (start max) s → NotStranded s) := by
  constructor
  · apply lockStep_of_regular
    exact h.preserves (I := fun s => ∀ i, Regular (status i) (s.cpus i))
      (fun _ _ _ hI hg hn => step_preserves_regular hI hg hn)
      (fun i => start_regular max (status i) i)
  · intro h'
    have hJ : Joins max s := h'.preserves
      (fun _ _ _ hJ hg hn => step_preserves_joins two hJ hg.2 hn) (start_joins two)
    exact hJ.notStranded

def cpu0 : Fin (2 : BitVec 32).toNat := ⟨0, by decide⟩

def cpu1 : Fin (2 : BitVec 32).toNat := ⟨1, by decide⟩

/-- One tick of two CPUs, CPU 1 being the last to arrive at `second`. -/
def oneTick : List (Fin (2 : BitVec 32).toNat) :=
  [cpu0, cpu0, cpu0, cpu0, cpu1, cpu1, cpu1, cpu1, cpu1, cpu0, cpu0, cpu1]

def exclusiveThenAtomic (c : Fin (2 : BitVec 32).toNat) (k : ℕ) : Status :=
  if c = cpu0 then (if k = 0 then .exclusive else .atomic) else .runnable

theorem exclusion_lock_step_held : ∃ s : State (2 : BitVec 32).toNat,
    Execution (next exclusiveThenAtomic) (KeepsExclusion exclusiveThenAtomic) (start 2) s ∧
      (s.cpus cpu0).holding = true ∧ LockStep exclusiveThenAtomic s ∧ NotStranded s := by
  have hrun : (follow (next exclusiveThenAtomic)
      (fun s c => KeepsExclusion exclusiveThenAtomic s c ∧ NoOvertaking s c) (start 2)
      oneTick).map (fun s => decide ((s.cpus cpu0).holding = true)) = some true := by
    decide +kernel
  obtain ⟨s, hs, hheld⟩ := Option.map_eq_some_iff.mp hrun
  have hexec := execution_of_follow hs
  have hexec' : Execution (next exclusiveThenAtomic) (KeepsExclusion exclusiveThenAtomic)
      (start 2) s := hexec.weaken fun _ _ hg => hg.1
  have hlock := exclusion_lock_step 2 (by decide) exclusiveThenAtomic hexec'
  exact ⟨s, hexec', of_decide_eq_true hheld, hlock.1, hlock.2 hexec⟩

def exclusiveThenRunnable (c : Fin (2 : BitVec 32).toNat) (k : ℕ) : Status :=
  if c = cpu0 ∧ k = 0 then .exclusive else .runnable

/-- In the second tick CPU 0 joins `first` and CPU 1 joins `second`. -/
theorem exclusion_joins_differ : ¬ ∀ (max : BitVec 32), 2 ≤ max.toNat →
    ∀ (status : Fin max.toNat → ℕ → Status) (s : State max.toNat),
      Execution (next status) (fun _ _ => True) (start max) s → LockStep status s := by
  intro hall
  have hrun : (follow (next exclusiveThenRunnable) (fun _ _ => True) (start 2)
      (oneTick ++ [cpu0, cpu0, cpu0, cpu1, cpu1, cpu1, cpu1])).map
        (fun s => decide ((s.cpus cpu0).joined 1 = [.first] ∧ (s.cpus cpu1).joined 1 = [.second])) =
      some true := by
    decide +kernel
  obtain ⟨s, hs, hfacts⟩ := Option.map_eq_some_iff.mp hrun
  obtain ⟨h0, h1⟩ := of_decide_eq_true hfacts
  have hlock := hall 2 (by decide) exclusiveThenRunnable s (execution_of_follow hs)
  have hatomic : ∀ i, exclusiveThenRunnable i 1 ≠ .atomic := by decide
  have hjoins := hlock.comparable 1 hatomic cpu0 cpu1
  rw [h0, h1] at hjoins
  revert hjoins
  decide

end Exclusion
