import Mathlib.Data.Fintype.Card
import Mathlib.Data.Finset.Card
import Metakernel.GuardedRuns

/-!
# Rendezvous points of rendezvous.c

Each CPU joins the two points in turn. The section of `rendezvous_join` under `mutex`, the
`SET_COND` after the unlock and every check of `cond` are single steps.
-/
namespace RendezvousBarrier

open GuardedRuns

structure Rendezvous where
  cond : Bool
  count : BitVec 32
  max : BitVec 32
  reset : Bool
  deriving DecidableEq, Repr

/-- `memset` is called with the value 0, with which it writes nothing. -/
def rendezvousInit (r : Rendezvous) (max : BitVec 32) : Rendezvous := { r with max := max }

def zeroed : Rendezvous := ⟨false, 0, 0, false⟩

inductive Arrival where
  | last | wait
  deriving DecidableEq, Repr

/-- The section of `rendezvous_join` under `mutex`. -/
def joinSection (r : Rendezvous) : Rendezvous × Arrival :=
  if r.reset then
    ({ r with reset := false, cond := false, count := 1 }, .wait)
  else if r.max = r.count + 1 then
    ({ r with count := r.count + 1, reset := true }, .last)
  else
    ({ r with count := r.count + 1 }, .wait)

theorem joinSection_reset {r : Rendezvous} (hreset : r.reset = true) :
    joinSection r = ({ r with reset := false, cond := false, count := 1 }, .wait) :=
  if_pos hreset

theorem joinSection_last {r : Rendezvous} (hreset : r.reset = false) (hmax : r.max = r.count + 1) :
    joinSection r = ({ r with count := r.count + 1, reset := true }, .last) := by
  rw [joinSection, if_neg (Bool.eq_false_iff.mp hreset), if_pos hmax]

theorem joinSection_wait {r : Rendezvous} (hreset : r.reset = false) (hmax : r.max ≠ r.count + 1) :
    joinSection r = ({ r with count := r.count + 1 }, .wait) := by
  rw [joinSection, if_neg (Bool.eq_false_iff.mp hreset), if_neg hmax]

inductive Point where
  | first | second
  deriving DecidableEq, Repr

instance : Fintype Point := ⟨{.first, .second}, fun p => by cases p <;> decide⟩

def Point.other : Point → Point
  | .first => .second
  | .second => .first

inductive Place where
  | outside (p : Point)
  | setCond (p : Point)
  | spin (p : Point)
  deriving DecidableEq, Repr

/-- `entered` and `left` count the joins of each point that the CPU has entered and left. -/
structure Cpu where
  place : Place
  entered : Point → ℕ
  left : Point → ℕ

/-- `signalled` lists the rounds of each point for which `SET_COND` has been executed. -/
structure State (ν : Type) where
  points : Point → Rendezvous
  cpus : ν → Cpu
  signalled : Point → List ℕ

def bump (f : Point → ℕ) (p : Point) : Point → ℕ := Function.update f p (f p + 1)

def Arrival.place (p : Point) : Arrival → Place
  | .last => .setCond p
  | .wait => .spin p

def Cpu.enter (c : Cpu) (p : Point) (a : Arrival) : Cpu :=
  { c with place := a.place p, entered := bump c.entered p }

def Cpu.leave (c : Cpu) (p : Point) : Cpu :=
  { c with place := .outside p.other, left := bump c.left p }

variable {ν : Type} [DecidableEq ν]

def State.join (s : State ν) (c : ν) (p : Point) : State ν :=
  { s with
    points := Function.update s.points p (joinSection (s.points p)).1
    cpus := Function.update s.cpus c ((s.cpus c).enter p (joinSection (s.points p)).2) }

def State.leave (s : State ν) (c : ν) (p : Point) : State ν :=
  { s with cpus := Function.update s.cpus c ((s.cpus c).leave p) }

def State.setCond (s : State ν) (c : ν) (p : Point) : State ν :=
  { s with
    points := Function.update s.points p { s.points p with cond := true }
    signalled := Function.update s.signalled p ((s.cpus c).entered p :: s.signalled p) }

def next (s : State ν) (c : ν) : Option (State ν) :=
  match (s.cpus c).place with
  | .outside p => some (s.join c p)
  | .setCond p => some ((s.setCond c p).leave c p)
  | .spin p => if (s.points p).cond then some (s.leave c p) else some s

/-- Both points are initialised in the storage `old`. -/
def start (max : BitVec 32) (old : Point → Rendezvous) : State ν :=
  ⟨fun p => rendezvousInit (old p) max, fun _ => ⟨.outside .first, fun _ => 0, fun _ => 0⟩,
    fun _ => []⟩

def Cpu.Ordered (c : Cpu) : Prop :=
  match c.place with
  | .outside .first => c.entered .first = c.left .first ∧ c.left .first = c.entered .second ∧
      c.entered .second = c.left .second
  | .setCond .first | .spin .first => c.entered .first = c.left .first + 1 ∧
      c.left .first = c.entered .second ∧ c.entered .second = c.left .second
  | .outside .second => c.entered .first = c.left .first ∧
      c.left .first = c.entered .second + 1 ∧ c.entered .second = c.left .second
  | .setCond .second | .spin .second => c.entered .first = c.left .first ∧
      c.left .first = c.entered .second ∧ c.entered .second = c.left .second + 1

theorem Cpu.Ordered.enter {c : Cpu} {p : Point} (h : c.Ordered) (hp : c.place = .outside p)
    (a : Arrival) : (c.enter p a).Ordered := by
  cases p <;> cases a <;> simp_all [Cpu.Ordered, Cpu.enter, Arrival.place, bump, Function.update]

theorem Cpu.Ordered.leave {c : Cpu} {p : Point} (h : c.Ordered)
    (hp : c.place = .setCond p ∨ c.place = .spin p) : (c.leave p).Ordered := by
  cases p <;> rcases hp with hp | hp <;>
    simp_all [Cpu.Ordered, Cpu.leave, Point.other, bump, Function.update]

theorem Cpu.Ordered.left_eq {c : Cpu} {p : Point} (h : c.Ordered) (hp : c.place = .outside p) :
    c.left p = c.entered p := by
  cases p <;> simp_all [Cpu.Ordered]

theorem Cpu.Ordered.entered_eq {c : Cpu} {p : Point} (h : c.Ordered)
    (hp : c.place = .setCond p ∨ c.place = .spin p) : c.entered p = c.left p + 1 := by
  cases p <;> rcases hp with hp | hp <;> simp_all [Cpu.Ordered]

theorem Cpu.Ordered.bounds {c : Cpu} (h : c.Ordered) :
    (∀ p, c.left p ≤ c.entered p ∧ c.entered p ≤ c.left p + 1) ∧
      c.entered .second ≤ c.left .first ∧ c.entered .first ≤ c.left .second + 1 := by
  rcases c with ⟨place, entered, left⟩
  refine ⟨fun p => ?_, ?_, ?_⟩
  · rcases place with q | q | q <;> cases q <;> cases p <;> simp [Cpu.Ordered] at h ⊢ <;> omega
  · rcases place with q | q | q <;> cases q <;> simp [Cpu.Ordered] at h ⊢ <;> omega
  · rcases place with q | q | q <;> cases q <;> simp [Cpu.Ordered] at h ⊢ <;> omega

structure Rounds (max : BitVec 32) (s : State (Fin max.toNat)) (p : Point) (r : ℕ) : Prop where
  max_eq : (s.points p).max = max
  entered : ∀ i, (s.cpus i).entered p = r ∨ (s.cpus i).entered p = r + 1
  late : ∃ i, (s.cpus i).entered p = r
  left_le : ∀ i, (s.cpus i).left p ≤ r
  reset : (s.points p).reset = true ↔ r ≠ 0 ∧ ∀ i, (s.cpus i).entered p = r
  count : (s.points p).reset = false → (s.points p).count.toNat =
    (Finset.univ.filter fun i => (s.cpus i).entered p = r + 1).card
  all_left : (s.points p).reset = false → ∀ i, r ≤ (s.cpus i).left p
  setter : ∀ i, (s.cpus i).place = .setCond p → (s.points p).reset = true
  cond_reset : (s.points p).cond = true → (s.points p).reset = true
  waker : (s.points p).reset = true → (s.points p).cond = false → ∃ i, (s.cpus i).place = .setCond p
  signalled_le : ∀ k ∈ s.signalled p, k ≤ r
  unsignalled : (s.points p).reset = true → (s.points p).cond = false → r ∉ s.signalled p

structure Inv (max : BitVec 32) (s : State (Fin max.toNat)) : Prop where
  ordered : ∀ i, (s.cpus i).Ordered
  rounds : ∀ p, ∃ r, Rounds max s p r

variable {max : BitVec 32} {s t : State (Fin max.toNat)} {p q : Point} {r : ℕ}
  {c : Fin max.toNat}

theorem start_inv (two : 2 ≤ max.toNat) : Inv max (start max fun _ => zeroed) := by
  refine ⟨fun i => ⟨rfl, rfl, rfl⟩, fun p => ⟨0, ?_⟩⟩
  constructor <;> simp [start, rendezvousInit, zeroed]
  exact ⟨⟨0, by omega⟩⟩

theorem Rounds.congr (h : Rounds max s q r) (hpoint : t.points q = s.points q)
    (hsignalled : t.signalled q = s.signalled q)
    (hentered : ∀ i, (t.cpus i).entered q = (s.cpus i).entered q)
    (hleft : ∀ i, (t.cpus i).left q = (s.cpus i).left q)
    (hplace : ∀ i, (t.cpus i).place = .setCond q ↔ (s.cpus i).place = .setCond q) :
    Rounds max t q r := by
  constructor <;> simp only [hpoint, hsignalled, hentered, hleft, hplace]
  · exact h.max_eq
  · exact h.entered
  · exact h.late
  · exact h.left_le
  · exact h.reset
  · exact h.count
  · exact h.all_left
  · exact h.setter
  · exact h.cond_reset
  · exact h.waker
  · exact h.signalled_le
  · exact h.unsignalled

theorem Rounds.forget (h : Rounds max s p r) :
    Rounds max { s with signalled := fun _ => [] } p r :=
  { h with
    signalled_le := fun _ hk => absurd hk List.not_mem_nil
    unsignalled := fun _ _ => List.not_mem_nil }

theorem Rounds.left_le_entered (h : Rounds max s p r) (i j : Fin max.toNat) :
    (s.cpus i).left p ≤ (s.cpus j).entered p := by
  have hi := h.left_le i
  have hj := h.entered j
  omega

/-- Once the `SET_COND` of a round is executed, `cond` is set while a CPU has not left it. -/
theorem Rounds.cond_set (h : Rounds max s p r) (ho : ∀ i, (s.cpus i).Ordered) {k : ℕ}
    (hk : k ∈ s.signalled p) {i : Fin max.toNat} (hi : (s.cpus i).left p < k) :
    (s.points p).cond = true := by
  have hle := h.signalled_le k hk
  cases hr : (s.points p).reset
  · have := h.all_left hr i
    omega
  · by_contra hcond
    have hne : k ≠ r := by
      intro he
      exact h.unsignalled hr (Bool.eq_false_iff.mpr hcond) (he ▸ hk)
    have hentered := (h.reset.mp hr).2 i
    have hbounds := ((ho i).bounds.1 p).2
    omega

/-- A CPU that waits in a round sees `cond` set, or a CPU is about to set it, or a CPU has not
entered the round yet. -/
theorem Rounds.not_stranded (h : Rounds max s p r) {i : Fin max.toNat}
    (hi : (s.cpus i).entered p = (s.cpus i).left p + 1) : (s.points p).cond = true ∨
      (∃ j, (s.cpus j).place = .setCond p) ∨ ∃ j, (s.cpus j).entered p < (s.cpus i).entered p := by
  cases hr : (s.points p).reset
  · obtain ⟨j, hj⟩ := h.late
    have hleft := h.all_left hr i
    exact Or.inr (Or.inr ⟨j, by omega⟩)
  · cases hcond : (s.points p).cond
    · exact Or.inr (Or.inl (h.waker hr hcond))
    · exact Or.inl rfl

/-- A CPU that comes to a full round has left the other point, which every CPU had to enter. -/
theorem Inv.all_left_of_outside (h : Inv max s) (hp : (s.cpus c).place = .outside p)
    (i : Fin max.toNat) : (s.cpus c).entered p ≤ (s.cpus i).left p := by
  have hi := (h.ordered i).bounds.2
  have hc := h.ordered c
  cases p
  · obtain ⟨r, hr⟩ := h.rounds .second
    have hle := hr.left_le_entered c i
    simp only [Cpu.Ordered, hp] at hc
    omega
  · obtain ⟨r, hr⟩ := h.rounds .first
    have hle := hr.left_le_entered c i
    simp only [Cpu.Ordered, hp] at hc
    omega

@[simp] theorem bump_self (f : Point → ℕ) : bump f p p = f p + 1 := by simp [bump]

theorem bump_of_ne (f : Point → ℕ) (h : q ≠ p) : bump f p q = f q := by simp [bump, h]

theorem join_entered (i : Fin max.toNat) : ((s.join c p).cpus i).entered q =
    if i = c ∧ q = p then (s.cpus i).entered q + 1 else (s.cpus i).entered q := by
  by_cases hi : i = c <;> by_cases hq : q = p <;>
    simp [State.join, Cpu.enter, hi, hq, bump_of_ne]

theorem join_points : (s.join c p).points p = (joinSection (s.points p)).1 := by
  simp [State.join]

theorem join_left (i : Fin max.toNat) : ((s.join c p).cpus i).left q = (s.cpus i).left q := by
  by_cases hi : i = c <;> simp [State.join, Cpu.enter, hi]

theorem leave_entered (i : Fin max.toNat) :
    ((s.leave c p).cpus i).entered q = (s.cpus i).entered q := by
  by_cases hi : i = c <;> simp [State.leave, Cpu.leave, hi]

theorem leave_left (i : Fin max.toNat) : ((s.leave c p).cpus i).left q =
    if i = c ∧ q = p then (s.cpus i).left q + 1 else (s.cpus i).left q := by
  by_cases hi : i = c <;> by_cases hq : q = p <;>
    simp [State.leave, Cpu.leave, hi, hq, bump_of_ne]

theorem leave_place (i : Fin max.toNat) : ((s.leave c p).cpus i).place = .setCond q ↔
    i ≠ c ∧ (s.cpus i).place = .setCond q := by
  by_cases hi : i = c <;> simp [State.leave, Cpu.leave, hi]

theorem join_arrivals (hc : (s.cpus c).entered p = r) :
    (Finset.univ.filter fun i => ((s.join c p).cpus i).entered p = r + 1) =
      insert c (Finset.univ.filter fun i => (s.cpus i).entered p = r + 1) := by
  ext i
  by_cases hi : i = c <;> simp [join_entered, hi, hc]

theorem Rounds.leave (h : Rounds max s q r) (hc : (s.cpus c).entered p = (s.cpus c).left p + 1)
    (hplace : (s.cpus c).place = .setCond p ∨ (s.cpus c).place = .spin p)
    (hcond : (s.points p).cond = true) : Rounds max (s.leave c p) q r := by
  by_cases hq : q = p
  · subst hq
    have hr := h.cond_reset hcond
    have hall := (h.reset.mp hr).2
    constructor <;> try simp only [leave_entered]
    · exact h.max_eq
    · exact h.entered
    · exact h.late
    · intro i
      have hle := h.left_le i
      rw [leave_left]
      split
      · rename_i hi
        rw [hi.1, ← hc, hall]
      · exact hle
    · exact h.reset
    · exact h.count
    · intro hf
      exact absurd hr (Bool.eq_false_iff.mp hf)
    · exact fun i hi => h.setter i ((leave_place i).mp hi).2
    · exact h.cond_reset
    · intro _ hf
      exact absurd hcond (Bool.eq_false_iff.mp hf)
    · exact h.signalled_le
    · exact h.unsignalled
  · apply h.congr
    · rfl
    · rfl
    · exact leave_entered
    · intro i
      rw [leave_left, if_neg fun hi => hq hi.2]
    · intro i
      rw [leave_place, and_iff_right_iff_imp]
      intro hi hic
      rw [hic] at hi
      rcases hplace with hc' | hc' <;> simp [hc', Ne.symm hq] at hi

theorem Rounds.setCond (h : Rounds max s q r) (hc : (s.cpus c).place = .setCond p) :
    Rounds max (s.setCond c p) q r := by
  by_cases hq : q = p
  · subst hq
    have hr := h.setter c hc
    have hall := (h.reset.mp hr).2
    constructor <;> simp only [State.setCond, Function.update_self]
    · exact h.max_eq
    · exact h.entered
    · exact h.late
    · exact h.left_le
    · exact h.reset
    · exact h.count
    · exact h.all_left
    · exact h.setter
    · exact fun _ => hr
    · intro _ hf
      cases hf
    · intro k hk
      rcases List.mem_cons.mp hk with hk | hk
      · rw [hk, hall]
      · exact h.signalled_le k hk
    · intro _ hf
      cases hf
  · apply h.congr
    · simp [State.setCond, hq]
    · simp [State.setCond, hq]
    · exact fun _ => rfl
    · exact fun _ => rfl
    · exact fun _ => Iff.rfl

theorem Rounds.join_of_ne (h : Rounds max s q r) (hp : (s.cpus c).place = .outside p)
    (hq : q ≠ p) : Rounds max (s.join c p) q r := by
  apply h.congr
  · simp [State.join, hq]
  · rfl
  · intro i
    rw [join_entered, if_neg fun hi => hq hi.2]
  · exact join_left
  · intro i
    by_cases hic : i = c
    · subst hic
      cases ha : (joinSection (s.points p)).2 <;>
        simp [State.join, Cpu.enter, Arrival.place, ha, hp, Ne.symm hq]
    · simp [State.join, hic]

/-- The place of a CPU after the section of another, or of its own. -/
theorem join_place {i : Fin max.toNat} (h : ((s.join c p).cpus i).place = .setCond p) :
    (i = c ∧ (joinSection (s.points p)).2 = .last) ∨ (i ≠ c ∧ (s.cpus i).place = .setCond p) := by
  by_cases hi : i = c
  · subst hi
    cases ha : (joinSection (s.points p)).2
    · exact Or.inl ⟨rfl, rfl⟩
    · simp [State.join, Cpu.enter, Arrival.place, ha] at h
  · exact Or.inr ⟨hi, by simpa [State.join, hi] using h⟩

/-- The first arriver of the next round: every CPU has left the full one. -/
theorem Rounds.join_reset (h : Rounds max s p r)
    (ho : ∀ i, (s.cpus i).place = .setCond p → (s.cpus i).entered p = (s.cpus i).left p + 1)
    (two : 2 ≤ max.toNat) (hreset : (s.points p).reset = true)
    (hleft : ∀ i, r ≤ (s.cpus i).left p) : Rounds max (s.join c p) p r := by
  obtain ⟨hr, hall⟩ := h.reset.mp hreset
  have hpoint : (s.join c p).points p =
      { s.points p with reset := false, cond := false, count := 1 } := by
    rw [join_points, joinSection_reset hreset]
  have harrival : (joinSection (s.points p)).2 = .wait := by rw [joinSection_reset hreset]
  have hnone : (Finset.univ.filter fun i => (s.cpus i).entered p = r + 1) = ∅ := by
    simp [hall]
  obtain ⟨j, hj⟩ : ∃ j, j ≠ c := by
    have : Nontrivial (Fin max.toNat) := Fin.nontrivial_iff_two_le.mpr two
    exact exists_ne c
  constructor <;> try simp only [hpoint, join_left]
  · exact h.max_eq
  · intro i
    rw [join_entered, hall]
    split
    · exact Or.inr rfl
    · exact Or.inl rfl
  · exact ⟨j, by rw [join_entered, if_neg fun hi => hj hi.1, hall]⟩
  · exact h.left_le
  · refine ⟨fun hf => absurd hf Bool.false_ne_true, fun hi => ?_⟩
    have hc := hi.2 c
    rw [join_entered, if_pos ⟨rfl, rfl⟩, hall] at hc
    omega
  · intro _
    rw [join_arrivals (hall c), hnone]
    rfl
  · exact fun _ => hleft
  · intro i hi
    rcases join_place hi with ⟨_, ha⟩ | ⟨_, hi⟩
    · rw [harrival] at ha
      cases ha
    · have hentered := ho i hi
      have hlt := hleft i
      have heq := hall i
      omega
  · exact fun hf => hf
  · intro hf
    cases hf
  · exact h.signalled_le
  · intro hf
    cases hf

theorem arrivals_lt (hc : (s.cpus c).entered p = r) :
    (Finset.univ.filter fun i => (s.cpus i).entered p = r + 1).card < max.toNat := by
  have hlt : (Finset.univ.filter fun i => (s.cpus i).entered p = r + 1).card <
      (Finset.univ : Finset (Fin max.toNat)).card := by
    apply Finset.card_lt_card
    rw [Finset.ssubset_univ_iff]
    intro hall
    have hmem := Finset.mem_univ c
    rw [← hall, Finset.mem_filter, hc] at hmem
    omega
  rwa [Finset.card_univ, Fintype.card_fin] at hlt

/-- The number of arrivals after one more CPU has entered the round under way. -/
theorem Rounds.count_join (h : Rounds max s p r) (hreset : (s.points p).reset = false)
    (hc : (s.cpus c).entered p = r) : ((s.points p).count + 1).toNat =
      (Finset.univ.filter fun i => ((s.join c p).cpus i).entered p = r + 1).card := by
  have hlt := arrivals_lt hc
  have hmax := max.isLt
  rw [join_arrivals hc, Finset.card_insert_of_notMem (by simp [hc]), ← h.count hreset,
    BitVec.toNat_add]
  rw [← h.count hreset] at hlt
  exact Nat.mod_eq_of_lt (by simpa using Nat.lt_of_le_of_lt hlt hmax)

theorem Rounds.join_wait (h : Rounds max s p r) (hreset : (s.points p).reset = false)
    (hc : (s.cpus c).entered p = r) (hmax : max ≠ (s.points p).count + 1) :
    Rounds max (s.join c p) p r := by
  have hmax' : (s.points p).max ≠ (s.points p).count + 1 := by rwa [h.max_eq]
  have hpoint : (s.join c p).points p = { s.points p with count := (s.points p).count + 1 } := by
    rw [join_points, joinSection_wait hreset hmax']
  have harrival : (joinSection (s.points p)).2 = .wait := by
    rw [joinSection_wait hreset hmax']
  have hcount := h.count_join hreset hc
  have hentered : ∀ i, ((s.join c p).cpus i).entered p = r ∨
      ((s.join c p).cpus i).entered p = r + 1 := by
    intro i
    rw [join_entered]
    split
    · rename_i hi
      rw [hi.1, hc]
      exact Or.inr rfl
    · exact h.entered i
  constructor <;> try simp only [hpoint, join_left]
  · exact h.max_eq
  · exact hentered
  · by_contra hnone
    have hall : (Finset.univ.filter fun i => ((s.join c p).cpus i).entered p = r + 1) =
        Finset.univ := by
      apply Finset.filter_true_of_mem
      intro i _
      exact (hentered i).resolve_left fun hi => hnone ⟨i, hi⟩
    rw [hall, Finset.card_univ, Fintype.card_fin] at hcount
    exact hmax (BitVec.eq_of_toNat_eq hcount.symm)
  · exact h.left_le
  · rw [hreset]
    refine ⟨fun hf => absurd hf Bool.false_ne_true, fun hi => ?_⟩
    have hc' := hi.2 c
    rw [join_entered, if_pos ⟨rfl, rfl⟩, hc] at hc'
    omega
  · exact fun _ => hcount
  · exact h.all_left
  · intro i hi
    rcases join_place hi with ⟨_, ha⟩ | ⟨_, hi⟩
    · rw [harrival] at ha
      cases ha
    · exact h.setter i hi
  · exact h.cond_reset
  · intro hf
    exact absurd hf (Bool.eq_false_iff.mp hreset)
  · exact h.signalled_le
  · exact h.unsignalled

theorem Rounds.join_last (h : Rounds max s p r) (hreset : (s.points p).reset = false)
    (hc : (s.cpus c).entered p = r) (hmax : max = (s.points p).count + 1) :
    Rounds max (s.join c p) p (r + 1) := by
  have hpoint : (s.join c p).points p =
      { s.points p with count := (s.points p).count + 1, reset := true } := by
    rw [join_points, joinSection_last hreset (h.max_eq.trans hmax)]
  have hplace : ((s.join c p).cpus c).place = .setCond p := by
    simp [State.join, Cpu.enter, joinSection_last hreset (h.max_eq.trans hmax), Arrival.place]
  have hall : ∀ i, ((s.join c p).cpus i).entered p = r + 1 := by
    have hcard := h.count_join hreset hc
    rw [← hmax] at hcard
    have huniv := Finset.eq_univ_of_card _ (hcard.symm.trans (Fintype.card_fin _).symm)
    intro i
    have hi := Finset.mem_univ i
    rw [← huniv, Finset.mem_filter] at hi
    exact hi.2
  constructor <;> try simp only [hpoint, join_left]
  · exact h.max_eq
  · exact fun i => Or.inl (hall i)
  · exact ⟨c, hall c⟩
  · exact fun i => Nat.le_succ_of_le (h.left_le i)
  · exact ⟨fun _ => ⟨Nat.succ_ne_zero r, hall⟩, fun _ => trivial⟩
  · intro hf
    cases hf
  · intro hf
    cases hf
  · exact fun _ _ => trivial
  · exact fun _ => trivial
  · exact fun _ _ => ⟨c, hplace⟩
  · exact fun k hk => Nat.le_succ_of_le (h.signalled_le k hk)
  · intro _ _ hk
    have := h.signalled_le _ hk
    omega

theorem Inv.entered_eq (h : Inv max s) (hr : Rounds max s p r)
    (hp : (s.cpus c).place = .outside p) : (s.cpus c).entered p = r := by
  have hle := hr.left_le c
  rw [(h.ordered c).left_eq hp] at hle
  have hentered := hr.entered c
  omega

theorem join_preserves_inv (two : 2 ≤ max.toNat) (h : Inv max s)
    (hp : (s.cpus c).place = .outside p) : Inv max (s.join c p) := by
  constructor
  · intro i
    by_cases hi : i = c
    · subst hi
      simpa [State.join] using (h.ordered i).enter hp _
    · simpa [State.join, hi] using h.ordered i
  · intro q
    obtain ⟨r, hr⟩ := h.rounds q
    by_cases hq : q = p
    · subst hq
      have hc := h.entered_eq hr hp
      cases hreset : (s.points q).reset
      · by_cases hmax : max = (s.points q).count + 1
        · exact ⟨r + 1, hr.join_last hreset hc hmax⟩
        · exact ⟨r, hr.join_wait hreset hc hmax⟩
      · have hleft := h.all_left_of_outside hp
        rw [hc] at hleft
        exact ⟨r, hr.join_reset (fun i hi => (h.ordered i).entered_eq (Or.inl hi)) two hreset hleft⟩
    · exact ⟨r, hr.join_of_ne hp hq⟩

theorem leave_preserves_inv (h : Inv max s)
    (hp : (s.cpus c).place = .setCond p ∨ (s.cpus c).place = .spin p)
    (hcond : (s.points p).cond = true) : Inv max (s.leave c p) := by
  constructor
  · intro i
    by_cases hi : i = c
    · subst hi
      simpa [State.leave] using (h.ordered i).leave hp
    · simpa [State.leave, hi] using h.ordered i
  · intro q
    obtain ⟨r, hr⟩ := h.rounds q
    exact ⟨r, hr.leave ((h.ordered c).entered_eq hp) hp hcond⟩

theorem setCond_preserves_inv (h : Inv max s) (hp : (s.cpus c).place = .setCond p) :
    Inv max (s.setCond c p) := by
  refine ⟨h.ordered, fun q => ?_⟩
  obtain ⟨r, hr⟩ := h.rounds q
  exact ⟨r, hr.setCond hp⟩

theorem step_preserves_inv (two : 2 ≤ max.toNat) (h : Inv max s) (hn : next s c = some t) :
    Inv max t := by
  unfold next at hn
  split at hn
  · rename_i p hp
    cases hn
    exact join_preserves_inv two h hp
  · rename_i p hp
    cases hn
    apply leave_preserves_inv (setCond_preserves_inv h hp) (Or.inl hp)
    simp [State.setCond]
  · rename_i p hp
    split at hn
    · rename_i hcond
      cases hn
      exact leave_preserves_inv h (Or.inr hp) hcond
    · cases hn
      exact h

/-- Two points in zeroed storage that are joined in turn form a reusable barrier: no CPU has returned
from more joins of a point than any CPU has entered, and `cond` is set from the `SET_COND` of a round
on for as long as some CPU has not left that round. -/
theorem alternating_points_barrier (max : BitVec 32) (two : 2 ≤ max.toNat)
    {s : State (Fin max.toNat)}
    (h : Execution next (fun _ _ => True) (start max fun _ => zeroed) s) (p : Point) :
    (∀ i j, (s.cpus i).left p ≤ (s.cpus j).entered p) ∧
      ∀ k ∈ s.signalled p, (∃ i, (s.cpus i).left p < k) → (s.points p).cond = true := by
  have hI : Inv max s :=
    h.preserves (fun _ _ _ hI _ hn => step_preserves_inv two hI hn) (start_inv two)
  obtain ⟨r, hr⟩ := hI.rounds p
  refine ⟨hr.left_le_entered, fun k hk hi => ?_⟩
  obtain ⟨i, hi⟩ := hi
  exact hr.cond_set hI.ordered hk hi

theorem alternating_points_late_leaver : ∃ s : State (Fin (2 : BitVec 32).toNat),
    Execution next (fun _ _ => True) (start 2 fun _ => zeroed) s ∧ s.signalled .first = [1] ∧
      (s.cpus ⟨0, by decide⟩).left .first = 0 ∧ (s.points .first).cond = true ∧
      ∀ i j, (s.cpus i).left .first ≤ (s.cpus j).entered .first := by
  have hrun : (follow next (fun _ _ => True) (start (2 : BitVec 32) fun _ => zeroed)
      [⟨0, by decide⟩, ⟨1, by decide⟩, ⟨1, by decide⟩]).map
        (fun s : State (Fin (2 : BitVec 32).toNat) => decide (s.signalled .first = [1] ∧
          (s.cpus ⟨0, by decide⟩).left .first = 0)) = some true := by
    decide +kernel
  obtain ⟨s, hs, hfacts⟩ := Option.map_eq_some_iff.mp hrun
  obtain ⟨hsignalled, hleft⟩ := of_decide_eq_true hfacts
  have hexec := execution_of_follow hs
  have hbarrier := alternating_points_barrier 2 (by decide) hexec .first
  refine ⟨s, hexec, hsignalled, hleft, ?_, hbarrier.1⟩
  apply hbarrier.2 1
  · rw [hsignalled]
    exact List.mem_singleton_self 1
  · exact ⟨⟨0, by decide⟩, by rw [hleft]; exact Nat.zero_lt_one⟩

/-- In storage that is not zero the first CPU to arrive finds `cond` set, and leaves alone. -/
theorem stale_point_left_alone : ∃ s : State (Fin (2 : BitVec 32).toNat),
    Execution next (fun _ _ => True) (start 2 fun _ => { zeroed with cond := true }) s ∧
      ¬ ∀ i j, (s.cpus i).left .first ≤ (s.cpus j).entered .first := by
  have hrun : (follow next (fun _ _ => True)
      (start (2 : BitVec 32) fun _ => { zeroed with cond := true })
      [⟨0, by decide⟩, ⟨0, by decide⟩]).map
        (fun s : State (Fin (2 : BitVec 32).toNat) =>
          decide (∀ i j, (s.cpus i).left .first ≤ (s.cpus j).entered .first)) = some false := by
    decide +kernel
  obtain ⟨s, hs, hfacts⟩ := Option.map_eq_some_iff.mp hrun
  exact ⟨s, execution_of_follow hs, of_decide_eq_false hfacts⟩

end RendezvousBarrier
