import Metakernel.JumpCode
import Metakernel.GuardedRuns

/-!
# The spin lock, instruction by instruction

`spin_lock`, `spin_unlock` and `spin_trylock` of ia_32_spin_lock.s, run by any number of processors
on one memory. The code takes the second word above the return address for the address of the lock.
-/
namespace SpinLockCode

open WordCode (Memory load store)
open JumpCode GuardedRuns

def spinLock : List Instr :=
  [.op 32 .mov (.reg .eax) (.mem (some .esp) 8),
   -- .loop
   .bitTest (.mem (some .eax) 0),
   .jump .carry 1,
   .bitTestSet (.mem (some .eax) 0),
   .skip,
   .jump .carry 1,
   .ret]

def spinUnlock : List Instr :=
  [.op 32 .mov (.reg .eax) (.mem (some .esp) 8),
   .op 8 .mov (.mem (some .eax) 0) (.imm 0),
   .ret]

def spinTrylock : List Instr :=
  [.op 32 .mov (.reg .eax) (.mem (some .esp) 8),
   .bitTestSet (.mem (some .eax) 0),
   .jump .carry 15,
   .op 32 .mov (.reg .eax) (.imm 1),
   .ret,
   -- .fail
   .op 32 .xor (.reg .eax) (.reg .eax),
   .ret]

def spinCode : List Instr := spinLock ++ spinUnlock ++ spinTrylock

inductive Entry where
  | lock | unlock | trylock
  deriving DecidableEq, Repr

def Entry.place : Entry → ℕ
  | .lock => 0
  | .unlock => 7
  | .trylock => 10

def argument (c : Cpu) (m : Memory) : BitVec 32 := load m (c.regs .esp + 8)

/-- `arg` is the address that the call under way has read, `holds` what the callers of the functions
can tell: `spin_lock` has returned, or `spin_trylock` has returned 1, and `spin_unlock` has not been
entered since. Both speak of one lock. -/
structure System (κ : Type*) where
  machine : Machine κ
  arg : κ → BitVec 32
  holds : κ → Bool

/-- A processor outside calls one of the functions, goes on with the code, or something else is
done to memory and ports. -/
inductive Event (κ : Type*) where
  | call (k : κ) (f : Entry) (c : Cpu) (s : Shared)
  | instr (k : κ)
  | elsewhere (s : Shared)

def argAfter (c : Cpu) (m : Memory) (old : BitVec 32) : BitVec 32 :=
  match c.pc with
  | .at 0 | .at 7 | .at 10 => argument c m
  | _ => old

def holdsAfter (lock : BitVec 32) (c : Cpu) (m : Memory) (arg : BitVec 32) (old : Bool) : Bool :=
  match c.pc with
  | .at 6 => if arg = lock then true else old
  | .at 7 => if argument c m = lock then false else old
  | .at 14 | .at 16 => if arg = lock ∧ c.regs .eax ≠ 0 then true else old
  | _ => old

section Calls

variable {κ : Type*} [DecidableEq κ] (env : Env) (lock : BitVec 32)

def step (s : System κ) : Event κ → Option (System κ)
  | .call k f c sh =>
    match (s.machine.cpus k).pc with
    | .out _ =>
      let cpus := Function.update s.machine.cpus k { c with pc := .at f.place }
      some { s with machine := ⟨cpus, sh⟩ }
    | .at _ | .fault _ => none
  | .instr k =>
    let c := s.machine.cpus k
    let m := s.machine.shared.mem
    (s.machine.step env spinCode k).map fun machine =>
      { machine
        arg := Function.update s.arg k (argAfter c m (s.arg k))
        holds := Function.update s.holds k (holdsAfter lock c m (s.arg k) (s.holds k)) }
  | .elsewhere sh => some { s with machine := ⟨s.machine.cpus, sh⟩ }

/-- Only who holds the lock gives it up, and other code leaves its byte alone. -/
def Guard (s : System κ) : Event κ → Prop
  | .call _ _ _ sh | .elsewhere sh => sh.mem lock = s.machine.shared.mem lock
  | .instr k => (s.machine.cpus k).pc = .at 7 →
      argument (s.machine.cpus k) s.machine.shared.mem = lock → s.holds k = true

structure Initial (s : System κ) : Prop where
  outside : ∀ k, ∃ a, (s.machine.cpus k).pc = .out a
  clear : (s.machine.shared.mem lock).getLsbD 0 = false
  held : ∀ k, s.holds k = false

end Calls

/-- The instruction that takes the lock has been carried out, or the one that clears it has not. -/
def acquired (c : Cpu) : Bool :=
  match c.pc with
  | .at 4 | .at 5 | .at 12 => !c.carry
  | .at 6 | .at 8 | .at 13 | .at 14 => true
  | _ => false

def OnWay (c : Cpu) (arg : BitVec 32) : Prop :=
  match c.pc with
  | .at 1 | .at 2 | .at 3 | .at 4 | .at 5 | .at 8 | .at 11 => c.regs .eax = arg
  | .at 14 => c.regs .eax = 1
  | .at 16 => c.regs .eax = 0
  | _ => True

def owns (lock : BitVec 32) (c : Cpu) (arg : BitVec 32) (holds : Bool) : Bool :=
  holds || (acquired c && arg == lock)

structure Owned {κ : Type*} (lock : BitVec 32) (s : System κ) (o : Option κ) : Prop where
  locked : (s.machine.shared.mem lock).getLsbD 0 = o.isSome
  owner : ∀ k, owns lock (s.machine.cpus k) (s.arg k) (s.holds k) = true ↔ o = some k
  once : ∀ k, s.holds k = true → acquired (s.machine.cpus k) = true → s.arg k ≠ lock
  onWay : ∀ k, OnWay (s.machine.cpus k) (s.arg k)

inductive Effect (before after ownsBefore ownsAfter : Bool) : Prop where
  | same : after = before → ownsAfter = ownsBefore → Effect before after ownsBefore ownsAfter
  | take : before = false → after = true → ownsAfter = true →
      Effect before after ownsBefore ownsAfter
  | clear : ownsBefore = true → after = false → ownsAfter = false →
      Effect before after ownsBefore ownsAfter

section Instructions

variable {env : Env} {lock arg : BitVec 32} {holds : Bool} {c c' : Cpu} {s s' : Shared}

theorem place_lt {i : ℕ} {ins : Instr} (h : spinCode[i]? = some ins) : i < 17 := by
  have := (List.getElem?_eq_some_iff.mp h).1
  simpa [spinCode, spinLock, spinUnlock, spinTrylock] using this

/-- `bts` takes a lock that is clear. -/
theorem set_effect (hset : holds = true → (s.mem lock).getLsbD 0 = true) :
    (holds = true → (!(s.mem arg).getLsbD 0) = true → arg ≠ lock) ∧
      Effect ((s.mem lock).getLsbD 0)
        ((Function.update s.mem arg (s.mem arg ||| 1) lock).getLsbD 0) holds
        (holds || (!(s.mem arg).getLsbD 0 && arg == lock)) := by
  by_cases harg : arg = lock
  · subst harg
    rw [Function.update_self]
    cases hbit : (s.mem arg).getLsbD 0 with
    | true => exact ⟨by simp, .same (by simp) (by simp)⟩
    | false =>
      have hfree : holds = false := by
        cases holds with
        | false => rfl
        | true => exact absurd (hbit.symm.trans (hset rfl)) (by decide)
      exact ⟨by simp [hfree], .take rfl (by simp) (by simp)⟩
  · rw [Function.update_of_ne (Ne.symm harg)]
    exact ⟨fun _ _ => harg, .same rfl (by simp [harg])⟩

/-- The store of `spin_unlock` clears the lock it was called for. -/
theorem clear_effect (honce : holds = true → arg ≠ lock) :
    Effect ((s.mem lock).getLsbD 0) ((Function.update s.mem arg 0 lock).getLsbD 0)
      (holds || arg == lock) holds := by
  by_cases harg : arg = lock
  · subst harg
    have hgone : holds = false := by
      cases holds with
      | false => rfl
      | true => exact absurd rfl (honce rfl)
    exact .clear (by simp) (by simp) hgone
  · rw [Function.update_of_ne (Ne.symm harg)]
    exact .same rfl (by simp [harg])

theorem instr_effect (hway : OnWay c arg)
    (honce : holds = true → acquired c = true → arg ≠ lock)
    (hset : owns lock c arg holds = true → (s.mem lock).getLsbD 0 = true)
    (hguard : c.pc = .at 7 → argument c s.mem = lock → holds = true)
    (hstep : JumpCode.step env spinCode (c, s) = some (c', s')) :
    OnWay c' (argAfter c s.mem arg) ∧
      (holdsAfter lock c s.mem arg holds = true → acquired c' = true →
        argAfter c s.mem arg ≠ lock) ∧
      Effect ((s.mem lock).getLsbD 0) ((s'.mem lock).getLsbD 0) (owns lock c arg holds)
        (owns lock c' (argAfter c s.mem arg) (holdsAfter lock c s.mem arg holds)) := by
  obtain ⟨regs, carry, zero, table, task, pc⟩ := c
  cases pc with
  | out a => simp [JumpCode.step] at hstep
  | fault i => simp [JumpCode.step] at hstep
  | «at» i =>
    simp only [JumpCode.step, Option.map_eq_some_iff] at hstep
    obtain ⟨ins, hcode, hexec⟩ := hstep
    have hi := place_lt hcode
    interval_cases i
    all_goals
      simp only [spinCode, spinLock, spinUnlock, spinTrylock, List.cons_append, List.nil_append,
        List.getElem?_cons_zero, List.getElem?_cons_succ, Option.some.injEq] at hcode
      subst hcode
      simp only [exec, put, value, Cpu.addr, Option.elim, merge_word, BitVec.setWidth_eq, Op.eval,
        Op.carry, Op.zero, Op.keepsFlags, if_true, Cond.holds, add_zero, store_set_bit,
        store_merge_byte, load_first_bit, Prod.mk.injEq, BitVec.xor_self] at hexec
      obtain ⟨rfl, rfl⟩ := hexec
      simp only [OnWay, acquired, owns, argAfter, holdsAfter, forall_const, Bool.false_eq_true,
        false_imp_iff, implies_true, Function.update_self, true_and, Bool.false_and, Bool.or_false,
        Bool.true_and] at *
    -- The places in the order of the code; the jumps go two ways.
    case «0» => exact ⟨rfl, .same rfl rfl⟩
    case «1» => exact ⟨hway, .same rfl rfl⟩
    case «2» => cases carry <;> exact ⟨hway, by simp, .same rfl (by simp)⟩
    case «3» =>
      rw [hway]
      exact ⟨rfl, set_effect hset⟩
    case «4» => exact ⟨hway, honce, .same rfl rfl⟩
    case «5» =>
      cases carry with
      | false => exact ⟨trivial, fun h _ => honce h rfl, .same rfl rfl⟩
      | true => exact ⟨hway, by simp, .same rfl (by simp)⟩
    case «6» =>
      refine .same rfl ?_
      by_cases harg : arg = lock <;> simp [harg]
    case «7» =>
      refine ⟨rfl, ?_, .same rfl ?_⟩
      · split <;> simp_all
      · split <;> simp_all
    case «8» =>
      rw [hway]
      exact clear_effect honce
    case «9» => exact .same rfl rfl
    case «10» => exact ⟨rfl, .same rfl rfl⟩
    case «11» =>
      rw [hway]
      exact set_effect hset
    case «12» =>
      cases carry with
      | false => exact ⟨trivial, fun h _ => honce h rfl, .same rfl rfl⟩
      | true => exact ⟨trivial, by simp, .same rfl (by simp)⟩
    case «13» => exact ⟨honce, .same rfl rfl⟩
    case «14» =>
      refine .same rfl ?_
      by_cases harg : arg = lock <;> simp [harg, hway]
    case «15» => exact ⟨rfl, .same rfl rfl⟩
    case «16» => exact .same rfl (by simp [hway])

end Instructions

section Runs

variable {κ : Type*} [DecidableEq κ] {env : Env} {lock : BitVec 32} {s t : System κ} {o : Option κ}
  {k : κ} {e : Event κ}

omit [DecidableEq κ] in
theorem Initial.owned (h : Initial lock s) : Owned lock s none := by
  refine ⟨h.clear, fun k => ?_, fun k hk => ?_, fun k => ?_⟩
  all_goals obtain ⟨a, ha⟩ := h.outside k
  · simp [owns, h.held k, acquired, ha]
  · simp [h.held k] at hk
  · simp [OnWay, ha]

/-- A step of one processor changes the owner when it takes or clears the lock. -/
theorem Owned.change (h : Owned lock s o)
    (hothers : ∀ j, j ≠ k → t.machine.cpus j = s.machine.cpus j ∧ t.arg j = s.arg j ∧
      t.holds j = s.holds j)
    (hway : OnWay (t.machine.cpus k) (t.arg k))
    (honce : t.holds k = true → acquired (t.machine.cpus k) = true → t.arg k ≠ lock)
    (heffect : Effect ((s.machine.shared.mem lock).getLsbD 0)
      ((t.machine.shared.mem lock).getLsbD 0) (owns lock (s.machine.cpus k) (s.arg k) (s.holds k))
      (owns lock (t.machine.cpus k) (t.arg k) (t.holds k))) : ∃ o', Owned lock t o' := by
  have hrest : ∀ o', (t.machine.shared.mem lock).getLsbD 0 = o'.isSome →
      (∀ j, j ≠ k → (o = some j ↔ o' = some j)) →
      (owns lock (t.machine.cpus k) (t.arg k) (t.holds k) = true ↔ o' = some k) →
      Owned lock t o' := by
    intro o' hlocked hother hself
    refine ⟨hlocked, fun j => ?_, fun j => ?_, fun j => ?_⟩
    · by_cases hj : j = k
      · rwa [hj]
      · rw [(hothers j hj).1, (hothers j hj).2.1, (hothers j hj).2.2]
        exact (h.owner j).trans (hother j hj)
    · by_cases hj : j = k
      · rwa [hj]
      · rw [(hothers j hj).1, (hothers j hj).2.1, (hothers j hj).2.2]
        exact h.once j
    · by_cases hj : j = k
      · rwa [hj]
      · rw [(hothers j hj).1, (hothers j hj).2.1]
        exact h.onWay j
  cases heffect with
  | same hbit howns =>
    refine ⟨o, hrest o (hbit.trans h.locked) (fun j _ => Iff.rfl) ?_⟩
    rw [howns]
    exact h.owner k
  | take hclear hset hown =>
    have hnone : o = none := by
      rw [h.locked] at hclear
      simpa using hclear
    subst hnone
    exact ⟨some k, hrest (some k) hset (fun j hj => by simp [Ne.symm hj]) (by simp [hown])⟩
  | clear hown hclear hgone =>
    have hself := (h.owner k).mp hown
    subst hself
    exact ⟨none, hrest none hclear (fun j hj => by simp [Ne.symm hj]) (by simp [hgone])⟩

theorem step_owned (h : Owned lock s o) (hguard : Guard lock s e)
    (hstep : step env lock s e = some t) : ∃ o', Owned lock t o' := by
  cases e with
  | call k f c sh =>
    cases hpc : (s.machine.cpus k).pc with
    | «at» i => simp [step, hpc] at hstep
    | fault i => simp [step, hpc] at hstep
    | out a =>
      simp only [step, hpc, Option.some.injEq] at hstep
      subst hstep
      have hkeep : sh.mem lock = s.machine.shared.mem lock := hguard
      refine h.change (k := k) (fun j hj => ⟨Function.update_of_ne hj _ _, rfl, rfl⟩) ?_ ?_ ?_
      · cases f <;> simp [OnWay, Entry.place]
      · cases f <;> simp [acquired, Entry.place]
      · refine .same (by simp [hkeep]) ?_
        cases f <;> simp [owns, acquired, Entry.place, hpc]
  | instr k =>
    simp only [step, Machine.step, Option.map_map, Option.map_eq_some_iff] at hstep
    obtain ⟨⟨c', s'⟩, hinstr, rfl⟩ := hstep
    have hset : owns lock (s.machine.cpus k) (s.arg k) (s.holds k) = true →
        (s.machine.shared.mem lock).getLsbD 0 = true := by
      intro hown
      rw [h.locked, (h.owner k).mp hown]
      rfl
    obtain ⟨hway, honce, heffect⟩ := instr_effect (h.onWay k) (h.once k) hset hguard hinstr
    refine h.change (k := k) (fun j hj => ?_) ?_ ?_ ?_
    · simp [Function.update_of_ne hj]
    all_goals simpa
  | elsewhere sh =>
    simp only [step, Option.some.injEq] at hstep
    subst hstep
    have hkeep : sh.mem lock = s.machine.shared.mem lock := hguard
    exact ⟨o, by simpa [hkeep] using h.locked, h.owner, h.once, h.onWay⟩

theorem execution_owned (hs : Initial lock s) (h : Execution (step env lock) (Guard lock) s t) :
    ∃ o, Owned lock t o :=
  h.preserves (I := fun s => ∃ o, Owned lock s o)
    (fun _ _ _ ⟨_, ho⟩ hg hstep => step_owned ho hg hstep) ⟨none, hs.owned⟩

/-- In every run, whatever the interleaving of the instructions, at most one processor holds the
lock, the bit is set as long as one does, and while it is set one holds it or is on the way in or
out. -/
theorem spin_lock_excludes (hs : Initial lock s)
    (h : Execution (step env lock) (Guard lock) s t) :
    (∀ k k', t.holds k = true → t.holds k' = true → k = k') ∧
      ((t.machine.shared.mem lock).getLsbD 0 = true ↔
        ∃ k, t.holds k = true ∨ acquired (t.machine.cpus k) = true ∧ t.arg k = lock) := by
  obtain ⟨o, ho⟩ := execution_owned hs h
  have howner : ∀ k, t.holds k = true ∨ acquired (t.machine.cpus k) = true ∧ t.arg k = lock ↔
      o = some k := by
    intro k
    rw [← ho.owner k, owns, Bool.or_eq_true, Bool.and_eq_true, beq_iff_eq]
  constructor
  · intro k k' hk hk'
    have hsome := (howner k).mp (Or.inl hk)
    rw [(howner k').mp (Or.inl hk')] at hsome
    exact (Option.some.inj hsome).symm
  · rw [ho.locked, Option.isSome_iff_exists]
    exact exists_congr fun k => (howner k).symm

/-- `spin_lock` on its own: the place, the carry flag and the bit of the lock. -/
def alone : ℕ × Bool × Bool → ℕ × Bool × Bool
  | (0, carry, bit) => (1, carry, bit)
  | (1, _, bit) => (2, bit, bit)
  | (2, carry, bit) => (if carry then 1 else 3, carry, bit)
  | (3, _, bit) => (4, bit, true)
  | (4, carry, bit) => (5, carry, bit)
  | (5, carry, bit) => (if carry then 1 else 6, carry, bit)
  | x => x

/-- Processor `k` is in `spin_lock` for this lock, at a place before the return. -/
structure Standing (lock : BitVec 32) (s : System κ) (k : κ) (x : ℕ × Bool × Bool) : Prop where
  place : (s.machine.cpus k).pc = .at x.1
  early : x.1 = 0 → argument (s.machine.cpus k) s.machine.shared.mem = lock
  later : x.1 ≠ 0 → (s.machine.cpus k).regs .eax = lock ∧ s.arg k = lock
  carry : (s.machine.cpus k).carry = x.2.1
  bit : (s.machine.shared.mem lock).getLsbD 0 = x.2.2

theorem step_instr {c : Cpu} {sh : Shared}
    (h : JumpCode.step env spinCode (s.machine.cpus k, s.machine.shared) = some (c, sh)) :
    step env lock s (.instr k) = some
      { machine := ⟨Function.update s.machine.cpus k c, sh⟩
        arg := Function.update s.arg k
          (argAfter (s.machine.cpus k) s.machine.shared.mem (s.arg k))
        holds := Function.update s.holds k
          (holdsAfter lock (s.machine.cpus k) s.machine.shared.mem (s.arg k) (s.holds k)) } := by
  simp only [step, Machine.step, h, Option.map_some]

theorem Standing.moves {x : ℕ × Bool × Bool} (h : Standing lock s k x) (hx : x.1 < 6) :
    ∃ t, step env lock s (.instr k) = some t ∧ Standing lock t k (alone x) := by
  obtain ⟨i, carry, bit⟩ := x
  obtain ⟨hpc, hearly, hlater, hcarry, hbit⟩ := h
  simp only at hx hpc hearly hlater hcarry hbit
  interval_cases i
  case «0» =>
    have harg := hearly rfl
    refine ⟨_, step_instr (step_at hpc rfl), ?_⟩
    refine ⟨by simp [put, alone], by simp [alone], fun _ => ?_, ?_, ?_⟩
    · simpa [exec, put, value, Cpu.addr, argAfter, hpc, argument, Op.eval] using harg
    · simpa [exec, put, alone, Op.carry, Op.keepsFlags] using hcarry
    · simpa [exec, put, alone] using hbit
  all_goals
    obtain ⟨heax, harg⟩ := hlater (by decide)
    refine ⟨_, step_instr (step_at hpc rfl), ?_⟩
  case «1» =>
    refine ⟨by simp [alone], by simp [alone], fun _ => ?_, ?_, ?_⟩
    · simpa [exec, argAfter, hpc] using ⟨heax, harg⟩
    · simpa only [exec, alone, value, Cpu.addr, Option.elim, add_zero, load_first_bit, heax,
        Function.update_self] using hbit
    · exact hbit
  case «2» | «5» =>
    refine ⟨by simp [alone, Cond.holds, hcarry], ?_, fun _ => ?_, ?_, ?_⟩
    · cases carry <;> simp [alone]
    · simpa [exec, argAfter, hpc] using ⟨heax, harg⟩
    · simpa [exec, alone] using hcarry
    · exact hbit
  case «3» =>
    refine ⟨by simp [put, alone], by simp [alone], fun _ => ?_, ?_, ?_⟩
    · simpa [exec, put, argAfter, hpc] using ⟨heax, harg⟩
    · simpa only [exec, put, alone, value, Cpu.addr, Option.elim, add_zero, load_first_bit, heax,
        Function.update_self] using hbit
    · simp only [put, alone, value, Cpu.addr, Option.elim, add_zero, heax, store_set_bit,
        Function.update_self]
      simp
  case «4» =>
    refine ⟨by simp [alone], by simp [alone], fun _ => ?_, ?_, ?_⟩
    · simpa [exec, argAfter, hpc] using ⟨heax, harg⟩
    · simpa [exec, alone] using hcarry
    · exact hbit

/-- From every place a processor alone with the clear lock comes to the return, having set it. -/
theorem alone_takes : ∀ i < 6, ∀ carry : Bool, (carry = false → i ≠ 4 ∧ i ≠ 5) →
    ∃ n < 8, alone^[n] (i, carry, false) = (6, false, true) ∧
      ∀ j < n, (alone^[j] (i, carry, false)).1 < 6 := by
  decide

variable (env) in
theorem Standing.iterate {x : ℕ × Bool × Bool} {n : ℕ} (h : Standing lock s k x)
    (hx : ∀ j < n, (alone^[j] x).1 < 6) :
    ∃ t, Execution (step env lock) (fun _ e => e = .instr k) s t ∧
      Standing lock t k (alone^[n] x) := by
  induction n with
  | zero => exact ⟨s, .refl s, h⟩
  | succ n ih =>
    obtain ⟨t, hrun, ht⟩ := ih fun j hj => hx j (by omega)
    obtain ⟨u, hstep, hu⟩ := ht.moves (hx n (by omega))
    rw [Function.iterate_succ_apply']
    exact ⟨u, hrun.tail rfl hstep, hu⟩

/-- In every state of every run in which the bit of the lock is clear, a processor anywhere in
`spin_lock` for it that goes on alone returns, and then holds the lock. -/
theorem spin_lock_takes_free {carry : Bool} {i : ℕ} (hs : Initial lock s)
    (h : Execution (step env lock) (Guard lock) s t)
    (hplace : Standing lock t k (i, carry, false)) (hi : i < 6) :
    ∃ u, Execution (step env lock) (fun _ e => e = .instr k) t u ∧ u.holds k = true ∧
      ∃ a, (u.machine.cpus k).pc = .out a := by
  obtain ⟨o, ho⟩ := execution_owned hs h
  have hnone : o = none := by
    have hlocked := ho.locked
    rw [hplace.bit] at hlocked
    simpa using hlocked.symm
  subst hnone
  -- Past the instruction that takes the lock, the processor would own it.
  have hnot : carry = false → i ≠ 4 ∧ i ≠ 5 := by
    rintro rfl
    have hown := (ho.owner k).mp
    have hpc := hplace.place
    have hcarry := hplace.carry
    constructor
    all_goals
      rintro rfl
      obtain ⟨-, harg⟩ := hplace.later (by decide)
      simp only at hpc hcarry
      simp [owns, acquired, hpc, hcarry, harg] at hown
  obtain ⟨n, -, hend, hway⟩ := alone_takes i hi carry hnot
  obtain ⟨u, hrun, hu⟩ := hplace.iterate env hway
  rw [hend] at hu
  obtain ⟨-, harg⟩ := hu.later (by decide)
  refine ⟨_, hrun.tail rfl (step_instr (step_at hu.place rfl)), ?_, ?_⟩
  · simp [holdsAfter, hu.place, harg]
  · exact ⟨load u.machine.shared.mem ((u.machine.cpus k).regs .esp), by simp⟩

end Runs

instance (lock : BitVec 32) {κ : Type*} (s : System κ) (e : Event κ) : Decidable (Guard lock s e) :=
  match e with
  | .call _ _ _ sh => inferInstanceAs (Decidable (sh.mem lock = s.machine.shared.mem lock))
  | .elsewhere sh => inferInstanceAs (Decidable (sh.mem lock = s.machine.shared.mem lock))
  | .instr k => inferInstanceAs (Decidable ((s.machine.cpus k).pc = .at 7 →
      argument (s.machine.cpus k) s.machine.shared.mem = lock → s.holds k = true))

def idleCpu : Cpu := ⟨fun _ => 0x1000, false, false, ⟨0, 0⟩, 0, .out 0⟩

def silent : Env := ⟨fun _ _ => 0, fun v => v⟩

def atRest : System Bool :=
  ⟨⟨fun _ => idleCpu, ⟨fun _ => 0, []⟩⟩, fun _ => 0, fun _ => false⟩

theorem atRest_initial : Initial 0 atRest :=
  ⟨fun _ => ⟨0, rfl⟩, by decide, fun _ => rfl⟩

def lockTaken : Shared := ⟨fun a => if a = 0 then 1 else 0, []⟩

def takenAndTried : Option (System Bool) :=
  follow (step silent 0) (Guard 0) atRest
    ([.call true .lock idleCpu atRest.machine.shared] ++ List.replicate 7 (.instr true) ++
      [.call false .trylock idleCpu lockTaken] ++ List.replicate 5 (.instr false))

theorem spin_lock_excludes_two : ∃ t, takenAndTried = some t ∧ t.holds true = true ∧
    (t.machine.cpus false).pc = .out 0 ∧
    ∀ k k', t.holds k = true → t.holds k' = true → k = k' := by
  have hrun : (takenAndTried.map fun t => (t.holds true, (t.machine.cpus false).pc)) =
      some (true, .out 0) := by decide
  obtain ⟨t, ht, hend⟩ := Option.map_eq_some_iff.mp hrun
  refine ⟨t, ht, congrArg Prod.fst hend, congrArg Prod.snd hend, ?_⟩
  exact (spin_lock_excludes atRest_initial (execution_of_follow ht)).1

/-- A processor has entered `spin_lock`, and nobody owns the lock. -/
def entered : System Bool :=
  { atRest with machine :=
    ⟨Function.update atRest.machine.cpus true { idleCpu with pc := .at 0 }, atRest.machine.shared⟩ }

theorem entered_standing : Standing 0 entered true (0, false, false) :=
  ⟨rfl, fun _ => by decide, fun h => absurd rfl h, rfl, by decide⟩

theorem entered_execution : Execution (step silent 0) (Guard 0) atRest entered :=
  .tail (.refl atRest) (e := .call true .lock idleCpu atRest.machine.shared) rfl rfl

theorem spin_lock_takes_free_entered :
    ∃ u, Execution (step silent 0) (fun _ e => e = .instr true) entered u ∧
      u.holds true = true ∧ ∃ a, (u.machine.cpus true).pc = .out a :=
  spin_lock_takes_free atRest_initial entered_execution entered_standing (by decide)

end SpinLockCode
