import Metakernel.JumpCode
import Metakernel.GuardedRuns
import Mathlib.Data.Fintype.Card

/-!
# Processors that come up, instruction by instruction

`mp_start` of ia_32_mpinit.s, where every processor but the first one draws a number from
`cpu_count`, takes a stack after it, waits for an interrupt and loads its task register after it.
-/
namespace BootProcessors

open WordCode (Memory load store span mem_span load_store load_congr)
open JumpCode GuardedRuns

/-- The addresses are those of `cpu_count` and `gdt_desc`. The loops at places 10 and 19 wait for an
interrupt that sets `eax`. -/
def mpStart (cpuCount gdtDesc : BitVec 32) : List Instr :=
  [.skip,
   .skip,
   .op 32 .mov (.reg .ebx) (.imm 1),
   .exchangeAdd (.mem none cpuCount) .ebx,
   .op 32 .shl (.reg .ebx) (.imm 24),
   .op 32 .shr (.reg .ebx) (.imm 8),
   .op 32 .mov (.reg .esp) (.reg .ebx),
   .op 32 .add (.reg .esp) (.imm 0x20fffc),
   .op 32 .shr (.reg .ebx) (.imm 16),
   .op 32 .mov (.reg .eax) (.imm 0),
   .cmp 32 (.reg .eax) (.imm 0),
   .jump .zero 10,
   .loadTable gdtDesc,
   .op 32 .mov (.reg .eax) (.reg .ebx),
   .op 16 .add (.reg .eax) (.imm 5),
   .op 16 .shl (.reg .eax) (.imm 3),
   .loadTask .eax,
   .op 32 .mov (.reg .eax) (.imm 0),
   .op 32 .mov (.reg .ebx) (.mem none 0xfee00020),
   .cmp 32 (.reg .eax) (.imm 0),
   .jump .zero 19]

/-- The place of a processor that runs this code, or at which it has raised an exception. -/
def place (c : Cpu) : ℕ :=
  match c.pc with
  | .at i | .fault i => i
  | .out _ => 0

/-- From the number to the task register in `eax`. -/
def selecting (c : Cpu) : Bool := [14, 15, 16].contains (place c)

section Runs

variable {κ : Type*} [DecidableEq κ] (env : Env) (cpuCount gdtDesc : BitVec 32)

/-- `ipi_restart` sets `eax` and returns; like everything else that goes on, it may write memory. -/
inductive Event (κ : Type*) where
  | instr (k : κ)
  | restart (k : κ) (s : Shared)
  | elsewhere (s : Shared)

def next (m : Machine κ) : Event κ → Option (Machine κ)
  | .instr k => m.step env (mpStart cpuCount gdtDesc) k
  | .restart k s =>
    let c := m.cpus k
    some ⟨Function.update m.cpus k { c with regs := Function.update c.regs .eax 1 }, s⟩
  | .elsewhere s => some ⟨m.cpus, s⟩

/-- The counter is left alone by other code and is apart from the descriptor that is loaded, and the
interrupt does not come where it would spoil the number in `eax`. -/
def Guard (m : Machine κ) : Event κ → Prop
  | .instr k => (m.cpus k).pc = .at 16 →
      (m.cpus k).table.access (((m.cpus k).regs .eax).setWidth 16) ∉ span cpuCount 4
  | .restart k s => selecting (m.cpus k) = false ∧ load s.mem cpuCount = load m.shared.mem cpuCount
  | .elsewhere s => load s.mem cpuCount = load m.shared.mem cpuCount

structure Initial (m : Machine κ) : Prop where
  start : ∀ k, (m.cpus k).pc = .at 0
  count : load m.shared.mem cpuCount = 1

end Runs

def stackTop (t : BitVec 32) : BitVec 32 := t <<< 16 + 0x20fffc

def selector (t : BitVec 32) : BitVec 16 := (t.setWidth 16 + 5) <<< 3

def OnWay (t : BitVec 32) (c : Cpu) : Prop :=
  match place c with
  | 4 => c.regs .ebx = t
  | 5 => c.regs .ebx = t <<< 24
  | 6 => c.regs .ebx = t <<< 16
  | 7 => c.regs .ebx = t <<< 16 ∧ c.regs .esp = t <<< 16
  | 8 => c.regs .ebx = t <<< 16 ∧ c.regs .esp = stackTop t
  | 9 | 10 | 11 | 12 | 13 => c.regs .ebx = t ∧ c.regs .esp = stackTop t
  | 14 => c.regs .eax = t ∧ c.regs .esp = stackTop t
  | 15 => (c.regs .eax).setWidth 16 = t.setWidth 16 + 5#16 ∧ c.regs .esp = stackTop t
  | 16 => (c.regs .eax).setWidth 16 = selector t ∧ c.regs .esp = stackTop t
  | 17 | 18 | 19 | 20 | 21 => c.task = selector t ∧ c.regs .esp = stackTop t
  | _ => False

section Steps

variable {env : Env} {cpuCount gdtDesc t : BitVec 32} {c c' : Cpu} {s s' : Shared}

theorem shl_shr (ht : t.toNat < 256) : (t <<< 24) >>> 8 = t <<< 16 := by
  apply BitVec.eq_of_toNat_eq
  rw [BitVec.toNat_ushiftRight, BitVec.toNat_shiftLeft, BitVec.toNat_shiftLeft, Nat.shiftLeft_eq,
    Nat.shiftLeft_eq, Nat.shiftRight_eq_div_pow]
  omega

theorem shr_back (ht : t.toNat < 256) : (t <<< 16) >>> 16 = t := by
  apply BitVec.eq_of_toNat_eq
  rw [BitVec.toNat_ushiftRight, BitVec.toNat_shiftLeft, Nat.shiftLeft_eq, Nat.shiftRight_eq_div_pow]
  omega

theorem place_lt {i : ℕ} {ins : Instr} (h : (mpStart cpuCount gdtDesc)[i]? = some ins) : i < 21 := by
  have := (List.getElem?_eq_some_iff.mp h).1
  simpa [mpStart] using this

theorem numbered_step (ht : t.toNat < 256) (h : OnWay t c)
    (hapart : c.pc = .at 16 → c.table.access ((c.regs .eax).setWidth 16) ∉ span cpuCount 4)
    (hstep : step env (mpStart cpuCount gdtDesc) (c, s) = some (c', s')) :
    OnWay t c' ∧ load s'.mem cpuCount = load s.mem cpuCount := by
  obtain ⟨regs, carry, zero, table, task, pc⟩ := c
  cases pc with
  | out a => simp [step] at hstep
  | fault i => simp [step] at hstep
  | «at» i =>
    simp only [step, Option.map_eq_some_iff] at hstep
    obtain ⟨ins, hcode, hexec⟩ := hstep
    have hi := place_lt hcode
    interval_cases i
    all_goals
      simp only [mpStart, List.getElem?_cons_zero, List.getElem?_cons_succ, Option.some.injEq] at hcode
      subst hcode
    case «16» =>
      simp only [exec] at hexec
      split at hexec
      all_goals
        simp only [Prod.mk.injEq] at hexec
        obtain ⟨rfl, rfl⟩ := hexec
      · refine ⟨h, load_congr fun b hb => Function.update_of_ne ?_ _ _⟩
        rintro rfl
        exact hapart rfl hb
      · exact ⟨h, rfl⟩
    all_goals
      simp only [exec, put, value, Cpu.addr, Option.elim, merge_word, BitVec.setWidth_eq, Op.eval,
        Cond.holds, Prod.mk.injEq] at hexec
      obtain ⟨rfl, rfl⟩ := hexec
      simp only [OnWay, place, and_true] at h ⊢
    case «4» => simp [h]
    case «5» => simp [h, shl_shr ht]
    case «6» => simp [h]
    case «7» => simp [h, stackTop]
    case «8» => simp [h, shr_back ht]
    case «9» => simp [h]
    case «10» => exact h
    case «11» => cases zero <;> exact h
    case «12» => exact h
    case «13» => simp [h]
    case «14» => simp [h]
    case «15» => simp [h, selector]
    case «17» => simp [h]
    case «18» => simp [h]
    case «19» => exact h
    case «20» => cases zero <;> exact h

theorem OnWay.place_ge (h : OnWay t c) : 4 ≤ place c := by
  rw [OnWay] at h
  split at h
  all_goals first | omega | exact h.elim

theorem OnWay.stack (h : OnWay t c) (h8 : 8 ≤ place c) : c.regs .esp = stackTop t := by
  rw [OnWay] at h
  split at h
  all_goals first | omega | exact h.elim | exact h.2

theorem OnWay.selected (h : OnWay t c) (h17 : 17 ≤ place c) : c.task = selector t := by
  rw [OnWay] at h
  split at h
  all_goals first | omega | exact h.elim | exact h.1

theorem stackTop_toNat (ht : t.toNat < 256) : (stackTop t).toNat = 65536 * t.toNat + 2162684 := by
  have hconst : (0x20fffc : BitVec 32).toNat = 2162684 := rfl
  rw [stackTop, BitVec.toNat_add, BitVec.toNat_shiftLeft, Nat.shiftLeft_eq, hconst]
  omega

theorem selector_toNat (ht : t.toNat < 256) : (selector t).toNat = 8 * (t.toNat + 5) := by
  have hconst : (5 : BitVec 16).toNat = 5 := rfl
  rw [selector, BitVec.toNat_shiftLeft, Nat.shiftLeft_eq, BitVec.toNat_add, BitVec.toNat_setWidth,
    hconst]
  omega

theorem stacks_apart {t' : BitVec 32} (ht : t.toNat < 256) (ht' : t'.toNat < 256) (hne : t ≠ t') :
    Disjoint (span (stackTop t - 0x10000) 0x10000) (span (stackTop t' - 0x10000) 0x10000) := by
  have hnat : t.toNat ≠ t'.toNat := fun h => hne (BitVec.eq_of_toNat_eq h)
  have htop := stackTop_toNat ht
  have htop' := stackTop_toNat ht'
  rw [Set.disjoint_left]
  intro b hb hb'
  rw [mem_span] at hb hb'
  bv_omega

theorem draw_step (h : place c < 4) (hone : place c = 3 → c.regs .ebx = 1)
    (hstep : step env (mpStart cpuCount gdtDesc) (c, s) = some (c', s')) :
    (place c < 3 ∧ s' = s ∧ place c' < 4 ∧ (place c' = 3 → c'.regs .ebx = 1)) ∨
      (place c = 3 ∧ place c' = 4 ∧ c'.regs .ebx = load s.mem cpuCount ∧
        s'.mem = store s.mem cpuCount (load s.mem cpuCount + 1)) := by
  obtain ⟨regs, carry, zero, table, task, pc⟩ := c
  cases pc with
  | out a => simp [step] at hstep
  | fault i => simp [step] at hstep
  | «at» i =>
    simp only [step, Option.map_eq_some_iff] at hstep
    obtain ⟨ins, hcode, hexec⟩ := hstep
    simp only [place] at h hone ⊢
    interval_cases i
    all_goals
      simp only [mpStart, List.getElem?_cons_zero, List.getElem?_cons_succ, Option.some.injEq] at hcode
      subst hcode
      simp only [exec, put, value, Cpu.addr, Option.elim, merge_word, BitVec.setWidth_eq, Op.eval,
        Prod.mk.injEq, zero_add] at hexec
      obtain ⟨rfl, rfl⟩ := hexec
    · exact Or.inl ⟨by simp, rfl, by simp, by simp⟩
    · exact Or.inl ⟨by simp, rfl, by simp, by simp⟩
    · exact Or.inl ⟨by simp, rfl, by simp, fun _ => by simp⟩
    · refine Or.inr ⟨rfl, rfl, by simp, ?_⟩
      simp only [hone rfl]

end Steps

section Numbers

variable {κ : Type*} [DecidableEq κ] {env : Env} {cpuCount gdtDesc : BitVec 32} {m m' : Machine κ}
  {e : Event κ}

structure Numbered (cpuCount : BitVec 32) (m : Machine κ) (order : List κ) : Prop where
  nodup : order.Nodup
  count : load m.shared.mem cpuCount = BitVec.ofNat 32 (order.length + 1)
  drawn : ∀ k, k ∈ order ↔ 4 ≤ place (m.cpus k)
  early : ∀ k, place (m.cpus k) = 3 → (m.cpus k).regs .ebx = 1
  onWay : ∀ k ∈ order, OnWay (BitVec.ofNat 32 (order.idxOf k + 1)) (m.cpus k)

theorem Initial.numbered (h : Initial cpuCount m) : Numbered cpuCount m [] := by
  refine ⟨List.nodup_nil, h.count, fun k => ?_, fun k hk => ?_, fun k hk => ?_⟩
  · simp [place, h.start k]
  · simp [place, h.start k] at hk
  · simp at hk

theorem restart_onWay {t : BitVec 32} {c : Cpu} (hsel : selecting c = false) (h : OnWay t c) :
    OnWay t { c with regs := Function.update c.regs .eax 1 } := by
  have hplace : place { c with regs := Function.update c.regs .eax 1 } = place c := rfl
  simp only [selecting, List.contains_eq_mem, decide_eq_false_iff_not, List.mem_cons,
    List.not_mem_nil, or_false, not_or] at hsel
  rw [OnWay] at h ⊢
  rw [hplace]
  split at h
  all_goals first | exact h.elim | (exfalso; omega) | (simpa using h)

/-- Processors that have their numbers keep them when one of them goes on. -/
theorem Numbered.change {order : List κ} (h : Numbered cpuCount m order) {k : κ} {c : Cpu}
    {s : Shared} (hcount : load s.mem cpuCount = load m.shared.mem cpuCount)
    (hplace : 4 ≤ place (m.cpus k) ↔ 4 ≤ place c)
    (hearly : place c = 3 → c.regs .ebx = 1)
    (hway : k ∈ order → OnWay (BitVec.ofNat 32 (order.idxOf k + 1)) c) :
    Numbered cpuCount ⟨Function.update m.cpus k c, s⟩ order := by
  refine ⟨h.nodup, hcount.trans h.count, fun j => ?_, fun j => ?_, fun j hj => ?_⟩
  · by_cases hjk : j = k
    · simpa only [hjk, Function.update_self] using (h.drawn k).trans hplace
    · simpa only [Function.update_of_ne hjk] using h.drawn j
  · by_cases hjk : j = k
    · simpa only [hjk, Function.update_self] using hearly
    · simpa only [Function.update_of_ne hjk] using h.early j
  · by_cases hjk : j = k
    · subst hjk
      simpa only [Function.update_self] using hway hj
    · simpa only [Function.update_of_ne hjk] using h.onWay j hj

/-- The processor that carries out the exchange gets the next number. -/
theorem Numbered.draw {order : List κ} (h : Numbered cpuCount m order) {k : κ} {c : Cpu} {s : Shared}
    (hk : k ∉ order) (hplace : place c = 4) (hbx : c.regs .ebx = load m.shared.mem cpuCount)
    (hmem : s.mem = store m.shared.mem cpuCount (load m.shared.mem cpuCount + 1)) :
    Numbered cpuCount ⟨Function.update m.cpus k c, s⟩ (order ++ [k]) := by
  have hmember : ∀ j, j ≠ k → (j ∈ order ++ [k] ↔ j ∈ order) := by
    intro j hj
    simp [hj]
  refine ⟨?_, ?_, fun j => ?_, fun j => ?_, fun j hj => ?_⟩
  · rw [List.nodup_append_comm]
    exact List.nodup_cons.mpr ⟨hk, h.nodup⟩
  · rw [hmem, load_store, h.count, List.length_append, List.length_singleton]
    bv_omega
  · by_cases hjk : j = k
    · simp [hjk, hplace]
    · simpa only [Function.update_of_ne hjk, hmember j hjk] using h.drawn j
  · by_cases hjk : j = k
    · simp [hjk, hplace]
    · simpa only [Function.update_of_ne hjk] using h.early j
  · by_cases hjk : j = k
    · subst hjk
      have hidx : (order ++ [j]).idxOf j = order.length := by
        rw [List.idxOf_append_of_notMem hk]
        simp
      rw [hidx]
      simp only [Function.update_self, OnWay, hplace]
      exact hbx.trans h.count
    · have hin := (hmember j hjk).mp hj
      rw [List.idxOf_append_of_mem hin]
      simpa only [Function.update_of_ne hjk] using h.onWay j hin

variable [Fintype κ]

theorem Numbered.length_le {order : List κ} (h : Numbered cpuCount m order) :
    order.length ≤ Fintype.card κ := h.nodup.length_le_card

theorem next_numbered (hcard : Fintype.card κ ≤ 254) {order : List κ}
    (h : Numbered cpuCount m order) (hguard : Guard cpuCount m e)
    (hnext : next env cpuCount gdtDesc m e = some m') : ∃ order', Numbered cpuCount m' order' := by
  have hlen := h.length_le
  cases e with
  | elsewhere s =>
    simp only [next, Option.some.injEq] at hnext
    subst hnext
    exact ⟨order, h.nodup, hguard.trans h.count, h.drawn, h.early, h.onWay⟩
  | restart k s =>
    simp only [next, Option.some.injEq] at hnext
    subst hnext
    refine ⟨order, h.change hguard.2 Iff.rfl (fun hplace => ?_)
      fun hk => restart_onWay hguard.1 (h.onWay k hk)⟩
    simpa using h.early k hplace
  | instr k =>
    simp only [next, Machine.step, Option.map_eq_some_iff] at hnext
    obtain ⟨⟨c, s⟩, hstep, rfl⟩ := hnext
    by_cases hk : k ∈ order
    · have hidx := List.idxOf_lt_length_of_mem hk
      have hsmall : (BitVec.ofNat 32 (order.idxOf k + 1)).toNat < 256 := by
        rw [BitVec.toNat_ofNat]
        omega
      obtain ⟨hway, hmem⟩ := numbered_step hsmall (h.onWay k hk) hguard hstep
      have hplace : 4 ≤ place c := hway.place_ge
      exact ⟨order, h.change hmem (iff_of_true ((h.drawn k).mp hk) hplace)
        (fun h3 => absurd h3 (Nat.ne_of_gt hplace)) fun _ => hway⟩
    · have hplace : place (m.cpus k) < 4 := not_le.mp fun hge => hk ((h.drawn k).mpr hge)
      rcases draw_step hplace (h.early k) hstep with ⟨hlt, rfl, hplace', hone⟩ | ⟨h3, h4, hbx, hmem⟩
      · exact ⟨order, h.change rfl (iff_of_false hplace.not_ge hplace'.not_ge) hone
          fun hin => absurd hin hk⟩
      · exact ⟨order ++ [k], h.draw hk h4 hbx hmem⟩

/-- Every processor that has its stack pointer has 64 kilobytes below it to itself, and the task
registers of those that have loaded theirs are different entries of the table that has one entry for
each processor counted. This holds in every order of the steps, for up to 254 processors. -/
theorem processors_stand_apart (hcard : Fintype.card κ ≤ 254) (hs : Initial cpuCount m)
    (h : Execution (next env cpuCount gdtDesc) (Guard cpuCount) m m') :
    (∀ j k, j ≠ k → 8 ≤ place (m'.cpus j) → 8 ≤ place (m'.cpus k) →
      Disjoint (span ((m'.cpus j).regs .esp - 0x10000) 0x10000)
        (span ((m'.cpus k).regs .esp - 0x10000) 0x10000)) ∧
    (∀ j k, j ≠ k → 17 ≤ place (m'.cpus j) → 17 ≤ place (m'.cpus k) →
      (m'.cpus j).task ≠ (m'.cpus k).task) ∧
    ∀ k, 17 ≤ place (m'.cpus k) → ∃ t, (m'.cpus k).task.toNat = 8 * (5 + t) ∧ 1 ≤ t ∧
      t < (load m'.shared.mem cpuCount).toNat := by
  obtain ⟨order, hn⟩ : ∃ order, Numbered cpuCount m' order := by
    refine h.preserves (I := fun m => ∃ order, Numbered cpuCount m order) ?_ ⟨[], hs.numbered⟩
    intro m e m' hn hguard hnext
    obtain ⟨order, hn⟩ := hn
    exact next_numbered hcard hn hguard hnext
  have hlen := hn.length_le
  have hnumber : ∀ k, 4 ≤ place (m'.cpus k) → k ∈ order ∧
      (BitVec.ofNat 32 (order.idxOf k + 1)).toNat = order.idxOf k + 1 ∧
      order.idxOf k < order.length := by
    intro k hk
    have hin := (hn.drawn k).mpr hk
    have hidx := List.idxOf_lt_length_of_mem hin
    refine ⟨hin, ?_, hidx⟩
    rw [BitVec.toNat_ofNat]
    omega
  have hdistinct : ∀ j k, j ≠ k → j ∈ order → order.idxOf j ≠ order.idxOf k := by
    intro j k hjk hj hsame
    exact hjk ((List.idxOf_inj hj).mp hsame)
  refine ⟨fun j k hjk hj hk => ?_, fun j k hjk hj hk => ?_, fun k hk => ?_⟩
  · obtain ⟨hjin, hjt, hjlt⟩ := hnumber j (by omega)
    obtain ⟨hkin, hkt, hklt⟩ := hnumber k (by omega)
    rw [(hn.onWay j hjin).stack hj, (hn.onWay k hkin).stack hk]
    refine stacks_apart (by omega) (by omega) fun hsame => hdistinct j k hjk hjin ?_
    have hnat := congrArg BitVec.toNat hsame
    omega
  · obtain ⟨hjin, hjt, hjlt⟩ := hnumber j (by omega)
    obtain ⟨hkin, hkt, hklt⟩ := hnumber k (by omega)
    rw [(hn.onWay j hjin).selected hj, (hn.onWay k hkin).selected hk]
    intro hsame
    have hnat := congrArg BitVec.toNat hsame
    rw [selector_toNat (by omega), selector_toNat (by omega), hjt, hkt] at hnat
    exact hdistinct j k hjk hjin (by omega)
  · obtain ⟨hkin, hkt, hklt⟩ := hnumber k (by omega)
    refine ⟨order.idxOf k + 1, ?_, by omega, ?_⟩
    · rw [(hn.onWay k hkin).selected hk, selector_toNat (by omega), hkt]
      omega
    · rw [hn.count, BitVec.toNat_ofNat]
      omega

end Numbers

instance (cpuCount : BitVec 32) {κ : Type*} (m : Machine κ) (e : Event κ) :
    Decidable (Guard cpuCount m e) :=
  match e with
  | .instr k => inferInstanceAs (Decidable ((m.cpus k).pc = .at 16 →
      ¬ ((m.cpus k).table.access (((m.cpus k).regs .eax).setWidth 16) - cpuCount).toNat < 4))
  | .restart k s => inferInstanceAs (Decidable (selecting (m.cpus k) = false ∧
      load s.mem cpuCount = load m.shared.mem cpuCount))
  | .elsewhere s => inferInstanceAs (Decidable (load s.mem cpuCount = load m.shared.mem cpuCount))

def bothUp : Machine Bool :=
  ⟨fun _ => ⟨fun _ => 0, false, false, ⟨0, 0⟩, 0, .at 0⟩, ⟨fun a => if a = 0x4000 then 1 else 0, []⟩⟩

theorem bothUp_initial : Initial 0x4000 bothUp := ⟨fun _ => rfl, by decide⟩

/-- The table is at 0x6000 and has 64 bytes, with a task segment for each of the three processors. -/
def counted : Shared :=
  ⟨fun a =>
    if a = 0x4000 then 3 else if a = 0x5000 then 63 else if a = 0x5003 then 0x60
    else if a = 0x602d ∨ a = 0x6035 ∨ a = 0x603d then 0x89 else 0, []⟩

/-- They take turns, and the first one has waited for a while when they are released. -/
def bothNumbered : Option (Machine Bool) :=
  follow (next ⟨fun _ _ => 0, fun v => v⟩ 0x4000 0x5000) (Guard 0x4000) bothUp
    ((List.replicate 10 [Event.instr true, .instr false]).flatten ++
      [.restart false counted, .restart true counted] ++
      (List.replicate 7 [Event.instr false, .instr true]).flatten)

theorem processors_stand_apart_two : ∃ m, bothNumbered = some m ∧
    (m.cpus true).task = 48 ∧ (m.cpus false).task = 56 ∧
    Disjoint (span ((m.cpus true).regs .esp - 0x10000) 0x10000)
      (span ((m.cpus false).regs .esp - 0x10000) 0x10000) := by
  have hrun : (bothNumbered.map fun m => ((m.cpus true).pc, (m.cpus false).pc,
      (m.cpus true).task, (m.cpus false).task)) = some (.at 17, .at 17, 48, 56) := by
    decide +kernel
  obtain ⟨m, hm, hend⟩ := Option.map_eq_some_iff.mp hrun
  simp only [Prod.mk.injEq] at hend
  obtain ⟨htrue, hfalse, htask, htask'⟩ := hend
  obtain ⟨happ, -, -⟩ := processors_stand_apart (by decide) bothUp_initial (execution_of_follow hm)
  refine ⟨m, hm, htask, htask', happ true false (by decide) ?_ ?_⟩
  · simp only [place, htrue]
    omega
  · simp only [place, hfalse]
    omega

end BootProcessors
