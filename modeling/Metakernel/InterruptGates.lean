import Metakernel.JumpCode
import Metakernel.GuardedRuns
import Mathlib.Tactic.IntervalCases

/-!
# Interrupts

The interrupt descriptor table that `idt_init` of ia_32_cputabs.c fills by `int_set_handler`, and one
processor that takes interrupts through it into the handlers of ia_32_cpu.s and
ia_32_int_handlers.s, instruction by instruction.
-/
namespace InterruptGates

open WordCode (Memory load store span mem_span store_frame load_store load_store_apart span_apart)
open JumpCode (Reg)
open GuardedRuns

abbrev Table := ℕ → BitVec 64

def intSetHandler (idt : Table) (inum : ℕ) (handler : BitVec 32) : Table :=
  let hAddr := handler.setWidth 64 &&& 0xffffffff
  let hAddr := (hAddr ||| hAddr <<< 32) &&& 0xffff00000000ffff
  Function.update idt inum (0x00008e0000080000 ||| hAddr)

def intGetHandler (idt : Table) (inum : ℕ) : BitVec 32 :=
  let out := (idt inum &&& 0x0000ffff).setWidth 32
  out ||| (idt inum >>> 32 &&& 0xffff0000).setWidth 32

inductive Handler where
  | fatal | ignore | stop | restart | restartTlbinv | restartKernTlbinv | halt
  deriving DecidableEq, Repr

def IPI_BASE : ℕ := 0x30
def IPI_STOP : ℕ := IPI_BASE + 0
def IPI_RESTART : ℕ := IPI_BASE + 2
def IPI_RESTART_TLBINV : ℕ := IPI_BASE + 3
def IPI_RESTART_KERN_TLBINV : ℕ := IPI_BASE + 4
def IPI_HALT : ℕ := IPI_BASE + 5

def idtInit (entry : Handler → BitVec 32) (idt : Table) : Table :=
  let idt := (List.range 32).foldl (fun idt i => intSetHandler idt i (entry .fatal)) idt
  let idt := (List.range' 32 224).foldl (fun idt i => intSetHandler idt i (entry .ignore)) idt
  let idt := intSetHandler idt IPI_STOP (entry .stop)
  let idt := intSetHandler idt IPI_RESTART (entry .restart)
  let idt := intSetHandler idt IPI_RESTART_TLBINV (entry .restartTlbinv)
  let idt := intSetHandler idt IPI_RESTART_KERN_TLBINV (entry .restartKernTlbinv)
  intSetHandler idt IPI_HALT (entry .halt)

inductive Instr where
  | mov (r : Reg) (v : BitVec 32)
  | xor (dst src : Reg)
  | cmp (r : Reg) (v : BitVec 32)
  | and (r : Reg) (v : BitVec 32)
  | or (r : Reg) (v : BitVec 32)
  | push (r : Reg)
  | pop (r : Reg)
  | fromCr0 (r : Reg)
  | toCr0 (r : Reg)
  | fromCr3 (r : Reg)
  | toCr3 (r : Reg)
  | je (target : ℕ)
  | jmp (target : ℕ)
  | call (h : Handler)
  | cli
  | hlt
  | iret
  deriving DecidableEq, Repr

/-- `cpu_halt` and `ipi_halt` are one piece of code. -/
def body : Handler → List Instr
  | .fatal => [.call .halt]
  | .ignore => [.iret]
  | .stop => [.push .eax, .xor .eax .eax, .cmp .eax 0, .je 2, .pop .eax, .iret]
  | .restart => [.mov .eax 1, .iret]
  | .restartTlbinv => [.fromCr3 .eax, .toCr3 .eax, .mov .eax 1, .iret]
  | .restartKernTlbinv =>
    [.fromCr0 .eax, .and .eax 0xffffff7f, .toCr0 .eax, .fromCr3 .eax, .toCr3 .eax, .fromCr0 .eax,
      .or .eax 0x00000080, .toCr0 .eax, .mov .eax 1, .iret]
  | .halt => [.cli, .hlt, .jmp 1]

def handlers : List Handler :=
  [.fatal, .ignore, .stop, .restart, .restartTlbinv, .restartKernTlbinv, .halt]

def places : List (Handler × ℕ) :=
  handlers.flatMap fun h => (List.range (body h).length).map fun i => (h, i)

structure Layout where
  addr : Handler → ℕ → BitVec 32
  apart : ∀ p ∈ places, ∀ q ∈ places, addr p.1 p.2 = addr q.1 q.2 → p = q

structure Cpu where
  regs : Reg → BitVec 32
  flags : BitVec 32
  cs : BitVec 32
  cr0 : BitVec 32
  cr3 : BitVec 32
  halted : Bool
  pc : BitVec 32

abbrev State := Cpu × Memory

def IF : ℕ := 9
def ZF : ℕ := 6

def CR0_BITS : BitVec 32 := 0xe005003f

/-- The flags after an arithmetic instruction with the result `v`; `env` gives those that are not
ZF. -/
def arith (env : BitVec 32 → BitVec 32) (flags v : BitVec 32) : BitVec 32 :=
  flags &&& 0xfffff72a ||| env v &&& 0x895 ||| if v = 0 then 0x40 else 0

def Cpu.set (c : Cpu) (r : Reg) (v : BitVec 32) : Cpu :=
  { c with regs := Function.update c.regs r v }

section Machine

variable (L : Layout) (env : BitVec 32 → BitVec 32) (idt : Table)

def Layout.find (a : BitVec 32) : Option (Handler × ℕ) :=
  places.find? fun p => decide (L.addr p.1 p.2 = a)

/-- Instruction `ins` at place `i` of the handler. The reserved bits of CR0 stay clear. -/
def exec (h : Handler) (i : ℕ) (ins : Instr) (c : Cpu) (m : Memory) : State :=
  let go : Cpu := { c with pc := L.addr h (i + 1) }
  match ins with
  | .mov r v => (go.set r v, m)
  | .xor dst src =>
    let v := c.regs dst ^^^ c.regs src
    ({ go.set dst v with flags := arith env c.flags v }, m)
  | .cmp r v => ({ go with flags := arith env c.flags (c.regs r - v) }, m)
  | .and r v =>
    let u := c.regs r &&& v
    ({ go.set r u with flags := arith env c.flags u }, m)
  | .or r v =>
    let u := c.regs r ||| v
    ({ go.set r u with flags := arith env c.flags u }, m)
  | .push r => (go.set .esp (c.regs .esp - 4), store m (c.regs .esp - 4) (c.regs r))
  | .pop r => ((go.set .esp (c.regs .esp + 4)).set r (load m (c.regs .esp)), m)
  | .fromCr0 r => (go.set r c.cr0, m)
  | .toCr0 r => ({ go with cr0 := c.regs r &&& CR0_BITS }, m)
  | .fromCr3 r => (go.set r c.cr3, m)
  | .toCr3 r => ({ go with cr3 := c.regs r }, m)
  | .je target => ({ c with pc := if c.flags.getLsbD ZF then L.addr h target else L.addr h (i + 1) }, m)
  | .jmp target => ({ c with pc := L.addr h target }, m)
  | .call h' =>
    ({ c.set .esp (c.regs .esp - 4) with pc := L.addr h' 0 },
      store m (c.regs .esp - 4) (L.addr h (i + 1)))
  | .cli => ({ go with flags := c.flags &&& 0xfffffdff }, m)
  | .hlt => ({ go with halted := true }, m)
  | .iret =>
    ({ c.set .esp (c.regs .esp + 12) with
        pc := load m (c.regs .esp)
        cs := load m (c.regs .esp + 4)
        flags := load m (c.regs .esp + 8) }, m)

/-- Through an interrupt gate IF is cleared, through a trap gate it is not. The other flags that are
cleared are TF, NT, RF and VM. -/
def deliver (n : ℕ) (err : Option (BitVec 32)) (c : Cpu) (m : Memory) : Option State :=
  let gate := idt n
  let type := gate >>> 40 &&& 0xf
  let sp := c.regs .esp
  let m := store (store (store m (sp - 4) c.flags) (sp - 8) c.cs) (sp - 12) c.pc
  if gate.getLsbD 47 ∧ (type = 0xe ∨ type = 0xf) then
    let entered : Cpu := { c with
      flags := c.flags &&& if type = 0xe then 0xfffcbcff else 0xfffcbeff
      cs := (gate >>> 16 &&& 0xffff).setWidth 32
      halted := false
      pc := intGetHandler idt n }
    some (err.elim (entered.set .esp (sp - 12), m) fun e =>
      (entered.set .esp (sp - 16), store m (sp - 16) e))
  else none

/-- `interrupt` asks for IF, and `fault` (the processor's own, and the one that is not maskable) does
not. Code that is not a handler does what it likes, and so do other processors with memory. -/
inductive Event where
  | instr
  | interrupt (n : ℕ)
  | fault (n : ℕ) (err : Option (BitVec 32))
  | elsewhere (c : Cpu) (m : Memory)
  | others (m : Memory)

def next (x : State) : Event → Option State
  | .instr =>
    if x.1.halted then none
    else (L.find x.1.pc).bind fun p =>
      (body p.1)[p.2]?.map fun ins => exec L env p.1 p.2 ins x.1 x.2
  | .interrupt n =>
    if 32 ≤ n ∧ n < 256 ∧ x.1.flags.getLsbD IF then deliver idt n none x.1 x.2 else none
  | .fault n err => if n < 32 then deliver idt n err x.1 x.2 else none
  | .elsewhere c m => if L.find x.1.pc = none then some (c, m) else none
  | .others m => some (x.1, m)

def Step (x : State) (e : Event) (y : State) : Prop := next L env idt x e = some y

end Machine

def gateOf (handler : BitVec 32) : BitVec 64 :=
  let hAddr := handler.setWidth 64 &&& 0xffffffff
  let high := hAddr <<< 32
  0x00008e0000080000 ||| ((hAddr ||| high) &&& 0xffff00000000ffff)

theorem intSetHandler_apply (idt : Table) (inum : ℕ) (handler : BitVec 32) (n : ℕ) :
    intSetHandler idt inum handler n = if n = inum then gateOf handler else idt n :=
  Function.update_apply _ _ _ _

theorem intGetHandler_gate {idt : Table} {inum : ℕ} {handler : BitVec 32}
    (h : idt inum = gateOf handler) : intGetHandler idt inum = handler := by
  apply BitVec.eq_of_getLsbD_eq
  intro i hi
  rw [intGetHandler, h, gateOf]
  simp only [BitVec.getLsbD_or, BitVec.getLsbD_and, BitVec.getLsbD_setWidth,
    BitVec.getLsbD_shiftLeft, BitVec.getLsbD_ushiftRight]
  interval_cases i <;> simp

theorem gateOf_field {k : ℕ} {mask : BitVec 64}
    (hmask : (0xffff00000000ffff : BitVec 64) >>> k &&& mask = 0) (handler : BitVec 32) :
    gateOf handler >>> k &&& mask = (0x00008e0000080000 : BitVec 64) >>> k &&& mask := by
  simp only [gateOf]
  rw [BitVec.ushiftRight_or_distrib, BitVec.ushiftRight_and_distrib, BitVec.and_or_distrib_right,
    BitVec.and_assoc, hmask]
  simp

/-- Every gate is present, clears IF and has the code segment of the kernel. -/
theorem gateOf_type (handler : BitVec 32) :
    (gateOf handler).getLsbD 47 = true ∧ gateOf handler >>> 40 &&& 0xf = 0xe ∧
      gateOf handler >>> 16 &&& 0xffff = 8 := by
  refine ⟨by simp [gateOf], ?_, ?_⟩
  · rw [gateOf_field (by decide)]
    decide
  · rw [gateOf_field (by decide)]
    decide

def vector (n : ℕ) : Handler :=
  if n = IPI_HALT then .halt
  else if n = IPI_RESTART_KERN_TLBINV then .restartKernTlbinv
  else if n = IPI_RESTART_TLBINV then .restartTlbinv
  else if n = IPI_RESTART then .restart
  else if n = IPI_STOP then .stop
  else if n < 32 then .fatal
  else .ignore

theorem setAll_apply (handler : BitVec 32) (l : List ℕ) (idt : Table) (n : ℕ) :
    l.foldl (fun idt i => intSetHandler idt i handler) idt n =
      if n ∈ l then gateOf handler else idt n := by
  induction l generalizing idt with
  | nil => rfl
  | cons i l ih =>
    rw [List.foldl_cons, ih, intSetHandler_apply]
    by_cases hn : n ∈ l
    · rw [if_pos hn, if_pos (List.mem_cons_of_mem i hn)]
    · simp [hn]

theorem idtInit_apply (entry : Handler → BitVec 32) (idt : Table) {n : ℕ} (hn : n < 256) :
    idtInit entry idt n = gateOf (entry (vector n)) := by
  have hrest : n ∈ List.range' 32 224 ↔ ¬ n < 32 := by
    rw [List.mem_range'_1]
    omega
  simp only [idtInit, intSetHandler_apply, setAll_apply, List.mem_range, hrest, vector, apply_ite entry,
    apply_ite gateOf]
  by_cases hfault : n < 32 <;> simp [hfault]

section Machine

variable {L : Layout} {env : BitVec 32 → BitVec 32} {idt : Table} {c c' : Cpu} {m m' : Memory}
  {h : Handler} {i : ℕ} {ins : Instr}

theorem mem_places (hins : (body h)[i]? = some ins) : (h, i) ∈ places := by
  have hi : i < (body h).length := (List.getElem?_eq_some_iff.mp hins).1
  refine List.mem_flatMap.mpr ⟨h, by cases h <;> simp [handlers], ?_⟩
  exact List.mem_map.mpr ⟨i, List.mem_range.mpr hi, rfl⟩

theorem find_addr (hins : (body h)[i]? = some ins) : L.find (L.addr h i) = some (h, i) := by
  cases hfind : L.find (L.addr h i) with
  | none =>
    have hnone := List.find?_eq_none.mp hfind (h, i) (mem_places hins)
    simp at hnone
  | some p =>
    rw [Layout.find] at hfind
    have haddr := List.find?_some hfind
    rw [decide_eq_true_eq] at haddr
    rw [L.apart p (List.mem_of_find?_eq_some hfind) (h, i) (mem_places hins) haddr]

theorem next_instr (hpc : c.pc = L.addr h i) (hins : (body h)[i]? = some ins)
    (hrun : c.halted = false) : next L env idt (c, m) .instr = some (exec L env h i ins c m) := by
  simp only [next, hrun, hpc, find_addr hins, Option.bind_some, hins, Option.map_some,
    Bool.false_eq_true, if_false]

/-- The processor after an interrupt through a gate of `int_set_handler`. -/
def entered (a : BitVec 32) (c : Cpu) : Cpu :=
  { c with flags := c.flags &&& 0xfffcbcff, cs := 8, halted := false, pc := a }

theorem deliver_gate {n : ℕ} {a : BitVec 32} (hg : idt n = gateOf a) (err : Option (BitVec 32))
    (c : Cpu) (m : Memory) :
    deliver idt n err c m =
      let sp := c.regs .esp
      let m := store (store (store m (sp - 4) c.flags) (sp - 8) c.cs) (sp - 12) c.pc
      some (err.elim ((entered a c).set .esp (sp - 12), m) fun e =>
        ((entered a c).set .esp (sp - 16), store m (sp - 16) e)) := by
  obtain ⟨hpresent, htype, hcs⟩ := gateOf_type a
  simp only [deliver, intGetHandler_gate hg]
  rw [hg, hpresent, htype, hcs, if_pos (by decide), if_pos rfl]
  rfl

theorem masked_entered (a : BitVec 32) (c : Cpu) : (entered a c).flags.getLsbD IF = false := by
  simp [entered, IF]

/-- The places of the handlers that do not return: `eax` is 0 in the loop of `ipi_stop`. -/
def lostAt (c : Cpu) : Handler → ℕ → Prop
  | .stop, 0 | .stop, 1 | .fatal, 0 | .halt, 0 | .halt, 1 | .halt, 2 => True
  | .stop, 2 => c.regs .eax = 0
  | .stop, 3 => c.flags.getLsbD ZF = true ∧ c.regs .eax = 0
  | _, _ => False

structure Lost (L : Layout) (c : Cpu) : Prop where
  masked : c.flags.getLsbD IF = false
  place : ∃ h i, c.pc = L.addr h i ∧ lostAt c h i

theorem arith_masked (env : BitVec 32 → BitVec 32) (flags v : BitVec 32) :
    (arith env flags v).getLsbD IF = flags.getLsbD IF := by
  rw [arith]
  split <;> simp [IF]

theorem arith_zero (env : BitVec 32 → BitVec 32) (flags v : BitVec 32) :
    (arith env flags v).getLsbD ZF = decide (v = 0) := by
  rw [arith]
  by_cases hv : v = 0
  · simp [ZF, hv]
  · rw [if_neg hv, decide_eq_false hv]
    simp [ZF]

theorem lost_instr (hl : Lost L c) {y : State} (hs : Step L env idt (c, m) .instr y) : Lost L y.1 := by
  obtain ⟨hmask, h, i, hpc, hat⟩ := hl
  have hrun : c.halted = false := by
    by_contra hrun
    rw [Step, next, if_pos (by simpa using hrun)] at hs
    cases hs
  cases h with
  | stop =>
    rcases i with _ | _ | _ | _ | i
    · rw [Step, next_instr hpc rfl hrun] at hs
      cases hs
      exact ⟨hmask, .stop, 1, rfl, trivial⟩
    · rw [Step, next_instr hpc rfl hrun] at hs
      cases hs
      refine ⟨(arith_masked _ _ _).trans hmask, .stop, 2, rfl, ?_⟩
      simp [lostAt, exec, Cpu.set]
    · rw [Step, next_instr hpc rfl hrun] at hs
      cases hs
      have hax : c.regs .eax = 0 := hat
      refine ⟨(arith_masked _ _ _).trans hmask, .stop, 3, rfl, ?_, hax⟩
      rw [exec, arith_zero, hax]
      rfl
    · rw [Step, next_instr hpc rfl hrun] at hs
      cases hs
      obtain ⟨hzf, hax⟩ := hat
      exact ⟨hmask, .stop, 2, by rw [exec, if_pos hzf], hax⟩
    · cases hat
  | fatal =>
    rcases i with _ | i
    · rw [Step, next_instr hpc rfl hrun] at hs
      cases hs
      exact ⟨hmask, .halt, 0, rfl, trivial⟩
    · cases hat
  | halt =>
    rcases i with _ | _ | _ | i
    · rw [Step, next_instr hpc rfl hrun] at hs
      cases hs
      exact ⟨by simp [exec, IF], .halt, 1, rfl, trivial⟩
    · rw [Step, next_instr hpc rfl hrun] at hs
      cases hs
      exact ⟨hmask, .halt, 2, rfl, trivial⟩
    · rw [Step, next_instr hpc rfl hrun] at hs
      cases hs
      exact ⟨hmask, .halt, 1, rfl, trivial⟩
    · cases hat
  | _ => cases hat

theorem lostAt_instr (hat : lostAt c h i) : ∃ ins, (body h)[i]? = some ins := by
  cases h with
  | stop => rcases i with _ | _ | _ | _ | i <;> first | exact ⟨_, rfl⟩ | cases hat
  | fatal => rcases i with _ | i <;> first | exact ⟨_, rfl⟩ | cases hat
  | halt => rcases i with _ | _ | _ | i <;> first | exact ⟨_, rfl⟩ | cases hat
  | _ => cases hat

theorem idtInit_fault (entry : Handler → BitVec 32) (idt₀ : Table) {n : ℕ} (hn : n < 32) :
    idtInit entry idt₀ n = gateOf (entry .fatal) := by
  have hne : ∀ k, 32 ≤ k → n ≠ k := fun k hk => by omega
  rw [idtInit_apply entry idt₀ (by omega), vector]
  simp [hn, hne, IPI_STOP, IPI_RESTART, IPI_RESTART_TLBINV, IPI_RESTART_KERN_TLBINV, IPI_HALT, IPI_BASE]

theorem lost_step {e : Event} {x y : State} (hg : ∀ n < 32, idt n = gateOf (L.addr .fatal 0))
    (hl : Lost L x.1) (hs : Step L env idt x e y) : Lost L y.1 := by
  cases e with
  | instr => exact lost_instr hl hs
  | interrupt n =>
    rw [Step, next, if_neg (by simp [hl.masked])] at hs
    cases hs
  | fault n err =>
    rw [Step, next] at hs
    split at hs
    · rename_i hn
      rw [deliver_gate (hg n hn)] at hs
      cases hs
      cases err <;> exact ⟨masked_entered (L.addr .fatal 0) x.1, .fatal, 0, rfl, trivial⟩
    · cases hs
  | elsewhere c m =>
    obtain ⟨-, h, i, hpc, hat⟩ := hl
    obtain ⟨ins, hins⟩ := lostAt_instr hat
    rw [Step, next, hpc, find_addr hins, if_neg (by simp)] at hs
    cases hs
  | others m =>
    cases hs
    exact hl

def takesAway : Event → Prop
  | .interrupt n => n = IPI_STOP ∨ n = IPI_HALT
  | .fault _ _ => True
  | _ => False

theorem lost_entered {e : Event} {x y : State} {idt₀ : Table} (he : takesAway e)
    (hs : Step L env (idtInit (fun h => L.addr h 0) idt₀) x e y) : Lost L y.1 := by
  cases e with
  | interrupt n =>
    rw [Step, next] at hs
    split at hs
    · rename_i hn
      rw [deliver_gate (idtInit_apply (fun h => L.addr h 0) idt₀ hn.2.1)] at hs
      cases hs
      rcases he with rfl | rfl
      · exact ⟨masked_entered (L.addr .stop 0) x.1, .stop, 0, rfl, trivial⟩
      · exact ⟨masked_entered (L.addr .halt 0) x.1, .halt, 0, rfl, trivial⟩
    · cases hs
  | fault n err =>
    rw [Step, next] at hs
    split at hs
    · rename_i hn
      rw [deliver_gate (idtInit_fault (fun h => L.addr h 0) idt₀ hn)] at hs
      cases hs
      cases err <;> exact ⟨masked_entered (L.addr .fatal 0) x.1, .fatal, 0, rfl, trivial⟩
    · cases hs
  | _ => exact he.elim

def keeps : Handler → Bool
  | .stop | .halt | .fatal => true
  | _ => false

theorem Lost.keeps (hl : Lost L c) : c.flags.getLsbD IF = false ∧
    ∃ h i, keeps h = true ∧ i < (body h).length ∧ c.pc = L.addr h i := by
  obtain ⟨hmask, h, i, hpc, hat⟩ := hl
  obtain ⟨ins, hins⟩ := lostAt_instr hat
  refine ⟨hmask, h, i, ?_, (List.getElem?_eq_some_iff.mp hins).1, hpc⟩
  cases h <;> first | rfl | cases hat

/-- A processor that takes IPI_STOP or IPI_HALT or has a fault never carries out anything but
`ipi_stop`, `int_fatal` and `cpu_halt` again, whatever arrives and whatever others do. -/
theorem taken_away {idt₀ : Table} {e : Event} {x y z : State} {events : List Event}
    (he : takesAway e) (hs : Step L env (idtInit (fun h => L.addr h 0) idt₀) x e y)
    (hrun : Trace (Step L env (idtInit (fun h => L.addr h 0) idt₀)) y events z) :
    z.1.flags.getLsbD IF = false ∧
      ∃ h i, keeps h = true ∧ i < (body h).length ∧ z.1.pc = L.addr h i := by
  have hlost : Lost L z.1 := by
    refine hrun.preserves (I := fun x => Lost L x.1) (fun x e y hl hs => ?_) (lost_entered he hs)
    exact lost_step (fun n hn => idtInit_fault (fun h => L.addr h 0) idt₀ hn) hl hs
  exact hlost.keeps

def Instr.straight : Instr → Bool
  | .je _ | .jmp _ | .call _ | .hlt | .iret => false
  | _ => true

variable (L env h) in
def execAll : List Instr → ℕ → State → State
  | [], _, x => x
  | ins :: block, i, x => execAll block (i + 1) (exec L env h i ins x.1 x.2)

variable (L env h i c m) in
theorem exec_straight (hins : ins.straight = true) :
    (exec L env h i ins c m).1.pc = L.addr h (i + 1) ∧
      (exec L env h i ins c m).1.halted = c.halted := by
  cases ins <;> first | exact ⟨rfl, rfl⟩ | cases hins

variable (L env idt) in
/-- A stretch of a handler is carried out from its first to its last instruction. -/
theorem trace_block {block : List Instr} {x : State} (hblock : ∀ ins ∈ block, ins.straight = true)
    (hpc : x.1.pc = L.addr h i) (hrun : x.1.halted = false) (hcode : block <+: (body h).drop i) :
    Trace (Step L env idt) x (List.replicate block.length .instr) (execAll L env h block i x) ∧
      (execAll L env h block i x).1.pc = L.addr h (i + block.length) ∧
      (execAll L env h block i x).1.halted = false := by
  induction block generalizing i x with
  | nil => exact ⟨.nil x, hpc, hrun⟩
  | cons ins block ih =>
    obtain ⟨rest, hrest⟩ := hcode
    have hhere : (body h)[i]? = some ins := by
      rw [← Nat.add_zero i, ← List.getElem?_drop, ← hrest]
      rfl
    have hnext : block <+: (body h).drop (i + 1) := by
      refine ⟨rest, ?_⟩
      rw [← List.drop_drop, ← hrest]
      rfl
    obtain ⟨hpc', hrun'⟩ := exec_straight L env x.1 x.2 h i (hblock ins List.mem_cons_self)
    obtain ⟨htrace, hlast, hend⟩ := ih (fun ins h => hblock ins (List.mem_cons_of_mem _ h)) hpc'
      (hrun'.trans hrun) hnext
    refine ⟨.cons (next_instr hpc hhere hrun) htrace, hlast.trans ?_, hend⟩
    rw [List.length_cons, Nat.add_assoc, Nat.add_comm 1]

def pushed (c : Cpu) (m : Memory) : Memory :=
  let sp := c.regs .esp
  store (store (store m (sp - 4) c.flags) (sp - 8) c.cs) (sp - 12) c.pc

theorem load_pushed (c : Cpu) (m : Memory) :
    load (pushed c m) (c.regs .esp - 12) = c.pc ∧ load (pushed c m) (c.regs .esp - 12 + 4) = c.cs ∧
      load (pushed c m) (c.regs .esp - 12 + 8) = c.flags := by
  have h4 : c.regs .esp - 4 = c.regs .esp - 12 + 8 := by bv_omega
  have h8 : c.regs .esp - 8 = c.regs .esp - 12 + 4 := by bv_omega
  have h0 : c.regs .esp - 12 = c.regs .esp - 12 + 0 := by bv_omega
  rw [pushed, h4, h8]
  generalize c.regs .esp - 12 = base at h0 ⊢
  have hfirst : Disjoint (span base 4) (span (base + 4) 4) := by
    nth_rewrite 1 [h0]
    exact span_apart (by decide) (by decide)
  have hsecond : Disjoint (span base 4) (span (base + 8) 4) := by
    nth_rewrite 1 [h0]
    exact span_apart (by decide) (by decide)
  have hthird : Disjoint (span (base + 4) 4) (span (base + 8) 4) :=
    span_apart (by decide) (by decide)
  refine ⟨load_store _ _ _, ?_, ?_⟩
  · rw [load_store_apart hfirst, load_store]
  · rw [load_store_apart hsecond, load_store_apart hthird, load_store]

theorem pushed_frame {b : BitVec 32} (hb : b ∉ span (c.regs .esp - 12) 12) : pushed c m b = m b := by
  simp only [mem_span] at hb
  rw [pushed, store_frame, store_frame, store_frame] <;> rw [mem_span] <;> bv_omega

structure Resumed (c : Cpu) (m : Memory) (eax cr0 : BitVec 32) (z : State) : Prop where
  pc : z.1.pc = c.pc
  flags : z.1.flags = c.flags
  cs : z.1.cs = c.cs
  regs : z.1.regs = Function.update c.regs .eax eax
  cr0 : z.1.cr0 = cr0
  cr3 : z.1.cr3 = c.cr3
  running : z.1.halted = false
  mem : ∀ b ∉ span (c.regs .esp - 12) 12, z.2 b = m b

def Cpu.enter (c : Cpu) (a : BitVec 32) : Cpu := (entered a c).set .esp (c.regs .esp - 12)

variable (L env idt c m) in
/-- A handler that only changes `eax` and `cr0` before its `iret`. -/
theorem handler_returns (block : List Instr) {eax cr0 : BitVec 32}
    (hbody : body h = block ++ [.iret]) (hblock : ∀ ins ∈ block, ins.straight = true)
    (hregs : (execAll L env h block 0 (c.enter (L.addr h 0), pushed c m)).1.regs =
      Function.update (c.enter (L.addr h 0)).regs .eax eax)
    (hcr0 : (execAll L env h block 0 (c.enter (L.addr h 0), pushed c m)).1.cr0 = cr0)
    (hcr3 : (execAll L env h block 0 (c.enter (L.addr h 0), pushed c m)).1.cr3 = c.cr3)
    (hmem : (execAll L env h block 0 (c.enter (L.addr h 0), pushed c m)).2 = pushed c m) :
    ∃ k z, Trace (Step L env idt) (c.enter (L.addr h 0), pushed c m) (List.replicate k .instr) z ∧
      Resumed c m eax cr0 z := by
  have hcode : block <+: (body h).drop 0 := ⟨[.iret], by rw [hbody]; rfl⟩
  obtain ⟨htrace, hpc, hrun⟩ := trace_block L env idt (x := (c.enter (L.addr h 0), pushed c m)) hblock
    rfl rfl hcode
  rw [Nat.zero_add] at hpc
  generalize hy : execAll L env h block 0 (c.enter (L.addr h 0), pushed c m) = y at *
  obtain ⟨cy, my⟩ := y
  simp only at hregs hcr0 hcr3 hmem hpc hrun
  subst hmem
  have hret : (body h)[block.length]? = some .iret := by simp [hbody]
  have hsp : cy.regs .esp = c.regs .esp - 12 := by
    rw [hregs]
    simp [Cpu.enter, Cpu.set]
  obtain ⟨hpc', hcs, hflags⟩ := load_pushed c m
  refine ⟨block.length + 1, exec L env h block.length .iret cy (pushed c m), ?_, ?_⟩
  · rw [List.replicate_succ']
    exact htrace.append (.cons (next_instr hpc hret hrun) (.nil _))
  · refine ⟨?_, ?_, ?_, ?_, ?_, ?_, ?_, ?_⟩
    · rw [exec, hsp, hpc']
    · rw [exec, hsp, hflags]
    · rw [exec, hsp, hcs]
    · have hback : c.regs .esp - 12 + 12 = c.regs .esp := by bv_omega
      rw [exec, Cpu.set, hsp, hback, hregs]
      funext r
      cases r <;> simp [Cpu.enter, Cpu.set, entered]
    · exact hcr0
    · exact hcr3
    · exact hrun
    · exact fun b hb => pushed_frame hb

/-- Bit 7 is reserved: neither clearing nor setting it makes a difference. -/
theorem cr0_bit_7 (v : BitVec 32) :
    (v &&& 0xffffff7f &&& CR0_BITS ||| 0x00000080) &&& CR0_BITS = v &&& CR0_BITS := by
  apply BitVec.eq_of_getLsbD_eq
  intro i hi
  simp only [CR0_BITS, BitVec.getLsbD_or, BitVec.getLsbD_and]
  interval_cases i <;> simp

theorem vector_returns {n : ℕ} (hlow : 32 ≤ n) (hstop : n ≠ IPI_STOP) (hhalt : n ≠ IPI_HALT) :
    vector n = .ignore ∨ vector n = .restart ∨ vector n = .restartTlbinv ∨
      vector n = .restartKernTlbinv := by
  have hfault : ¬ n < 32 := by omega
  simp only [vector, if_neg hhalt, if_neg hstop, if_neg hfault]
  split_ifs <;> simp

variable (L env c m) in
/-- Every other interrupt returns to the code it met: an unknown one changes nothing, and the ones for
restarting leave 1 in `eax`, wherever they arrive. The bit that the one for the kernel's pages clears
and sets in CR0 is a reserved one. -/
theorem interrupt_returns (idt₀ : Table) {n : ℕ} (hlow : 32 ≤ n) (hhigh : n < 256)
    (hif : c.flags.getLsbD IF = true) (hstop : n ≠ IPI_STOP) (hhalt : n ≠ IPI_HALT) :
    ∃ y k z, Step L env (idtInit (fun h => L.addr h 0) idt₀) (c, m) (.interrupt n) y ∧
      Trace (Step L env (idtInit (fun h => L.addr h 0) idt₀)) y (List.replicate k .instr) z ∧
      Resumed c m (if vector n = .ignore then c.regs .eax else 1)
        (if vector n = .restartKernTlbinv then c.cr0 &&& CR0_BITS else c.cr0) z := by
  have hgate := idtInit_apply (fun h => L.addr h 0) idt₀ hhigh
  have hdeliver : Step L env (idtInit (fun h => L.addr h 0) idt₀) (c, m) (.interrupt n)
      (c.enter (L.addr (vector n) 0), pushed c m) := by
    rw [Step, next, if_pos ⟨hlow, hhigh, hif⟩, deliver_gate hgate]
    rfl
  rcases vector_returns hlow hstop hhalt with hv | hv | hv | hv <;> rw [hv] at hdeliver ⊢
  · obtain ⟨k, z, htrace, hz⟩ := handler_returns L env (idtInit (fun h => L.addr h 0) idt₀) c m []
      (h := .ignore) rfl (by simp) (Function.update_eq_self _ _).symm rfl rfl rfl
    exact ⟨_, k, z, hdeliver, htrace, hz⟩
  · obtain ⟨k, z, htrace, hz⟩ := handler_returns L env (idtInit (fun h => L.addr h 0) idt₀) c m
      [.mov .eax 1] (h := .restart) rfl (by simp [Instr.straight]) rfl rfl rfl rfl
    exact ⟨_, k, z, hdeliver, htrace, hz⟩
  · obtain ⟨k, z, htrace, hz⟩ := handler_returns L env (idtInit (fun h => L.addr h 0) idt₀) c m
      [.fromCr3 .eax, .toCr3 .eax, .mov .eax 1] (h := .restartTlbinv) rfl (by simp [Instr.straight])
      (Function.update_idem _ _ _) rfl (by simp [execAll, exec, Cpu.set, Cpu.enter, entered]) rfl
    exact ⟨_, k, z, hdeliver, htrace, hz⟩
  · have hkern : ∃ k z, Trace (Step L env (idtInit (fun h => L.addr h 0) idt₀))
        (c.enter (L.addr .restartKernTlbinv 0), pushed c m) (List.replicate k .instr) z ∧
        Resumed c m 1 (c.cr0 &&& CR0_BITS) z := by
      refine handler_returns L env _ c m [.fromCr0 .eax, .and .eax 0xffffff7f, .toCr0 .eax,
        .fromCr3 .eax, .toCr3 .eax, .fromCr0 .eax, .or .eax 0x00000080, .toCr0 .eax, .mov .eax 1]
        rfl (by simp [Instr.straight]) ?_ ?_ ?_ rfl
      · simp [execAll, exec, Cpu.set]
      · simp only [execAll, exec, Cpu.set, Cpu.enter, entered, Function.update_self, cr0_bit_7]
      · simp [execAll, exec, Cpu.set, Cpu.enter, entered]
    obtain ⟨k, z, htrace, hz⟩ := hkern
    exact ⟨_, k, z, hdeliver, htrace, hz⟩

end Machine

def rows : Layout where
  addr h i := BitVec.ofNat 32 (16 * handlers.idxOf h + i)
  apart := by decide

def idle : Cpu where
  regs _ := 0x8000
  flags := 0x202
  cs := 8
  cr0 := 0x80000001
  cr3 := 0x100000
  halted := false
  pc := 0x100000

/-- IPI_RESTART does not bring back a processor that has taken IPI_STOP. -/
theorem taken_away_stopped : ∃ z : State,
    (∃ h i, keeps h = true ∧ i < (body h).length ∧ z.1.pc = rows.addr h i) ∧
    next rows id (idtInit (fun h => rows.addr h 0) fun _ => 0) z (.interrupt IPI_RESTART) = none := by
  have hs : Step rows id (idtInit (fun h => rows.addr h 0) fun _ => 0) (idle, fun _ => 0)
      (.interrupt IPI_STOP) (idle.enter (rows.addr .stop 0), pushed idle fun _ => 0) := by
    rw [Step, next, if_pos (by decide), deliver_gate (idtInit_apply _ _ (by decide))]
    rfl
  obtain ⟨z, hrun⟩ : ∃ z, Trace (Step rows id (idtInit (fun h => rows.addr h 0) fun _ => 0))
      (idle.enter (rows.addr .stop 0), pushed idle fun _ => 0) [.instr, .instr, .instr] z :=
    ⟨_, .cons (next_instr rfl rfl rfl) (.cons (next_instr rfl rfl rfl)
      (.cons (next_instr rfl rfl rfl) (.nil _)))⟩
  obtain ⟨hmasked, hplace⟩ := taken_away (e := .interrupt IPI_STOP) (Or.inl rfl) hs hrun
  refine ⟨z, hplace, ?_⟩
  rw [next, if_neg (by simp [hmasked])]

theorem interrupt_returns_restart : ∃ y k z,
    Step rows id (idtInit (fun h => rows.addr h 0) fun _ => 0) (idle, fun _ => 0)
        (.interrupt IPI_RESTART) y ∧
      Trace (Step rows id (idtInit (fun h => rows.addr h 0) fun _ => 0)) y (List.replicate k .instr) z ∧
      z.1.pc = idle.pc ∧ z.1.regs .eax = 1 := by
  obtain ⟨y, k, z, hstep, htrace, hz⟩ := interrupt_returns rows id idle (fun _ => 0) (fun _ => 0)
    (n := IPI_RESTART) (by decide) (by decide) (by decide) (by decide) (by decide)
  refine ⟨y, k, z, hstep, htrace, hz.pc, ?_⟩
  rw [hz.regs]
  decide

end InterruptGates
