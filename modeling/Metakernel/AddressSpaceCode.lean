import Metakernel.JumpCode

/-!
# Clearing a page directory, instruction by instruction

`arch_addr_spc_init` of ia_32_virt_mem.s. Its loop compares a pointer with the end of the tables and
never moves the pointer.
-/
namespace AddressSpaceCode

open WordCode (Memory load store span store_frame)
open JumpCode

def archAddrSpcInit : List Instr :=
  [.op 32 .add (.reg .esp) (.imm (-8)),
   .op 32 .mov (.mem (some .esp) 4) (.reg .eax),
   .op 32 .mov (.mem (some .esp) 0) (.reg .ebx),
   .op 32 .mov (.reg .eax) (.mem (some .esp) 12),
   .op 32 .add (.reg .eax) (.imm 0x1000),
   .op 32 .mov (.reg .ebx) (.reg .eax),
   .op 32 .add (.reg .eax) (.imm 0x2000),
   .op 32 .mov (.mem (some .ebx) 0) (.imm 0),
   .cmp 32 (.reg .eax) (.reg .ebx),
   .jump .notZero 7,
   .op 32 .mov (.reg .ebx) (.mem (some .esp) 0),
   .op 32 .mov (.reg .eax) (.mem (some .esp) 4),
   .op 32 .add (.reg .esp) (.imm 8),
   .ret]

def argument (c : Cpu) (s : Shared) : BitVec 32 := load s.mem (c.regs .esp + 4)

section Calls

variable {env : Env} {c : Cpu} {s : Shared} {x y : State} {start : BitVec 32} {m : Memory}

/-- In the loop: the pointer stays at its start, the end is two pages behind it, and only the first
word of the tables is written. -/
structure Looping (start : BitVec 32) (m : Memory) (x : State) : Prop where
  place : x.1.pc = .at 7 ∨ x.1.pc = .at 8 ∨ x.1.pc = .at 9 ∧ x.1.zero = false
  pointer : x.1.regs .ebx = start
  end_ : x.1.regs .eax = start + 0x2000
  frame : ∀ b ∉ span start 4, x.2.mem b = m b

variable (env) in
theorem looping_step (h : Looping start m x) :
    ∃ y, step env archAddrSpcInit x = some y ∧ Looping start m y := by
  obtain ⟨c, s⟩ := x
  obtain ⟨hplace, hptr, hend, hframe⟩ := h
  simp only at hplace hptr hend hframe
  rcases hplace with hpc | hpc | ⟨hpc, hzero⟩
  · refine ⟨_, step_at hpc rfl, Or.inr (Or.inl rfl), ?_, ?_, fun b hb => ?_⟩
    · simpa [exec, put] using hptr
    · simpa [exec, put] using hend
    · simp only [exec, put, Cpu.addr, Option.elim, hptr, add_zero]
      rw [store_frame hb, hframe b hb]
  · refine ⟨_, step_at hpc rfl, Or.inr (Or.inr ⟨rfl, ?_⟩), hptr, hend, hframe⟩
    simp only [exec, value, Op.zero, Op.keepsFlags, Op.eval, BitVec.setWidth_eq, hptr, hend]
    rw [if_neg (by decide), beq_eq_false_iff_ne]
    bv_omega
  · refine ⟨_, step_at hpc rfl, Or.inl ?_, hptr, hend, hframe⟩
    simp [exec, Cond.holds, hzero]

theorem Looping.run (h : Looping start m x) (hrun : Runs env archAddrSpcInit x y) :
    Looping start m y := by
  refine hrun.preserves (I := Looping start m) (fun u v hu hstep => ?_) h
  obtain ⟨w, hw, hloop⟩ := looping_step env hu
  rw [hw, Option.some.injEq] at hstep
  exact hstep ▸ hloop

variable (env) in
/-- The loop is entered with the first two words under the stack pointer overwritten. -/
theorem enter_loop (hpc : c.pc = .at 0) :
    ∃ z, Runs env archAddrSpcInit (c, s) z ∧ Looping (argument c s + 0x1000) z.2.mem z ∧
      ∀ b ∉ span (c.regs .esp - 8) 8, z.2.mem b = s.mem b := by
  obtain ⟨w, hw⟩ : ∃ w, c.regs .esp = w + 8#32 := ⟨c.regs .esp - 8, by bv_omega⟩
  have hbase : c.regs .esp - 8 = w := by rw [hw]; bv_omega
  have hdown : w + 8#32 + 4294967288#32 = w := by bv_omega
  have hstores : store (store s.mem (w + 4#32) (c.regs .eax)) w (c.regs .ebx) =
      saveTwo s.mem w (c.regs .ebx) (c.regs .eax) := rfl
  have harg : load (saveTwo s.mem w (c.regs .ebx) (c.regs .eax)) (w + 12#32) = argument c s := by
    have haddr : w + 8#32 + 4 = w + 12#32 := by bv_omega
    rw [saveTwo_above (by decide) (by decide), argument, hw, haddr]
  have hrun := runs_straight env archAddrSpcInit (c, s)
    (archAddrSpcInit.take 7) (by decide) hpc ⟨_, rfl⟩
  have hend : ∃ c', execAll env (archAddrSpcInit.take 7) 0 (c, s) =
        (c', { s with mem := saveTwo s.mem w (c.regs .ebx) (c.regs .eax) }) ∧
      c'.regs .ebx = argument c s + 4096#32 ∧
      c'.regs .eax = argument c s + 4096#32 + 8192#32 := by
    refine ⟨(execAll env (archAddrSpcInit.take 7) 0 (c, s)).1, Prod.ext rfl ?_, ?_, ?_⟩
    all_goals simp [archAddrSpcInit, execAll, exec, put, value, Cpu.addr, Op.eval, hw, hdown,
      hstores, harg]
  obtain ⟨c', hexec, hptr, hlimit⟩ := hend
  rw [hexec] at hrun
  refine ⟨_, hrun.1, ⟨Or.inl hrun.2, hptr, hlimit, fun b _ => rfl⟩, fun b hb => ?_⟩
  rw [hbase] at hb
  exact saveTwo_frame hb

variable (env) in
/-- `arch_addr_spc_init` never comes to an end, whatever its argument: every state of its run has a
next one. It writes the first word of the tables and no other. -/
theorem arch_addr_spc_init_loops (hpc : c.pc = .at 0) :
    (∀ y, Runs env archAddrSpcInit (c, s) y → (step env archAddrSpcInit y).isSome = true) ∧
      ∃ z, Runs env archAddrSpcInit (c, s) z ∧ ∀ y, Runs env archAddrSpcInit z y →
        ∀ b ∉ span (c.regs .esp - 8) 8 ∪ span (argument c s + 0x1000) 4, y.2.mem b = s.mem b := by
  obtain ⟨z, hrun, hloop, hstack⟩ := enter_loop env (s := s) hpc
  constructor
  · intro y hy
    rcases hrun.connected hy with hz | hz
    · obtain ⟨u, hu, -⟩ := looping_step env (hloop.run hz)
      rw [hu, Option.isSome_some]
    · rcases Relation.ReflTransGen.cases_head hz with rfl | ⟨u, hu, -⟩
      · obtain ⟨u, hu, -⟩ := looping_step env hloop
        rw [hu, Option.isSome_some]
      · rw [hu, Option.isSome_some]
  · refine ⟨z, hrun, fun y hy b hb => ?_⟩
    rw [Set.mem_union, not_or] at hb
    exact ((hloop.run hy).frame b hb.2).trans (hstack b hb.1)

end Calls

def caller : Cpu := ⟨fun _ => 0x1000, false, false, ⟨0, 0⟩, 0, .at 0⟩

theorem arch_addr_spc_init_loops_caller : ∃ z, Runs ⟨fun _ _ => 0, fun v => v⟩ archAddrSpcInit
    (caller, ⟨fun _ => 0, []⟩) z ∧ (step ⟨fun _ _ => 0, fun v => v⟩ archAddrSpcInit z).isSome = true := by
  obtain ⟨hgo, z, hrun, -⟩ := arch_addr_spc_init_loops ⟨fun _ _ => 0, fun v => v⟩
    (c := caller) (s := ⟨fun _ => 0, []⟩) rfl
  exact ⟨z, hrun, hgo z hrun⟩

end AddressSpaceCode
