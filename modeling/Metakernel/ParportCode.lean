import Metakernel.JumpCode

/-!
# Writing a character to the port, instruction by instruction

`parport_write_char` of ia_32_parport.s. It polls the status port until the printer is ready, at
most a thousand times. What the device answers may depend on all that went over its ports before.
-/
namespace ParportCode

open WordCode (Memory load store span load_store load_store_apart span_apart store_frame)
open JumpCode

def enter : List Instr :=
  [.op 32 .add (.reg .esp) (.imm (-8)),
   .op 32 .mov (.mem (some .esp) 4) (.reg .edx),
   .op 32 .mov (.mem (some .esp) 0) (.reg .ecx),
   .op 16 .mov (.reg .edx) (.mem (some .esp) 16),
   .op 16 .add (.reg .edx) (.imm 1),
   .op 32 .mov (.reg .ecx) (.imm 1000)]

def poll : List Instr :=
  [.input .eax .edx,
   .op 8 .and (.reg .eax) (.imm 0x80),
   .op 32 .sub (.reg .ecx) (.imm 1),
   .cmp 32 (.reg .ecx) (.imm 0),
   .jump .zero 26,
   .cmp 8 (.reg .eax) (.imm 0),
   .jump .zero 6]

def send : List Instr :=
  [.op 16 .sub (.reg .edx) (.imm 1),
   .op 8 .mov (.reg .eax) (.mem (some .esp) 20),
   .output .edx .eax,
   .op 16 .add (.reg .edx) (.imm 2),
   .op 8 .mov (.reg .eax) (.imm 0xd),
   .output .edx .eax,
   .op 8 .mov (.reg .eax) (.imm 0xc),
   .output .edx .eax,
   .op 32 .xor (.reg .eax) (.reg .eax)]

/-- `.exit` at place 22, and behind the return `.error` at place 26. -/
def leave : List Instr :=
  [.op 32 .mov (.reg .ecx) (.mem (some .esp) 0),
   .op 32 .mov (.reg .edx) (.mem (some .esp) 4),
   .op 32 .add (.reg .esp) (.imm 12)]

def parportWriteChar : List Instr :=
  enter ++ poll ++ send ++ leave ++
    [.ret, .op 32 .mov (.reg .eax) (.imm (-1)), .jump .always 22]

/-- The events of the ports after `n` polls of the status, and what the next poll gets. -/
def polled (env : Env) (status : BitVec 16) (log : List PortEvent) : ℕ → List PortEvent
  | 0 => log
  | n + 1 =>
    let log := polled env status log n
    .read status (env.device log status) :: log

def answer (env : Env) (status : BitVec 16) (log : List PortEvent) (n : ℕ) : BitVec 8 :=
  env.device (polled env status log n) status

def ready (v : BitVec 8) : Bool := v &&& 0x80 != 0

/-- The poll that finds the printer ready, if it is among the first 999. -/
def firstReady (env : Env) (status : BitVec 16) (log : List PortEvent) : Option ℕ :=
  (List.range 999).find? fun i => ready (answer env status log i)

/-- The character goes to the port, and the strobe to the port behind the status. -/
def sent (port : BitVec 16) (ch : BitVec 8) (log : List PortEvent) : List PortEvent :=
  .write (port + 2) 0xc :: .write (port + 2) 0xd :: .write port ch :: log

/-- The port and the character are read from the second and third word above the return address. -/
def portArg (c : Cpu) (s : Shared) : BitVec 16 := (load s.mem (c.regs .esp + 8)).setWidth 16

def charArg (c : Cpu) (s : Shared) : BitVec 8 := (load s.mem (c.regs .esp + 12)).setWidth 8

def written (env : Env) (c : Cpu) (s : Shared) : BitVec 32 × List PortEvent :=
  (firstReady env (portArg c s + 1) s.ports).elim
    (-1, polled env (portArg c s + 1) s.ports 1000)
    fun i => (0, sent (portArg c s) (charArg c s) (polled env (portArg c s + 1) s.ports (i + 1)))

section Calls

variable {env : Env} {c c' : Cpu} {s s' : Shared} {w : BitVec 32} {i : ℕ}

structure Frame (c : Cpu) (s : Shared) (w : BitVec 32) (c' : Cpu) (s' : Shared) : Prop where
  sp : c'.regs .esp = w
  ecx : load s'.mem w = c.regs .ecx
  edx : load s'.mem (w + 4#32) = c.regs .edx
  above : ∀ k : BitVec 32, 8 ≤ k.toNat → k.toNat ≤ 4294967292 →
    load s'.mem (w + k) = load s.mem (w + k)
  frame : ∀ b ∉ span w 8, s'.mem b = s.mem b
  rest : ∀ r, r ≠ .eax → r ≠ .ecx → r ≠ .edx → r ≠ .esp → c'.regs r = c.regs r

/-- At `.loop1` after `i` polls. -/
structure Polling (env : Env) (c : Cpu) (s : Shared) (w : BitVec 32) (i : ℕ) (c' : Cpu) (s' : Shared) :
    Prop where
  place : c'.pc = .at 6
  inFrame : Frame c s w c' s'
  count : c'.regs .ecx = BitVec.ofNat 32 (1000 - i)
  port : (c'.regs .edx).setWidth 16 = portArg c s + 1
  ports : s'.ports = polled env (portArg c s + 1) s.ports i

theorem Frame.congr {c₁ : Cpu} {s₁ : Shared} (h : Frame c s w c' s') (hregs : c₁.regs = c'.regs)
    (hmem : s₁.mem = s'.mem) : Frame c s w c₁ s₁ := by
  obtain ⟨hsp, hecx, hedx, habove, hout, hkeep⟩ := h
  constructor
  all_goals simpa only [hregs, hmem]

variable (env) in
theorem enter_polling (hpc : c.pc = .at 0) (hw : c.regs .esp = w + 8#32) :
    ∃ c' s', Runs env parportWriteChar (c, s) (c', s') ∧ Polling env c s w 0 c' s' := by
  have hdown : w + 8#32 + 4294967288#32 = w := by bv_omega
  have hstores : store (store s.mem (w + 4#32) (c.regs .edx)) w (c.regs .ecx) =
      saveTwo s.mem w (c.regs .ecx) (c.regs .edx) := rfl
  have hport : (load (saveTwo s.mem w (c.regs .ecx) (c.regs .edx)) (w + 16#32)).setWidth 16 =
      portArg c s := by
    have haddr : w + 8#32 + 8 = w + 16#32 := by bv_omega
    rw [saveTwo_above (by decide) (by decide), portArg, hw, haddr]
  have hrun := runs_straight env parportWriteChar (c, s) enter
    (by decide) hpc ⟨poll ++ send ++ leave ++ _, rfl⟩
  refine ⟨_, _, hrun.1, hrun.2, ?_, ?_, ?_, ?_⟩
  all_goals simp [exec, put, value, Cpu.addr, Op.eval, Op.carry, Op.zero, Op.keepsFlags, hw, hdown, hstores, hport, polled]
  exact ⟨by simp, saveTwo_low, saveTwo_high, fun k => saveTwo_above, fun b => saveTwo_frame,
    fun r ha hc hd hsp => by simp [hc, hd, hsp]⟩

variable (env s') in
theorem read_status (hpc : c'.pc = .at 6) :
    ∃ c'', Runs env parportWriteChar (c', s') (c'',
        { s' with ports := polled env ((c'.regs .edx).setWidth 16) s'.ports 1 }) ∧
      c''.pc = .at 10 ∧
      (c''.regs .eax).setWidth 8 = answer env ((c'.regs .edx).setWidth 16) s'.ports 0 &&& 0x80 ∧
      c''.regs .ecx = c'.regs .ecx - 1 ∧ c''.zero = (c'.regs .ecx - 1 == 0) ∧
      ∀ r, r ≠ .eax → r ≠ .ecx → c''.regs r = c'.regs r := by
  have hrun := runs_straight env parportWriteChar (c', s')
    [.input .eax .edx, .op 8 .and (.reg .eax) (.imm 0x80),
      .op 32 .sub (.reg .ecx) (.imm 1), .cmp 32 (.reg .ecx) (.imm 0)]
    (by decide) hpc ⟨_, rfl⟩
  refine ⟨_, hrun.1, hrun.2, ?_, ?_, ?_, fun r ha hc => ?_⟩
  all_goals simp [exec, put, value, Op.eval, Op.zero, Op.keepsFlags, answer, polled, *]

variable (env s') in
theorem test_again {v : BitVec 8} (hpc : c'.pc = .at 10) (hgo : c'.zero = false)
    (hax : (c'.regs .eax).setWidth 8 = v &&& 0x80) :
    ∃ c'', Runs env parportWriteChar (c', s') (c'', s') ∧ c''.regs = c'.regs ∧
      c''.pc = .at (if ready v then 13 else 6) := by
  have hjump : exec env (.jump .zero 26) 10 c' s' = ({ c' with pc := .at 11 }, s') := by
    rw [exec_jump, Cond.holds, hgo]
    rfl
  have hcmp : ∃ c₁, exec env (.cmp 8 (.reg .eax) (.imm 0)) 11 { c' with pc := .at 11 } s' = (c₁, s') ∧
      c₁.regs = c'.regs ∧ c₁.pc = .at 12 ∧ c₁.zero = !ready v := by
    refine ⟨_, rfl, rfl, rfl, ?_⟩
    simp [value, Op.zero, Op.keepsFlags, Op.eval, hax, ready, bne]
  obtain ⟨c₁, hexec, hregs, hplace, hzero⟩ := hcmp
  refine ⟨{ c₁ with pc := .at (if ready v then 13 else 6) }, .first hpc rfl ?_, hregs, rfl⟩
  rw [hjump]
  refine .first rfl rfl ?_
  rw [hexec]
  refine .first hplace rfl ?_
  rw [exec_jump, Cond.holds, hzero]
  cases ready v <;> exact .refl

/-- One poll: the last one fails, one that finds the printer ready goes on to send. -/
theorem poll_step (h : Polling env c s w i c' s') (hi : i < 1000) :
    ∃ c'' s'', Runs env parportWriteChar (c', s') (c'', s'') ∧ Frame c s w c'' s'' ∧
      (c''.regs .edx).setWidth 16 = portArg c s + 1 ∧
      s''.ports = polled env (portArg c s + 1) s.ports (i + 1) ∧
      (if i = 999 then c''.pc = .at 26
        else if ready (answer env (portArg c s + 1) s.ports i) then c''.pc = .at 13
        else Polling env c s w (i + 1) c'' s'') := by
  obtain ⟨c₁, hrun, hpc, hax, hcx, hzero, hrest⟩ := read_status env s' h.place
  have hports : polled env ((c'.regs .edx).setWidth 16) s'.ports 1 =
      polled env (portArg c s + 1) s.ports (i + 1) := by
    rw [h.port, h.ports]
    rfl
  have hanswer : answer env ((c'.regs .edx).setWidth 16) s'.ports 0 =
      answer env (portArg c s + 1) s.ports i := by
    rw [h.port, h.ports]
    rfl
  rw [hports] at hrun
  rw [hanswer] at hax
  have hframe : Frame c s w c₁ s' := by
    obtain ⟨hsp, hecx, hedx, habove, hout, hkeep⟩ := h.inFrame
    exact ⟨(hrest _ (by decide) (by decide)).trans hsp, hecx, hedx, habove, hout,
      fun r ha hc hd hs => (hrest r ha hc).trans (hkeep r ha hc hd hs)⟩
  have hport : (c₁.regs .edx).setWidth 16 = portArg c s + 1 := by
    rw [hrest _ (by decide) (by decide), h.port]
  have hcount : c'.regs .ecx - 1 = BitVec.ofNat 32 (999 - i) := by
    rw [h.count]
    bv_omega
  have hlast : c₁.zero = decide (i = 999) := by
    rw [hzero, hcount, Bool.eq_iff_iff, beq_iff_eq, decide_eq_true_iff]
    bv_omega
  by_cases hi999 : i = 999
  · refine ⟨_, _, hrun.trans (.first hpc rfl .refl), hframe.congr rfl rfl, hport, rfl, ?_⟩
    rw [if_pos hi999]
    simp [Cond.holds, hlast, hi999]
  · obtain ⟨c₂, hrun₂, hregs, hpc₂⟩ := test_again env
      { s' with ports := polled env (portArg c s + 1) s.ports (i + 1) } hpc
      (by rw [hlast, decide_eq_false hi999]) hax
    refine ⟨c₂, _, hrun.trans hrun₂, hframe.congr hregs rfl, hregs ▸ hport, rfl, ?_⟩
    rw [if_neg hi999]
    by_cases hready : ready (answer env (portArg c s + 1) s.ports i) = true
    · rw [if_pos hready, hpc₂, if_pos hready]
    · rw [if_neg hready]
      rw [if_neg hready] at hpc₂
      refine ⟨hpc₂, hframe.congr hregs rfl, ?_, hregs ▸ hport, rfl⟩
      rw [hregs, hcx, hcount, show 999 - i = 1000 - (i + 1) by omega]

theorem firstReady_some {env : Env} {status : BitVec 16} {log : List PortEvent} (hi : i < 999)
    (hready : ready (answer env status log i) = true)
    (hbefore : ∀ j < i, ready (answer env status log j) = false) :
    firstReady env status log = some i := by
  rw [firstReady, List.find?_range_eq_some]
  exact ⟨hready, List.mem_range.mpr hi, fun j hj => by simp [hbefore j hj]⟩

/-- The loop ends, with the first answer that says ready or after the last poll. -/
theorem polls_end (h : Polling env c s w i c' s') (hi : i < 1000)
    (hbefore : ∀ j < i, ready (answer env (portArg c s + 1) s.ports j) = false) :
    ∃ c'' s'', Runs env parportWriteChar (c', s') (c'', s'') ∧ Frame c s w c'' s'' ∧
      (c''.regs .edx).setWidth 16 = portArg c s + 1 ∧
      ((∃ n, firstReady env (portArg c s + 1) s.ports = some n ∧ c''.pc = .at 13 ∧
          s''.ports = polled env (portArg c s + 1) s.ports (n + 1)) ∨
        (firstReady env (portArg c s + 1) s.ports = none ∧ c''.pc = .at 26 ∧
          s''.ports = polled env (portArg c s + 1) s.ports 1000)) := by
  obtain ⟨y, hrun, hend⟩ := Runs.rounds (n := 1000) (k := i) (x := (c', s'))
    (I := fun i x => Polling env c s w i x.1 x.2 ∧
      ∀ j < i, ready (answer env (portArg c s + 1) s.ports j) = false)
    (Q := fun y => Frame c s w y.1 y.2 ∧ (y.1.regs .edx).setWidth 16 = portArg c s + 1 ∧
      ((∃ n, firstReady env (portArg c s + 1) s.ports = some n ∧ y.1.pc = .at 13 ∧
          y.2.ports = polled env (portArg c s + 1) s.ports (n + 1)) ∨
        (firstReady env (portArg c s + 1) s.ports = none ∧ y.1.pc = .at 26 ∧
          y.2.ports = polled env (portArg c s + 1) s.ports 1000)))
    (fun i x hi hx => by
      obtain ⟨hpolling, hbefore⟩ := hx
      obtain ⟨c₁, s₁, hrun, hframe, hport, hports, hend⟩ := poll_step hpolling hi
      refine ⟨(c₁, s₁), hrun, ?_⟩
      split at hend
      · rename_i hlast
        subst hlast
        refine Or.inl ⟨hframe, hport, Or.inr ⟨?_, hend, hports⟩⟩
        rw [firstReady, List.find?_eq_none]
        intro j hj
        rw [hbefore j (List.mem_range.mp hj)]
        decide
      · split at hend
        · rename_i hready
          exact Or.inl ⟨hframe, hport,
            Or.inl ⟨i, firstReady_some (by omega) hready hbefore, hend, hports⟩⟩
        · rename_i hready
          refine Or.inr ⟨by omega, hend, fun j hj => ?_⟩
          by_cases hji : j = i
          · rw [hji]
            exact Bool.eq_false_iff.mpr hready
          · exact hbefore j (by omega))
    hi ⟨h, hbefore⟩
  exact ⟨y.1, y.2, hrun, hend⟩

variable (env) in
theorem send_run (hpc : c'.pc = .at 13) (hframe : Frame c s w c' s') (hw : c.regs .esp = w + 8#32)
    (hport : (c'.regs .edx).setWidth 16 = portArg c s + 1) :
    ∃ c'' s'', Runs env parportWriteChar (c', s') (c'', s'') ∧ Frame c s w c'' s'' ∧
      c''.pc = .at 22 ∧ c''.regs .eax = 0 ∧ s''.ports = sent (portArg c s) (charArg c s) s'.ports := by
  have hchar : (load s'.mem (w + 20#32)).setWidth 8 = charArg c s := by
    have haddr : w + 8#32 + 12 = w + 20#32 := by bv_omega
    rw [hframe.above _ (by decide) (by decide), charArg, hw, haddr]
  have hrun := runs_straight env parportWriteChar (c', s') send
    (by decide) hpc ⟨leave ++ _, rfl⟩
  refine ⟨_, _, hrun.1, ?_, hrun.2, ?_, ?_⟩
  · obtain ⟨hsp, hecx, hedx, habove, hout, hkeep⟩ := hframe
    refine ⟨?_, hecx, hedx, habove, hout, fun r ha hc hd hs => ?_⟩
    · simpa [exec, put] using hsp
    · simpa [exec, put, ha, hd] using hkeep r ha hc hd hs
  · simp [exec, put, value, Op.eval]
  · simp [exec, put, value, Cpu.addr, Op.eval, hframe.sp, hport, hchar, sent]

variable (env) in
theorem error_run (hpc : c'.pc = .at 26) (hframe : Frame c s w c' s') :
    ∃ c'', Runs env parportWriteChar (c', s') (c'', s') ∧ Frame c s w c'' s' ∧ c''.pc = .at 22 ∧
      c''.regs .eax = -1 := by
  obtain ⟨hsp, hecx, hedx, habove, hout, hkeep⟩ := hframe
  refine ⟨_, .first hpc rfl (.first rfl rfl .refl), ⟨?_, hecx, hedx, habove, hout, ?_⟩, ?_, ?_⟩
  · simpa [exec, put] using hsp
  · intro r ha hc hd hs
    simpa [exec, put, ha] using hkeep r ha hc hd hs
  · simp [Cond.holds]
  · simp [value, Op.eval]

variable (env) in
/-- The registers are restored; one word more than there is room for is taken off the stack, and the
return goes to the first argument. -/
theorem leave_run (hpc : c'.pc = .at 22) (hframe : Frame c s w c' s') (hw : c.regs .esp = w + 8#32) :
    ∃ c'', Runs env parportWriteChar (c', s') (c'', s') ∧
      c''.pc = .out (load s.mem (c.regs .esp + 4)) ∧ c''.regs .eax = c'.regs .eax ∧
      c''.regs .esp = c.regs .esp + 8 ∧ ∀ r, r ≠ .eax → r ≠ .esp → c''.regs r = c.regs r := by
  obtain ⟨hsp, hecx, hedx, habove, hout, hkeep⟩ := hframe
  have hret : load s'.mem (w + 12#32) = load s.mem (c.regs .esp + 4) := by
    have haddr : w + 8#32 + 4 = w + 12#32 := by bv_omega
    rw [habove _ (by decide) (by decide), hw, haddr]
  have hend : w + 12#32 + 4#32 = w + 8#32 + 8#32 := by bv_omega
  have hrun := runs_straight env parportWriteChar (c', s') leave
    (by decide) hpc ⟨_, rfl⟩
  have hpops : ∃ c₁, execAll env leave 22 (c', s') = (c₁, s') ∧ c₁.regs .esp = w + 12#32 ∧
      c₁.regs .eax = c'.regs .eax ∧ ∀ r, r ≠ .eax → r ≠ .esp → c₁.regs r = c.regs r := by
    refine ⟨_, rfl, ?_, ?_, fun r ha hs => ?_⟩
    · simp [exec, put, value, Op.eval, hsp]
    · simp [exec, put]
    · by_cases hd : r = .edx
      · simp [exec, put, value, Cpu.addr, Op.eval, hd, hsp, hedx]
      by_cases hc : r = .ecx
      · simp [exec, put, value, Cpu.addr, Op.eval, hc, hsp, hecx]
      · simp [exec, put, hs, hd, hc, hkeep r ha hc hd hs]
  obtain ⟨c₁, hexec, hsp₁, hax₁, hrest₁⟩ := hpops
  rw [hexec] at hrun
  refine ⟨_, hrun.1.trans (.first hrun.2 rfl .refl), ?_, ?_, ?_, fun r ha hs => ?_⟩
  · simp only [hsp₁, hret]
  · simpa using hax₁
  · simp [hsp₁, hend, hw]
  · simpa [hs] using hrest₁ r ha hs

theorem written_some {n : ℕ} (h : firstReady env (portArg c s + 1) s.ports = some n) :
    written env c s = (0, sent (portArg c s) (charArg c s)
      (polled env (portArg c s + 1) s.ports (n + 1))) := by
  rw [written, h, Option.elim_some]

theorem written_none (h : firstReady env (portArg c s + 1) s.ports = none) :
    written env c s = (-1, polled env (portArg c s + 1) s.ports 1000) := by
  rw [written, h, Option.elim_none]

variable (env) in
/-- Whatever the device answers, `parport_write_char` comes to an end: it has polled until the
printer was ready and sent the character and the strobe, or has given up after the thousandth poll,
whose answer no longer counts. It goes back to its first argument in place of its caller. -/
theorem parport_write_char_ends (hpc : c.pc = .at 0) :
    ∃ c' s', Runs env parportWriteChar (c, s) (c', s') ∧
      c'.pc = .out (load s.mem (c.regs .esp + 4)) ∧
      (c'.regs .eax, s'.ports) = written env c s ∧ c'.regs .esp = c.regs .esp + 8 ∧
      (∀ r, r ≠ .eax → r ≠ .esp → c'.regs r = c.regs r) ∧
      ∀ b ∉ span (c.regs .esp - 8) 8, s'.mem b = s.mem b := by
  obtain ⟨w, hw⟩ : ∃ w, c.regs .esp = w + 8#32 := ⟨c.regs .esp - 8, by bv_omega⟩
  have hbase : c.regs .esp - 8 = w := by rw [hw]; bv_omega
  obtain ⟨c₁, s₁, henter, hpolling⟩ := enter_polling env (s := s) hpc hw
  obtain ⟨c₂, s₂, hpoll, hframe₂, hport₂, hcases⟩ := polls_end hpolling (by omega) (by omega)
  rw [hbase]
  cases hcases with
  | inl hsome =>
    obtain ⟨n, hfirst, hpc₂, hports₂⟩ := hsome
    obtain ⟨c₃, s₃, hsend, hframe₃, hpc₃, hax₃, hports₃⟩ :=
      send_run env hpc₂ hframe₂ hw hport₂
    obtain ⟨c₄, hleave, hpc₄, hax₄, hsp₄, hrest₄⟩ := leave_run env hpc₃ hframe₃ hw
    refine ⟨c₄, s₃, ((henter.trans hpoll).trans hsend).trans hleave, hpc₄, ?_, hsp₄, hrest₄,
      hframe₃.frame⟩
    rw [written_some hfirst, hax₄, hax₃, hports₃, hports₂]
  | inr hnone =>
    obtain ⟨hnone, hpc₂, hports₂⟩ := hnone
    obtain ⟨c₃, hfail, hframe₃, hpc₃, hax₃⟩ := error_run env hpc₂ hframe₂
    obtain ⟨c₄, hleave, hpc₄, hax₄, hsp₄, hrest₄⟩ := leave_run env hpc₃ hframe₃ hw
    refine ⟨c₄, s₂, ((henter.trans hpoll).trans hfail).trans hleave, hpc₄, ?_, hsp₄, hrest₄,
      hframe₃.frame⟩
    rw [written_none hnone, hax₄, hax₃, hports₂]

end Calls

def slowPrinter : Env := ⟨fun log _ => if log.length = 2 then 0x80 else 0x5f, fun v => v⟩

/-- The port 0x378 is the second word above the return address, the character the third one. -/
def printA : Shared :=
  ⟨fun b => if b = 0x1008 then 0x78 else if b = 0x1009 then 0x03 else if b = 0x100c then 0x41 else 0,
    []⟩

def caller : Cpu := ⟨fun _ => 0x1000, false, false, ⟨0, 0⟩, 0, .at 0⟩

theorem printA_written : written slowPrinter caller printA =
    (0, [.write 0x37a 0xc, .write 0x37a 0xd, .write 0x378 0x41, .read 0x379 0x80,
      .read 0x379 0x5f, .read 0x379 0x5f]) := by
  rw [written_some (firstReady_some (i := 2) (by decide) (by decide) (by decide))]
  decide

theorem parport_write_char_ends_ready : ∃ c' s',
    Runs slowPrinter parportWriteChar (caller, printA) (c', s') ∧ c'.pc = .out 0 ∧
      s'.ports.length = 6 := by
  obtain ⟨c', s', hrun, hpc, hwritten, -⟩ :=
    parport_write_char_ends slowPrinter (c := caller) (s := printA) rfl
  rw [printA_written] at hwritten
  refine ⟨c', s', hrun, hpc, ?_⟩
  rw [(Prod.mk.inj hwritten).2]
  rfl

end ParportCode
