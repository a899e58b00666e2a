import Metakernel.JumpCode

/-!
# The first code of the kernel

`start` of ia_32_start.s up to its first call: it keeps what the loader says of the memory map, clears
the bss, and puts the arguments of `static_alloc_init` on the stack.
-/
namespace StartCode

open WordCode (Memory load store span mem_span span_apart load_store load_store_apart store_frame
  load_congr)
open JumpCode

/-- `biosMap` and `biosMapSize` are in the bss. The stack is elsewhere. -/
structure Image where
  biosMap : BitVec 32
  biosMapSize : BitVec 32
  bssStart : BitVec 32
  bssEnd : BitVec 32
  kernEnd : BitVec 32

def Image.bss (img : Image) : Set (BitVec 32) := span img.bssStart (img.bssEnd - img.bssStart).toNat

def stackTop : BitVec 32 := 0x20fff4

structure Image.Linked (img : Image) : Prop where
  map : span img.biosMap 4 ⊆ img.bss
  mapSize : span img.biosMapSize 4 ⊆ img.bss
  stack : Disjoint img.bss (span stackTop 8)

def start (img : Image) : List Instr :=
  [.op 32 .mov (.mem none img.biosMap) (.reg .eax),
   .op 32 .mov (.mem none img.biosMapSize) (.reg .ebx),
   .op 32 .mov (.reg .esi) (.imm img.bssStart),
   .op 8 .mov (.mem (some .esi) 0) (.imm 0),
   .op 32 .inc (.reg .esi) (.imm 0),
   .cmp 32 (.reg .esi) (.imm img.bssEnd),
   .jump .notZero 3,
   .op 32 .mov (.reg .esp) (.imm 0x20fffc),
   .op 32 .add (.reg .esp) (.imm (-8)),
   .op 32 .mov (.reg .eax) (.imm img.kernEnd),
   .op 32 .mov (.mem (some .esp) 0) (.reg .eax),
   .op 32 .and (.reg .eax) (.imm 0xffc00000),
   .op 32 .add (.reg .eax) (.imm 0x00400000),
   .op 32 .mov (.mem (some .esp) 4) (.reg .eax)]

section Start

variable {env : Env} {img : Image} {c c' : Cpu} {s s' : Shared} {k : ℕ} {m : Memory}

/-- At `.zero` after `k` bytes. -/
structure Clearing (img : Image) (m : Memory) (k : ℕ) (c : Cpu) (s : Shared) : Prop where
  place : c.pc = .at 3
  left : k < (img.bssEnd - img.bssStart).toNat
  byte : c.regs .esi = img.bssStart + BitVec.ofNat 32 k
  cleared : ∀ b ∈ span img.bssStart k, s.mem b = 0
  frame : ∀ b ∉ span img.bssStart k, s.mem b = m b

def clearByte (img : Image) : List Instr :=
  [.op 8 .mov (.mem (some .esi) 0) (.imm 0),
   .op 32 .inc (.reg .esi) (.imm 0),
   .cmp 32 (.reg .esi) (.imm img.bssEnd)]

variable (env) in
theorem clear_byte (h : Clearing img m k c s) : ∃ c',
    Runs env (start img) (c, s)
      (c', { s with mem := Function.update s.mem (img.bssStart + BitVec.ofNat 32 k) 0 }) ∧
      c'.pc = .at 6 ∧ c'.regs .esi = img.bssStart + BitVec.ofNat 32 (k + 1) ∧
      c'.zero = decide (k + 1 = (img.bssEnd - img.bssStart).toNat) := by
  have hleft := h.left
  have hstretch := runs_straight env (start img) (c, s) (clearByte img)
    (by simp [clearByte, Instr.straight]) h.place ⟨_, rfl⟩
  obtain ⟨c', hexec, hesi, hzero⟩ : ∃ c', execAll env (clearByte img) 3 (c, s) =
      (c', { s with mem := Function.update s.mem (img.bssStart + BitVec.ofNat 32 k) 0 }) ∧
      c'.regs .esi = img.bssStart + BitVec.ofNat 32 (k + 1) ∧
      c'.zero = (img.bssStart + BitVec.ofNat 32 (k + 1) - img.bssEnd == 0) := by
    have hnext : img.bssStart + BitVec.ofNat 32 k + 1#32 = img.bssStart + BitVec.ofNat 32 (k + 1) := by
      bv_omega
    refine ⟨_, Prod.ext rfl ?_, ?_, ?_⟩
    · simp [clearByte, execAll, exec, put, value, Cpu.addr, Op.eval, h.byte, store_merge_byte]
    · simp [clearByte, execAll, exec, put, value, Op.eval, h.byte, hnext]
    · simp [clearByte, execAll, exec, put, value, Op.eval, Op.zero, Op.keepsFlags, h.byte, hnext]
  rw [hexec] at hstretch
  refine ⟨c', hstretch.1, hstretch.2, hesi, hzero.trans ?_⟩
  rw [Bool.eq_iff_iff, beq_iff_eq, decide_eq_true_iff]
  bv_omega

variable (env) in
theorem clear_step (h : Clearing img m k c s) : ∃ c' s', Runs env (start img) (c, s) (c', s') ∧
    (∀ b ∈ span img.bssStart (k + 1), s'.mem b = 0) ∧
    (∀ b ∉ span img.bssStart (k + 1), s'.mem b = m b) ∧
    if k + 1 = (img.bssEnd - img.bssStart).toNat then c'.pc = .at 7
    else Clearing img m (k + 1) c' s' := by
  obtain ⟨c₁, hrun, hpc, hesi, hzero⟩ := clear_byte env h
  have hleft := h.left
  have hbyte : ∀ b, b ∈ span img.bssStart (k + 1) ↔
      b = img.bssStart + BitVec.ofNat 32 k ∨ b ∈ span img.bssStart k := by
    intro b
    simp only [mem_span]
    bv_omega
  have hcleared : ∀ b ∈ span img.bssStart (k + 1),
      Function.update s.mem (img.bssStart + BitVec.ofNat 32 k) 0 b = 0 := by
    intro b hb
    rcases (hbyte b).mp hb with rfl | hb
    · exact Function.update_self _ _ _
    · rw [Function.update_apply, h.cleared b hb, ite_self]
  have hframe : ∀ b ∉ span img.bssStart (k + 1),
      Function.update s.mem (img.bssStart + BitVec.ofNat 32 k) 0 b = m b := by
    intro b hb
    obtain ⟨hne, hout⟩ := not_or.mp (mt (hbyte b).mpr hb)
    rw [Function.update_of_ne hne, h.frame b hout]
  refine ⟨_, _, hrun.trans (.first hpc rfl .refl), hcleared, hframe, ?_⟩
  simp only [Cond.holds, hzero]
  split
  · rename_i hlast
    simp [hlast]
  · rename_i hmore
    refine ⟨?_, by omega, hesi, hcleared, hframe⟩
    simp only [hmore, decide_false, Bool.not_false, if_true]

variable (env) in
theorem clear_all (h : Clearing img m k c s) : ∃ c' s', Runs env (start img) (c, s) (c', s') ∧
    c'.pc = .at 7 ∧ (∀ b ∈ img.bss, s'.mem b = 0) ∧ ∀ b ∉ img.bss, s'.mem b = m b := by
  obtain ⟨y, hrun, hend⟩ := Runs.rounds (n := (img.bssEnd - img.bssStart).toNat) (k := k) (x := (c, s))
    (I := fun k x => Clearing img m k x.1 x.2)
    (Q := fun y => y.1.pc = .at 7 ∧ (∀ b ∈ img.bss, y.2.mem b = 0) ∧ ∀ b ∉ img.bss, y.2.mem b = m b)
    (fun k x hk hx => by
      obtain ⟨c', s', hrun, hcleared, hframe, hend⟩ := clear_step env hx
      refine ⟨(c', s'), hrun, ?_⟩
      split at hend
      · rename_i hlast
        rw [hlast] at hcleared hframe
        exact Or.inl ⟨hend, hcleared, hframe⟩
      · exact Or.inr ⟨by omega, hend⟩)
    h.left h
  exact ⟨y.1, y.2, hrun, hend⟩

theorem load_zero {a : BitVec 32} (h : ∀ b ∈ span a 4, m b = 0) : load m a = 0 := by
  have hzero : load (fun _ => 0) a = 0 := by
    rw [load]
    decide
  rw [← hzero]
  exact load_congr h

variable (env s) in
/-- The loop is entered with the arguments of the loader in the bss. -/
theorem enter_loop (hlinked : img.Linked) (hpc : c.pc = .at 0) : ∃ c' s',
    Runs env (start img) (c, s) (c', s') ∧ Clearing img s'.mem 0 c' s' ∧
      ∀ b ∉ img.bss, s'.mem b = s.mem b := by
  have hstretch := runs_straight env (start img) (c, s)
    [.op 32 .mov (.mem none img.biosMap) (.reg .eax),
      .op 32 .mov (.mem none img.biosMapSize) (.reg .ebx),
      .op 32 .mov (.reg .esi) (.imm img.bssStart)] (by simp [Instr.straight]) hpc ⟨_, rfl⟩
  have hsome : 0 < (img.bssEnd - img.bssStart).toNat := by
    have hfirst := hlinked.map (show img.biosMap ∈ span img.biosMap 4 by simp)
    rw [Image.bss, mem_span] at hfirst
    omega
  refine ⟨_, _, hstretch.1, ⟨hstretch.2, hsome, ?_, ?_, fun _ _ => rfl⟩, fun b hb => ?_⟩
  · simp [exec, put, value, Cpu.addr, Op.eval]
  · intro b hb
    simp at hb
  · have hmap : b ∉ span img.biosMap 4 := fun h => hb (hlinked.map h)
    have hsize : b ∉ span img.biosMapSize 4 := fun h => hb (hlinked.mapSize h)
    simp [exec, put, value, Cpu.addr, Op.eval, store_frame hmap, store_frame hsize]

/-- What `static_alloc_init` is given: the end of the kernel and the end of the large page behind it. -/
def pushArguments (img : Image) (m : Memory) : Memory :=
  let limit := img.kernEnd &&& 0xffc00000
  store (store m stackTop img.kernEnd) (stackTop + 4) (limit + 0x00400000)

variable (env img s) in
/-- The stack is taken and the arguments of `static_alloc_init` are put on it. -/
theorem push_arguments (hpc : c.pc = .at 7) : ∃ c', Runs env (start img) (c, s)
    (c', { s with mem := pushArguments img s.mem }) ∧ c'.pc = .at 14 ∧ c'.regs .esp = stackTop := by
  have hstretch := runs_straight env (start img) (c, s)
    [.op 32 .mov (.reg .esp) (.imm 0x20fffc), .op 32 .add (.reg .esp) (.imm (-8)),
      .op 32 .mov (.reg .eax) (.imm img.kernEnd), .op 32 .mov (.mem (some .esp) 0) (.reg .eax),
      .op 32 .and (.reg .eax) (.imm 0xffc00000), .op 32 .add (.reg .eax) (.imm 0x00400000),
      .op 32 .mov (.mem (some .esp) 4) (.reg .eax)] (by simp [Instr.straight]) hpc ⟨_, rfl⟩
  obtain ⟨hrun, hend⟩ := hstretch
  have hexec : ∀ x : State, x.2 = { s with mem := pushArguments img s.mem } →
      x = (x.1, { s with mem := pushArguments img s.mem }) := fun x hx => by rw [← hx]
  rw [hexec (execAll env _ 7 (c, s)) ?_] at hrun
  refine ⟨_, hrun, hend, ?_⟩
  · simp [execAll, exec, put, value, Cpu.addr, Op.eval, stackTop]
  · simp [execAll, exec, put, value, Cpu.addr, Op.eval, stackTop, pushArguments]

variable (env s) in
/-- Whatever the loader says of the memory map is gone before it is read: `start` keeps it in the bss,
which it clears. -/
theorem start_forgets_map (hlinked : img.Linked) (hpc : c.pc = .at 0) : ∃ c' s',
    Runs env (start img) (c, s) (c', s') ∧ c'.pc = .at 14 ∧ c'.regs .esp = stackTop ∧
      load s'.mem img.biosMap = 0 ∧ load s'.mem img.biosMapSize = 0 ∧
      load s'.mem stackTop = img.kernEnd ∧
      load s'.mem (stackTop + 4) = (img.kernEnd &&& 0xffc00000) + 0x00400000 ∧
      (∀ b ∈ img.bss, s'.mem b = 0) ∧
      ∀ b ∉ img.bss, b ∉ span stackTop 8 → s'.mem b = s.mem b := by
  obtain ⟨c₁, s₁, henter, hloop, hkept⟩ := enter_loop env s hlinked hpc
  obtain ⟨c₂, s₂, hclear, hpc₂, hcleared, hframe⟩ := clear_all env hloop
  obtain ⟨c₃, hpush, hpc₃, hsp⟩ := push_arguments env img s₂ hpc₂
  have hlow : span stackTop 4 ⊆ span stackTop 8 := WordCode.span_subset (by decide)
  have hhigh : span (stackTop + 4) 4 ⊆ span stackTop 8 := WordCode.span_subset (by decide)
  have hpushed : ∀ b ∉ span stackTop 8, pushArguments img s₂.mem b = s₂.mem b := by
    intro b hb
    rw [pushArguments, store_frame fun h => hb (hhigh h), store_frame fun h => hb (hlow h)]
  have hbss : ∀ b ∈ img.bss, pushArguments img s₂.mem b = 0 := fun b hb =>
    (hpushed b (Set.disjoint_left.mp hlinked.stack hb)).trans (hcleared b hb)
  have hapart : Disjoint (span (stackTop + 4) 4) (span stackTop 4) := by
    have hsum := span_apart (a := stackTop) (x := 0) (y := 4) (n := 4) (k := 4) (by decide) (by decide)
    rw [add_zero] at hsum
    exact hsum.symm
  refine ⟨c₃, _, (henter.trans hclear).trans hpush, hpc₃, hsp, ?_, ?_, ?_, ?_, hbss, fun b hb hs => ?_⟩
  · exact load_zero fun b hb => hbss b (hlinked.map hb)
  · exact load_zero fun b hb => hbss b (hlinked.mapSize hb)
  · simp only [pushArguments]
    rw [load_store_apart hapart, load_store]
  · simp only [pushArguments]
    rw [load_store]
  · exact (hpushed b hs).trans ((hframe b hb).trans (hkept b hb))

end Start

def smallImage : Image where
  biosMap := 0x108000
  biosMapSize := 0x108004
  bssStart := 0x108000
  bssEnd := 0x108100
  kernEnd := 0x108100

theorem smallImage_linked : smallImage.Linked := by
  refine ⟨WordCode.span_subset (by decide), WordCode.span_subset (by decide), ?_⟩
  have hapart := span_apart (a := 0) (x := 0x108000) (y := 0x20fff4) (n := 256) (k := 8) (by decide)
    (by decide)
  rw [zero_add, zero_add] at hapart
  exact hapart

theorem start_forgets_map_small : ∃ c' s',
    Runs ⟨fun _ _ => 0, id⟩ (start smallImage)
        (⟨fun _ => 0x7e00, false, false, ⟨0, 0⟩, 0, .at 0⟩, ⟨fun _ => 0xff, []⟩) (c', s') ∧
      load s'.mem smallImage.biosMap = 0 ∧ load s'.mem smallImage.biosMapSize = 0 := by
  obtain ⟨c', s', hrun, -, -, hmap, hsize, -⟩ := start_forgets_map ⟨fun _ _ => 0, id⟩
    ⟨fun _ => 0xff, []⟩ (c := ⟨fun _ => 0x7e00, false, false, ⟨0, 0⟩, 0, .at 0⟩) smallImage_linked rfl
  exact ⟨c', s', hrun, hmap, hsize⟩

end StartCode
