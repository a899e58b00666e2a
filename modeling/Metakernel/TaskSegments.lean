import Metakernel.JumpCode
import Mathlib.Tactic.IntervalCases

/-!
# The descriptors of the task segments

The last part of `thread_start` in ia_32_mpinit.s: a task segment of 128 bytes for every processor is
entered in the global descriptor table, the table and the first segment are loaded, and the scheduler is
called.
-/
namespace TaskSegments

open WordCode (Memory load store span mem_span span_apart span_subset load_store load_store_apart
  store_frame load_bit load_congr)
open JumpCode

structure Vars where
  tssArray : BitVec 32
  cpuCount : BitVec 32
  gdt : BitVec 32
  gdtDesc : BitVec 32

def prepare (v : Vars) : List Instr :=
  [.op 32 .mov (.mem none v.tssArray) (.reg .eax),
   .op 32 .mov (.reg .ecx) (.mem none v.cpuCount),
   .op 32 .shl (.reg .ecx) (.imm 7),
   .op 32 .mov (.reg .edx) (.mem none v.cpuCount),
   .op 32 .shl (.reg .edx) (.imm 3),
   .op 32 .add (.reg .edx) (.mem none v.gdt),
   .op 32 .add (.reg .edx) (.imm 40)]

def enter : List Instr :=
  [.op 32 .sub (.reg .edx) (.imm 8),
   .op 32 .sub (.reg .ecx) (.imm 0x80),
   .op 32 .mov (.reg .ebx) (.reg .eax),
   .op 32 .add (.reg .ebx) (.reg .ecx),
   .op 32 .shl (.reg .ebx) (.imm 16),
   .op 32 .or (.reg .ebx) (.imm 0x67),
   .op 32 .mov (.mem (some .edx) 0) (.reg .ebx),
   .op 32 .mov (.mem (some .edx) 4) (.imm 0x00008900),
   .op 32 .mov (.reg .ebx) (.reg .eax),
   .op 32 .shr (.reg .ebx) (.imm 16),
   .op 8 .mov (.mem (some .edx) 4) (.reg .ebx),
   .op 8 .mov (.mem (some .edx) 7) (.high .ebx),
   .cmp 32 (.reg .ecx) (.imm 0)]

/-- Behind the loop, up to `ltr`. -/
def describe (v : Vars) : List Instr :=
  [.op 32 .mov (.reg .edx) (.mem none v.cpuCount),
   .op 32 .add (.reg .edx) (.imm 5),
   .op 32 .shl (.reg .edx) (.imm 3),
   .op 32 .add (.reg .edx) (.imm (-1)),
   .op 16 .mov (.mem none v.gdtDesc) (.reg .edx),
   .op 32 .mov (.reg .eax) (.mem none v.gdt),
   .op 32 .mov (.mem none (v.gdtDesc + 2)) (.reg .eax),
   .loadTable v.gdtDesc,
   .op 16 .mov (.reg .eax) (.imm 0x0028)]

def signal (v : Vars) : List Instr :=
  [.op 32 .mov (.mem none 0xfee00310) (.imm 0xff000000),
   .op 32 .mov (.mem none 0xfee00300) (.imm 0x000c4032),
   .op 32 .mov (.reg .ebx) (.mem none v.cpuCount),
   .op 32 .mov (.mem (some .esp) 0) (.reg .ebx)]

/-- `thread_sched_static_init` is called at place 35. -/
def threadStart (v : Vars) : List Instr :=
  prepare v ++ enter ++ [.jump .notZero 7] ++ describe v ++ [.loadTask .eax] ++ signal v ++
    [.skip, .ret]

theorem load_half_congr {a : BitVec 32} {m m' : Memory} (h : ∀ b ∈ span a 2, m' b = m b) :
    (load m' a).setWidth 16 = (load m a).setWidth 16 := by
  apply BitVec.eq_of_getLsbD_eq
  intro i hi
  have hbyte : a + BitVec.ofNat 32 (i / 8) ∈ span a 2 := by
    rw [mem_span, add_sub_cancel_left, BitVec.toNat_ofNat]
    omega
  rw [BitVec.getLsbD_setWidth, BitVec.getLsbD_setWidth, load_bit _ _ (by omega),
    load_bit _ _ (by omega), h _ hbyte]

/-- The base that the processor takes from the two words of a descriptor. -/
def base (low high : BitVec 32) : BitVec 32 :=
  high.extractLsb' 24 8 ++ high.extractLsb' 0 8 ++ low.extractLsb' 16 16

/-- The words that are written for segment `i` of the segments at `tss`. -/
def lowWord (tss : BitVec 32) (i : ℕ) : BitVec 32 := (tss + BitVec.ofNat 32 (128 * i)) <<< 16 ||| 0x67

def highWord (tss : BitVec 32) (busy : Bool) : BitVec 32 :=
  (tss >>> 16 >>> 8).setWidth 8 ++ 0x00#8 ++ (if busy then 0x8b#8 else 0x89#8) ++
    (tss >>> 16).setWidth 8

def descriptor (gdt : BitVec 32) (i : ℕ) : BitVec 32 := gdt + BitVec.ofNat 32 (40 + 8 * i)

section Words

variable {tss e b : BitVec 32} {i : ℕ} {m : Memory} {busy : Bool}

theorem base_halves : base (lowWord tss i) (highWord tss busy) =
    (tss >>> 16).setWidth 16 ++ (tss + BitVec.ofNat 32 (128 * i)).setWidth 16 := by
  rw [base, lowWord, highWord]
  generalize tss + BitVec.ofNat 32 (128 * i) = x
  generalize (if busy then 0x8b#8 else 0x89#8) = access
  apply BitVec.eq_of_getLsbD_eq
  intro j hj
  simp only [BitVec.getLsbD_append, BitVec.getLsbD_extractLsb', BitVec.getLsbD_setWidth,
    BitVec.getLsbD_ushiftRight, BitVec.getLsbD_or, BitVec.getLsbD_shiftLeft]
  interval_cases j <;> simp

theorem base_toNat : (base (lowWord tss i) (highWord tss busy)).toNat =
    tss.toNat / 65536 * 65536 + (tss.toNat + 128 * i) % 65536 := by
  have hhigh : ((tss >>> 16).setWidth 16).toNat = tss.toNat / 65536 := by
    have ht := tss.isLt
    rw [BitVec.toNat_setWidth, BitVec.toNat_ushiftRight, Nat.shiftRight_eq_div_pow]
    omega
  have hlow : ((tss + BitVec.ofNat 32 (128 * i)).setWidth 16).toNat =
      (tss.toNat + 128 * i) % 65536 := by
    rw [BitVec.toNat_setWidth, BitVec.toNat_add, BitVec.toNat_ofNat]
    omega
  rw [base_halves, BitVec.toNat_append, hhigh, hlow,
    ← Nat.shiftLeft_add_eq_or_of_lt (Nat.mod_lt _ (by decide)), Nat.shiftLeft_eq]

/-- The base is right as long as the segments do not cross a boundary of 64 kilobytes. -/
theorem base_iff (hi : i < 16777216) : base (lowWord tss i) (highWord tss busy) =
    tss + BitVec.ofNat 32 (128 * i) ↔ tss.toNat % 65536 + 128 * i < 65536 := by
  rw [← BitVec.toNat_inj, base_toNat, BitVec.toNat_add, BitVec.toNat_ofNat]
  have ht := tss.isLt
  omega

theorem descriptor_inside (gdt : BitVec 32) {n : ℕ} (hi : i < n + 1) (hn : n < 16777216) :
    span (descriptor gdt i) 4 ⊆ span (gdt + 40) (8 * (n + 1)) ∧
      span (descriptor gdt i + 4) 4 ⊆ span (gdt + 40) (8 * (n + 1)) := by
  constructor
  all_goals
    apply span_subset
    simp only [descriptor]
    bv_omega

def writeEntry (m : Memory) (e tss : BitVec 32) (i : ℕ) : Memory :=
  let m := store (store m e (lowWord tss i)) (e + 4) 0x00008900
  let m := Function.update m (e + 4) ((tss >>> 16).setWidth 8)
  Function.update m (e + 7) ((tss >>> 16 >>> 8).setWidth 8)

theorem writeEntry_low : load (writeEntry m e tss i) e = lowWord tss i := by
  have hapart : Disjoint (span (e + 4) 4) (span e 4) := by
    have hsum := span_apart (a := e) (x := 0) (y := 4) (n := 4) (k := 4) (by decide) (by decide)
    rw [add_zero] at hsum
    exact hsum.symm
  have hbytes : ∀ b ∈ span e 4, writeEntry m e tss i b =
      store (store m e (lowWord tss i)) (e + 4) 0x00008900 b := by
    intro b hb
    have h4 : b ≠ e + 4 := by
      rintro rfl
      simp at hb
    have h7 : b ≠ e + 7 := by
      rintro rfl
      simp at hb
    simp only [writeEntry, Function.update_of_ne h4, Function.update_of_ne h7]
  rw [load_congr hbytes, load_store_apart hapart, load_store]

theorem writeEntry_high : load (writeEntry m e tss i) (e + 4) = highWord tss false := by
  have hbyte : ∀ k : BitVec 32, k.toNat < 4 → store (store m e (lowWord tss i)) (e + 4) 0x00008900
      (e + 4 + k) = (0x00008900#32).extractLsb' (8 * k.toNat) 8 := by
    intro k hk
    rw [store, add_sub_cancel_left, if_pos hk]
    rfl
  have h4 : writeEntry m e tss i (e + 4) = (tss >>> 16).setWidth 8 := by
    rw [writeEntry, Function.update_of_ne (by bv_omega), Function.update_self]
  have h7 : writeEntry m e tss i (e + 4 + 3) = (tss >>> 16 >>> 8).setWidth 8 := by
    rw [show e + 4 + 3 = e + 7 by bv_omega, writeEntry, Function.update_self]
  have h5 : writeEntry m e tss i (e + 4 + 1) = 0x89#8 := by
    rw [writeEntry, Function.update_of_ne (by bv_omega), Function.update_of_ne (by bv_omega),
      hbyte 1 (by decide)]
    decide
  have h6 : writeEntry m e tss i (e + 4 + 2) = 0x00#8 := by
    rw [writeEntry, Function.update_of_ne (by bv_omega), Function.update_of_ne (by bv_omega),
      hbyte 2 (by decide)]
    decide
  rw [load, h4, h5, h6, h7, highWord]
  rfl

theorem writeEntry_frame (hb : b ∉ span e 8) : writeEntry m e tss i b = m b := by
  have hlow : span e 4 ⊆ span e 8 := span_subset (by simp)
  have hhigh : span (e + 4) 4 ⊆ span e 8 := span_subset (by simp)
  have h4 : b ≠ e + 4 := by
    rintro rfl
    simp at hb
  have h7 : b ≠ e + 7 := by
    rintro rfl
    simp at hb
  simp only [writeEntry, Function.update_of_ne h4, Function.update_of_ne h7]
  rw [store_frame fun h => hb (hhigh h), store_frame fun h => hb (hlow h)]

theorem load_update_second (m : Memory) (a : BitVec 32) :
    load (Function.update m (a + 1) (m (a + 1) ||| 2)) a = load m a ||| 0x200 := by
  have h0 : a ≠ a + 1 := by bv_omega
  have h2 : a + 2 ≠ a + 1 := by bv_omega
  have h3 : a + 3 ≠ a + 1 := by bv_omega
  rw [load, Function.update_self, Function.update_of_ne h0, Function.update_of_ne h2,
    Function.update_of_ne h3, load]
  apply BitVec.eq_of_getLsbD_eq
  intro i hi
  simp only [BitVec.getLsbD_or, BitVec.getLsbD_append]
  interval_cases i <;> simp

theorem second_byte_of_high {a : BitVec 32} (h : load m a = highWord tss false) :
    m (a + 1) = 0x89 := by
  apply BitVec.eq_of_getLsbD_eq
  intro i hi
  have hbit := load_bit m a (i := 8 + i) (by omega)
  have hplace : (8 + i) / 8 = 1 ∧ (8 + i) % 8 = i := by omega
  rw [hplace.1, hplace.2, h] at hbit
  refine hbit.symm.trans ?_
  simp only [highWord, BitVec.getLsbD_append]
  interval_cases i <;> simp

theorem highWord_busy : highWord tss false ||| 0x200 = highWord tss true := by
  rw [highWord, highWord]
  generalize (tss >>> 16 >>> 8).setWidth 8 = top
  generalize (tss >>> 16).setWidth 8 = middle
  apply BitVec.eq_of_getLsbD_eq
  intro i hi
  simp only [BitVec.getLsbD_or, BitVec.getLsbD_append]
  interval_cases i <;> simp

end Words

section Loop

variable {env : Env} {v : Vars} {gdt tss w : BitVec 32} {n k : ℕ} {m : Memory} {c c' : Cpu}
  {s s₀ s' : Shared}

def Entered (gdt tss : BitVec 32) (k n : ℕ) (m : Memory) : Prop :=
  ∀ i, k ≤ i → i < n → load m (descriptor gdt i) = lowWord tss i ∧
    load m (descriptor gdt i + 4) = highWord tss false

/-- The segments from `k` on are in the table, and nothing else has changed since `s₀`. -/
structure Filled (gdt tss w : BitVec 32) (n : ℕ) (s₀ : Shared) (k : ℕ) (c : Cpu) (s : Shared) :
    Prop where
  sp : c.regs .esp = w
  ports : s.ports = s₀.ports
  written : Entered gdt tss k n s.mem
  frame : ∀ b ∉ span (gdt + 40) (8 * n), s.mem b = s₀.mem b

/-- At `.tss_loop` with the first `k` segments left. -/
structure Entering (gdt tss w : BitVec 32) (n : ℕ) (s₀ : Shared) (k : ℕ) (c : Cpu) (s : Shared) :
    Prop extends Filled gdt tss w n s₀ k c s where
  place : c.pc = .at 7
  offset : c.regs .ecx = BitVec.ofNat 32 (128 * k)
  entry : c.regs .edx = descriptor gdt k
  segments : c.regs .eax = tss

variable (env v s) in
theorem enter_run (hpc : c.pc = .at 7) (hcx : c.regs .ecx = BitVec.ofNat 32 (128 * (k + 1)))
    (hdx : c.regs .edx = descriptor gdt (k + 1)) (hax : c.regs .eax = tss) : ∃ c',
    Runs env (threadStart v) (c, s)
        (c', { s with mem := writeEntry s.mem (descriptor gdt k) tss k }) ∧
      c'.pc = .at 20 ∧ c'.regs .ecx = BitVec.ofNat 32 (128 * k) ∧
      c'.regs .edx = descriptor gdt k ∧ c'.regs .eax = tss ∧ c'.regs .esp = c.regs .esp ∧
      c'.zero = (BitVec.ofNat 32 (128 * k) == 0) := by
  have hstretch := runs_straight env (threadStart v) (c, s) enter (by simp [enter, Instr.straight])
    hpc ⟨_, rfl⟩
  have hentry : descriptor gdt (k + 1) - 8#32 = descriptor gdt k := by
    simp only [descriptor]
    bv_omega
  have hoffset : BitVec.ofNat 32 (128 * (k + 1)) - 128#32 = BitVec.ofNat 32 (128 * k) := by bv_omega
  obtain ⟨c', hexec, hrest⟩ : ∃ c', execAll env enter 7 (c, s) =
      (c', { s with mem := writeEntry s.mem (descriptor gdt k) tss k }) ∧
      c'.regs .ecx = BitVec.ofNat 32 (128 * k) ∧ c'.regs .edx = descriptor gdt k ∧
      c'.regs .eax = tss ∧ c'.regs .esp = c.regs .esp ∧
      c'.zero = (BitVec.ofNat 32 (128 * k) == 0) := by
    refine ⟨_, Prod.ext rfl ?_, ?_, ?_, ?_, ?_, ?_⟩
    all_goals simp [enter, execAll, exec, put, value, Cpu.addr, Op.eval, Op.zero, Op.keepsFlags, hcx,
      hdx, hax, hentry, hoffset, store_merge_byte, writeEntry, lowWord]
  rw [hexec] at hstretch
  exact ⟨c', hstretch.1, hstretch.2, hrest⟩

/-- A descriptor that is written leaves the later ones as they are. -/
theorem Entered.write (h : Entered gdt tss (k + 1) n m) (hn : n ≤ 16777216) :
    Entered gdt tss k n (writeEntry m (descriptor gdt k) tss k) := by
  intro i hk hi
  rcases hk.eq_or_lt with rfl | hlater
  · exact ⟨writeEntry_low, writeEntry_high⟩
  have hout : ∀ b ∈ span (descriptor gdt i) 8, b ∉ span (descriptor gdt k) 8 := by
    intro b hb hk
    simp only [mem_span, descriptor] at hb hk
    bv_omega
  have hlow : span (descriptor gdt i) 4 ⊆ span (descriptor gdt i) 8 := span_subset (by simp)
  have hhigh : span (descriptor gdt i + 4) 4 ⊆ span (descriptor gdt i) 8 := span_subset (by simp)
  rw [load_congr fun b hb => writeEntry_frame (hout b (hlow hb)),
    load_congr fun b hb => writeEntry_frame (hout b (hhigh hb))]
  exact h i hlater hi

variable (env v) in
theorem enter_step (h : Entering gdt tss w n s₀ (k + 1) c s) (hk : k < n) (hn : n ≤ 16777216) :
    ∃ c' s', Runs env (threadStart v) (c, s) (c', s') ∧ Filled gdt tss w n s₀ k c' s' ∧
      if k = 0 then c'.pc = .at 21 else Entering gdt tss w n s₀ k c' s' := by
  obtain ⟨c₁, hrun, hpc, hcx, hdx, hax, hsp, hzero⟩ :=
    enter_run env v s h.place h.offset h.entry h.segments
  have hframe : ∀ b ∉ span (gdt + 40) (8 * n),
      writeEntry s.mem (descriptor gdt k) tss k b = s₀.mem b := by
    intro b hb
    have hinside : span (descriptor gdt k) 8 ⊆ span (gdt + 40) (8 * n) := by
      apply span_subset
      simp only [descriptor]
      bv_omega
    rw [writeEntry_frame fun h => hb (hinside h), h.frame b hb]
  have hfilled : ∀ c', c'.regs = c₁.regs → Filled gdt tss w n s₀ k c'
      { s with mem := writeEntry s.mem (descriptor gdt k) tss k } :=
    fun c' hregs => ⟨hregs ▸ hsp.trans h.sp, h.ports, h.written.write hn, hframe⟩
  have hlast : c₁.zero = decide (k = 0) := by
    rw [hzero, Bool.eq_iff_iff, beq_iff_eq, decide_eq_true_iff]
    bv_omega
  refine ⟨_, _, hrun.trans (.first hpc rfl .refl), hfilled _ rfl, ?_⟩
  simp only [Cond.holds, hlast]
  split
  · rename_i hk
    simp [hk]
  · rename_i hk
    refine ⟨hfilled _ rfl, ?_, hcx, hdx, hax⟩
    simp only [hk, decide_false, Bool.not_false, if_true]

variable (env v) in
theorem enter_all (h : Entering gdt tss w (n + 1) s₀ (n + 1) c s) (hn : n < 16777216) : ∃ c' s',
    Runs env (threadStart v) (c, s) (c', s') ∧ c'.pc = .at 21 ∧
      Filled gdt tss w (n + 1) s₀ 0 c' s' := by
  obtain ⟨y, hrun, hend⟩ := Runs.rounds (n := n + 1) (k := 0) (x := (c, s))
    (I := fun i x => Entering gdt tss w (n + 1) s₀ (n - i + 1) x.1 x.2)
    (Q := fun y => y.1.pc = .at 21 ∧ Filled gdt tss w (n + 1) s₀ 0 y.1 y.2)
    (fun i x hi hx => by
      obtain ⟨c', s', hrun, hfilled, hend⟩ := enter_step env v hx (by omega) hn
      refine ⟨(c', s'), hrun, ?_⟩
      split at hend
      · rename_i hlast
        rw [hlast] at hfilled
        exact Or.inl ⟨hend, hfilled⟩
      · refine Or.inr ⟨by omega, ?_⟩
        rwa [show n - (i + 1) + 1 = n - i by omega])
    (Nat.succ_pos n) h
  exact ⟨y.1, y.2, hrun, hend⟩

/-- What is written is apart from each other: the variables, the descriptors, the word at the stack
pointer, and the two registers of the interrupt controller. -/
def Apart (v : Vars) (table w : BitVec 32) (n : ℕ) : Prop :=
  [(v.tssArray, 4), (v.cpuCount, 4), (v.gdt, 4), (v.gdtDesc, 6), (w, 4), (table + 40, 8 * n),
    (0xfee00300, 4), (0xfee00310, 4)].Pairwise fun p q => Disjoint (span p.1 p.2) (span q.1 q.2)

variable (env s) in
/-- The loop is entered with the addresses behind the last segment and the last descriptor. -/
theorem prepare_run (hapart : Apart v gdt w n) (hpc : c.pc = .at 0)
    (hn : load s.mem v.cpuCount = BitVec.ofNat 32 n) (hgdt : load s.mem v.gdt = gdt) :
    ∃ c', Runs env (threadStart v) (c, s)
        (c', { s with mem := store s.mem v.tssArray (c.regs .eax) }) ∧
      Entering gdt (c.regs .eax) (c.regs .esp) n
        { s with mem := store s.mem v.tssArray (c.regs .eax) } n c'
        { s with mem := store s.mem v.tssArray (c.regs .eax) } := by
  have hstretch := runs_straight env (threadStart v) (c, s) (prepare v)
    (by simp [prepare, Instr.straight]) hpc ⟨_, rfl⟩
  simp only [Apart, List.pairwise_cons, List.forall_mem_cons] at hapart
  obtain ⟨⟨hcountApart, htableApart, -⟩, -⟩ := hapart
  have hcount : load (store s.mem v.tssArray (c.regs .eax)) v.cpuCount = BitVec.ofNat 32 n :=
    (load_store_apart hcountApart).trans hn
  have htable : load (store s.mem v.tssArray (c.regs .eax)) v.gdt = gdt :=
    (load_store_apart htableApart).trans hgdt
  have hoffset : BitVec.ofNat 32 n <<< 7 = BitVec.ofNat 32 (128 * n) := by
    apply BitVec.eq_of_toNat_eq
    rw [BitVec.toNat_shiftLeft, BitVec.toNat_ofNat, BitVec.toNat_ofNat, Nat.shiftLeft_eq]
    omega
  have hentry : BitVec.ofNat 32 n <<< 3 + gdt + 40#32 = descriptor gdt n := by
    apply BitVec.eq_of_toNat_eq
    simp only [descriptor, BitVec.toNat_add, BitVec.toNat_shiftLeft, BitVec.toNat_ofNat,
      Nat.shiftLeft_eq]
    omega
  obtain ⟨c', hexec, hcx, hdx, hax, hsp⟩ : ∃ c', execAll env (prepare v) 0 (c, s) =
      (c', { s with mem := store s.mem v.tssArray (c.regs .eax) }) ∧
      c'.regs .ecx = BitVec.ofNat 32 (128 * n) ∧ c'.regs .edx = descriptor gdt n ∧
      c'.regs .eax = c.regs .eax ∧ c'.regs .esp = c.regs .esp := by
    refine ⟨_, Prod.ext rfl ?_, ?_, ?_, ?_, ?_⟩
    all_goals simp [prepare, execAll, exec, put, value, Cpu.addr, Op.eval, hcount, htable, hoffset,
      hentry]
  rw [hexec] at hstretch
  have hnone : Entered gdt (c.regs .eax) n n (store s.mem v.tssArray (c.regs .eax)) :=
    fun i hk hi => absurd hk (by omega)
  exact ⟨c', hstretch.1, ⟨hsp, rfl, hnone, fun _ _ => rfl⟩, hstretch.2, hcx, hdx, hax⟩

def limit (n : ℕ) : BitVec 16 := BitVec.ofNat 16 (8 * (n + 5) - 1)

def limited (v : Vars) (n : ℕ) (m : Memory) : Memory :=
  store m v.gdtDesc (merge (load m v.gdtDesc) (limit n))

def described (v : Vars) (gdt : BitVec 32) (n : ℕ) (m : Memory) : Memory :=
  store (limited v n m) (v.gdtDesc + 2) gdt

def taken (gdt : BitVec 32) (m : Memory) : Memory :=
  Function.update m (gdt + 45) (m (gdt + 45) ||| 2)

/-- The interrupt is sent, and the argument of the call is put on the stack. -/
def signalled (m : Memory) : Memory := store (store m 0xfee00310 0xff000000) 0xfee00300 0x000c4032

def called (w : BitVec 32) (n : ℕ) (m : Memory) : Memory := store (signalled m) w (BitVec.ofNat 32 n)

theorem limited_frame {b : BitVec 32} (hb : b ∉ span v.gdtDesc 6) : limited v n m b = m b := by
  have hlow : span v.gdtDesc 4 ⊆ span v.gdtDesc 6 := span_subset (by simp)
  rw [limited, store_frame fun h => hb (hlow h)]

theorem described_frame {b : BitVec 32} (hb : b ∉ span v.gdtDesc 6) :
    described v gdt n m b = m b := by
  have hbase : span (v.gdtDesc + 2) 4 ⊆ span v.gdtDesc 6 := span_subset (by simp)
  rw [described, store_frame fun h => hb (hbase h), limited_frame hb]

theorem described_load {a : BitVec 32} (ha : Disjoint (span a 4) (span v.gdtDesc 6)) :
    load (described v gdt n m) a = load m a :=
  load_congr fun _ hb => described_frame (Set.disjoint_left.mp ha hb)

theorem limited_load {a : BitVec 32} (ha : Disjoint (span a 4) (span v.gdtDesc 6)) :
    load (limited v n m) a = load m a :=
  load_congr fun _ hb => limited_frame (Set.disjoint_left.mp ha hb)

theorem limit_word :
    (BitVec.ofNat 32 n <<< 3 + 40#32 + 4294967295#32).setWidth 16 = limit n := by
  have hsum : (BitVec.ofNat 32 n <<< 3 + 40#32).setWidth 16 = BitVec.ofNat 16 (8 * (n + 5)) := by
    apply BitVec.eq_of_toNat_eq
    simp only [BitVec.toNat_setWidth, BitVec.toNat_add, BitVec.toNat_shiftLeft, BitVec.toNat_ofNat,
      Nat.shiftLeft_eq]
    omega
  have hone : (4294967295#32).setWidth 16 = 65535#16 := by decide
  rw [BitVec.setWidth_add _ _ (by decide), hsum, hone, limit]
  apply BitVec.eq_of_toNat_eq
  simp only [BitVec.toNat_add, BitVec.toNat_ofNat]
  omega

variable (v gdt n m) in
theorem described_desc : (load (described v gdt n m) v.gdtDesc).setWidth 16 = limit n ∧
    load (described v gdt n m) (v.gdtDesc + 2) = gdt := by
  have hlimit : ∀ b ∈ span v.gdtDesc 2, described v gdt n m b = limited v n m b := by
    intro b hb
    have hout : b ∉ span (v.gdtDesc + 2) 4 := by
      rw [mem_span] at hb ⊢
      bv_omega
    rw [described, store_frame hout]
  constructor
  · rw [load_half_congr hlimit, limited, load_store, setWidth_merge (by decide)]
  · rw [described, load_store]

variable (env v s) in
theorem describe_run (hapart : Apart v gdt w n) (hpc : c.pc = .at 21)
    (hn : load s.mem v.cpuCount = BitVec.ofNat 32 n) (hgdt : load s.mem v.gdt = gdt) : ∃ c',
    Runs env (threadStart v) (c, s) (c', { s with mem := described v gdt n s.mem }) ∧
      c'.pc = .at 30 ∧ c'.regs .esp = c.regs .esp ∧ c'.table = ⟨gdt, limit n⟩ ∧
      (c'.regs .eax).setWidth 16 = 0x28#16 := by
  have hstretch := runs_straight env (threadStart v) (c, s) (describe v)
    (by simp [describe, Instr.straight]) hpc ⟨_, rfl⟩
  simp only [Apart, List.pairwise_cons, List.forall_mem_cons] at hapart
  obtain ⟨-, -, ⟨hgdtDesc, -⟩, -⟩ := hapart
  have htable : load (limited v n s.mem) v.gdt = gdt := (limited_load hgdtDesc).trans hgdt
  obtain ⟨hlimit, hbase⟩ := described_desc v gdt n s.mem
  obtain ⟨c', hexec, hsp, hloaded, hax⟩ : ∃ c', execAll env (describe v) 21 (c, s) =
      (c', { s with mem := described v gdt n s.mem }) ∧ c'.regs .esp = c.regs .esp ∧
      c'.table = ⟨gdt, limit n⟩ ∧ (c'.regs .eax).setWidth 16 = 0x28#16 := by
    simp only [described, limited, BitVec.ofNat_eq_ofNat] at htable hlimit hbase
    refine ⟨_, Prod.ext rfl ?_, ?_, ?_, ?_⟩
    all_goals simp [describe, execAll, exec, put, value, Cpu.addr, Op.eval, described, limited, hn,
      limit_word, htable, hlimit, hbase]
  rw [hexec] at hstretch
  exact ⟨c', hstretch.1, hstretch.2, hsp, hloaded, hax⟩

theorem holds_first : (⟨gdt, limit n⟩ : Table).Holds 0x28#16 ↔ 47 ≤ (limit n).toNat := by
  simp [Table.Holds]

theorem access_first : (⟨gdt, limit n⟩ : Table).access 0x28#16 = gdt + 45 := by
  have hoffset : ((0x28#16 >>> 3 <<< 3).setWidth 32) = 40#32 := by decide
  rw [Table.access, hoffset, add_assoc]
  rfl

variable (env v s) in
/-- The task register is loaded, or the processor raises an exception. -/
theorem take_step (hpc : c.pc = .at 30) (htable : c.table = ⟨gdt, limit n⟩)
    (hax : (c.regs .eax).setWidth 16 = 0x28#16) (hfree : available (s.mem (gdt + 45)) = true) :
    Runs env (threadStart v) (c, s)
      (if 47 ≤ (limit n).toNat then
        ({ c with pc := .at 31, task := 0x28 }, { s with mem := taken gdt s.mem })
      else ({ c with pc := .fault 30 }, s)) := by
  refine .first hpc rfl ?_
  simp only [exec, htable, hax, access_first, hfree, and_true, holds_first]
  exact .refl

def Untouched (w b : BitVec 32) : Prop :=
  b ∉ span 0xfee00310 4 ∧ b ∉ span 0xfee00300 4 ∧ b ∉ span w 4

theorem called_frame {b : BitVec 32} (hb : Untouched w b) : called w n m b = m b := by
  obtain ⟨hhigh, hlow, hstack⟩ := hb
  rw [called, store_frame hstack, signalled, store_frame hlow, store_frame hhigh]

variable (env v s) in
theorem signal_run (hapart : Apart v gdt w n) (hpc : c.pc = .at 31) (hsp : c.regs .esp = w)
    (hn : load s.mem v.cpuCount = BitVec.ofNat 32 n) : ∃ c',
    Runs env (threadStart v) (c, s) (c', { s with mem := called w n s.mem }) ∧
      c'.pc = .at 35 ∧ c'.regs .esp = w ∧ c'.task = c.task ∧ c'.table = c.table := by
  have hstretch := runs_straight env (threadStart v) (c, s) (signal v)
    (by simp [signal, Instr.straight]) hpc ⟨_, rfl⟩
  simp only [Apart, List.pairwise_cons, List.forall_mem_cons] at hapart
  obtain ⟨-, ⟨-, -, -, -, hlow, hhigh, -⟩, -⟩ := hapart
  have hcount : load (signalled s.mem) v.cpuCount = BitVec.ofNat 32 n := by
    rw [signalled, load_store_apart hlow.symm, load_store_apart hhigh.symm, hn]
  obtain ⟨c', hexec, hsp', htask, htable⟩ : ∃ c', execAll env (signal v) 31 (c, s) =
      (c', { s with mem := called w n s.mem }) ∧ c'.regs .esp = w ∧ c'.task = c.task ∧
      c'.table = c.table := by
    simp only [signalled, BitVec.ofNat_eq_ofNat] at hcount
    refine ⟨_, Prod.ext rfl ?_, ?_, ?_, ?_⟩
    all_goals simp [signal, execAll, exec, put, value, Cpu.addr, Op.eval, called, signalled, hsp,
      hcount]
  rw [hexec] at hstretch
  exact ⟨c', hstretch.1, hstretch.2, hsp', htask, htable⟩

variable (env s) in
/-- The code up to `ltr`. -/
theorem thread_start_loads (hapart : Apart v gdt (c.regs .esp) (n + 1)) (hpc : c.pc = .at 0)
    (hcount : load s.mem v.cpuCount = BitVec.ofNat 32 (n + 1)) (hgdt : load s.mem v.gdt = gdt)
    (hn : n < 16777216) : ∃ c' s', Runs env (threadStart v) (c, s) (c', s') ∧ c'.pc = .at 30 ∧
      c'.regs .esp = c.regs .esp ∧ c'.table = ⟨gdt, limit (n + 1)⟩ ∧
      (c'.regs .eax).setWidth 16 = 0x28#16 ∧ load s'.mem v.cpuCount = BitVec.ofNat 32 (n + 1) ∧
      Entered gdt (c.regs .eax) 0 (n + 1) s'.mem ∧
      (load s'.mem v.gdtDesc).setWidth 16 = limit (n + 1) ∧ load s'.mem (v.gdtDesc + 2) = gdt := by
  have happart := hapart
  simp only [Apart, List.pairwise_cons, List.forall_mem_cons] at happart
  obtain ⟨⟨hcountApart, hgdtApart, -⟩, ⟨-, hcountDesc, -, hcountTable, -⟩, ⟨-, -, hgdtTable, -⟩,
    ⟨-, hdescTable, -⟩, -⟩ := happart
  obtain ⟨c₁, hprepare, hloop⟩ := prepare_run env s hapart hpc hcount hgdt
  obtain ⟨c₂, s₂, hentered, hpc₂, hfilled⟩ := enter_all env v hloop hn
  have hkept : ∀ a, Disjoint (span a 4) (span (gdt + 40) (8 * (n + 1))) →
      Disjoint (span v.tssArray 4) (span a 4) → load s₂.mem a = load s.mem a := by
    intro a htable htss
    rw [load_congr fun b hb => hfilled.frame b (Set.disjoint_left.mp htable hb),
      load_store_apart htss]
  have hcount₂ := (hkept _ hcountTable hcountApart).trans hcount
  obtain ⟨c₃, hdescribe, hpc₃, hsp₃, htable₃, hax₃⟩ := describe_run env v s₂ hapart hpc₂ hcount₂
    ((hkept _ hgdtTable hgdtApart).trans hgdt)
  obtain ⟨hlimit, hbase⟩ := described_desc v gdt (n + 1) s₂.mem
  have hwritten : Entered gdt (c.regs .eax) 0 (n + 1) (described v gdt (n + 1) s₂.mem) := by
    intro i hk hi
    obtain ⟨hlow, hhigh⟩ := descriptor_inside gdt hi hn
    rw [described_load (hdescTable.symm.mono_left hlow),
      described_load (hdescTable.symm.mono_left hhigh)]
    exact hfilled.written i hk hi
  exact ⟨c₃, _, (hprepare.trans hentered).trans hdescribe, hpc₃, hsp₃.trans hfilled.sp, htable₃,
    hax₃, (described_load hcountDesc).trans hcount₂, hwritten, hlimit, hbase⟩

theorem Entered.first_available (h : Entered gdt tss 0 (n + 1) m) :
    available (m (gdt + 45)) = true := by
  obtain ⟨-, hhigh⟩ := h 0 le_rfl (Nat.succ_pos n)
  have hbyte := second_byte_of_high hhigh
  have haddr : descriptor gdt 0 + 4 + 1 = gdt + 45 := by
    simp only [descriptor]
    bv_omega
  rw [← haddr, hbyte]
  rfl

theorem Entered.take (h : Entered gdt tss 0 (n + 1) m) (hn : n < 16777216) {i : ℕ} (hi : i ≤ n) :
    load (taken gdt m) (descriptor gdt i) = lowWord tss i ∧
      load (taken gdt m) (descriptor gdt i + 4) = highWord tss (i == 0) := by
  obtain ⟨hlow, hhigh⟩ := h i (Nat.zero_le i) (Nat.lt_succ_of_le hi)
  have hother : ∀ a, gdt + 45 ∉ span a 4 → load (taken gdt m) a = load m a := by
    intro a ha
    refine load_congr fun b hb => Function.update_of_ne ?_ _ _
    rintro rfl
    exact ha hb
  refine ⟨(hother _ ?_).trans hlow, ?_⟩
  · simp only [mem_span, descriptor]
    bv_omega
  cases i with
  | zero =>
    have haddr : gdt + 45 = descriptor gdt 0 + 4 + 1 := by
      simp only [descriptor]
      bv_omega
    rw [taken, haddr, load_update_second, hhigh, highWord_busy]
    rfl
  | succ i =>
    refine (hother _ ?_).trans hhigh
    simp only [mem_span, descriptor]
    bv_omega

variable (env s) in
/-- The code up to the call of `thread_sched_static_init`. -/
theorem thread_start_run (hapart : Apart v gdt (c.regs .esp) (n + 1)) (hpc : c.pc = .at 0)
    (hcount : load s.mem v.cpuCount = BitVec.ofNat 32 (n + 1)) (hgdt : load s.mem v.gdt = gdt)
    (hn : n < 16777216) (hlimit : 47 ≤ (limit (n + 1)).toNat) : ∃ c' s',
    Runs env (threadStart v) (c, s) (c', s') ∧ c'.pc = .at 35 ∧
      c'.regs .esp = c.regs .esp ∧ c'.task = 0x28 ∧ c'.table = ⟨gdt, limit (n + 1)⟩ ∧
      (load s'.mem v.gdtDesc).setWidth 16 = limit (n + 1) ∧ load s'.mem (v.gdtDesc + 2) = gdt ∧
      (∀ i ≤ n, load s'.mem (descriptor gdt i) = lowWord (c.regs .eax) i ∧
        load s'.mem (descriptor gdt i + 4) = highWord (c.regs .eax) (i == 0)) ∧
      load s'.mem (c.regs .esp) = BitVec.ofNat 32 (n + 1) := by
  obtain ⟨c₁, s₁, hloads, hpc₁, hsp₁, htable₁, hax₁, hcount₁, hwritten, hdesc, hbase⟩ :=
    thread_start_loads env s hapart hpc hcount hgdt hn
  have htake := take_step env v s₁ hpc₁ htable₁ hax₁ hwritten.first_available
  rw [if_pos hlimit] at htake
  have happart := hapart
  simp only [Apart, List.pairwise_cons, List.forall_mem_cons] at happart
  obtain ⟨-, ⟨-, -, -, hcountTable, -⟩, -, ⟨hdescStack, hdescTable, hdescLow, hdescHigh, -⟩,
    ⟨hstackTable, -⟩, ⟨htableLow, htableHigh, -⟩, -⟩ := happart
  have hbusy : gdt + 45 ∈ span (gdt + 40) (8 * (n + 1)) := by
    simp only [mem_span]
    bv_omega
  have hother : ∀ b ∉ span (gdt + 40) (8 * (n + 1)), taken gdt s₁.mem b = s₁.mem b := by
    intro b hb
    refine Function.update_of_ne ?_ _ _
    rintro rfl
    exact hb hbusy
  have hcount₂ : load (taken gdt s₁.mem) v.cpuCount = BitVec.ofNat 32 (n + 1) :=
    (load_congr fun b hb => hother b (Set.disjoint_left.mp hcountTable hb)).trans hcount₁
  obtain ⟨c₂, hsignal, hpc₂, hsp₂, htask₂, htable₂⟩ := signal_run env v
    { s₁ with mem := taken gdt s₁.mem } (c := { c₁ with pc := .at 31, task := 0x28 }) hapart rfl
    hsp₁ hcount₂
  have hcalled : ∀ b ∈ span (gdt + 40) (8 * (n + 1)),
      called (c.regs .esp) (n + 1) (taken gdt s₁.mem) b = taken gdt s₁.mem b := fun b hb =>
    called_frame ⟨Set.disjoint_left.mp htableHigh hb, Set.disjoint_left.mp htableLow hb,
      Set.disjoint_right.mp hstackTable hb⟩
  have hdescKept : ∀ b ∈ span v.gdtDesc 6,
      called (c.regs .esp) (n + 1) (taken gdt s₁.mem) b = s₁.mem b := fun b hb =>
    (called_frame ⟨Set.disjoint_left.mp hdescHigh hb, Set.disjoint_left.mp hdescLow hb,
      Set.disjoint_left.mp hdescStack hb⟩).trans (hother b (Set.disjoint_left.mp hdescTable hb))
  have hhalf : span v.gdtDesc 2 ⊆ span v.gdtDesc 6 := span_subset (by simp)
  have hrest : span (v.gdtDesc + 2) 4 ⊆ span v.gdtDesc 6 := span_subset (by simp)
  refine ⟨c₂, _, (hloads.trans htake).trans hsignal, hpc₂, hsp₂, htask₂, htable₂.trans htable₁,
    (load_half_congr fun b hb => hdescKept b (hhalf hb)).trans hdesc,
    (load_congr fun b hb => hdescKept b (hrest hb)).trans hbase, fun i hi => ?_, load_store _ _ _⟩
  obtain ⟨hlow, hhigh⟩ := descriptor_inside gdt (Nat.lt_succ_of_le hi) hn
  rw [load_congr fun b hb => hcalled b (hlow hb), load_congr fun b hb => hcalled b (hhigh hb)]
  exact hwritten.take hn hi

variable (env s) in
/-- Every processor gets the descriptor of its task segment, inside the table that is loaded. The
processor finds the segment there as long as the segments do not cross a boundary of 64 kilobytes: the
upper half of the base is that of the first segment in all of the descriptors. -/
theorem segments_entered (hapart : Apart v gdt (c.regs .esp) (n + 1)) (hpc : c.pc = .at 0)
    (hcount : load s.mem v.cpuCount = BitVec.ofNat 32 (n + 1)) (hgdt : load s.mem v.gdt = gdt)
    (hn : n < 8187) : ∃ c' s', Runs env (threadStart v) (c, s) (c', s') ∧ c'.pc = .at 35 ∧
      c'.task = 0x28 ∧ c'.table = ⟨gdt, limit (n + 1)⟩ ∧ (limit (n + 1)).toNat = 8 * (n + 6) - 1 ∧
      (load s'.mem v.gdtDesc).setWidth 16 = limit (n + 1) ∧ load s'.mem (v.gdtDesc + 2) = gdt ∧
      ∀ i ≤ n, load s'.mem (descriptor gdt i) = lowWord (c.regs .eax) i ∧
        load s'.mem (descriptor gdt i + 4) = highWord (c.regs .eax) (i == 0) ∧
        (base (load s'.mem (descriptor gdt i)) (load s'.mem (descriptor gdt i + 4)) =
          c.regs .eax + BitVec.ofNat 32 (128 * i) ↔
            (c.regs .eax).toNat % 65536 + 128 * i < 65536) := by
  have hlast : (limit (n + 1)).toNat = 8 * (n + 6) - 1 := by
    rw [limit, BitVec.toNat_ofNat]
    omega
  obtain ⟨c', s', hrun, hend, -, htask, htable, hlimit, hbase, hwritten, -⟩ :=
    thread_start_run env s hapart hpc hcount hgdt (by omega) (by omega)
  refine ⟨c', s', hrun, hend, htask, htable, hlast, hlimit, hbase, fun i hi => ?_⟩
  obtain ⟨hlow, hhigh⟩ := hwritten i hi
  refine ⟨hlow, hhigh, ?_⟩
  rw [hlow, hhigh]
  exact base_iff (by omega)

variable (env s) in
/-- `thread_start` does not go back to its caller: the frame is still on the stack, and when
`thread_sched_static_init` leaves the stack and its argument alone, the return goes to the address that
is the number of processors. With a limit that has wrapped around to less than 47, `ltr` raises an
exception before. -/
theorem returns_to_count (hapart : Apart v gdt (c.regs .esp) (n + 1)) (hpc : c.pc = .at 0)
    (hcount : load s.mem v.cpuCount = BitVec.ofNat 32 (n + 1)) (hgdt : load s.mem v.gdt = gdt)
    (hn : n < 16777216) : ∃ c₁ s₁, Runs env (threadStart v) (c, s) (c₁, s₁) ∧
      if (limit (n + 1)).toNat < 47 then c₁.pc = .fault 30
      else c₁.pc = .at 35 ∧ ∀ c₂ s₂, c₂.pc = .at 36 → c₂.regs .esp = c₁.regs .esp →
        load s₂.mem (c₁.regs .esp) = load s₁.mem (c₁.regs .esp) →
        ∃ c', Runs env (threadStart v) (c₂, s₂) (c', s₂) ∧
          c'.pc = .out (BitVec.ofNat 32 (n + 1)) := by
  split
  · rename_i hlimit
    obtain ⟨c₁, s₁, hloads, hpc₁, -, htable₁, hax₁, -, hwritten, -⟩ :=
      thread_start_loads env s hapart hpc hcount hgdt hn
    have htake := take_step env v s₁ hpc₁ htable₁ hax₁ hwritten.first_available
    rw [if_neg (by omega)] at htake
    exact ⟨_, _, hloads.trans htake, rfl⟩
  · rename_i hlimit
    obtain ⟨c₁, s₁, hrun, hend, hsp, -, -, -, -, -, harg⟩ :=
      thread_start_run env s hapart hpc hcount hgdt hn (by omega)
    refine ⟨c₁, s₁, hrun, hend, fun c₂ s₂ hpc₂ hsp₂ hkept => ?_⟩
    refine ⟨_, .first hpc₂ rfl .refl, ?_⟩
    rw [hsp] at hsp₂ hkept
    simp only [hsp₂, hkept, harg]

end Loop

def someVars : Vars := ⟨0x108000, 0x108004, 0x108008, 0x10800c⟩

theorem someVars_apart : Apart someVars 0x300000 0x20ffd0 33 := by
  have hsorted : ([(0x108000, 4), (0x108004, 4), (0x108008, 4), (0x10800c, 6), (0x20ffd0, 4),
      (0x300028, 264), (0xfee00300, 4), (0xfee00310, 4)] : List (BitVec 32 × ℕ)).Pairwise fun p q =>
      p.1.toNat + p.2 ≤ q.1.toNat ∧ q.1.toNat + q.2 ≤ 4294967296 + p.1.toNat := by decide
  refine hsorted.imp fun {p q} h => ?_
  have hapart := span_apart (a := 0) h.1 h.2
  rwa [zero_add, zero_add] at hapart

def manySegments : State :=
  (⟨fun r => if r = .esp then 0x20ffd0 else 0x20f000, false, false, ⟨0, 0⟩, 0, .at 0⟩,
    ⟨store (store (fun _ => 0) 0x108008 0x300000) 0x108004 33, []⟩)

theorem manySegments_count : load manySegments.2.mem someVars.cpuCount = BitVec.ofNat 32 (32 + 1) :=
  load_store _ _ _

theorem manySegments_gdt : load manySegments.2.mem someVars.gdt = 0x300000 := by
  have hapart : Disjoint (span (0x108004 : BitVec 32) 4) (span 0x108008 4) :=
    span_apart (a := 0x108000) (x := 4) (y := 8) (n := 4) (k := 4) (by decide) (by decide)
  exact (load_store_apart hapart).trans (load_store _ _ _)

/-- The last processor is sent to a segment 64 kilobytes below its own. -/
theorem segments_entered_crossing : ∃ c' s',
    Runs ⟨fun _ _ => 0, id⟩ (threadStart someVars) manySegments (c', s') ∧ c'.pc = .at 35 ∧
      base (load s'.mem (descriptor 0x300000 32)) (load s'.mem (descriptor 0x300000 32 + 4)) ≠
        0x20f000 + BitVec.ofNat 32 (128 * 32) := by
  obtain ⟨c', s', hrun, hpc, -, -, -, -, -, hentered⟩ := segments_entered ⟨fun _ _ => 0, id⟩
    manySegments.2 (c := manySegments.1) someVars_apart rfl manySegments_count manySegments_gdt
    (by decide)
  obtain ⟨-, -, hbase⟩ := hentered 32 (by decide)
  refine ⟨c', s', hrun, hpc, fun h => ?_⟩
  exact absurd (hbase.mp h) (by decide)

theorem returns_to_count_many : ∃ c' s',
    Runs ⟨fun _ _ => 0, id⟩ (threadStart someVars) manySegments (c', s') ∧
      c'.pc = .out 33 := by
  obtain ⟨c₁, s₁, hrun, hend⟩ := returns_to_count ⟨fun _ _ => 0, id⟩
    manySegments.2 (c := manySegments.1) someVars_apart rfl manySegments_count manySegments_gdt
    (by decide)
  rw [if_neg (by decide)] at hend
  obtain ⟨hpc, hback⟩ := hend
  obtain ⟨c', hreturn, hout⟩ := hback { c₁ with pc := .at 36 } s₁ rfl rfl rfl
  exact ⟨c', s₁, hrun.trans (.first hpc rfl hreturn), hout⟩

end TaskSegments
