import Metakernel.JumpCode
import Metakernel.KernelHeapInvariant

/-!
# The rounding routines, instruction by instruction

`addr_size`, `round_down`, `round_up` and `addr_power` (which is also `ilog`) of ia_32_round.s. The
heap of malloc.c is modelled with functions of the same names.
-/
namespace RoundCode

open WordCode (Memory load store span load_store load_store_apart span_apart store_frame)
open JumpCode

/-- Three of the routines look a power of two up in `size_tab`; `index` computes which one in `ebx`
from the argument in `edx`. -/
def enter : List Instr :=
  [.push .ebx,
   .push .edx,
   .op 32 .mov (.reg .edx) (.mem (some .esp) 12)]

def leave (sizeTab : BitVec 32) : List Instr :=
  [.op 32 .shl (.reg .ebx) (.imm 2),
   .op 32 .mov (.reg .eax) (.mem (some .ebx) sizeTab),
   .pop .edx,
   .pop .ebx]

def lookUp (sizeTab : BitVec 32) (index : List Instr) : List Instr :=
  enter ++ index ++ leave sizeTab ++ [.ret]

def addrSize (sizeTab : BitVec 32) : List Instr := lookUp sizeTab [.scan false .ebx .edx]

def roundDown (sizeTab : BitVec 32) : List Instr := lookUp sizeTab [.scan true .ebx .edx]

def roundUp (sizeTab : BitVec 32) : List Instr :=
  lookUp sizeTab
    [.op 32 .sub (.reg .edx) (.imm 1),
     .scan true .ebx .edx,
     .op 32 .add (.reg .ebx) (.imm 1)]

/-- Also the code of `ilog`. -/
def addrPower : List Instr :=
  [.push .edx,
   .op 32 .mov (.reg .edx) (.mem (some .esp) 8),
   .scan true .eax .edx,
   .pop .edx,
   .ret]

/-- `size_tab` as the read-only data hold it. -/
def HoldsTable (m : Memory) (sizeTab : BitVec 32) : Prop :=
  ∀ i v, KernelHeap.sizeTab[i]? = some v →
    load m (sizeTab + BitVec.ofNat 32 (4 * i)) = BitVec.ofNat 32 v

def argument (c : Cpu) (s : Shared) : BitVec 32 := load s.mem (c.regs .esp + 4)

section Calls

variable {env : Env} {sizeTab : BitVec 32} {index : List Instr} {c : Cpu} {s : Shared} {i : ℕ}
  {w : BitVec 32}

theorem scanned_bsr (v : BitVec 32) : scanned true v = KernelHeap.bsr v.toNat := rfl

/-- The part in the middle leaves the place of the power in `ebx`. -/
def Finds (env : Env) (index : List Instr) (a : BitVec 32) (i : ℕ) : Prop :=
  ∀ c s, c.regs .edx = a → ∃ c', execAll env index 3 (c, s) = (c', s) ∧
    c'.regs .ebx = BitVec.ofNat 32 i ∧ ∀ r, r ≠ .ebx → r ≠ .edx → c'.regs r = c.regs r

variable (env) in
theorem enter_exec (hw : c.regs .esp = w + 8) :
    ∃ c', execAll env enter 0 (c, s) =
        (c', { s with mem := saveTwo s.mem w (c.regs .edx) (c.regs .ebx) }) ∧
      c'.regs .esp = w ∧ c'.regs .edx = argument c s ∧
      ∀ r, r ≠ .esp → r ≠ .edx → c'.regs r = c.regs r := by
  have hfirst : w + 8#32 - 4#32 = w + 4#32 := by bv_omega
  have hsecond : w + 4#32 - 4#32 = w := by bv_omega
  have harg : load (saveTwo s.mem w (c.regs .edx) (c.regs .ebx)) (w + 12#32) = argument c s := by
    rw [saveTwo_above (by decide) (by decide), argument, hw]
    congr 1
    bv_omega
  refine ⟨{ c with
    regs := Function.update (Function.update c.regs .esp w) .edx (argument c s)
    pc := .at 3 }, ?_, ?_, ?_, ?_⟩
  · have hstores : store (store s.mem (w + 4#32) (c.regs .ebx)) w (c.regs .edx) =
        saveTwo s.mem w (c.regs .edx) (c.regs .ebx) := rfl
    simp [enter, execAll, exec, put, value, Cpu.addr, Op.eval, Op.carry, Op.zero, Op.keepsFlags, hw, hfirst,
      hsecond, hstores, harg]
  · simp
  · simp
  · intro r hsp hdx
    simp [hsp, hdx]

variable (env) in
/-- The power is read from the table, and the registers are restored. -/
theorem leave_exec {v ebx edx : BitVec 32} {j : ℕ} (hw : c.regs .esp = w)
    (hpower : load (saveTwo s.mem w edx ebx) (c.regs .ebx <<< 2 + sizeTab) = v) :
    ∃ c', execAll env (leave sizeTab) j (c, { s with mem := saveTwo s.mem w edx ebx }) =
        (c', { s with mem := saveTwo s.mem w edx ebx }) ∧
      c'.regs .eax = v ∧ c'.regs .esp = w + 8 ∧ c'.regs .edx = edx ∧ c'.regs .ebx = ebx ∧
      ∀ r, r ≠ .eax → r ≠ .ebx → r ≠ .edx → r ≠ .esp → c'.regs r = c.regs r := by
  have hend : w + 4#32 + 4#32 = w + 8#32 := by bv_omega
  refine ⟨_, rfl, ?_⟩
  simp only [exec, put, value, Cpu.addr, Option.elim, Op.eval, merge_word, BitVec.setWidth_eq]
  simp [hw, hpower, saveTwo_low, saveTwo_high, hend]
  intro r ha hb hd hsp
  simp [ha, hb, hd, hsp]

theorem table_place {i : ℕ} : (BitVec.ofNat 32 i) <<< 2 = BitVec.ofNat 32 (4 * i) := by
  apply BitVec.eq_of_toNat_eq
  rw [BitVec.toNat_shiftLeft, BitVec.toNat_ofNat, BitVec.toNat_ofNat, Nat.shiftLeft_eq]
  omega

theorem lookUp_returns {v : ℕ} (hpc : c.pc = .at 0) (htab : HoldsTable s.mem sizeTab)
    (hapart : Disjoint (span (c.regs .esp - 8) 8) (span sizeTab 128))
    (hstraight : ∀ ins ∈ index, ins.straight = true) (hfinds : Finds env index (argument c s) i)
    (hv : KernelHeap.sizeTab[i]? = some v) :
    Returns env (lookUp sizeTab index) c s 8 (BitVec.ofNat 32 v) := by
  obtain ⟨w, hw⟩ : ∃ w, c.regs .esp = w + 8 := ⟨c.regs .esp - 8, by bv_omega⟩
  have hbase : c.regs .esp - 8 = w := by rw [hw]; bv_omega
  rw [hbase] at hapart
  obtain ⟨c₁, henter, hsp₁, hdx₁, hrest₁⟩ := enter_exec env (s := s) hw
  obtain ⟨c₂, hindex, hbx₂, hrest₂⟩ :=
    hfinds c₁ { s with mem := saveTwo s.mem w (c.regs .edx) (c.regs .ebx) } hdx₁
  have hi : i < 32 := (List.getElem?_eq_some_iff.mp hv).1
  have hword : span (sizeTab + BitVec.ofNat 32 (4 * i)) 4 ⊆ span sizeTab 128 := by
    apply WordCode.span_subset
    rw [add_sub_cancel_left, BitVec.toNat_ofNat]
    omega
  have hpower : load (saveTwo s.mem w (c.regs .edx) (c.regs .ebx)) (c₂.regs .ebx <<< 2 + sizeTab) =
      BitVec.ofNat 32 v := by
    rw [hbx₂, table_place, add_comm, saveTwo_apart (hapart.mono_right hword)]
    exact htab i v hv
  obtain ⟨c₃, hleave, hax₃, hsp₃, hdx₃, hbx₃, hrest₃⟩ := leave_exec env
    (j := 3 + index.length) ((hrest₂ .esp (by decide) (by decide)).trans hsp₁) hpower
  -- The code up to the return, in its three parts.
  have hblock : ∀ ins ∈ enter ++ index ++ leave sizeTab, ins.straight = true := by
    intro ins hins
    simp only [List.mem_append] at hins
    rcases hins with (hins | hins) | hins
    · revert ins
      decide
    · exact hstraight ins hins
    · simp only [leave, List.mem_cons, List.not_mem_nil, or_false] at hins
      rcases hins with rfl | rfl | rfl | rfl <;> rfl
  have hrun := runs_straight env (lookUp sizeTab index) (c, s) _ hblock hpc
    ⟨[.ret], rfl⟩
  have hexec : execAll env (enter ++ index ++ leave sizeTab) 0 (c, s) =
      (c₃, { s with mem := saveTwo s.mem w (c.regs .edx) (c.regs .ebx) }) := by
    rw [execAll_append, execAll_append, henter]
    simp only [List.length_append, Nat.zero_add]
    rw [show enter.length = 3 from rfl, hindex, hleave]
  rw [hexec] at hrun
  have hret : (lookUp sizeTab index)[0 + (enter ++ index ++ leave sizeTab).length]? = some .ret := by
    rw [lookUp, Nat.zero_add, List.getElem?_concat_length]
  have hback : load (saveTwo s.mem w (c.regs .edx) (c.regs .ebx)) (w + 8) = load s.mem (w + 8) :=
    saveTwo_above (by decide) (by decide)
  refine returns_of hrun.1 hrun.2 hret (by rw [hw]; exact hback) hax₃ (fun r hax => ?_) rfl ?_
  · by_cases hsp : r = .esp
    · rw [hsp, hsp₃, hw]
    by_cases hbx : r = .ebx
    · rw [hbx, hbx₃]
    by_cases hdx : r = .edx
    · rw [hdx, hdx₃]
    rw [hrest₃ r hax hbx hdx hsp, hrest₂ r hbx hdx, hrest₁ r hsp hdx]
  · intro b hb
    rw [show c.regs .esp - BitVec.ofNat 32 8 = w from hbase] at hb
    exact saveTwo_frame hb

theorem scan_finds {fromTop : Bool} {a : BitVec 32} (hi : scanned fromTop a = some i) :
    Finds env [.scan fromTop .ebx .edx] a i := by
  rintro c s rfl
  refine ⟨_, by rw [execAll, execAll, exec_scan hi], ?_, fun r hbx _ => ?_⟩
  · simp only [Function.update_self]
  · simp only [Function.update_of_ne hbx]

theorem next_finds {a : BitVec 32} (hi : scanned true (a - 1) = some i) :
    Finds env [.op 32 .sub (.reg .edx) (.imm 1), .scan true .ebx .edx,
      .op 32 .add (.reg .ebx) (.imm 1)] a (i + 1) := by
  rintro c s rfl
  have hsum : BitVec.ofNat 32 i + 1#32 = BitVec.ofNat 32 (i + 1) := by rw [BitVec.ofNat_add]
  refine ⟨_, by rw [execAll, execAll, exec_scan (by simpa [exec, put, value, Op.eval] using hi)]; rfl,
    ?_, fun r hbx hdx => ?_⟩
  · simpa [exec, put, value, Op.eval] using hsum
  · simp [exec, put, hbx, hdx]

theorem sub_one_toNat (a : BitVec 32) : (a - 1).toNat = ByteMemory.wsub a.toNat 1 := by
  rw [ByteMemory.wsub, BitVec.toNat_sub, show (1 : BitVec 32).toNat = 1 from rfl]
  omega

theorem addrPower_returns (hpc : c.pc = .at 0)
    (hi : KernelHeap.addrPower (argument c s).toNat = some i) :
    Returns env addrPower c s 4 (BitVec.ofNat 32 i) := by
  obtain ⟨w, hw⟩ : ∃ w, c.regs .esp = w + 4#32 := ⟨c.regs .esp - 4, by bv_omega⟩
  have hpush : w + 4#32 - 4#32 = w := by bv_omega
  have hapart : ∀ k : BitVec 32, 4 ≤ k.toNat → k.toNat ≤ 4294967292 →
      load (store s.mem w (c.regs .edx)) (w + k) = load s.mem (w + k) := by
    intro k hk hk'
    have hzero : (0 : BitVec 32).toNat = 0 := rfl
    have h := span_apart (a := w) (x := 0) (y := k) (n := 4) (k := 4) (by omega) (by omega)
    rw [add_zero] at h
    exact load_store_apart h
  have harg : load (store s.mem w (c.regs .edx)) (w + 8#32) = argument c s := by
    rw [hapart 8#32 (by decide) (by decide), argument, hw]
    congr 1
    bv_omega
  have hbits : scanned true (argument c s) = some i := hi
  -- The argument is in edx, and the old edx at the top of the stack.
  obtain ⟨c₁, henter, hsp₁, hdx₁, hrest₁⟩ : ∃ c₁, execAll env [.push .edx,
        .op 32 .mov (.reg .edx) (.mem (some .esp) 8)] 0 (c, s) =
      (c₁, { s with mem := store s.mem w (c.regs .edx) }) ∧ c₁.regs .esp = w ∧
      c₁.regs .edx = argument c s ∧ ∀ r, r ≠ .esp → r ≠ .edx → c₁.regs r = c.regs r := by
    refine ⟨{ c with
      regs := Function.update (Function.update c.regs .esp w) .edx (argument c s)
      pc := .at 2 }, ?_, by simp, by simp, fun r hsp hdx => by simp [hsp, hdx]⟩
    simp [execAll, exec, put, value, Cpu.addr, Op.eval, Op.carry, Op.zero, Op.keepsFlags, hw, hpush,
      harg]
  let enter : List Instr := [.push .edx, .op 32 .mov (.reg .edx) (.mem (some .esp) 8)]
  let finish : List Instr := [.scan true .eax .edx, .pop .edx]
  obtain ⟨c', hexec, hax, hrest⟩ : ∃ c', execAll env (enter ++ finish) 0 (c, s) =
      (c', { s with mem := store s.mem w (c.regs .edx) }) ∧ c'.regs .eax = BitVec.ofNat 32 i ∧
      ∀ r, r ≠ .eax → c'.regs r = c.regs r := by
    rw [execAll_append, henter, execAll, exec_scan (by rw [hdx₁]; exact hbits)]
    refine ⟨_, rfl, ?_, fun r hr => ?_⟩
    · simp
    · by_cases hdx : r = .edx
      · simp [hdx, hsp₁, load_store]
      by_cases hsp : r = .esp
      · simp [hsp, hsp₁, hw]
      · simp [hr, hdx, hsp, hrest₁ r hsp hdx]
  have hrun := runs_straight env addrPower (c, s) (enter ++ finish) (by decide) hpc ⟨[.ret], rfl⟩
  rw [hexec] at hrun
  refine returns_of hrun.1 hrun.2 rfl ?_ hax hrest rfl fun b hb => ?_
  · rw [hw]
    exact hapart 4#32 (by decide) (by decide)
  · apply store_frame
    have hbase : c.regs .esp - BitVec.ofNat 32 4 = w := by rw [hw]; bv_omega
    rwa [hbase] at hb

/-- What the heap computes with, the code returns: whenever the model of a routine has a value, the
routine comes back with it, whatever the registers and the memory. -/
theorem round_code_returns (hpc : c.pc = .at 0) (htab : HoldsTable s.mem sizeTab)
    (hapart : Disjoint (span (c.regs .esp - 8) 8) (span sizeTab 128)) (v : ℕ) :
    (KernelHeap.addrSize (argument c s).toNat = some v →
      Returns env (addrSize sizeTab) c s 8 (BitVec.ofNat 32 v)) ∧
    (KernelHeap.roundDown (argument c s).toNat = some v →
      Returns env (roundDown sizeTab) c s 8 (BitVec.ofNat 32 v)) ∧
    (KernelHeap.roundUp (argument c s).toNat = some v →
      Returns env (roundUp sizeTab) c s 8 (BitVec.ofNat 32 v)) ∧
    (KernelHeap.addrPower (argument c s).toNat = some v →
      Returns env addrPower c s 4 (BitVec.ofNat 32 v)) := by
  refine ⟨fun h => ?_, fun h => ?_, fun h => ?_, fun h => ?_⟩
  · obtain ⟨i, hi, hv⟩ := Option.bind_eq_some_iff.mp h
    exact lookUp_returns hpc htab hapart (by decide) (scan_finds hi) hv
  · obtain ⟨i, hi, hv⟩ := Option.bind_eq_some_iff.mp h
    exact lookUp_returns hpc htab hapart (by decide) (scan_finds hi) hv
  · obtain ⟨i, hi, hv⟩ := Option.bind_eq_some_iff.mp h
    have hi' : scanned true (argument c s - 1) = some i := by
      rw [scanned_bsr, sub_one_toNat]
      exact hi
    exact lookUp_returns hpc htab hapart (by decide) (next_finds hi') hv
  · exact addrPower_returns hpc h

end Calls

/-- The table lies at address 0, the argument on a stack at 0x1000. -/
def calledWith100 : Shared :=
  ⟨fun b =>
    if b.toNat < 128 then ((1 : BitVec 32) <<< (b.toNat / 4)).extractLsb' (8 * (b.toNat % 4)) 8
    else if b = 0x1004 then 100 else 0, []⟩

def caller : Cpu := ⟨fun _ => 0x1000, false, false, ⟨0, 0⟩, 0, .at 0⟩

theorem calledWith100_table : HoldsTable calledWith100.mem 0 := by
  intro i v hv
  have hi : i < 32 := (List.getElem?_eq_some_iff.mp hv).1
  interval_cases i
  all_goals
    obtain rfl := Option.some.inj hv
    decide

theorem round_code_returns_hundred :
    Returns ⟨fun _ _ => 0, fun v => v⟩ (roundDown 0) caller calledWith100 8 64 := by
  have hapart : Disjoint (span (caller.regs .esp - 8) 8) (span 0 128) := by
    rw [Set.disjoint_left]
    intro b hb hb'
    simp only [caller, WordCode.mem_span] at hb hb'
    bv_omega
  exact (round_code_returns rfl calledWith100_table hapart 64).2.1 (by decide)

end RoundCode
