import Metakernel.WordCode
import Mathlib.Logic.Function.Iterate
import Mathlib.Logic.Relation

/-!
# Code with jumps

Processors that share a memory and the ports of devices run code with jumps, one instruction of
one processor after the other. Operands have a width in bits; a narrow result leaves the other
bits of its register or word as they are.
-/
namespace JumpCode

open WordCode

inductive Reg where
  | eax | ebx | ecx | edx | esi | edi | ebp | esp
  deriving DecidableEq, Repr

inductive Operand where
  | reg (r : Reg)
  | high (r : Reg)
  | imm (v : BitVec 32)
  | mem (base : Option Reg) (disp : BitVec 32)
  deriving DecidableEq, Repr

inductive Op where
  | mov | add | sub | and | or | xor | shl | shr | inc | dec
  deriving DecidableEq, Repr

inductive Cond where
  | always | carry | zero | notZero
  deriving DecidableEq, Repr

/-- `cmp` is a `sub` that keeps only the flags. The bit of a test is bit 0. `scan` is `bsf` or, from
the other end, `bsr`. -/
inductive Instr where
  | op (width : ℕ) (f : Op) (dst src : Operand)
  | cmp (width : ℕ) (a b : Operand)
  | bitTest (a : Operand)
  | bitTestSet (a : Operand)
  | exchangeAdd (dst : Operand) (src : Reg)
  | scan (fromTop : Bool) (dst src : Reg)
  | push (r : Reg)
  | pop (r : Reg)
  | input (dst port : Reg)
  | output (port src : Reg)
  | loadTable (a : BitVec 32)
  | loadTask (r : Reg)
  | jump (c : Cond) (target : ℕ)
  | skip
  | ret
  deriving DecidableEq, Repr

/-- A processor is at a place of the code, or has left it for an address or at a place that raised
an exception. -/
inductive Pc where
  | at (i : ℕ)
  | out (a : BitVec 32)
  | fault (i : ℕ)
  deriving DecidableEq, Repr

structure Table where
  base : BitVec 32
  limit : BitVec 16
  deriving DecidableEq, Repr

structure Cpu where
  regs : Reg → BitVec 32
  carry : Bool
  zero : Bool
  table : Table
  task : BitVec 16
  pc : Pc

inductive PortEvent where
  | read (port : BitVec 16) (v : BitVec 8)
  | write (port : BitVec 16) (v : BitVec 8)
  deriving DecidableEq, Repr

structure Shared where
  mem : Memory
  ports : List PortEvent

/-- What a device answers to a read after the events so far, and what a bit scan leaves of its
destination when there is no bit. -/
structure Env where
  device : List PortEvent → BitVec 16 → BitVec 8
  scanned : BitVec 32 → BitVec 32

/-- The low bits of `old` replaced by `v`. -/
def merge {n : ℕ} (old : BitVec 32) (v : BitVec n) : BitVec 32 :=
  old >>> n <<< n ||| v.setWidth 32

def Cpu.addr (c : Cpu) (base : Option Reg) (disp : BitVec 32) : BitVec 32 :=
  base.elim 0 c.regs + disp

def value (c : Cpu) (m : Memory) : Operand → BitVec 32
  | .reg r => c.regs r
  | .high r => c.regs r >>> 8
  | .imm v => v
  | .mem base disp => load m (c.addr base disp)

def put (c : Cpu) (s : Shared) (v : BitVec 32) : Operand → Cpu × Shared
  | .reg r => ({ c with regs := Function.update c.regs r v }, s)
  | .high r => ({ c with regs := Function.update c.regs r (v <<< 8 ||| c.regs r &&& 0xff) }, s)
  | .mem base disp => (c, { s with mem := store s.mem (c.addr base disp) v })
  | .imm _ => (c, s)

def Op.eval {n : ℕ} : Op → BitVec n → BitVec n → BitVec n
  | .mov, _, v => v
  | .add, u, v => u + v
  | .sub, u, v => u - v
  | .and, u, v => u &&& v
  | .or, u, v => u ||| v
  | .xor, u, v => u ^^^ v
  | .shl, u, v => u <<< (v.toNat % 32)
  | .shr, u, v => u >>> (v.toNat % 32)
  | .inc, u, _ => u + 1
  | .dec, u, _ => u - 1

def Op.keepsFlags {n : ℕ} (f : Op) (v : BitVec n) : Bool :=
  match f with
  | .mov => true
  | .shl | .shr => v.toNat % 32 == 0
  | _ => false

def Op.zero {n : ℕ} (f : Op) (u v : BitVec n) (old : Bool) : Bool :=
  if f.keepsFlags v then old else f.eval u v == 0

def Op.carry {n : ℕ} (f : Op) (u v : BitVec n) (old : Bool) : Bool :=
  if f.keepsFlags v then old else
  match f with
  | .add => BitVec.ult (u + v) u
  | .sub => BitVec.ult u v
  | .shl => (u <<< (v.toNat % 32 - 1)).msb
  | .shr => u.getLsbD (v.toNat % 32 - 1)
  | .inc | .dec | .mov => old
  | _ => false

def Cond.holds (c : Cpu) : Cond → Bool
  | .always => true
  | .carry => c.carry
  | .zero => c.zero
  | .notZero => !c.zero

def scanned (fromTop : Bool) (v : BitVec 32) : Option ℕ :=
  (if fromTop then (List.range 32).reverse else List.range 32).find? v.getLsbD

def Table.access (t : Table) (selector : BitVec 16) : BitVec 32 :=
  t.base + (selector >>> 3 <<< 3).setWidth 32 + 5

def Table.Holds (t : Table) (selector : BitVec 16) : Prop :=
  selector.getLsbD 2 = false ∧ selector >>> 3 ≠ 0 ∧
    (selector >>> 3 <<< 3).toNat + 7 ≤ t.limit.toNat

instance (t : Table) (selector : BitVec 16) : Decidable (t.Holds selector) :=
  inferInstanceAs (Decidable (_ ∧ _))

/-- A task segment that is present and not busy. -/
def available (access : BitVec 8) : Bool := access &&& 0x97 == 0x81

/-- What instruction `ins` at place `i` does. A task segment becomes busy when it is loaded. -/
def exec (env : Env) (ins : Instr) (i : ℕ) (c : Cpu) (s : Shared) : Cpu × Shared :=
  let go : Cpu := { c with pc := .at (i + 1) }
  match ins with
  | .op n f dst src =>
    let u := (value c s.mem dst).setWidth n
    let v := (value c s.mem src).setWidth n
    put { go with carry := f.carry u v c.carry, zero := f.zero u v c.zero } s
      (merge (value c s.mem dst) (f.eval u v)) dst
  | .cmp n a b =>
    let u := (value c s.mem a).setWidth n
    let v := (value c s.mem b).setWidth n
    ({ go with carry := Op.sub.carry u v c.carry, zero := Op.sub.zero u v c.zero }, s)
  | .bitTest a => ({ go with carry := (value c s.mem a).getLsbD 0 }, s)
  | .bitTestSet a =>
    put { go with carry := (value c s.mem a).getLsbD 0 } s (value c s.mem a ||| 1) a
  | .exchangeAdd dst src =>
    let u := value c s.mem dst
    let v := c.regs src
    put { go with
      regs := Function.update c.regs src u
      carry := Op.add.carry u v c.carry
      zero := Op.add.zero u v c.zero } s (u + v) dst
  | .scan fromTop dst src =>
    (scanned fromTop (c.regs src)).elim
      ({ go with zero := true, regs := Function.update c.regs dst (env.scanned (c.regs dst)) }, s)
      fun k => ({ go with zero := false, regs := Function.update c.regs dst (BitVec.ofNat 32 k) }, s)
  | .push r =>
    ({ go with regs := Function.update c.regs .esp (c.regs .esp - 4) },
      { s with mem := store s.mem (c.regs .esp - 4) (c.regs r) })
  | .pop r =>
    let regs := Function.update c.regs .esp (c.regs .esp + 4)
    ({ go with regs := Function.update regs r (load s.mem (c.regs .esp)) }, s)
  | .input dst port =>
    let p := (c.regs port).setWidth 16
    let v := env.device s.ports p
    ({ go with regs := Function.update c.regs dst (merge (c.regs dst) v) },
      { s with ports := .read p v :: s.ports })
  | .output port src =>
    let e := PortEvent.write ((c.regs port).setWidth 16) ((c.regs src).setWidth 8)
    (go, { s with ports := e :: s.ports })
  | .loadTable a =>
    ({ go with table := { base := load s.mem (a + 2), limit := (load s.mem a).setWidth 16 } }, s)
  | .loadTask r =>
    let selector := (c.regs r).setWidth 16
    let a := c.table.access selector
    if c.table.Holds selector ∧ available (s.mem a) = true then
      ({ go with task := selector }, { s with mem := Function.update s.mem a (s.mem a ||| 2) })
    else ({ c with pc := .fault i }, s)
  | .jump cond target => ({ c with pc := .at (if cond.holds c then target else i + 1) }, s)
  | .skip => (go, s)
  | .ret =>
    ({ c with
      regs := Function.update c.regs .esp (c.regs .esp + 4)
      pc := .out (load s.mem (c.regs .esp)) }, s)

abbrev State := Cpu × Shared

section Code

variable (env : Env) (code : List Instr)

def step (x : State) : Option State :=
  match x.1.pc with
  | .at i => (code[i]?).map fun ins => exec env ins i x.1 x.2
  | .out _ | .fault _ => none

def Runs : State → State → Prop := Relation.ReflTransGen fun x y => step env code x = some y

variable {env code} {x y z : State} {c : Cpu} {s : Shared} {i : ℕ} {ins : Instr}

theorem step_at (hpc : c.pc = .at i) (hcode : code[i]? = some ins) :
    step env code (c, s) = some (exec env ins i c s) := by
  simp only [step, hpc, hcode, Option.map_some]

theorem Runs.trans (h : Runs env code x y) (h' : Runs env code y z) : Runs env code x z :=
  Relation.ReflTransGen.trans h h'

theorem Runs.first (hpc : c.pc = .at i) (hcode : code[i]? = some ins)
    (h : Runs env code (exec env ins i c s) y) : Runs env code (c, s) y :=
  Relation.ReflTransGen.head (step_at hpc hcode) h

theorem Runs.preserves {I : State → Prop} (hstep : ∀ x y, I x → step env code x = some y → I y)
    (h : Runs env code x y) (hx : I x) : I y := by
  induction h with
  | refl => exact hx
  | tail _ hs ih => exact hstep _ _ ih hs

theorem Runs.connected (h : Runs env code x y) (h' : Runs env code x z) :
    Runs env code y z ∨ Runs env code z y := by
  refine Relation.ReflTransGen.total_of_right_unique ?_ h h'
  intro u v w hv hw
  exact Option.some.inj (hv.symm.trans hw)

/-- A loop with at most `n` rounds: every round leaves it or goes on to the next one. -/
theorem Runs.rounds {I : ℕ → State → Prop} {Q : State → Prop} {n k : ℕ}
    (hround : ∀ k x, k < n → I k x → ∃ y, Runs env code x y ∧ (Q y ∨ k + 1 < n ∧ I (k + 1) y))
    (hk : k < n) (hx : I k x) : ∃ y, Runs env code x y ∧ Q y := by
  obtain ⟨left, hleft⟩ : ∃ left, k + left + 1 = n := ⟨n - k - 1, by omega⟩
  induction left generalizing k x with
  | zero =>
    obtain ⟨y, hrun, hend⟩ := hround k x hk hx
    rcases hend with hQ | ⟨hmore, -⟩
    · exact ⟨y, hrun, hQ⟩
    · omega
  | succ left ih =>
    obtain ⟨y, hrun, hend⟩ := hround k x hk hx
    rcases hend with hQ | ⟨hmore, hy⟩
    · exact ⟨y, hrun, hQ⟩
    · obtain ⟨z, hrest, hQ⟩ := ih hmore hy (by omega)
      exact ⟨z, hrun.trans hrest, hQ⟩

def Instr.straight : Instr → Bool
  | .jump _ _ | .ret | .loadTask _ => false
  | _ => true

variable (env) in
def execAll : List Instr → ℕ → State → State
  | [], _, x => x
  | ins :: block, i, x => execAll block (i + 1) (exec env ins i x.1 x.2)

theorem execAll_append (l r : List Instr) (i : ℕ) (x : State) :
    execAll env (l ++ r) i x = execAll env r (i + l.length) (execAll env l i x) := by
  induction l generalizing i x with
  | nil => rfl
  | cons ins l ih =>
    rw [List.cons_append, execAll, ih, execAll, List.length_cons, Nat.add_assoc, Nat.add_comm 1]

theorem exec_jump {cond : Cond} {target : ℕ} : exec env (.jump cond target) i c s =
    ({ c with pc := .at (if cond.holds c then target else i + 1) }, s) := rfl

theorem exec_scan {fromTop : Bool} {dst src : Reg} {k : ℕ}
    (h : scanned fromTop (c.regs src) = some k) :
    exec env (.scan fromTop dst src) i c s =
      ({ c with
        pc := .at (i + 1)
        zero := false
        regs := Function.update c.regs dst (BitVec.ofNat 32 k) }, s) := by
  simp only [exec, h, Option.elim]

theorem put_pc (c : Cpu) (s : Shared) (v : BitVec 32) (o : Operand) : (put c s v o).1.pc = c.pc := by
  cases o <;> rfl

theorem exec_pc (h : ins.straight = true) : (exec env ins i c s).1.pc = .at (i + 1) := by
  cases ins with
  | jump => simp [Instr.straight] at h
  | ret => simp [Instr.straight] at h
  | loadTask => simp [Instr.straight] at h
  | op | bitTestSet | exchangeAdd => exact put_pc _ _ _ _
  | scan fromTop dst src =>
    rw [exec]
    cases scanned fromTop (c.regs src) <;> rfl
  | _ => rfl

variable (env code x) in
/-- A stretch without jumps is carried out from its first to its last instruction. -/
theorem runs_straight (block : List Instr) (hblock : ∀ ins ∈ block, ins.straight = true)
    (hpc : x.1.pc = .at i) (hcode : block <+: code.drop i) :
    Runs env code x (execAll env block i x) ∧
      (execAll env block i x).1.pc = .at (i + block.length) := by
  induction block generalizing i x with
  | nil => exact ⟨.refl, hpc⟩
  | cons ins block ih =>
    obtain ⟨rest, hrest⟩ := hcode
    have hhere : code[i]? = some ins := by
      rw [← Nat.add_zero i, ← List.getElem?_drop, ← hrest]
      rfl
    have hnext : block <+: code.drop (i + 1) := by
      refine ⟨rest, ?_⟩
      rw [← List.drop_drop, ← hrest]
      rfl
    obtain ⟨hrun, hend⟩ := ih _ (fun ins h => hblock ins (List.mem_cons_of_mem _ h))
      (exec_pc (hblock ins List.mem_cons_self)) hnext
    refine ⟨Runs.first hpc hhere hrun, hend.trans ?_⟩
    rw [List.length_cons, Nat.add_assoc, Nat.add_comm 1]

/-- The call at hand comes back to its caller with `v` in `eax`: the other registers are as they
were, and memory is but for `below` bytes under the stack pointer. -/
def Returns (env : Env) (code : List Instr) (c : Cpu) (s : Shared) (below : ℕ) (v : BitVec 32) :
    Prop :=
  ∃ c' s', Runs env code (c, s) (c', s') ∧ c'.pc = .out (load s.mem (c.regs .esp)) ∧
    c'.regs .eax = v ∧ c'.regs .esp = c.regs .esp + 4 ∧
    (∀ r, r ≠ .eax → r ≠ .esp → c'.regs r = c.regs r) ∧ s'.ports = s.ports ∧
    ∀ b ∉ span (c.regs .esp - BitVec.ofNat 32 below) below, s'.mem b = s.mem b

/-- At the return the stack pointer and the other registers have to be what they were. -/
theorem returns_of {c' : Cpu} {s' : Shared} {j below : ℕ} {v : BitVec 32}
    (hrun : Runs env code (c, s) (c', s')) (hpc : c'.pc = .at j) (hret : code[j]? = some .ret)
    (hback : load s'.mem (c.regs .esp) = load s.mem (c.regs .esp)) (hax : c'.regs .eax = v)
    (hrest : ∀ r, r ≠ .eax → c'.regs r = c.regs r) (hports : s'.ports = s.ports)
    (hmem : ∀ b ∉ span (c.regs .esp - BitVec.ofNat 32 below) below, s'.mem b = s.mem b) :
    Returns env code c s below v := by
  have hsp := hrest .esp (by decide)
  refine ⟨_, _, hrun.trans (.first hpc hret .refl), ?_, ?_, ?_, fun r hr hne => ?_, hports, hmem⟩
  · simp only [hsp, hback]
  · simp only
    rw [Function.update_of_ne (by decide), hax]
  · simp only [Function.update_self, hsp]
  · simp only
    rw [Function.update_of_ne hne, hrest r hr]

end Code

structure Machine (κ : Type*) where
  cpus : κ → Cpu
  shared : Shared

variable {κ : Type*} [DecidableEq κ]

def Machine.step (env : Env) (code : List Instr) (m : Machine κ) (k : κ) : Option (Machine κ) :=
  (JumpCode.step env code (m.cpus k, m.shared)).map fun r =>
    ⟨Function.update m.cpus k r.1, r.2⟩

section Widths

variable {n : ℕ}

theorem getLsbD_merge (old : BitVec 32) (v : BitVec n) (i : ℕ) (hi : i < 32) :
    (merge old v).getLsbD i = if i < n then v.getLsbD i else old.getLsbD i := by
  rw [merge, BitVec.getLsbD_or, BitVec.getLsbD_shiftLeft, BitVec.getLsbD_ushiftRight,
    BitVec.getLsbD_setWidth, decide_eq_true hi]
  by_cases hn : i < n
  · simp [hn]
  · have hv : v.getLsbD i = false := BitVec.getLsbD_of_ge v i (by omega)
    simp [hn, hv, show n + (i - n) = i by omega]

@[simp] theorem merge_word (old v : BitVec 32) : merge old v = v := by
  apply BitVec.eq_of_getLsbD_eq
  intro i hi
  rw [getLsbD_merge old v i hi, if_pos hi]

@[simp] theorem setWidth_merge (hn : n ≤ 32) (old : BitVec 32) (v : BitVec n) :
    (merge old v).setWidth n = v := by
  apply BitVec.eq_of_getLsbD_eq
  intro i hi
  rw [BitVec.getLsbD_setWidth, getLsbD_merge old v i (by omega), if_pos hi, decide_eq_true hi,
    Bool.true_and]

theorem store_merge_byte (m : Memory) (a : BitVec 32) (v : BitVec 8) :
    store m a (merge (load m a) v) = Function.update m a v := by
  funext b
  rw [Function.update_apply]
  by_cases hb : b = a
  · subst hb
    have hfirst : (b - b).toNat = 0 := by simp
    rw [if_pos rfl, store, if_pos (by omega), hfirst]
    apply BitVec.eq_of_getLsbD_eq
    intro i hi
    rw [BitVec.getLsbD_extractLsb', decide_eq_true hi, Bool.true_and,
      getLsbD_merge _ _ _ (by omega), if_pos (by omega)]
    simp
  · rw [if_neg hb]
    by_cases hspan : (b - a).toNat < 4
    · have hsame := congrFun (store_load m a) b
      have hlater : 0 < (b - a).toNat := by bv_omega
      rw [store, if_pos hspan] at hsame ⊢
      rw [← hsame]
      apply BitVec.eq_of_getLsbD_eq
      intro i hi
      rw [BitVec.getLsbD_extractLsb', BitVec.getLsbD_extractLsb',
        getLsbD_merge _ _ _ (by omega), if_neg (by omega)]
    · exact store_frame hspan

theorem load_first_bit (m : Memory) (a : BitVec 32) :
    (load m a).getLsbD 0 = (m a).getLsbD 0 := by
  rw [load_bit m a (by omega)]
  simp

theorem store_set_bit (m : Memory) (a : BitVec 32) :
    store m a (load m a ||| 1) = Function.update m a (m a ||| 1) := by
  rw [← store_merge_byte]
  congr 1
  apply BitVec.eq_of_getLsbD_eq
  intro i hi
  have hone : (1 : BitVec 32).getLsbD i = (1 : BitVec 8).getLsbD i := by
    cases i with
    | zero => rfl
    | succ i => simp
  rw [getLsbD_merge _ _ _ hi, BitVec.getLsbD_or, BitVec.getLsbD_or, hone]
  split
  · rename_i hlow
    rw [load_bit m a hi, Nat.div_eq_of_lt hlow, Nat.mod_eq_of_lt hlow]
    simp
  · rename_i hlow
    rw [BitVec.getLsbD_of_ge (1 : BitVec 8) i (by omega), Bool.or_false]

end Widths

/-- Memory after two words were put on the stack, the lower one at `w`. -/
def saveTwo (m : Memory) (w low high : BitVec 32) : Memory := store (store m (w + 4#32) high) w low

section Saved

variable {m : Memory} {w low high a b : BitVec 32}

theorem saveTwo_low : load (saveTwo m w low high) w = low := load_store _ _ _

theorem saveTwo_high : load (saveTwo m w low high) (w + 4#32) = high := by
  have hapart := span_apart (a := w) (x := 0) (y := 4#32) (n := 4) (k := 4) (by decide) (by decide)
  rw [add_zero] at hapart
  exact (load_store_apart hapart).trans (load_store _ _ _)

theorem saveTwo_frame (h : b ∉ span w 8) : saveTwo m w low high b = m b := by
  have hlow : b ∉ span w 4 := by
    simp only [mem_span] at h ⊢
    omega
  have hhigh : b ∉ span (w + 4#32) 4 := by
    simp only [mem_span] at h ⊢
    bv_omega
  exact (store_frame hlow).trans (store_frame hhigh)

theorem saveTwo_apart (h : Disjoint (span w 8) (span a 4)) :
    load (saveTwo m w low high) a = load m a :=
  load_congr fun _ hb => saveTwo_frame (Set.disjoint_right.mp h hb)

theorem saveTwo_above {k : BitVec 32} (hk : 8 ≤ k.toNat) (hk' : k.toNat ≤ 4294967292) :
    load (saveTwo m w low high) (w + k) = load m (w + k) := by
  have hzero : (0 : BitVec 32).toNat = 0 := rfl
  have hapart := span_apart (a := w) (x := 0) (y := k) (n := 8) (k := 4) (by omega) (by omega)
  rw [add_zero] at hapart
  exact saveTwo_apart hapart

end Saved

end JumpCode
