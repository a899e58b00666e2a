import Metakernel.PageTables
import Metakernel.WordCode

/-!
# Page table updates on memory

The code of `page_map`, `page_unmap` and `page_remap` in ia_32_virt_mem.s, on a memory of bytes that
holds the page tables and the stack.
-/
namespace PageTableCode

open WordCode PageTables

inductive Reg where
  | eax | ebx | ecx | esp
  deriving DecidableEq, Repr

open Reg

/-- The registers are saved, and the first two arguments are read. -/
def enter : List (Instr Reg) :=
  [.op .add (.reg esp) (.imm (-12)),
   .op .mov (.word esp 8) (.place (.reg eax)),
   .op .mov (.word esp 4) (.place (.reg ebx)),
   .op .mov (.word esp 0) (.place (.reg ecx)),
   .op .mov (.reg eax) (.place (.word esp 16)),
   .op .mov (.reg ebx) (.place (.word esp 20)),
   .invlpg (.word eax 0)]

/-- The address of the entry is computed in `ecx`. -/
def locate : List (Instr Reg) :=
  [.op .add (.reg eax) (.imm 0x2000),
   .op .mov (.reg ecx) (.place (.reg ebx)),
   .op .shr (.reg ebx) (.imm 20),
   .op .and (.reg ebx) (.imm 0x00000ffc),
   .op .add (.reg eax) (.place (.reg ebx)),
   .op .shr (.reg ecx) (.imm 10),
   .op .and (.reg ecx) (.imm 0x00000ffc),
   .op .add (.reg ecx) (.place (.word eax 0))]

def leave : List (Instr Reg) :=
  [.op .mov (.reg ecx) (.place (.word esp 0)),
   .op .mov (.reg ebx) (.place (.word esp 4)),
   .op .mov (.reg eax) (.place (.word esp 8)),
   .op .add (.reg esp) (.imm 12)]

def mapBody : List (Instr Reg) :=
  [.op .mov (.reg eax) (.place (.word esp 28)),
   .op .mov (.reg ebx) (.place (.word esp 24)),
   .op .and (.reg eax) (.imm 0xfffff000),
   .op .and (.reg ebx) (.imm 0x00000002),
   .op .or (.reg eax) (.place (.reg ebx)),
   .op .or (.reg eax) (.imm 0x00000005),
   .op .mov (.word ecx 0) (.place (.reg eax))]

def unmapBody : List (Instr Reg) := [.op .mov (.word ecx 0) (.imm 0)]

def remapBody : List (Instr Reg) :=
  [.op .mov (.reg ebx) (.place (.word esp 24)),
   .op .mov (.reg eax) (.place (.word ecx 0)),
   .op .and (.reg ebx) (.imm 0x00000002),
   .op .and (.reg eax) (.imm 0xfffffffd),
   .op .or (.reg eax) (.place (.reg ebx)),
   .op .mov (.word ecx 0) (.place (.reg eax))]

/-- The code up to `ret`. -/
def pageMapCode : List (Instr Reg) := enter ++ locate ++ mapBody ++ leave

def pageUnmapCode : List (Instr Reg) := enter ++ locate ++ unmapBody ++ leave

def pageRemapCode : List (Instr Reg) := enter ++ locate ++ remapBody ++ leave

/-- The address of the entry of `addr`: the table pointers lie at `spc + 0x2000`. -/
def entryAddr (m : Memory) (spc addr : BitVec 32) : BitVec 32 :=
  entryOffset addr + load m (spc + 0x2000 + tableOffset addr)

def entry (m : Memory) (spc addr : BitVec 32) : BitVec 32 := load m (entryAddr m spc addr)

def pteUpdate (op : PteOp) (m : Memory) (spc addr : BitVec 32) : Memory :=
  store m (entryAddr m spc addr) (op.entry (entry m spc addr))

def pageMap (m : Memory) (spc addr perm phys : BitVec 32) : Memory :=
  pteUpdate (.map perm phys) m spc addr

def pageUnmap (m : Memory) (spc addr : BitVec 32) : Memory := pteUpdate .unmap m spc addr

def pageRemap (m : Memory) (spc addr perm : BitVec 32) : Memory :=
  pteUpdate (.remap perm) m spc addr

def tablePointer (m : Memory) (spc : BitVec 32) (i : ℕ) : BitVec 32 :=
  load m (spc + 0x2000 + BitVec.ofNat 32 (4 * i))

structure Tables (m : Memory) (spc : BitVec 32) : Prop where
  tables : ∀ i < 1024, ∀ j < 1024, i ≠ j →
    Disjoint (span (tablePointer m spc i) 4096) (span (tablePointer m spc j) 4096)
  pointers : ∀ i < 1024, Disjoint (span (tablePointer m spc i) 4096) (span (spc + 0x2000) 4096)

def tableIndex (addr : BitVec 32) : ℕ := addr.toNat / 4194304

section Entries

variable {m m' : Memory} {spc a b : BitVec 32} {op : PteOp}

theorem tableIndex_lt (a : BitVec 32) : tableIndex a < 1024 := by
  rw [tableIndex]
  omega

theorem tableOffset_eq (a : BitVec 32) : tableOffset a = BitVec.ofNat 32 (4 * tableIndex a) := by
  have hbits : tableOffset a = (a >>> 22) <<< 2 := by
    apply BitVec.eq_of_getLsbD_eq
    intro i hi
    interval_cases i <;> simp [tableOffset]
  apply BitVec.eq_of_toNat_eq
  rw [hbits, tableIndex, BitVec.toNat_shiftLeft, BitVec.toNat_ushiftRight, BitVec.toNat_ofNat,
    Nat.shiftLeft_eq, Nat.shiftRight_eq_div_pow]
  omega

theorem entryOffset_le (a : BitVec 32) : (entryOffset a).toNat + 4 ≤ 4096 := by
  have hle : (entryOffset a).toNat ≤ 0xffc := by
    rw [entryOffset, BitVec.toNat_and]
    exact Nat.and_le_right
  omega

theorem entryOffset_mod (a : BitVec 32) : (entryOffset a).toNat % 4 = 0 := by
  have hbits : entryOffset a = (a <<< 10 >>> 22) <<< 2 := by
    apply BitVec.eq_of_getLsbD_eq
    intro i hi
    interval_cases i <;> simp [entryOffset]
  rw [hbits, BitVec.toNat_shiftLeft, Nat.shiftLeft_eq]
  omega

theorem entryAddr_eq (m : Memory) (spc a : BitVec 32) :
    entryAddr m spc a = tablePointer m spc (tableIndex a) + entryOffset a := by
  rw [entryAddr, tablePointer, tableOffset_eq, add_comm]

theorem entry_span (m : Memory) (spc a : BitVec 32) :
    span (entryAddr m spc a) 4 ⊆ span (tablePointer m spc (tableIndex a)) 4096 := by
  refine span_subset ?_
  rw [entryAddr_eq, add_sub_cancel_left]
  exact entryOffset_le a

theorem pointer_span {i : ℕ} (hi : i < 1024) :
    span (spc + 0x2000 + BitVec.ofNat 32 (4 * i)) 4 ⊆ span (spc + 0x2000) 4096 := by
  refine span_subset ?_
  rw [add_sub_cancel_left, BitVec.toNat_ofNat]
  omega

theorem tablePointer_congr (h : ∀ x ∈ span (spc + 0x2000) 4096, m' x = m x) {i : ℕ}
    (hi : i < 1024) : tablePointer m' spc i = tablePointer m spc i :=
  load_congr fun x hx => h x (pointer_span hi hx)

theorem entryAddr_congr (h : ∀ x ∈ span (spc + 0x2000) 4096, m' x = m x) (a : BitVec 32) :
    entryAddr m' spc a = entryAddr m spc a := by
  rw [entryAddr_eq, entryAddr_eq, tablePointer_congr h (tableIndex_lt a)]

theorem entryAddr_page (h : pageNum b = pageNum a) : entryAddr m spc b = entryAddr m spc a := by
  rw [entryAddr, entryAddr, tableOffset_pageNum, entryOffset_pageNum, h, ← tableOffset_pageNum,
    ← entryOffset_pageNum]

theorem entry_page (h : pageNum b = pageNum a) : entry m spc b = entry m spc a := by
  rw [entry, entry, entryAddr_page h]

theorem pteUpdate_frame {x : BitVec 32} (h : x ∉ span (tablePointer m spc (tableIndex a)) 4096) :
    pteUpdate op m spc a x = m x := store_frame fun hx => h (entry_span m spc a hx)

theorem Tables.pointers_kept (h : Tables m spc) :
    ∀ x ∈ span (spc + 0x2000) 4096, pteUpdate op m spc a x = m x := fun _ hx =>
  pteUpdate_frame (Set.disjoint_right.mp (h.pointers _ (tableIndex_lt a)) hx)

theorem Tables.entry_update (h : Tables m spc) :
    entry (pteUpdate op m spc a) spc a = op.entry (entry m spc a) := by
  rw [entry, entryAddr_congr h.pointers_kept, pteUpdate, load_store]

theorem Tables.apart (h : Tables m spc) (hne : pageNum b ≠ pageNum a) :
    Disjoint (span (entryAddr m spc a) 4) (span (entryAddr m spc b) 4) := by
  by_cases htab : tableIndex b = tableIndex a
  · have hoff : (entryOffset b).toNat ≠ (entryOffset a).toNat := by
      intro heq
      refine hne ?_
      rw [pageNum_offsets, pageNum_offsets a, tableOffset_eq, tableOffset_eq a, htab,
        BitVec.eq_of_toNat_eq heq]
    have ha := entryOffset_mod a
    have hb := entryOffset_mod b
    rw [Set.disjoint_left, entryAddr_eq, entryAddr_eq, htab]
    intro x hx hx'
    rw [mem_span] at hx hx'
    bv_omega
  · exact (h.tables _ (tableIndex_lt a) _ (tableIndex_lt b) (Ne.symm htab)).mono (entry_span m spc a)
      (entry_span m spc b)

theorem Tables.entry_update_ne (h : Tables m spc) (hne : pageNum b ≠ pageNum a) :
    entry (pteUpdate op m spc a) spc b = entry m spc b := by
  rw [entry, entryAddr_congr h.pointers_kept, pteUpdate, load_store_apart (h.apart hne), entry]

/-- An entry that was 0 is 0 again after the page is mapped and unmapped, and all of memory is as
before. -/
theorem Tables.unmap_map (h : Tables m spc) (hzero : entry m spc a = 0) (perm phys : BitVec 32) :
    pageUnmap (pageMap m spc a perm phys) spc a = m := by
  have haddr : entryAddr (pageMap m spc a perm phys) spc a = entryAddr m spc a :=
    entryAddr_congr h.pointers_kept a
  rw [pageUnmap, pteUpdate, haddr, PteOp.entry, pageMap, pteUpdate, store_store, ← hzero]
  exact store_load m _

end Entries

section Fields

variable {perm phys old : BitVec 32}

def pageFrame (e : BitVec 32) : BitVec 32 := e &&& 0xfffff000

def writable (e : BitVec 32) : Bool := e.getLsbD 1

def user (e : BitVec 32) : Bool := e.getLsbD 2

theorem mapEntry_fields : pageFrame (mapEntry perm phys) = pageFrame phys ∧
    present (mapEntry perm phys) = true ∧ user (mapEntry perm phys) = true ∧
    writable (mapEntry perm phys) = perm.getLsbD 1 := by
  refine ⟨?_, ?_, ?_, ?_⟩
  · apply BitVec.eq_of_getLsbD_eq
    intro i hi
    interval_cases i <;> simp [pageFrame, mapEntry]
  all_goals simp [present, user, writable, mapEntry]

theorem remapEntry_fields : pageFrame (PteOp.entry old (.remap perm)) = pageFrame old ∧
    present (PteOp.entry old (.remap perm)) = present old ∧
    writable (PteOp.entry old (.remap perm)) = perm.getLsbD 1 := by
  refine ⟨?_, ?_, ?_⟩
  · apply BitVec.eq_of_getLsbD_eq
    intro i hi
    interval_cases i <;> simp [pageFrame, PteOp.entry]
  all_goals simp [present, writable, PteOp.entry]

end Fields

section Code

def code : PteOp → List (Instr Reg)
  | .map _ _ => pageMapCode
  | .unmap => pageUnmapCode
  | .remap _ => pageRemapCode

def body : PteOp → List (Instr Reg)
  | .map _ _ => mapBody
  | .unmap => unmapBody
  | .remap _ => remapBody

def regs (a b c sp : BitVec 32) : Reg → BitVec 32
  | .eax => a
  | .ebx => b
  | .ecx => c
  | .esp => sp

section Regs

variable (a b c sp v : BitVec 32)

@[simp] theorem regs_eax : regs a b c sp eax = a := rfl

@[simp] theorem regs_ebx : regs a b c sp ebx = b := rfl

@[simp] theorem regs_ecx : regs a b c sp ecx = c := rfl

@[simp] theorem regs_esp : regs a b c sp esp = sp := rfl

@[simp] theorem update_eax : Function.update (regs a b c sp) eax v = regs v b c sp := by
  funext r
  cases r <;> rfl

@[simp] theorem update_ebx : Function.update (regs a b c sp) ebx v = regs a v c sp := by
  funext r
  cases r <;> rfl

@[simp] theorem update_ecx : Function.update (regs a b c sp) ecx v = regs a b v sp := by
  funext r
  cases r <;> rfl

@[simp] theorem update_esp : Function.update (regs a b c sp) esp v = regs a b c v := by
  funext r
  cases r <;> rfl

end Regs

/-- The arguments after the first two, above a frame that begins at `base`. -/
def Further (m : Memory) (base : BitVec 32) : PteOp → Prop
  | .map perm phys => load m (base + 24) = perm ∧ load m (base + 28) = phys
  | .unmap => True
  | .remap perm => load m (base + 24) = perm

def Passed (m : Memory) (sp spc addr : BitVec 32) (op : PteOp) : Prop :=
  load m (sp + 4) = spc ∧ load m (sp + 8) = addr ∧ Further m (sp - 12) op

def frame (sp : BitVec 32) : Set (BitVec 32) := span (sp - 12) 12

structure OffTables (m : Memory) (spc sp : BitVec 32) : Prop where
  pointers : Disjoint (frame sp) (span (spc + 0x2000) 4096)
  tables : ∀ i < 1024, Disjoint (frame sp) (span (tablePointer m spc i) 4096)

variable {m : Memory} {a b c sp base spc addr : BitVec 32} {op : PteOp}

theorem locate_run : run locate ⟨regs spc addr c sp, m⟩ =
    ⟨regs (spc + 0x2000 + tableOffset addr) (tableOffset addr) (entryAddr m spc addr) sp, m⟩ := by
  simp [locate, entryAddr, tableOffset, entryOffset]

theorem body_run (h : Further m sp op) : ∃ a' b', run (body op) ⟨regs a b c sp, m⟩ =
    ⟨regs a' b' c sp, store m c (op.entry (load m c))⟩ := by
  cases op with
  | map perm phys =>
    obtain ⟨rfl, rfl⟩ := h
    exact ⟨_, _, by simp [body, mapBody, PteOp.entry, mapEntry]; rfl⟩
  | unmap => exact ⟨a, b, by simp [body, unmapBody, PteOp.entry]⟩
  | remap perm =>
    obtain rfl := h
    exact ⟨_, _, by simp [body, remapBody, PteOp.entry]; rfl⟩

theorem leave_run : run leave ⟨regs a b c sp, m⟩ =
    ⟨regs (load m (sp + 8)) (load m (sp + 4)) (load m sp) (sp + 12), m⟩ := by
  simp [leave]

/-- The three registers in a frame that begins at `base`. -/
def saved (m : Memory) (a b c base : BitVec 32) : Memory :=
  store (store (store m (base + 8) a) (base + 4) b) base c

theorem saved_frame {x : BitVec 32} (hx : x ∉ span base 12) : saved m a b c base x = m x := by
  have hword : ∀ k : BitVec 32, k.toNat + 4 ≤ 12 → x ∉ span (base + k) 4 := fun k hk hmem =>
    hx (span_subset (by rwa [add_sub_cancel_left]) hmem)
  have hlast := hword 0 (by decide)
  rw [add_zero] at hlast
  rw [saved, store_frame hlast, store_frame (hword 4 (by decide)), store_frame (hword 8 (by decide))]

theorem saved_above {k : BitVec 32} (hk : 12 ≤ k.toNat) (hk' : k.toNat + 4 ≤ 4294967296) :
    load (saved m a b c base) (base + k) = load m (base + k) := by
  refine load_congr fun x hx => saved_frame fun hx' => ?_
  rw [mem_span] at hx hx'
  bv_omega

theorem saved_words (m : Memory) (a b c base : BitVec 32) :
    load (saved m a b c base) (base + 8) = a ∧ load (saved m a b c base) (base + 4) = b ∧
      load (saved m a b c base) base = c := by
  have hlow : ∀ k : BitVec 32, 4 ≤ k.toNat → k.toNat ≤ 8 →
      Disjoint (span base 4) (span (base + k) 4) := by
    intro k hk hk'
    rw [Set.disjoint_left]
    intro x hx hx'
    rw [mem_span] at hx hx'
    bv_omega
  refine ⟨?_, ?_, load_store _ _ _⟩
  · rw [saved, load_store_apart (hlow 8 (by decide) (by decide)),
      load_store_apart (span_apart (by decide) (by decide)), load_store]
  · rw [saved, load_store_apart (hlow 4 (by decide) (by decide)), load_store]

theorem enter_tail_run : run enter.tail ⟨regs a b c base, m⟩ =
    ⟨regs (load (saved m a b c base) (base + 16)) (load (saved m a b c base) (base + 20)) c base,
      saved m a b c base⟩ := by
  simp [enter, saved]

theorem enter_run : run enter ⟨regs a b c sp, m⟩ = run enter.tail ⟨regs a b c (sp - 12), m⟩ := by
  rw [enter, run_cons, List.tail_cons, sub_eq_add_neg]
  simp only [step, State.put, State.get, State.value, Op.eval, regs_esp, update_esp]

/-- The code changes the stack below the stack pointer and does the update. -/
theorem code_run (h : Passed m sp spc addr op) :
    run (code op) ⟨regs a b c sp, m⟩ =
      ⟨regs (load (pteUpdate op (saved m a b c (sp - 12)) spc addr) (sp - 12 + 8))
        (load (pteUpdate op (saved m a b c (sp - 12)) spc addr) (sp - 12 + 4))
        (load (pteUpdate op (saved m a b c (sp - 12)) spc addr) (sp - 12)) sp,
        pteUpdate op (saved m a b c (sp - 12)) spc addr⟩ := by
  obtain ⟨hspc, haddr, hfurther⟩ := h
  have hback : sp - 12 + 12 = sp := sub_add_cancel sp 12
  have hfirst : load (saved m a b c (sp - 12)) (sp - 12 + 16) = spc := by
    rw [saved_above (by decide) (by decide), ← hspc]
    congr 1
    bv_omega
  have hsecond : load (saved m a b c (sp - 12)) (sp - 12 + 20) = addr := by
    rw [saved_above (by decide) (by decide), ← haddr]
    congr 1
    bv_omega
  have hrest : Further (saved m a b c (sp - 12)) (sp - 12) op := by
    cases op with
    | map perm phys =>
      exact ⟨(saved_above (by decide) (by decide)).trans hfurther.1,
        (saved_above (by decide) (by decide)).trans hfurther.2⟩
    | unmap => trivial
    | remap perm => exact (saved_above (by decide) (by decide)).trans hfurther
  obtain ⟨a', b', hbody⟩ := body_run (a := spc + 0x2000 + tableOffset addr) (b := tableOffset addr)
    (c := entryAddr (saved m a b c (sp - 12)) spc addr) hrest
  have hcode : code op = enter ++ locate ++ body op ++ leave := by cases op <;> rfl
  rw [hcode, run_append, run_append, run_append, enter_run, enter_tail_run, hfirst, hsecond,
    locate_run, hbody, leave_run, hback]
  rfl

theorem OffTables.apart (h : OffTables m spc sp) :
    Disjoint (frame sp) (span (entryAddr m spc addr) 4) :=
  (h.tables _ (tableIndex_lt addr)).mono_right (entry_span m spc addr)

theorem OffTables.unmoved (h : OffTables m spc sp) (a b c addr : BitVec 32) :
    entryAddr (saved m a b c (sp - 12)) spc addr = entryAddr m spc addr ∧
      entry (saved m a b c (sp - 12)) spc addr = entry m spc addr := by
  have haddr : entryAddr (saved m a b c (sp - 12)) spc addr = entryAddr m spc addr :=
    entryAddr_congr (fun x hx => saved_frame (Set.disjoint_right.mp h.pointers hx)) addr
  refine ⟨haddr, ?_⟩
  rw [entry, haddr]
  exact load_congr fun x hx => saved_frame (Set.disjoint_right.mp h.apart hx)

/-- On a stack apart from the page tables the code keeps the registers, and outside its frame memory
is as after the update. -/
theorem code_updates (hoff : OffTables m spc sp) (h : Passed m sp spc addr op) :
    ∃ m', run (code op) ⟨regs a b c sp, m⟩ = ⟨regs a b c sp, m'⟩ ∧
      ∀ x ∉ frame sp, m' x = pteUpdate op m spc addr x := by
  obtain ⟨haddr, hentry⟩ := hoff.unmoved a b c addr
  have hword : ∀ k : BitVec 32, k.toNat + 4 ≤ 12 →
      load (pteUpdate op (saved m a b c (sp - 12)) spc addr) (sp - 12 + k) =
        load (saved m a b c (sp - 12)) (sp - 12 + k) := by
    intro k hk
    have hsub : span (sp - 12 + k) 4 ⊆ frame sp := span_subset (by rwa [add_sub_cancel_left])
    rw [pteUpdate, haddr]
    exact load_store_apart (hoff.apart.mono_left hsub).symm
  obtain ⟨heax, hebx, hecx⟩ := saved_words m a b c (sp - 12)
  have hlast := hword 0 (by decide)
  rw [add_zero] at hlast
  refine ⟨pteUpdate op (saved m a b c (sp - 12)) spc addr, ?_, fun x hx => ?_⟩
  · rw [code_run h, hword 8 (by decide), hword 4 (by decide), hlast, heax, hebx, hecx]
  · rw [pteUpdate, pteUpdate, haddr, hentry]
    unfold store
    split
    · rfl
    · exact saved_frame hx

end Code

/-- What `page_map`, `page_unmap` and `page_remap` make of the entries of an address space, and that
their code does this on every stack outside the tables. -/
theorem page_tables_updated {m : Memory} {spc : BitVec 32} (h : Tables m spc)
    (addr perm phys : BitVec 32) :
    (∀ b, pageNum b = pageNum addr →
      pageFrame (entry (pageMap m spc addr perm phys) spc b) = pageFrame phys ∧
        present (entry (pageMap m spc addr perm phys) spc b) = true ∧
        user (entry (pageMap m spc addr perm phys) spc b) = true ∧
        writable (entry (pageMap m spc addr perm phys) spc b) = perm.getLsbD 1) ∧
    (∀ b, pageNum b = pageNum addr → present (entry (pageUnmap m spc addr) spc b) = false) ∧
    (∀ b, pageNum b = pageNum addr →
      pageFrame (entry (pageRemap m spc addr perm) spc b) = pageFrame (entry m spc b) ∧
        present (entry (pageRemap m spc addr perm) spc b) = present (entry m spc b) ∧
        writable (entry (pageRemap m spc addr perm) spc b) = perm.getLsbD 1) ∧
    (∀ b, pageNum b ≠ pageNum addr →
      entry (pageMap m spc addr perm phys) spc b = entry m spc b ∧
        entry (pageUnmap m spc addr) spc b = entry m spc b ∧
        entry (pageRemap m spc addr perm) spc b = entry m spc b) ∧
    (entry m spc addr = 0 → pageUnmap (pageMap m spc addr perm phys) spc addr = m) ∧
    ∀ op a b c sp, OffTables m spc sp → Passed m sp spc addr op →
      ∃ m', run (code op) ⟨regs a b c sp, m⟩ = ⟨regs a b c sp, m'⟩ ∧
        ∀ x ∉ frame sp, m' x = pteUpdate op m spc addr x := by
  refine ⟨fun b hb => ?_, fun b hb => ?_, fun b hb => ?_, fun b hb => ?_,
    fun hzero => h.unmap_map hzero perm phys, fun op a b c sp hoff hargs => code_updates hoff hargs⟩
  · rw [entry_page hb, pageMap, h.entry_update]
    exact mapEntry_fields
  · rw [entry_page hb, pageUnmap, h.entry_update, PteOp.entry]
    decide
  · rw [entry_page hb, entry_page hb, pageRemap, h.entry_update]
    exact remapEntry_fields
  · exact ⟨h.entry_update_ne hb, h.entry_update_ne hb, h.entry_update_ne hb⟩

/-- The word `n` of a memory with an address space at 0, whose tables follow one another from
0x100000 on, and with the arguments of a call above 0x80000. -/
def sampleWord (n : ℕ) : BitVec 32 :=
  if 0x800 ≤ n ∧ n < 0xc00 then BitVec.ofNat 32 (0x100000 + 4096 * (n - 0x800))
  else if n = 0x20002 then 0x12345678
  else if n = 0x20003 then 2
  else if n = 0x20004 then 0x9000
  else 0

def sample : Memory := fun x => (sampleWord (x.toNat / 4)).extractLsb' (8 * (x.toNat % 4)) 8

theorem sample_pointers : ∀ i < 1024,
    tablePointer sample 0 i = BitVec.ofNat 32 (0x100000 + 4096 * i) := by
  decide +kernel

theorem sample_tables : Tables sample 0 := by
  constructor
  · intro i hi j hj hne
    rw [sample_pointers i hi, sample_pointers j hj, Set.disjoint_left]
    intro x hx hx'
    rw [mem_span] at hx hx'
    bv_omega
  · intro i hi
    rw [sample_pointers i hi, Set.disjoint_left]
    intro x hx hx'
    rw [mem_span] at hx hx'
    bv_omega

theorem sample_stack : OffTables sample 0 0x80000 := by
  constructor
  · rw [Set.disjoint_left]
    intro x hx hx'
    rw [frame, mem_span] at hx
    rw [mem_span] at hx'
    bv_omega
  · intro i hi
    rw [sample_pointers i hi, Set.disjoint_left]
    intro x hx hx'
    rw [frame, mem_span] at hx
    rw [mem_span] at hx'
    bv_omega

theorem page_tables_updated_sample :
    pageFrame (entry (pageMap sample 0 0x12345678 2 0x9000) 0 0x12345000) = 0x9000 ∧
    writable (entry (pageMap sample 0 0x12345678 2 0x9000) 0 0x12345000) = true ∧
    entry (pageMap sample 0 0x12345678 2 0x9000) 0 0x12346000 = entry sample 0 0x12346000 ∧
    pageUnmap (pageMap sample 0 0x12345678 2 0x9000) 0 0x12345678 = sample ∧
    ∃ m', run pageMapCode ⟨regs 1 2 3 0x80000, sample⟩ = ⟨regs 1 2 3 0x80000, m'⟩ ∧
      ∀ x ∉ frame 0x80000, m' x = pageMap sample 0 0x12345678 2 0x9000 x := by
  obtain ⟨hmap, -, -, hother, hrestore, hcode⟩ :=
    page_tables_updated sample_tables 0x12345678 2 0x9000
  obtain ⟨hframe, -, -, hwritable⟩ := hmap 0x12345000 (by decide)
  exact ⟨hframe, hwritable, (hother 0x12346000 (by decide)).1, hrestore (by decide +kernel),
    hcode (.map 2 0x9000) 1 2 3 0x80000 sample_stack (by
      unfold Passed Further
      decide +kernel)⟩

end PageTableCode
