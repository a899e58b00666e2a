import Mathlib.Data.BitVec
import Mathlib.Tactic.IntervalCases
import Metakernel.GuardedRuns

/-!
# Page tables and the TLB in ia_32_virt_mem.s

An address space holds the addresses of its page tables at `spc + 0x2000`. The TLB keeps the entry
of a page from the first access on, until `invlpg` removes it.
-/
namespace PageTables

open GuardedRuns

def pageNum (addr : BitVec 32) : BitVec 32 := addr >>> 12

def tableOffset (addr : BitVec 32) : BitVec 32 := addr >>> 20 &&& 0xffc

def entryOffset (addr : BitVec 32) : BitVec 32 := addr >>> 10 &&& 0xffc

abbrev Entries := BitVec 32 → BitVec 32 → BitVec 32

def Entries.get (t : Entries) (addr : BitVec 32) : BitVec 32 :=
  t (tableOffset addr) (entryOffset addr)

def Entries.set (t : Entries) (addr e : BitVec 32) : Entries :=
  Function.update t (tableOffset addr)
    (Function.update (t (tableOffset addr)) (entryOffset addr) e)

inductive PteOp where
  | map (perm phys : BitVec 32)
  | unmap
  | remap (perm : BitVec 32)
  deriving DecidableEq, Repr

def mapEntry (perm phys : BitVec 32) : BitVec 32 := phys &&& 0xfffff000 ||| perm &&& 2 ||| 5

/-- The entry that is written over the entry `old`. -/
def PteOp.entry (old : BitVec 32) : PteOp → BitVec 32
  | .map perm phys => mapEntry perm phys
  | .unmap => 0
  | .remap perm => old &&& 0xfffffffd ||| perm &&& 2

def pageMap (t : Entries) (addr perm phys : BitVec 32) : Entries :=
  t.set addr (PteOp.entry (t.get addr) (.map perm phys))

def pageUnmap (t : Entries) (addr : BitVec 32) : Entries :=
  t.set addr (PteOp.entry (t.get addr) .unmap)

def pageRemap (t : Entries) (addr perm : BitVec 32) : Entries :=
  t.set addr (PteOp.entry (t.get addr) (.remap perm))

section Offsets

variable {a b e : BitVec 32} {t : Entries}

theorem tableOffset_pageNum (a : BitVec 32) : tableOffset a = pageNum a >>> 8 &&& 0xffc := by
  apply BitVec.eq_of_getLsbD_eq
  intro i hi
  simp [tableOffset, pageNum]

theorem entryOffset_pageNum (a : BitVec 32) : entryOffset a = pageNum a <<< 2 &&& 0xffc := by
  apply BitVec.eq_of_getLsbD_eq
  intro i hi
  interval_cases i <;> simp [entryOffset, pageNum]

theorem pageNum_offsets (a : BitVec 32) :
    pageNum a = tableOffset a <<< 8 ||| entryOffset a >>> 2 := by
  apply BitVec.eq_of_getLsbD_eq
  intro i hi
  interval_cases i <;> simp [entryOffset, tableOffset, pageNum]

theorem Entries.get_page (t : Entries) (h : pageNum a = pageNum b) : t.get a = t.get b := by
  rw [Entries.get, Entries.get, tableOffset_pageNum, entryOffset_pageNum, h, ← tableOffset_pageNum,
    ← entryOffset_pageNum]

theorem Entries.get_set (t : Entries) (a e : BitVec 32) : (t.set a e).get a = e := by
  rw [Entries.get, Entries.set, Function.update_self, Function.update_self]

theorem Entries.get_set_ne (t : Entries) (e : BitVec 32) (h : pageNum b ≠ pageNum a) :
    (t.set a e).get b = t.get b := by
  rw [Entries.get, Entries.set]
  by_cases htab : tableOffset b = tableOffset a
  · rw [htab, Function.update_self]
    have hent : entryOffset b ≠ entryOffset a := by
      intro hent
      rw [pageNum_offsets, pageNum_offsets, htab, hent] at h
      exact h rfl
    rw [Function.update_of_ne hent, Entries.get, htab]
  · rw [Function.update_of_ne htab, Entries.get]

end Offsets

/-- `spc` is the address of the current address space, `tables` the words at `spc + 0x2000` by
their byte offset. -/
structure Machine where
  spc : BitVec 32
  tables : BitVec 32 → BitVec 32
  entries : Entries
  tlb : BitVec 32 → Option (BitVec 32)

def present (e : BitVec 32) : Bool := e.getLsbD 0

def Machine.touch (s : Machine) (addr : BitVec 32) : Machine :=
  if s.tlb (pageNum addr) = none ∧ present (s.entries.get addr) then
    { s with tlb := Function.update s.tlb (pageNum addr) (some (s.entries.get addr)) }
  else s

def Machine.touchAll (s : Machine) (addrs : List (BitVec 32)) : Machine :=
  addrs.foldl Machine.touch s

def Machine.invlpg (s : Machine) (addr : BitVec 32) : Machine :=
  { s with tlb := Function.update s.tlb (pageNum addr) none }

/-- A call of `page_map`, `page_unmap` or `page_remap`; `esp` is the stack pointer on entry. -/
structure PteCall where
  op : PteOp
  addr : BitVec 32
  esp : BitVec 32
  deriving DecidableEq, Repr

/-- The address of the word that holds the address of the page table. -/
def Machine.tableWord (s : Machine) (addr : BitVec 32) : BitVec 32 :=
  s.spc + 0x2000 + tableOffset addr

def Machine.entryWord (s : Machine) (addr : BitVec 32) : BitVec 32 :=
  entryOffset addr + s.tables (tableOffset addr)

/-- The registers that are saved and the arguments that are read before `invlpg`. -/
def PteCall.before (c : PteCall) : List (BitVec 32) :=
  [c.esp - 4, c.esp - 8, c.esp - 12, c.esp + 4, c.esp + 8]

/-- The accesses after `invlpg`, up to the write of the entry. -/
def Machine.between (s : Machine) (c : PteCall) : List (BitVec 32) :=
  s.tableWord c.addr :: match c.op with
    | .map _ _ => [c.esp + 16, c.esp + 12, s.entryWord c.addr]
    | .unmap => [s.entryWord c.addr]
    | .remap _ => [c.esp + 12, s.entryWord c.addr]

def PteCall.after (c : PteCall) : List (BitVec 32) := [c.esp - 12, c.esp - 8, c.esp - 4, c.esp]

def Machine.write (s : Machine) (c : PteCall) : Machine :=
  { s with entries := s.entries.set c.addr (c.op.entry (s.entries.get c.addr)) }

/-- The operand of `invlpg` is the address of the address space. -/
def Machine.call (s : Machine) (c : PteCall) : Machine :=
  let s := (s.touchAll c.before).invlpg s.spc
  let s := (s.touchAll (s.between c)).write c
  s.touchAll c.after

inductive MemEvent where
  | access (addr : BitVec 32)
  | call (c : PteCall)

def memStep (s : Machine) : MemEvent → Option Machine
  | .access addr => some (s.touch addr)
  | .call c => some (s.call c)

def Coherent (s : Machine) (addr : BitVec 32) : Prop :=
  ∀ e, s.tlb (pageNum addr) = some e → e = s.entries.get addr

def Unchanged (s : Machine) (c : PteCall) : Prop :=
  present (s.entries.get c.addr) → c.op.entry (s.entries.get c.addr) = s.entries.get c.addr

/-- The TLB has the page no more when the entry is written: the page is the one of the address
space itself, or it was not loaded before, and the call has not loaded it either. -/
def Flushed (s : Machine) (c : PteCall) : Prop :=
  if pageNum c.addr = pageNum s.spc then
    pageNum c.addr ∈ (s.between c).map pageNum → Unchanged s c
  else match s.tlb (pageNum c.addr) with
    | some e => e = c.op.entry (s.entries.get c.addr)
    | none => pageNum c.addr ∈ (c.before ++ s.between c).map pageNum → Unchanged s c

section Machine

variable {s : Machine} {c : PteCall} {a b : BitVec 32} {l : List (BitVec 32)}

theorem touchAll_kept (s : Machine) (l : List (BitVec 32)) :
    (s.touchAll l).spc = s.spc ∧ (s.touchAll l).tables = s.tables ∧
      (s.touchAll l).entries = s.entries := by
  induction l generalizing s with
  | nil => exact ⟨rfl, rfl, rfl⟩
  | cons a l ih =>
    obtain ⟨hspc, htables, hentries⟩ := ih (s.touch a)
    have htouch : (s.touch a).spc = s.spc ∧ (s.touch a).tables = s.tables ∧
        (s.touch a).entries = s.entries := by
      rw [Machine.touch]
      split <;> exact ⟨rfl, rfl, rfl⟩
    exact ⟨hspc.trans htouch.1, htables.trans htouch.2.1, hentries.trans htouch.2.2⟩

theorem touch_tlb (s : Machine) (a b : BitVec 32) :
    (s.touch a).tlb (pageNum b) =
      if s.tlb (pageNum b) = none ∧ pageNum b = pageNum a ∧ present (s.entries.get b) then
        some (s.entries.get b)
      else s.tlb (pageNum b) := by
  rw [Machine.touch]
  by_cases hab : pageNum b = pageNum a
  · rw [hab, s.entries.get_page hab]
    split <;> simp_all
  · split <;> simp [hab]

/-- The accesses load the entry of a page that was not loaded before. -/
theorem touchAll_tlb (s : Machine) (l : List (BitVec 32)) (b : BitVec 32) :
    (s.touchAll l).tlb (pageNum b) =
      if s.tlb (pageNum b) = none ∧ pageNum b ∈ l.map pageNum ∧ present (s.entries.get b) then
        some (s.entries.get b)
      else s.tlb (pageNum b) := by
  induction l generalizing s with
  | nil => simp [Machine.touchAll]
  | cons a l ih =>
    have hentries : (s.touch a).entries = s.entries := (touchAll_kept s [a]).2.2
    have hall : s.touchAll (a :: l) = (s.touch a).touchAll l := rfl
    rw [hall, ih, hentries, touch_tlb]
    by_cases hnone : s.tlb (pageNum b) = none
    · by_cases hab : pageNum b = pageNum a
      · rw [hab] at hnone ⊢
        by_cases hp : present (s.entries.get b) <;> simp [hnone, hp]
      · simp [hnone, hab]
    · simp [hnone]

def Machine.ready (s : Machine) (c : PteCall) : Machine :=
  ((s.touchAll c.before).invlpg s.spc).touchAll (s.between c)

theorem ready_kept (s : Machine) (c : PteCall) :
    (s.ready c).spc = s.spc ∧ (s.ready c).tables = s.tables ∧ (s.ready c).entries = s.entries := by
  obtain ⟨hspc, htables, hentries⟩ := touchAll_kept ((s.touchAll c.before).invlpg s.spc) (s.between c)
  obtain ⟨hspc', htables', hentries'⟩ := touchAll_kept s c.before
  exact ⟨hspc.trans hspc', htables.trans htables', hentries.trans hentries'⟩

theorem between_congr {s s' : Machine} (hspc : s'.spc = s.spc) (htables : s'.tables = s.tables)
    (c : PteCall) : s'.between c = s.between c := by
  simp only [Machine.between, Machine.tableWord, Machine.entryWord, hspc, htables]

theorem call_eq (s : Machine) (c : PteCall) :
    s.call c = ((s.ready c).write c).touchAll c.after := by
  obtain ⟨hspc, htables, -⟩ := touchAll_kept s c.before
  have hbetween : ((s.touchAll c.before).invlpg s.spc).between c = s.between c :=
    between_congr hspc htables c
  simp only [Machine.call, Machine.ready, hbetween]

theorem ready_tlb (s : Machine) (c : PteCall) (b : BitVec 32) :
    (s.ready c).tlb (pageNum b) =
      if pageNum b = pageNum s.spc then
        if pageNum b ∈ (s.between c).map pageNum ∧ present (s.entries.get b) then
          some (s.entries.get b)
        else none
      else if s.tlb (pageNum b) = none ∧ pageNum b ∈ (c.before ++ s.between c).map pageNum ∧
          present (s.entries.get b) then some (s.entries.get b)
      else s.tlb (pageNum b) := by
  have hentries : ((s.touchAll c.before).invlpg s.spc).entries = s.entries :=
    (touchAll_kept s c.before).2.2
  rw [Machine.ready, touchAll_tlb, hentries]
  by_cases hspc : pageNum b = pageNum s.spc
  · simp [Machine.invlpg, hspc]
  · have hinv : ((s.touchAll c.before).invlpg s.spc).tlb (pageNum b) =
        (s.touchAll c.before).tlb (pageNum b) := Function.update_of_ne hspc _ _
    rw [hinv, touchAll_tlb, if_neg hspc]
    by_cases hnone : s.tlb (pageNum b) = none
    · by_cases hb : pageNum b ∈ c.before.map pageNum
      · by_cases hp : present (s.entries.get b) <;>
          simp only [hnone, hb, hp, List.map_append, List.mem_append] <;> simp
      · simp only [hnone, hb, List.map_append, List.mem_append]
        simp
    · simp only [hnone, false_and, if_false]

theorem call_tlb (s : Machine) (c : PteCall) (b : BitVec 32) :
    (s.call c).entries = (s.ready c).entries.set c.addr
        (c.op.entry (s.entries.get c.addr)) ∧
    (s.call c).tlb (pageNum b) =
      if (s.ready c).tlb (pageNum b) = none ∧ pageNum b ∈ c.after.map pageNum ∧
          present ((s.call c).entries.get b) then some ((s.call c).entries.get b)
      else (s.ready c).tlb (pageNum b) := by
  have hentries : (s.call c).entries = ((s.ready c).write c).entries := by
    rw [call_eq]
    exact (touchAll_kept _ _).2.2
  constructor
  · rw [hentries, Machine.write, (ready_kept s c).2.2]
  · rw [hentries, call_eq, touchAll_tlb]
    rfl

theorem coherent_call_iff (s : Machine) (c : PteCall) :
    Coherent (s.call c) c.addr ↔ ∀ e, (s.ready c).tlb (pageNum c.addr) = some e →
      e = c.op.entry (s.entries.get c.addr) := by
  obtain ⟨hentries, htlb⟩ := call_tlb s c c.addr
  have hget : (s.call c).entries.get c.addr = c.op.entry (s.entries.get c.addr) := by
    rw [hentries, Entries.get_set]
  rw [Coherent, htlb, hget]
  split
  · rename_i hnone
    rw [hnone.1]
    simp
  · rfl

/-- The call is coherent exactly when the TLB has no old entry of the page left. -/
theorem coherent_call_iff_flushed (s : Machine) (c : PteCall) :
    Coherent (s.call c) c.addr ↔ Flushed s c := by
  rw [coherent_call_iff, ready_tlb, Flushed]
  by_cases hspc : pageNum c.addr = pageNum s.spc
  · rw [if_pos hspc, if_pos hspc]
    by_cases hb : pageNum c.addr ∈ (s.between c).map pageNum
    · by_cases hp : present (s.entries.get c.addr) <;> simp only [hb, hp] <;>
        simp [hp, Unchanged, eq_comm]
    · simp only [hb, false_and, if_false, false_imp_iff, iff_true]
      intro e he
      cases he
  · rw [if_neg hspc, if_neg hspc]
    cases htlb : s.tlb (pageNum c.addr) with
    | some e => simp
    | none =>
      by_cases hb : pageNum c.addr ∈ (c.before ++ s.between c).map pageNum
      · by_cases hp : present (s.entries.get c.addr) <;> simp only [hb, hp] <;>
          simp [hp, Unchanged, eq_comm]
      · simp only [hb, false_and, and_false, if_false, false_imp_iff, iff_true]
        intro e he
        cases he

theorem coherent_touch (h : ∀ b, Coherent s b) (a : BitVec 32) : ∀ b, Coherent (s.touch a) b := by
  intro b e he
  have hentries : (s.touch a).entries = s.entries := (touchAll_kept s [a]).2.2
  rw [touch_tlb] at he
  rw [hentries]
  split at he
  · exact (Option.some_inj.mp he).symm
  · exact h b e he

theorem coherent_call (h : ∀ b, Coherent s b) (hf : Flushed s c) : ∀ b, Coherent (s.call c) b := by
  intro b
  by_cases hb : pageNum b = pageNum c.addr
  · have haddr := (coherent_call_iff_flushed s c).mpr hf
    rwa [Coherent, ← hb, ← Entries.get_page _ hb] at haddr
  · obtain ⟨hentries, htlb⟩ := call_tlb s c b
    have hget : (s.call c).entries.get b = s.entries.get b := by
      rw [hentries, Entries.get_set_ne _ _ hb, (ready_kept s c).2.2]
    intro e he
    rw [htlb, hget] at he
    rw [hget]
    split at he
    · exact (Option.some_inj.mp he).symm
    · rw [ready_tlb] at he
      split at he
      · split at he
        · exact (Option.some_inj.mp he).symm
        · cases he
      · split at he
        · exact (Option.some_inj.mp he).symm
        · exact h b e he

def FlushedCall (s : Machine) : MemEvent → Prop
  | .access _ => True
  | .call c => Flushed s c

/-- As long as every call finds its page flushed, the TLB agrees with the page tables; a call of
which this cannot be said leaves the old entry of its page in the TLB. -/
theorem tlb_coherent {s₀ : Machine} (h₀ : ∀ b, Coherent s₀ b)
    (hrun : Execution memStep FlushedCall s₀ s) :
    (∀ b, Coherent s b) ∧ ∀ c, Coherent (s.call c) c.addr ↔ Flushed s c := by
  refine ⟨?_, coherent_call_iff_flushed s⟩
  refine hrun.preserves (I := fun s => ∀ b, Coherent s b) ?_ h₀
  intro s e s' h hg hstep
  cases e with
  | access a =>
    cases hstep
    exact coherent_touch h a
  | call c =>
    cases hstep
    exact coherent_call h hg

end Machine

instance (s : Machine) (a : BitVec 32) : Decidable (Coherent s a) :=
  decidable_of_iff ((s.tlb (pageNum a)).all fun e => e = s.entries.get a) (by
    cases h : s.tlb (pageNum a) <;> simp [Coherent, h])

instance (s : Machine) (c : PteCall) : Decidable (Flushed s c) :=
  decidable_of_iff _ (coherent_call_iff_flushed s c)

instance (s : Machine) (e : MemEvent) : Decidable (FlushedCall s e) := by
  cases e <;> unfold FlushedCall <;> infer_instance

def bareMachine : Machine where
  spc := 0xc0400000
  tables _ := 0xc0800000
  entries _ _ := 0
  tlb _ := none

/-- A page is mapped, accessed and accessed again while another page is mapped. -/
theorem tlb_coherent_two_pages : ∃ s, Execution memStep FlushedCall bareMachine s ∧
    s.tlb 1 = some 0x5007 ∧ s.entries.get 0x2000 = 0x6005 ∧ (∀ b, Coherent s b) ∧
    ∀ c, Coherent (s.call c) c.addr ↔ Flushed s c := by
  have hrun : (follow memStep FlushedCall bareMachine
      [.call ⟨.map 2 0x5000, 0x1000, 0xc0001000⟩, .access 0x1004,
        .call ⟨.map 0 0x6000, 0x2000, 0xc0001000⟩, .access 0x1008]).map
      (fun s => decide (s.tlb 1 = some 0x5007 ∧ s.entries.get 0x2000 = 0x6005)) = some true := by
    decide +kernel
  obtain ⟨s, hs, hd⟩ := Option.map_eq_some_iff.mp hrun
  obtain ⟨htlb, hentry⟩ := of_decide_eq_true hd
  have hexec := execution_of_follow hs
  have hstart : ∀ b, Coherent bareMachine b := by
    intro b e he
    cases he
  exact ⟨s, hexec, htlb, hentry, tlb_coherent hstart hexec⟩

/-- A page that was accessed before keeps its translation when it is unmapped. -/
theorem unmapped_page_cached : ∃ s c, Execution memStep (fun _ _ => True) bareMachine s ∧
    (s.call c).entries.get c.addr = 0 ∧ (s.call c).tlb (pageNum c.addr) = some 0x5007 ∧
    ¬ Coherent (s.call c) c.addr := by
  have hrun : (follow memStep (fun _ _ => True) bareMachine
      [.call ⟨.map 2 0x5000, 0x1000, 0xc0001000⟩, .access 0x1004]).map
      (fun s => decide ((s.call ⟨.unmap, 0x1000, 0xc0001000⟩).entries.get 0x1000 = 0 ∧
        (s.call ⟨.unmap, 0x1000, 0xc0001000⟩).tlb (pageNum 0x1000) = some 0x5007 ∧
        ¬ Coherent (s.call ⟨.unmap, 0x1000, 0xc0001000⟩) 0x1000)) = some true := by
    decide +kernel
  obtain ⟨s, hs, hd⟩ := Option.map_eq_some_iff.mp hrun
  exact ⟨s, _, execution_of_follow hs, of_decide_eq_true hd⟩

end PageTables
