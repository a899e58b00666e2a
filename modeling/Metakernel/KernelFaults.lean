import Metakernel.PhysicalMemory
import Metakernel.VirtualMemory

/-!
# Faults in the kernel

`kern_page_fault` serves the kernel heap with pages of its own and passes the other faults below
the kernel on. What it does to the address spaces is kept as a list of actions.
-/
namespace VirtualMemory

open PhysicalPages
open PhysicalMemory (Setup Memory Colors anonPageCreate physPageFetch)

/-- The variables `kern_heap_start`, `kern_heap_end` and `kern_addr_start`. -/
structure KernRange where
  heapStart : BitVec 32
  heapEnd : BitVec 32
  addrStart : BitVec 32

inductive KernAction where
  | kernPageMap (addr perm phys : BitVec 32)
  | vmPageFault (addr access : BitVec 32)
  deriving DecidableEq

def KernRange.InHeap (r : KernRange) (addr : BitVec 32) : Prop :=
  r.heapStart ≤ addr ∧ addr < r.heapEnd

variable {ι ν C : Type*} [DecidableEq ν] [Fintype ν] (S : Setup ι C)

/-- `id` and `x` are what `rand` and `malloc` give, `out` is what the fetch returns if it assigns
nothing. -/
def kernPageFault (r : KernRange) (s : Memory ν C) (ct : Colors) (addr access id : BitVec 32)
    (x : ν) (out : BitVec 32) : Option (Memory ν C × List KernAction) :=
  if r.heapStart > addr ∧ r.heapEnd < addr then
    (anonPageCreate S s .kern ct id x).bind fun (s, ct, _) =>
      (physPageFetch S s .kern ct out).map fun (s, _, phys) =>
        let p := invPageLookup phys
        let inv := Function.update s.alloc.inv p { s.alloc.inv p with type := .kernel }
        ({ s with alloc := { s.alloc with inv := inv } }, [.kernPageMap (pageAddr addr) 7 phys])
  else if r.addrStart > addr then some (s, [.vmPageFault addr access])
  else some (s, [])

section Served

variable {S} {r : KernRange} {s s' : Memory ν C} {ct ct' : Colors} {addr access id out : BitVec 32}
  {x : ν}

def ServesFault (S : Setup ι C) (r : KernRange) (s : Memory ν C) (ct : Colors)
    (addr access id : BitVec 32) (x : ν) (out : BitVec 32) : Prop :=
  ∃ s' acts, kernPageFault S r s ct addr access id x out = some (s', acts) ∧
    ((∃ s₁ ct₁, anonPageCreate S s .kern ct id x = some (s₁, ct₁, id) ∧
      .kernPageMap (pageAddr addr) 7 (s₁.anon x).addr ∈ acts) ↔ r.InHeap addr) ∧
    (.vmPageFault addr access ∈ acts ↔ addr < r.addrStart ∧ ¬ r.InHeap addr)

theorem kernPageFault_eq (hle : r.heapStart ≤ r.heapEnd) :
    kernPageFault S r s ct addr access id x out =
      some (s, if addr < r.addrStart then [.vmPageFault addr access] else []) := by
  have hout : ¬ (r.heapStart > addr ∧ r.heapEnd < addr) := by
    rintro ⟨hlow, hhigh⟩
    rw [gt_iff_lt, BitVec.lt_def] at *
    rw [BitVec.le_def] at hle
    omega
  rw [kernPageFault, if_neg hout]
  split <;> rfl

theorem heap_fault_not_served (hle : r.heapStart ≤ r.heapEnd) (hin : r.InHeap addr) :
    ¬ ServesFault S r s ct addr access id x out := by
  rintro ⟨s', acts, hrun, hmap, -⟩
  rw [kernPageFault_eq hle, Option.some.injEq, Prod.mk.injEq] at hrun
  obtain ⟨s₁, ct₁, -, hmem⟩ := hmap.mpr hin
  rw [← hrun.2] at hmem
  split at hmem <;> simp at hmem

/-- The heap is never recognised, so exactly the faults outside of it are served. -/
theorem kern_fault_served_iff (hle : r.heapStart ≤ r.heapEnd) :
    ServesFault S r s ct addr access id x out ↔ ¬ r.InHeap addr := by
  constructor
  · intro hserves hin
    exact heap_fault_not_served hle hin hserves
  · intro hout
    refine ⟨s, _, kernPageFault_eq hle, ?_, ?_⟩
    · refine ⟨fun ⟨s₁, ct₁, _, hmem⟩ => ?_, fun hin => absurd hin hout⟩
      split at hmem <;> simp at hmem
    · by_cases hbelow : addr < r.addrStart <;> simp [hbelow, hout]

/-- A fault that passes the test maps what the fetch returns, and for a kernel page the fetch
assigns nothing: the page that was recorded is not the one that is mapped. -/
theorem kern_fault_maps_unassigned {acts : List KernAction} (hlow : addr < r.heapStart)
    (hhigh : r.heapEnd < addr)
    (hrun : kernPageFault S r s ct addr access id x out = some (s', acts)) :
    acts = [.kernPageMap (pageAddr addr) 7 out] := by
  rw [kernPageFault, if_pos ⟨hlow, hhigh⟩] at hrun
  obtain ⟨⟨s₁, ct₁, page⟩, -, hmap⟩ := Option.bind_eq_some_iff.mp hrun
  obtain ⟨⟨s₂, ct₂, phys⟩, hfetch, heq⟩ := Option.map_eq_some_iff.mp hmap
  have hphys : phys = out := by
    rw [physPageFetch] at hfetch
    split at hfetch
    · cases hfetch
    · rw [Option.some.injEq, Prod.mk.injEq, Prod.mk.injEq] at hfetch
      exact hfetch.2.2.symm
  rw [← (Prod.mk.inj heq).2, hphys]

end Served

def highKernel : KernRange := ⟨0xd0000000, 0xd1000000, 0xc0000000⟩

theorem kern_fault_served_user : ServesFault PhysicalMemory.twoInodes highKernel
    (PhysicalMemory.stocked [0x1000]).mem PhysicalMemory.oneColor 0x8000000 1 5 0 0 :=
  (kern_fault_served_iff (by decide)).mpr (by simp only [KernRange.InHeap]; decide)

theorem heap_fault_ignored : PhysicalMemory.Allocates PhysicalMemory.twoInodes
      (PhysicalMemory.stocked [0x1000]).mem PhysicalMemory.oneColor .kern ∧
    ¬ ServesFault PhysicalMemory.twoInodes highKernel (PhysicalMemory.stocked [0x1000]).mem
      PhysicalMemory.oneColor 0xd0000000 2 5 0 0 :=
  ⟨by decide +kernel, heap_fault_not_served (by decide) (by simp only [KernRange.InHeap]; decide)⟩

end VirtualMemory
