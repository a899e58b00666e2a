import Metakernel.KernelHeapCalls

/-!
# Runs of the kernel heap

A session is a heap with the blocks its callers hold. Callers allocate, free what they hold
with the size they were told, and write into what they hold, in any order.
-/
namespace KernelHeap

open ByteMemory DyadicBlocks

structure Session where
  heap : Heap
  live : List Block

inductive Call where
  | malloc (size priority : ℕ)
  | free (b : Block)
  | store (a : ℕ) (v : UInt8)

def Enabled (s : Session) : Call → Prop
  | .malloc size _ => 2 ≤ size ∧ size ≤ 2147483648
  | .free b => b ∈ s.live
  | .store a _ => ∃ b ∈ s.live, b.covers a

def next (s : Session) : Call → Option Session
  | .malloc size priority => do
    let (heap, out, size) ← kernMalloc s.heap size priority
    some { heap := heap, live := if out = 0 then s.live else ⟨out, size⟩ :: s.live }
  | .free b => do
    let heap ← kernFree s.heap b.addr b.size
    some { heap := heap, live := s.live.erase b }
  | .store a v => some { s with heap := { s.heap with mem := Function.update s.heap.mem a v } }

inductive Step (s : Session) (call : Call) (t : Session) : Prop where
  | execute : Enabled s call → next s call = some t → Step s call t

inductive Execution : Session → Session → Prop where
  | refl (s) : Execution s s
  | tail {s t u call} : Execution s t → Step t call u → Execution s u

structure Owned (s : Session) (F : Finset Block) : Prop where
  rep : HeapRep s.heap F
  held : ∀ b ∈ s.live, Held b ∧ b.size ≤ largestBlock
  disjoint : s.live.Pairwise Block.Apart
  apart : ∀ b ∈ s.live, ∀ c ∈ F, b.Apart c

structure Partition (h₀ : Heap) (F₀ : Finset Block) (s : Session) (F : Finset Block) : Prop
    extends Owned s F where
  covers : ∀ x, Covers F x ∨ (∃ b ∈ s.live, b.covers x) ↔ Covers F₀ x
  count : wadd s.heap.heapFree (bytes F₀) = wadd h₀.heapFree (bytes F)
  noBuddies : NoBuddies largestBlock F₀ → NoBuddies largestBlock F

theorem Partition.initial {h₀ : Heap} {F₀ : Finset Block} (hr : HeapRep h₀ F₀) :
    Partition h₀ F₀ ⟨h₀, []⟩ F₀ where
  rep := hr
  held := by simp
  disjoint := List.Pairwise.nil
  apart := by simp
  covers := by simp
  count := rfl
  noBuddies := id

theorem apart_of_covers {F F' : Finset Block} (hF' : FreeSet F') {b c : Block} (hb : 0 < b.size)
    (hap : ∀ d ∈ F, b.Apart d) (hsub : ∀ x, Covers F' x → Covers F x) (hc : c ∈ F') :
    b.Apart c := by
  have hpos := (hF'.block c hc).bounds.1
  apply Block.apart_of_not_covers hb (by omega)
  intro x hx hcx
  obtain ⟨d, hd, hdx⟩ := hsub x ⟨c, hc, hcx⟩
  exact (hap d hd).not_covers hx hdx

theorem Partition.malloc {h₀ : Heap} {F₀ F F' : Finset Block} {s : Session} {h' : Heap}
    {b : Block} (hp : Partition h₀ F₀ s F) (hev : Evolves (Covers F) s.heap F h' F')
    (hal : Allocates F b F') : Partition h₀ F₀ ⟨h', b :: s.live⟩ F' := by
  have hbpos := hal.held.large
  refine ⟨⟨hev.rep, ?_, ?_, ?_⟩, ?_, ?_, fun h => hal.noBuddies (hp.noBuddies h)⟩
  · intro d hd
    rcases List.mem_cons.mp hd with rfl | hd
    · exact ⟨hal.held, hal.bounded⟩
    · exact hp.held d hd
  · refine List.pairwise_cons.mpr ⟨?_, hp.disjoint⟩
    intro d hd
    have hdpos := (hp.held d hd).1.large
    apply Block.apart_of_not_covers (by omega) (by omega)
    intro x hx hdx
    obtain ⟨c, hc, hcx⟩ := (hal.covers x).mpr (Or.inr hx)
    exact (hp.apart d hd c hc).not_covers hdx hcx
  · intro d hd c hc
    rcases List.mem_cons.mp hd with rfl | hd
    · exact hal.apart c hc
    · have hdpos := (hp.held d hd).1.large
      exact apart_of_covers hev.rep.toFreeSet (by omega) (hp.apart d hd)
        (fun x hx => (hal.covers x).mpr (Or.inl hx)) hc
  · intro x
    rw [← hp.covers x, hal.covers x]
    simp only [List.mem_cons, exists_eq_or_imp]
    tauto
  · exact wadd_trans hp.count hev.count

theorem Partition.free {h₀ : Heap} {F₀ F F' : Finset Block} {s : Session} {h' : Heap}
    {b : Block} (hp : Partition h₀ F₀ s F) (hb : b ∈ s.live) {R : ℕ → Prop}
    (hev : Evolves R s.heap F h' F') (hcov : ∀ x, Covers F' x ↔ Covers F x ∨ b.covers x)
    (hbud : NoBuddies largestBlock F → NoBuddies largestBlock F') :
    Partition h₀ F₀ ⟨h', s.live.erase b⟩ F' := by
  have hperm := List.perm_cons_erase hb
  have hpair : (b :: s.live.erase b).Pairwise Block.Apart :=
    hperm.pairwise_iff (fun h => h.symm) |>.mp hp.disjoint
  obtain ⟨hbap, hrest⟩ := List.pairwise_cons.mp hpair
  refine ⟨⟨hev.rep, ?_, hrest, ?_⟩, ?_, ?_, fun h => hbud (hp.noBuddies h)⟩
  · exact fun d hd => hp.held d (List.mem_of_mem_erase hd)
  · intro d hd c hc
    have hdl := List.mem_of_mem_erase hd
    have hdpos := (hp.held d hdl).1.large
    have hcpos := (hev.rep.block c hc).bounds.1
    apply Block.apart_of_not_covers (by omega) (by omega)
    intro x hx hcx
    rcases (hcov x).mp ⟨c, hc, hcx⟩ with ⟨e, he, hex⟩ | hbx
    · exact (hp.apart d hdl e he).not_covers hx hex
    · exact (hbap d hd).not_covers hbx hx
  · intro x
    rw [← hp.covers x, hcov x]
    have hmem : (∃ d ∈ s.live, d.covers x) ↔ b.covers x ∨ ∃ d ∈ s.live.erase b, d.covers x := by
      simp only [hperm.mem_iff, List.mem_cons, exists_eq_or_imp]
    rw [hmem]
    tauto
  · exact wadd_trans hp.count hev.count

theorem Partition.store {h₀ : Heap} {F₀ F : Finset Block} {s : Session} {b : Block} {a : ℕ}
    (hp : Partition h₀ F₀ s F) (hb : b ∈ s.live) (ha : b.covers a) (v : UInt8) :
    Partition h₀ F₀ { s with heap := { s.heap with mem := Function.update s.heap.mem a v } } F := by
  refine ⟨⟨hp.rep.congr_mem ?_, hp.held, hp.disjoint, hp.apart⟩, hp.covers, hp.count, hp.noBuddies⟩
  intro x hx
  apply Function.update_of_ne
  rintro rfl
  obtain ⟨c, hc, hcx⟩ := hx
  exact (hp.apart b hb c hc).not_covers ha hcx

theorem step_preserves_partition {h₀ : Heap} {F₀ F : Finset Block} {s : Session} {call : Call}
    (hp : Partition h₀ F₀ s F) (he : Enabled s call) :
    ∃ t F', next s call = some t ∧ Partition h₀ F₀ t F' := by
  cases call with
  | malloc size priority =>
    rcases kernMalloc_spec hp.rep he.1 he.2 priority with hnull | ⟨h', out, F', heq, hev, hal⟩
    · refine ⟨s, F, ?_, hp⟩
      simp only [next, hnull, Option.bind_eq_bind, Option.bind_some, if_true]
    · refine ⟨_, F', ?_, hp.malloc hev hal⟩
      have hne : out ≠ 0 := Nat.pos_iff_ne_zero.mp hal.held.pos
      simp only [next, heq, Option.bind_eq_bind, Option.bind_some, if_neg hne]
  | free b =>
    obtain ⟨hheld, htop⟩ := hp.held b he
    obtain ⟨h', F', heq, hev, hcov, hbud⟩ := kernFree_spec (R := fun _ => True) hp.rep hheld htop
      (hp.apart b he) (fun _ _ => trivial)
    refine ⟨_, F', ?_, hp.free he hev hcov hbud⟩
    simp only [next, heq, Option.bind_eq_bind, Option.bind_some]
  | store a v =>
    obtain ⟨b, hb, ha⟩ := he
    exact ⟨_, F, rfl, hp.store hb ha v⟩

theorem execution_partition {h₀ : Heap} {F₀ : Finset Block} (hr : HeapRep h₀ F₀) {s : Session}
    (h : Execution ⟨h₀, []⟩ s) : ∃ F, Partition h₀ F₀ s F := by
  induction h with
  | refl => exact ⟨F₀, Partition.initial hr⟩
  | tail _ hstep ih =>
    obtain ⟨F, hp⟩ := ih
    obtain ⟨he, hn⟩ := hstep
    obtain ⟨u, F', heq, hp'⟩ := step_preserves_partition hp he
    rw [heq, Option.some.injEq] at hn
    exact ⟨F', hn ▸ hp'⟩

/-- The block at 0x100000, of the largest size, linked to itself. -/
def oneBlockHeap : Heap where
  mem x := if x = 0x100002 ∨ x = 0x100006 ∨ x = 0x10000e then 0x10 else 0
  highList := 16
  blockLists k := if k = 16 then 0x100000 else 0
  hashTable i := if i = 16 then 0x100000 else 0
  heapFree := 0x100000

def oneBlock : Block := ⟨0x100000, 0x100000⟩

theorem oneBlock_free : FreeBlock oneBlock :=
  ⟨20, by norm_num, le_refl _, rfl, by norm_num [oneBlock], by norm_num [oneBlock],
    by norm_num [oneBlock]⟩

theorem oneBlockHeap_rep : HeapRep oneBlockHeap {oneBlock} := by
  have hstarts : ∀ a, Starts {oneBlock} a ↔ a = 0x100000 := by
    intro a
    simp only [Starts, Finset.mem_singleton, oneBlock, Block.mk.injEq]
    exact ⟨fun ⟨_, h, _⟩ => h, fun h => ⟨_, h, rfl⟩⟩
  refine ⟨⟨?_, ?_⟩, rfl, by norm_num [oneBlockHeap], ?_, ?_, ?_⟩
  · intro b hb
    rw [Finset.mem_singleton.mp hb]
    exact oneBlock_free
  · intro b hb c hc hne
    rw [Finset.mem_singleton] at hb hc
    exact absurd (hb.trans hc.symm) hne
  · intro b hb
    rw [Finset.mem_singleton.mp hb]
    decide
  · intro k hk
    by_cases hk16 : k = 16
    · subst hk16
      refine ⟨[0x100000], DataStructures.ring_singleton oneBlock_free.node (by decide)
        (by decide), rfl, ?_⟩
      intro a
      rw [List.mem_singleton, Finset.mem_singleton, oneBlock, Block.mk.injEq]
      norm_num
    · refine ⟨[], LinkedNodes.ring_nil _, by simp [oneBlockHeap, hk16], ?_⟩
      intro a
      rw [Finset.mem_singleton, oneBlock, Block.mk.injEq]
      simp only [List.not_mem_nil, false_iff, not_and]
      intro _ hpow
      have : 2 ^ (k + 4) = 2 ^ 20 := by rw [hpow]; norm_num
      have := Nat.pow_right_injective (le_refl 2) this
      omega
  · intro i hi
    have hindex : hashIndex 0x100000 = 16 := by rw [hashIndex_eq (by norm_num)]
    by_cases hi16 : i = 16
    · subst hi16
      have hlink : nodeHashNext.get oneBlockHeap.mem 0x100000 = 0 := by decide
      refine ⟨[0x100000], ⟨rfl, by norm_num, hlink⟩, List.nodup_singleton _, ?_⟩
      intro a
      rw [List.mem_singleton, hstarts]
      exact ⟨fun h => ⟨h, h ▸ hindex⟩, fun h => h.1⟩
    · refine ⟨[], by simp [LinkedNodes.Chain, oneBlockHeap, hi16], List.nodup_nil, ?_⟩
      intro a
      rw [hstarts]
      simp only [List.not_mem_nil, false_iff, not_and]
      rintro rfl hidx
      exact hi16 (hidx.symm.trans hindex)

theorem oneBlockHeap_given_back : ∃ s t, Step ⟨oneBlockHeap, []⟩ (.malloc 100 1) s ∧
    s.live = [⟨0x100000, 112⟩] ∧ Step s (.free ⟨0x100000, 112⟩) t ∧ t.live = [] := by
  have hblock : (kernMalloc oneBlockHeap 100 1).map (fun r => r.2) = some (0x100000, 112) := by
    decide +kernel
  obtain ⟨⟨h, out, n⟩, hrun, hout⟩ := Option.map_eq_some_iff.mp hblock
  obtain ⟨rfl, rfl⟩ := Prod.mk.inj hout
  have he : Enabled ⟨oneBlockHeap, []⟩ (.malloc 100 1) := ⟨by norm_num, by norm_num⟩
  have hnext : next ⟨oneBlockHeap, []⟩ (.malloc 100 1) = some ⟨h, [⟨0x100000, 112⟩]⟩ := by
    simp [next, hrun]
  obtain ⟨s, F, hs, hp⟩ := step_preserves_partition (Partition.initial oneBlockHeap_rep) he
  obtain rfl := Option.some.inj (hs.symm.trans hnext)
  have hfree : Enabled ⟨h, [⟨0x100000, 112⟩]⟩ (.free ⟨0x100000, 112⟩) := List.mem_singleton_self _
  obtain ⟨t, -, ht, -⟩ := step_preserves_partition hp hfree
  refine ⟨_, t, ⟨he, hnext⟩, rfl, ⟨hfree, ht⟩, ?_⟩
  simp only [next, Option.bind_eq_bind, Option.bind_eq_some_iff, Option.some.injEq] at ht
  obtain ⟨h', -, rfl⟩ := ht
  simp only [List.erase_cons_head]

/-- The heap is partitioned into free and live blocks after every call, and every call
returns. -/
theorem heap_partition {h₀ : Heap} {F₀ : Finset Block} (hr : HeapRep h₀ F₀) {s : Session}
    (hs : Execution ⟨h₀, []⟩ s) :
    ∃ F, HeapRep s.heap F ∧ s.live.Pairwise Block.Apart ∧
      (∀ b ∈ s.live, ∀ c ∈ F, b.Apart c) ∧
      (∀ x, Covers F x ∨ (∃ b ∈ s.live, b.covers x) ↔ Covers F₀ x) ∧
      wsub s.heap.heapFree (bytes F) = wsub h₀.heapFree (bytes F₀) ∧
      (∀ call, Enabled s call → ∃ t, next s call = some t) ∧
      ∀ size priority, 2 ≤ size → size ≤ 2147483648 → ∃ h' out n,
        kernMalloc s.heap size priority = some (h', out, n) ∧
        (out ≠ 0 → n = (size + 15) / 16 * 16) := by
  obtain ⟨F, hp⟩ := execution_partition hr hs
  refine ⟨F, hp.rep, hp.disjoint, hp.apart, hp.covers, ?_, ?_, ?_⟩
  · have hcount := hp.count
    have h₁ := hp.rep.counter
    have h₂ := hr.counter
    unfold wadd at hcount
    unfold wsub
    omega
  · intro call he
    obtain ⟨t, _, heq, _⟩ := step_preserves_partition hp he
    exact ⟨t, heq⟩
  · intro size priority hmin hmax
    rcases kernMalloc_spec hp.rep hmin hmax priority with hnull | ⟨h', out, _, heq, _⟩
    · exact ⟨_, 0, size, hnull, fun h => absurd rfl h⟩
    · exact ⟨h', out, _, heq, fun _ => rfl⟩

theorem heap_partition_oneBlock : ∃ s t, Step ⟨oneBlockHeap, []⟩ (.malloc 100 1) s ∧
    Step s (.free ⟨0x100000, 112⟩) t ∧ t.live = [] ∧
    ∃ F, HeapRep t.heap F ∧ ∀ x, Covers F x ↔ Covers {oneBlock} x := by
  obtain ⟨s, t, hmalloc, -, hfree, hlive⟩ := oneBlockHeap_given_back
  obtain ⟨F, hrep, -, -, hcovers, -⟩ :=
    heap_partition oneBlockHeap_rep (((Execution.refl _).tail hmalloc).tail hfree)
  refine ⟨s, t, hmalloc, hfree, hlive, F, hrep, fun x => ?_⟩
  simpa [hlive] using hcovers x

/-- Coalescing is complete: no run leaves a pair of free buddies, so giving everything back
restores the free set and the counter. -/
theorem heap_restored {h₀ : Heap} {F₀ : Finset Block} (hr : HeapRep h₀ F₀)
    (hn : NoBuddies largestBlock F₀) {s : Session} (hs : Execution ⟨h₀, []⟩ s) :
    ∃ F, HeapRep s.heap F ∧ NoBuddies largestBlock F ∧
      (s.live = [] → F = F₀ ∧ s.heap.heapFree = h₀.heapFree) := by
  obtain ⟨F, hp⟩ := execution_partition hr hs
  refine ⟨F, hp.rep, hp.noBuddies hn, ?_⟩
  intro hlive
  have hcov : ∀ x, Covers F x ↔ Covers F₀ x := by
    intro x
    simpa [hlive] using hp.covers x
  have hF : F = F₀ := by
    apply canonical_unique (fun b hb => ⟨(hp.rep.block b hb).dyadic, (hp.rep.block b hb).bounds.2.1⟩)
      (fun b hb => ⟨(hr.block b hb).dyadic, (hr.block b hb).bounds.2.1⟩) hp.rep.apart hr.apart
      (hp.noBuddies hn) hn hcov
  refine ⟨hF, ?_⟩
  have hcount := hp.count
  have h₁ := hp.rep.counter
  have h₂ := hr.counter
  rw [hF] at hcount
  unfold wadd at hcount
  omega

theorem heap_restored_oneBlock : ∃ s t, Step ⟨oneBlockHeap, []⟩ (.malloc 100 1) s ∧
    s.live = [⟨0x100000, 112⟩] ∧ Step s (.free ⟨0x100000, 112⟩) t ∧
    HeapRep t.heap {oneBlock} ∧ t.heap.heapFree = oneBlockHeap.heapFree := by
  obtain ⟨s, t, hmalloc, hheld, hfree, hlive⟩ := oneBlockHeap_given_back
  have hn : NoBuddies largestBlock {oneBlock} := by
    intro b hb c hc hlt
    rw [Finset.mem_singleton.mp hb] at hlt
    exact absurd hlt (by norm_num [oneBlock, largestBlock])
  obtain ⟨F, hrep, -, hback⟩ :=
    heap_restored oneBlockHeap_rep hn (((Execution.refl _).tail hmalloc).tail hfree)
  obtain ⟨rfl, hcount⟩ := hback hlive
  exact ⟨s, t, hmalloc, hheld, hfree, hrep, hcount⟩

end KernelHeap
