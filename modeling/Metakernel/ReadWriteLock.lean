import Mathlib.Data.Fintype.Card
import Metakernel.SleepingWaiters

/-!
# The read/write lock of rw_lock.c

The lock is a counter under a mutex, with a condition variable. Each function is the list of its
statements, and a statement is one step. The mutex has an owner; a thread that waits on the
condition variable has released the mutex and goes on once a broadcast is pending for it, or
spuriously.
-/
namespace ReadWriteLock

open GuardedRuns
open Synchronization (ThreadAddress card_lt_of_address threadAddress)

inductive Instr where
  | lock
  | unlock
  | whileWriter
  | whileNonzero
  | wait
  | increment
  | decrement
  | setCount (count : BitVec 32)
  | broadcast
  | broadcastIfZero
  deriving DecidableEq, Repr

def rwReadLock : List Instr := [.lock, .whileWriter, .increment, .unlock]

def rwReadUnlock : List Instr := [.lock, .decrement, .broadcastIfZero, .unlock]

def rwWriteLock : List Instr := [.lock, .whileNonzero, .setCount (-1), .unlock]

def rwWriteUnlock : List Instr := [.lock, .setCount 0, .broadcast, .unlock]

def rwUpgradeLock : List Instr := [.lock, .decrement, .whileNonzero, .setCount (-1), .unlock]

def rwDowngradeLock : List Instr := [.lock, .setCount 1, .broadcast, .unlock]

inductive Share where
  | none | read | write
  deriving DecidableEq, Repr

/-- `holds` is bookkeeping that no statement reads: the share of the lock that `count` records for
the thread. -/
structure Thread where
  code : List Instr
  pending : Bool
  holds : Share
  deriving DecidableEq, Repr

/-- `owner` is the holder of `rw->mutex`. -/
structure State (τ : Type) where
  threads : τ → Thread
  count : BitVec 32
  owner : Option τ

inductive Call where
  | readLock | readUnlock | writeLock | writeUnlock | upgradeLock | downgradeLock
  deriving DecidableEq, Repr

def Call.code : Call → List Instr
  | .readLock => rwReadLock
  | .readUnlock => rwReadUnlock
  | .writeLock => rwWriteLock
  | .writeUnlock => rwWriteUnlock
  | .upgradeLock => rwUpgradeLock
  | .downgradeLock => rwDowngradeLock

/-- A thread releases, upgrades or downgrades only what it holds, and holds one share. -/
def Call.Allowed : Call → Share → Prop
  | .readLock, h => h ≠ .read
  | .writeLock, _ => True
  | .readUnlock, h | .upgradeLock, h => h = .read
  | .writeUnlock, h | .downgradeLock, h => h = .write

instance (c : Call) (h : Share) : Decidable (c.Allowed h) := by
  cases c <;> unfold Call.Allowed <;> infer_instance

inductive Event (τ : Type) where
  | call (t : τ) (c : Call)
  | exec (t : τ)
  | spurious (t : τ)
  deriving DecidableEq, Repr

variable {τ : Type} [DecidableEq τ]

def State.setThread (s : State τ) (t : τ) (u : Thread) : State τ :=
  { s with threads := Function.update s.threads t u }

def shareOf (count : BitVec 32) : Share :=
  if count = -1 then .write else if count = 1 then .read else .none

def Thread.wake (u : Thread) : Thread :=
  match u.code with
  | .wait :: _ => { u with pending := true }
  | _ => u

def State.condBroadcast (s : State τ) : State τ :=
  { s with threads := fun t => (s.threads t).wake }

/-- Releases the mutex and waits; the mutex is taken again before the loop goes on. -/
def State.condWait (s : State τ) (t : τ) : State τ :=
  { s.setThread t { s.threads t with
      code := .wait :: .lock :: (s.threads t).code, pending := false } with owner := none }

def State.advance (s : State τ) (t : τ) (code : List Instr) : State τ :=
  s.setThread t { s.threads t with code := code }

def perform (s : State τ) (t : τ) : Option (State τ) :=
  match (s.threads t).code with
  | [] => none
  | .lock :: code =>
    if s.owner = none then some { s.advance t code with owner := some t } else none
  | .unlock :: code => some { s.advance t code with owner := none }
  | .whileWriter :: code =>
    if s.count = -1 then some (s.condWait t) else some (s.advance t code)
  | .whileNonzero :: code =>
    if s.count ≠ 0 then some (s.condWait t) else some (s.advance t code)
  | .wait :: code =>
    if (s.threads t).pending then
      some (s.setThread t { s.threads t with code := code, pending := false })
    else none
  | .increment :: code =>
    some { s.setThread t { s.threads t with code := code, holds := .read } with
      count := s.count + 1 }
  | .decrement :: code =>
    some { s.setThread t { s.threads t with code := code, holds := .none } with
      count := s.count - 1 }
  | .setCount count :: code =>
    some { s.setThread t { s.threads t with code := code, holds := shareOf count } with
      count := count }
  | .broadcast :: code => some ((s.advance t code).condBroadcast)
  | .broadcastIfZero :: code =>
    if s.count = 0 then some ((s.advance t code).condBroadcast) else some (s.advance t code)

def next (s : State τ) : Event τ → Option (State τ)
  | .call t c =>
    if (s.threads t).code = [] ∧ c.Allowed (s.threads t).holds then some (s.advance t c.code)
    else none
  | .exec t => perform s t
  | .spurious t =>
    match (s.threads t).code with
    | .wait :: code => some (s.advance t code)
    | _ => none

def start : State τ := ⟨fun _ => ⟨[], false, .none⟩, 0, none⟩

def Blocked (u : Thread) : Prop := u.code.head? = some .wait ∧ u.pending = false

inductive Shape : List Instr → Share → Prop where
  | done (h) : Shape [] h
  | unlock (h) : Shape [.unlock] h
  | readLock {h} : h ≠ .read → Shape rwReadLock h
  | readWait {h} : h ≠ .read → Shape (.wait :: rwReadLock) h
  | readTest {h} : h ≠ .read → Shape [.whileWriter, .increment, .unlock] h
  | readEnter {h} : h ≠ .read → Shape [.increment, .unlock] h
  | readUnlock : Shape rwReadUnlock .read
  | readLeave : Shape [.decrement, .broadcastIfZero, .unlock] .read
  | lastLeft : Shape [.broadcastIfZero, .unlock] .none
  | writeLock (h) : Shape rwWriteLock h
  | writeWait (h) : Shape (.wait :: rwWriteLock) h
  | writeTest (h) : Shape [.whileNonzero, .setCount (-1), .unlock] h
  | writeEnter (h) : Shape [.setCount (-1), .unlock] h
  | writeUnlock : Shape rwWriteUnlock .write
  | writeLeave : Shape [.setCount 0, .broadcast, .unlock] .write
  | broadcast (h) : Shape [.broadcast, .unlock] h
  | upgradeLock : Shape rwUpgradeLock .read
  | upgradeLeave : Shape [.decrement, .whileNonzero, .setCount (-1), .unlock] .read
  | downgradeLock : Shape rwDowngradeLock .write
  | downgrade : Shape [.setCount 1, .broadcast, .unlock] .write

def inSection : List Instr → Bool
  | [] | .lock :: _ | .wait :: _ => false
  | _ => true

section Invariant

variable [Fintype τ]

def readers (s : State τ) : ℕ := (Finset.univ.filter fun t => (s.threads t).holds = .read).card

def Agree (s : State τ) : Prop :=
  (s.count.toNat = readers s ∧ ∀ t, (s.threads t).holds ≠ .write) ∨
  (s.count = -1 ∧ (∃! t, (s.threads t).holds = .write) ∧ ∀ t, (s.threads t).holds ≠ .read)

def ReadDue (s : State τ) : Prop :=
  (∃ t, (s.threads t).holds = .write) ∨ ∃ t, (s.threads t).code.head? = some .broadcast

def WriteDue (s : State τ) : Prop :=
  s.count ≠ 0 ∨ ∃ t, (s.threads t).code.head? = some .broadcast ∨
    (s.threads t).code.head? = some .broadcastIfZero ∨
    (s.threads t).code.head? = some .whileNonzero ∨
    (s.threads t).code.head? = some (.setCount (-1))

structure Inv (s : State τ) : Prop where
  shape : ∀ t, Shape (s.threads t).code (s.threads t).holds
  owner : ∀ t, s.owner = some t ↔ inSection (s.threads t).code = true
  agree : Agree s
  entering : ∀ t, (s.threads t).code = [.increment, .unlock] → s.count ≠ -1
  taking : ∀ t, (s.threads t).code = [.setCount (-1), .unlock] → s.count = 0
  readWaits : ∀ t, Blocked (s.threads t) → (s.threads t).code = .wait :: rwReadLock → ReadDue s
  writeWaits : ∀ t, Blocked (s.threads t) → (s.threads t).code = .wait :: rwWriteLock → WriteDue s

variable {s s' : State τ} {t : τ}

omit [DecidableEq τ] in
theorem start_inv : Inv (start : State τ) := by
  constructor
  · exact fun t => .done _
  · simp [start, inSection]
  · exact Or.inl ⟨by simp [start, readers], by simp [start]⟩
  all_goals simp [start]

omit [DecidableEq τ] in
/-- A thread outside its section takes no part in the section of another. -/
theorem Inv.section_unique (h : Inv s) {u : τ} (ht : inSection (s.threads t).code = true)
    (hu : inSection (s.threads u).code = true) : u = t := by
  have hot := (h.owner t).mpr ht
  have hou := (h.owner u).mpr hu
  exact Option.some.inj (hou.symm.trans hot)

theorem readers_gain (hne : ∀ u, u ≠ t → (s'.threads u).holds = (s.threads u).holds)
    (hs : (s.threads t).holds ≠ .read) (hs' : (s'.threads t).holds = .read) :
    readers s' = readers s + 1 := by
  have hinsert : (Finset.univ.filter fun u => (s'.threads u).holds = .read) =
      insert t (Finset.univ.filter fun u => (s.threads u).holds = .read) := by
    ext u
    by_cases hu : u = t
    · simp [hu, hs']
    · simp [hne u hu, hu]
  rw [readers, hinsert, Finset.card_insert_of_notMem (by simp [hs])]
  rfl

section

omit [DecidableEq τ]

theorem readers_same (h : ∀ u, (s'.threads u).holds = .read ↔ (s.threads u).holds = .read) :
    readers s' = readers s := by
  simp only [readers, h]

theorem agree_congr (h : Agree s) (hcount : s'.count = s.count)
    (hholds : ∀ u, (s'.threads u).holds = (s.threads u).holds) : Agree s' := by
  unfold Agree at h ⊢
  rw [readers_same (s := s) fun u => by rw [hholds], hcount]
  simpa only [hholds] using h

theorem readers_le (h : (s.threads t).holds ≠ .read) : readers s < Fintype.card τ := by
  apply Finset.card_lt_univ_of_notMem (x := t)
  simp [h]

theorem readers_pos (h : (s.threads t).holds = .read) : 0 < readers s :=
  Finset.card_pos.mpr ⟨t, by simp [h]⟩

theorem Agree.no_writer (h : Agree s) (hcount : s.count ≠ -1) :
    s.count.toNat = readers s ∧ ∀ u, (s.threads u).holds ≠ .write :=
  h.resolve_right fun hw => hcount hw.1

/-- With all counts below the sentinel, a thread that is no reader meets it only with a writer. -/
theorem Agree.writer (h : Agree s) (few : Fintype.card τ < 2 ^ 32) (hcount : s.count = -1)
    (ht : (s.threads t).holds ≠ .read) : ∃ u, (s.threads u).holds = .write := by
  rcases h with ⟨hr, -⟩ | ⟨-, ⟨u, hu, -⟩, -⟩
  · have hlt := readers_le ht
    rw [← hr, hcount] at hlt
    have hsentinel : (-1 : BitVec 32).toNat = 2 ^ 32 - 1 := by decide
    omega
  · exact ⟨u, hu⟩

end

/-- A step of `t`: the other threads keep their code and their share, and none of them starts to
wait. -/
structure Moves (s s' : State τ) (t : τ) : Prop where
  code : ∀ u, u ≠ t → (s'.threads u).code = (s.threads u).code
  holds : ∀ u, u ≠ t → (s'.threads u).holds = (s.threads u).holds
  blocked : ∀ u, u ≠ t → Blocked (s'.threads u) → Blocked (s.threads u)

inductive OwnerMoves (s s' : State τ) (t : τ) : Prop where
  | keep : s'.owner = s.owner →
      inSection (s'.threads t).code = inSection (s.threads t).code → OwnerMoves s s' t
  | acquire : s.owner = none → s'.owner = some t → inSection (s'.threads t).code = true →
      OwnerMoves s s' t
  | release : inSection (s.threads t).code = true → s'.owner = none →
      inSection (s'.threads t).code = false → OwnerMoves s s' t

theorem Moves.owner (hM : Moves s s' t) (h : Inv s) (ho : OwnerMoves s s' t) (u : τ) :
    s'.owner = some u ↔ inSection (s'.threads u).code = true := by
  have hu := h.owner u
  by_cases hut : u = t
  · subst hut
    cases ho with
    | keep hown hsec => rw [hown, hsec, hu]
    | acquire _ hown hsec => simp [hown, hsec]
    | release _ hown hsec => simp [hown, hsec]
  · rw [hM.code u hut, ← hu]
    cases ho with
    | keep hown _ => rw [hown]
    | acquire hnone hown _ => simp [hnone, hown, Ne.symm hut]
    | release hsec hown _ => simp [(h.owner t).mpr hsec, hown, Ne.symm hut]

theorem Moves.inv (hM : Moves s s' t) (h : Inv s) (ho : OwnerMoves s s' t)
    (hshape : Shape (s'.threads t).code (s'.threads t).holds) (hagree : Agree s')
    (hcount : s'.count = s.count ∨ inSection (s.threads t).code = true)
    (hentering : (s'.threads t).code = [.increment, .unlock] → s'.count ≠ -1)
    (htaking : (s'.threads t).code = [.setCount (-1), .unlock] → s'.count = 0)
    (hread : (∃ u, Blocked (s'.threads u)) → ReadDue s → ReadDue s')
    (hwrite : (∃ u, Blocked (s'.threads u)) → WriteDue s → WriteDue s')
    (hreadWait : (s'.threads t).code = .wait :: rwReadLock → ReadDue s')
    (hwriteWait : (s'.threads t).code = .wait :: rwWriteLock → WriteDue s') : Inv s' := by
  have hsame : ∀ u, u ≠ t → inSection (s'.threads u).code = true → s'.count = s.count := by
    intro u hu hsec
    rw [hM.code u hu] at hsec
    exact hcount.resolve_right fun ht => hu (h.section_unique ht hsec)
  constructor
  · intro u
    by_cases hu : u = t
    · subst hu
      exact hshape
    · rw [hM.code u hu, hM.holds u hu]
      exact h.shape u
  · exact hM.owner h ho
  · exact hagree
  · intro u hcode
    by_cases hu : u = t
    · subst hu
      exact hentering hcode
    · rw [hsame u hu (by rw [hcode]; rfl)]
      exact h.entering u (by rw [← hM.code u hu, hcode])
  · intro u hcode
    by_cases hu : u = t
    · subst hu
      exact htaking hcode
    · rw [hsame u hu (by rw [hcode]; rfl)]
      exact h.taking u (by rw [← hM.code u hu, hcode])
  · intro u hblocked hcode
    by_cases hu : u = t
    · subst hu
      exact hreadWait hcode
    · rw [hM.code u hu] at hcode
      exact hread ⟨u, hblocked⟩ (h.readWaits u (hM.blocked u hu hblocked) hcode)
  · intro u hblocked hcode
    by_cases hu : u = t
    · subst hu
      exact hwriteWait hcode
    · rw [hM.code u hu] at hcode
      exact hwrite ⟨u, hblocked⟩ (h.writeWaits u (hM.blocked u hu hblocked) hcode)

omit [Fintype τ] in
theorem Moves.readDue (hM : Moves s s' t) (h : ReadDue s)
    (ht : (s.threads t).holds = .write ∨ (s.threads t).code.head? = some .broadcast →
      (s'.threads t).holds = .write ∨ (s'.threads t).code.head? = some .broadcast) :
    ReadDue s' := by
  rcases h with ⟨u, hu⟩ | ⟨u, hu⟩
  · by_cases hut : u = t
    · subst hut
      exact (ht (Or.inl hu)).imp (fun hw => ⟨u, hw⟩) fun hb => ⟨u, hb⟩
    · exact Or.inl ⟨u, by rw [hM.holds u hut, hu]⟩
  · by_cases hut : u = t
    · subst hut
      exact (ht (Or.inr hu)).imp (fun hw => ⟨u, hw⟩) fun hb => ⟨u, hb⟩
    · exact Or.inr ⟨u, by rw [hM.code u hut, hu]⟩

omit [Fintype τ] in
theorem moves_setThread (u : Thread) (c : BitVec 32) (o : Option τ) :
    Moves s { s.setThread t u with count := c, owner := o } t := by
  constructor <;> intro v hv <;> simp [State.setThread, hv]

theorem Thread.wake_code (u : Thread) : u.wake.code = u.code := by
  unfold Thread.wake
  split <;> rfl

theorem Thread.wake_holds (u : Thread) : u.wake.holds = u.holds := by
  unfold Thread.wake
  split <;> rfl

theorem Thread.wake_not_blocked (u : Thread) : ¬ Blocked u.wake := by
  rintro ⟨hhead, hpending⟩
  rw [Thread.wake_code] at hhead
  unfold Thread.wake at hpending
  split at hpending
  · cases hpending
  · rename_i hcode
    cases hc : u.code with
    | nil =>
      rw [hc] at hhead
      cases hhead
    | cons i code =>
      rw [hc] at hhead
      cases hhead
      exact hcode code hc

omit [Fintype τ] in
theorem moves_broadcast (code : List Instr) : Moves s (s.advance t code).condBroadcast t := by
  constructor
  · intro u hu
    simp [State.condBroadcast, State.advance, State.setThread, hu, Thread.wake_code]
  · intro u hu
    simp [State.condBroadcast, State.advance, State.setThread, hu, Thread.wake_holds]
  · intro u _ hblocked
    exact absurd hblocked (Thread.wake_not_blocked _)

/-- The statements in front of which a writer need not wait for a signal. -/
def endsWait : Option Instr → Bool
  | some .broadcast | some .broadcastIfZero | some .whileNonzero => true
  | some (.setCount c) => c == -1
  | _ => false

omit [DecidableEq τ] [Fintype τ] in
theorem writeDue_iff : WriteDue s ↔
    s.count ≠ 0 ∨ ∃ t, endsWait (s.threads t).code.head? = true := by
  have hiff : ∀ i : Option Instr, endsWait i = true ↔ i = some .broadcast ∨
      i = some .broadcastIfZero ∨ i = some .whileNonzero ∨ i = some (.setCount (-1)) := by
    intro i
    rcases i with _ | i
    · simp [endsWait]
    · cases i <;> simp [endsWait]
  simp only [WriteDue, hiff]

omit [Fintype τ] in
theorem Moves.writeDue (hM : Moves s s' t) (h : WriteDue s)
    (hcount : s'.count = s.count) (ht : endsWait (s.threads t).code.head? = true →
      s'.count ≠ 0 ∨ endsWait (s'.threads t).code.head? = true) : WriteDue s' := by
  rw [writeDue_iff] at h ⊢
  rcases h with hne | ⟨u, hu⟩
  · exact Or.inl (by rwa [hcount])
  · by_cases hut : u = t
    · subst hut
      exact (ht hu).imp id fun hb => ⟨u, hb⟩
    · exact Or.inr ⟨u, by rw [hM.code u hut, hu]⟩

theorem quiet_inv (h : Inv s) {u : Thread} {o : Option τ}
    (hs' : s' = { s.setThread t u with owner := o }) (hholds : u.holds = (s.threads t).holds)
    (hshape : Shape u.code u.holds) (ho : OwnerMoves s s' t)
    (hentering : u.code = [.increment, .unlock] → s.count ≠ -1)
    (htaking : u.code = [.setCount (-1), .unlock] → s.count = 0)
    (hread : (s.threads t).code.head? ≠ some .broadcast)
    (hwrite : endsWait (s.threads t).code.head? = true →
      s.count ≠ 0 ∨ endsWait u.code.head? = true)
    (hreadWait : u.code = .wait :: rwReadLock → ReadDue s)
    (hwriteWait : u.code = .wait :: rwWriteLock → s.count ≠ 0) : Inv s' := by
  have hM : Moves s s' t := by
    rw [hs']
    exact moves_setThread u s.count o
  have ht : s'.threads t = u := by simp [hs', State.setThread]
  have hcount : s'.count = s.count := by rw [hs', State.setThread]
  have hkeep : ReadDue s → ReadDue s' := by
    intro hdue
    apply hM.readDue hdue
    rw [ht, hholds]
    exact fun hor => Or.inl (hor.resolve_right hread)
  apply hM.inv h ho
  · rwa [ht]
  · apply agree_congr h.agree hcount
    intro v
    by_cases hv : v = t
    · rw [hv, ht, hholds]
    · exact hM.holds v hv
  · exact Or.inl hcount
  · rwa [ht, hcount]
  · rwa [ht, hcount]
  · exact fun _ => hkeep
  · intro _ hdue
    apply hM.writeDue hdue hcount
    rwa [ht, hcount]
  · rw [ht]
    exact fun hc => hkeep (hreadWait hc)
  · rw [ht]
    intro hc
    exact Or.inl (by rw [hcount]; exact hwriteWait hc)

theorem broadcast_inv (h : Inv s) {code : List Instr}
    (hs' : s' = (s.advance t code).condBroadcast) (hcode : code = [.unlock])
    (hsection : inSection (s.threads t).code = true) : Inv s' := by
  have hM : Moves s s' t := by
    rw [hs']
    exact moves_broadcast code
  have ht : (s'.threads t).code = [.unlock] := by
    simp [hs', hcode, State.condBroadcast, State.advance, State.setThread, Thread.wake_code]
  have hholds : ∀ u, (s'.threads u).holds = (s.threads u).holds := by
    intro u
    by_cases hu : u = t <;>
      simp [hs', hu, State.condBroadcast, State.advance, State.setThread, Thread.wake_holds]
  have hcount : s'.count = s.count := by rw [hs']; rfl
  have hnone : ¬ ∃ u, Blocked (s'.threads u) := by
    rintro ⟨u, hu⟩
    rw [hs'] at hu
    exact Thread.wake_not_blocked _ hu
  apply hM.inv h
  · apply OwnerMoves.keep
    · rw [hs']
      rfl
    · rw [ht, hsection]
      rfl
  · rw [ht]
    exact .unlock _
  · exact agree_congr h.agree hcount hholds
  · exact Or.inl hcount
  · rw [ht]
    intro hc
    cases hc
  · rw [ht]
    intro hc
    cases hc
  · exact fun hb => absurd hb hnone
  · exact fun hb => absurd hb hnone
  · rw [ht]
    intro hc
    cases hc
  · rw [ht]
    intro hc
    cases hc

/-- A step that stores to the counter, and with it moves the share of its thread. -/
theorem store_inv (h : Inv s) {u : Thread} {c : BitVec 32}
    (hs' : s' = { s.setThread t u with count := c }) (hshape : Shape u.code u.holds)
    (hsection : inSection (s.threads t).code = true) (hsection' : inSection u.code = true)
    (hagree : Agree s') (hentering : u.code ≠ [.increment, .unlock])
    (htaking : u.code ≠ [.setCount (-1), .unlock])
    (hhead : (s.threads t).code.head? ≠ some .broadcast)
    (hread : (s.threads t).holds = .write → u.holds = .write ∨ u.code.head? = some .broadcast)
    (hwrite : c ≠ 0 ∨ endsWait u.code.head? = true) : Inv s' := by
  have hM : Moves s s' t := by
    rw [hs']
    exact moves_setThread u c s.owner
  have ht : s'.threads t = u := by simp [hs', State.setThread]
  have hcount : s'.count = c := by rw [hs']
  have hwait : ∀ code, u.code ≠ .wait :: code := by
    intro code hc
    rw [hc] at hsection'
    cases hsection'
  apply hM.inv h
  · apply OwnerMoves.keep
    · rw [hs']
      rfl
    · rw [ht, hsection, hsection']
  · rwa [ht]
  · exact hagree
  · exact Or.inr hsection
  · rw [ht]
    exact fun hc => absurd hc hentering
  · rw [ht]
    exact fun hc => absurd hc htaking
  · intro _ hdue
    apply hM.readDue hdue
    rw [ht]
    exact fun hor => hread (hor.resolve_right hhead)
  · intro _ _
    rw [writeDue_iff, hcount]
    exact hwrite.imp id fun hb => ⟨t, by rwa [ht]⟩
  · rw [ht]
    exact fun hc => absurd hc (hwait _)
  · rw [ht]
    exact fun hc => absurd hc (hwait _)

theorem toNat_increment {c : BitVec 32} (h : c ≠ -1) : (c + 1).toNat = c.toNat + 1 := by
  have hne : c.toNat ≠ 2 ^ 32 - 1 := fun he => h (BitVec.eq_of_toNat_eq he)
  have hone : (1 : BitVec 32).toNat = 1 := rfl
  have hlt := c.isLt
  rw [BitVec.toNat_add, hone]
  omega

theorem toNat_decrement {c : BitVec 32} (h : 0 < c.toNat) : (c - 1).toNat + 1 = c.toNat := by
  have hone : (1 : BitVec 32).toNat = 1 := rfl
  have hlt := c.isLt
  rw [BitVec.toNat_sub, hone]
  omega

theorem Agree.increment (h : Agree s) (hcount : s.count ≠ -1) (ht : (s.threads t).holds ≠ .read)
    {u : Thread} (hu : u.holds = .read)
    (hs' : s' = { s.setThread t u with count := s.count + 1 }) : Agree s' := by
  obtain ⟨hr, hw⟩ := h.no_writer hcount
  have hne : ∀ v, v ≠ t → (s'.threads v).holds = (s.threads v).holds := by
    intro v hv
    simp [hs', State.setThread, hv]
  have ht' : (s'.threads t).holds = .read := by simp [hs', State.setThread, hu]
  refine Or.inl ⟨?_, fun v => ?_⟩
  · rw [readers_gain hne ht ht', ← hr, hs']
    exact toNat_increment hcount
  · by_cases hv : v = t
    · simp [hv, ht']
    · rw [hne v hv]
      exact hw v

theorem Agree.decrement (h : Agree s) (ht : (s.threads t).holds = .read) {u : Thread}
    (hu : u.holds = .none) (hs' : s' = { s.setThread t u with count := s.count - 1 }) :
    Agree s' := by
  have hpos := readers_pos ht
  obtain ⟨hr, hw⟩ := h.resolve_right fun hright => hright.2.2 t ht
  have hne : ∀ v, v ≠ t → (s.threads v).holds = (s'.threads v).holds := by
    intro v hv
    simp [hs', State.setThread, hv]
  have ht' : (s'.threads t).holds = .none := by simp [hs', State.setThread, hu]
  refine Or.inl ⟨?_, fun v => ?_⟩
  · have hgain := readers_gain hne (by simp [ht']) ht
    have hcount : s'.count = s.count - 1 := by rw [hs']
    have hdec := toNat_decrement (c := s.count) (by rwa [hr])
    rw [hcount]
    omega
  · by_cases hv : v = t
    · simp [hv, ht']
    · rw [← hne v hv]
      exact hw v

omit [DecidableEq τ] in
theorem readers_zero (h : readers s = 0) (v : τ) : (s.threads v).holds ≠ .read := by
  intro hv
  have hpos := readers_pos hv
  omega

omit [DecidableEq τ] in
theorem readers_eq_zero (h : ∀ v, (s.threads v).holds ≠ .read) : readers s = 0 := by
  simp [readers, h]

theorem Agree.take (h : Agree s) (hcount : s.count = 0) {u : Thread} (hu : u.holds = .write)
    (hs' : s' = { s.setThread t u with count := -1 }) : Agree s' := by
  obtain ⟨hr, hw⟩ := h.no_writer (by rw [hcount]; decide)
  have hnone := readers_zero (s := s) (by rw [← hr, hcount]; rfl)
  have hne : ∀ v, v ≠ t → (s'.threads v).holds = (s.threads v).holds := by
    intro v hv
    simp [hs', State.setThread, hv]
  have ht' : (s'.threads t).holds = .write := by simp [hs', State.setThread, hu]
  refine Or.inr ⟨by rw [hs'], ⟨t, ht', fun v hv => ?_⟩, fun v => ?_⟩
  · by_contra hvt
    exact hw v ((hne v hvt).symm.trans hv)
  · by_cases hv : v = t
    · simp [hv, ht']
    · rw [hne v hv]
      exact hnone v

omit [DecidableEq τ] in
theorem Agree.others (h : Agree s) (ht : (s.threads t).holds = .write) {v : τ} (hv : v ≠ t) :
    (s.threads v).holds = .none := by
  obtain ⟨-, hunique, hread⟩ := h.resolve_left fun hleft => hleft.2 t ht
  cases hh : (s.threads v).holds with
  | none => rfl
  | read => exact absurd hh (hread v)
  | write => exact absurd (hunique.unique hh ht) hv

theorem Agree.release (h : Agree s) (ht : (s.threads t).holds = .write) {u : Thread}
    (hu : u.holds = .none) (hs' : s' = { s.setThread t u with count := 0 }) : Agree s' := by
  have hnone : ∀ v, (s'.threads v).holds = .none := by
    intro v
    by_cases hv : v = t
    · simp [hs', State.setThread, hv, hu]
    · simp [hs', State.setThread, hv, h.others ht hv]
  refine Or.inl ⟨?_, fun v => by simp [hnone v]⟩
  rw [readers_eq_zero fun v => by simp [hnone v], hs']
  rfl

theorem Agree.downgrade (h : Agree s) (ht : (s.threads t).holds = .write) {u : Thread}
    (hu : u.holds = .read) (hs' : s' = { s.setThread t u with count := 1 }) : Agree s' := by
  have hr : readers s = 0 := by
    apply readers_eq_zero
    intro v
    by_cases hv : v = t
    · simp [hv, ht]
    · simp [h.others ht hv]
  have hne : ∀ v, v ≠ t → (s'.threads v).holds = (s.threads v).holds := by
    intro v hv
    simp [hs', State.setThread, hv]
  have ht' : (s'.threads t).holds = .read := by simp [hs', State.setThread, hu]
  refine Or.inl ⟨?_, fun v => ?_⟩
  · rw [readers_gain hne (by simp [ht]) ht', hr, hs']
    rfl
  · by_cases hv : v = t
    · simp [hv, ht']
    · simp [hne v hv, h.others ht hv]

theorem Inv.quiet (h : Inv s) {code code' : List Instr} {pending : Bool} {o : Option τ}
    (hcode : (s.threads t).code = code) (hshape : Shape code' (s.threads t).holds)
    (howner : o = if inSection code' then some t else if inSection code then none else s.owner)
    (hfree : inSection code' = true → inSection code = false → s.owner = none)
    (hentering : code' = [.increment, .unlock] → s.count ≠ -1)
    (htaking : code' = [.setCount (-1), .unlock] → s.count = 0)
    (hread : code.head? ≠ some .broadcast)
    (hwrite : endsWait code.head? = true → s.count ≠ 0 ∨ endsWait code'.head? = true)
    (hreadWait : code' = .wait :: rwReadLock → ReadDue s)
    (hwriteWait : code' = .wait :: rwWriteLock → s.count ≠ 0) :
    Inv { threads := Function.update s.threads t
            { s.threads t with code := code', pending := pending }
          count := s.count
          owner := o } := by
  subst hcode
  refine quiet_inv (u := ⟨code', pending, (s.threads t).holds⟩) h rfl rfl hshape ?_ hentering
    htaking hread hwrite hreadWait hwriteWait
  have hsec := h.owner t
  cases hc' : inSection code' <;> cases hc : inSection (s.threads t).code <;>
    simp only [hc, hc', Bool.false_eq_true, if_true, if_false] at howner hsec
  · exact .keep howner (by simp [hc, hc'])
  · exact .release hc howner (by simp [hc'])
  · exact .acquire (hfree hc' hc) howner (by simp [hc'])
  · exact .keep (howner.trans (hsec.mpr trivial).symm) (by simp [hc, hc'])

theorem Inv.goOn (h : Inv s) {code code' : List Instr} (hcode : (s.threads t).code = code)
    (hsec : inSection code = true) (hsec' : inSection code' = true)
    (hshape : Shape code' (s.threads t).holds)
    (hentering : code' = [.increment, .unlock] → s.count ≠ -1)
    (htaking : code' = [.setCount (-1), .unlock] → s.count = 0)
    (hread : code.head? ≠ some .broadcast)
    (hwrite : endsWait code.head? = true → s.count ≠ 0 ∨ endsWait code'.head? = true) :
    Inv (s.advance t code') := by
  have hwait : ∀ rest, code' ≠ .wait :: rest := by
    intro rest hc
    rw [hc] at hsec'
    cases hsec'
  have howner := (h.owner t).mpr (by rw [hcode, hsec])
  exact h.quiet hcode hshape (by rw [if_pos hsec', howner]) (fun _ hf => by simp [hsec] at hf)
    hentering htaking hread hwrite (fun hc => absurd hc (hwait _)) fun hc => absurd hc (hwait _)

theorem Inv.outside (h : Inv s) {code code' : List Instr} {pending : Bool}
    (hcode : (s.threads t).code = code) (hsec : inSection code = false)
    (hhead : code'.head? = some .lock) (hshape : Shape code' (s.threads t).holds) :
    Inv (s.setThread t { s.threads t with code := code', pending := pending }) := by
  obtain ⟨rest, rfl⟩ := List.head?_eq_some_iff.mp hhead
  have hquiet : code.head? ≠ some .broadcast ∧ ¬ endsWait code.head? = true := by
    rcases code with _ | ⟨i, code⟩
    · simp [endsWait]
    · cases i <;> simp_all [endsWait, inSection]
  refine h.quiet hcode hshape (by rw [hsec]; rfl) ?_ ?_ ?_ hquiet.1
    (fun he => absurd he hquiet.2) ?_ ?_ <;> simp [inSection]

theorem Inv.acquire (h : Inv s) {code : List Instr} (hcode : (s.threads t).code = .lock :: code)
    (hfree : s.owner = none) (hsec : inSection code = true) (hshape : Shape code (s.threads t).holds)
    (hentering : code ≠ [.increment, .unlock]) (htaking : code ≠ [.setCount (-1), .unlock]) :
    Inv { s.advance t code with owner := some t } := by
  have hwait : ∀ rest, code ≠ .wait :: rest := by
    intro rest hc
    rw [hc] at hsec
    cases hsec
  refine h.quiet hcode hshape (by rw [if_pos hsec]) (fun _ _ => hfree)
    (fun hc => absurd hc hentering) (fun hc => absurd hc htaking) ?_ ?_
    (fun hc => absurd hc (hwait _)) fun hc => absurd hc (hwait _) <;> simp [endsWait]

theorem Inv.condWait (h : Inv s) {code : List Instr} (hcode : (s.threads t).code = code)
    (hsec : inSection code = true) (hshape : Shape (.wait :: .lock :: code) (s.threads t).holds)
    (hread : code.head? ≠ some .broadcast) (hwrite : endsWait code.head? = true → s.count ≠ 0)
    (hreadWait : .lock :: code = rwReadLock → ReadDue s)
    (hwriteWait : .lock :: code = rwWriteLock → s.count ≠ 0) : Inv (s.condWait t) := by
  rw [State.condWait, hcode]
  refine h.quiet hcode hshape (by rw [hsec]; rfl) (fun hf => by cases hf) ?_ ?_ hread
    (fun he => Or.inl (hwrite he)) (fun hc => hreadWait (List.cons.inj hc).2)
    fun hc => hwriteWait (List.cons.inj hc).2
  all_goals simp

theorem perform_preserves_inv (few : Fintype.card τ < 2 ^ 32) (h : Inv s)
    (hn : perform s t = some s') : Inv s' := by
  have hshape := h.shape t
  generalize hcode : (s.threads t).code = code at hshape
  generalize hholds : (s.threads t).holds = share at hshape
  cases hshape with
  | done =>
    simp [perform, hcode] at hn
  | unlock =>
    simp only [perform, hcode] at hn
    cases hn
    refine h.quiet hcode (.done _) rfl ?_ ?_ ?_ ?_ ?_ ?_ ?_ <;> simp [endsWait, inSection]
  | readLock hne =>
    simp only [perform, hcode, rwReadLock] at hn
    split at hn
    · rename_i hfree
      cases hn
      exact h.acquire hcode hfree rfl (.readTest (by rwa [hholds])) (by simp) (by simp)
    · cases hn
  | readWait hne =>
    simp only [perform, hcode] at hn
    split at hn
    · cases hn
      exact h.outside hcode rfl rfl (.readLock (by rwa [hholds]))
    · cases hn
  | readTest hne =>
    simp only [perform, hcode] at hn
    split at hn
    · rename_i hcount
      cases hn
      exact h.condWait hcode rfl (.readWait (by rwa [hholds])) (by simp) (by simp [endsWait])
        (fun _ => Or.inl (h.agree.writer few hcount (t := t) (by rwa [hholds])))
        (by simp [rwWriteLock])
    · rename_i hcount
      cases hn
      exact h.goOn hcode rfl rfl (.readEnter (by rwa [hholds])) (fun _ => hcount)
        (by simp) (by simp) (by simp [endsWait])
  | readEnter hne =>
    have hcount := h.entering t hcode
    simp only [perform, hcode] at hn
    cases hn
    have hread : (s.threads t).holds ≠ .read := by rwa [hholds]
    have hwrite := (h.agree.no_writer hcount).2 t
    refine store_inv h rfl (.unlock _) (by rw [hcode]; rfl) rfl
      (h.agree.increment hcount hread rfl rfl) (by simp) (by simp) (by simp [hcode])
      (fun hw => absurd hw hwrite) (Or.inl fun hz => ?_)
    have hsucc := toNat_increment hcount
    rw [hz] at hsucc
    exact Nat.succ_ne_zero _ hsucc.symm
  | readUnlock =>
    simp only [perform, hcode, rwReadUnlock] at hn
    split at hn
    · rename_i hfree
      cases hn
      exact h.acquire hcode hfree rfl (by rw [hholds]; exact .readLeave) (by simp) (by simp)
    · cases hn
  | readLeave =>
    simp only [perform, hcode] at hn
    cases hn
    exact store_inv h rfl .lastLeft (by rw [hcode]; rfl) rfl (h.agree.decrement hholds rfl rfl)
      (by simp) (by simp) (by simp [hcode]) (by simp [hholds]) (Or.inr rfl)
  | lastLeft =>
    simp only [perform, hcode] at hn
    split at hn
    · cases hn
      exact broadcast_inv h rfl rfl (by rw [hcode]; rfl)
    · rename_i hcount
      cases hn
      exact h.goOn hcode rfl rfl (.unlock _) (by simp) (by simp) (by simp) fun _ => Or.inl hcount
  | writeLock =>
    simp only [perform, hcode, rwWriteLock] at hn
    split at hn
    · rename_i hfree
      cases hn
      exact h.acquire hcode hfree rfl (.writeTest _) (by simp) (by simp)
    · cases hn
  | writeWait =>
    simp only [perform, hcode] at hn
    split at hn
    · cases hn
      exact h.outside hcode rfl rfl (.writeLock _)
    · cases hn
  | writeTest =>
    simp only [perform, hcode] at hn
    split at hn
    · rename_i hcount
      cases hn
      exact h.condWait hcode rfl (.writeWait _) (by simp) (fun _ => hcount) (by simp [rwReadLock])
        fun _ => hcount
    · rename_i hcount
      cases hn
      exact h.goOn hcode rfl rfl (.writeEnter _) (by simp) (fun _ => not_not.mp hcount) (by simp)
        fun _ => Or.inr rfl
  | writeEnter =>
    have hcount := h.taking t hcode
    simp only [perform, hcode] at hn
    cases hn
    exact store_inv h rfl (.unlock _) (by rw [hcode]; rfl) rfl (h.agree.take hcount rfl rfl)
      (by simp) (by simp) (by simp [hcode]) (fun _ => Or.inl rfl) (Or.inl (by decide))
  | writeUnlock =>
    simp only [perform, hcode, rwWriteUnlock] at hn
    split at hn
    · rename_i hfree
      cases hn
      exact h.acquire hcode hfree rfl (by rw [hholds]; exact .writeLeave) (by simp) (by simp)
    · cases hn
  | writeLeave =>
    simp only [perform, hcode] at hn
    cases hn
    exact store_inv h rfl (.broadcast _) (by rw [hcode]; rfl) rfl (h.agree.release hholds rfl rfl)
      (by simp) (by simp) (by simp [hcode]) (fun _ => Or.inr rfl) (Or.inr rfl)
  | broadcast =>
    simp only [perform, hcode] at hn
    cases hn
    exact broadcast_inv h rfl rfl (by rw [hcode]; rfl)
  | upgradeLock =>
    simp only [perform, hcode, rwUpgradeLock] at hn
    split at hn
    · rename_i hfree
      cases hn
      exact h.acquire hcode hfree rfl (by rw [hholds]; exact .upgradeLeave) (by simp) (by simp)
    · cases hn
  | upgradeLeave =>
    simp only [perform, hcode] at hn
    cases hn
    exact store_inv h rfl (.writeTest _) (by rw [hcode]; rfl) rfl (h.agree.decrement hholds rfl rfl)
      (by simp) (by simp) (by simp [hcode]) (by simp [hholds]) (Or.inr rfl)
  | downgradeLock =>
    simp only [perform, hcode, rwDowngradeLock] at hn
    split at hn
    · rename_i hfree
      cases hn
      exact h.acquire hcode hfree rfl (by rw [hholds]; exact .downgrade) (by simp) (by simp)
    · cases hn
  | downgrade =>
    simp only [perform, hcode] at hn
    cases hn
    exact store_inv h rfl (.broadcast _) (by rw [hcode]; rfl) rfl
      (h.agree.downgrade hholds rfl rfl) (by simp) (by simp) (by simp [hcode])
      (fun _ => Or.inr rfl) (Or.inr rfl)

theorem call_shape {c : Call} {h : Share} (hc : c.Allowed h) : Shape c.code h := by
  cases c with
  | readLock => exact .readLock hc
  | readUnlock =>
    cases hc
    exact .readUnlock
  | writeLock => exact .writeLock h
  | writeUnlock =>
    cases hc
    exact .writeUnlock
  | upgradeLock =>
    cases hc
    exact .upgradeLock
  | downgradeLock =>
    cases hc
    exact .downgradeLock

theorem waiting_shape {code : List Instr} {h : Share} (hs : Shape (.wait :: code) h) :
    Shape code h ∧ code.head? = some .lock := by
  cases hs with
  | readWait hne => exact ⟨.readLock hne, rfl⟩
  | writeWait => exact ⟨.writeLock h, rfl⟩

theorem step_preserves_inv (few : Fintype.card τ < 2 ^ 32) {e : Event τ} (h : Inv s)
    (hn : next s e = some s') : Inv s' := by
  cases e with
  | call t c =>
    simp only [next] at hn
    split at hn
    · rename_i hc
      cases hn
      exact h.outside hc.1 rfl (by cases c <;> rfl) (call_shape hc.2)
    · cases hn
  | exec t => exact perform_preserves_inv few h hn
  | spurious t =>
    simp only [next] at hn
    split at hn
    · rename_i code hcode
      cases hn
      have hshape := h.shape t
      rw [hcode] at hshape
      exact h.outside hcode rfl (waiting_shape hshape).2 (waiting_shape hshape).1
    · cases hn

/-- Whenever the mutex is free, the counter is the number of readers and there is no writer, or it
is the sentinel and there is one writer and no reader; and a thread that waits without a pending
broadcast has reason to: a reader because of a writer, a writer or upgrader because of the
counter. -/
theorem read_write_lock_safe (address : τ ↪ ThreadAddress)
    (h : Execution next (fun _ _ => True) start s) (hfree : s.owner = none) :
    ((s.count.toNat = readers s ∧ ∀ t, (s.threads t).holds ≠ .write) ∨
      (s.count = 0xffffffff ∧ (∃! t, (s.threads t).holds = .write) ∧
        ∀ t, (s.threads t).holds ≠ .read)) ∧
    ∀ t, Blocked (s.threads t) →
      ((s.threads t).code = .wait :: rwReadLock ∧ ∃ u, (s.threads u).holds = .write) ∨
      ((s.threads t).code = .wait :: rwWriteLock ∧ s.count ≠ 0) := by
  have hI : Inv s := h.preserves
    (fun _ _ _ hI _ hn => step_preserves_inv (card_lt_of_address address) hI hn) start_inv
  have hout : ∀ u, inSection (s.threads u).code = false := by
    intro u
    by_contra hin
    have hown := (hI.owner u).mpr (Bool.eq_true_of_not_eq_false hin)
    rw [hfree] at hown
    cases hown
  refine ⟨hI.agree, fun t ht => ?_⟩
  have hshape := hI.shape t
  obtain ⟨code, hcode⟩ := List.head?_eq_some_iff.mp ht.1
  rw [hcode] at hshape
  cases hshape with
  | readWait =>
    refine Or.inl ⟨hcode, (hI.readWaits t ht hcode).resolve_right ?_⟩
    rintro ⟨u, hu⟩
    have hsec := hout u
    obtain ⟨code, hcode⟩ := List.head?_eq_some_iff.mp hu
    rw [hcode] at hsec
    cases hsec
  | writeWait =>
    refine Or.inr ⟨hcode, (writeDue_iff.mp (hI.writeWaits t ht hcode)).resolve_right ?_⟩
    rintro ⟨u, hu⟩
    have hsec := hout u
    cases hc : (s.threads u).code with
    | nil => simp [hc, endsWait] at hu
    | cons i code => cases i <;> simp [hc, endsWait, inSection] at hu hsec

end Invariant

def readerWaits : List (Event (Fin 3)) :=
  [.call 0 .writeLock, .exec 0, .exec 0, .exec 0, .exec 0, .call 1 .readLock, .exec 1, .exec 1]

theorem read_write_lock_safe_waiting : ∃ s : State (Fin 3),
    Execution next (fun _ _ => True) start s ∧ s.owner = none ∧ s.count = 0xffffffff ∧
      Blocked (s.threads 1) ∧ ∃ u, (s.threads u).holds = .write := by
  have hrun : (follow next (fun _ _ => True) start readerWaits).map (fun s => decide
      (s.owner = none ∧ s.count = 0xffffffff ∧ (s.threads 1).code = .wait :: rwReadLock ∧
        (s.threads 1).pending = false)) = some true := by
    decide +kernel
  obtain ⟨s, hs, hfacts⟩ := Option.map_eq_some_iff.mp hrun
  obtain ⟨hfree, hcount, hcode, hpending⟩ := of_decide_eq_true hfacts
  have hexec := execution_of_follow hs
  have hblocked : Blocked (s.threads 1) := ⟨by rw [hcode]; rfl, hpending⟩
  have hsafe := (read_write_lock_safe threadAddress hexec hfree).2 1 hblocked
  refine ⟨s, hexec, hfree, hcount, hblocked, ?_⟩
  rcases hsafe with ⟨-, hwriter⟩ | ⟨hwait, -⟩
  · exact hwriter
  · rw [hcode] at hwait
    cases hwait

end ReadWriteLock
