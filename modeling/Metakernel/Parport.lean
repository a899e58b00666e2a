import Metakernel.ByteMemory
import Metakernel.GuardedRuns

/-!
# The parallel port of parport.c

Characters have two bytes; `buf_pos` counts characters and `buf_size` bytes. The functions name the
node that they work on `out`, which is read as their argument `inode` here. Characters that
`parport_write_char` gives to the port are listed in `sent`.
-/
namespace Parport

open ByteMemory GuardedRuns

def modePos : ℕ := 0xc
def modeCurr : ℕ := 0x0

def charAt (bytes : Memory) (i : ℕ) : ℕ := (bytes (2 * i)).toNat + 256 * (bytes (2 * i + 1)).toNat

def chars (bytes : Memory) (n : ℕ) : List ℕ := (List.range n).map (charAt bytes)

/-- `buf` are the bytes from `data->buf` on, those behind the buffer included; `reach` is the end of
the bytes that were written there. -/
structure Port where
  bufSize : ℕ
  bufPos : ℕ
  buf : Memory
  sent : List ℕ
  reach : ℕ

def parportFlush (data : Port) : Port :=
  { data with
    sent := data.sent ++ chars data.buf data.bufPos
    bufPos := 0 }

def parportSeqWrite (data : Port) (size : ℕ) (buf : Memory) (seek : ℤ) (mode : ℕ) :
    Port × Option ℕ :=
  if 0 = seek ∧ mode &&& modePos = modeCurr then
    if wadd data.bufPos (size / 2) ≤ data.bufSize then
      ({ data with
        buf := fun i => if i < size then buf i else data.buf i
        reach := max data.reach size
        bufPos := wadd data.bufPos (size / 2) }, some size)
    else
      let data := parportFlush data
      ({ data with sent := data.sent ++ chars buf (size / 2) }, some size)
  else (data, none)

structure State where
  port : Port
  written : List ℕ

def write (s : State) (size : UInt32) (buf : Memory) : State :=
  ⟨(parportSeqWrite s.port size.toNat buf 0 modeCurr).1, s.written ++ chars buf (size.toNat / 2)⟩

inductive Event where
  | write (size : UInt32) (buf : Memory)
  | flush

def next (s : State) : Event → Option State
  | .write size buf => some (write s size buf)
  | .flush => some ⟨parportFlush s.port, s.written⟩

/-- `parport_create` makes a port with an empty buffer. -/
def created (bufSize : ℕ) (buf : Memory) : State := ⟨⟨bufSize, 0, buf, [], 0⟩, []⟩

structure Lossless (s : State) : Prop where
  order : s.port.sent ++ chars s.port.buf s.port.bufPos = s.written
  inside : s.port.reach ≤ s.port.bufSize

/-- A write that is buffered finds the buffer empty and fits in. -/
def Fits (s : State) (size : UInt32) : Prop :=
  wadd s.port.bufPos (size.toNat / 2) ≤ s.port.bufSize →
    size = 0 ∨ s.port.bufPos = 0 ∧ size.toNat ≤ s.port.bufSize

def FitsEven (s : State) : Event → Prop
  | .write size _ => 2 ∣ size.toNat ∧ Fits s size
  | .flush => True

section Runs

variable {s s' : State} {e : Event} {size : UInt32} {buf : Memory}

@[simp] theorem chars_zero (bytes : Memory) : chars bytes 0 = [] := rfl

@[simp] theorem length_chars (bytes : Memory) (n : ℕ) : (chars bytes n).length = n := by
  simp [chars]

theorem chars_congr {a b : Memory} {n : ℕ} (h : ∀ i < 2 * n, a i = b i) : chars a n = chars b n := by
  refine List.map_congr_left fun i hi => ?_
  rw [List.mem_range] at hi
  rw [charAt, charAt, h (2 * i) (by omega), h (2 * i + 1) (by omega)]

theorem flush_lossless (h : Lossless s) : Lossless ⟨parportFlush s.port, s.written⟩ := by
  refine ⟨?_, h.inside⟩
  rw [parportFlush, chars_zero, List.append_nil]
  exact h.order

/-- A write that is not buffered comes after all that was buffered before. -/
theorem write_direct (s : State) (size : UInt32) (buf : Memory)
    (hfull : ¬ wadd s.port.bufPos (size.toNat / 2) ≤ s.port.bufSize) :
    write s size buf = ⟨{ parportFlush s.port with
      sent := s.port.sent ++ chars s.port.buf s.port.bufPos ++ chars buf (size.toNat / 2) },
      s.written ++ chars buf (size.toNat / 2)⟩ := by
  simp [write, parportSeqWrite, modeCurr, hfull, parportFlush]

theorem write_buffered (s : State) (size : UInt32) (buf : Memory)
    (hroom : wadd s.port.bufPos (size.toNat / 2) ≤ s.port.bufSize) :
    write s size buf = ⟨{ s.port with
      buf := fun i => if i < size.toNat then buf i else s.port.buf i
      reach := max s.port.reach size.toNat
      bufPos := wadd s.port.bufPos (size.toNat / 2) }, s.written ++ chars buf (size.toNat / 2)⟩ := by
  simp [write, parportSeqWrite, modeCurr, hroom]

theorem write_lossless (hpos : s.port.bufPos < 4294967296) (h : Lossless s)
    (heven : 2 ∣ size.toNat) (hfits : Fits s size) : Lossless (write s size buf) := by
  have hlt : size.toNat < 4294967296 := size.toNat_lt
  by_cases hroom : wadd s.port.bufPos (size.toNat / 2) ≤ s.port.bufSize
  · rw [write_buffered s size buf hroom]
    rcases hfits hroom with rfl | ⟨hempty, hsize⟩
    · have hpos' : wadd s.port.bufPos 0 = s.port.bufPos := Nat.mod_eq_of_lt hpos
      exact ⟨by simpa [hpos'] using h.order, by simpa using h.inside⟩
    · have hpos' : wadd s.port.bufPos (size.toNat / 2) = size.toNat / 2 := by
        rw [hempty, wadd_eq (by omega), Nat.zero_add]
      have horder := h.order
      rw [hempty, chars_zero, List.append_nil] at horder
      have hchars : chars (fun i => if i < size.toNat then buf i else s.port.buf i)
          (size.toNat / 2) = chars buf (size.toNat / 2) :=
        chars_congr fun i hi => if_pos (by omega)
      refine ⟨?_, max_le h.inside hsize⟩
      rw [hpos', hchars, ← horder]
  · rw [write_direct s size buf hroom]
    refine ⟨?_, h.inside⟩
    rw [parportFlush, chars_zero, List.append_nil, h.order]

theorem chars_head (bytes : Memory) {n : ℕ} (hn : 0 < n) :
    (chars bytes n).head? = some (charAt bytes 0) := by
  obtain ⟨k, rfl⟩ := Nat.exists_eq_add_of_lt hn
  simp [chars, List.range_succ_eq_map]

/-- Where the buffer is not empty, a buffered write takes the place of its first character. -/
theorem write_reorders (h : Lossless s) (hsize : 2 ≤ size.toNat)
    (hroom : wadd s.port.bufPos (size.toNat / 2) ≤ s.port.bufSize) (hpos : 0 < s.port.bufPos)
    (hbuf : charAt buf 0 ≠ charAt s.port.buf 0) : ¬ Lossless (write s size buf) := by
  rw [write_buffered s size buf hroom]
  rintro ⟨horder, -⟩
  rw [← h.order, List.append_assoc] at horder
  have hsame := List.append_cancel_left horder
  have hlength := congrArg List.length hsame
  rw [length_chars, List.length_append, length_chars, length_chars] at hlength
  have hhead := congrArg List.head? hsame
  rw [chars_head _ (by omega), List.head?_append, chars_head _ hpos, Option.some_or,
    Option.some_inj] at hhead
  refine hbuf (Eq.trans ?_ hhead)
  simp only [charAt]
  rw [if_pos (by omega), if_pos (by omega)]

/-- A write that does not fit goes beyond the buffer, or is out of order for some characters. -/
theorem lossless_iff_fits (hpos : s.port.bufPos < 4294967296) (h : Lossless s)
    (heven : 2 ∣ size.toNat) : (∀ buf, Lossless (write s size buf)) ↔ Fits s size := by
  refine ⟨fun hall hroom => ?_, fun hfits buf => write_lossless hpos h heven hfits⟩
  by_contra hnot
  push Not at hnot
  obtain ⟨hne, hlarge⟩ := hnot
  have hsize : 2 ≤ size.toNat := by
    have hzero : size.toNat ≠ 0 := fun hz => hne (UInt32.toNat_inj.mp hz)
    omega
  rcases Nat.eq_zero_or_pos s.port.bufPos with hempty | hfilled
  · have hinside := (hall s.port.buf).inside
    rw [write_buffered s size _ hroom] at hinside
    exact absurd ((le_max_right _ _).trans hinside) (not_le.mpr (hlarge hempty))
  · refine write_reorders h hsize hroom hfilled ?_ (hall fun i => s.port.buf i + 1)
    have hlow : (s.port.buf 0 + 1).toNat ≠ (s.port.buf 0).toNat := by
      rw [UInt8.toNat_add]
      have := (s.port.buf 0).toNat_lt
      simp only [UInt8.toNat_ofNat]
      omega
    have hbyte := (s.port.buf 0).toNat_lt
    have hbyte' := (s.port.buf 0 + 1).toNat_lt
    simp only [charAt, Nat.mul_zero]
    omega

theorem step_preserves_lossless (hpos : s.port.bufPos < 4294967296) (h : Lossless s)
    (hg : FitsEven s e) (hstep : next s e = some s') :
    s'.port.bufPos < 4294967296 ∧ Lossless s' := by
  cases e with
  | flush =>
    cases hstep
    exact ⟨by simp [parportFlush], flush_lossless h⟩
  | write size buf =>
    cases hstep
    refine ⟨?_, write_lossless hpos h hg.1 hg.2⟩
    by_cases hroom : wadd s.port.bufPos (size.toNat / 2) ≤ s.port.bufSize
    · rw [write_buffered s size buf hroom]
      exact wadd_lt _ _
    · rw [write_direct s size buf hroom]
      simp [parportFlush]

/-- As long as every write fits the port loses nothing, and a write that does not fit loses
something for some characters. -/
theorem parport_fifo {bufSize : ℕ} {buf : Memory}
    (hrun : Execution next FitsEven (created bufSize buf) s) :
    Lossless s ∧ ∀ size : UInt32, 2 ∣ size.toNat →
      ((∀ buf, Lossless (write s size buf)) ↔ Fits s size) := by
  have hinv : s.port.bufPos < 4294967296 ∧ Lossless s := by
    refine hrun.preserves (I := fun s => s.port.bufPos < 4294967296 ∧ Lossless s) ?_ ?_
    · exact fun _ _ _ h hg hstep => step_preserves_lossless h.1 h.2 hg hstep
    · exact ⟨by simp [created], rfl, Nat.zero_le _⟩
  exact ⟨hinv.2, fun size => lossless_iff_fits hinv.1 hinv.2⟩

end Runs

instance (s : State) : ∀ e, Decidable (FitsEven s e)
  | .write size _ => inferInstanceAs (Decidable (2 ∣ size.toNat ∧
      (wadd s.port.bufPos (size.toNat / 2) ≤ s.port.bufSize →
        size = 0 ∨ s.port.bufPos = 0 ∧ size.toNat ≤ s.port.bufSize)))
  | .flush => isTrue trivial

def oneChar (c : UInt8) : Memory := fun i => if i = 0 then c else 0

theorem parport_fifo_flushed : ∃ s, Execution next FitsEven (created 8192 fun _ => 0) s ∧
    s.port.sent = [0x41] ∧ s.written = [0x41, 0x42] ∧ Lossless s ∧
    ∀ buf, Lossless (write s 16384 buf) := by
  have hrun : (follow next FitsEven (created 8192 fun _ => 0)
      [.write 2 (oneChar 0x41), .flush, .write 2 (oneChar 0x42)]).map (fun s => decide
        (s.port.sent = [0x41] ∧ s.written = [0x41, 0x42] ∧ s.port.bufPos = 1 ∧
          s.port.bufSize = 8192)) = some true := by decide +kernel
  obtain ⟨s, hs, hd⟩ := Option.map_eq_some_iff.mp hrun
  obtain ⟨hsent, hwritten, hpos, hsize⟩ := of_decide_eq_true hd
  obtain ⟨hlossless, hiff⟩ := parport_fifo (execution_of_follow hs)
  have hfits : Fits s 16384 := by
    rw [Fits, hpos, hsize]
    decide
  exact ⟨s, execution_of_follow hs, hsent, hwritten, hlossless, (hiff 16384 (by decide)).mpr hfits⟩

/-- The second of two characters takes the place of the first one, and 16384 bytes are written into
a buffer of 8192. -/
theorem character_lost :
    (∃ s, Execution next (fun _ _ => True) (created 8192 fun _ => 0) s ∧
      s.port.sent = [] ∧ chars s.port.buf s.port.bufPos = [0x42, 0] ∧
      s.written = [0x41, 0x42] ∧ ¬ Lossless s) ∧
    ∃ s, Execution next (fun _ _ => True) (created 8192 fun _ => 0) s ∧
      s.port.bufSize = 8192 ∧ s.port.reach = 16384 ∧ ¬ Lossless s := by
  constructor
  · have hrun : (follow next (fun _ _ => True) (created 8192 fun _ => 0)
        [.write 2 (oneChar 0x41), .write 2 (oneChar 0x42)]).map (fun s => decide
          (s.port.sent = [] ∧ chars s.port.buf s.port.bufPos = [0x42, 0] ∧
            s.written = [0x41, 0x42])) = some true := by decide +kernel
    obtain ⟨s, hs, hd⟩ := Option.map_eq_some_iff.mp hrun
    obtain ⟨hsent, hbuf, hwritten⟩ := of_decide_eq_true hd
    refine ⟨s, execution_of_follow hs, hsent, hbuf, hwritten, fun h => ?_⟩
    have horder := h.order
    rw [hsent, hbuf, hwritten] at horder
    simp at horder
  · refine ⟨write (created 8192 fun _ => 0) 16384 fun _ => 0, .tail (e := .write 16384 fun _ => 0) (.refl _)
      trivial rfl, rfl, rfl, fun h => ?_⟩
    exact absurd h.inside (by decide)

end Parport
