import Metakernel.LinkedNodes
import Mathlib.Tactic.Linarith

/-!
# Byte-addressed memory and 32-bit words

Addresses and machine words are natural numbers; `wadd` and `wsub` wrap at 2^32. Words are
stored little-endian, and a field of a node is a word at a fixed offset from the node.
-/
namespace ByteMemory

open LinkedNodes

def wadd (a b : ℕ) : ℕ := (a + b) % 4294967296

def wsub (a b : ℕ) : ℕ := (a + (4294967296 - b % 4294967296)) % 4294967296

theorem wadd_eq {a b : ℕ} (h : a + b < 4294967296) : wadd a b = a + b := Nat.mod_eq_of_lt h

theorem wsub_eq {a b : ℕ} (ha : a < 4294967296) (hb : b ≤ a) : wsub a b = a - b := by
  unfold wsub
  omega

theorem wadd_lt (a b : ℕ) : wadd a b < 4294967296 := Nat.mod_lt _ (by norm_num)

theorem wsub_lt (a b : ℕ) : wsub a b < 4294967296 := Nat.mod_lt _ (by norm_num)

theorem wadd_trans {a b c x y z : ℕ} (h₁ : wadd b x = wadd a y) (h₂ : wadd c y = wadd b z) :
    wadd c x = wadd a z := by
  unfold wadd at *
  omega

abbrev Memory := ℕ → UInt8

def load32 (m : Memory) (a : ℕ) : ℕ :=
  (m a).toNat + 256 * (m (a + 1)).toNat + 65536 * (m (a + 2)).toNat +
    16777216 * (m (a + 3)).toNat

def store32 (m : Memory) (a v : ℕ) : Memory := fun b =>
  if b = a then UInt8.ofNat v
  else if b = a + 1 then UInt8.ofNat (v / 256)
  else if b = a + 2 then UInt8.ofNat (v / 65536)
  else if b = a + 3 then UInt8.ofNat (v / 16777216)
  else m b

theorem store32_frame (m : Memory) (a v : ℕ) {b : ℕ} (h : b < a ∨ a + 4 ≤ b) :
    store32 m a v b = m b := by
  unfold store32
  rw [if_neg (by omega), if_neg (by omega), if_neg (by omega), if_neg (by omega)]

theorem load32_store32 (m : Memory) (a : ℕ) {v : ℕ} (hv : v < 4294967296) :
    load32 (store32 m a v) a = v := by
  simp only [load32, store32, if_true, UInt8.toNat_ofNat']
  rw [if_neg (by omega), if_neg (by omega), if_neg (by omega), if_neg (by omega),
    if_neg (by omega), if_neg (by omega)]
  simp only [UInt8.toNat_ofNat']
  omega

theorem load32_congr {m m' : Memory} {a : ℕ} (h : ∀ b, a ≤ b → b < a + 4 → m' b = m b) :
    load32 m' a = load32 m a := by
  simp only [load32, h a (by omega) (by omega), h (a + 1) (by omega) (by omega),
    h (a + 2) (by omega) (by omega), h (a + 3) (by omega) (by omega)]

theorem load32_store32_of_apart (m : Memory) (v : ℕ) {a b : ℕ} (h : b + 4 ≤ a ∨ a + 4 ≤ b) :
    load32 (store32 m a v) b = load32 m b :=
  load32_congr fun _ _ _ => store32_frame m a v (by omega)

theorem store32_zero (m : Memory) (a b : ℕ) :
    store32 m a 0 b = if a ≤ b ∧ b < a + 4 then 0 else m b := by
  split
  · unfold store32
    split_ifs <;> first | rfl | omega
  · exact store32_frame m a 0 (by omega)

theorem load32_eq_zero_iff (m : Memory) (a : ℕ) :
    load32 m a = 0 ↔ ∀ b, a ≤ b → b < a + 4 → m b = 0 := by
  have hbyte : ∀ b, (m b).toNat = 0 ↔ m b = 0 := fun b => UInt8.toNat_inj (a := m b) (b := 0)
  constructor
  · intro h b hab hba
    rw [load32] at h
    rw [← hbyte]
    obtain rfl | rfl | rfl | rfl : b = a ∨ b = a + 1 ∨ b = a + 2 ∨ b = a + 3 := by omega
    all_goals omega
  · intro h
    rw [load32, (hbyte a).mpr (h a (by omega) (by omega)),
      (hbyte (a + 1)).mpr (h _ (by omega) (by omega)),
      (hbyte (a + 2)).mpr (h _ (by omega) (by omega)),
      (hbyte (a + 3)).mpr (h _ (by omega) (by omega))]

theorem words_zero_iff (m : Memory) (p n : ℕ) :
    (∀ i < n, load32 m (p + 4 * i) = 0) ↔ ∀ b, p ≤ b → b < p + 4 * n → m b = 0 := by
  constructor
  · intro h b hpb hb
    exact (load32_eq_zero_iff m _).mp (h ((b - p) / 4) (by omega)) b (by omega) (by omega)
  · intro h i hi
    exact (load32_eq_zero_iff m _).mpr fun b hb₁ hb₂ => h b (by omega) (by omega)

def wordField (offset : ℕ) : NodeField Memory ℕ ℕ where
  get m p := load32 m (p + offset)
  set m p v := store32 m (p + offset) v

/-- Nodes aligned on `n` bytes do not overlap, so the words inside one node behave as
fields as long as the offsets stay below `n` and apart. -/
theorem wordField_lawful {n offset : ℕ} (hoff : offset + 4 ≤ n) {N D : ℕ → Prop}
    (hN : ∀ p, N p → n ∣ p) (hD : ∀ v, D v → v < 4294967296) :
    (wordField offset).Lawful N D := by
  constructor
  · intro m p v _ hv
    exact load32_store32 m _ (hD v hv)
  · intro m p q v hp hq hne
    refine load32_store32_of_apart m v ?_
    obtain ⟨i, rfl⟩ := hN p hp
    obtain ⟨j, rfl⟩ := hN q hq
    have hij : i ≠ j := fun h => hne (by rw [h])
    rcases Nat.lt_or_gt_of_ne hij with h | h
    · have := Nat.mul_le_mul_left n (show i + 1 ≤ j from h)
      rw [Nat.mul_add, Nat.mul_one] at this
      omega
    · have := Nat.mul_le_mul_left n (show j + 1 ≤ i from h)
      rw [Nat.mul_add, Nat.mul_one] at this
      omega

theorem wordField_untouched {n o₁ o₂ : ℕ} (h₁ : o₁ + 4 ≤ n) (h₂ : o₂ + 4 ≤ n)
    (hne : o₁ + 4 ≤ o₂ ∨ o₂ + 4 ≤ o₁) {N : ℕ → Prop} (hN : ∀ p, N p → n ∣ p) :
    (wordField o₁).Untouched (wordField o₂) N := by
  intro m p q v hp hq
  refine load32_store32_of_apart m v ?_
  obtain ⟨i, rfl⟩ := hN p hp
  obtain ⟨j, rfl⟩ := hN q hq
  rcases Nat.lt_trichotomy i j with h | rfl | h
  · have := Nat.mul_le_mul_left n (show i + 1 ≤ j from h)
    rw [Nat.mul_add, Nat.mul_one] at this
    omega
  · omega
  · have := Nat.mul_le_mul_left n (show j + 1 ≤ i from h)
    rw [Nat.mul_add, Nat.mul_one] at this
    omega

end ByteMemory
