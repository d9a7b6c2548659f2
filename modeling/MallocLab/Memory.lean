import Mathlib.Tactic.Ring
import Mathlib.Tactic.Linarith

namespace malloc_lab

/-- Byte-addressed memory: the contents of every address. -/
def Mem := Nat → UInt8

namespace Mem

/-- The little-endian value of the `k` bytes starting at `a`. -/
def load (m : Mem) (a : Nat) : Nat → Nat
  | 0 => 0
  | k + 1 => (m a).toNat + 256 * m.load (a + 1) k

/-- Little-endian store of `v` (modulo `256 ^ k`) into the `k` bytes starting at `a`. -/
def store (m : Mem) (a k v : Nat) : Mem := fun x =>
  if a ≤ x ∧ x < a + k then UInt8.ofNat (v / 256 ^ (x - a)) else m x

/-- `memcpy`: the `n` bytes at `dst` take the values of the `n` bytes at `src`. -/
def copy (m : Mem) (dst src n : Nat) : Mem := fun x =>
  if dst ≤ x ∧ x < dst + n then m (src + (x - dst)) else m x

/-- `memset`: the `n` bytes at `p` take the value `c`. -/
def fill (m : Mem) (p n : Nat) (c : UInt8) : Mem := fun x =>
  if p ≤ x ∧ x < p + n then c else m x

variable {m m' : Mem} {a b k j v x : Nat}

theorem store_apply_of_not_mem (hx : x < a ∨ a + k ≤ x) : m.store a k v x = m x := by
  simp only [store]
  rw [if_neg (by omega)]

theorem copy_apply_of_not_mem {dst src n : Nat} (hx : x < dst ∨ dst + n ≤ x) :
    m.copy dst src n x = m x := by
  simp only [copy]
  rw [if_neg (by omega)]

theorem fill_apply_of_not_mem {p n : Nat} {c : UInt8} (hx : x < p ∨ p + n ≤ x) :
    m.fill p n c x = m x := by
  simp only [fill]
  rw [if_neg (by omega)]

theorem load_congr (h : ∀ i < k, m' (a + i) = m (a + i)) : m'.load a k = m.load a k := by
  induction k generalizing a with
  | zero => rfl
  | succ k ih =>
    have h0 := h 0 (by omega)
    simp only [Nat.add_zero] at h0
    have htail : m'.load (a + 1) k = m.load (a + 1) k :=
      ih fun i hi => by simpa [Nat.add_assoc, Nat.add_comm 1 i] using h (i + 1) (by omega)
    simp only [load, h0, htail]

theorem load_lt (m : Mem) (a k : Nat) : m.load a k < 256 ^ k := by
  induction k generalizing a with
  | zero => simp [load]
  | succ k ih =>
    have hb : (m a).toNat < 256 := (m a).toBitVec.isLt
    have := ih (a + 1)
    rw [load, pow_succ]
    omega

/-- A store leaves every load that does not overlap it unchanged. -/
theorem load_store_of_disjoint (h : b + j ≤ a ∨ a + k ≤ b) :
    (m.store a k v).load b j = m.load b j :=
  load_congr fun i hi => store_apply_of_not_mem (by omega)

theorem load_store_self : (m.store a k v).load a k = v % 256 ^ k := by
  induction k generalizing a v with
  | zero => simp [load, Nat.mod_one]
  | succ k ih =>
    have hshift : (m.store a (k + 1) v).load (a + 1) k = (m.store (a + 1) k (v / 256)).load (a + 1) k :=
      load_congr fun i hi => by
        simp only [store]
        rw [if_pos (by omega), if_pos (by omega)]
        congr 1
        rw [Nat.div_div_eq_div_mul, ← pow_succ']
        congr 2
        omega
    have h0 : (m.store a (k + 1) v a).toNat = v % 256 := by
      simp only [store]
      rw [if_pos (by omega)]
      simp [UInt8.toNat, UInt8.ofNat]
    rw [load, hshift, ih, h0, pow_succ', Nat.mod_mul]

theorem load_store_of_eq (h : b = a) : (m.store a k v).load b k = v % 256 ^ k :=
  h ▸ load_store_self

theorem load_copy_of_disjoint {dst src n : Nat} (h : b + j ≤ dst ∨ dst + n ≤ b) :
    (m.copy dst src n).load b j = m.load b j :=
  load_congr fun i hi => copy_apply_of_not_mem (by omega)

theorem load_fill_of_disjoint {p n : Nat} {c : UInt8} (h : b + j ≤ p ∨ p + n ≤ b) :
    (m.fill p n c).load b j = m.load b j :=
  load_congr fun i hi => fill_apply_of_not_mem (by omega)

end Mem

/-- Why a run of the allocator stops: an access outside the heap region, a division by zero,
    or a list walk that does not come back to its head. -/
inductive Fault
  | segv
  | div_zero
  | hang
  deriving DecidableEq, Repr

@[simp] theorem ok_bind {α β : Type} (x : α) (f : α → Except Fault β) :
    (Except.ok x >>= f) = f x := rfl

@[simp] theorem error_bind {α β : Type} (e : Fault) (f : α → Except Fault β) :
    (Except.error e >>= f) = Except.error e := rfl

@[simp] theorem pure_eq_ok {α : Type} (x : α) : (pure x : Except Fault α) = .ok x := rfl

theorem bind_eq_ok_iff {α β : Type} {x : Except Fault α} {f : α → Except Fault β} {y : β} :
    (x >>= f) = .ok y ↔ ∃ a, x = .ok a ∧ f a = .ok y := by
  cases x <;> simp

/-- The region memlib manages: the bytes `[lo, brk)` are the heap (`mem_heap_lo` to
    `mem_heap_hi`), and `grants` answers the coming `mem_sbrk` requests in turn. -/
structure Heap where
  mem : Mem
  lo : Nat
  brk : Nat
  grants : Nat → Bool

/-- The backing region never grows to `2 ^ 31` bytes. -/
def MAX_HEAP : Nat := 2 ^ 31 - 1

namespace Heap

/-- Reads `k` bytes at `a`, faulting outside the heap. -/
def read (h : Heap) (a k : Nat) : Except Fault Nat :=
  if h.lo ≤ a ∧ a + k ≤ h.brk then .ok (h.mem.load a k) else .error .segv

/-- Writes `v` into the `k` bytes at `a`, faulting outside the heap. -/
def write (h : Heap) (a k v : Nat) : Except Fault Heap :=
  if h.lo ≤ a ∧ a + k ≤ h.brk then .ok { h with mem := h.mem.store a k v } else .error .segv

/-- `memcpy(dst, src, n)`. -/
def memcpy (h : Heap) (dst src n : Nat) : Except Fault Heap :=
  if n = 0 then .ok h
  else if h.lo ≤ src ∧ src + n ≤ h.brk ∧ h.lo ≤ dst ∧ dst + n ≤ h.brk then
    .ok { h with mem := h.mem.copy dst src n }
  else .error .segv

/-- `memset(p, c, n)`. -/
def memset (h : Heap) (p : Nat) (c : UInt8) (n : Nat) : Except Fault Heap :=
  if n = 0 then .ok h
  else if h.lo ≤ p ∧ p + n ≤ h.brk then .ok { h with mem := h.mem.fill p n c }
  else .error .segv

/-- Modelled from the spec: `extend(n)` grows the region by exactly `n` bytes at its high end
    and returns the old top, or signals failure. The provider grants or refuses each request
    as `grants` says, and refuses any that would take the region to `2 ^ 31` bytes. -/
def mem_sbrk (h : Heap) (incr : Nat) : Option Nat × Heap :=
  let rest : Heap := { h with grants := fun i => h.grants (i + 1) }
  if h.grants 0 = true ∧ h.brk + incr ≤ h.lo + MAX_HEAP then
    (some h.brk, { rest with brk := h.brk + incr })
  else (none, rest)

variable {h : Heap} {a k v : Nat}

theorem read_of_mem (ha : h.lo ≤ a) (hk : a + k ≤ h.brk) : h.read a k = .ok (h.mem.load a k) := by
  simp [read, ha, hk]

theorem write_of_mem (ha : h.lo ≤ a) (hk : a + k ≤ h.brk) :
    h.write a k v = .ok { h with mem := h.mem.store a k v } := by
  simp [write, ha, hk]

theorem memcpy_of_mem {dst src n : Nat} (hs : h.lo ≤ src) (hs' : src + n ≤ h.brk) (hd : h.lo ≤ dst)
    (hd' : dst + n ≤ h.brk) : h.memcpy dst src n = .ok { h with mem := h.mem.copy dst src n } := by
  unfold memcpy
  split
  · subst n
    have : h.mem.copy dst src 0 = h.mem := funext fun x => by simp [Mem.copy]
    rw [this]
  · simp [hs, hs', hd, hd']

theorem memset_of_mem {p n : Nat} {c : UInt8} (hp : h.lo ≤ p) (hp' : p + n ≤ h.brk) :
    h.memset p c n = .ok { h with mem := h.mem.fill p n c } := by
  unfold memset
  split
  · subst n
    have : h.mem.fill p 0 c = h.mem := funext fun x => by simp [Mem.fill]
    rw [this]
  · simp [hp, hp']

theorem read_eq_error (ha : ¬ (h.lo ≤ a ∧ a + k ≤ h.brk)) : h.read a k = .error .segv := by
  simp only [read, if_neg ha]

theorem write_eq_error (ha : ¬ (h.lo ≤ a ∧ a + k ≤ h.brk)) : h.write a k v = .error .segv := by
  simp only [write, if_neg ha]

end Heap

end malloc_lab
