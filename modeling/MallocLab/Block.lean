import MallocLab.Memory

namespace malloc_lab

/-- Word and header size in bytes: `sizeof(word_t)` with `word_t = uint32_t`. -/
def wsize : Nat := 4

/-- Double word size in bytes. -/
def dsize : Nat := 2 * wsize

/-- The default amount by which the heap is extended. -/
def chunksize : Nat := 2 ^ 12

/-- `alloc_mask = 0x1`. -/
def alloc_mask : Nat := 1

/-- `size_mask = ~(word_t)0x7`, as a 32-bit value. -/
def size_mask : Nat := 2 ^ 32 - 8

/-- `size_t` subtraction, wrapping modulo `2 ^ 64`. -/
def size_sub (x y : Nat) : Nat := (x + (2 ^ 64 - y % 2 ^ 64)) % 2 ^ 64

/-- `max`: returns `x` if `x > y`, and `y` otherwise. -/
protected def max (x y : Nat) : Nat := if x > y then x else y

/-- `round_up`: rounds `size` up to the next multiple of `n`; the sum wraps as a `size_t`. -/
def round_up (size n : Nat) : Nat := n * ((size + (n - 1)) % 2 ^ 64 / n)

/-- `pack`: the header word of a block, with the low bit set when it is allocated; the
    `size_t` result is narrowed to `word_t`. -/
def pack (size : Nat) (alloc : Bool) : Nat := (if alloc then size ||| 1 else size) % 2 ^ 32

/-- `extract_size`: the size recorded in a header word. -/
def extract_size (word : Nat) : Nat := word &&& size_mask

/-- `extract_alloc`: the allocation bit of a header word. -/
def extract_alloc (word : Nat) : Bool := word &&& alloc_mask != 0

theorem extract_size_eq {w : Nat} (hw : w < 2 ^ 32) : extract_size w = w / 8 * 8 := by
  obtain ⟨q, r, hr, rfl⟩ : ∃ q r, r < 2 ^ 3 ∧ w = 2 ^ 3 * q + r := ⟨w / 8, w % 8, by omega, by omega⟩
  have hq : (2 ^ 3 * q + r) / 8 * 8 = 2 ^ 3 * q := by omega
  have hmask : size_mask = 2 ^ 3 * (2 ^ 29 - 1) := by norm_num [size_mask]
  rw [extract_size, hq, hmask]
  apply Nat.eq_of_testBit_eq
  intro i
  rw [Nat.testBit_and, Nat.testBit_mul_pow_two, Nat.testBit_mul_pow_two,
    Nat.testBit_mul_pow_two_add _ hr, Nat.testBit_two_pow_sub_one]
  by_cases hi : i < 3
  · simp [hi, show ¬ 3 ≤ i by omega]
  · by_cases hj : i - 3 < 29
    · simp [hi, hj, show 3 ≤ i by omega]
    · have hq : q.testBit (i - 3) = false :=
        Nat.testBit_lt_two_pow (lt_of_lt_of_le (show q < 2 ^ 29 by omega)
          (Nat.pow_le_pow_right (by norm_num) (by omega)))
      simp [hi, hj, hq]

theorem extract_size_lt (w : Nat) : extract_size w < 2 ^ 32 :=
  Nat.lt_of_le_of_lt Nat.and_le_right (by norm_num [size_mask])

theorem extract_alloc_eq (w : Nat) : extract_alloc w = decide (w % 2 = 1) := by
  simp only [extract_alloc, alloc_mask, Nat.and_one_is_mod]
  cases Nat.mod_two_eq_zero_or_one w with
  | inl h => simp [h]
  | inr h => simp [h]

theorem or_one_of_even {s : Nat} (hs : s % 2 = 0) : s ||| 1 = s + 1 := by
  have h := Nat.mul_add_lt_is_or (i := 1) (b := 1) (by norm_num) (s / 2)
  rw [pow_one, show 2 * (s / 2) = s by omega] at h
  exact h.symm

theorem pack_lt (s : Nat) (a : Bool) : pack s a < 2 ^ 32 := Nat.mod_lt _ (by norm_num)

theorem pack_of_aligned {s : Nat} (hs : s % 8 = 0) (hlt : s < 2 ^ 32) (a : Bool) :
    pack s a = s + (if a then 1 else 0) := by
  cases a with
  | false => simp only [pack, Bool.false_eq_true, if_false, Nat.mod_eq_of_lt hlt, Nat.add_zero]
  | true =>
    simp only [pack, if_true, or_one_of_even (show s % 2 = 0 by omega)]
    exact Nat.mod_eq_of_lt (by omega)

@[simp] theorem extract_size_pack {s : Nat} (hs : s % 8 = 0) (hlt : s < 2 ^ 32) (a : Bool) :
    extract_size (pack s a) = s := by
  rw [extract_size_eq (pack_lt s a), pack_of_aligned hs hlt]
  cases a <;> simp <;> omega

@[simp] theorem extract_alloc_pack {s : Nat} (hs : s % 8 = 0) (hlt : s < 2 ^ 32) (a : Bool) :
    extract_alloc (pack s a) = a := by
  rw [extract_alloc_eq, pack_of_aligned hs hlt]
  cases a <;> simp <;> omega

theorem size_sub_of_le {x y : Nat} (hxy : y ≤ x) (hx : x < 2 ^ 64) : size_sub x y = x - y := by
  unfold size_sub
  rw [Nat.mod_eq_of_lt (show y < 2 ^ 64 by omega)]
  omega

theorem round_up_dsize {size : Nat} (hs : size + 7 < 2 ^ 64) :
    round_up size dsize = (size + 7) / 8 * 8 := by
  simp only [round_up, dsize, wsize, Nat.mod_eq_of_lt hs]
  omega

-- Heap accessors shared, word for word, by both allocators.

/-- `get_size`: the size in the header of `block`. -/
def get_size (h : Heap) (block : Nat) : Except Fault Nat := do
  let w ← h.read block wsize
  pure (extract_size w)

/-- `get_alloc`: the allocation bit in the header of `block`. -/
def get_alloc (h : Heap) (block : Nat) : Except Fault Bool := do
  let w ← h.read block wsize
  pure (extract_alloc w)

/-- `write_header`: stores the packed word at the start of `block`. -/
def write_header (h : Heap) (block size : Nat) (alloc : Bool) : Except Fault Heap :=
  h.write block wsize (pack size alloc)

/-- `find_next`: the block that follows `block`, from the size in its header. -/
def find_next (h : Heap) (block : Nat) : Except Fault Nat := do
  let size ← get_size h block
  pure (block + size)

/-- `find_prev_footer`: the word just before the header of `block`. -/
def find_prev_footer (block : Nat) : Nat := block - wsize

/-- `find_prev`: the block that precedes `block`, from the size in the footer before it. -/
def find_prev (h : Heap) (block : Nat) : Except Fault Nat := do
  let w ← h.read (find_prev_footer block) wsize
  pure (block - extract_size w)

/-- The loop of `mm_checkheap`, for a `block_t` of `blk` bytes: while the block after `curr`,
    one `block_t` on, lies below `hi`, the header of `curr` must equal the footer before that
    block. The C loop has no bound; `fuel` bounds the walk, and running out of it is a fault. -/
def checkheap_loop (h : Heap) (blk hi : Nat) : Nat → Nat → Except Fault Bool
  | 0, _ => .error .hang
  | fuel + 1, curr => do
    let next ← find_next h curr
    if next + blk < hi then do
      let hdr ← h.read curr wsize
      let ftr ← h.read (find_prev_footer next) wsize
      if hdr ≠ ftr then pure false
      else checkheap_loop h blk hi fuel next
    else pure true

/-- `mm_checkheap`: `false` without a heap, else header against footer for every block from
    `heap_listp` on, up to `mem_heap_hi()`, the last byte of the region. -/
def checkheap (h : Heap) (heap_listp blk : Nat) : Except Fault Bool :=
  if heap_listp = 0 then pure false
  else checkheap_loop h blk (h.brk - 1) h.brk heap_listp

end malloc_lab
