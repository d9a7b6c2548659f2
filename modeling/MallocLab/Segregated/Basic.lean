import MallocLab.Block

namespace malloc_lab.segregated

/-- Triple word size. -/
def tsize : Nat := 3 * wsize

/-- Pointer size: the `pred` and `succ` fields are 64-bit pointers. -/
def ptr_size : Nat := 8

/-- Number of size classes. -/
def size_class_cnt : Nat := 16

/-- Minimum block size: header, dummy word, two pointers, dummy word and footer. -/
def min_block_size : Nat := 2 * wsize + 2 * ptr_size + 2 * wsize

/-- The prologue block is a minimum block. -/
def prologue_size : Nat := min_block_size

/-- The epilogue takes a double word; only its header is written. -/
def epilogue_size : Nat := dsize

/-- `sizeof(block_t)`: header, dummy word, `pred`, `succ`, dummy word, padded to 8. -/
def block_size : Nat := 32

/-- The allocator's globals: the heap region, `heap_listp` and `seglist` (`0` is `NULL`). -/
structure State where
  heap : Heap
  heap_listp : Nat
  seglist : Nat

/-- `get_payload_size`: the block size minus the header, the dummy word and the footer. -/
def get_payload_size (h : Heap) (block : Nat) : Except Fault Nat := do
  let asize ← get_size h block
  pure (size_sub asize tsize)

/-- `get_footer`: the payload starts after the header and the dummy word. -/
def get_footer (h : Heap) (block : Nat) : Except Fault Nat := do
  let ps ← get_payload_size h block
  pure (block + dsize + ps)

/-- `write_footer`: the footer position is computed from the current header's size. -/
def write_footer (h : Heap) (block size : Nat) (alloc : Bool) : Except Fault Heap := do
  let footer_ptr ← get_footer h block
  h.write footer_ptr wsize (pack size alloc)

/-- `payload_to_header`: `offsetof(block_t, payload)` is a double word. -/
def payload_to_header (pp : Nat) : Nat := pp - dsize

/-- `header_to_payload`. -/
def header_to_payload (block : Nat) : Nat := block + dsize

@[simp] theorem payload_to_header_header_to_payload (block : Nat) :
    payload_to_header (header_to_payload block) = block := by
  simp [payload_to_header, header_to_payload]

/-- The `pred` field of a block. -/
def pred_ptr (bp : Nat) : Nat := bp + dsize

/-- The `succ` field of a block. -/
def succ_ptr (bp : Nat) : Nat := bp + dsize + ptr_size

/-- The `do ... while (num > 0)` loop of `get_highest_1bit_idx`; `fuel` bounds its rounds, and
    a 32-bit `num` needs at most 32 of them. -/
def highest_1bit_loop : Nat → Nat → Nat → Nat
  | 0, _, idx => idx
  | fuel + 1, num, idx =>
    let num := num / 2
    let idx := idx + 1
    if num > 0 then highest_1bit_loop fuel num idx else idx

/-- `get_highest_1bit_idx`: the number of bits of the 32-bit `num` (`1` for `0`). -/
def get_highest_1bit_idx (num : Nat) : Nat := highest_1bit_loop 32 num 0

/-- `get_seglist_idx`: the size class of `size`, whose `uint32_t` argument to
    `get_highest_1bit_idx` keeps its low 32 bits. The test against `1 << (idx - 1)` is read as a
    power of two; where that shift overflows `int` (idx = 32) either reading gives class 15. -/
def get_seglist_idx (size : Nat) : Nat :=
  let highest_1bit_idx := get_highest_1bit_idx (size % 2 ^ 32)
  let highest_1bit_idx :=
    if size = 2 ^ (highest_1bit_idx - 1) then highest_1bit_idx - 1 else highest_1bit_idx
  if highest_1bit_idx ≤ 5 then 0
  else if highest_1bit_idx ≥ 20 then 15
  else highest_1bit_idx - 5

/-- `insert_free_block`: LIFO insertion after the head of the block's size class. -/
def insert_free_block (s : State) (bp : Nat) : Except Fault State := do
  let size ← get_size s.heap bp
  let idx := get_seglist_idx size
  let head := s.seglist + idx * block_size
  let h ← s.heap.write (pred_ptr bp) ptr_size head
  let first ← h.read (succ_ptr head) ptr_size
  let h ← h.write (succ_ptr bp) ptr_size first
  let pred ← h.read (pred_ptr bp) ptr_size
  let h ← h.write (succ_ptr pred) ptr_size bp
  let succ ← h.read (succ_ptr bp) ptr_size
  let h ← h.write (pred_ptr succ) ptr_size bp
  pure { s with heap := h }

/-- `remove_from_free_list`: unlinks `bp` from its list. -/
def remove_from_free_list (h : Heap) (bp : Nat) : Except Fault Heap := do
  let pred ← h.read (pred_ptr bp) ptr_size
  let succ ← h.read (succ_ptr bp) ptr_size
  let h ← h.write (succ_ptr pred) ptr_size succ
  let succ ← h.read (succ_ptr bp) ptr_size
  let pred ← h.read (pred_ptr bp) ptr_size
  h.write (pred_ptr succ) ptr_size pred

/-- `get_asize`: the request with header, dummy word and footer, rounded up to 8, at least a
    minimum block. -/
def get_asize (size : Nat) : Nat :=
  malloc_lab.max (round_up ((size + tsize) % 2 ^ 64) dsize) min_block_size

/-- `split_block`: allocates the first `asize` bytes of `bp` and puts the rest on its list. -/
def split_block (s : State) (bp asize : Nat) : Except Fault State := do
  let csize ← get_size s.heap bp
  let h ← write_header s.heap bp asize true
  let h ← write_footer h bp asize true
  let block_next ← find_next h bp
  let h ← write_header h block_next (size_sub csize asize) false
  let h ← write_footer h block_next (size_sub csize asize) false
  insert_free_block { s with heap := h } block_next

/-- `coalesce`: fuses `block` with its free neighbours (the four cases), takes the neighbours off
    their lists and puts the result on its list. -/
def coalesce (s : State) (block : Nat) : Except Fault (State × Nat) := do
  let block_next ← find_next s.heap block
  let block_prev ← find_prev s.heap block
  let prev_alloc ← get_alloc s.heap block_prev
  let next_alloc ← get_alloc s.heap block_next
  let size ← get_size s.heap block
  let (h, block) ←
    if prev_alloc && next_alloc then pure (s.heap, block)
    else if prev_alloc && !next_alloc then do
      let next_size ← get_size s.heap block_next
      let size := size + next_size
      let h ← write_header s.heap block size false
      let h ← write_footer h block size false
      let h ← remove_from_free_list h block_next
      pure (h, block)
    else if !prev_alloc && next_alloc then do
      let prev_size ← get_size s.heap block_prev
      let size := size + prev_size
      let h ← write_header s.heap block_prev size false
      let h ← write_footer h block_prev size false
      let h ← remove_from_free_list h block_prev
      pure (h, block_prev)
    else do
      let next_size ← get_size s.heap block_next
      let prev_size ← get_size s.heap block_prev
      let size := size + (next_size + prev_size)
      let h ← write_header s.heap block_prev size false
      let h ← write_footer h block_prev size false
      let h ← remove_from_free_list h block_prev
      let h ← remove_from_free_list h block_next
      pure (h, block_prev)
  let s ← insert_free_block { s with heap := h } block
  pure (s, block)

/-- `place`: takes `block` off its list and allocates `asize` bytes of it, splitting off the rest
    when that is at least a minimum block. -/
def place (s : State) (block asize : Nat) : Except Fault State := do
  let csize ← get_size s.heap block
  let h ← remove_from_free_list s.heap block
  if size_sub csize asize ≥ min_block_size then split_block { s with heap := h } block asize
  else do
    let h ← write_header h block csize true
    let h ← write_footer h block csize true
    pure { s with heap := h }

/-- The inner loop of `find_fit`: the first block from `block` on, before the list comes back to
    `head`, of at least `asize` bytes. `fuel` bounds the walk; running out of it is a fault. -/
def find_fit_scan (h : Heap) (asize head : Nat) : Nat → Nat → Except Fault (Option Nat)
  | 0, _ => .error .hang
  | fuel + 1, block =>
    if block = head then pure none
    else do
      let size ← get_size h block
      if asize ≤ size then pure (some block)
      else do
        let next ← h.read (succ_ptr block) ptr_size
        find_fit_scan h asize head fuel next

/-- The outer loop of `find_fit`: the size classes from `idx` on, `k` of them left. -/
def find_fit_classes (s : State) (asize : Nat) : Nat → Nat → Except Fault Nat
  | 0, _ => pure 0
  | k + 1, idx => do
    let head := s.seglist + idx * block_size
    let first ← s.heap.read (succ_ptr head) ptr_size
    match ← find_fit_scan s.heap asize head s.heap.brk first with
    | some block => pure block
    | none => find_fit_classes s asize k (idx + 1)

/-- `find_fit`: first fit in the request's size class and the classes above it. -/
def find_fit (s : State) (asize : Nat) : Except Fault Nat :=
  let idx := get_seglist_idx asize
  find_fit_classes s asize (size_class_cnt - idx) idx

/-- `extend_heap`: grows the heap, turns the old epilogue into a free block, writes a new epilogue
    and coalesces. -/
def extend_heap (s : State) (size : Nat) : Except Fault (State × Nat) := do
  let size := round_up size dsize
  match s.heap.mem_sbrk size with
  | (none, h) => pure ({ s with heap := h }, 0)
  | (some bp, h) =>
    let old_epi := bp - epilogue_size
    let h ← write_header h old_epi size false
    let h ← write_footer h old_epi size false
    let new_epi ← find_next h old_epi
    let h ← write_header h new_epi 0 true
    coalesce { s with heap := h } old_epi

/-- The loop of `mm_init` over the classes `0 .. i - 1`: each head is an allocated block of
    `block_size` bytes whose `pred` and `succ` point to itself. -/
def init_seglist (h : Heap) (start : Nat) : Nat → Except Fault Heap
  | 0 => pure h
  | i + 1 => do
    let h ← init_seglist h start i
    let b := start + i * block_size
    let h ← write_header h b block_size true
    let h ← write_footer h b block_size true
    let h ← h.write (pred_ptr b) ptr_size b
    h.write (succ_ptr b) ptr_size b

/-- `mm_init`: the 16 class heads, the prologue, the epilogue header, then one chunk. -/
def mm_init (s : State) : Except Fault (State × Int) :=
  match s.heap.mem_sbrk (size_class_cnt * block_size + prologue_size + epilogue_size) with
  | (none, h) => pure ({ s with heap := h }, -1)
  | (some start, h) => do
    let h ← init_seglist h start size_class_cnt
    let prologue := start + size_class_cnt * block_size
    let h ← write_header h prologue prologue_size true
    let h ← write_footer h prologue prologue_size true
    let epilogue := prologue + prologue_size
    let h ← write_header h epilogue 0 true
    let (s, block) ← extend_heap { heap := h, heap_listp := prologue, seglist := start } chunksize
    pure (s, if block = 0 then -1 else 0)

/-- `malloc`: the first fit of the adjusted size, or a fresh extension of the heap; `0` on
    failure. -/
def malloc (s : State) (size : Nat) : Except Fault (State × Nat) :=
  if size = 0 then pure (s, 0) else do
  let s ← if s.heap_listp = 0 then (do let (s, _) ← mm_init s; pure s) else pure s
  let asize := get_asize size
  let block ← find_fit s asize
  let (s, block) ← if block = 0 then extend_heap s (malloc_lab.max asize chunksize)
    else pure (s, block)
  if block = 0 then pure (s, 0) else do
  let s ← place s block asize
  pure (s, header_to_payload block)

/-- `free`: marks the block free, keeping its size, and coalesces. -/
def free (s : State) (ptr : Nat) : Except Fault State :=
  if ptr = 0 then pure s else do
  let block := payload_to_header ptr
  let size ← get_size s.heap block
  let h ← write_header s.heap block size false
  let h ← write_footer h block size false
  let (s, _) ← coalesce { s with heap := h } block
  pure s

/-- `realloc`: `free` for size 0, `malloc` for `NULL`; a block that is large enough is shrunk in
    place, splitting off the rest when that is at least a minimum block; otherwise a new block, a
    copy of the whole old payload and a `free` of the old block. -/
def realloc (s : State) (oldptr size : Nat) : Except Fault (State × Nat) :=
  if size = 0 then do
    let s ← free s oldptr
    pure (s, 0)
  else if oldptr = 0 then malloc s size
  else do
    let old_block := payload_to_header oldptr
    let oldsize ← get_size s.heap old_block
    let asize := get_asize size
    if oldsize ≥ asize then
      if size_sub oldsize asize ≥ min_block_size then do
        let s ← split_block s old_block asize
        pure (s, oldptr)
      else pure (s, oldptr)
    else do
      let (s, newptr) ← malloc s size
      if newptr = 0 then pure (s, 0) else do
      let copysize ← get_payload_size s.heap old_block
      let h ← s.heap.memcpy newptr oldptr copysize
      let s ← free { s with heap := h } oldptr
      pure (s, newptr)

/-- `calloc`: the product as `size_t`, with no overflow check, then `malloc` and a zero fill. -/
def calloc (s : State) (nmemb size : Nat) : Except Fault (State × Nat) := do
  let bytes := nmemb * size % 2 ^ 64
  let (s, newptr) ← malloc s bytes
  if newptr ≠ 0 then do
    let h ← s.heap.memset newptr 0 bytes
    pure ({ s with heap := h }, newptr)
  else pure (s, newptr)

/-- `mm_checkheap`: here `block_t` spans `block_size` bytes, so `next + 1` is `block_size` on. -/
def mm_checkheap (s : State) : Except Fault Bool :=
  checkheap s.heap s.heap_listp block_size

end malloc_lab.segregated
