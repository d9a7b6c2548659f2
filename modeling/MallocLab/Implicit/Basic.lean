import MallocLab.Chain

namespace malloc_lab.implicit

/-- Minimum block size: header, footer and one double word. -/
def min_block_size : Nat := 2 * dsize

/-- The allocator's globals: the heap region and `heap_listp` (`0` is `NULL`). -/
structure State where
  heap : Heap
  heap_listp : Nat

/-- `get_payload_size`: the block size minus the header and footer sizes. -/
def get_payload_size (h : Heap) (block : Nat) : Except Fault Nat := do
  let asize ← get_size h block
  pure (size_sub asize dsize)

/-- `write_footer`: the footer position is computed from the current header's size. -/
def write_footer (h : Heap) (block size : Nat) (alloc : Bool) : Except Fault Heap := do
  let sz ← get_size h block
  h.write (block + wsize + sz - dsize) wsize (pack size alloc)

/-- `payload_to_header`: the payload follows the one-word header. -/
def payload_to_header (pp : Nat) : Nat := pp - wsize

/-- `header_to_payload`. -/
def header_to_payload (block : Nat) : Nat := block + wsize

@[simp] theorem payload_to_header_header_to_payload (block : Nat) :
    payload_to_header (header_to_payload block) = block := by
  simp [payload_to_header, header_to_payload]

/-- `coalesce`: fuses `block` with whichever of its neighbours are free (the four cases) and
    returns the resulting block. -/
def coalesce (h : Heap) (block : Nat) : Except Fault (Heap × Nat) := do
  let block_next ← find_next h block
  let block_prev ← find_prev h block
  let prev_alloc ← get_alloc h block_prev
  let next_alloc ← get_alloc h block_next
  let size ← get_size h block
  if prev_alloc && next_alloc then
    pure (h, block)
  else if prev_alloc && !next_alloc then do
    let next_size ← get_size h block_next
    let size := size + next_size
    let h ← write_header h block size false
    let h ← write_footer h block size false
    pure (h, block)
  else if !prev_alloc && next_alloc then do
    let prev_size ← get_size h block_prev
    let size := size + prev_size
    let h ← write_header h block_prev size false
    let h ← write_footer h block_prev size false
    pure (h, block_prev)
  else do
    let next_size ← get_size h block_next
    let prev_size ← get_size h block_prev
    let size := size + (next_size + prev_size)
    let h ← write_header h block_prev size false
    let h ← write_footer h block_prev size false
    pure (h, block_prev)

/-- `place`: allocates `asize` bytes at the start of the free `block`, splitting off the rest
    as a free block when it is at least `min_block_size`. -/
def place (h : Heap) (block asize : Nat) : Except Fault Heap := do
  let csize ← get_size h block
  if size_sub csize asize ≥ min_block_size then do
    let h ← write_header h block asize true
    let h ← write_footer h block asize true
    let block_next ← find_next h block
    let h ← write_header h block_next (size_sub csize asize) false
    write_footer h block_next (size_sub csize asize) false
  else do
    let h ← write_header h block csize true
    write_footer h block csize true

/-- The loop of `find_fit`, from `block` on. The C loop runs until the epilogue; `fuel` bounds
    the walk, and running out of it (which a walk over blocks of the heap cannot) is a fault. -/
def find_fit_loop (h : Heap) (asize : Nat) : Nat → Nat → Except Fault Nat
  | 0, _ => .error .hang
  | fuel + 1, block => do
    let size ← get_size h block
    if size > 0 then do
      let alloc ← get_alloc h block
      let fits ← if !alloc then do
          let size ← get_size h block
          pure (decide (asize ≤ size))
        else pure false
      if fits then pure block
      else do
        let next ← find_next h block
        find_fit_loop h asize fuel next
    else pure 0

/-- `find_fit`: first fit, scanning the blocks from `heap_listp`; `0` when none fits. -/
def find_fit (s : State) (asize : Nat) : Except Fault Nat :=
  find_fit_loop s.heap asize s.heap.brk s.heap_listp

/-- `extend_heap`: grows the heap by `size` rounded up to a double word, turns the old epilogue
    into the header of a new free block, writes a new epilogue and coalesces. -/
def extend_heap (s : State) (size : Nat) : Except Fault (State × Nat) := do
  let size := round_up size dsize
  match s.heap.mem_sbrk size with
  | (none, h) => pure ({ s with heap := h }, 0)
  | (some bp, h) =>
    let block := payload_to_header bp
    let h ← write_header h block size false
    let h ← write_footer h block size false
    let block_next ← find_next h block
    let h ← write_header h block_next 0 true
    let (h, block) ← coalesce h block
    pure ({ s with heap := h }, block)

/-- `mm_init`: alignment padding, prologue header and footer, epilogue header, then one chunk. -/
def mm_init (s : State) : Except Fault (State × Int) :=
  match s.heap.mem_sbrk (4 * wsize) with
  | (none, h) => pure ({ s with heap := h }, -1)
  | (some start, h) => do
    let h ← h.write (start + 1 * wsize) wsize (pack dsize true)
    let h ← h.write (start + 2 * wsize) wsize (pack dsize true)
    let h ← h.write (start + 3 * wsize) wsize (pack 0 true)
    let (s, block) ← extend_heap { heap := h, heap_listp := start + 1 * wsize } chunksize
    pure (s, if block = 0 then -1 else 0)

/-- `malloc`: a block of at least `size + dsize` bytes rounded up to 8, from the first fit or
    from a fresh extension of the heap; `0` on failure. -/
def malloc (s : State) (size : Nat) : Except Fault (State × Nat) :=
  if size = 0 then pure (s, 0) else do
  let s ← if s.heap_listp = 0 then (do let (s, _) ← mm_init s; pure s) else pure s
  let asize := (round_up size dsize + dsize) % 2 ^ 64
  let block ← find_fit s asize
  let (s, block) ← if block = 0 then extend_heap s (malloc_lab.max asize chunksize)
    else pure (s, block)
  if block = 0 then pure (s, 0) else do
  let h ← place s.heap block asize
  pure ({ s with heap := h }, header_to_payload block)

/-- `free`: marks the block free, keeping its size, and coalesces. -/
def free (s : State) (bp : Nat) : Except Fault State :=
  if bp = 0 then pure s else do
  let block := payload_to_header bp
  let size ← get_size s.heap block
  let h ← write_header s.heap block size false
  let h ← write_footer h block size false
  let (h, _) ← coalesce h block
  pure { s with heap := h }

/-- `realloc`: `free` for size 0, `malloc` for `NULL`, otherwise a new block, a copy of
    `min(size, old payload)` bytes and a `free` of the old block. -/
def realloc (s : State) (ptr size : Nat) : Except Fault (State × Nat) :=
  let block := payload_to_header ptr
  if size = 0 then do
    let s ← free s ptr
    pure (s, 0)
  else if ptr = 0 then malloc s size
  else do
    let (s, newptr) ← malloc s size
    if newptr = 0 then pure (s, 0) else do
    let copysize ← get_payload_size s.heap block
    let copysize := if size < copysize then size else copysize
    let h ← s.heap.memcpy newptr ptr copysize
    let s ← free { s with heap := h } ptr
    pure (s, newptr)

/-- `calloc`: the product is checked for overflow by dividing it back; the block is zeroed. -/
def calloc (s : State) (nmemb size : Nat) : Except Fault (State × Nat) :=
  let asize := nmemb * size % 2 ^ 64
  if nmemb = 0 then .error .div_zero
  else if asize / nmemb ≠ size then pure (s, 0)
  else do
    let (s, bp) ← malloc s asize
    if bp = 0 then pure (s, 0) else do
    let h ← s.heap.memset bp 0 asize
    pure ({ s with heap := h }, bp)

/-- `mm_checkheap`: here `block_t` is the header word alone, so `next + 1` is one word on. -/
def mm_checkheap (s : State) : Except Fault Bool :=
  checkheap s.heap s.heap_listp wsize

end malloc_lab.implicit
