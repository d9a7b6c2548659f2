import MallocLab.Segregated.Spec
import MallocLab.FreeOrder

namespace malloc_lab.segregated

/-- The prologue, the allocated block just before the first real block. -/
def prologue : Blk := ⟨prologue_size, true⟩

/-- The real blocks once `extend_heap` turns the old epilogue into a free block of `size` bytes
    after the blocks from `a`: `coalesce` merges it with the last block when that one is free. -/
def extend_blocks (a size : Nat) (bs : List Blk) : List Blk :=
  (free_at (a + total bs) a prologue (bs ++ [⟨size, false⟩])).tail

/-- The answers `find_fit` may give for `asize` over the real blocks from `a`: the address of a
    free block with room for `asize` bytes, or `NULL` when no free block has room. -/
def Fit (a asize : Nat) (bs : List Blk) (r : Nat) : Prop :=
  if r = 0 then ∀ x ∈ layout a bs, x.2.alloc = true ∨ x.2.size < asize
  else ∃ x ∈ layout a bs, x.1 = r ∧ x.2.alloc = false ∧ asize ≤ x.2.size

instance (a asize : Nat) (bs : List Blk) (r : Nat) : Decidable (Fit a asize bs r) :=
  inferInstanceAs (Decidable (if r = 0 then ∀ x ∈ layout a bs, x.2.alloc = true ∨ x.2.size < asize
    else ∃ x ∈ layout a bs, x.1 = r ∧ x.2.alloc = false ∧ asize ≤ x.2.size))

/-- `malloc` over the real blocks from `a` when `find_fit` answered `r`: the adjusted request is
    carved from that block; with none, and when the provider `grant`s a chunk that keeps the
    region within its cap, from the free block the chunk leaves at the end. The new blocks and
    the payload returned. -/
def malloc_blocks (a n : Nat) (grant : Bool) (r : Nat) (bs : List Blk) : List Blk × Nat :=
  if n = 0 then (bs, 0)
  else if r ≠ 0 then (carve_at min_block_size r (get_asize n) a bs, header_to_payload r)
  else if grant = true ∧
      total sentinels + total bs + epilogue_size + malloc_lab.max (get_asize n) chunksize ≤ MAX_HEAP then
    let r := a + total bs - free_bytes (bs.getLastD prologue)
    (carve_at min_block_size r (get_asize n) a (extend_blocks a (malloc_lab.max (get_asize n) chunksize) bs),
      header_to_payload r)
  else (bs, 0)

/-- `free` over the real blocks from `a`: the block of the payload `p` becomes free and absorbs
    its free neighbours; `NULL` changes nothing. -/
def free_blocks (a p : Nat) (bs : List Blk) : List Blk :=
  if p = 0 then bs else (free_at (payload_to_header p) a prologue bs).tail

/-- `realloc` over the real blocks from `a` when `find_fit` would answer `r`: `free` for size `0`,
    `malloc` for `NULL`; a block with room is carved in place, its rest left free and unmerged;
    otherwise a new block and the old one freed, or nothing at all when the new block cannot be
    had. -/
def realloc_blocks (a p n : Nat) (grant : Bool) (r : Nat) (bs : List Blk) : List Blk × Nat :=
  if n = 0 then (free_blocks a p bs, 0)
  else if p = 0 then malloc_blocks a n grant r bs
  else if get_asize n ≤ size_of (payload_to_header p) a bs then
    (carve_at min_block_size (payload_to_header p) (get_asize n) a bs, p)
  else
    let (bs₁, q) := malloc_blocks a n grant r bs
    if q = 0 then (bs₁, 0) else (free_blocks a p bs₁, q)

/-- `calloc` over the real blocks from `a`: `malloc` of the product as a `size_t`. -/
def calloc_blocks (a nmemb size : Nat) (grant : Bool) (r : Nat) (bs : List Blk) : List Blk × Nat :=
  malloc_blocks a (nmemb * size % 2 ^ 64) grant r bs

/-- The adjusted size the `find_fit` of a call looks for: that of the bytes the call asks
    `malloc` for. `free` calls no `find_fit`. -/
def request_asize : Call → Nat
  | .malloc n => get_asize n
  | .free _ => get_asize 0
  | .realloc _ n => get_asize n
  | .calloc nmemb size => get_asize (nmemb * size % 2 ^ 64)

/-- One call of the interface over the real blocks from `a`, with the provider's next answer and
    the answer `r` of the call's `find_fit`: which fitting block that is depends on the order of
    the free lists, which this level does not see, and `Fit` says which answers are possible. -/
def step_blocks (a : Nat) (grant : Bool) (r : Nat) (bs : List Blk) : Call → List Blk × Nat
  | .malloc n => malloc_blocks a n grant r bs
  | .free p => (free_blocks a p bs, 0)
  | .realloc p n => realloc_blocks a p n grant r bs
  | .calloc nmemb size => calloc_blocks a nmemb size grant r bs

example : Fit 560 1016 [⟨4096, false⟩] 560 ∧ ¬Fit 560 1016 [⟨4096, false⟩] 0 := by decide

example : step_blocks 560 true 560 [⟨4096, false⟩] (.malloc 1000) = ([⟨1016, true⟩, ⟨3080, false⟩], 568) := by
  decide

example :
    step_blocks 560 true 0 [⟨1016, true⟩, ⟨3080, false⟩] (.realloc 568 32) =
      ([⟨48, true⟩, ⟨968, false⟩, ⟨3080, false⟩], 568) := by
  decide

section blocks

variable {a p asize : Nat} {bs : List Blk}

/-- Every list of blocks from a positive address has an answer for `find_fit`. -/
theorem exists_fit (ha : 0 < a) (asize : Nat) (bs : List Blk) : ∃ r, Fit a asize bs r := by
  by_cases hnone : ∀ x ∈ layout a bs, x.2.alloc = true ∨ x.2.size < asize
  · exact ⟨0, by simpa [Fit] using hnone⟩
  · push_neg at hnone
    obtain ⟨x, hx, hal, hle⟩ := hnone
    have hx0 : x.1 ≠ 0 := by have := (mem_layout hx).2.1; omega
    refine ⟨x.1, ?_⟩
    rw [Fit, if_neg hx0]
    exact ⟨x, hx, rfl, by simpa using hal, hle⟩

/-- `find_fit`'s answer as its spec gives it is a possible answer. -/
theorem fit_of_iff {r : Nat} (hnone : r = 0 ↔ ∀ q S, (q, ⟨S, false⟩) ∈ layout a bs → S < asize)
    (hsome : r ≠ 0 → ∃ S, (r, ⟨S, false⟩) ∈ layout a bs ∧ asize ≤ S) : Fit a asize bs r := by
  unfold Fit
  split
  · rintro ⟨q, ⟨S, _ | _⟩⟩ hx
    · exact .inr (hnone.1 ‹_› q S hx)
    · exact .inl rfl
  · obtain ⟨S, hS, hle⟩ := hsome ‹_›
    exact ⟨_, hS, rfl, rfl, hle⟩

theorem total_free_blocks : total (free_blocks a p bs) = total bs := by
  unfold free_blocks
  split
  · rfl
  · have h : total (free_at (payload_to_header p) a prologue bs) = prologue.size + total bs := total_free_at
    rw [free_at_eq_cons rfl, total_cons] at h
    exact Nat.add_left_cancel h

theorem total_extend_blocks {e : Nat} : total (extend_blocks a e bs) = total bs + e := by
  have h : total (free_at (a + total bs) a prologue (bs ++ [⟨e, false⟩])) =
      prologue.size + total (bs ++ [⟨e, false⟩]) := total_free_at
  rw [free_at_eq_cons rfl, total_cons, total_append] at h
  simp only [total_cons, total_nil, Nat.add_zero] at h
  exact Nat.add_left_cancel h

/-- `malloc` adds bytes to the blocks only when `find_fit` answered `NULL`, and then exactly the
    chunk it asks the provider for. -/
theorem total_malloc_blocks (a n : Nat) (grant : Bool) (r : Nat) (bs : List Blk) :
    total (malloc_blocks a n grant r bs).1 = total bs ∨
      (r = 0 ∧ total (malloc_blocks a n grant r bs).1 = total bs + malloc_lab.max (get_asize n) chunksize) := by
  have hk : 0 < min_block_size := by decide
  unfold malloc_blocks
  split
  · exact .inl rfl
  split
  · exact .inl (total_carve_at hk)
  rename_i hr
  split
  · exact .inr ⟨not_not.1 hr, by simp only [total_carve_at hk, total_extend_blocks]⟩
  · exact .inl rfl

/-- `free` of two distinct allocated blocks leaves the same blocks in either order, free blocks
    side by side or not. -/
theorem free_blocks_comm {q Sp Sq : Nat} (hpos : ∀ d ∈ bs, 0 < d.size) (hp0 : p ≠ 0) (hq0 : q ≠ 0)
    (hp : (payload_to_header p, ⟨Sp, true⟩) ∈ layout a bs) (hq : (payload_to_header q, ⟨Sq, true⟩) ∈ layout a bs)
    (hpq : payload_to_header p ≠ payload_to_header q) :
    free_blocks a q (free_blocks a p bs) = free_blocks a p (free_blocks a q bs) := by
  simp only [free_blocks, if_neg hp0, if_neg hq0]
  rw [free_at_comm_of_mem rfl (List.forall_mem_cons.2 ⟨by decide, hpos⟩) hp hq hpq]

end blocks

end malloc_lab.segregated
