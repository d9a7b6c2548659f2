import MallocLab.Implicit.Spec

namespace malloc_lab.implicit

/-- The real blocks once `extend_heap` appends a free block of `size` bytes to the blocks from
    `a`: `coalesce` merges it with the last block when that one is free. -/
def extend_blocks (a size : Nat) (bs : List Blk) : List Blk :=
  (free_at (a + total bs) a prologue (bs ++ [⟨size, false⟩])).tail

/-- The block `malloc` carves for a request of `n` bytes: `n` rounded up to a double word, and
    the header and footer. -/
def adjusted (n : Nat) : Nat := (n + 7) / 8 * 8 + dsize

/-- `malloc` over the real blocks from `a`: the adjusted request is carved from the first fit;
    with none, and when the provider `grant`s a chunk that keeps the heap within its cap, from
    the free block the chunk leaves at the end. The new blocks and the payload returned. -/
def malloc_blocks (a n : Nat) (grant : Bool) (bs : List Blk) : List Blk × Nat :=
  if n = 0 then (bs, 0) else
  match first_fit (adjusted n) a bs with
  | some r => (carve_at min_block_size r (adjusted n) a bs, header_to_payload r)
  | none =>
    if grant = true ∧ wsize + dsize + total bs + wsize + malloc_lab.max (adjusted n) chunksize ≤ MAX_HEAP then
      let r := a + total bs - free_bytes (bs.getLastD prologue)
      (carve_at min_block_size r (adjusted n) a (extend_blocks a (malloc_lab.max (adjusted n) chunksize) bs),
        header_to_payload r)
    else (bs, 0)

/-- `free` over the real blocks from `a`: the block of the payload `p` becomes free and absorbs
    its free neighbours; `NULL` changes nothing. -/
def free_blocks (a p : Nat) (bs : List Blk) : List Blk :=
  if p = 0 then bs else (free_at (payload_to_header p) a prologue bs).tail

/-- `realloc` over the real blocks from `a`: `free` for size `0`, `malloc` for `NULL`, otherwise a
    new block and the old one freed, or nothing at all when the new block cannot be had. -/
def realloc_blocks (a p n : Nat) (grant : Bool) (bs : List Blk) : List Blk × Nat :=
  if n = 0 then (free_blocks a p bs, 0)
  else if p = 0 then malloc_blocks a n grant bs
  else
    let (bs₁, q) := malloc_blocks a n grant bs
    if q = 0 then (bs₁, 0) else (free_blocks a p bs₁, q)

/-- `calloc` over the real blocks from `a`: `NULL` when the product overflows `size_t`, otherwise
    `malloc` of the product. -/
def calloc_blocks (a nmemb size : Nat) (grant : Bool) (bs : List Blk) : List Blk × Nat :=
  if 2 ^ 64 ≤ nmemb * size then (bs, 0) else malloc_blocks a (nmemb * size) grant bs

/-- One call of the interface over the real blocks from `a`, with the provider's next answer. -/
def step_blocks (a : Nat) (grant : Bool) (bs : List Blk) : Call → List Blk × Nat
  | .malloc n => malloc_blocks a n grant bs
  | .free p => (free_blocks a p bs, 0)
  | .realloc p n => realloc_blocks a p n grant bs
  | .calloc nmemb size => calloc_blocks a nmemb size grant bs

example : step_blocks 28 true [⟨4096, false⟩] (.malloc 1000) = ([⟨1008, true⟩, ⟨3088, false⟩], 32) := by
  decide

example : step_blocks 28 true [⟨1008, true⟩, ⟨3088, false⟩] (.free 32) = ([⟨4096, false⟩], 0) := by
  decide

section blocks

variable {a n p S : Nat} {grant : Bool} {bs : List Blk}

theorem free_blocks_zero : free_blocks a 0 bs = bs := rfl

theorem total_free_blocks : total (free_blocks a p bs) = total bs := by
  unfold free_blocks
  split
  · rfl
  · have h : total (free_at (payload_to_header p) a prologue bs) = prologue.size + total bs := total_free_at
    rw [free_at_eq_cons rfl, total_cons] at h
    exact Nat.add_left_cancel h

theorem total_extend_blocks {e : Nat} : total (extend_blocks a e bs) = total bs + e := by
  have h : total (free_at (a + total bs) a prologue (bs ++ [⟨e, false⟩])) =
      prologue.size + total (bs ++ [⟨e, false⟩]) := total_free_at
  rw [free_at_eq_cons rfl, total_cons, total_append] at h
  simp only [total_cons, total_nil, Nat.add_zero] at h
  exact Nat.add_left_cancel h

theorem malloc_blocks_of_fit {r : Nat} (hn : 0 < n) (hfit : first_fit (adjusted n) a bs = some r) :
    malloc_blocks a n grant bs = (carve_at min_block_size r (adjusted n) a bs, header_to_payload r) := by
  simp only [malloc_blocks, if_neg hn.ne', hfit]

/-- `malloc` adds bytes to the blocks only when no block fits, and then exactly the chunk it asks
    the provider for. -/
theorem total_malloc_blocks (a n : Nat) (grant : Bool) (bs : List Blk) :
    total (malloc_blocks a n grant bs).1 = total bs ∨
      (first_fit (adjusted n) a bs = none ∧
        total (malloc_blocks a n grant bs).1 = total bs + malloc_lab.max (adjusted n) chunksize) := by
  unfold malloc_blocks
  split
  · exact .inl rfl
  · split
    · exact .inl (total_carve_at (by decide))
    · rename_i hfit
      split
      · exact .inr ⟨hfit, by simp only [total_carve_at (show 0 < min_block_size by decide), total_extend_blocks]⟩
      · exact .inl rfl

/-- With no two free blocks side by side, the blocks around a free block are allocated; the
    prologue stands before the first. -/
theorem alloc_around_free {l₁ l₂ : List Blk} {c : Nat} (hno : NoAdjFree (l₁ ++ ⟨c, false⟩ :: l₂)) :
    (l₁.getLastD prologue).alloc = true ∧ (l₂.headD ⟨0, true⟩).alloc = true := by
  unfold NoAdjFree at hno
  rw [List.chain'_append] at hno
  obtain ⟨-, hmid, hjoin⟩ := hno
  constructor
  · rcases List.eq_nil_or_concat l₁ with rfl | ⟨l, x, rfl⟩
    · rfl
    · simpa using hjoin x (by simp) _ rfl
  · rcases l₂ with _ | ⟨y, l₂⟩
    · rfl
    · simpa using (List.chain'_cons.1 hmid).1

/-- `malloc` from a fit and then `free` of what it returned leave the blocks as they were, when
    no two free blocks were side by side. -/
theorem free_blocks_malloc_blocks (hno : NoAdjFree bs) (hpos : ∀ b ∈ bs, 0 < b.size)
    (hfit : first_fit (adjusted n) a bs ≠ none) :
    free_blocks a (malloc_blocks a n grant bs).2 (malloc_blocks a n grant bs).1 = bs := by
  obtain ⟨r, hr⟩ := Option.ne_none_iff_exists'.1 hfit
  obtain ⟨l₁, c, l₂, rfl, rfl, hle, -⟩ := first_fit_eq_some hr
  have hpos₁ : ∀ d ∈ l₁, 0 < d.size := fun d hd => hpos d (List.mem_append_left _ hd)
  obtain ⟨hprev, hnext⟩ := alloc_around_free hno
  unfold malloc_blocks
  split
  · rfl
  · rw [hr]
    simp only [free_blocks, header_to_payload, payload_to_header, wsize, Nat.add_sub_cancel,
      show a + total l₁ + 4 ≠ 0 by omega, if_false, carve_at_append hpos₁, free_at_carve hpos₁ hnext hle,
      free_at_isolated hpos₁ hprev hnext]
    rfl

/-- `malloc` that keeps the bytes of the heap and then `free` of what it returned leave the
    blocks as they were, when no two free blocks were side by side: a `malloc` that does not
    extend the heap carves a fit, or fails and changes nothing. -/
theorem free_blocks_malloc_blocks_of_total (hno : NoAdjFree bs) (hpos : ∀ b ∈ bs, 0 < b.size)
    (htot : total (malloc_blocks a n grant bs).1 = total bs) :
    free_blocks a (malloc_blocks a n grant bs).2 (malloc_blocks a n grant bs).1 = bs := by
  by_cases hfit : first_fit (adjusted n) a bs = none
  · have hmb : malloc_blocks a n grant bs = (bs, 0) := by
      by_cases hn : n = 0
      · simp [malloc_blocks, hn]
      by_cases hg : grant = true ∧
          wsize + dsize + total bs + wsize + malloc_lab.max (adjusted n) chunksize ≤ MAX_HEAP
      · simp only [malloc_blocks, if_neg hn, hfit, if_pos hg, total_carve_at (show 0 < min_block_size by decide),
          total_extend_blocks] at htot
        have : 0 < malloc_lab.max (adjusted n) chunksize := by unfold malloc_lab.max chunksize; split <;> omega
        omega
      · simp only [malloc_blocks, if_neg hn, hfit, if_neg hg]
    rw [hmb]
    rfl
  · exact free_blocks_malloc_blocks hno hpos hfit

/-- After `free` of the block at `q` of `S` bytes, a free block of at least `S` bytes fits. -/
theorem first_fit_free_blocks {asize : Nat} {al : Bool} (hpos : ∀ b ∈ bs, 0 < b.size)
    (hq : (payload_to_header p, ⟨S, al⟩) ∈ layout a bs) (hp : p ≠ 0) (hle : asize ≤ S) :
    first_fit asize a (free_blocks a p bs) ≠ none := by
  intro hnone
  obtain ⟨l₁, l₂, rfl, hat⟩ := mem_layout_iff.1 hq
  obtain ⟨S', hmem, hS'⟩ := exists_free_mem_merge (l₁.getLastD prologue) S l₂
  have hpos₁ : ∀ d ∈ l₁, 0 < d.size := fun d hd => hpos d (List.mem_append_left _ hd)
  have hm : (⟨S', false⟩ : Blk) ∈ free_at (a + total l₁) a prologue (l₁ ++ ⟨S, al⟩ :: l₂) := by
    rw [free_at_append hpos₁]; exact List.mem_append_right _ hmem
  rw [free_at_eq_cons rfl] at hm
  have hin : (⟨S', false⟩ : Blk) ∈ free_blocks a p (l₁ ++ ⟨S, al⟩ :: l₂) := by
    rw [free_blocks, if_neg hp, hat]
    exact (List.mem_cons.1 hm).resolve_left (by simp [prologue])
  rcases first_fit_eq_none hnone _ hin with h | h
  · cases h
  · simp only at h; omega

/-- No call gives bytes back: the real blocks never shrink. -/
theorem total_le_step_blocks (c : Call) : total bs ≤ total (step_blocks a grant bs c).1 := by
  have hm : ∀ n bs, total bs ≤ total (malloc_blocks a n grant bs).1 := fun n bs => by
    rcases total_malloc_blocks a n grant bs with h | ⟨-, h⟩ <;> omega
  cases c with
  | malloc n => exact hm n bs
  | free p => exact total_free_blocks.ge
  | realloc p n =>
    simp only [step_blocks, realloc_blocks]
    split
    · exact total_free_blocks.ge
    split
    · exact hm n bs
    have h₁ := hm n bs
    split <;> simp only [total_free_blocks] <;> omega
  | calloc nmemb size =>
    simp only [step_blocks, calloc_blocks]
    split
    · exact le_rfl
    · exact hm _ bs

end blocks

end malloc_lab.implicit
