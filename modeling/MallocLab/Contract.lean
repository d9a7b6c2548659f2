import MallocLab.Implicit.Run
import MallocLab.Segregated.Run

namespace malloc_lab

/-- A region at address 16 that has not grown yet, whose provider grants every request. Its
    bytes are not zero: each holds the low byte of its address, so that a payload the allocator
    copies differs from the bytes it is copied over. -/
def region : Heap := ⟨fun a => a.toUInt8, 16, 16, fun _ => true⟩

def implicit_fresh : implicit.State := ⟨region, 0⟩

def segregated_fresh : segregated.State := ⟨region, 0, 0⟩

/-- The implicit-list heap `mm_init` lays out in `region`. -/
def implicit_boot : implicit.State :=
  match implicit.mm_init implicit_fresh with
  | .ok (s, _) => s
  | .error _ => implicit_fresh

/-- The segregated heap `mm_init` lays out in `region`. -/
def segregated_boot : segregated.State :=
  match segregated.mm_init segregated_fresh with
  | .ok (s, _) => s
  | .error _ => segregated_fresh

/-- The implicit-list heap after `malloc(1000)`, which returned `32`. -/
def implicit_one : implicit.State :=
  match implicit.step implicit_boot (.malloc 1000) with
  | .ok (s, _) => s
  | .error _ => implicit_boot

/-- The segregated heap after `malloc(1000)`, which returned `568`. -/
def segregated_one : segregated.State :=
  match segregated.step segregated_boot (.malloc 1000) with
  | .ok (s, _) => s
  | .error _ => segregated_boot

/-- The segregated heap after `malloc(1000)` and then `realloc(568, 32)`, which shrank the block
    in place. -/
def segregated_split : segregated.State :=
  match segregated.step segregated_one (.realloc 568 32) with
  | .ok (s, _) => s
  | .error _ => segregated_one

/-- The implicit-list state a call leaves, or the state itself when the call faults. -/
def implicit_after (s : implicit.State) (c : Call) : implicit.State :=
  match implicit.step s c with
  | .ok (s', _) => s'
  | .error _ => s

/-- The segregated state a call leaves, or the state itself when the call faults. -/
def segregated_after (s : segregated.State) (c : Call) : segregated.State :=
  match segregated.step s c with
  | .ok (s', _) => s'
  | .error _ => s

-- The calls of the runs on fixed inputs, each evaluated once.

theorem implicit_boot_malloc : implicit.step implicit_boot (.malloc 1000) = .ok (implicit_one, 32) := rfl

theorem segregated_boot_malloc :
    segregated.step segregated_boot (.malloc 1000) = .ok (segregated_one, 568) := rfl

theorem segregated_one_realloc :
    segregated.step segregated_one (.realloc 568 32) = .ok (segregated_split, 568) := rfl

theorem implicit_boot_reachable : implicit.Reachable implicit_boot [] :=
  .init ⟨implicit_fresh, ⟨by decide, rfl, rfl⟩, rfl⟩

theorem segregated_boot_reachable : segregated.Reachable segregated_boot [] :=
  .init ⟨segregated_fresh, ⟨by decide, by decide, rfl, rfl⟩, rfl⟩

theorem implicit_one_reachable : implicit.Reachable implicit_one [(32, 1000)] :=
  Reach.step (c := .malloc 1000) implicit_boot_reachable (show 1000 < 2 ^ 31 - 64 by decide) implicit_boot_malloc

theorem segregated_one_reachable : segregated.Reachable segregated_one [(568, 1000)] :=
  Reach.step (c := .malloc 1000) segregated_boot_reachable (show 1000 < 2 ^ 31 - 64 by decide) segregated_boot_malloc

theorem segregated_split_reachable : segregated.Reachable segregated_split [(568, 32)] :=
  Reach.step (c := .realloc 568 32) segregated_one_reachable ⟨.inr (by decide), by decide⟩ segregated_one_realloc

/-- The implicit-list heap after a second `malloc(1000)`, which returned `1040`. -/
def implicit_two : implicit.State := implicit_after implicit_one (.malloc 1000)

theorem implicit_two_reachable : implicit.Reachable implicit_two [(1040, 1000), (32, 1000)] :=
  Reach.step (c := .malloc 1000) implicit_one_reachable (show 1000 < 2 ^ 31 - 64 by decide)
    (show implicit.step implicit_one (.malloc 1000) = .ok (implicit_two, 1040) from rfl)

/-- The segregated heap after a second `malloc(1000)`, which returned `1584`. -/
def segregated_two : segregated.State := segregated_after segregated_one (.malloc 1000)

theorem segregated_two_reachable : segregated.Reachable segregated_two [(1584, 1000), (568, 1000)] :=
  Reach.step (c := .malloc 1000) segregated_one_reachable (show 1000 < 2 ^ 31 - 64 by decide)
    (show segregated.step segregated_one (.malloc 1000) = .ok (segregated_two, 1584) from rfl)

section live

/-- After every call, the live pointers are the payloads of the allocated blocks after the
    sentinels, one to one, each with room up to the footer for the bytes the allocator was asked
    to reserve (for `calloc`, the product as the `size_t` it passes to `malloc`); so those
    payloads lie in the region, do not overlap, and no allocated block is lost. -/
theorem live_blocks_tracked :
    (∀ s L, implicit.Reachable s L → ∃ bs, implicit.Inv s bs ∧
      Tracks wsize (allocs (implicit.first_block s) bs) L ∧ Apart s.heap L) ∧
    (∀ s L, segregated.Reachable s L → ∃ bs ls, segregated.Inv s bs ls ∧
      Tracks dsize (allocs (segregated.first_block s) bs) L ∧ Apart s.heap L) :=
  ⟨fun _ _ h => (let ⟨bs, hinv, htr, _⟩ := h.good; ⟨bs, hinv, htr, h.apart⟩),
    fun _ _ h => (let ⟨bs, ls, hinv, htr⟩ := h.good; ⟨bs, ls, hinv, htr, h.apart⟩)⟩

/-- The segregated heap after `calloc(2, 2 ^ 63 + 8)`, whose product wraps to 16 as a `size_t`. -/
def segregated_wrapped : segregated.State := segregated_after segregated_boot (.calloc 2 (2 ^ 63 + 8))

/-- A run may make a `calloc` whose request the segregated allocator cannot hold: the size that
    reaches `malloc` in `calloc(2, 2 ^ 63 + 8)` is the wrapped product 16, so the run admits the
    call, and the pointer 568 it returns is live with a block of 32 bytes, while the `2 ^ 64 + 16`
    bytes requested from 568 run far past the top of the region. -/
theorem wrapped_calloc_overruns :
    Allowed segregated.calloc_ok [] (.calloc 2 (2 ^ 63 + 8)) ∧
      segregated.step segregated_boot (.calloc 2 (2 ^ 63 + 8)) = .ok (segregated_wrapped, 568) ∧
      segregated.Reachable segregated_wrapped [(568, 16)] ∧ get_size segregated_wrapped.heap 560 = .ok 32 ∧
      segregated_wrapped.heap.brk < 568 + Call.request (.calloc 2 (2 ^ 63 + 8)) :=
  have hc : Allowed segregated.calloc_ok [] (.calloc 2 (2 ^ 63 + 8)) :=
    show 2 * (2 ^ 63 + 8) % 2 ^ 64 < 2 ^ 31 - 64 by decide
  have hstep : segregated.step segregated_boot (.calloc 2 (2 ^ 63 + 8)) = .ok (segregated_wrapped, 568) := rfl
  ⟨hc, hstep, Reach.step segregated_boot_reachable hc hstep, rfl, by decide⟩

/-- A non-`NULL` pointer that `malloc`, `realloc` or `calloc` returns lies as far above the start
    of the region as every payload does, modulo 8. -/
theorem returned_pointer_mod_eight :
    (∀ s L c s' r, implicit.Reachable s L → Allowed implicit.calloc_ok L c →
      implicit.step s c = .ok (s', r) → r ≠ 0 → r % 8 = s.heap.lo % 8) ∧
    (∀ s L c s' r, segregated.Reachable s L → Allowed segregated.calloc_ok L c →
      segregated.step s c = .ok (s', r) → r ≠ 0 → r % 8 = s.heap.lo % 8) :=
  ⟨fun _ _ _ _ _ h hc hs hr => h.ret_mod hc hs hr, fun _ _ _ _ _ h hc hs hr => h.ret_mod hc hs hr⟩

theorem returned_pointer_mod_eight_one :
    (implicit.step implicit_boot (.malloc 1000) = .ok (implicit_one, 32) ∧
      32 % 8 = implicit_boot.heap.lo % 8) ∧
    (segregated.step segregated_boot (.malloc 1000) = .ok (segregated_one, 568) ∧
      568 % 8 = segregated_boot.heap.lo % 8) :=
  ⟨⟨implicit_boot_malloc, returned_pointer_mod_eight.1 implicit_boot [] (.malloc 1000) _ _ implicit_boot_reachable
      (show 1000 < 2 ^ 31 - 64 by decide) implicit_boot_malloc (by decide)⟩,
    ⟨segregated_boot_malloc, returned_pointer_mod_eight.2 segregated_boot [] (.malloc 1000) _ _
      segregated_boot_reachable (show 1000 < 2 ^ 31 - 64 by decide) segregated_boot_malloc (by decide)⟩⟩

/-- In a region at a multiple of 16, the segregated allocator's first `malloc` returns a pointer
    8 bytes off a multiple of 16: the head records, the prologue and the header take 552 bytes. -/
theorem returned_pointer_not_aligned_16 :
    segregated.Reachable segregated_boot [] ∧ segregated_boot.heap.lo % 16 = 0 ∧
      segregated.step segregated_boot (.malloc 1000) = .ok (segregated_one, 568) ∧ 568 % 16 = 8 :=
  ⟨segregated_boot_reachable, rfl, segregated_boot_malloc, rfl⟩

end live

section shape

/-- After every call the walkers read a chain of blocks from the prologue (the head records and
    then the prologue, segregated) up to the epilogue header at the top of the region, each with
    its footer equal to its header; the blocks after the prologue are multiples of 8 of at least
    `min_block_size` bytes, filling the region but for the fixed overhead; and `mm_checkheap`
    accepts the heap. -/
theorem heap_well_formed :
    (∀ s L, implicit.Reachable s L → ∃ bs, Walks s.heap s.heap_listp (implicit.prologue :: bs) ∧
      Sized implicit.min_block_size bs ∧ s.heap.brk - s.heap.lo = wsize + dsize + total bs + wsize ∧
      implicit.mm_checkheap s = .ok true) ∧
    (∀ s L, segregated.Reachable s L → ∃ bs, Walks s.heap s.seglist (segregated.sentinels ++ bs) ∧
      Sized segregated.min_block_size (segregated.sentinels ++ bs) ∧ s.seglist = s.heap.lo ∧
      s.heap_listp = s.seglist + segregated.size_class_cnt * segregated.block_size ∧
      s.heap.brk - s.heap.lo = segregated.size_class_cnt * segregated.block_size + segregated.prologue_size +
        total bs + segregated.epilogue_size ∧
      segregated.mm_checkheap s = .ok true) :=
  ⟨fun _ _ h => h.walks, fun _ _ h => h.walks⟩

theorem heap_well_formed_one :
    implicit.Reachable implicit_one [(32, 1000)] ∧ implicit.mm_checkheap implicit_one = .ok true ∧
      segregated.Reachable segregated_split [(568, 32)] ∧ segregated.mm_checkheap segregated_split = .ok true :=
  ⟨implicit_one_reachable, (let ⟨_, _, _, _, h⟩ := heap_well_formed.1 _ _ implicit_one_reachable; h),
    segregated_split_reachable,
    (let ⟨_, _, _, _, _, _, h⟩ := heap_well_formed.2 _ _ segregated_split_reachable; h)⟩

/-- The implicit allocator's prologue is an allocated block of `dsize` bytes, below
    `min_block_size`. -/
theorem implicit_prologue_undersized :
    implicit.Reachable implicit_boot [] ∧ get_size implicit_boot.heap implicit_boot.heap_listp = .ok dsize ∧
      get_alloc implicit_boot.heap implicit_boot.heap_listp = .ok true ∧ dsize < implicit.min_block_size :=
  ⟨implicit_boot_reachable, rfl, rfl, by decide⟩

/-- After every call each of the 16 lists is a ring through its head record, linked both ways;
    the members of list `i` are exactly the free blocks of size class `i`, each on one list
    once, and read as free with a size of class `i`. -/
theorem free_lists_well_formed :
    ∀ s L, segregated.Reachable s L → ∃ bs ls, Chain s.heap s.seglist (segregated.sentinels ++ bs) ∧
      segregated.Lists s.heap.mem s.seglist ls ∧ segregated.Filed s.seglist (segregated.sentinels ++ bs) ls ∧
      ∀ i < segregated.size_class_cnt, ∀ x ∈ ls i, get_alloc s.heap x = .ok false ∧
        ∃ S, get_size s.heap x = .ok S ∧ segregated.get_seglist_idx S = i := fun _ _ h => by
  obtain ⟨bs, ls, hinv, -⟩ := h.good
  refine ⟨bs, ls, hinv.chain, hinv.lists, hinv.filed, fun i hi x hx => ?_⟩
  obtain ⟨S, hS, hidx⟩ := (hinv.filed i hi x).1 hx
  exact ⟨hinv.chain.get_alloc hS, S, hinv.chain.get_size hS, hidx⟩

theorem free_lists_well_formed_split :
    segregated.Reachable segregated_split [(568, 32)] ∧
      ∃ ls, segregated.Lists segregated_split.heap.mem segregated_split.seglist ls :=
  ⟨segregated_split_reachable,
    (let ⟨_, ls, _, hl, _⟩ := free_lists_well_formed _ _ segregated_split_reachable; ⟨ls, hl⟩)⟩

/-- Shrinking a block in place splits off a free remainder without coalescing it: after
    `malloc(1000)` and `realloc(568, 32)` the remainder at 608 and the free block after it are
    both free. -/
theorem realloc_split_leaves_adjacent_free :
    segregated.Reachable segregated_split [(568, 32)] ∧ get_alloc segregated_split.heap 608 = .ok false ∧
      find_next segregated_split.heap 608 = .ok 1576 ∧ get_alloc segregated_split.heap 1576 = .ok false :=
  ⟨segregated_split_reachable, rfl, rfl, rfl⟩

end shape

section calls

/-- The adjusted size wraps for requests near `SIZE_MAX`: `malloc(SIZE_MAX - 5)` gets a
    segregated block of 32 bytes and `malloc(SIZE_MAX)` an implicit-list block of 8. -/
theorem malloc_asize_wraps :
    segregated.get_asize (2 ^ 64 - 6) = 32 ∧
      (∃ s', segregated.malloc segregated_boot (2 ^ 64 - 6) = .ok (s', 568) ∧ get_size s'.heap 560 = .ok 32) ∧
      (∃ s', implicit.malloc implicit_boot (2 ^ 64 - 1) = .ok (s', 32) ∧ get_size s'.heap 28 = .ok 8) :=
  ⟨rfl, ⟨_, rfl, rfl⟩, ⟨_, rfl, rfl⟩⟩

/-- `calloc` breaks its contract in both allocators: the implicit-list `calloc(0, size)` divides by
    zero in its overflow test, and the segregated `calloc`, which has no overflow test, answers
    `calloc(2, 2 ^ 63 + 8)`, a product of `2 ^ 64 + 16` bytes, with a block of 32 bytes at 560. -/
theorem calloc_unchecked_product :
    implicit.calloc implicit_boot 0 5 = .error .div_zero ∧ 2 ^ 64 ≤ 2 * (2 ^ 63 + 8) ∧
      ∃ s', segregated.calloc segregated_boot 2 (2 ^ 63 + 8) = .ok (s', 568) ∧ get_size s'.heap 560 = .ok 32 :=
  ⟨rfl, by norm_num, _, rfl, rfl⟩

/-- `malloc` ignores what its lazy `mm_init` returns: on a fresh heap whose provider refuses the
    first request, `malloc(n)` for `n > 0`, and so `realloc(NULL, n)` and a `calloc` with a
    positive product below `2 ^ 64`, goes on to `find_fit`, which reads through the still-`NULL`
    `heap_listp` (implicit list) or `seglist` (segregated) outside the empty region. -/
theorem malloc_ignores_init_failure :
    (∀ s : implicit.State, implicit.Fresh s → s.heap.grants 0 = false →
      (∀ n, 0 < n → implicit.malloc s n = .error .segv ∧ implicit.realloc s 0 n = .error .segv) ∧
      ∀ nmemb size, 0 < nmemb * size → nmemb * size < 2 ^ 64 → implicit.calloc s nmemb size = .error .segv) ∧
    (∀ s : segregated.State, segregated.Fresh s → s.heap.grants 0 = false →
      (∀ n, 0 < n → segregated.malloc s n = .error .segv ∧ segregated.realloc s 0 n = .error .segv) ∧
      ∀ nmemb size, 0 < nmemb * size → nmemb * size < 2 ^ 64 →
        segregated.calloc s nmemb size = .error .segv) := by
  refine ⟨fun s hf hg => ?_, fun s hf hg => ?_⟩
  · have hm : ∀ n, 0 < n → implicit.malloc s n = .error .segv := fun n hn => by
      obtain ⟨fuel, hfuel⟩ : ∃ f, s.heap.brk = f + 1 := ⟨s.heap.brk - 1, by have := hf.brk_eq; have := hf.lo_pos; omega⟩
      simp only [implicit.malloc, if_neg hn.ne', hf.listp, if_true, implicit.mm_init, Heap.mem_sbrk, hg]
      simp [implicit.find_fit, hfuel, implicit.find_fit_loop, get_size, Heap.read, hf.lo_pos.ne']
    refine ⟨fun n hn => ⟨hm n hn, by simp only [implicit.realloc, if_neg hn.ne', if_pos rfl]; exact hm n hn⟩,
      fun nmemb size hpos hlt => ?_⟩
    have hnm : nmemb ≠ 0 := by rintro rfl; simp at hpos
    have hdiv : nmemb * size % 2 ^ 64 / nmemb = size := by
      rw [Nat.mod_eq_of_lt hlt, Nat.mul_div_cancel_left _ (Nat.pos_of_ne_zero hnm)]
    simp only [implicit.calloc, if_neg hnm, hdiv, ne_eq, not_true_eq_false, if_false,
      hm (nmemb * size % 2 ^ 64) (by rwa [Nat.mod_eq_of_lt hlt]), error_bind]
  · have hm : ∀ n, 0 < n → segregated.malloc s n = .error .segv := fun n hn => by
      obtain ⟨k, hk⟩ : ∃ k, segregated.size_class_cnt - segregated.get_seglist_idx (segregated.get_asize n) = k + 1 :=
        ⟨_, (Nat.succ_pred_eq_of_pos (Nat.sub_pos_of_lt (segregated.get_seglist_idx_lt _))).symm⟩
      have hempty : ∀ a, ¬ (s.heap.lo ≤ a ∧ a + segregated.ptr_size ≤ s.heap.lo) := fun a h => by
        simp only [segregated.ptr_size, dsize, wsize] at h; omega
      simp only [segregated.malloc, if_neg hn.ne', hf.listp, if_true, segregated.mm_init, Heap.mem_sbrk, hg]
      simp [segregated.find_fit, hk, segregated.find_fit_classes, Heap.read, hf.brk_eq, hempty]
    refine ⟨fun n hn => ⟨hm n hn, by simp only [segregated.realloc, if_neg hn.ne', if_pos rfl]; exact hm n hn⟩,
      fun nmemb size hpos hlt => ?_⟩
    simp only [segregated.calloc, hm (nmemb * size % 2 ^ 64) (by rwa [Nat.mod_eq_of_lt hlt]), error_bind]

theorem malloc_ignores_init_failure_refused :
    implicit.malloc ⟨⟨fun _ => 0, 16, 16, fun _ => false⟩, 0⟩ 1000 = .error .segv ∧
      segregated.malloc ⟨⟨fun _ => 0, 16, 16, fun _ => false⟩, 0, 0⟩ 1000 = .error .segv :=
  ⟨((malloc_ignores_init_failure.1 _ ⟨by decide, rfl, rfl⟩ rfl).1 1000 (by decide)).1,
    ((malloc_ignores_init_failure.2 _ ⟨by decide, by decide, rfl, rfl⟩ rfl).1 1000 (by decide)).1⟩

/-- A call with a nonzero request that answers `NULL`, whatever its sizes, changes no byte of the
    heap, neither the top of the region nor `heap_listp` (nor `seglist`), and no live allocation. -/
theorem failed_call_atomic :
    (∀ s L c s', implicit.Reachable s L → implicit.step s c = .ok (s', 0) → c.request ≠ 0 →
      s'.heap.mem = s.heap.mem ∧ s'.heap.brk = s.heap.brk ∧ s'.heap_listp = s.heap_listp ∧
        live_after L c 0 = L) ∧
    (∀ s L c s', segregated.Reachable s L → segregated.step s c = .ok (s', 0) → c.request ≠ 0 →
      s'.heap.mem = s.heap.mem ∧ s'.heap.brk = s.heap.brk ∧ s'.heap_listp = s.heap_listp ∧
        s'.seglist = s.seglist ∧ live_after L c 0 = L) := by
  refine ⟨fun _ _ _ _ h hs h0 => ?_, fun _ _ _ _ h hs h0 => ?_⟩
  · obtain ⟨bs, hinv, -⟩ := h.good
    obtain ⟨hmem, hbrk, hlistp⟩ := implicit.step_null hinv hs h0
    exact ⟨hmem, hbrk, hlistp, live_after_null h0⟩
  · obtain ⟨bs, ls, hinv, -⟩ := h.good
    obtain ⟨hmem, hbrk, hlistp, hseg⟩ := segregated.step_null hinv hs h0
    exact ⟨hmem, hbrk, hlistp, hseg, live_after_null h0⟩

theorem failed_call_atomic_huge :
    (∃ s', implicit.step implicit_boot (.malloc (2 ^ 31)) = .ok (s', 0) ∧
      s'.heap.mem = implicit_boot.heap.mem ∧ s'.heap.brk = implicit_boot.heap.brk ∧
      s'.heap_listp = implicit_boot.heap_listp ∧ live_after [] (.malloc (2 ^ 31)) 0 = []) ∧
    (∃ s', segregated.step segregated_boot (.malloc (2 ^ 31)) = .ok (s', 0) ∧
      s'.heap.mem = segregated_boot.heap.mem ∧ s'.heap.brk = segregated_boot.heap.brk ∧
      s'.heap_listp = segregated_boot.heap_listp ∧ s'.seglist = segregated_boot.seglist ∧
      live_after [] (.malloc (2 ^ 31)) 0 = []) :=
  ⟨⟨_, rfl, failed_call_atomic.1 implicit_boot [] (.malloc (2 ^ 31)) _ implicit_boot_reachable rfl (by decide)⟩,
    ⟨_, rfl, failed_call_atomic.2 segregated_boot [] (.malloc (2 ^ 31)) _ segregated_boot_reachable rfl
      (by decide)⟩⟩

/-- No allowed call reads or writes outside the region `[lo, brk)`: the segregated allocator
    never faults, and the implicit-list allocator only divides by zero in `calloc(0, size)`. -/
theorem accesses_in_region :
    (∀ s L c e, implicit.Reachable s L → Allowed implicit.calloc_ok L c → implicit.step s c = .error e →
      e = .div_zero ∧ ∃ size, c = .calloc 0 size) ∧
    (∀ s L c e, segregated.Reachable s L → Allowed segregated.calloc_ok L c → segregated.step s c ≠ .error e) :=
  ⟨fun _ _ _ _ h hc hs => h.fault hc hs, fun _ _ _ _ h hc => h.no_fault hc⟩

theorem accesses_in_region_one :
    (∃ e, implicit.step implicit_boot (.calloc 0 5) = .error e ∧ e = .div_zero) ∧
      ∀ e, segregated.step segregated_one (.free 568) ≠ .error e :=
  ⟨⟨_, rfl, (accesses_in_region.1 implicit_boot [] (.calloc 0 5) _ implicit_boot_reachable
      (show 2 ^ 64 ≤ 0 * 5 ∨ 0 * 5 < 2 ^ 31 - 64 from .inr (by decide)) rfl).1⟩,
    fun e => accesses_in_region.2 segregated_one _ (.free 568) e segregated_one_reachable
      (show 568 = 0 ∨ 568 ∈ [(568, 1000)].map Prod.fst by decide)⟩

/-- `realloc(p, n)` of a live `p` that returns a block gives it room for `n` bytes and the first
    `min(c, n)` bytes of `p`'s payload of `c` bytes, whether it shrinks in place or moves. -/
theorem realloc_keeps_prefix :
    (∀ s L p n s' q, implicit.Reachable s L → p ∈ L.map Prod.fst → 0 < n → n < 2 ^ 31 - 64 →
      implicit.realloc s p n = .ok (s', q) → q ≠ 0 →
      ∃ c c', get_size s.heap (implicit.payload_to_header p) = .ok c ∧
        get_size s'.heap (implicit.payload_to_header q) = .ok c' ∧ n ≤ c' - dsize ∧
        ∀ i < min (c - dsize) n, s'.heap.mem (q + i) = s.heap.mem (p + i)) ∧
    (∀ s L p n s' q, segregated.Reachable s L → p ∈ L.map Prod.fst → 0 < n → n < 2 ^ 31 - 64 →
      segregated.realloc s p n = .ok (s', q) → q ≠ 0 →
      ∃ c c', get_size s.heap (segregated.payload_to_header p) = .ok c ∧
        get_size s'.heap (segregated.payload_to_header q) = .ok c' ∧ n ≤ c' - segregated.tsize ∧
        ∀ i < min (c - segregated.tsize) n, s'.heap.mem (q + i) = s.heap.mem (p + i)) := by
  refine ⟨fun _ _ _ _ _ _ h hp hn hsmall hrun hq => ?_, fun _ _ _ _ _ _ h hp hn hsmall hrun hq => ?_⟩
  · obtain ⟨x, hx, rfl⟩ := List.mem_map.1 hp
    obtain ⟨c, c', hc, hc', hroom, hcopy⟩ := implicit.realloc_copies h.good hx hn hsmall hrun hq
    exact ⟨c, c', hc, hc', by omega, fun i hi => hcopy i (by rw [min_comm]; exact hi)⟩
  · obtain ⟨x, hx, rfl⟩ := List.mem_map.1 hp
    obtain ⟨c, c', hc, hc', hroom, hcopy⟩ := segregated.realloc_copies h.good hx hn hsmall hrun hq
    exact ⟨c, c', hc, hc', by omega, fun i hi => hcopy i (by rw [min_comm]; exact hi)⟩

theorem realloc_keeps_prefix_one :
    (∃ s' q, implicit.realloc implicit_one 32 2000 = .ok (s', q) ∧ q ≠ 0 ∧ q ≠ 32 ∧
      ∃ c c', get_size implicit_one.heap (implicit.payload_to_header 32) = .ok c ∧
        get_size s'.heap (implicit.payload_to_header q) = .ok c' ∧ 2000 ≤ c' - dsize ∧
        ∀ i < min (c - dsize) 2000, s'.heap.mem (q + i) = implicit_one.heap.mem (32 + i)) ∧
    (∃ s' q, segregated.realloc segregated_one 568 2000 = .ok (s', q) ∧ q ≠ 0 ∧ q ≠ 568 ∧
      ∃ c c', get_size segregated_one.heap (segregated.payload_to_header 568) = .ok c ∧
        get_size s'.heap (segregated.payload_to_header q) = .ok c' ∧ 2000 ≤ c' - segregated.tsize ∧
        ∀ i < min (c - segregated.tsize) 2000, s'.heap.mem (q + i) = segregated_one.heap.mem (568 + i)) :=
  ⟨⟨_, _, rfl, by decide, by decide, realloc_keeps_prefix.1 implicit_one _ 32 2000 _ _ implicit_one_reachable
      (by decide) (by decide) (by decide) rfl (by decide)⟩,
    ⟨_, _, rfl, by decide, by decide, realloc_keeps_prefix.2 segregated_one _ 568 2000 _ _ segregated_one_reachable
      (by decide) (by decide) (by decide) rfl (by decide)⟩⟩

end calls

section fits

/-- On every segregated heap whose chain and lists are well-formed, `find_fit` of an adjusted size
    from 32 up to `2 ^ 31` returns, and answers `NULL` exactly when no free block has `asize`
    bytes, and otherwise a free block with `asize` bytes on the list of its class; the lists below
    that class hold only smaller blocks. So `malloc` grows the region only when no free block fits
    its adjusted request. -/
theorem find_fit_complete :
    ∀ (s : segregated.State) bs ls, segregated.Inv s bs ls →
      (∀ asize, 32 ≤ asize → asize < 2 ^ 31 →
        (∀ i < segregated.get_seglist_idx asize, ∀ x ∈ ls i, segregated.size_at s.heap x < asize) ∧
        ∃ r, segregated.find_fit s asize = .ok r ∧
          (r = 0 ↔ ∀ p S, (p, ⟨S, false⟩) ∈ layout (segregated.first_block s) bs → S < asize) ∧
          (r ≠ 0 → ∃ S, (r, ⟨S, false⟩) ∈ layout (segregated.first_block s) bs ∧
            r ∈ ls (segregated.get_seglist_idx S) ∧ asize ≤ S)) ∧
      ∀ n, 0 < n → n < 2 ^ 31 - 64 →
        (∃ p S, (p, ⟨S, false⟩) ∈ layout (segregated.first_block s) bs ∧ segregated.get_asize n ≤ S) →
        ∃ s' q, segregated.malloc s n = .ok (s', q) ∧ q ≠ 0 ∧ s'.heap.brk = s.heap.brk :=
  fun _ _ _ hinv => ⟨fun _ h32 _ => ⟨hinv.below_class (by omega), segregated.find_fit_inv hinv (by omega)⟩,
    fun _ hn hsmall hfit => segregated.malloc_of_fit hinv hn hsmall hfit⟩

theorem find_fit_complete_boot :
    ∃ bs ls, segregated.Inv segregated_boot bs ls ∧ segregated.find_fit segregated_boot 32 = .ok 560 ∧
      ∃ S, (560, ⟨S, false⟩) ∈ layout (segregated.first_block segregated_boot) bs ∧ 32 ≤ S := by
  obtain ⟨bs, ls, hinv, -⟩ := segregated_boot_reachable.good
  obtain ⟨r, hr, -, hblk⟩ := ((find_fit_complete _ bs ls hinv).1 32 le_rfl (by decide)).2
  have h560 : segregated.find_fit segregated_boot 32 = .ok 560 := rfl
  obtain rfl := Except.ok.inj (h560.symm.trans hr)
  obtain ⟨S, hS, -, hle⟩ := hblk (by decide)
  exact ⟨bs, ls, hinv, h560, S, hS, hle⟩

/-- On every initialised implicit-list heap whose headers chain from `heap_listp` to the
    epilogue, whatever the footers hold, `find_fit` returns: the first free block of at least
    `asize` bytes, or `NULL` exactly when there is none. -/
theorem find_fit_first :
    ∀ (s : implicit.State) (full : List Blk) (asize : Nat), Headers s.heap s.heap_listp full →
      s.heap_listp ≠ 0 →
      ∃ r, implicit.find_fit s asize = .ok r ∧
        (r = 0 ↔ ∀ p S, (p, ⟨S, false⟩) ∈ layout s.heap_listp full → S < asize) ∧
        (r ≠ 0 → ∃ S, (r, ⟨S, false⟩) ∈ layout s.heap_listp full ∧ asize ≤ S ∧
          ∀ p b, (p, b) ∈ layout s.heap_listp full → p < r → b.alloc = true ∨ b.size < asize) := by
  intro s full asize hh hlistp
  refine ⟨_, implicit.find_fit_loop_of_headers hh hh.length_lt, ?_⟩
  cases hff : first_fit asize s.heap_listp full with
  | none =>
    refine ⟨iff_of_true rfl fun p S hp => ?_, fun h => absurd rfl h⟩
    simpa using first_fit_eq_none hff _ (mem_layout hp).1
  | some r =>
    obtain ⟨l₁, c, l₂, rfl, rfl, hc, -⟩ := first_fit_eq_some hff
    have hr : (s.heap_listp + total l₁, (⟨c, false⟩ : Blk)) ∈ layout s.heap_listp (l₁ ++ ⟨c, false⟩ :: l₂) :=
      mem_layout_mid
    have hr0 : s.heap_listp + total l₁ ≠ 0 := by omega
    exact ⟨iff_of_false hr0 fun h => absurd (h _ c hr) (not_lt.2 hc),
      fun _ => ⟨c, hr, hc, fun p b hp hlt => first_fit_first hff hp hlt⟩⟩

theorem find_fit_first_boot :
    ∃ full S, Headers implicit_boot.heap implicit_boot.heap_listp full ∧
      implicit.find_fit implicit_boot 16 = .ok 28 ∧ (28, ⟨S, false⟩) ∈ layout implicit_boot.heap_listp full ∧
      16 ≤ S := by
  obtain ⟨bs, hinv, -⟩ := implicit_boot_reachable.good
  have hh : Headers implicit_boot.heap implicit_boot.heap_listp (implicit.prologue :: bs) := by
    rw [hinv.listp]; exact hinv.chain.headers
  obtain ⟨r, hr, -, hfirst⟩ := find_fit_first _ _ 16 hh (by rw [hinv.listp, wsize]; omega)
  have h28 : implicit.find_fit implicit_boot 16 = .ok 28 := rfl
  obtain rfl := Except.ok.inj (h28.symm.trans hr)
  obtain ⟨S, hS, hle, -⟩ := hfirst (by decide)
  exact ⟨_, S, hh, h28, hS, hle⟩

end fits

section checker

/-- The heap of `implicit_boot` with the footer of its free block of 4096 bytes at 28 zeroed. -/
def implicit_torn : implicit.State :=
  { implicit_boot with heap := { implicit_boot.heap with mem := implicit_boot.heap.mem.store 4120 4 0 } }

/-- The heap of `segregated_boot` with the footer of its free block of 4096 bytes at 560 zeroed. -/
def segregated_torn : segregated.State :=
  { segregated_boot with heap := { segregated_boot.heap with mem := segregated_boot.heap.mem.store 4652 4 0 } }

/-- `mm_checkheap` never compares the last block before the epilogue with its footer: the loop
    stops as soon as the next block lies within one `block_t` of the region's end. With that
    footer zeroed, both checkers still answer `true`. -/
theorem checkheap_skips_last_block :
    (implicit.mm_checkheap implicit_torn = .ok true ∧
      get_size implicit_torn.heap 28 = .ok 4096 ∧ get_size implicit_torn.heap 4124 = .ok 0 ∧
      implicit_torn.heap.mem.load 28 4 = 4096 ∧ implicit_torn.heap.mem.load 4120 4 = 0) ∧
    (segregated.mm_checkheap segregated_torn = .ok true ∧
      get_size segregated_torn.heap 560 = .ok 4096 ∧ get_size segregated_torn.heap 4656 = .ok 0 ∧
      segregated_torn.heap.mem.load 560 4 = 4096 ∧ segregated_torn.heap.mem.load 4652 4 = 0) :=
  ⟨⟨rfl, rfl, rfl, rfl, rfl⟩, ⟨rfl, rfl, rfl, rfl, rfl⟩⟩

end checker

section coalescing

/-- `coalesce` of a block `b` just marked free after `pre ++ [prev]`, on a well-formed heap (for the
    segregated allocator with `b` on no list): the result `r` is `find_prev b` when `prev` is free
    and `b` otherwise, and its size `S` adds to `b`'s the bytes of its free neighbours; `r`'s header
    equals its footer, the other blocks of the chain stay as they were, with no byte written
    outside `r` (segregated: outside the head records and the free blocks), the lists file the
    new free blocks with `r` on the list of its class and no node inside `r`; and when no two
    blocks but `b` were free side by side, both neighbours of `r` are allocated. -/
theorem coalesce_merges :
    (∀ (h : Heap) (a : Nat) (pre : List Blk) (prev : Blk) (size : Nat) (post : List Blk),
      Chain h a (pre ++ prev :: ⟨size, false⟩ :: post) →
      ∃ m r S, implicit.coalesce h (a + total pre + prev.size) = .ok ({ h with mem := m }, r) ∧
        (prev.alloc = false → find_prev h (a + total pre + prev.size) = .ok r) ∧
        (prev.alloc = true → r = a + total pre + prev.size) ∧
        S = size + free_bytes prev + free_bytes (post.headD ⟨0, true⟩) ∧
        Chain { h with mem := m } a (pre ++ merge prev size post) ∧
        (r, ⟨S, false⟩) ∈ layout a (pre ++ merge prev size post) ∧ m.load r 4 = m.load (r + S - 4) 4 ∧
        (∀ x, x < r ∨ r + S ≤ x → m x = h.mem x) ∧
        (NoAdjFree (pre ++ prev :: ⟨size, true⟩ :: post) → ∀ q c, (q, c) ∈ layout a (pre ++ merge prev size post) →
          q + c.size = r ∨ q = r + S → c.alloc = true)) ∧
    (∀ (s : segregated.State) (ls : Nat → List Nat) (pre : List Blk) (prev : Blk) (size : Nat) (post : List Blk),
      Chain s.heap s.seglist (pre ++ prev :: ⟨size, false⟩ :: post) → segregated.Heads s.seglist pre →
      Sized segregated.min_block_size (pre ++ prev :: ⟨size, false⟩ :: post) →
      segregated.Lists s.heap.mem s.seglist ls →
      segregated.Filed s.seglist (pre ++ prev :: ⟨size, true⟩ :: post) ls → s.heap.brk < 2 ^ 64 →
      ∃ m ls' r S, segregated.coalesce s (s.seglist + total pre + prev.size) =
          .ok ({ s with heap := { s.heap with mem := m } }, r) ∧
        (prev.alloc = false → find_prev s.heap (s.seglist + total pre + prev.size) = .ok r) ∧
        (prev.alloc = true → r = s.seglist + total pre + prev.size) ∧
        S = size + free_bytes prev + free_bytes (post.headD ⟨0, true⟩) ∧
        Chain { s.heap with mem := m } s.seglist (pre ++ merge prev size post) ∧
        (r, ⟨S, false⟩) ∈ layout s.seglist (pre ++ merge prev size post) ∧ m.load r 4 = m.load (r + S - 4) 4 ∧
        segregated.Scratch s.seglist (pre ++ merge prev size post) s.heap.mem m ∧
        segregated.Lists m s.seglist ls' ∧ segregated.Filed s.seglist (pre ++ merge prev size post) ls' ∧
        r ∈ ls' (segregated.get_seglist_idx S) ∧
        (∀ i < segregated.size_class_cnt, ∀ x ∈ ls' i, r < x → r + S ≤ x) ∧
        (NoAdjFree (pre ++ prev :: ⟨size, true⟩ :: post) →
          ∀ q c, (q, c) ∈ layout s.seglist (pre ++ merge prev size post) →
          q + c.size = r ∨ q = r + S → c.alloc = true)) := by
  refine ⟨fun h a pre prev size post hc => ?_, fun s ls pre prev size post hc hh hsz hl hf hfit => ?_⟩
  · obtain ⟨m, r, S, hrun, hchain, hr, -, hreq, hS, hframe⟩ := implicit.coalesce_spec hc
    have htag := hchain.tiles r _ hr
    refine ⟨m, r, S, hrun, fun hfree => ?_, fun halloc => by simpa [halloc] using hreq, hS, hchain, hr,
      htag.1.trans htag.2.symm, hframe, fun hno q c hq hadj =>
        (noAdjFree_merge hno).neighbours (hchain.sized.pos (by decide)) hr hq hadj⟩
    simp only [hreq, hfree, Bool.false_eq_true, if_false]
    exact hc.find_prev mem_layout_mid
  · obtain ⟨m, ls', r, S, hrun, hchain, hl', hf', hr, -, hreq, hS, hsc⟩ :=
      segregated.coalesce_spec hc hh hsz hl hf hfit
    have htag := hchain.tiles r _ hr
    have hidx := segregated.get_seglist_idx_lt S
    refine ⟨m, ls', r, S, hrun, fun hfree => ?_, fun halloc => by simpa [halloc] using hreq, hS, hchain, hr,
      htag.1.trans htag.2.symm, hsc, hl', hf', (hf' _ hidx r).2 ⟨S, hr, rfl⟩, fun i hi x hx hrx => ?_,
      fun hno q c hq hadj => (noAdjFree_merge hno).neighbours (hchain.sized.pos (by decide)) hr hq hadj⟩
    · simp only [hreq, hfree, Bool.false_eq_true, if_false]
      exact hc.find_prev mem_layout_mid
    · obtain ⟨S', hx', -⟩ := (hf' i hi x).1 hx
      have := layout_disjoint hr hx' (by omega)
      simp only at this
      omega

/-- The implicit-list heap after three `malloc(1000)`s, which returned 32, 1040 and 2048. -/
def implicit_three : implicit.State := implicit_after implicit_two (.malloc 1000)

/-- `implicit_three` after the `free` of 32 and of 2048: the block at 1036 lies between the free
    blocks at 28 and 2044. -/
def implicit_gap : implicit.State := implicit_after (implicit_after implicit_three (.free 32)) (.free 2048)

theorem implicit_gap_reachable : implicit.Reachable implicit_gap [(1040, 1000)] :=
  Reach.step (c := .free 2048)
    (Reach.step (c := .free 32)
      (Reach.step (c := .malloc 1000) implicit_two_reachable (show 1000 < 2 ^ 31 - 64 by decide)
        (show implicit.step implicit_two (.malloc 1000) = .ok (implicit_three, 2048) from rfl))
      (.inr (by decide)) rfl)
    (.inr (by decide)) rfl

/-- `implicit_gap` with its block at 1036 marked free, as `free(1040)` leaves it for `coalesce`. -/
def implicit_gap_marked : Heap :=
  { implicit_gap.heap with
    mem := (implicit_gap.heap.mem.store 1036 4 (pack 1008 false)).store 2040 4 (pack 1008 false) }

/-- The segregated heap after three `malloc(1000)`s, which returned 568, 1584 and 2600. -/
def segregated_three : segregated.State := segregated_after segregated_two (.malloc 1000)

/-- `segregated_three` after the `free` of 568 and of 2600: the block at 1576 lies between the free
    blocks at 560 and 2592. -/
def segregated_gap : segregated.State :=
  segregated_after (segregated_after segregated_three (.free 568)) (.free 2600)

theorem segregated_gap_reachable : segregated.Reachable segregated_gap [(1584, 1000)] :=
  Reach.step (c := .free 2600)
    (Reach.step (c := .free 568)
      (Reach.step (c := .malloc 1000) segregated_two_reachable (show 1000 < 2 ^ 31 - 64 by decide)
        (show segregated.step segregated_two (.malloc 1000) = .ok (segregated_three, 2600) from rfl))
      (.inr (by decide)) rfl)
    (.inr (by decide)) rfl

/-- `segregated_gap` with its block at 1576 marked free, as `free(1584)` leaves it for
    `coalesce`. -/
def segregated_gap_marked : segregated.State :=
  { segregated_gap with heap := { segregated_gap.heap with
    mem := (segregated_gap.heap.mem.store 1576 4 (pack 1016 false)).store 2588 4 (pack 1016 false) } }

theorem coalesce_merges_at :
    (∃ m, implicit.coalesce implicit_gap_marked 1036 = .ok ({ implicit_gap_marked with mem := m }, 28) ∧
      (28, ⟨4096, false⟩) ∈ layout 20 [implicit.prologue, ⟨4096, false⟩]) ∧
    ∃ m ls', segregated.coalesce segregated_gap_marked 1576 =
        .ok ({ segregated_gap_marked with heap := { segregated_gap_marked.heap with mem := m } }, 560) ∧
      (560, ⟨4096, false⟩) ∈ layout 16 (segregated.sentinels ++ [⟨4096, false⟩]) ∧
      560 ∈ ls' (segregated.get_seglist_idx 4096) ∧ segregated.Lists m 16 ls' := by
  constructor
  · obtain ⟨bs, hinv, -⟩ := implicit_gap_reachable.good
    have hH : Headers implicit_gap.heap 20 [implicit.prologue, ⟨1008, false⟩, ⟨1008, true⟩, ⟨2080, false⟩] :=
      ⟨fun p b hp => by
        simp only [layout_cons, layout_nil, List.mem_cons, Prod.mk.injEq, List.not_mem_nil, or_false] at hp
        rcases hp with ⟨rfl, rfl⟩ | ⟨rfl, rfl⟩ | ⟨rfl, rfl⟩ | ⟨rfl, rfl⟩ <;> exact ⟨by decide, rfl, rfl⟩, rfl⟩
    have hc : Chain implicit_gap.heap 20 (implicit.prologue :: bs) := hinv.chain
    rw [hc.headers.unique hH] at hc
    have hmark := (show Chain implicit_gap.heap 20
      ([implicit.prologue, ⟨1008, false⟩] ++ [⟨1008, true⟩] ++ [⟨2080, false⟩]) from hc).retag false
        (S := 1008) rfl (by decide) (by decide)
    obtain ⟨m, r, S, hrun, hfree, -, hS, -, hr, -⟩ :=
      coalesce_merges.1 implicit_gap_marked 20 [implicit.prologue] ⟨1008, false⟩ 1008 [⟨2080, false⟩] hmark
    have hprev : find_prev implicit_gap_marked 1036 = .ok 28 := rfl
    obtain rfl : r = 28 := Except.ok.inj ((hfree rfl).symm.trans hprev)
    obtain rfl : S = 4096 := hS
    exact ⟨m, hrun, hr⟩
  · obtain ⟨bs, ls, hinv, -⟩ := segregated_gap_reachable.good
    have hH : Headers segregated_gap.heap 560 [⟨1016, false⟩, ⟨1016, true⟩, ⟨2064, false⟩] := by
      set_option maxRecDepth 2000 in
      exact ⟨fun p b hp => by
        simp only [layout_cons, layout_nil, List.mem_cons, Prod.mk.injEq, List.not_mem_nil, or_false] at hp
        rcases hp with ⟨rfl, rfl⟩ | ⟨rfl, rfl⟩ | ⟨rfl, rfl⟩ <;> exact ⟨by decide, rfl, rfl⟩, rfl⟩
    have hd : Headers segregated_gap.heap 560 bs := (hinv.chain.drop segregated.sentinels).headers
    obtain ⟨hmark, hl⟩ := hinv.mark
      (show bs = [⟨1016, false⟩] ++ ⟨1016, true⟩ :: [⟨2064, false⟩] from hd.unique hH)
    have hf := hinv.filed
    rw [hd.unique hH] at hf
    obtain ⟨m, ls', r, S, hrun, hfree, -, hS, -, hr, -, -, hl', -, hls, -⟩ :=
      coalesce_merges.2 segregated_gap_marked ls segregated.sentinels ⟨1016, false⟩ 1016 [⟨2064, false⟩]
        (by simpa only [List.append_assoc, List.singleton_append] using hmark)
        (by simpa only [List.append_nil] using
          (segregated.heads_sentinels : segregated.Heads 16 (segregated.sentinels ++ [])))
        (by unfold Sized; decide) hl hf (lt_of_le_of_lt hinv.cap hinv.fit)
    have hprev : find_prev segregated_gap_marked.heap 1576 = .ok 560 := rfl
    obtain rfl : r = 560 := Except.ok.inj ((hfree rfl).symm.trans hprev)
    obtain rfl : S = 4096 := hS
    exact ⟨m, ls', hrun, hr, hls, hl'⟩

end coalescing

end malloc_lab
