import MallocLab.Contract

namespace malloc_lab

section implicit_blocks

open implicit

/-- On every reachable implicit-list heap, an allowed call that returns moves the real blocks
    exactly as the list-level allocator `step_blocks` does with the provider's next answer, and
    returns the pointer it returns. -/
theorem implicit_refines_blocks {s s' : implicit.State} {L : List (Nat × Nat)} {c : Call} {r : Nat}
    {bs : List Blk} (h : implicit.Reachable s L) (hinv : implicit.Inv s bs)
    (hc : Allowed implicit.calloc_ok L c) (hstep : implicit.step s c = .ok (s', r)) :
    implicit.Inv s' (step_blocks (first_block s) (s.heap.grants 0) bs c).1 ∧
      r = (step_blocks (first_block s) (s.heap.grants 0) bs c).2 :=
  (h.outcome hc hstep).blocks bs hinv

theorem implicit_refines_blocks_boot :
    ∃ bs, implicit.Inv implicit_boot bs ∧
      implicit.Inv implicit_one
        (step_blocks (first_block implicit_boot) (implicit_boot.heap.grants 0) bs (.malloc 1000)).1 ∧
      32 = (step_blocks (first_block implicit_boot) (implicit_boot.heap.grants 0) bs (.malloc 1000)).2 := by
  obtain ⟨bs, hinv, -⟩ := implicit_boot_reachable.good
  exact ⟨bs, hinv,
    implicit_refines_blocks implicit_boot_reachable hinv (show 1000 < 2 ^ 31 - 64 by decide) implicit_boot_malloc⟩

/-- On every reachable implicit-list heap, `malloc(n)` that leaves the region's size alone,
    followed by `free` of the pointer it returned, gives back exactly the blocks there were: the
    block carved for the request and the free rest split off it are one free block again. -/
theorem malloc_free_restores_blocks {s s₁ s₂ : implicit.State} {L : List (Nat × Nat)} {n p r : Nat}
    {bs : List Blk} (h : implicit.Reachable s L) (hinv : implicit.Inv s bs) (hn : n < 2 ^ 31 - 64)
    (hmalloc : implicit.step s (.malloc n) = .ok (s₁, p)) (hbrk : s₁.heap.brk = s.heap.brk)
    (hfree : implicit.step s₁ (.free p) = .ok (s₂, r)) :
    implicit.Inv s₂ bs := by
  obtain ⟨bs₀, hinv₀, -, hno⟩ := h.good
  cases hinv₀.unique hinv
  have o₁ := h.outcome (c := .malloc n) hn hmalloc
  obtain ⟨hinv₁, hp⟩ := o₁.blocks bs hinv
  simp only [step_blocks] at hinv₁ hp
  have hc : Allowed implicit.calloc_ok (live_after L (.malloc n) p) (.free p) := by
    by_cases hp0 : p = 0
    · exact .inl hp0
    · exact .inr (by simp [live_after, acquire, hp0])
  obtain ⟨hinv₂, -⟩ :=
    (Reachable.outcome (Reach.step (c := .malloc n) h hn hmalloc) hc hfree).blocks _ hinv₁
  have htot : total (malloc_blocks (first_block s) n (s.heap.grants 0) bs).1 = total bs := by
    have h₁ := hinv₁.brk_eq
    have h₀ := hinv.brk_eq
    have hlo := o₁.lo
    omega
  simp only [step_blocks, first_block_congr o₁.lo] at hinv₂
  rw [hp] at hinv₂
  rwa [free_blocks_malloc_blocks_of_total hno hinv.size_pos htot] at hinv₂

theorem malloc_free_restores_blocks_one :
    ∃ s₂ bs, implicit.Inv implicit_boot bs ∧ implicit.step implicit_one (.free 32) = .ok (s₂, 0) ∧
      implicit.Inv s₂ bs := by
  obtain ⟨bs, hinv, -⟩ := implicit_boot_reachable.good
  obtain ⟨s₂, hfree⟩ : ∃ s₂, implicit.step implicit_one (.free 32) = .ok (s₂, 0) := ⟨_, rfl⟩
  exact ⟨s₂, bs, hinv, hfree, malloc_free_restores_blocks implicit_boot_reachable hinv
    (show 1000 < 2 ^ 31 - 64 by decide) implicit_boot_malloc rfl hfree⟩

/-- On every reachable implicit-list heap, `malloc(n)` grows the region only when no free block
    holds the adjusted request, and then by exactly `max(asize, CHUNKSIZE)` bytes. -/
theorem malloc_grows_only_without_fit {s s' : implicit.State} {L : List (Nat × Nat)} {n p : Nat}
    {bs : List Blk} (h : implicit.Reachable s L) (hinv : implicit.Inv s bs) (hn : n < 2 ^ 31 - 64)
    (hstep : implicit.step s (.malloc n) = .ok (s', p)) :
    s'.heap.brk = s.heap.brk ∨
      ((∀ q S, (q, ⟨S, false⟩) ∈ layout (first_block s) bs → S < adjusted n) ∧
        s'.heap.brk = s.heap.brk + malloc_lab.max (adjusted n) chunksize) := by
  have o := h.outcome (c := .malloc n) hn hstep
  obtain ⟨hinv', -⟩ := o.blocks bs hinv
  have h' := hinv'.brk_eq
  have h₀ := hinv.brk_eq
  rw [o.lo] at h'
  simp only [step_blocks] at h'
  rcases total_malloc_blocks (first_block s) n (s.heap.grants 0) bs with htot | ⟨hfit, htot⟩
  · exact .inl (by omega)
  · refine .inr ⟨fun q S hq => ?_, by omega⟩
    simpa using first_fit_eq_none hfit _ (mem_layout hq).1

theorem malloc_grows_only_without_fit_boot :
    ∃ bs, implicit.Inv implicit_boot bs ∧
      (implicit_one.heap.brk = implicit_boot.heap.brk ∨
        ((∀ q S, (q, ⟨S, false⟩) ∈ layout (first_block implicit_boot) bs → S < adjusted 1000) ∧
          implicit_one.heap.brk = implicit_boot.heap.brk + malloc_lab.max (adjusted 1000) chunksize)) := by
  obtain ⟨bs, hinv, -⟩ := implicit_boot_reachable.good
  exact ⟨bs, hinv, malloc_grows_only_without_fit implicit_boot_reachable hinv (show 1000 < 2 ^ 31 - 64 by decide)
    implicit_boot_malloc⟩

/-- Along every run the real blocks of an implicit-list heap hold at least the chunk `mm_init`
    laid out: no call gives bytes back. -/
theorem implicit.Reachable.chunksize_le_total {s : implicit.State} {L : List (Nat × Nat)} (h : implicit.Reachable s L)
    {bs : List Blk} (hinv : implicit.Inv s bs) : chunksize ≤ total bs := by
  induction h generalizing bs with
  | init h0 =>
    obtain ⟨s₀, hf, hinit⟩ := h0
    obtain ⟨bs₀, hinv₀, -, -, -, htot⟩ := mm_init_spec hf hinit
    rw [hinv.unique hinv₀, htot]
  | step hr hc hstep ih =>
    obtain ⟨bs₀, hinv₀, -⟩ := Reachable.good hr
    obtain ⟨hinv₁, -⟩ := (Reachable.outcome hr hc hstep).blocks bs₀ hinv₀
    rw [hinv.unique hinv₁]
    exact le_trans (ih hinv₀) (total_le_step_blocks _)

/-- A reachable implicit-list heap where nothing is live has no allocated block. -/
theorem implicit.Reachable.allocs_nil {s : implicit.State} (h : implicit.Reachable s []) {bs : List Blk}
    (hinv : implicit.Inv s bs) : allocs (first_block s) bs = [] := by
  obtain ⟨bs₀, hinv₀, htr, -⟩ := h.good
  cases hinv₀.unique hinv
  exact List.eq_nil_iff_forall_not_mem.2 fun ⟨q, b⟩ hq => by
    obtain ⟨n, hn⟩ := htr.onto q b hq
    exact List.not_mem_nil _ hn

/-- On every reachable implicit-list heap where nothing is live, the heap between the prologue
    and the epilogue is one free block: `free` never leaves two free blocks side by side, so
    freeing everything undoes all fragmentation. -/
theorem all_freed_one_block {s : implicit.State} (h : implicit.Reachable s []) :
    implicit.Inv s [⟨s.heap.brk - s.heap.lo - (wsize + dsize + wsize), false⟩] := by
  obtain ⟨bs, hinv, -, hno⟩ := h.good
  have hfree : ∀ b ∈ bs, b.alloc = false := (allocs_eq_nil (a := first_block s)).1 (h.allocs_nil hinv)
  have hlen := hno.length_le_one hfree
  have htot := h.chunksize_le_total hinv
  have hbrk := hinv.brk_eq
  rcases bs with _ | ⟨⟨S, al⟩, _ | ⟨c, bs⟩⟩
  · simp [chunksize] at htot
  · obtain rfl : al = false := hfree _ (List.mem_singleton_self _)
    have hS : s.heap.brk - s.heap.lo - (wsize + dsize + wsize) = S := by
      simp only [total_cons, total_nil] at hbrk
      omega
    rwa [hS]
  · simp at hlen

theorem all_freed_one_block_one :
    ∃ s₂, implicit.step implicit_one (.free 32) = .ok (s₂, 0) ∧
      implicit.Inv s₂ [⟨s₂.heap.brk - s₂.heap.lo - (wsize + dsize + wsize), false⟩] := by
  obtain ⟨s₂, hfree⟩ : ∃ s₂, implicit.step implicit_one (.free 32) = .ok (s₂, 0) := ⟨_, rfl⟩
  exact ⟨s₂, hfree, all_freed_one_block (Reach.step (c := .free 32) implicit_one_reachable (Or.inr (by decide)) hfree)⟩

/-- On reachable implicit-list heaps the real blocks are determined by the allocated ones and the
    size of the region: two reachable heaps over the same region with the same allocated blocks
    have the same blocks, each gap between allocated blocks one free block. -/
theorem implicit_blocks_determined {s s' : implicit.State} {L L' : List (Nat × Nat)} {bs bs' : List Blk}
    (h : implicit.Reachable s L) (h' : implicit.Reachable s' L') (hinv : implicit.Inv s bs)
    (hinv' : implicit.Inv s' bs') (hlo : s'.heap.lo = s.heap.lo) (hbrk : s'.heap.brk = s.heap.brk)
    (hA : ∀ y, y ∈ allocs (first_block s) bs ↔ y ∈ allocs (first_block s') bs') : bs = bs' := by
  obtain ⟨b₀, hinv₀, -, hno⟩ := h.good
  obtain ⟨b₀', hinv₀', -, hno'⟩ := h'.good
  cases hinv₀.unique hinv
  cases hinv₀'.unique hinv'
  have e := hinv.brk_eq
  have e' := hinv'.brk_eq
  rw [first_block_congr hlo] at hA
  exact eq_of_allocs hno hno' hinv.size_pos hinv'.size_pos (by omega) hA

/-- The heap after two `malloc`s and the `free` of both holds the blocks of the fresh heap. -/
theorem implicit_blocks_determined_freed :
    ∃ bs, implicit.Inv implicit_boot bs ∧
      implicit.Inv (implicit_after (implicit_after implicit_two (.free 32)) (.free 1040)) bs := by
  have h : implicit.Reachable (implicit_after (implicit_after implicit_two (.free 32)) (.free 1040)) [] :=
    Reach.step (c := .free 1040) (Reach.step (c := .free 32) implicit_two_reachable (Or.inr (by decide)) rfl)
      (Or.inr (by decide)) rfl
  obtain ⟨bs, hinv, -⟩ := implicit_boot_reachable.good
  obtain ⟨bs', hinv', -⟩ := h.good
  have hA : ∀ y, y ∈ allocs (first_block implicit_boot) bs ↔ y ∈ allocs (first_block (implicit_after (implicit_after implicit_two (.free 32)) (.free 1040))) bs' := by
    simp only [implicit_boot_reachable.allocs_nil hinv, h.allocs_nil hinv', implies_true]
  exact ⟨bs, hinv, implicit_blocks_determined implicit_boot_reachable h hinv hinv' rfl rfl hA ▸ hinv'⟩

/-- Two `free`s of distinct allocated blocks of a heap without adjacent free blocks: the blocks
    they leave have no adjacent free blocks, the region is the same, and the allocated blocks are
    the old ones but those two. -/
theorem free_twice_blocks {s s₁ s₂ : implicit.State} {bs : List Blk} {p q Sp Sq r₁ r₂ : Nat}
    (hinv : implicit.Inv s bs) (hno : NoAdjFree bs)
    (hp : (payload_to_header p, ⟨Sp, true⟩) ∈ allocs (first_block s) bs)
    (hq : (payload_to_header q, ⟨Sq, true⟩) ∈ allocs (first_block s) bs)
    (hpq : payload_to_header p ≠ payload_to_header q)
    (h₁ : implicit.step s (.free p) = .ok (s₁, r₁)) (h₂ : implicit.step s₁ (.free q) = .ok (s₂, r₂)) :
    ∃ bs₂, implicit.Inv s₂ bs₂ ∧ NoAdjFree bs₂ ∧ s₂.heap.lo = s.heap.lo ∧ s₂.heap.brk = s.heap.brk ∧
      ∀ y, y ∈ allocs (first_block s) bs₂ ↔
        y ∈ allocs (first_block s) bs ∧ y.1 ≠ payload_to_header p ∧ y.1 ≠ payload_to_header q := by
  obtain ⟨m₁, bs₁, hrun₁, hinv₁, hdrops₁, -, hno₁, -⟩ := free_spec hinv hp
  simp only [implicit.step, hrun₁, ok_bind, pure_eq_ok, Except.ok.injEq, Prod.mk.injEq] at h₁
  obtain ⟨rfl, -⟩ := h₁
  obtain ⟨m₂, bs₂, hrun₂, hinv₂, hdrops₂, -, hno₂, -⟩ := free_spec hinv₁ ((hdrops₁ _).2 ⟨hq, hpq.symm⟩)
  simp only [implicit.step, hrun₂, ok_bind, pure_eq_ok, Except.ok.injEq, Prod.mk.injEq] at h₂
  obtain ⟨rfl, -⟩ := h₂
  exact ⟨bs₂, hinv₂, hno₂ (hno₁ hno), rfl, rfl, fun y =>
    (hdrops₂ y).trans ((and_congr_left fun _ => hdrops₁ y).trans and_assoc)⟩

/-- On every reachable implicit-list heap, freeing two distinct live pointers in either order
    leaves the same blocks: `coalesce` merges whatever free neighbours a freed block has, so the
    blocks depend only on what is still allocated. -/
theorem free_order_irrelevant {s s₁ s₂ s₁' s₂' : implicit.State} {L : List (Nat × Nat)} {p q r₁ r₂ r₁' r₂' : Nat}
    (h : implicit.Reachable s L) (hp : p ∈ L.map Prod.fst) (hq : q ∈ L.map Prod.fst) (hpq : p ≠ q)
    (h₁ : implicit.step s (.free p) = .ok (s₁, r₁)) (h₂ : implicit.step s₁ (.free q) = .ok (s₂, r₂))
    (h₁' : implicit.step s (.free q) = .ok (s₁', r₁')) (h₂' : implicit.step s₁' (.free p) = .ok (s₂', r₂')) :
    ∃ bs, implicit.Inv s₂ bs ∧ implicit.Inv s₂' bs := by
  obtain ⟨bs, hinv, htr, hno⟩ := h.good
  obtain ⟨x, hx, rfl⟩ := List.mem_map.1 hp
  obtain ⟨y, hy, rfl⟩ := List.mem_map.1 hq
  obtain ⟨hxo, Sx, hSx, -⟩ := htr.live x hx
  obtain ⟨hyo, Sy, hSy, -⟩ := htr.live y hy
  have hne : x.1 - wsize ≠ y.1 - wsize := by omega
  obtain ⟨bs₂, hinv₂, hno₂, hlo₂, hbrk₂, hA₂⟩ := free_twice_blocks hinv hno hSx hSy hne h₁ h₂
  obtain ⟨bs₂', hinv₂', hno₂', hlo₂', hbrk₂', hA₂'⟩ := free_twice_blocks hinv hno hSy hSx hne.symm h₁' h₂'
  have e := hinv₂.brk_eq
  have e' := hinv₂'.brk_eq
  have hbs : bs₂ = bs₂' := eq_of_allocs hno₂ hno₂' hinv₂.size_pos hinv₂'.size_pos (by omega) fun z =>
    (hA₂ z).trans ((and_congr_right fun _ => and_comm).trans (hA₂' z).symm)
  exact ⟨bs₂, hinv₂, hbs ▸ hinv₂'⟩

theorem free_order_irrelevant_two :
    ∃ bs, implicit.Inv (implicit_after (implicit_after implicit_two (.free 32)) (.free 1040)) bs ∧
      implicit.Inv (implicit_after (implicit_after implicit_two (.free 1040)) (.free 32)) bs :=
  free_order_irrelevant (p := 32) (q := 1040) implicit_two_reachable (by decide) (by decide) (by decide) rfl rfl rfl
    rfl

end implicit_blocks

section segregated_blocks

open segregated

/-- On every reachable segregated heap, an allowed call that returns moves the real blocks as the
    list-level allocator `segregated.step_blocks` does for an answer of `find_fit` that `Fit`
    allows (a free block with room for the call's adjusted request, or `NULL` when none has
    room), with the provider's next answer, and returns the pointer it returns. -/
theorem segregated_refines_blocks {s s' : segregated.State} {L : List (Nat × Nat)} {c : Call} {r : Nat}
    {bs : List Blk} {ls : Nat → List Nat} (h : segregated.Reachable s L) (hinv : segregated.Inv s bs ls)
    (hc : Allowed segregated.calloc_ok L c) (hstep : segregated.step s c = .ok (s', r)) :
    ∃ f ls', Fit (first_block s) (request_asize c) bs f ∧
      segregated.Inv s' (step_blocks (first_block s) (s.heap.grants 0) f bs c).1 ls' ∧
      r = (step_blocks (first_block s) (s.heap.grants 0) f bs c).2 :=
  (h.outcome hc hstep).blocks bs ls hinv

theorem segregated_refines_blocks_boot :
    ∃ bs ls, segregated.Inv segregated_boot bs ls ∧ ∃ f ls',
      Fit (first_block segregated_boot) (request_asize (.malloc 1000)) bs f ∧
      segregated.Inv segregated_one
        (step_blocks (first_block segregated_boot) (segregated_boot.heap.grants 0) f bs (.malloc 1000)).1 ls' ∧
      568 = (step_blocks (first_block segregated_boot) (segregated_boot.heap.grants 0) f bs (.malloc 1000)).2 := by
  obtain ⟨bs, ls, hinv, -⟩ := segregated_boot_reachable.good
  exact ⟨bs, ls, hinv, segregated_refines_blocks segregated_boot_reachable hinv (show 1000 < 2 ^ 31 - 64 by decide)
    segregated_boot_malloc⟩

/-- On every reachable segregated heap, `malloc(n)` grows the region only when no free block
    holds `get_asize(n)` bytes, and then by exactly `max(asize, CHUNKSIZE)` bytes: `find_fit`
    misses no fitting block on any of its lists. -/
theorem segregated_malloc_grows_only_without_fit {s s' : segregated.State} {L : List (Nat × Nat)} {n p : Nat}
    {bs : List Blk} {ls : Nat → List Nat} (h : segregated.Reachable s L) (hinv : segregated.Inv s bs ls)
    (hn : n < 2 ^ 31 - 64) (hstep : segregated.step s (.malloc n) = .ok (s', p)) :
    s'.heap.brk = s.heap.brk ∨
      ((∀ q S, (q, ⟨S, false⟩) ∈ layout (first_block s) bs → S < get_asize n) ∧
        s'.heap.brk = s.heap.brk + malloc_lab.max (get_asize n) chunksize) := by
  have o := h.outcome (c := .malloc n) hn hstep
  obtain ⟨f, ls', hf, hinv', -⟩ := o.blocks bs ls hinv
  have h' := hinv'.brk_eq
  have h₀ := hinv.brk_eq
  rw [o.lo] at h'
  simp only [step_blocks] at h'
  rcases total_malloc_blocks (first_block s) n (s.heap.grants 0) f bs with htot | ⟨rfl, htot⟩
  · exact .inl (by omega)
  · refine .inr ⟨fun q S hq => ?_, by omega⟩
    simp only [Fit, if_true] at hf
    simpa using hf _ hq

theorem segregated_malloc_grows_only_without_fit_boot :
    ∃ bs ls, segregated.Inv segregated_boot bs ls ∧
      (segregated_one.heap.brk = segregated_boot.heap.brk ∨
        ((∀ q S, (q, ⟨S, false⟩) ∈ layout (first_block segregated_boot) bs → S < get_asize 1000) ∧
          segregated_one.heap.brk = segregated_boot.heap.brk + malloc_lab.max (get_asize 1000) chunksize)) := by
  obtain ⟨bs, ls, hinv, -⟩ := segregated_boot_reachable.good
  exact ⟨bs, ls, hinv, segregated_malloc_grows_only_without_fit segregated_boot_reachable hinv
    (show 1000 < 2 ^ 31 - 64 by decide) segregated_boot_malloc⟩

/-- Two `free`s of distinct allocated blocks of a segregated heap leave the blocks `free_blocks`
    leaves, for some free lists. -/
theorem segregated.free_twice_blocks {s s₁ s₂ : segregated.State} {bs : List Blk} {ls : Nat → List Nat}
    {p q Sp Sq r₁ r₂ : Nat} (hinv : segregated.Inv s bs ls)
    (hp : (payload_to_header p, ⟨Sp, true⟩) ∈ allocs (first_block s) bs)
    (hq : (payload_to_header q, ⟨Sq, true⟩) ∈ allocs (first_block s) bs)
    (hpq : payload_to_header p ≠ payload_to_header q)
    (h₁ : segregated.step s (.free p) = .ok (s₁, r₁)) (h₂ : segregated.step s₁ (.free q) = .ok (s₂, r₂)) :
    ∃ ls₂, segregated.Inv s₂ (free_blocks (first_block s) q (free_blocks (first_block s) p bs)) ls₂ := by
  obtain ⟨m₁, bs₁, ls₁, hrun₁, hinv₁, hdrops₁, -, rfl, -⟩ := free_spec hinv hp
  simp only [segregated.step, hrun₁, ok_bind, pure_eq_ok, Except.ok.injEq, Prod.mk.injEq] at h₁
  obtain ⟨rfl, -⟩ := h₁
  obtain ⟨m₂, bs₂, ls₂, hrun₂, hinv₂, -, -, rfl, -⟩ := free_spec hinv₁ ((hdrops₁ _).2 ⟨hq, hpq.symm⟩)
  simp only [segregated.step, hrun₂, ok_bind, pure_eq_ok, Except.ok.injEq, Prod.mk.injEq] at h₂
  obtain ⟨rfl, -⟩ := h₂
  exact ⟨ls₂, hinv₂⟩

/-- On every reachable segregated heap, freeing two distinct live pointers in either order leaves
    the same blocks, though the free lists may hold them in another order: each `coalesce`
    reaches only the freed block's neighbours, even where `realloc` left free blocks side by
    side. -/
theorem segregated_free_order_irrelevant {s s₁ s₂ s₁' s₂' : segregated.State} {L : List (Nat × Nat)}
    {p q r₁ r₂ r₁' r₂' : Nat} (h : segregated.Reachable s L) (hp : p ∈ L.map Prod.fst)
    (hq : q ∈ L.map Prod.fst) (hpq : p ≠ q)
    (h₁ : segregated.step s (.free p) = .ok (s₁, r₁)) (h₂ : segregated.step s₁ (.free q) = .ok (s₂, r₂))
    (h₁' : segregated.step s (.free q) = .ok (s₁', r₁')) (h₂' : segregated.step s₁' (.free p) = .ok (s₂', r₂')) :
    ∃ bs ls ls', segregated.Inv s₂ bs ls ∧ segregated.Inv s₂' bs ls' := by
  obtain ⟨bs, ls, hinv, htr⟩ := h.good
  obtain ⟨x, hx, rfl⟩ := List.mem_map.1 hp
  obtain ⟨y, hy, rfl⟩ := List.mem_map.1 hq
  obtain ⟨hxo, Sx, hSx, -⟩ := htr.live x hx
  obtain ⟨hyo, Sy, hSy, -⟩ := htr.live y hy
  have hd : 0 < dsize := by decide
  have hne : x.1 - dsize ≠ y.1 - dsize := by omega
  obtain ⟨ls₂, hinv₂⟩ := segregated.free_twice_blocks hinv hSx hSy hne h₁ h₂
  obtain ⟨ls₂', hinv₂'⟩ := segregated.free_twice_blocks hinv hSy hSx hne.symm h₁' h₂'
  rw [free_blocks_comm hinv.size_pos (by omega) (by omega) (mem_allocs.1 hSx).1 (mem_allocs.1 hSy).1 hne] at hinv₂
  exact ⟨_, ls₂, ls₂', hinv₂, hinv₂'⟩

theorem segregated_free_order_irrelevant_two :
    ∃ bs ls ls',
      segregated.Inv (segregated_after (segregated_after segregated_two (.free 568)) (.free 1584)) bs ls ∧
      segregated.Inv (segregated_after (segregated_after segregated_two (.free 1584)) (.free 568)) bs ls' :=
  segregated_free_order_irrelevant (p := 568) (q := 1584) segregated_two_reachable (by decide) (by decide)
    (by decide) rfl rfl rfl rfl

end segregated_blocks

end malloc_lab
