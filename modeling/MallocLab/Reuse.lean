import MallocLab.Refinement

namespace malloc_lab

section implicit_reuse

open implicit

/-- On every reachable implicit-list heap, once `free(p)` has released a live block of `S` bytes,
    `malloc(n)` of a request that fits its payload (`n + dsize ≤ S`) returns a block without
    growing the region: the freed bytes always make a fit. -/
theorem free_then_malloc_fits {s s₁ : implicit.State} {L : List (Nat × Nat)} {p S n r : Nat}
    (h : implicit.Reachable s L) (hp : p ∈ L.map Prod.fst)
    (hS : get_size s.heap (payload_to_header p) = .ok S)
    (hfree : implicit.step s (.free p) = .ok (s₁, r)) (hn : 0 < n) (hsmall : n < 2 ^ 31 - 64)
    (hnS : n + dsize ≤ S) :
    ∃ s₂ q, implicit.step s₁ (.malloc n) = .ok (s₂, q) ∧ q ≠ 0 ∧ s₂.heap.brk = s.heap.brk := by
  obtain ⟨bs, hinv, htr, -⟩ := h.good
  obtain ⟨x, hx, rfl⟩ := List.mem_map.1 hp
  obtain ⟨hoff, S', hS', -⟩ := htr.live x hx
  obtain ⟨hget, hS8, -⟩ := hinv.alloc_size hS'
  obtain rfl : S = S' := Except.ok.inj (hS.symm.trans hget)
  have o₁ := h.outcome (c := .free x.1) (Or.inr hp) hfree
  obtain ⟨hinv₁, -⟩ := o₁.blocks bs hinv
  simp only [step_blocks] at hinv₁
  rcases step_spec (c := .malloc n) (Reachable.good (Reach.step (c := .free x.1) h (Or.inr hp) hfree)) hsmall with
    ⟨_, hc, -⟩ | ⟨s₂, q, hrun, o₂⟩
  · cases hc
  obtain ⟨hinv₂, hq⟩ := o₂.blocks _ hinv₁
  have hfit := first_fit_free_blocks hinv.size_pos (mem_allocs.1 hS').1 (by simp only [wsize] at hoff; omega)
    (show adjusted n ≤ S by simp only [adjusted, dsize, wsize] at hnS hS8 ⊢; omega)
  obtain ⟨r', hr'⟩ := Option.ne_none_iff_exists'.1 hfit
  rw [first_block_congr o₁.lo] at hinv₂ hq
  simp only [step_blocks, malloc_blocks_of_fit hn hr'] at hinv₂ hq
  refine ⟨s₂, q, hrun, by rw [hq]; simp [header_to_payload, wsize], ?_⟩
  have h₂ := hinv₂.brk_eq
  have h₀ := hinv.brk_eq
  rw [total_carve_at (by decide), total_free_blocks] at h₂
  rw [h₂, h₀, o₂.lo, o₁.lo]

theorem free_then_malloc_fits_one :
    ∃ s₁, implicit.step implicit_one (.free 32) = .ok (s₁, 0) ∧
      ∃ s₂ q, implicit.step s₁ (.malloc 1000) = .ok (s₂, q) ∧ q ≠ 0 ∧ s₂.heap.brk = implicit_one.heap.brk := by
  obtain ⟨s₁, hfree⟩ : ∃ s₁, implicit.step implicit_one (.free 32) = .ok (s₁, 0) := ⟨_, rfl⟩
  exact ⟨s₁, hfree, free_then_malloc_fits implicit_one_reachable (by decide)
    (show get_size implicit_one.heap (payload_to_header 32) = .ok 1008 from rfl) hfree (by decide) (by decide)
    (by decide)⟩

/-- On every reachable implicit-list heap, `realloc(p, n)` of a live `p` to a nonzero size never
    answers `p`: the new block is carved while the old one is still allocated, so even a request
    that shrinks moves the data, or answers `NULL`. -/
theorem realloc_never_in_place {s s' : implicit.State} {L : List (Nat × Nat)} {p n q : Nat}
    (h : implicit.Reachable s L) (hp : p ∈ L.map Prod.fst) (hn : 0 < n) (hsmall : n < 2 ^ 31 - 64)
    (hstep : implicit.step s (.realloc p n) = .ok (s', q)) : q ≠ p := by
  obtain ⟨bs, hinv, htr, -⟩ := h.good
  obtain ⟨x, hx, rfl⟩ := List.mem_map.1 hp
  obtain ⟨hoff, S, hS, -⟩ := htr.live x hx
  obtain ⟨s'', q', hrun, -, -, ⟨rfl, -⟩ | ⟨A₁, bs', S', -, -, -, hadds, -⟩⟩ := realloc_spec hinv hS hn hsmall
  · rw [show implicit.step s (.realloc x.1 n) = realloc s x.1 n from rfl, hrun] at hstep
    cases hstep
    simp only [wsize] at hoff
    omega
  · rw [show implicit.step s (.realloc x.1 n) = realloc s x.1 n from rfl, hrun] at hstep
    cases hstep
    intro hq
    exact hadds.2 _ (by rw [hq]; exact hS)

theorem realloc_never_in_place_one :
    ∃ s' q, implicit.step implicit_one (.realloc 32 100) = .ok (s', q) ∧ q ≠ 32 := by
  obtain ⟨s', q, hrun⟩ : ∃ s' q, implicit.step implicit_one (.realloc 32 100) = .ok (s', q) := ⟨_, _, rfl⟩
  exact ⟨s', q, hrun, realloc_never_in_place implicit_one_reachable (by decide) (by decide) (by decide) hrun⟩

end implicit_reuse

section segregated_reuse

open segregated

/-- On every reachable segregated heap, once `free(p)` has released a live block of `S` bytes,
    `malloc(n)` of a request that fits its payload (`n + tsize ≤ S`) returns a block without
    growing the region: the freed block, merged with its free neighbours and filed, always makes
    a fit for `find_fit`. -/
theorem segregated_free_then_malloc_fits {s s₁ : segregated.State} {L : List (Nat × Nat)} {p S n r : Nat}
    (h : segregated.Reachable s L) (hp : p ∈ L.map Prod.fst)
    (hS : get_size s.heap (segregated.payload_to_header p) = .ok S)
    (hfree : segregated.step s (.free p) = .ok (s₁, r)) (hn : 0 < n) (hsmall : n < 2 ^ 31 - 64)
    (hnS : n + tsize ≤ S) :
    ∃ s₂ q, segregated.step s₁ (.malloc n) = .ok (s₂, q) ∧ q ≠ 0 ∧ s₂.heap.brk = s.heap.brk := by
  obtain ⟨bs, ls, hinv, htr⟩ := h.good
  obtain ⟨x, hx, rfl⟩ := List.mem_map.1 hp
  obtain ⟨-, S', hS', -⟩ := htr.live x hx
  obtain ⟨hget, hS8, hmin⟩ := hinv.alloc_size hS'
  obtain rfl : S = S' := Except.ok.inj (hS.symm.trans hget)
  obtain ⟨m, bs', ls', hrun, hinv', -, -, -, r', S'', hr', hle⟩ := free_spec hinv hS'
  simp only [segregated.step, hrun, ok_bind, pure_eq_ok, Except.ok.injEq, Prod.mk.injEq] at hfree
  obtain ⟨rfl, -⟩ := hfree
  have hfit : get_asize n ≤ S := not_lt.1 fun hlt => absurd (lt_of_lt_get_asize hsmall hS8 hmin hlt) (not_lt.2 hnS)
  exact malloc_of_fit hinv' hn hsmall ⟨r', S'', hr', le_trans hfit hle⟩

theorem segregated_free_then_malloc_fits_one :
    ∃ s₁, segregated.step segregated_one (.free 568) = .ok (s₁, 0) ∧
      ∃ s₂ q, segregated.step s₁ (.malloc 1000) = .ok (s₂, q) ∧ q ≠ 0 ∧ s₂.heap.brk = segregated_one.heap.brk := by
  obtain ⟨s₁, hfree⟩ : ∃ s₁, segregated.step segregated_one (.free 568) = .ok (s₁, 0) := ⟨_, rfl⟩
  exact ⟨s₁, hfree, segregated_free_then_malloc_fits segregated_one_reachable (by decide)
    (show get_size segregated_one.heap (segregated.payload_to_header 568) = .ok 1016 from rfl) hfree (by decide)
    (by decide) (by decide)⟩

/-- On every reachable segregated heap, `realloc(p, n)` of a live `p` to a nonzero size answers
    `p` itself exactly when its block of `S` bytes already holds the adjusted request; otherwise
    it answers a new block or `NULL`. -/
theorem realloc_in_place_iff_fits {s s' : segregated.State} {L : List (Nat × Nat)} {p S n q : Nat}
    (h : segregated.Reachable s L) (hp : p ∈ L.map Prod.fst)
    (hS : get_size s.heap (segregated.payload_to_header p) = .ok S) (hn : 0 < n) (hsmall : n < 2 ^ 31 - 64)
    (hstep : segregated.step s (.realloc p n) = .ok (s', q)) :
    q = p ↔ get_asize n ≤ S := by
  obtain ⟨bs, ls, hinv, htr⟩ := h.good
  obtain ⟨x, hx, rfl⟩ := List.mem_map.1 hp
  obtain ⟨hoff, S', hS', -⟩ := htr.live x hx
  obtain rfl : S = S' := Except.ok.inj (hS.symm.trans (hinv.alloc_size hS').1)
  obtain ⟨s'', q', hrun, -, -, -, -, -, ⟨rfl, -, -, hlt, -⟩ | ⟨-, -, -, -, -, -, -, -, ⟨hqp, hlt, -⟩ | ⟨hqp, hle, -⟩, -⟩⟩ :=
    realloc_spec hinv hS' hn hsmall
  all_goals
    rw [show segregated.step s (.realloc x.1 n) = realloc s x.1 n from rfl, hrun] at hstep
    cases hstep
  · exact iff_of_false (by simp only [dsize, wsize] at hoff; omega) (not_le.2 hlt)
  · exact iff_of_false hqp (not_le.2 hlt)
  · exact iff_of_true hqp hle

theorem realloc_in_place_iff_fits_split :
    segregated.step segregated_one (.realloc 568 32) = .ok (segregated_split, 568) ∧
      (568 = 568 ↔ get_asize 32 ≤ 1016) :=
  ⟨segregated_one_realloc, realloc_in_place_iff_fits segregated_one_reachable (by decide)
    (show get_size segregated_one.heap (segregated.payload_to_header 568) = .ok 1016 from rfl) (by decide)
    (by decide) segregated_one_realloc⟩

end segregated_reuse

/-- On every reachable heap of either allocator, the block `malloc(n)` hands out holds the
    adjusted request and is less than a minimum block larger: `place` splits off any rest that
    can make a block of its own. -/
theorem malloc_block_tight :
    (∀ {s s' : implicit.State} {L : List (Nat × Nat)} {n p : Nat}, implicit.Reachable s L → n < 2 ^ 31 - 64 →
      implicit.step s (.malloc n) = .ok (s', p) → p ≠ 0 →
      ∃ S, get_size s'.heap (implicit.payload_to_header p) = .ok S ∧
        implicit.adjusted n ≤ S ∧ S < implicit.adjusted n + implicit.min_block_size) ∧
    (∀ {s s' : segregated.State} {L : List (Nat × Nat)} {n p : Nat}, segregated.Reachable s L → n < 2 ^ 31 - 64 →
      segregated.step s (.malloc n) = .ok (s', p) → p ≠ 0 →
      ∃ S, get_size s'.heap (segregated.payload_to_header p) = .ok S ∧
        segregated.get_asize n ≤ S ∧ S < segregated.get_asize n + segregated.min_block_size) := by
  refine ⟨fun {s s' L n p} h hsmall hstep hp => ?_, fun {s s' L n p} h hsmall hstep hp => ?_⟩
  · obtain ⟨bs, hinv, -, -⟩ := h.good
    have hn : 0 < n := Nat.pos_of_ne_zero fun h0 => hp (implicit.step_ret_zero hstep h0)
    obtain ⟨s'', q, hrun, -, hlo, ⟨rfl, -⟩ | ⟨bs', S, hinv', hS, hSlt, -, hadds, -⟩⟩ :=
      implicit.malloc_spec hinv hn hsmall
    all_goals
      rw [show implicit.step s (.malloc n) = implicit.malloc s n from rfl, hrun] at hstep
      cases hstep
    · exact absurd rfl hp
    · obtain ⟨hget, hS8, -⟩ :=
        hinv'.alloc_size (by rw [implicit.first_block_congr hlo]; exact (hadds.1 _).2 (.inl rfl))
      refine ⟨S, hget, ?_, hSlt⟩
      simp only [implicit.adjusted, dsize, wsize] at hS hS8 ⊢
      omega
  · obtain ⟨bs, ls, hinv, -⟩ := h.good
    have hn : 0 < n := Nat.pos_of_ne_zero fun h0 => hp (segregated.step_ret_zero hstep h0)
    obtain ⟨s'', q, hrun, -, hseg, -, -, -, ⟨rfl, -⟩ | ⟨bs', ls', S, hinv', hS, hSlt, -, hadds, -⟩⟩ :=
      segregated.malloc_spec hinv hn hsmall
    all_goals
      rw [show segregated.step s (.malloc n) = segregated.malloc s n from rfl, hrun] at hstep
      cases hstep
    · exact absurd rfl hp
    · obtain ⟨hget, hS8, hmin⟩ :=
        hinv'.alloc_size (by rw [segregated.first_block_congr hseg]; exact (hadds.1 _).2 (.inl rfl))
      exact ⟨S, hget, not_lt.1 fun hlt => absurd (segregated.lt_of_lt_get_asize hsmall hS8 hmin hlt) (not_lt.2 hS),
        hSlt⟩

theorem malloc_block_tight_one :
    (∃ S, get_size implicit_one.heap (implicit.payload_to_header 32) = .ok S ∧
      implicit.adjusted 1000 ≤ S ∧ S < implicit.adjusted 1000 + implicit.min_block_size) ∧
    (∃ S, get_size segregated_one.heap (segregated.payload_to_header 568) = .ok S ∧
      segregated.get_asize 1000 ≤ S ∧ S < segregated.get_asize 1000 + segregated.min_block_size) :=
  ⟨malloc_block_tight.1 implicit_boot_reachable (by decide) implicit_boot_malloc (by decide),
    malloc_block_tight.2 segregated_boot_reachable (by decide) segregated_boot_malloc (by decide)⟩

end malloc_lab
