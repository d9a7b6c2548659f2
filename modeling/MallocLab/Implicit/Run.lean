import MallocLab.Implicit.Api

namespace malloc_lab.implicit

/-- One call of the interface; `free` returns nothing, recorded as `NULL`. -/
def step (s : State) : Call → Except Fault (State × Nat)
  | .malloc n => malloc s n
  | .free p => do let s ← free s p; pure (s, 0)
  | .realloc p n => realloc s p n
  | .calloc nmemb size => calloc s nmemb size

/-- A heap that a successful `mm_init` made out of a fresh one. -/
def Initialized (s : State) : Prop := ∃ s₀, Fresh s₀ ∧ mm_init s₀ = .ok (s, 0)

/-- The arguments `calloc` may get: a product that overflows `size_t`, which `calloc` refuses
    before calling `malloc`, or one below `2 ^ 31 - 64`, which reaches `malloc`. -/
def calloc_ok (nmemb size : Nat) : Prop := 2 ^ 64 ≤ nmemb * size ∨ nmemb * size < 2 ^ 31 - 64

/-- The states that runs from an initialised heap reach, with their live allocations. -/
def Reachable (s : State) (L : List (Nat × Nat)) : Prop := Reach Initialized calloc_ok step s L

/-- The run invariant: a well-formed heap whose allocated blocks are the live allocations, with
    no two free blocks side by side. -/
def Good (s : State) (L : List (Nat × Nat)) : Prop :=
  ∃ bs, Inv s bs ∧ Tracks wsize (allocs (first_block s) bs) L ∧ NoAdjFree bs

/-- What a call that returned guarantees: the invariant for the new live allocations, the start
    of the region and `heap_listp` kept, the bytes of every live allocation but the operand kept,
    a `NULL` answer to a nonzero request that changes nothing, and the real blocks moved as the
    list-level allocator moves them, with the provider's next answer. -/
structure Outcome (s : State) (L : List (Nat × Nat)) (c : Call) (s' : State) (r : Nat) : Prop where
  good : Good s' (live_after L c r)
  lo : s'.heap.lo = s.heap.lo
  listp : s'.heap_listp = s.heap_listp
  kept : ∀ x ∈ L, x.1 ≠ c.operand → ∀ i < x.2, s'.heap.mem (x.1 + i) = s.heap.mem (x.1 + i)
  atomic : r = 0 → c.request ≠ 0 →
    s'.heap.mem = s.heap.mem ∧ s'.heap.brk = s.heap.brk ∧ live_after L c r = L
  blocks : ∀ bs, Inv s bs → Inv s' (step_blocks (first_block s) (s.heap.grants 0) bs c).1 ∧
    r = (step_blocks (first_block s) (s.heap.grants 0) bs c).2

section outcome

variable {s s' : State} {L : List (Nat × Nat)} {c c' : Call} {r : Nat}

theorem first_block_congr (hlo : s'.heap.lo = s.heap.lo) : first_block s' = first_block s := by
  simp only [first_block, hlo]

/-- A call that returned `NULL` and left memory, the region and `heap_listp` as they were. -/
theorem Outcome.unchanged (hg : Good s L) (hmem : s'.heap.mem = s.heap.mem) (hlo : s'.heap.lo = s.heap.lo)
    (hbrk : s'.heap.brk = s.heap.brk) (hlistp : s'.heap_listp = s.heap_listp) (hL : live_after L c 0 = L)
    (hblk : ∀ bs, Inv s bs → step_blocks (first_block s) (s.heap.grants 0) bs c = (bs, 0)) :
    Outcome s L c s' 0 := by
  obtain ⟨bs, hinv, htr, hno⟩ := hg
  refine ⟨⟨bs, hinv.congr hmem hlo hbrk hlistp, ?_, hno⟩, hlo, hlistp, fun x _ _ i _ => by rw [hmem],
    fun _ _ => ⟨hmem, hbrk, hL⟩, fun b hb => by rw [hblk b hb]; exact ⟨hb.congr hmem hlo hbrk hlistp, rfl⟩⟩
  rw [hL, first_block_congr hlo]
  exact htr

theorem Outcome.transfer (h : Outcome s L c s' r) (hL : live_after L c' r = live_after L c r)
    (hop : c'.operand = c.operand) (hreq : c'.request ≠ 0 → c.request ≠ 0)
    (hblk : ∀ bs, step_blocks (first_block s) (s.heap.grants 0) bs c' =
      step_blocks (first_block s) (s.heap.grants 0) bs c) : Outcome s L c' s' r :=
  ⟨hL ▸ h.good, h.lo, h.listp, hop ▸ h.kept, fun h0 hr => by rw [hL]; exact h.atomic h0 (hreq hr),
    fun b hb => by rw [hblk]; exact h.blocks b hb⟩

theorem malloc_outcome (hg : Good s L) {n : Nat} (hn : n < 2 ^ 31 - 64) :
    ∃ s' r, malloc s n = .ok (s', r) ∧ Outcome s L (.malloc n) s' r := by
  rcases Nat.eq_zero_or_pos n with rfl | hpos
  · exact ⟨s, 0, rfl, .unchanged hg rfl rfl rfl rfl (by simp [live_after, acquire]) fun _ _ => rfl⟩
  obtain ⟨bs, hinv, htr, hno⟩ := hg
  obtain ⟨s', q, hrun, hlistp, hlo, ⟨rfl, hmem, hbrk, hmb⟩ | ⟨bs', S, hinv', hS, -, hq, hadds, hkeep, hno', hmb⟩⟩ :=
    malloc_spec hinv hpos hn
  · exact ⟨s', 0, hrun, .unchanged ⟨bs, hinv, htr, hno⟩ hmem hlo hbrk hlistp (by simp [live_after, acquire])
      fun b hb => by cases hinv.unique hb; exact hmb⟩
  refine ⟨s', q, hrun, ⟨⟨bs', hinv', ?_, hno' hno⟩, hlo, hlistp, fun x hx _ => htr.kept hkeep hx fun _ h => h,
    fun h0 => absurd h0 (by simp only [wsize] at hq; omega),
    fun b hb => by cases hinv.unique hb; simp only [step_blocks, hmb, and_true]; exact hinv'⟩⟩
  rw [first_block_congr hlo, live_after, acquire, if_neg (by simp only [wsize] at hq; omega)]
  exact htr.adds hadds hq (by simp only [payload_to_header, dsize, wsize] at hS hq ⊢; omega)

theorem free_outcome (hg : Good s L) {p : Nat} (hp : p = 0 ∨ p ∈ L.map Prod.fst) :
    ∃ s', free s p = .ok s' ∧ Outcome s L (.free p) s' 0 := by
  obtain ⟨bs, hinv, htr, hno⟩ := hg
  rcases hp with rfl | hp
  · refine ⟨s, rfl, ⟨bs, hinv, ?_, hno⟩, rfl, rfl, fun _ _ _ _ _ => rfl, fun _ h => absurd rfl h,
      fun b hb => by cases hinv.unique hb; exact ⟨hinv, rfl⟩⟩
    rw [live_after, htr.release_zero (by decide)]
    exact htr
  obtain ⟨x, hx, rfl⟩ := List.mem_map.1 hp
  obtain ⟨hoff, S, hS, -⟩ := htr.live x hx
  obtain ⟨m, bs', hrun, hinv', hdrops, hkeep, hno', hbs'⟩ := free_spec hinv hS
  refine ⟨_, hrun, ⟨⟨bs', hinv', htr.drops hdrops hoff, hno' hno⟩, rfl, rfl, fun y hy hne => ?_,
    fun _ h => absurd rfl h, fun b hb => by cases hinv.unique hb; subst hbs'; exact ⟨hinv', rfl⟩⟩⟩
  have hy4 := (htr.live y hy).1
  exact htr.kept hkeep hy fun S' h => (hdrops _).2 ⟨h, by
    simp only [payload_to_header, Call.operand, wsize] at hne hoff hy4 ⊢; omega⟩

theorem realloc_outcome (hg : Good s L) {p n : Nat} (hp : p = 0 ∨ p ∈ L.map Prod.fst)
    (hn : n < 2 ^ 31 - 64) : ∃ s' r, realloc s p n = .ok (s', r) ∧ Outcome s L (.realloc p n) s' r := by
  rcases Nat.eq_zero_or_pos n with rfl | hpos
  · obtain ⟨s', hrun, hout⟩ := free_outcome hg hp
    exact ⟨s', 0, by simp [realloc, hrun], hout.transfer (by simp [live_after]) rfl (fun h => absurd rfl h)
      fun _ => rfl⟩
  have hrel : release L 0 = L := by obtain ⟨bs, -, htr, -⟩ := hg; exact htr.release_zero (by decide)
  rcases hp with rfl | hp
  · obtain ⟨s', r, hrun, hout⟩ := malloc_outcome hg hn
    refine ⟨s', r, by simp [realloc, hpos.ne', hrun],
      hout.transfer ?_ rfl id fun _ => by simp [step_blocks, realloc_blocks, hpos.ne']⟩
    by_cases hr : r = 0 <;> simp [live_after, acquire, hr, hpos.ne', hrel]
  obtain ⟨bs, hinv, htr, hno⟩ := hg
  obtain ⟨x, hx, rfl⟩ := List.mem_map.1 hp
  obtain ⟨hoff, S, hS, -⟩ := htr.live x hx
  obtain ⟨s', q, hrun, hlistp, hlo, ⟨rfl, hmem, hbrk, hrb⟩ |
      ⟨A₁, bs', S', hinv', hS', hq, hadds, hdrops, hkeep, -, hno', hrb⟩⟩ := realloc_spec hinv hS hpos hn
  · exact ⟨s', 0, hrun, .unchanged ⟨bs, hinv, htr, hno⟩ hmem hlo hbrk hlistp (by simp [live_after, hpos.ne'])
      fun b hb => by cases hinv.unique hb; exact hrb⟩
  have hqp : q ≠ x.1 := fun h => hadds.2 _ (by rw [h]; exact hS)
  have hw : wsize = 4 := rfl
  have hd : dsize = 8 := rfl
  refine ⟨s', q, hrun, ⟨⟨bs', hinv', ?_, hno' hno⟩, hlo, hlistp, fun y hy hne => ?_,
    fun h0 => absurd h0 (by omega),
    fun b hb => by cases hinv.unique hb; simp only [step_blocks, hrb, and_true]; exact hinv'⟩⟩
  · rw [first_block_congr hlo, live_after, if_neg hpos.ne', if_neg (by omega)]
    exact htr.moves hadds hdrops hoff hq hqp (by omega)
  · have hy4 := (htr.live y hy).1
    exact htr.kept hkeep hy fun S' h => List.mem_filter.2 ⟨h, by
      simp only [payload_to_header, Call.operand, wsize, decide_eq_true_eq] at hne hy4 ⊢; omega⟩

theorem calloc_outcome (hg : Good s L) {nmemb size : Nat} (hnm : 0 < nmemb) (hc : calloc_ok nmemb size) :
    ∃ s' r, calloc s nmemb size = .ok (s', r) ∧ Outcome s L (.calloc nmemb size) s' r := by
  by_cases hov : 2 ^ 64 ≤ nmemb * size
  · exact ⟨s, 0, calloc_of_overflow hnm hov,
      .unchanged hg rfl rfl rfl rfl (by simp [live_after, acquire]) fun _ _ => if_pos hov⟩
  have hsmall : nmemb * size % 2 ^ 64 < 2 ^ 31 - 64 := by
    have := hc.resolve_left hov
    rw [Nat.mod_eq_of_lt (by omega)]
    exact this
  obtain ⟨bs, hinv, htr, hno⟩ := hg
  obtain ⟨s', q, hrun, hlistp, hlo, ⟨rfl, hmem, hbrk, hcb⟩ | ⟨bs', S, hinv', hS, hq, hadds, hkeep, -, hno', hcb⟩⟩ :=
    calloc_spec hinv hnm hsmall
  · exact ⟨s', 0, hrun, .unchanged ⟨bs, hinv, htr, hno⟩ hmem hlo hbrk hlistp (by simp [live_after, acquire])
      fun b hb => by cases hinv.unique hb; exact hcb⟩
  refine ⟨s', q, hrun, ⟨⟨bs', hinv', ?_, hno' hno⟩, hlo, hlistp, fun x hx _ => htr.kept hkeep hx fun _ h => h,
    fun h0 => absurd h0 (by simp only [wsize] at hq; omega),
    fun b hb => by cases hinv.unique hb; simp only [step_blocks, hcb, and_true]; exact hinv'⟩⟩
  rw [first_block_congr hlo, live_after, acquire, if_neg (by simp only [wsize] at hq; omega)]
  exact htr.adds hadds hq (by simp only [payload_to_header, dsize, wsize] at hS hq ⊢; omega)

/-- Every allowed call from a state satisfying the invariant returns, with the guarantees of
    `Outcome`, except `calloc(0, size)`, which divides by zero. -/
theorem step_spec (hg : Good s L) (hc : Allowed calloc_ok L c) :
    (∃ size, c = .calloc 0 size ∧ step s c = .error .div_zero) ∨
      ∃ s' r, step s c = .ok (s', r) ∧ Outcome s L c s' r := by
  cases c with
  | malloc n => exact .inr (malloc_outcome hg hc)
  | free p =>
    obtain ⟨s', hrun, hout⟩ := free_outcome hg hc
    exact .inr ⟨s', 0, by simp [step, hrun], hout⟩
  | realloc p n => exact .inr (realloc_outcome hg hc.1 hc.2)
  | calloc nmemb size =>
    rcases Nat.eq_zero_or_pos nmemb with rfl | hnm
    · exact .inl ⟨size, rfl, rfl⟩
    · exact .inr (calloc_outcome hg hnm hc)

end outcome

section runs

variable {s s' : State} {L : List (Nat × Nat)} {c : Call} {r : Nat}

/-- Every state a run reaches satisfies the run invariant. -/
theorem Reachable.good (h : Reachable s L) : Good s L := by
  induction h with
  | init h0 =>
    obtain ⟨s₀, hf, hinit⟩ := h0
    obtain ⟨bs, hinv, -, hallocs, hno, -⟩ := mm_init_spec hf hinit
    exact ⟨bs, hinv, by rw [hallocs]; exact ⟨List.nodup_nil, by simp, by simp⟩, hno⟩
  | step _ hc hstep ih =>
    rcases step_spec ih hc with ⟨_, rfl, herr⟩ | ⟨s', r, hrun, hout⟩
    · rw [herr] at hstep; cases hstep
    · rw [hrun] at hstep
      cases hstep
      exact hout.good

theorem Reachable.outcome (h : Reachable s L) (hc : Allowed calloc_ok L c) (hstep : step s c = .ok (s', r)) :
    Outcome s L c s' r := by
  rcases step_spec h.good hc with ⟨_, rfl, herr⟩ | ⟨s'', r', hrun, hout⟩
  · rw [herr] at hstep; cases hstep
  · rw [hrun] at hstep
    cases hstep
    exact hout

/-- The only way an allowed call from a reachable state fails is `calloc(0, size)`'s division
    by zero: no access leaves the region and no walk runs away. -/
theorem Reachable.fault (h : Reachable s L) (hc : Allowed calloc_ok L c) {e : Fault} (hstep : step s c = .error e) :
    e = .div_zero ∧ ∃ size, c = .calloc 0 size := by
  rcases step_spec h.good hc with ⟨size, rfl, herr⟩ | ⟨s', r, hrun, -⟩
  · rw [herr] at hstep
    cases hstep
    exact ⟨rfl, size, rfl⟩
  · rw [hrun] at hstep; cases hstep

/-- A call with a zero request answers `NULL`. -/
theorem step_ret_zero (hstep : step s c = .ok (s', r)) (h0 : c.request = 0) : r = 0 := by
  cases c with
  | malloc n =>
    cases (show n = 0 from h0)
    simp only [step, malloc, if_true, pure_eq_ok, Except.ok.injEq, Prod.mk.injEq] at hstep
    exact hstep.2.symm
  | free p =>
    obtain ⟨_, -, h⟩ := bind_eq_ok_iff.1 hstep
    simp only [pure_eq_ok, Except.ok.injEq, Prod.mk.injEq] at h
    exact h.2.symm
  | realloc p n =>
    cases (show n = 0 from h0)
    simp only [step, realloc, if_true] at hstep
    obtain ⟨_, -, h⟩ := bind_eq_ok_iff.1 hstep
    simp only [pure_eq_ok, Except.ok.injEq, Prod.mk.injEq] at h
    exact h.2.symm
  | calloc nmemb size =>
    rcases Nat.mul_eq_zero.1 h0 with rfl | rfl
    · cases hstep
    · by_cases hnm : nmemb = 0
      · subst hnm; cases hstep
      · simp [step, calloc, malloc, hnm] at hstep
        exact hstep.2.symm

/-- A call with a nonzero request that answers `NULL`, whatever its sizes, changes no byte of a
    well-formed heap, neither the top of the region nor `heap_listp`. -/
theorem step_null {bs : List Blk} (hinv : Inv s bs) (hstep : step s c = .ok (s', 0)) (hc : c.request ≠ 0) :
    s'.heap.mem = s.heap.mem ∧ s'.heap.brk = s.heap.brk ∧ s'.heap_listp = s.heap_listp := by
  cases c with
  | malloc n => exact malloc_null hinv hstep
  | free p => exact absurd rfl hc
  | realloc p n => exact realloc_null hinv hc hstep
  | calloc nmemb size => exact calloc_null hinv hstep

/-- Every live pointer lies as far above the start of the region, modulo 8, as the first
    payload: 16 bytes, for the padding word, the prologue and a header. -/
theorem Reachable.mod (h : Reachable s L) : ∀ x ∈ L, x.1 % 8 = s.heap.lo % 8 := fun x hx => by
  obtain ⟨bs, hinv, htr, -⟩ := h.good
  have := htr.mod hinv.sized x hx
  simp only [first_block, wsize, dsize] at this
  omega

/-- A pointer an allowed call returns, other than `NULL`, lies as far above the start of the
    region, modulo 8, as every live pointer. -/
theorem Reachable.ret_mod (h : Reachable s L) (hc : Allowed calloc_ok L c) (hstep : step s c = .ok (s', r))
    (hr : r ≠ 0) : r % 8 = s.heap.lo % 8 := by
  obtain ⟨n, hn⟩ := mem_live_after (L := L) hr fun h0 => hr (step_ret_zero hstep h0)
  have := Reachable.mod (Reach.step h hc hstep) _ hn
  rwa [(h.outcome hc hstep).lo] at this

theorem Reachable.apart (h : Reachable s L) : Apart s.heap L := by
  obtain ⟨bs, hinv, htr, -⟩ := h.good
  have := hinv.brk_eq
  exact htr.apart (by simp only [first_block]; omega) (by simp only [first_block]; omega)

/-- The heap of a reachable state as its walkers and `mm_checkheap` see it: the prologue at
    `heap_listp` and the real blocks after it, then the epilogue at the top of the region. -/
theorem Reachable.walks (h : Reachable s L) :
    ∃ bs, Walks s.heap s.heap_listp (prologue :: bs) ∧ Sized min_block_size bs ∧
      s.heap.brk - s.heap.lo = wsize + dsize + total bs + wsize ∧ mm_checkheap s = .ok true := by
  obtain ⟨bs, hinv, -, -⟩ := h.good
  have hbrk := hinv.brk_eq
  have hlo := hinv.lo_pos
  rw [hinv.listp]
  refine ⟨bs, hinv.chain.walks, hinv.sized, by omega, ?_⟩
  rw [mm_checkheap, hinv.listp]
  exact hinv.chain.checkheap (by simp only [wsize]; omega) (by simp only [total_cons, prologue, wsize, dsize] at hbrk ⊢; omega)

/-- `realloc` of a live pointer that returns a block: room for the request in the new block, and
    the first `min(n, old payload)` bytes of the old payload at the new pointer. -/
theorem realloc_copies (hg : Good s L) {x : Nat × Nat} (hx : x ∈ L) {n q : Nat} (hn : 0 < n)
    (hsmall : n < 2 ^ 31 - 64) (hrun : realloc s x.1 n = .ok (s', q)) (hq : q ≠ 0) :
    ∃ S S', get_size s.heap (payload_to_header x.1) = .ok S ∧
      get_size s'.heap (payload_to_header q) = .ok S' ∧ n + dsize ≤ S' ∧
      ∀ i < min n (S - dsize), s'.heap.mem (q + i) = s.heap.mem (x.1 + i) := by
  obtain ⟨bs, hinv, htr, -⟩ := hg
  obtain ⟨-, S, hS, -⟩ := htr.live x hx
  obtain ⟨s₁, q₁, hrun₁, -, hlo, ⟨rfl, -⟩ | ⟨A₁, bs', S', hinv', hS', -, hadds, hdrops, -, hcopy, -⟩⟩ :=
    realloc_spec hinv hS hn hsmall
  · rw [hrun] at hrun₁
    cases hrun₁
    exact absurd rfl hq
  rw [hrun] at hrun₁
  cases hrun₁
  have hne : payload_to_header q ≠ payload_to_header x.1 := fun h => hadds.2 _ (by rw [h]; exact hS)
  have hmem := (hdrops _).2 ⟨(hadds.1 _).2 (.inl rfl), hne⟩
  rw [← first_block_congr hlo] at hmem
  exact ⟨S, S', hinv.chain.get_size (mem_layout_real (mem_allocs.1 hS).1),
    hinv'.chain.get_size (mem_layout_real (mem_allocs.1 hmem).1), hS', hcopy⟩

end runs

end malloc_lab.implicit
