import MallocLab.Segregated.Init

namespace malloc_lab.segregated

/-- One call of the interface; `free` returns nothing, recorded as `NULL`. -/
def step (s : State) : Call → Except Fault (State × Nat)
  | .malloc n => malloc s n
  | .free p => do let s ← free s p; pure (s, 0)
  | .realloc p n => realloc s p n
  | .calloc nmemb size => calloc s nmemb size

/-- A heap that a successful `mm_init` made out of a fresh one. -/
def Initialized (s : State) : Prop := ∃ s₀, Fresh s₀ ∧ mm_init s₀ = .ok (s, 0)

/-- The arguments `calloc` may get: `calloc` does not check the product for overflow, so the
    product as `size_t` reaches `malloc` and is below `2 ^ 31 - 64`. -/
def calloc_ok (nmemb size : Nat) : Prop := nmemb * size % 2 ^ 64 < 2 ^ 31 - 64

/-- The states that runs from an initialised heap reach, with their live allocations. -/
def Reachable (s : State) (L : List (Nat × Nat)) : Prop := Reach Initialized calloc_ok step s L

/-- The run invariant: a well-formed heap with well-formed free lists whose allocated blocks are
    the live allocations. -/
def Good (s : State) (L : List (Nat × Nat)) : Prop :=
  ∃ bs ls, Inv s bs ls ∧ Tracks dsize (allocs (first_block s) bs) L

/-- What a call that returned guarantees: the invariant for the new live allocations, the start
    of the region, `heap_listp` and `seglist` kept, the bytes of every live allocation but the
    operand kept, and a `NULL` answer to a nonzero request that changes nothing. -/
structure Outcome (s : State) (L : List (Nat × Nat)) (c : Call) (s' : State) (r : Nat) : Prop where
  good : Good s' (live_after L c r)
  lo : s'.heap.lo = s.heap.lo
  listp : s'.heap_listp = s.heap_listp
  seglist : s'.seglist = s.seglist
  kept : ∀ x ∈ L, x.1 ≠ c.operand → ∀ i < x.2, s'.heap.mem (x.1 + i) = s.heap.mem (x.1 + i)
  atomic : r = 0 → c.request ≠ 0 →
    s'.heap.mem = s.heap.mem ∧ s'.heap.brk = s.heap.brk ∧ live_after L c r = L
  blocks : ∀ bs ls, Inv s bs ls → ∃ f ls', Fit (first_block s) (request_asize c) bs f ∧
    Inv s' (step_blocks (first_block s) (s.heap.grants 0) f bs c).1 ls' ∧
      r = (step_blocks (first_block s) (s.heap.grants 0) f bs c).2

section outcome

variable {s s' : State} {L : List (Nat × Nat)} {c c' : Call} {r : Nat}

theorem first_block_congr (hseg : s'.seglist = s.seglist) : first_block s' = first_block s := by
  simp only [first_block, hseg]

/-- A call that returned `NULL` and left memory, the region, `heap_listp` and `seglist` as they
    were. -/
theorem Outcome.unchanged (hg : Good s L) (hmem : s'.heap.mem = s.heap.mem) (hlo : s'.heap.lo = s.heap.lo)
    (hbrk : s'.heap.brk = s.heap.brk) (hseg : s'.seglist = s.seglist) (hlistp : s'.heap_listp = s.heap_listp)
    (hL : live_after L c 0 = L)
    (hblk : ∀ bs ls, Inv s bs ls → ∃ f, Fit (first_block s) (request_asize c) bs f ∧
      step_blocks (first_block s) (s.heap.grants 0) f bs c = (bs, 0)) : Outcome s L c s' 0 := by
  obtain ⟨bs, ls, hinv, htr⟩ := hg
  refine ⟨⟨bs, ls, hinv.congr hmem hlo hbrk hseg hlistp, ?_⟩, hlo, hlistp, hseg, fun x _ _ i _ => by rw [hmem],
    fun _ _ => ⟨hmem, hbrk, hL⟩, fun b l hb => ?_⟩
  · rw [hL, first_block_congr hseg]
    exact htr
  · obtain ⟨f, hf, he⟩ := hblk b l hb
    exact ⟨f, l, hf, by rw [he]; exact hb.congr hmem hlo hbrk hseg hlistp, by rw [he]⟩

theorem Outcome.transfer (h : Outcome s L c s' r) (hL : live_after L c' r = live_after L c r)
    (hop : c'.operand = c.operand) (hreq : c'.request ≠ 0 → c.request ≠ 0)
    (hasize : request_asize c' = request_asize c)
    (hblk : ∀ f bs, step_blocks (first_block s) (s.heap.grants 0) f bs c' =
      step_blocks (first_block s) (s.heap.grants 0) f bs c) : Outcome s L c' s' r :=
  ⟨hL ▸ h.good, h.lo, h.listp, h.seglist, hop ▸ h.kept, fun h0 hr => by rw [hL]; exact h.atomic h0 (hreq hr),
    fun bs ls hinv => by simpa only [hasize, hblk] using h.blocks bs ls hinv⟩

theorem malloc_outcome (hg : Good s L) {n : Nat} (hn : n < 2 ^ 31 - 64) :
    ∃ s' r, malloc s n = .ok (s', r) ∧ Outcome s L (.malloc n) s' r := by
  rcases Nat.eq_zero_or_pos n with rfl | hpos
  · exact ⟨s, 0, rfl, .unchanged hg rfl rfl rfl rfl rfl (by simp [live_after, acquire])
      fun bs _ _ => let ⟨f, hf⟩ := exists_fit first_block_pos _ bs; ⟨f, hf, rfl⟩⟩
  obtain ⟨bs, ls, hinv, htr⟩ := hg
  obtain ⟨s', q, hrun, hlistp, hseg, hlo, f, hf, ⟨rfl, hmem, hbrk, hmb⟩ |
      ⟨bs', ls', S, hinv', hS, -, hq, hadds, hkeep, hmb⟩⟩ := malloc_spec hinv hpos hn
  · exact ⟨s', 0, hrun, .unchanged ⟨bs, ls, hinv, htr⟩ hmem hlo hbrk hseg hlistp (by simp [live_after, acquire])
      fun b l hb => by cases hinv.unique hb; exact ⟨f, hf, hmb⟩⟩
  refine ⟨s', q, hrun, ⟨⟨bs', ls', hinv', ?_⟩, hlo, hlistp, hseg, fun x hx _ => htr.kept hkeep hx fun _ h => h,
    fun h0 => absurd h0 (by simp only [dsize, wsize] at hq; omega),
    fun b l hb => by cases hinv.unique hb; exact ⟨f, ls', hf, by rw [step_blocks, hmb]; exact hinv', by rw [step_blocks, hmb]⟩⟩⟩
  rw [first_block_congr hseg, live_after, acquire, if_neg (by simp only [dsize, wsize] at hq; omega)]
  exact htr.adds hadds hq (by simp only [payload_to_header, dsize, wsize, tsize] at hS hq ⊢; omega)

theorem free_outcome (hg : Good s L) {p : Nat} (hp : p = 0 ∨ p ∈ L.map Prod.fst) :
    ∃ s', free s p = .ok s' ∧ Outcome s L (.free p) s' 0 := by
  obtain ⟨bs, ls, hinv, htr⟩ := hg
  obtain ⟨f, hf⟩ := exists_fit (first_block_pos (s := s)) (request_asize (.free p)) bs
  rcases hp with rfl | hp
  · refine ⟨s, rfl, ⟨bs, ls, hinv, ?_⟩, rfl, rfl, rfl, fun _ _ _ _ _ => rfl, fun _ h => absurd rfl h,
      fun b l hb => ⟨f, l, by cases hinv.unique hb; exact hf, hb, rfl⟩⟩
    rw [live_after, htr.release_zero (by decide)]
    exact htr
  obtain ⟨x, hx, rfl⟩ := List.mem_map.1 hp
  obtain ⟨hoff, S, hS, -⟩ := htr.live x hx
  obtain ⟨m, bs', ls', hrun, hinv', hdrops, hkeep, hbs', -⟩ := free_spec hinv hS
  refine ⟨_, hrun, ⟨⟨bs', ls', hinv', htr.drops hdrops hoff⟩, rfl, rfl, rfl, fun y hy hne => ?_,
    fun _ h => absurd rfl h, fun b l hb => ?_⟩⟩
  · have hy8 := (htr.live y hy).1
    exact htr.kept hkeep hy fun S' h => (hdrops _).2 ⟨h, by
      simp only [payload_to_header, Call.operand, dsize, wsize] at hne hoff hy8 ⊢; omega⟩
  · cases hinv.unique hb
    exact ⟨f, ls', hf, by rw [step_blocks, ← hbs']; exact hinv', rfl⟩

theorem realloc_outcome (hg : Good s L) {p n : Nat} (hp : p = 0 ∨ p ∈ L.map Prod.fst)
    (hn : n < 2 ^ 31 - 64) : ∃ s' r, realloc s p n = .ok (s', r) ∧ Outcome s L (.realloc p n) s' r := by
  rcases Nat.eq_zero_or_pos n with rfl | hpos
  · obtain ⟨s', hrun, hout⟩ := free_outcome hg hp
    exact ⟨s', 0, by simp [realloc, hrun], hout.transfer (by simp [live_after]) rfl (fun h => absurd rfl h) rfl
      fun _ _ => rfl⟩
  have hrel : release L 0 = L := by obtain ⟨bs, ls, -, htr⟩ := hg; exact htr.release_zero (by decide)
  rcases hp with rfl | hp
  · obtain ⟨s', r, hrun, hout⟩ := malloc_outcome hg hn
    refine ⟨s', r, by simp [realloc, hpos.ne', hrun], hout.transfer ?_ rfl id rfl
      fun _ _ => by simp only [step_blocks, realloc_blocks, if_neg hpos.ne', if_true]⟩
    by_cases hr : r = 0 <;> simp [live_after, acquire, hr, hpos.ne', hrel]
  obtain ⟨bs, ls, hinv, htr⟩ := hg
  obtain ⟨x, hx, rfl⟩ := List.mem_map.1 hp
  obtain ⟨hoff, S, hS, -⟩ := htr.live x hx
  obtain ⟨s', q, hrun, hlistp, hseg, hlo, f, hf, ⟨rfl, hmem, hbrk, -, hrb⟩ |
      ⟨A₁, bs', ls', S', hinv', hS', -, hq, hmove, hkeep, hrb, -⟩⟩ := realloc_spec hinv hS hpos hn
  · exact ⟨s', 0, hrun, .unchanged ⟨bs, ls, hinv, htr⟩ hmem hlo hbrk hseg hlistp (by simp [live_after, hpos.ne'])
      fun b l hb => by cases hinv.unique hb; exact ⟨f, hf, hrb⟩⟩
  have hw : wsize = 4 := rfl
  have hd : dsize = 8 := rfl
  have ht : tsize = 12 := rfl
  refine ⟨s', q, hrun, ⟨⟨bs', ls', hinv', ?_⟩, hlo, hlistp, hseg, fun y hy hne => ?_,
    fun h0 => absurd h0 (by omega), fun b l hb => ?_⟩⟩
  · rw [first_block_congr hseg, live_after, if_neg hpos.ne', if_neg (by omega)]
    rcases hmove with ⟨hqp, -, hadds, hdrops⟩ | ⟨rfl, -, rfl, hadds⟩
    · exact htr.moves hadds hdrops hoff hq hqp (by simp only [payload_to_header] at *; omega)
    · refine (htr.drops (fun y => ?_) hoff).adds hadds hoff (by simp only [payload_to_header] at *; omega)
      simp [List.mem_filter, payload_to_header]
  · have hy8 := (htr.live y hy).1
    exact htr.kept hkeep hy fun S' h => List.mem_filter.2 ⟨h, by
      simp only [payload_to_header, Call.operand, decide_eq_true_eq] at hne hy8 ⊢; omega⟩
  · cases hinv.unique hb
    exact ⟨f, ls', hf, by rw [step_blocks, hrb]; exact hinv', by rw [step_blocks, hrb]⟩

theorem calloc_outcome (hg : Good s L) {nmemb size : Nat} (hsmall : nmemb * size % 2 ^ 64 < 2 ^ 31 - 64) :
    ∃ s' r, calloc s nmemb size = .ok (s', r) ∧ Outcome s L (.calloc nmemb size) s' r := by
  obtain ⟨bs, ls, hinv, htr⟩ := hg
  obtain ⟨s', q, hrun, hlistp, hseg, hlo, f, hf, ⟨rfl, hmem, hbrk, hcb⟩ |
      ⟨bs', ls', S, hinv', hS, hq, hadds, hkeep, hcb, -⟩⟩ := calloc_spec hinv hsmall
  · exact ⟨s', 0, hrun, .unchanged ⟨bs, ls, hinv, htr⟩ hmem hlo hbrk hseg hlistp (by simp [live_after, acquire])
      fun b l hb => by cases hinv.unique hb; exact ⟨f, hf, hcb⟩⟩
  refine ⟨s', q, hrun, ⟨⟨bs', ls', hinv', ?_⟩, hlo, hlistp, hseg, fun x hx _ => htr.kept hkeep hx fun _ h => h,
    fun h0 => absurd h0 (by simp only [dsize, wsize] at hq; omega),
    fun b l hb => by cases hinv.unique hb; exact ⟨f, ls', hf, by rw [step_blocks, hcb]; exact hinv', by rw [step_blocks, hcb]⟩⟩⟩
  rw [first_block_congr hseg, live_after, acquire, if_neg (by simp only [dsize, wsize] at hq; omega)]
  exact htr.adds hadds hq (by simp only [payload_to_header, dsize, wsize, tsize] at hS hq ⊢; omega)

/-- Every allowed call from a state satisfying the invariant returns, with the guarantees of
    `Outcome`. -/
theorem step_spec (hg : Good s L) (hc : Allowed calloc_ok L c) : ∃ s' r, step s c = .ok (s', r) ∧ Outcome s L c s' r := by
  cases c with
  | malloc n => exact malloc_outcome hg hc
  | free p =>
    obtain ⟨s', hrun, hout⟩ := free_outcome hg hc
    exact ⟨s', 0, by simp [step, hrun], hout⟩
  | realloc p n => exact realloc_outcome hg hc.1 hc.2
  | calloc nmemb size => exact calloc_outcome hg hc

end outcome

section runs

variable {s s' : State} {L : List (Nat × Nat)} {c : Call} {r : Nat}

/-- Every state a run reaches satisfies the run invariant. -/
theorem Reachable.good (h : Reachable s L) : Good s L := by
  induction h with
  | init h0 =>
    obtain ⟨s₀, hf, hinit⟩ := h0
    obtain ⟨bs, ls, hinv, -, hallocs⟩ := mm_init_spec hf hinit
    exact ⟨bs, ls, hinv, by rw [hallocs]; exact ⟨List.nodup_nil, by simp, by simp⟩⟩
  | step _ hc hstep ih =>
    obtain ⟨s', r, hrun, hout⟩ := step_spec ih hc
    rw [hrun] at hstep
    cases hstep
    exact hout.good

theorem Reachable.outcome (h : Reachable s L) (hc : Allowed calloc_ok L c) (hstep : step s c = .ok (s', r)) :
    Outcome s L c s' r := by
  obtain ⟨s'', r', hrun, hout⟩ := step_spec h.good hc
  rw [hrun] at hstep
  cases hstep
  exact hout

/-- No allowed call from a reachable state fails: no access leaves the region and no walk runs
    away. -/
theorem Reachable.no_fault (h : Reachable s L) (hc : Allowed calloc_ok L c) {e : Fault} : step s c ≠ .error e := by
  obtain ⟨s', r, hrun, -⟩ := step_spec h.good hc
  rw [hrun]
  exact fun h => by cases h

/-- A call with a zero request answers `NULL`. -/
theorem step_ret_zero (hstep : step s c = .ok (s', r)) (h0 : c.request = 0) : r = 0 := by
  cases c with
  | malloc n =>
    cases (show n = 0 from h0)
    simp only [step, malloc, if_true, pure_eq_ok, Except.ok.injEq, Prod.mk.injEq] at hstep
    exact hstep.2.symm
  | free p =>
    obtain ⟨_, -, h⟩ := bind_eq_ok_iff.1 hstep
    simp only [pure_eq_ok, Except.ok.injEq, Prod.mk.injEq] at h
    exact h.2.symm
  | realloc p n =>
    cases (show n = 0 from h0)
    simp only [step, realloc, if_true] at hstep
    obtain ⟨_, -, h⟩ := bind_eq_ok_iff.1 hstep
    simp only [pure_eq_ok, Except.ok.injEq, Prod.mk.injEq] at h
    exact h.2.symm
  | calloc nmemb size =>
    simp only [Call.request] at h0
    simp [step, calloc, malloc, h0] at hstep
    exact hstep.2.symm

/-- A call with a nonzero request that answers `NULL`, whatever its sizes, changes no byte of a
    well-formed heap, neither the top of the region nor `heap_listp` nor `seglist`. -/
theorem step_null {bs : List Blk} {ls : Nat → List Nat} (hinv : Inv s bs ls) (hstep : step s c = .ok (s', 0))
    (hc : c.request ≠ 0) :
    s'.heap.mem = s.heap.mem ∧ s'.heap.brk = s.heap.brk ∧ s'.heap_listp = s.heap_listp ∧
      s'.seglist = s.seglist := by
  cases c with
  | malloc n => exact malloc_null hinv hstep
  | free p => exact absurd rfl hc
  | realloc p n => exact realloc_null hinv hc hstep
  | calloc nmemb size => exact calloc_null hinv hstep

/-- Every live pointer lies as far above the start of the region, modulo 8, as the first
    payload: 552 bytes, for the head records, the prologue and a header with its padding. -/
theorem Reachable.mod (h : Reachable s L) : ∀ x ∈ L, x.1 % 8 = s.heap.lo % 8 := fun x hx => by
  obtain ⟨bs, ls, hinv, htr⟩ := h.good
  have := htr.mod hinv.sized x hx
  simp only [first_block, hinv.seglist, total_sentinels, dsize, wsize] at this
  omega

/-- A pointer an allowed call returns, other than `NULL`, lies as far above the start of the
    region, modulo 8, as every live pointer. -/
theorem Reachable.ret_mod (h : Reachable s L) (hc : Allowed calloc_ok L c) (hstep : step s c = .ok (s', r))
    (hr : r ≠ 0) : r % 8 = s.heap.lo % 8 := by
  obtain ⟨n, hn⟩ := mem_live_after (L := L) hr fun h0 => hr (step_ret_zero hstep h0)
  have := Reachable.mod (Reach.step h hc hstep) _ hn
  rwa [(h.outcome hc hstep).lo] at this

theorem Reachable.apart (h : Reachable s L) : Apart s.heap L := by
  obtain ⟨bs, ls, hinv, htr⟩ := h.good
  have := hinv.brk_eq
  exact htr.apart (by simp only [first_block, hinv.seglist]; omega)
    (by simp only [first_block, hinv.seglist]; omega)

/-- The heap of a reachable state as its walkers and `mm_checkheap` see it: the head records,
    the prologue at `heap_listp` and the real blocks after it, then the epilogue at the top of
    the region. -/
theorem Reachable.walks (h : Reachable s L) :
    ∃ bs, Walks s.heap s.seglist (sentinels ++ bs) ∧ Sized min_block_size (sentinels ++ bs) ∧
      s.seglist = s.heap.lo ∧ s.heap_listp = s.seglist + size_class_cnt * block_size ∧
      s.heap.brk - s.heap.lo = size_class_cnt * block_size + prologue_size + total bs + epilogue_size ∧
      mm_checkheap s = .ok true := by
  obtain ⟨bs, ls, hinv, -⟩ := h.good
  have hbrk := hinv.brk_eq
  have hlo := hinv.lo_pos
  have hlistp : s.heap_listp = s.seglist + size_class_cnt * block_size := by rw [hinv.listp, hinv.seglist]
  refine ⟨bs, hinv.chain.walks, sized_sentinels hinv.sized, hinv.seglist, hlistp, by
    simp only [total_sentinels, size_class_cnt, block_size, prologue_size, min_block_size, ptr_size, wsize,
      epilogue_size, dsize] at hbrk ⊢; omega, ?_⟩
  have hc : Chain s.heap (s.seglist + total (List.replicate size_class_cnt (⟨block_size, true⟩ : Blk)))
      (⟨block_size, true⟩ :: bs) := Chain.drop _ hinv.chain
  have htot : total (List.replicate size_class_cnt (⟨block_size, true⟩ : Blk)) = size_class_cnt * block_size := rfl
  rw [htot, ← hlistp] at hc
  rw [mm_checkheap]
  exact hc.checkheap (by rw [hlistp, hinv.seglist]; omega) (by
    simp only [total_sentinels, epilogue_size, dsize, wsize] at hbrk
    simp only [hlistp, hinv.seglist, total_cons, size_class_cnt, block_size]
    omega)

/-- `realloc` of a live pointer that returns a block: room for the request in the new block, and
    the first `min(n, old payload)` bytes of the old payload at the new pointer. -/
theorem realloc_copies (hg : Good s L) {x : Nat × Nat} (hx : x ∈ L) {n q : Nat} (hn : 0 < n)
    (hsmall : n < 2 ^ 31 - 64) (hrun : realloc s x.1 n = .ok (s', q)) (hq : q ≠ 0) :
    ∃ S S', get_size s.heap (payload_to_header x.1) = .ok S ∧
      get_size s'.heap (payload_to_header q) = .ok S' ∧ n + tsize ≤ S' ∧
      ∀ i < min n (S - tsize), s'.heap.mem (q + i) = s.heap.mem (x.1 + i) := by
  obtain ⟨bs, ls, hinv, htr⟩ := hg
  obtain ⟨-, S, hS, -⟩ := htr.live x hx
  obtain ⟨s₁, q₁, hrun₁, -, hseg, -, -, -, ⟨rfl, -⟩ | ⟨A₁, bs', ls', S', hinv', hS', -, -, hmove, -, -, hcopy⟩⟩ :=
    realloc_spec hinv hS hn hsmall
  · rw [hrun] at hrun₁
    cases hrun₁
    exact absurd rfl hq
  rw [hrun] at hrun₁
  cases hrun₁
  have hmem : (payload_to_header q, ⟨S', true⟩) ∈ allocs (first_block s) bs' := by
    rcases hmove with ⟨-, -, hadds, hdrops⟩ | ⟨rfl, -, -, hadds⟩
    · have hne : payload_to_header q ≠ payload_to_header x.1 := fun h => hadds.2 _ (by rw [h]; exact hS)
      exact (hdrops _).2 ⟨(hadds.1 _).2 (.inl rfl), hne⟩
    · exact (hadds.1 _).2 (.inl rfl)
  rw [← first_block_congr hseg] at hmem
  have hlay : ∀ {t : State} {l : List Blk} {y : Nat × Blk}, y ∈ allocs (first_block t) l →
      y ∈ layout t.seglist (sentinels ++ l) := fun hy => by
    rw [layout_append]; exact List.mem_append_right _ (mem_allocs.1 hy).1
  exact ⟨S, S', Chain.get_size hinv.chain (hlay hS), Chain.get_size hinv'.chain (hlay hmem), hS', hcopy⟩

end runs

end malloc_lab.segregated
