import MallocLab.Implicit.Blocks

namespace malloc_lab.implicit

/-- The implicit heap with the real blocks `bs`: the padding word, the prologue, `bs` and the
    epilogue header fill the region exactly, below the backing region's cap. -/
structure Inv (s : State) (bs : List Blk) : Prop where
  lo_pos : 0 < s.heap.lo
  listp : s.heap_listp = s.heap.lo + wsize
  chain : Chain s.heap (s.heap.lo + wsize) (prologue :: bs)
  brk_eq : s.heap.brk = s.heap.lo + wsize + dsize + total bs + wsize
  sized : Sized min_block_size bs
  cap : s.heap.brk ≤ s.heap.lo + MAX_HEAP

/-- The address of the first real block. -/
def first_block (s : State) : Nat := s.heap.lo + wsize + dsize

variable {s : State} {bs : List Blk}

/-- The invariant reads only the memory, the region bounds and `heap_listp`. -/
theorem Inv.congr {s' : State} (hinv : Inv s bs) (hmem : s'.heap.mem = s.heap.mem)
    (hlo : s'.heap.lo = s.heap.lo) (hbrk : s'.heap.brk = s.heap.brk)
    (hlistp : s'.heap_listp = s.heap_listp) : Inv s' bs := by
  obtain ⟨⟨mem, lo, brk, g⟩, listp⟩ := s'
  obtain ⟨⟨mem₀, lo₀, brk₀, g₀⟩, listp₀⟩ := s
  simp only at hmem hlo hbrk hlistp
  subst hmem hlo hbrk hlistp
  exact ⟨hinv.lo_pos, hinv.listp, hinv.chain.grow le_rfl g, hinv.brk_eq, hinv.sized, hinv.cap⟩

/-- The memory fixes the real blocks: a heap has one block list. -/
theorem Inv.unique {bs' : List Blk} (hinv : Inv s bs) (hinv' : Inv s bs') : bs = bs' :=
  (List.cons.inj (hinv.chain.headers.unique hinv'.chain.headers)).2

theorem total_prologue_cons : total (prologue :: bs) = dsize + total bs := rfl

theorem mem_layout_real {q : Nat} {b : Blk} (h : (q, b) ∈ layout (first_block s) bs) :
    (q, b) ∈ layout (s.heap.lo + wsize) (prologue :: bs) :=
  List.mem_cons_of_mem _ h

/-- `extend_heap` of at least a chunk either fails, changing nothing but the provider's answers,
    or leaves a well-formed heap whose new free block (merged with a free last block) holds at
    least the rounded request, with every allocated block kept. -/
theorem extend_heap_spec (hinv : Inv s bs) {n : Nat} (hn : chunksize ≤ n) (hn' : n + 7 < 2 ^ 64) :
    ∃ s' r, extend_heap s n = .ok (s', r) ∧ s'.heap_listp = s.heap_listp ∧ s'.heap.lo = s.heap.lo ∧
      ((r = 0 ∧ s'.heap.mem = s.heap.mem ∧ s'.heap.brk = s.heap.brk ∧
          ¬(s.heap.grants 0 = true ∧ s.heap.brk + round_up n dsize ≤ s.heap.lo + MAX_HEAP)) ∨
       ∃ bs' S, Inv s' bs' ∧ (r, ⟨S, false⟩) ∈ layout (first_block s) bs' ∧ round_up n dsize ≤ S ∧
         allocs (first_block s) bs' = allocs (first_block s) bs ∧
         Keeps s.heap.mem s'.heap.mem (allocs (first_block s) bs) ∧ (NoAdjFree bs → NoAdjFree bs') ∧
         (s.heap.grants 0 = true ∧ s.heap.brk + round_up n dsize ≤ s.heap.lo + MAX_HEAP) ∧
         bs' = extend_blocks (first_block s) (round_up n dsize) bs ∧
         r = first_block s + total bs - free_bytes (bs.getLastD prologue)) := by
  have hsize : round_up n dsize = (n + 7) / 8 * 8 := round_up_dsize hn'
  have hd : dsize = 8 := rfl
  have hw : wsize = 4 := rfl
  have hmax : MAX_HEAP = 2 ^ 31 - 1 := rfl
  have hpro : total (prologue :: bs) = 8 + total bs := rfl
  have hpro8 : prologue.size = 8 := rfl
  have hchunk : chunksize = 4096 := rfl
  have hbrk := hinv.brk_eq
  have hcap := hinv.cap
  by_cases hgrant : s.heap.grants 0 = true ∧ s.heap.brk + round_up n dsize ≤ s.heap.lo + MAX_HEAP
  · have hg := hgrant.2
    set size := round_up n dsize
    set e := s.heap.lo + wsize + total (prologue :: bs) with he_def
    have he : s.heap.brk - wsize = e := by omega
    have h88 : size % 8 = 0 := by omega
    have hlt : size < 2 ^ 32 := by omega
    set h₁ : Heap := { s.heap with grants := fun i => s.heap.grants (i + 1), brk := s.heap.brk + size }
    have hc₁ : Chain h₁ (s.heap.lo + wsize) (prologue :: bs) := hinv.chain.grow (by simp [h₁]) _
    set M₂ := (h₁.mem.store e 4 (pack size false)).store (e + size - 4) 4 (pack size false)
    have hc₃ : Chain { h₁ with mem := M₂.store (e + size) 4 (pack 0 true) } (s.heap.lo + wsize)
        (prologue :: bs ++ [⟨size, false⟩]) :=
      hc₁.extend (by omega) h88 (by have := hinv.chain.small; omega) (by simp [h₁]; omega)
    have hn : find_next { h₁ with mem := M₂ } e = .ok (e + size) := by
      simp only [malloc_lab.find_next, get_size_eq (h := { h₁ with mem := M₂ }) (p := e) (by simp [h₁]; omega)
        (by simp [h₁]; omega), ok_bind, M₂]
      rw [Mem.load_store_of_disjoint (by omega), Mem.load_store_self,
        Nat.mod_eq_of_lt (show pack size false < 256 ^ 4 from pack_lt _ _), extract_size_pack h88 hlt]
      rfl
    have hsz : Sized min_block_size (bs ++ [⟨size, false⟩]) :=
      Sized.append.2 ⟨hinv.sized, by simp [Sized, min_block_size, hd, h88]; omega⟩
    obtain ⟨m, r, S, bs', hrun, hbs', hr, hchain, hsized, htot, hallocs, hno, hmem, hS, hframe⟩ :=
      coalesce_real hc₃ hsz
    rw [show s.heap.lo + wsize + dsize + total bs = e by omega] at hrun
    refine ⟨⟨{ h₁ with mem := m }, s.heap_listp⟩, r, ?_, rfl, rfl,
      .inr ⟨bs', S, ?_, hmem, hS, ?_, ?_, ?_, hgrant, hbs', hr⟩⟩
    · simp only [extend_heap, Heap.mem_sbrk, if_pos hgrant, payload_to_header, he]
      rw [write_header_eq (by simp [h₁]; omega) (by simp [h₁]; omega), ok_bind,
        write_footer_of_header (by simp [h₁]; omega) (by simp [h₁]; omega) (by omega) h88 hlt, ok_bind, hn,
        ok_bind, write_header_eq (by simp [h₁]; omega) (by simp [h₁]; omega), ok_bind, hrun]
      rfl
    · simp only [total_append, total_cons, total_nil, Nat.add_zero] at htot
      exact ⟨hinv.lo_pos, hinv.listp, hchain, by simp [h₁]; omega, hsized, by simp [h₁]; omega⟩
    · simp only [first_block, hallocs, allocs_append, allocs_cons_free, allocs_nil, List.append_nil]
    · have hkeep : Keeps s.heap.mem (M₂.store (e + size) 4 (pack 0 true)) (allocs (first_block s) bs) :=
        keeps_allocs_of_above fun x hx => by
          simp only [first_block, M₂, h₁] at hx ⊢
          rw [Mem.store_apply_of_not_mem (by omega), Mem.store_apply_of_not_mem (by omega),
            Mem.store_apply_of_not_mem (by omega)]
      refine hkeep.trans ?_
      have := keeps_allocs_of_frame hmem (fun b hb => by have := (hsized b hb).1; simp [min_block_size, hd] at this; omega) hframe
      rw [hallocs, allocs_append, allocs_cons_free, allocs_nil, List.append_nil] at this
      exact this
    · exact fun h => hno (h.append_alloc size)
  · refine ⟨{ s with heap := { s.heap with grants := fun i => s.heap.grants (i + 1) } }, 0, ?_, rfl, rfl,
      .inl ⟨rfl, rfl, rfl, hgrant⟩⟩
    simp only [extend_heap, Heap.mem_sbrk, if_neg hgrant]
    rfl

/-- `place` in a free block of the heap allocates a block of at least `asize` bytes there and
    keeps every other allocated block. -/
theorem place_inv (hinv : Inv s bs) {r c asize : Nat} (hr : (r, ⟨c, false⟩) ∈ layout (first_block s) bs)
    (hle : asize ≤ c) (h16 : min_block_size ≤ asize) (h88 : asize % 8 = 0) :
    ∃ m bs' S, place s.heap r asize = .ok { s.heap with mem := m } ∧
      Inv { s with heap := { s.heap with mem := m } } bs' ∧ asize ≤ S ∧ S < asize + min_block_size ∧
      Adds (allocs (first_block s) bs) (allocs (first_block s) bs') (r, ⟨S, true⟩) ∧
      Keeps s.heap.mem m (allocs (first_block s) bs) ∧ (NoAdjFree bs → NoAdjFree bs') ∧
      bs' = carve_at min_block_size r asize (first_block s) bs := by
  have hpos : ∀ b ∈ bs, 0 < b.size := fun b hb => by
    have := (hinv.sized b hb).1; simp only [min_block_size, dsize, wsize] at this; omega
  obtain ⟨l₁, l₂, rfl, rfl⟩ := mem_layout_iff.1 hr
  have hc : Chain s.heap (s.heap.lo + wsize) ((prologue :: l₁) ++ ⟨c, false⟩ :: l₂) := hinv.chain
  obtain ⟨m, hrun, hchain, hframe⟩ :=
    place_spec hc (p := first_block s + total l₁) (by simp [first_block, prologue, Nat.add_assoc]) hle h16 h88
  have hsz := hinv.sized
  rw [Sized.append, Sized.cons] at hsz
  have hmb : min_block_size = 16 := rfl
  refine ⟨m, l₁ ++ carve min_block_size c asize ++ l₂,
    if c - asize ≥ min_block_size then asize else c, hrun,
    ⟨hinv.lo_pos, hinv.listp, by simpa only [List.cons_append] using hchain, ?_, ?_, hinv.cap⟩,
    by split <;> omega, by split <;> omega, ?_, keeps_allocs_of_frame hr hpos hframe, fun h => noAdjFree_carve h,
    (carve_at_append (b := ⟨c, false⟩) fun d hd => hpos d (List.mem_append_left _ hd)).symm⟩
  · simpa [total_carve hle] using hinv.brk_eq
  · rw [Sized.append, Sized.append]
    exact ⟨⟨hsz.1, sized_carve h16 h88 hsz.2.1.2 (le_trans h16 hle)⟩, hsz.2.2⟩
  · refine ⟨fun y => ?_, not_mem_allocs_of_free hpos hr⟩
    simp only [allocs_append, allocs_carve, allocs_cons_free, total_append, total_carve hle,
      List.append_assoc, List.singleton_append, List.mem_append, List.mem_cons]
    tauto

/-- `find_fit` returns the first fit among the real blocks, or `NULL`. -/
theorem find_fit_spec (hinv : Inv s bs) (asize : Nat) :
    find_fit s asize = .ok ((first_fit asize (first_block s) bs).getD 0) := by
  have hc := hinv.chain
  have hlen := length_le_total hc.sized (by norm_num)
  have hend := hc.end_le
  rw [find_fit, hinv.listp, find_fit_loop_spec hc (by omega)]
  rfl

theorem malloc_asize {n : Nat} (hn : n < 2 ^ 31 - 64) :
    (round_up n dsize + dsize) % 2 ^ 64 = (n + 7) / 8 * 8 + 8 := by
  rw [round_up_dsize (by omega)]
  simp only [dsize, wsize]
  omega

/-- `malloc` of a request below `2 ^ 31 - 64` either fails, changing neither memory nor the
    region, or returns the payload of a new allocated block with room for the request, keeping
    every block that was allocated; either way the blocks become those `malloc_blocks` gives. -/
theorem malloc_spec (hinv : Inv s bs) {n : Nat} (hn : 0 < n) (hsmall : n < 2 ^ 31 - 64) :
    ∃ s' p, malloc s n = .ok (s', p) ∧ s'.heap_listp = s.heap_listp ∧ s'.heap.lo = s.heap.lo ∧
      ((p = 0 ∧ s'.heap.mem = s.heap.mem ∧ s'.heap.brk = s.heap.brk ∧
          malloc_blocks (first_block s) n (s.heap.grants 0) bs = (bs, 0)) ∨
       ∃ bs' S, Inv s' bs' ∧ n + dsize ≤ S ∧ S < adjusted n + min_block_size ∧ wsize ≤ p ∧
         Adds (allocs (first_block s) bs) (allocs (first_block s) bs') (payload_to_header p, ⟨S, true⟩) ∧
         Keeps s.heap.mem s'.heap.mem (allocs (first_block s) bs) ∧ (NoAdjFree bs → NoAdjFree bs') ∧
         malloc_blocks (first_block s) n (s.heap.grants 0) bs = (bs', p)) := by
  have hlistp : s.heap_listp ≠ 0 := by rw [hinv.listp]; have := hinv.lo_pos; omega
  have h16 : min_block_size ≤ (n + 7) / 8 * 8 + 8 := by simp only [min_block_size, dsize, wsize]; omega
  have h88 : ((n + 7) / 8 * 8 + 8) % 8 = 0 := by omega
  have hreq : n + dsize ≤ (n + 7) / 8 * 8 + 8 := by simp only [dsize, wsize]; omega
  have hadj : adjusted n = (n + 7) / 8 * 8 + 8 := rfl
  have hpos : ∀ {r c : Nat} {bs : List Blk}, (r, ⟨c, false⟩) ∈ layout (first_block s) bs → r ≠ 0 :=
    fun hr => by have := (mem_layout hr).2.1; have := hinv.lo_pos; simp only [first_block] at *; omega
  have hunfold : malloc s n = (do
      let (s, block) ← if (first_fit ((n + 7) / 8 * 8 + 8) (first_block s) bs).getD 0 = 0 then
          extend_heap s (malloc_lab.max ((n + 7) / 8 * 8 + 8) chunksize)
        else pure (s, (first_fit ((n + 7) / 8 * 8 + 8) (first_block s) bs).getD 0)
      if block = 0 then pure (s, 0) else do
      let h ← place s.heap block ((n + 7) / 8 * 8 + 8)
      pure ({ s with heap := h }, header_to_payload block)) := by
    simp only [malloc, if_neg hn.ne', if_neg hlistp, pure_bind, malloc_asize hsmall, find_fit_spec hinv,
      ok_bind]
  rw [hunfold]
  rcases hfit : first_fit ((n + 7) / 8 * 8 + 8) (first_block s) bs with _ | r
  · set ext := malloc_lab.max ((n + 7) / 8 * 8 + 8) chunksize
    have hmax : chunksize ≤ ext := by unfold ext malloc_lab.max; split <;> omega
    have hfits : (n + 7) / 8 * 8 + 8 ≤ ext := by unfold ext malloc_lab.max; split <;> omega
    have hext : round_up ext dsize = ext := by
      rw [round_up_dsize (by unfold ext malloc_lab.max chunksize; split <;> omega)]
      unfold ext malloc_lab.max chunksize; split <;> omega
    -- the provider's answer and the cap, over the region and over the blocks
    have hcap : (s.heap.grants 0 = true ∧ s.heap.brk + round_up ext dsize ≤ s.heap.lo + MAX_HEAP) ↔
        (s.heap.grants 0 = true ∧ wsize + dsize + total bs + wsize + ext ≤ MAX_HEAP) :=
      and_congr_right fun _ => by rw [hext, hinv.brk_eq]; omega
    have habs : malloc_blocks (first_block s) n (s.heap.grants 0) bs =
        if s.heap.grants 0 = true ∧ wsize + dsize + total bs + wsize + ext ≤ MAX_HEAP then
          (carve_at min_block_size (first_block s + total bs - free_bytes (bs.getLastD prologue))
            ((n + 7) / 8 * 8 + 8) (first_block s) (extend_blocks (first_block s) ext bs),
           header_to_payload (first_block s + total bs - free_bytes (bs.getLastD prologue)))
        else (bs, 0) := by
      simp only [malloc_blocks, if_neg hn.ne', hadj, hfit]
    obtain ⟨s₁, r₁, hext₁, hlistp₁, hlo₁, ⟨rfl, hmem₁, hbrk₁, hrefused⟩ |
        ⟨bs₁, S₁, hinv₁, hmem₁, hS₁, hallocs₁, hkeep₁, hno₁, hgrant, hbs₁, hr₁⟩⟩ :=
      extend_heap_spec hinv hmax (by unfold ext malloc_lab.max chunksize; split <;> omega)
    · refine ⟨s₁, 0, by simp [hext₁], hlistp₁, hlo₁, .inl ⟨rfl, hmem₁, hbrk₁, ?_⟩⟩
      rw [habs, if_neg (hcap.not.1 hrefused)]
    · have hr₀ := hpos hmem₁
      have hfb : first_block s₁ = first_block s := by simp only [first_block, hlo₁]
      rw [← hfb] at hmem₁
      obtain ⟨m, bs', S, hplace, hinv', hS, hSlt, hadds, hkeep, hno, hbs'⟩ :=
        place_inv hinv₁ hmem₁ (by rw [hext] at hS₁; omega) h16 h88
      rw [hfb] at hadds hkeep hbs'
      rw [hallocs₁] at hadds hkeep
      refine ⟨{ s₁ with heap := { s₁.heap with mem := m } }, header_to_payload r₁,
        by simp [hext₁, hr₀, hplace], hlistp₁, hlo₁,
        .inr ⟨bs', S, hinv', by omega, hSlt, by simp [header_to_payload], by simpa using hadds,
          hkeep₁.trans hkeep, fun h => hno (hno₁ h), ?_⟩⟩
      rw [habs, if_pos (hcap.1 hgrant), hbs', hbs₁, hr₁, hext]
  · obtain ⟨l₁, c, l₂, hbs, hr, hle, -⟩ := first_fit_eq_some hfit
    have hmem : (r, ⟨c, false⟩) ∈ layout (first_block s) bs := by rw [hbs]; exact mem_layout_of_eq _ _ hr
    obtain ⟨m, bs', S, hplace, hinv', hS, hSlt, hadds, hkeep, hno, hbs'⟩ := place_inv hinv hmem hle h16 h88
    refine ⟨{ s with heap := { s.heap with mem := m } }, header_to_payload r,
      by simp [hpos hmem, hplace], rfl, rfl,
      .inr ⟨bs', S, hinv', by omega, hSlt, by simp [header_to_payload], by simpa using hadds, hkeep, hno, ?_⟩⟩
    simp only [malloc_blocks, if_neg hn.ne', hadj, hfit, hbs']

theorem Inv.size_pos (hinv : Inv s bs) : ∀ b ∈ bs, 0 < b.size :=
  hinv.sized.pos (by decide)

/-- `free` of the payload of an allocated block frees it and merges it with its free neighbours;
    every other allocated block is kept. -/
theorem free_spec (hinv : Inv s bs) {p S : Nat}
    (hp : (payload_to_header p, ⟨S, true⟩) ∈ allocs (first_block s) bs) :
    ∃ m bs', free s p = .ok { s with heap := { s.heap with mem := m } } ∧
      Inv { s with heap := { s.heap with mem := m } } bs' ∧
      Drops (allocs (first_block s) bs) (allocs (first_block s) bs') (payload_to_header p) ∧
      Keeps s.heap.mem m (allocs (first_block s) bs') ∧ (NoAdjFree bs → NoAdjFree bs') ∧
      bs' = free_blocks (first_block s) p bs := by
  have hpos := hinv.size_pos
  obtain ⟨l₁, l₂, rfl, hblk⟩ := mem_layout_iff.1 (mem_allocs.1 hp).1
  have hlo := hinv.lo_pos
  have hp0 : p ≠ 0 := by
    rintro rfl
    simp only [payload_to_header, first_block, Nat.zero_sub] at hblk
    omega
  have hat : payload_to_header p = s.heap.lo + wsize + total (prologue :: l₁) := by
    rw [hblk]; simp [first_block, prologue, Nat.add_assoc]
  have hc : Chain s.heap (s.heap.lo + wsize) ((prologue :: l₁) ++ [⟨S, true⟩] ++ l₂) := by
    simpa using hinv.chain
  obtain ⟨hlo', hhi, h8, h88, hlt⟩ := hinv.chain.size_facts (b := ⟨S, true⟩)
    (mem_layout_of_eq (prologue :: l₁) _ hat)
  dsimp only at hhi h8 h88 hlt
  have hc₂ := hc.retag false (S := S) (by simp) h8 h88
  rw [← hat] at hc₂
  have hsz : Sized min_block_size (l₁ ++ ⟨S, false⟩ :: l₂) := by
    have := hinv.sized
    simp only [Sized.append, Sized.cons] at this ⊢
    exact this
  obtain ⟨m, r, S', bs', hrun, hbs', -, hchain, hsized, htot, hallocs, hno, hmem, -, hframe⟩ :=
    coalesce_real (by simpa using hc₂) hsz
  rw [show s.heap.lo + wsize + dsize + total l₁ = payload_to_header p by rw [hblk]; rfl] at hrun
  have hdrops : Drops (allocs (first_block s) (l₁ ++ ⟨S, true⟩ :: l₂)) (allocs (first_block s) bs')
      (payload_to_header p) := fun ⟨q, b⟩ => by
    rw [show allocs (first_block s) bs' = _ from hallocs, hblk]
    exact mem_allocs_free hpos
  have hbrk := hinv.brk_eq
  simp only [total_append, total_cons] at hbrk htot
  have hpos₁ : ∀ d ∈ l₁, 0 < d.size := fun d hd => hpos d (List.mem_append_left _ hd)
  refine ⟨m, bs', ?_, ⟨hlo, hinv.listp, hchain, by dsimp only; omega, hsized, hinv.cap⟩,
    hdrops, ?_, hno, ?_⟩
  · simp only [free, if_neg hp0, hinv.chain.get_size (mem_layout_of_eq (prologue :: l₁) _ hat),
      ok_bind]
    rw [write_header_eq hlo' (by omega), ok_bind, write_footer_of_header hlo' (by omega) h8 h88 hlt,
      ok_bind, hrun]
    rfl
  · have hkeep₁ : Keeps s.heap.mem ((s.heap.mem.store (payload_to_header p) 4 (pack S false)).store
        (payload_to_header p + S - 4) 4 (pack S false)) (allocs (first_block s) bs') := by
      rw [show allocs (first_block s) bs' = _ from hallocs]
      exact keeps_allocs_of_frame (mem_layout_of_eq _ _ hblk) (hsz.pos (by decide))
        fun x hx => store_store_outside hx (by omega)
    exact hkeep₁.trans (keeps_allocs_of_frame hmem (hsized.pos (by decide)) hframe)
  · rw [hbs', free_blocks, if_neg hp0, hblk, free_at_append hpos₁, free_at_append hpos₁]

/-- An allocated block's header reads its size, a multiple of 8 of at least a minimum block. -/
theorem Inv.alloc_size (hinv : Inv s bs) {q : Nat} {b : Blk} (hq : (q, b) ∈ allocs (first_block s) bs) :
    get_size s.heap q = .ok b.size ∧ b.size % 8 = 0 ∧ min_block_size ≤ b.size := by
  have hl := mem_layout_real (mem_allocs.1 hq).1
  exact ⟨hinv.chain.get_size hl, (hinv.chain.size_facts hl).2.2.2.1,
    (hinv.sized b (mem_layout (mem_allocs.1 hq).1).1).1⟩

/-- Memory changed only inside the payload of an allocated block keeps the invariant and every
    other allocated block. -/
theorem Inv.payload_write (hinv : Inv s bs) {q S : Nat} (hq : (q, ⟨S, true⟩) ∈ allocs (first_block s) bs)
    {m : Mem} (hm : ∀ x, x < q + wsize ∨ q + S - wsize ≤ x → m x = s.heap.mem x) :
    Inv { s with heap := { s.heap with mem := m } } bs ∧
      Keeps s.heap.mem m ((allocs (first_block s) bs).filter fun y => y.1 ≠ q) := by
  have hl := (mem_allocs.1 hq).1
  refine ⟨⟨hinv.lo_pos, hinv.listp, hinv.chain.payload_write (mem_layout_real hl) hm, hinv.brk_eq,
    hinv.sized, hinv.cap⟩, fun y b hy x h1 h2 => ?_⟩
  obtain ⟨hy, hne⟩ := List.mem_filter.1 hy
  have hd := layout_disjoint (mem_allocs.1 hy).1 hl (by simpa using hne)
  exact hm x (by dsimp only at hd; simp only [wsize]; omega)

/-- `realloc` of a live pointer to a new size: the malloc-copy-free path. It either fails,
    changing neither memory nor the region, or returns a new block with room for the request
    holding the first `min(n, old payload)` bytes of the old one, which it frees; every other
    allocated block is kept. -/
theorem realloc_spec (hinv : Inv s bs) {p S n : Nat}
    (hp : (payload_to_header p, ⟨S, true⟩) ∈ allocs (first_block s) bs) (hn : 0 < n)
    (hsmall : n < 2 ^ 31 - 64) :
    ∃ s' q, realloc s p n = .ok (s', q) ∧ s'.heap_listp = s.heap_listp ∧ s'.heap.lo = s.heap.lo ∧
      ((q = 0 ∧ s'.heap.mem = s.heap.mem ∧ s'.heap.brk = s.heap.brk ∧
          realloc_blocks (first_block s) p n (s.heap.grants 0) bs = (bs, 0)) ∨
       ∃ A₁ bs' S', Inv s' bs' ∧ n + dsize ≤ S' ∧ wsize ≤ q ∧
         Adds (allocs (first_block s) bs) A₁ (payload_to_header q, ⟨S', true⟩) ∧
         Drops A₁ (allocs (first_block s) bs') (payload_to_header p) ∧
         Keeps s.heap.mem s'.heap.mem
           ((allocs (first_block s) bs).filter fun y => y.1 ≠ payload_to_header p) ∧
         (∀ i < min n (S - dsize), s'.heap.mem (q + i) = s.heap.mem (p + i)) ∧
         (NoAdjFree bs → NoAdjFree bs') ∧ realloc_blocks (first_block s) p n (s.heap.grants 0) bs = (bs', q)) := by
  have hl := (mem_allocs.1 hp).1
  obtain ⟨hlo, hhi, h8, -, hlt⟩ := hinv.chain.size_facts (mem_layout_real hl)
  dsimp only at hhi h8 hlt
  have hS16 := (hinv.sized _ (mem_layout hl).1).1
  have hfirst := (mem_layout hl).2.1
  have hlo0 := hinv.lo_pos
  have hd : dsize = 8 := rfl
  have hw : wsize = 4 := rfl
  have hpp : payload_to_header p = p - 4 := rfl
  simp only [min_block_size, first_block, hd, hw] at hS16 hfirst
  have hp0 : p ≠ 0 := by omega
  obtain ⟨s₁, q, hmalloc, hlistp₁, hlo₁, ⟨rfl, hmem₁, hbrk₁, hmb⟩ |
      ⟨bs₁, S₁, hinv₁, hS₁, -, hq4, hadds, hkeep₁, hno₁, hmb⟩⟩ := malloc_spec hinv hn hsmall
  · exact ⟨s₁, 0, by simp [realloc, hn.ne', hp0, hmalloc], hlistp₁, hlo₁,
      .inl ⟨rfl, hmem₁, hbrk₁, by simp [realloc_blocks, hn.ne', hp0, hmb]⟩⟩
  have hqq : payload_to_header q = q - 4 := rfl
  have hfb : first_block s₁ = first_block s := by simp only [first_block, hlo₁]
  have hp₁ : (payload_to_header p, ⟨S, true⟩) ∈ allocs (first_block s₁) bs₁ := hfb ▸ (hadds.1 _).2 (.inr hp)
  have hq₁ : (payload_to_header q, ⟨S₁, true⟩) ∈ allocs (first_block s₁) bs₁ := hfb ▸ (hadds.1 _).2 (.inl rfl)
  have hne : payload_to_header q ≠ payload_to_header p := fun h => hadds.2 _ (h ▸ hp)
  obtain ⟨hqlo, hqhi, -⟩ := hinv₁.chain.size_facts (mem_layout_real (mem_allocs.1 hq₁).1)
  obtain ⟨-, hphi, -⟩ := hinv₁.chain.size_facts (mem_layout_real (mem_allocs.1 hp₁).1)
  dsimp only at hqhi hphi
  set cs := if n < S - dsize then n else S - dsize with hcs
  have hcs_le : cs ≤ n ∧ cs ≤ S - dsize := by rw [hcs]; split <;> omega
  have hcopy : s₁.heap.memcpy q p cs = _ := Heap.memcpy_of_mem (by omega) (by omega) (by omega) (by omega)
  obtain ⟨hinv₂, hkeep₂⟩ := hinv₁.payload_write hq₁ (m := s₁.heap.mem.copy q p cs)
    (fun x hx => Mem.copy_apply_of_not_mem (by omega))
  obtain ⟨m', bs', hfree, hinv', hdrops, hkeep', hno', hbs'⟩ := free_spec hinv₂ hp₁
  replace hdrops : Drops (allocs (first_block s₁) bs₁) (allocs (first_block s₁) bs') (payload_to_header p) :=
    hdrops
  replace hkeep' : Keeps (s₁.heap.mem.copy q p cs) m' (allocs (first_block s₁) bs') := hkeep'
  refine ⟨{ s₁ with heap := { s₁.heap with mem := m' } }, q, ?_, hlistp₁, hlo₁,
    .inr ⟨allocs (first_block s) bs₁, bs', S₁, hinv', by omega, by omega, hadds, hfb ▸ hdrops, ?_,
      fun i hi => ?_, fun h => hno' (hno₁ h), ?_⟩⟩
  · simp only [realloc, if_neg hn.ne', if_neg hp0, hmalloc, ok_bind, if_neg (show q ≠ 0 by omega),
      get_payload_size, hinv₁.chain.get_size (mem_layout_real (mem_allocs.1 hp₁).1),
      size_sub_of_le (show dsize ≤ S by omega) (by omega), pure_eq_ok]
    rw [hcopy, ok_bind, hfree]
    rfl
  · have hfresh : ∀ y ∈ allocs (first_block s) bs, y.1 ≠ payload_to_header q :=
      fun y hy h => hadds.2 y.2 (h ▸ hy)
    refine (hkeep₁.mono fun y hy => (List.mem_filter.1 hy).1).trans ((hkeep₂.mono fun y hy => ?_).trans
      (hkeep'.mono fun y hy => ?_))
    · obtain ⟨hy, -⟩ := List.mem_filter.1 hy
      exact List.mem_filter.2 ⟨hfb ▸ (hadds.1 y).2 (.inr hy), by simpa using hfresh y hy⟩
    · obtain ⟨hy, hyp⟩ := List.mem_filter.1 hy
      exact (hdrops y).2 ⟨hfb ▸ (hadds.1 y).2 (.inr hy), by simpa using hyp⟩
  · have hi' : i < cs := by rw [hcs]; split <;> omega
    have hq' := (hdrops _).2 ⟨hq₁, hne⟩
    have h1 := hkeep' _ _ hq' (q + i) (by omega) (by dsimp only; omega)
    have h2 := hkeep₁ _ _ hp (p + i) (by omega) (by dsimp only; omega)
    show m' (q + i) = s.heap.mem (p + i)
    rw [h1, ← h2]
    simp only [Mem.copy, if_pos (show q ≤ q + i ∧ q + i < q + cs from ⟨by omega, by omega⟩),
      Nat.add_sub_cancel_left]
  · simp only [realloc_blocks, if_neg hn.ne', if_neg hp0, hmb, if_neg (show q ≠ 0 by omega), hbs']
    rw [← hfb]
    rfl

/-- The overflow test of `calloc` is exact: dividing the product as a `size_t` back by `nmemb`
    misses `size` exactly when the product is at least `2 ^ 64`. -/
theorem calloc_check_iff {nmemb size : Nat} (hnm : 0 < nmemb) :
    nmemb * size % 2 ^ 64 / nmemb ≠ size ↔ 2 ^ 64 ≤ nmemb * size := by
  constructor
  · intro hne
    by_contra hlt
    rw [Nat.mod_eq_of_lt (by omega), Nat.mul_div_cancel_left _ hnm] at hne
    exact hne rfl
  · intro hov heq
    have hle := Nat.div_mul_le_self (nmemb * size % 2 ^ 64) nmemb
    rw [heq, Nat.mul_comm size nmemb] at hle
    have := Nat.mod_lt (nmemb * size) (show 0 < 2 ^ 64 by norm_num)
    omega

/-- `calloc` of `nmemb > 0` elements whose product (as `size_t`) is below `2 ^ 31 - 64` either
    returns `NULL`, changing neither memory nor the region, or returns a new block with room for
    the product whose first product bytes are zero; every allocated block is kept. -/
theorem calloc_spec (hinv : Inv s bs) {nmemb size : Nat} (hnm : 0 < nmemb)
    (hsmall : nmemb * size % 2 ^ 64 < 2 ^ 31 - 64) :
    ∃ s' q, calloc s nmemb size = .ok (s', q) ∧ s'.heap_listp = s.heap_listp ∧ s'.heap.lo = s.heap.lo ∧
      ((q = 0 ∧ s'.heap.mem = s.heap.mem ∧ s'.heap.brk = s.heap.brk ∧
          calloc_blocks (first_block s) nmemb size (s.heap.grants 0) bs = (bs, 0)) ∨
       ∃ bs' S, Inv s' bs' ∧ nmemb * size % 2 ^ 64 + dsize ≤ S ∧ wsize ≤ q ∧
         Adds (allocs (first_block s) bs) (allocs (first_block s) bs') (payload_to_header q, ⟨S, true⟩) ∧
         Keeps s.heap.mem s'.heap.mem (allocs (first_block s) bs) ∧
         (∀ i < nmemb * size % 2 ^ 64, s'.heap.mem (q + i) = 0) ∧ (NoAdjFree bs → NoAdjFree bs') ∧
         calloc_blocks (first_block s) nmemb size (s.heap.grants 0) bs = (bs', q)) := by
  have hd : dsize = 8 := rfl
  have hw : wsize = 4 := rfl
  by_cases hov : nmemb * size % 2 ^ 64 / nmemb ≠ size
  · exact ⟨s, 0, by simp only [calloc, if_neg hnm.ne', if_pos hov]; rfl, rfl, rfl,
      .inl ⟨rfl, rfl, rfl, by rw [calloc_blocks, if_pos ((calloc_check_iff hnm).1 hov)]⟩⟩
  have hnov : ¬ 2 ^ 64 ≤ nmemb * size := mt (calloc_check_iff hnm).2 hov
  have hprod : nmemb * size % 2 ^ 64 = nmemb * size := Nat.mod_eq_of_lt (by omega)
  have habs : calloc_blocks (first_block s) nmemb size (s.heap.grants 0) bs =
      malloc_blocks (first_block s) (nmemb * size % 2 ^ 64) (s.heap.grants 0) bs := by
    rw [calloc_blocks, if_neg hnov, hprod]
  rcases Nat.eq_zero_or_pos (nmemb * size % 2 ^ 64) with h0 | hpos
  · refine ⟨s, 0, ?_, rfl, rfl, .inl ⟨rfl, rfl, rfl, by rw [habs, h0]; rfl⟩⟩
    simp only [calloc, if_neg hnm.ne', if_neg hov, h0, malloc, if_true, pure_eq_ok, ok_bind, ite_self]
  obtain ⟨s₁, q, hmalloc, hlistp₁, hlo₁, ⟨rfl, hmem₁, hbrk₁, hmb⟩ |
      ⟨bs₁, S₁, hinv₁, hS₁, -, hq4, hadds, hkeep₁, hno₁, hmb⟩⟩ := malloc_spec hinv hpos hsmall
  · refine ⟨s₁, 0, ?_, hlistp₁, hlo₁, .inl ⟨rfl, hmem₁, hbrk₁, habs.trans hmb⟩⟩
    simp only [calloc, if_neg hnm.ne', if_neg hov, hmalloc, ok_bind, if_true]
    rfl
  have hfb : first_block s₁ = first_block s := by simp only [first_block, hlo₁]
  have hq₁ : (payload_to_header q, ⟨S₁, true⟩) ∈ allocs (first_block s₁) bs₁ := hfb ▸ (hadds.1 _).2 (.inl rfl)
  have hqq : payload_to_header q = q - 4 := rfl
  obtain ⟨hqlo, hqhi, -⟩ := hinv₁.chain.size_facts (mem_layout_real (mem_allocs.1 hq₁).1)
  dsimp only at hqhi
  have hset := Heap.memset_of_mem (h := s₁.heap) (p := q) (n := nmemb * size % 2 ^ 64) (c := 0)
    (by omega) (by omega)
  obtain ⟨hinv₂, hkeep₂⟩ := hinv₁.payload_write hq₁ (m := s₁.heap.mem.fill q (nmemb * size % 2 ^ 64) 0)
    (fun x hx => Mem.fill_apply_of_not_mem (by omega))
  refine ⟨{ s₁ with heap := { s₁.heap with mem := s₁.heap.mem.fill q (nmemb * size % 2 ^ 64) 0 } }, q,
    ?_, hlistp₁, hlo₁, .inr ⟨bs₁, S₁, hinv₂, hS₁, hq4, hfb ▸ hadds, ?_, fun i hi => ?_, hno₁, habs.trans hmb⟩⟩
  · simp only [calloc, if_neg hnm.ne', if_neg hov, hmalloc, ok_bind, if_neg (show q ≠ 0 by omega), hset]
    rfl
  · refine hkeep₁.trans (hkeep₂.mono fun y hy => List.mem_filter.2 ⟨hfb ▸ (hadds.1 y).2 (.inr hy), ?_⟩)
    have : y.1 ≠ payload_to_header q := fun h => hadds.2 y.2 (by rw [← h]; exact hy)
    simpa using this
  · simp only [Mem.fill, if_pos (show q ≤ q + i ∧ q + i < q + nmemb * size % 2 ^ 64 from ⟨by omega, by omega⟩)]

/-- The overflow test of `calloc` is exact: a product of at least `2 ^ 64` bytes never divides
    back to `size`, so `calloc` answers `NULL` and keeps the state. -/
theorem calloc_of_overflow {nmemb size : Nat} (hnm : 0 < nmemb) (hov : 2 ^ 64 ≤ nmemb * size) :
    calloc s nmemb size = .ok (s, 0) := by
  simp only [calloc, if_neg hnm.ne', if_pos ((calloc_check_iff hnm).2 hov)]
  rfl

/-- `malloc` answers `NULL`, for a request of any size, only when no block fits and the provider
    refuses to grow the region: the heap is as it was. -/
theorem malloc_null (hinv : Inv s bs) {n : Nat} {s' : State} (h : malloc s n = .ok (s', 0)) :
    s'.heap.mem = s.heap.mem ∧ s'.heap.brk = s.heap.brk ∧ s'.heap_listp = s.heap_listp := by
  by_cases hn : n = 0
  · simp only [malloc, if_pos hn, pure_eq_ok, Except.ok.injEq, Prod.mk.injEq] at h
    rw [← h.1]
    exact ⟨rfl, rfl, rfl⟩
  have hlistp : s.heap_listp ≠ 0 := by rw [hinv.listp]; have := hinv.lo_pos; omega
  have hasize : (round_up n dsize + dsize) % 2 ^ 64 + 7 < 2 ^ 64 := by unfold round_up dsize wsize; omega
  simp only [malloc, if_neg hn, if_neg hlistp, pure_bind, find_fit_spec hinv, ok_bind] at h
  split at h
  · obtain ⟨s₁, r, hext, hl₁, -, hcase⟩ := extend_heap_spec hinv (n := malloc_lab.max ((round_up n dsize + dsize) % 2 ^ 64) chunksize)
      (by unfold malloc_lab.max; split <;> omega) (by unfold malloc_lab.max chunksize; split <;> omega)
    rw [hext, ok_bind] at h
    rcases hcase with ⟨rfl, hmem, hbrk, -⟩ | ⟨bs', S, -, hr, -⟩
    · simp only [if_true, pure_eq_ok, Except.ok.injEq, Prod.mk.injEq] at h
      rw [← h.1]
      exact ⟨hmem, hbrk, hl₁⟩
    · have hr0 : r ≠ 0 := by
        have h₁ := (mem_layout hr).2.1
        have h₂ := hinv.lo_pos
        simp only [first_block] at h₁
        omega
      simp only [if_neg hr0] at h
      obtain ⟨_, -, he⟩ := bind_eq_ok_iff.1 h
      simp [header_to_payload, wsize] at he
  · obtain ⟨_, -, he⟩ := bind_eq_ok_iff.1 h
    simp [header_to_payload, wsize] at he

/-- `realloc` to a nonzero size answers `NULL` only when its `malloc` did: the heap is as it was. -/
theorem realloc_null (hinv : Inv s bs) {p n : Nat} {s' : State} (hn : n ≠ 0) (h : realloc s p n = .ok (s', 0)) :
    s'.heap.mem = s.heap.mem ∧ s'.heap.brk = s.heap.brk ∧ s'.heap_listp = s.heap_listp := by
  simp only [realloc, if_neg hn] at h
  split at h
  · exact malloc_null hinv h
  obtain ⟨⟨s₁, q⟩, hm, h⟩ := bind_eq_ok_iff.1 h
  split at h
  · simp only [pure_eq_ok, Except.ok.injEq, Prod.mk.injEq] at h
    rw [← h.1]
    exact malloc_null hinv (by rwa [← ‹q = 0›])
  · simp only [bind_eq_ok_iff, pure_eq_ok, Except.ok.injEq, Prod.mk.injEq] at h
    obtain ⟨_, -, _, -, _, -, -, hq⟩ := h
    contradiction

/-- `calloc` answers `NULL` only after an overflow test that fails, or when its `malloc` did: the
    heap is as it was. -/
theorem calloc_null (hinv : Inv s bs) {nmemb size : Nat} {s' : State} (h : calloc s nmemb size = .ok (s', 0)) :
    s'.heap.mem = s.heap.mem ∧ s'.heap.brk = s.heap.brk ∧ s'.heap_listp = s.heap_listp := by
  simp only [calloc] at h
  split at h
  · cases h
  split at h
  · simp only [pure_eq_ok, Except.ok.injEq, Prod.mk.injEq] at h
    rw [← h.1]
    exact ⟨rfl, rfl, rfl⟩
  obtain ⟨⟨s₁, q⟩, hm, h⟩ := bind_eq_ok_iff.1 h
  split at h
  · simp only [pure_eq_ok, Except.ok.injEq, Prod.mk.injEq] at h
    rw [← h.1]
    exact malloc_null hinv (by rwa [← ‹q = 0›])
  · simp only [bind_eq_ok_iff, pure_eq_ok, Except.ok.injEq, Prod.mk.injEq] at h
    obtain ⟨_, -, -, hq⟩ := h
    contradiction

/-- A heap not yet initialised: `heap_listp` is `NULL` and the region is still empty. -/
structure Fresh (s : State) : Prop where
  lo_pos : 0 < s.heap.lo
  brk_eq : s.heap.brk = s.heap.lo
  listp : s.heap_listp = 0

/-- A successful `mm_init` leaves a well-formed heap with no allocated block, one chunk of
    free bytes. -/
theorem mm_init_spec {s₀ : State} (h0 : Fresh s₀) (hinit : mm_init s₀ = .ok (s, 0)) :
    ∃ bs, Inv s bs ∧ s.heap.lo = s₀.heap.lo ∧ allocs (first_block s) bs = [] ∧ NoAdjFree bs ∧
      total bs = chunksize := by
  have hlo := h0.lo_pos
  have hbrk := h0.brk_eq
  by_cases hg : s₀.heap.grants 0 = true ∧ s₀.heap.brk + 4 * wsize ≤ s₀.heap.lo + MAX_HEAP
  swap
  · simp only [mm_init, Heap.mem_sbrk, if_neg hg, pure_eq_ok, Except.ok.injEq, Prod.mk.injEq] at hinit
    exact absurd hinit.2 (by decide)
  have hmax : MAX_HEAP = 2 ^ 31 - 1 := rfl
  have hw : wsize = 4 := rfl
  set b := s₀.heap.brk
  set s₁ : State := ⟨{ s₀.heap with
    mem := (((s₀.heap.mem.store (b + 4) 4 (pack 8 true)).store (b + 8) 4 (pack 8 true)).store (b + 12) 4
      (pack 0 true)),
    brk := b + 16, grants := fun i => s₀.heap.grants (i + 1) }, b + 4⟩
  have hrun : mm_init s₀ =
      (do let (s, block) ← extend_heap s₁ chunksize; pure (s, if block = 0 then (-1 : Int) else 0)) := by
    simp only [mm_init, Heap.mem_sbrk, if_pos hg]
    rw [Heap.write_of_mem (by simp; omega) (by simp; omega), ok_bind,
      Heap.write_of_mem (by simp; omega) (by simp; omega), ok_bind,
      Heap.write_of_mem (by simp; omega) (by simp; omega), ok_bind]
    rfl
  have hlt : pack 8 true < 256 ^ 4 := pack_lt _ _
  have hlt₀ : pack 0 true < 256 ^ 4 := pack_lt _ _
  have hs₁ : s₁.heap.lo = s₀.heap.lo ∧ s₁.heap.brk = b + 16 ∧ s₁.heap_listp = b + 4 := ⟨rfl, rfl, rfl⟩
  have hpro : prologue.size = 8 := rfl
  have htag : Tagged s₁.heap.mem (s₁.heap.lo + wsize) prologue := ⟨?_, ?_⟩
  rotate_left
  · rw [Mem.load_store_of_disjoint (by omega), Mem.load_store_of_disjoint (by omega),
      Mem.load_store_of_eq (by omega), Nat.mod_eq_of_lt hlt]
    rfl
  · rw [Mem.load_store_of_disjoint (by omega), Mem.load_store_of_eq (by omega), Nat.mod_eq_of_lt hlt]
    rfl
  have hinv₁ : Inv s₁ [] := by
    refine ⟨hlo, by omega, ⟨tiles_cons.2 ⟨htag, by simp⟩, ?_, by omega, ?_, ?_, by decide⟩, ?_, by simp [Sized], ?_⟩
    · rw [Mem.load_store_of_eq (by simp only [total_cons, total_nil]; omega), Nat.mod_eq_of_lt hlt₀]
    · simp only [total_cons, total_nil]; omega
    · simp [Sized, prologue, dsize, wsize]
    · simp only [total_nil, dsize]; omega
    · omega
  obtain ⟨s₂, r, hext, -, hlo₂, ⟨rfl, -⟩ | ⟨bs', S, hinv₂, -, -, hallocs, -, hno, -, hbs, -⟩⟩ :=
    extend_heap_spec hinv₁ le_rfl (by decide)
  · rw [hrun, hext] at hinit
    simp only [ok_bind, if_true, pure_eq_ok, Except.ok.injEq, Prod.mk.injEq] at hinit
    exact absurd hinit.2 (by decide)
  · rw [hrun, hext] at hinit
    simp only [ok_bind, pure_eq_ok, Except.ok.injEq, Prod.mk.injEq] at hinit
    obtain ⟨rfl, -⟩ := hinit
    exact ⟨bs', hinv₂, hlo₂, by simpa [first_block, hlo₂] using hallocs, hno List.chain'_nil,
      by rw [hbs, total_extend_blocks]; rfl⟩

end malloc_lab.implicit
