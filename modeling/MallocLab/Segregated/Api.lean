import MallocLab.Segregated.Ops
import MallocLab.Segregated.Fit

namespace malloc_lab.segregated

/-- The segregated heap with the real blocks `bs` and the free lists `ls`: the head records, the
    prologue, `bs` and the epilogue fill the region exactly, below the backing region's cap, and
    the lists file the free blocks. The region lies in the 64-bit address space. -/
structure Inv (s : State) (bs : List Blk) (ls : Nat → List Nat) : Prop where
  lo_pos : 0 < s.heap.lo
  fit : s.heap.lo + MAX_HEAP < 2 ^ 64
  seglist : s.seglist = s.heap.lo
  listp : s.heap_listp = s.heap.lo + size_class_cnt * block_size
  chain : Chain s.heap s.seglist (sentinels ++ bs)
  brk_eq : s.heap.brk = s.heap.lo + total sentinels + total bs + epilogue_size
  sized : Sized min_block_size bs
  cap : s.heap.brk ≤ s.heap.lo + MAX_HEAP
  lists : Lists s.heap.mem s.seglist ls
  filed : Filed s.seglist (sentinels ++ bs) ls

/-- The address of the first real block. -/
def first_block (s : State) : Nat := s.seglist + total sentinels

theorem first_block_pos {s : State} : 0 < first_block s := by
  simp only [first_block, total_sentinels]; omega

variable {s : State} {bs : List Blk} {ls : Nat → List Nat}

/-- The invariant reads only the memory, the region bounds, `seglist` and `heap_listp`. -/
theorem Inv.congr {s' : State} (hinv : Inv s bs ls) (hmem : s'.heap.mem = s.heap.mem)
    (hlo : s'.heap.lo = s.heap.lo) (hbrk : s'.heap.brk = s.heap.brk) (hseg : s'.seglist = s.seglist)
    (hlistp : s'.heap_listp = s.heap_listp) : Inv s' bs ls := by
  obtain ⟨⟨mem, lo, brk, g⟩, listp, seg⟩ := s'
  obtain ⟨⟨mem₀, lo₀, brk₀, g₀⟩, listp₀, seg₀⟩ := s
  simp only at hmem hlo hbrk hseg hlistp
  subst hmem hlo hbrk hseg hlistp
  exact ⟨hinv.lo_pos, hinv.fit, hinv.seglist, hinv.listp, hinv.chain.grow le_rfl g, hinv.brk_eq, hinv.sized,
    hinv.cap, hinv.lists, hinv.filed⟩

/-- A heap has one list of real blocks. -/
theorem Inv.unique {bs' : List Blk} {ls' : Nat → List Nat} (hinv : Inv s bs ls) (hinv' : Inv s bs' ls') :
    bs = bs' :=
  List.append_cancel_left (hinv.chain.headers.unique hinv'.chain.headers)

theorem Inv.sizes (hinv : Inv s bs ls) : ∀ c ∈ sentinels ++ bs, 32 ≤ c.size := fun c hc =>
  (sized_sentinels hinv.sized c hc).1

theorem Inv.size_pos (hinv : Inv s bs ls) : ∀ b ∈ bs, 0 < b.size :=
  hinv.sized.pos (by decide)

theorem Inv.brk_lt (hinv : Inv s bs ls) : s.heap.brk < 2 ^ 64 := by
  have := hinv.cap; have := hinv.fit; omega

theorem Inv.end_eq (hinv : Inv s bs ls) : s.seglist + total (sentinels ++ bs) + epilogue_size = s.heap.brk := by
  rw [total_append, hinv.brk_eq, hinv.seglist]
  omega

/-- A node of the lists is a head record or a free block: it lies below the epilogue. -/
theorem Inv.node (hinv : Inv s bs ls) {x : Nat} (hx : Node s.seglist ls x) :
    s.heap.lo ≤ x ∧ x + block_size ≤ s.seglist + total (sentinels ++ bs) := by
  obtain ⟨c, hc, -⟩ := hinv.filed.block heads_sentinels hx
  have := mem_layout hc
  have := hinv.sizes c this.1
  have := hinv.chain.lo_le
  simp only [block_size]
  omega

theorem Inv.geo (hinv : Inv s bs ls) : ∀ x, Node s.seglist ls x → s.heap.lo ≤ x ∧ x + 32 ≤ s.heap.brk :=
  fun _ hx => by
    have h₁ := hinv.node hx
    have h₂ := hinv.end_eq
    simp only [block_size] at h₁
    omega

/-- `extend_heap` of at least a chunk either fails, changing nothing but the provider's answers,
    or leaves a well-formed heap whose new free block (merged with a free last block) holds at
    least the rounded request, with every allocated block kept. -/
theorem extend_heap_spec (hinv : Inv s bs ls) {n : Nat} (hn : chunksize ≤ n) (hn' : n + 7 < 2 ^ 64) :
    ∃ s' r, extend_heap s n = .ok (s', r) ∧ s'.heap_listp = s.heap_listp ∧ s'.seglist = s.seglist ∧
      s'.heap.lo = s.heap.lo ∧
      ((r = 0 ∧ s'.heap.mem = s.heap.mem ∧ s'.heap.brk = s.heap.brk ∧
          ¬(s.heap.grants 0 = true ∧ s.heap.brk + round_up n dsize ≤ s.heap.lo + MAX_HEAP)) ∨
       ∃ bs' ls' S, Inv s' bs' ls' ∧ (r, ⟨S, false⟩) ∈ layout (first_block s) bs' ∧ round_up n dsize ≤ S ∧
         allocs (first_block s) bs' = allocs (first_block s) bs ∧
         Keeps s.heap.mem s'.heap.mem (allocs (first_block s) bs) ∧
         (s.heap.grants 0 = true ∧ s.heap.brk + round_up n dsize ≤ s.heap.lo + MAX_HEAP) ∧
         bs' = extend_blocks (first_block s) (round_up n dsize) bs ∧
         r = first_block s + total bs - free_bytes (bs.getLastD prologue)) := by
  have hsize : round_up n dsize = (n + 7) / 8 * 8 := round_up_dsize hn'
  have hmax : MAX_HEAP = 2 ^ 31 - 1 := rfl
  have hchunk : chunksize = 4096 := rfl
  have hend := hinv.end_eq
  have hcap := hinv.cap
  have hfit := hinv.fit
  have hseg := hinv.seglist
  have hlo := hinv.chain.lo_le
  have hepi : epilogue_size = 8 := rfl
  by_cases hgrant : s.heap.grants 0 = true ∧ s.heap.brk + round_up n dsize ≤ s.heap.lo + MAX_HEAP
  · have hg := hgrant.2
    set size := round_up n dsize
    set e := s.seglist + total (sentinels ++ bs)
    have he : s.heap.brk - epilogue_size = e := by simp only [epilogue_size, dsize, wsize] at hend ⊢; omega
    have h88 : size % 8 = 0 := by omega
    have hlt : size < 2 ^ 32 := by omega
    set h₁ : Heap := { s.heap with grants := fun i => s.heap.grants (i + 1), brk := s.heap.brk + size }
    have hc₁ : Chain h₁ s.seglist (sentinels ++ bs) := hinv.chain.grow (by simp [h₁]) _
    set M₂ := (h₁.mem.store e 4 (pack size false)).store (e + size - 4) 4 (pack size false)
    have hc₃ : Chain { h₁ with mem := M₂.store (e + size) 4 (pack 0 true) } s.seglist
        (sentinels ++ bs ++ ⟨size, false⟩ :: []) :=
      hc₁.extend (by omega) h88 (by have := hinv.chain.small; omega)
        (by simp only [epilogue_size, dsize, wsize, h₁] at hend ⊢; omega)
    have hn : find_next { h₁ with mem := M₂ } e = .ok (e + size) := by
      simp only [malloc_lab.find_next, get_size_eq (h := { h₁ with mem := M₂ }) (p := e)
        (by simp [h₁]; have := hinv.chain.lo_le; omega) (by simp [h₁]; omega), ok_bind, M₂]
      rw [Mem.load_store_of_disjoint (by omega), Mem.load_store_self,
        Nat.mod_eq_of_lt (show pack size false < 256 ^ 4 from pack_lt _ _), extract_size_pack h88 hlt]
      rfl
    have hl₃ : Lists (M₂.store (e + size) 4 (pack 0 true)) s.seglist ls := by
      have hbelow : ∀ x, Node s.seglist ls x → x + 24 ≤ e := fun x hx => by
        have := hinv.node hx; simp only [block_size] at this; omega
      exact ((hinv.lists.store_away fun x hx => .inr (hbelow x hx)).store_away
        fun x hx => .inr (by have := hbelow x hx; omega)).store_away fun x hx => .inr (by have := hbelow x hx; omega)
    have hf₃ : Filed s.seglist (sentinels ++ bs ++ ⟨size, true⟩ :: []) ls :=
      hinv.filed.congr fun x S => by simp [layout_append]
    obtain ⟨m, ls', r, S, bs', hrun, hchain, hsized, htot, hallocs, hl', hf', hr, hS, hsc, hbs', hr'⟩ :=
      coalesce_real (s := { s with heap := { h₁ with mem := M₂.store (e + size) 4 (pack 0 true) } })
        hc₃ (Sized.append.2 ⟨hinv.sized, by simp [Sized, min_block_size, ptr_size, wsize]; omega⟩) hl₃ hf₃
        (by simp [h₁]; omega)
    refine ⟨{ s with heap := { h₁ with mem := m } }, r, ?_, rfl, rfl, rfl, .inr ⟨bs', ls', S, ⟨hinv.lo_pos, hfit, hinv.seglist, hinv.listp, hchain, ?_,
      hsized, by simp [h₁]; omega, hl', hf'⟩, hr, hS, ?_, ?_, hgrant, hbs', hr'⟩⟩
    · simp only [extend_heap, Heap.mem_sbrk, if_pos hgrant, he]
      rw [write_header_eq (by simp [h₁]; have := hinv.chain.lo_le; omega) (by simp [h₁]; omega), ok_bind,
        write_footer_of_header (by simp [h₁]; have := hinv.chain.lo_le; omega) (by simp [h₁]; omega) (by omega) h88
          hlt, ok_bind, hn, ok_bind,
        write_header_eq (by simp [h₁]; have := hinv.chain.lo_le; omega) (by simp [h₁]; omega), ok_bind]
      have haddr : ({ s with heap := { h₁ with mem := M₂.store (e + size) 4 (pack 0 true) } } : State).seglist +
          total sentinels + total bs = e := by
        simp only [e, total_append, Nat.add_assoc]
      rw [haddr] at hrun
      exact hrun
    · have : e = s.seglist + 544 + total bs := by simp only [e, total_append, total_sentinels, Nat.add_assoc]
      simp only [total_sentinels, total_nil, h₁, epilogue_size, dsize, wsize] at hend htot ⊢
      omega
    · simp only [first_block, hallocs, allocs_append, allocs_cons_free, allocs_nil, List.append_nil]
    · have hkeep : Keeps s.heap.mem (M₂.store (e + size) 4 (pack 0 true)) (allocs (first_block s) bs) :=
        keeps_allocs_of_above fun x hx => by
          simp only [first_block, M₂, h₁, e, total_append] at hx ⊢
          rw [Mem.store_apply_of_not_mem (by omega), Mem.store_apply_of_not_mem (by omega),
            Mem.store_apply_of_not_mem (by omega)]
      refine hkeep.trans ?_
      have := hsc.keeps (hsized.pos (by decide))
      rw [hallocs, allocs_append, allocs_cons_free, allocs_nil, List.append_nil] at this
      exact this
  · refine ⟨{ s with heap := { s.heap with grants := fun i => s.heap.grants (i + 1) } }, 0, ?_, rfl, rfl, rfl,
      .inl ⟨rfl, rfl, rfl, hgrant⟩⟩
    simp only [extend_heap, Heap.mem_sbrk, if_neg hgrant]
    rfl

theorem Chain.size_at {h : Heap} {a p : Nat} {b : Blk} {full : List Blk} (hc : Chain h a full)
    (hp : (p, b) ∈ layout a full) : size_at h p = b.size := by
  have := hc.get_size hp
  obtain ⟨hlo, hhi, -⟩ := hc.size_facts hp
  rw [get_size_eq hlo (by omega)] at this
  exact Except.ok.inj this

/-- The adjusted size of a request below `2 ^ 31 - 64`: room for the request, the header, the
    dummy word and the footer, a multiple of 8 and at least a minimum block. -/
theorem get_asize_bounds {n : Nat} (hn : n < 2 ^ 31 - 64) :
    n + tsize ≤ get_asize n ∧ min_block_size ≤ get_asize n ∧ get_asize n % 8 = 0 ∧ get_asize n < 2 ^ 31 := by
  unfold get_asize malloc_lab.max
  rw [Nat.mod_eq_of_lt (by simp only [tsize, wsize]; omega), round_up_dsize (by simp only [tsize, wsize]; omega)]
  simp only [tsize, wsize, min_block_size, ptr_size]
  split <;> omega

/-- `place` in a free block of the heap allocates a block of at least `asize` bytes there and
    keeps every allocated block. -/
theorem place_inv (hinv : Inv s bs ls) {r c asize : Nat} (hr : (r, ⟨c, false⟩) ∈ layout (first_block s) bs)
    (hle : asize ≤ c) (h32 : min_block_size ≤ asize) (h88 : asize % 8 = 0) :
    ∃ m bs' ls' S, place s r asize = .ok { s with heap := { s.heap with mem := m } } ∧
      Inv { s with heap := { s.heap with mem := m } } bs' ls' ∧ asize ≤ S ∧ S < asize + min_block_size ∧
      Adds (allocs (first_block s) bs) (allocs (first_block s) bs') (r, ⟨S, true⟩) ∧
      Keeps s.heap.mem m (allocs (first_block s) bs) ∧ bs' = carve_at min_block_size r asize (first_block s) bs := by
  obtain ⟨l₁, l₂, rfl, rfl⟩ := mem_layout_iff.1 hr
  have hmb : min_block_size = 32 := rfl
  have hsz := hinv.sized
  rw [Sized.append, Sized.cons] at hsz
  have h32' : 32 ≤ asize := h32
  obtain ⟨m, ls', hrun, hchain, hl', hf', hsc⟩ := place_spec (p := first_block s + total l₁)
    (by simp [first_block, Nat.add_assoc])
    (show Chain s.heap s.seglist ((sentinels ++ l₁) ++ ⟨c, false⟩ :: l₂) by simpa using hinv.chain) heads_sentinels
    (by simpa using hinv.sizes) hinv.lists (by simpa using hinv.filed) hinv.brk_lt h32' h88 hle
  refine ⟨m, l₁ ++ carve min_block_size c asize ++ l₂, ls',
    if c - asize ≥ min_block_size then asize else c, hrun,
    ⟨hinv.lo_pos, hinv.fit, hinv.seglist, hinv.listp, by simpa using hchain, ?_, ?_, hinv.cap, hl',
      by simpa using hf'⟩, by split <;> omega, by split <;> omega, ?_,
    by simpa using hsc.keeps (by simpa using hinv.size_pos),
    (carve_at_append (b := ⟨c, false⟩) fun d hd => hinv.size_pos d (List.mem_append_left _ hd)).symm⟩
  · simpa [total_carve hle] using hinv.brk_eq
  · rw [Sized.append, Sized.append]
    exact ⟨⟨hsz.1, sized_carve h32 h88 hsz.2.1.2 (le_trans h32 hle)⟩, hsz.2.2⟩
  · refine ⟨fun y => ?_, not_mem_allocs_of_free hinv.size_pos hr⟩
    simp only [allocs_append, allocs_carve, allocs_cons_free, total_append, total_carve hle,
      List.append_assoc, List.singleton_append, List.mem_append, List.mem_cons]
    tauto

/-- Every block of the heap lies in the region, so its size is below `2 ^ 31`. -/
theorem Inv.size_lt (hinv : Inv s bs ls) {p : Nat} {c : Blk} (hp : (p, c) ∈ layout s.seglist (sentinels ++ bs)) :
    c.size < 2 ^ 31 := by
  have := (mem_layout hp).2
  have := hinv.end_eq; have := hinv.cap; have := hinv.seglist
  simp only [MAX_HEAP] at *
  omega

theorem mem_layout_full {p : Nat} {c : Blk} (hp : (p, c) ∈ layout (first_block s) bs) :
    (p, c) ∈ layout s.seglist (sentinels ++ bs) := by
  rw [layout_append]; exact List.mem_append_right _ hp

theorem ne_zero_of_mem_layout {p : Nat} {c : Blk} (hp : (p, c) ∈ layout (first_block s) bs) : p ≠ 0 := by
  have := (mem_layout hp).2.1; simp only [first_block, total_sentinels] at this; omega

/-- The lists below the class of a positive `asize` hold only blocks of fewer than `asize` bytes:
    the classes are ordered by size. -/
theorem Inv.below_class (hinv : Inv s bs ls) {asize : Nat} (h0 : 0 < asize) :
    ∀ i < get_seglist_idx asize, ∀ x ∈ ls i, size_at s.heap x < asize := fun i hi x hx => by
  obtain ⟨S, hS, rfl⟩ := (hinv.filed i (lt_trans hi (get_seglist_idx_lt _)) x).1 hx
  rw [Chain.size_at hinv.chain hS]
  by_contra hle
  exact absurd (get_seglist_idx_mono h0 (not_lt.1 hle) (hinv.size_lt hS)) (not_le.2 hi)

/-- On a well-formed heap `find_fit` of a positive `asize` answers `NULL` exactly when no free block
    has `asize` bytes, and otherwise a free block with `asize` bytes, on the list of its class. -/
theorem find_fit_inv (hinv : Inv s bs ls) {asize : Nat} (h0 : 0 < asize) :
    ∃ r, find_fit s asize = .ok r ∧
      (r = 0 ↔ ∀ p S, (p, ⟨S, false⟩) ∈ layout (first_block s) bs → S < asize) ∧
      (r ≠ 0 → ∃ S, (r, ⟨S, false⟩) ∈ layout (first_block s) bs ∧ r ∈ ls (get_seglist_idx S) ∧ asize ≤ S) := by
  obtain ⟨r, hr, hcase⟩ := find_fit_spec asize hinv.lists hinv.geo
  refine ⟨r, hr, ?_⟩
  rcases hcase with ⟨rfl, hnone⟩ | ⟨i, hi, hmem, hfit⟩
  · refine ⟨iff_of_true rfl fun p S hp => ?_, fun h => absurd rfl h⟩
    have hp' := mem_layout_full hp
    have hfiled := (hinv.filed _ (get_seglist_idx_lt S) p).2 ⟨S, hp', rfl⟩
    have hsz : size_at s.heap p = S := Chain.size_at hinv.chain hp'
    rw [← hsz]
    by_cases hc : get_seglist_idx asize ≤ get_seglist_idx S
    · exact hnone _ hc (get_seglist_idx_lt S) p hfiled
    · exact hinv.below_class h0 _ (not_le.1 hc) p hfiled
  · obtain ⟨S, hS, rfl⟩ := (hinv.filed i hi r).1 hmem
    have hr' := mem_layout_real hS
    rw [Chain.size_at hinv.chain hS] at hfit
    exact ⟨iff_of_false (ne_zero_of_mem_layout hr') fun h => absurd (h r S hr') (not_lt.2 hfit), fun _ => ⟨S, hr', hmem, hfit⟩⟩

/-- `malloc` of a request below `2 ^ 31 - 64` either fails, changing neither memory nor the
    region, or returns the payload of a new allocated block with room for the request, keeping
    every block that was allocated; either way the blocks become those `malloc_blocks` gives for
    the answer of `find_fit`. -/
theorem malloc_spec (hinv : Inv s bs ls) {n : Nat} (hn : 0 < n) (hsmall : n < 2 ^ 31 - 64) :
    ∃ s' p, malloc s n = .ok (s', p) ∧ s'.heap_listp = s.heap_listp ∧ s'.seglist = s.seglist ∧
      s'.heap.lo = s.heap.lo ∧ ∃ f, Fit (first_block s) (get_asize n) bs f ∧
      ((p = 0 ∧ s'.heap.mem = s.heap.mem ∧ s'.heap.brk = s.heap.brk ∧
          malloc_blocks (first_block s) n (s.heap.grants 0) f bs = (bs, 0)) ∨
       ∃ bs' ls' S, Inv s' bs' ls' ∧ n + tsize ≤ S ∧ S < get_asize n + min_block_size ∧ dsize ≤ p ∧
         Adds (allocs (first_block s) bs) (allocs (first_block s) bs') (payload_to_header p, ⟨S, true⟩) ∧
         Keeps s.heap.mem s'.heap.mem (allocs (first_block s) bs) ∧
         malloc_blocks (first_block s) n (s.heap.grants 0) f bs = (bs', p)) := by
  have hlistp : s.heap_listp ≠ 0 := by rw [hinv.listp]; have := hinv.lo_pos; omega
  obtain ⟨hreq, h32, h88, hsm⟩ := get_asize_bounds hsmall
  have h0 : 0 < get_asize n := by simp only [min_block_size, ptr_size, wsize] at h32; omega
  have hpos : ∀ {r c : Nat} {bs : List Blk}, (r, ⟨c, false⟩) ∈ layout (first_block s) bs → r ≠ 0 :=
    fun hr => by have := (mem_layout hr).2.1; simp only [first_block, total_sentinels] at this; omega
  obtain ⟨r, hfit, hcase⟩ := find_fit_spec (get_asize n) hinv.lists hinv.geo
  have hFit : Fit (first_block s) (get_asize n) bs r := by
    obtain ⟨r', hr', hnone, hsome⟩ := find_fit_inv hinv h0
    cases Except.ok.inj (hfit.symm.trans hr')
    exact fit_of_iff hnone fun h => let ⟨S, hS, _, hle⟩ := hsome h; ⟨S, hS, hle⟩
  have hunfold : malloc s n = (do
      let (s, block) ← if r = 0 then extend_heap s (malloc_lab.max (get_asize n) chunksize) else pure (s, r)
      if block = 0 then pure (s, 0) else do
      let s ← place s block (get_asize n)
      pure (s, header_to_payload block)) := by
    simp only [malloc, if_neg hn.ne', if_neg hlistp, pure_bind, hfit, ok_bind]
  rw [hunfold]
  rcases hcase with ⟨rfl, -⟩ | ⟨i, hi, hmem, hfits⟩
  · have hround : round_up (malloc_lab.max (get_asize n) chunksize) dsize = malloc_lab.max (get_asize n) chunksize := by
      rw [round_up_dsize (by unfold malloc_lab.max chunksize; split <;> omega)]
      unfold malloc_lab.max chunksize; split <;> omega
    have hmax : chunksize ≤ malloc_lab.max (get_asize n) chunksize := by
      unfold malloc_lab.max; split <;> omega
    have hmax' : get_asize n ≤ round_up (malloc_lab.max (get_asize n) chunksize) dsize := by
      rw [hround]; unfold malloc_lab.max; split <;> omega
    have hcap : (s.heap.grants 0 = true ∧
        s.heap.brk + round_up (malloc_lab.max (get_asize n) chunksize) dsize ≤ s.heap.lo + MAX_HEAP) ↔
        (s.heap.grants 0 = true ∧
          total sentinels + total bs + epilogue_size + malloc_lab.max (get_asize n) chunksize ≤ MAX_HEAP) := by
      rw [hround, hinv.brk_eq]
      exact and_congr_right fun _ => by omega
    obtain ⟨s₁, r₁, hext, hlistp₁, hseg₁, hlo₁, ⟨rfl, hmem₁, hbrk₁, hng⟩ |
        ⟨bs₁, ls₁, S₁, hinv₁, hmem₁, hS₁, hallocs₁, hkeep₁, hg, hbs₁, hr₁⟩⟩ :=
      extend_heap_spec hinv hmax (by unfold malloc_lab.max chunksize; split <;> omega)
    · refine ⟨s₁, 0, by simp [hext], hlistp₁, hseg₁, hlo₁, 0, hFit, .inl ⟨rfl, hmem₁, hbrk₁, ?_⟩⟩
      rw [malloc_blocks, if_neg hn.ne', if_neg (not_not.2 rfl), if_neg (mt hcap.2 hng)]
    · have hr₁0 := hpos hmem₁
      have hfb : first_block s₁ = first_block s := by simp only [first_block, hseg₁]
      rw [← hfb] at hmem₁
      obtain ⟨m, bs', ls', S, hplace, hinv', hS, hSlt, hadds, hkeep, hbs'⟩ :=
        place_inv hinv₁ hmem₁ (by omega) h32 h88
      rw [hfb, hallocs₁] at hadds hkeep
      refine ⟨{ s₁ with heap := { s₁.heap with mem := m } }, header_to_payload r₁,
        by simp [hext, hr₁0, hplace], hlistp₁, hseg₁, hlo₁, 0, hFit,
        .inr ⟨bs', ls', S, hinv', by omega, hSlt, by simp [header_to_payload], by simpa using hadds,
          hkeep₁.trans hkeep, ?_⟩⟩
      simp only [malloc_blocks, if_neg hn.ne', ne_eq, not_true_eq_false, if_false, if_pos (hcap.1 hg), hbs', hfb,
        hbs₁, hround, hr₁]
  · obtain ⟨S, hS, -⟩ := (hinv.filed i hi r).1 hmem
    have hr := mem_layout_real hS
    have hr0 := hpos hr
    rw [Chain.size_at hinv.chain hS] at hfits
    obtain ⟨m, bs', ls', S', hplace, hinv', hS', hSlt, hadds, hkeep, hbs'⟩ := place_inv hinv hr hfits h32 h88
    exact ⟨{ s with heap := { s.heap with mem := m } }, header_to_payload r, by simp [hr0, hplace], rfl, rfl, rfl,
      r, hFit, .inr ⟨bs', ls', S', hinv', by omega, hSlt, by simp [header_to_payload], by simpa using hadds, hkeep,
        by simp only [malloc_blocks, if_neg hn.ne', if_pos hr0, hbs']⟩⟩

/-- `malloc` grows the region only when no free block has room: when one fits the adjusted
    request, it places the request in the block `find_fit` returns and keeps the region. -/
theorem malloc_of_fit (hinv : Inv s bs ls) {n : Nat} (hn : 0 < n) (hsmall : n < 2 ^ 31 - 64)
    (hfit : ∃ p S, (p, ⟨S, false⟩) ∈ layout (first_block s) bs ∧ get_asize n ≤ S) :
    ∃ s' q, malloc s n = .ok (s', q) ∧ q ≠ 0 ∧ s'.heap.brk = s.heap.brk := by
  have hlistp : s.heap_listp ≠ 0 := by rw [hinv.listp]; have := hinv.lo_pos; omega
  obtain ⟨-, h32, h88, -⟩ := get_asize_bounds hsmall
  have h0 : 0 < get_asize n := by simp only [min_block_size, ptr_size, dsize, wsize] at h32; omega
  obtain ⟨r, hr, hiff, hblk⟩ := find_fit_inv hinv h0
  have hr0 : r ≠ 0 := fun h => by
    obtain ⟨p, S, hp, hS⟩ := hfit
    exact absurd (hiff.1 h p S hp) (not_lt.2 hS)
  obtain ⟨S, hS, -, hle⟩ := hblk hr0
  obtain ⟨m, -, -, -, hplace, -⟩ := place_inv hinv hS hle h32 h88
  refine ⟨{ s with heap := { s.heap with mem := m } }, header_to_payload r, ?_,
    by simp only [header_to_payload, dsize]; omega, rfl⟩
  simp only [malloc, if_neg hn.ne', if_neg hlistp, pure_bind, hr, ok_bind, if_neg hr0, hplace]
  rfl

/-- Marking an allocated block free, header and footer, gives the chain with that block free and
    keeps the lists: no node's link words lie in a header or a footer. -/
theorem Inv.mark (hinv : Inv s bs ls) {l₁ l₂ : List Blk} {S : Nat} (hbs : bs = l₁ ++ ⟨S, true⟩ :: l₂) :
    Chain { s.heap with mem := ((s.heap.mem.store (first_block s + total l₁) 4 (pack S false)).store
        (first_block s + total l₁ + S - 4) 4 (pack S false)) } s.seglist (sentinels ++ l₁ ++ ⟨S, false⟩ :: l₂) ∧
      Lists ((s.heap.mem.store (first_block s + total l₁) 4 (pack S false)).store
        (first_block s + total l₁ + S - 4) 4 (pack S false)) s.seglist ls := by
  subst hbs
  have hat : first_block s + total l₁ = s.seglist + total (sentinels ++ l₁) := by
    simp [first_block, Nat.add_assoc]
  have hq : (first_block s + total l₁, ⟨S, true⟩) ∈ layout s.seglist (sentinels ++ l₁ ++ ⟨S, true⟩ :: l₂) :=
    mem_layout_of_eq _ _ hat
  have hc : Chain s.heap s.seglist (sentinels ++ l₁ ++ [⟨S, true⟩] ++ l₂) := by simpa using hinv.chain
  obtain ⟨-, -, h8, h88, -⟩ := hc.size_facts (by simpa using hq)
  dsimp only at h8 h88
  have hfiled : Filed s.seglist (sentinels ++ l₁ ++ ⟨S, true⟩ :: l₂) ls := by simpa using hinv.filed
  have hsizes : ∀ c ∈ sentinels ++ l₁ ++ ⟨S, true⟩ :: l₂, 32 ≤ c.size := by simpa using hinv.sizes
  have hc₂ := hc.retag false (S := S) (by simp) h8 h88
  rw [← hat] at hc₂
  exact ⟨by simpa using hc₂, (hinv.lists.store_tag hfiled heads_sentinels hsizes hq (.inl rfl)).store_tag hfiled
    heads_sentinels hsizes hq (.inr (by dsimp only; omega))⟩

/-- `free` of the payload of an allocated block frees it, merges it with its free neighbours and
    files the result; every other allocated block is kept. -/
theorem free_spec (hinv : Inv s bs ls) {p S : Nat}
    (hp : (payload_to_header p, ⟨S, true⟩) ∈ allocs (first_block s) bs) :
    ∃ m bs' ls', free s p = .ok { s with heap := { s.heap with mem := m } } ∧
      Inv { s with heap := { s.heap with mem := m } } bs' ls' ∧
      Drops (allocs (first_block s) bs) (allocs (first_block s) bs') (payload_to_header p) ∧
      Keeps s.heap.mem m (allocs (first_block s) bs') ∧ bs' = free_blocks (first_block s) p bs ∧
      ∃ r S', (r, ⟨S', false⟩) ∈ layout (first_block s) bs' ∧ S ≤ S' := by
  have hpos := hinv.size_pos
  obtain ⟨l₁, l₂, rfl, hblk⟩ := mem_layout_iff.1 (mem_allocs.1 hp).1
  set q := payload_to_header p
  have hp0 : p ≠ 0 := by
    rintro rfl
    simp only [q, payload_to_header, first_block, total_sentinels, Nat.zero_sub] at hblk
    omega
  have hat : q = s.seglist + total (sentinels ++ l₁) := by rw [hblk]; simp [first_block, Nat.add_assoc]
  have hq : (q, ⟨S, true⟩) ∈ layout s.seglist (sentinels ++ l₁ ++ ⟨S, true⟩ :: l₂) := mem_layout_of_eq _ _ hat
  have hc : Chain s.heap s.seglist (sentinels ++ l₁ ++ [⟨S, true⟩] ++ l₂) := by simpa using hinv.chain
  obtain ⟨hlo, hhi, h8, h88, hlt⟩ := hc.size_facts (by simpa using hq)
  dsimp only at hhi h8 h88 hlt
  have hS32 : 32 ≤ S := hinv.sizes ⟨S, true⟩ (by simp)
  obtain ⟨hc₂, hl₁⟩ := hinv.mark (Eq.refl (l₁ ++ ⟨S, true⟩ :: l₂))
  rw [← hblk] at hc₂ hl₁
  set M₁ := (s.heap.mem.store q 4 (pack S false)).store (q + S - 4) 4 (pack S false)
  have hfiled : Filed s.seglist (sentinels ++ l₁ ++ ⟨S, true⟩ :: l₂) ls := by simpa using hinv.filed
  have hsz : Sized min_block_size (l₁ ++ ⟨S, false⟩ :: l₂) := by
    have := hinv.sized
    simp only [Sized.append, Sized.cons] at this ⊢
    exact this
  obtain ⟨m, ls', r, S', bs', hrun, hchain, hsized, htot, hallocs, hl', hf', hr, hS', hsc, hbs', -⟩ :=
    coalesce_real (s := { s with heap := { s.heap with mem := M₁ } }) (by simpa using hc₂) hsz hl₁ hfiled
      hinv.brk_lt
  have haddr : ({ s with heap := { s.heap with mem := M₁ } } : State).seglist + total sentinels + total l₁ = q := by
    simp only [hat, total_append, Nat.add_assoc]
  rw [haddr] at hrun
  have hbrk := hinv.brk_eq
  refine ⟨m, bs', ls', ?_, ⟨hinv.lo_pos, hinv.fit, hinv.seglist, hinv.listp, hchain, ?_, hsized, hinv.cap, hl', hf'⟩,
    fun ⟨y, b⟩ => ?_, ?_, ?_, r, S', hr, hS'⟩
  · simp only [free, if_neg hp0, Chain.get_size hinv.chain (by simpa using hq), ok_bind]
    rw [write_header_eq hlo (by omega), ok_bind, write_footer_of_header hlo (by omega) (by omega) h88 hlt,
      ok_bind, hrun]
    rfl
  · simp only [total_append, total_cons] at hbrk htot
    dsimp only
    omega
  · rw [show allocs (first_block s) bs' = _ from hallocs, hblk]
    exact mem_allocs_free hpos
  · have hkeep₁ : Keeps s.heap.mem M₁ (allocs (first_block s) bs') := by
      rw [show allocs (first_block s) bs' = _ from hallocs]
      exact keeps_allocs_of_frame (mem_layout_of_eq _ _ hblk) (hsz.pos (by decide))
        fun x hx => store_store_outside hx (by omega)
    exact hkeep₁.trans (hsc.keeps (hsized.pos (by decide)))
  · have hpos₁ : ∀ d ∈ l₁, 0 < d.size := fun d hd => hpos d (List.mem_append_left _ hd)
    rw [hbs', free_blocks, if_neg hp0, show payload_to_header p = first_block s + total l₁ from hblk]
    exact congrArg List.tail ((free_at_append hpos₁).trans (free_at_append (b := ⟨S, true⟩) hpos₁).symm)

/-- An allocated block's header reads its size, a multiple of 8 of at least a minimum block. -/
theorem Inv.alloc_size (hinv : Inv s bs ls) {q : Nat} {b : Blk} (hq : (q, b) ∈ allocs (first_block s) bs) :
    get_size s.heap q = .ok b.size ∧ b.size % 8 = 0 ∧ min_block_size ≤ b.size := by
  have hl : (q, b) ∈ layout s.seglist (sentinels ++ bs) := by
    rw [layout_append]; exact List.mem_append_right _ (mem_allocs.1 hq).1
  exact ⟨Chain.get_size hinv.chain hl, (hinv.chain.size_facts hl).2.2.2.1,
    (hinv.sized b (mem_layout (mem_allocs.1 hq).1).1).1⟩

/-- Memory changed only inside the payload of an allocated block keeps the invariant and every
    other allocated block. -/
theorem Inv.payload_write (hinv : Inv s bs ls) {q S : Nat} (hq : (q, ⟨S, true⟩) ∈ allocs (first_block s) bs)
    {m : Mem} (hm : ∀ x, x < q + wsize ∨ q + S - wsize ≤ x → m x = s.heap.mem x) :
    Inv { s with heap := { s.heap with mem := m } } bs ls ∧
      Keeps s.heap.mem m ((allocs (first_block s) bs).filter fun y => y.1 ≠ q) := by
  have hl := (mem_allocs.1 hq).1
  have hl' : (q, ⟨S, true⟩) ∈ layout s.seglist (sentinels ++ bs) := by
    rw [layout_append]; exact List.mem_append_right _ hl
  have hq544 := (mem_layout hl).2.1
  simp only [first_block, total_sentinels] at hq544
  refine ⟨⟨hinv.lo_pos, hinv.fit, hinv.seglist, hinv.listp, hinv.chain.payload_write hl' hm, hinv.brk_eq,
    hinv.sized, hinv.cap, hinv.lists.congr fun x hx j hj => hm _ ?_, hinv.filed⟩, fun y b hy x h1 h2 => ?_⟩
  · obtain ⟨c, hc, hfree⟩ := hinv.filed.block heads_sentinels hx
    have hc32 := hinv.sizes c (mem_layout hc).1
    have hne : x ≠ q := by
      rintro rfl
      rcases hfree with h | ⟨i, hi, rfl⟩
      · have := layout_unique (fun e he => by have := hinv.sizes e he; omega) hc hl'
        simp [this] at h
      · simp only [head, size_class_cnt, block_size] at hi hq544
        omega
    have := layout_disjoint hc hl' hne
    simp only [wsize] at this ⊢
    omega
  · obtain ⟨hy, hne⟩ := List.mem_filter.1 hy
    have hd := layout_disjoint (mem_allocs.1 hy).1 hl (by simpa using hne)
    exact hm x (by dsimp only at hd; simp only [wsize]; omega)

/-- `split_block` of an allocated block shrinks it to `asize` bytes and files the rest as a free
    block; every other allocated block and the first `asize` bytes of the block's payload are
    kept. -/
theorem split_inv (hinv : Inv s bs ls) {b S asize : Nat} (hb : (b, ⟨S, true⟩) ∈ allocs (first_block s) bs)
    (h32 : min_block_size ≤ asize) (h88 : asize % 8 = 0) (hrest : asize + min_block_size ≤ S) :
    ∃ m bs' ls', split_block s b asize = .ok { s with heap := { s.heap with mem := m } } ∧
      Inv { s with heap := { s.heap with mem := m } } bs' ls' ∧
      Adds ((allocs (first_block s) bs).filter fun y => y.1 ≠ b) (allocs (first_block s) bs') (b, ⟨asize, true⟩) ∧
      Keeps s.heap.mem m ((allocs (first_block s) bs).filter fun y => y.1 ≠ b) ∧
      bs' = carve_at min_block_size b asize (first_block s) bs ∧
      ∀ x, b + 4 ≤ x → x + 4 < b + asize → m x = s.heap.mem x := by
  have hpos := hinv.size_pos
  obtain ⟨l₁, l₂, rfl, rfl⟩ := mem_layout_iff.1 (mem_allocs.1 hb).1
  have h32' : 32 ≤ asize := h32
  obtain ⟨m, ls', hrun, hchain, hl', hf', hsc, hframe⟩ := split_block_spec (p := first_block s + total l₁)
    (by simp [first_block, Nat.add_assoc])
    (show Chain s.heap s.seglist ((sentinels ++ l₁) ++ ⟨S, true⟩ :: l₂) by simpa using hinv.chain) heads_sentinels
    (by simpa using hinv.sizes) hinv.lists (by simpa using hinv.filed) hinv.brk_lt h32' h88 hrest
  have hsz := hinv.sized
  rw [Sized.append, Sized.cons] at hsz
  have hfilter : ∀ y, y ∈ (allocs (first_block s) (l₁ ++ ⟨S, true⟩ :: l₂)).filter (fun y => y.1 ≠ first_block s + total l₁) ↔
      y ∈ allocs (first_block s) (l₁ ++ ⟨S, false⟩ :: l₂) := fun ⟨y, c⟩ => by
    rw [List.mem_filter, mem_allocs_free hpos]
    simp
  have hposF : ∀ c ∈ l₁ ++ ⟨S, false⟩ :: l₂, 0 < c.size := by
    intro c hc
    simp only [List.mem_append, List.mem_cons] at hc
    rcases hc with hc | rfl | hc
    · exact hpos c (by simp [hc])
    · exact hpos ⟨S, true⟩ (by simp)
    · exact hpos c (by simp [hc])
  have hkeep : Keeps s.heap.mem m (allocs (first_block s) (l₁ ++ ⟨S, false⟩ :: l₂)) :=
    (show Scratch s.seglist (sentinels ++ (l₁ ++ ⟨S, false⟩ :: l₂)) s.heap.mem m by simpa using hsc).keeps hposF
  refine ⟨m, l₁ ++ ⟨asize, true⟩ :: ⟨S - asize, false⟩ :: l₂, ls', hrun,
    ⟨hinv.lo_pos, hinv.fit, hinv.seglist, hinv.listp, by simpa using hchain, ?_, ?_, hinv.cap, hl',
      by simpa using hf'⟩, ⟨fun y => ?_, fun c hc => by simp at hc⟩,
    hkeep.mono fun y hy => (hfilter y).1 hy, ?_, hframe⟩
  · have := hinv.brk_eq
    simp only [total_append, total_cons] at this ⊢
    omega
  · obtain ⟨-, hS8⟩ := hsz.2.1
    dsimp only at hS8
    rw [Sized.append, Sized.cons, Sized.cons]
    refine ⟨hsz.1, ⟨h32, h88⟩, ⟨?_, ?_⟩, hsz.2.2⟩ <;> dsimp only <;>
      simp only [min_block_size, ptr_size, wsize] at hrest ⊢ <;> omega
  · rw [hfilter y]
    obtain ⟨y, c⟩ := y
    simp only [allocs_append, allocs_cons_free, allocs_cons_alloc, List.mem_append, List.mem_cons,
      show first_block s + total l₁ + asize + (S - asize) = first_block s + total l₁ + S by omega]
    tauto
  · rw [carve_at_append fun d hd => hpos d (List.mem_append_left _ hd)]
    simp [carve, show S - asize ≥ min_block_size by omega]

/-- A block too small for the adjusted size of a request has a payload smaller than the
    request. -/
theorem lt_of_lt_get_asize {n S : Nat} (hn : n < 2 ^ 31 - 64) (hS8 : S % 8 = 0) (hS : min_block_size ≤ S)
    (hlt : S < get_asize n) : S < n + tsize := by
  unfold get_asize malloc_lab.max at hlt
  rw [Nat.mod_eq_of_lt (by simp only [tsize, wsize]; omega), round_up_dsize (by simp only [tsize, wsize]; omega)]
    at hlt
  simp only [tsize, wsize, min_block_size, ptr_size] at hlt hS ⊢
  split at hlt <;> omega

/-- `realloc` of a live pointer to a size below `2 ^ 31 - 64`. A block already large enough is
    shrunk in place (`q = p`), splitting off the rest when that is at least a minimum block;
    otherwise a new block gets a copy of the old payload and the old block is freed. A `NULL`
    result changes neither memory nor the region. -/
theorem realloc_spec (hinv : Inv s bs ls) {p S n : Nat}
    (hp : (payload_to_header p, ⟨S, true⟩) ∈ allocs (first_block s) bs) (hn : 0 < n)
    (hsmall : n < 2 ^ 31 - 64) :
    ∃ s' q, realloc s p n = .ok (s', q) ∧ s'.heap_listp = s.heap_listp ∧ s'.seglist = s.seglist ∧
      s'.heap.lo = s.heap.lo ∧ ∃ f, Fit (first_block s) (get_asize n) bs f ∧
      ((q = 0 ∧ s'.heap.mem = s.heap.mem ∧ s'.heap.brk = s.heap.brk ∧ S < get_asize n ∧
          realloc_blocks (first_block s) p n (s.heap.grants 0) f bs = (bs, 0)) ∨
       ∃ A₁ bs' ls' S', Inv s' bs' ls' ∧ n + tsize ≤ S' ∧ S' < get_asize n + min_block_size ∧ dsize ≤ q ∧
         ((q ≠ p ∧ S < get_asize n ∧ Adds (allocs (first_block s) bs) A₁ (payload_to_header q, ⟨S', true⟩) ∧
             Drops A₁ (allocs (first_block s) bs') (payload_to_header p)) ∨
           (q = p ∧ get_asize n ≤ S ∧ A₁ = (allocs (first_block s) bs).filter (fun y => y.1 ≠ payload_to_header p) ∧
             Adds A₁ (allocs (first_block s) bs') (payload_to_header p, ⟨S', true⟩))) ∧
         Keeps s.heap.mem s'.heap.mem
           ((allocs (first_block s) bs).filter fun y => y.1 ≠ payload_to_header p) ∧
         realloc_blocks (first_block s) p n (s.heap.grants 0) f bs = (bs', q) ∧
         (∀ i < min n (S - tsize), s'.heap.mem (q + i) = s.heap.mem (p + i))) := by
  have hl := (mem_allocs.1 hp).1
  have hl' : (payload_to_header p, ⟨S, true⟩) ∈ layout s.seglist (sentinels ++ bs) := by
    rw [layout_append]; exact List.mem_append_right _ hl
  obtain ⟨hlo, hhi, -, hS8, hlt⟩ := hinv.chain.size_facts hl'
  dsimp only at hhi hS8 hlt
  have hS32 := (hinv.sized _ (mem_layout hl).1).1
  have hfirst := (mem_layout hl).2.1
  have hpp : payload_to_header p = p - 8 := rfl
  have hd : dsize = 8 := rfl
  have ht : tsize = 12 := rfl
  simp only [first_block, total_sentinels] at hfirst
  replace hS32 : 32 ≤ S := hS32
  have hp0 : p ≠ 0 := by omega
  obtain ⟨hreq, h32, h88, hsm⟩ := get_asize_bounds hsmall
  have hgs : get_size s.heap (payload_to_header p) = .ok S := Chain.get_size hinv.chain hl'
  have hsize : size_of (payload_to_header p) (first_block s) bs = S := size_of_of_mem hinv.size_pos hl
  by_cases hfits : get_asize n ≤ S
  · obtain ⟨f, hFit⟩ := exists_fit first_block_pos (get_asize n) bs
    have hin : realloc_blocks (first_block s) p n (s.heap.grants 0) f bs =
        (carve_at min_block_size (payload_to_header p) (get_asize n) (first_block s) bs, p) := by
      simp only [realloc_blocks, if_neg hn.ne', if_neg hp0, hsize, if_pos hfits]
    by_cases hsplit : S - get_asize n ≥ min_block_size
    · obtain ⟨m, bs', ls', hrun, hinv', hadds, hkeep, hbs', hframe⟩ := split_inv hinv hp h32 h88 (by omega)
      refine ⟨{ s with heap := { s.heap with mem := m } }, p, ?_, rfl, rfl, rfl, f, hFit,
        .inr ⟨_, bs', ls', get_asize n, hinv', hreq, by simp only [min_block_size, ptr_size, wsize]; omega,
          by omega, .inr ⟨rfl, hfits, rfl, hadds⟩, hkeep, by rw [hin, hbs'],
          fun i hi => hframe _ (by omega) (by simp only [ht] at hreq; omega)⟩⟩
      simp only [realloc, if_neg hn.ne', if_neg hp0, hgs, ok_bind, ge_iff_le, if_pos hfits,
        size_sub_of_le hfits (by omega), if_pos hsplit, hrun]
      rfl
    · have hcarve : carve_at min_block_size (payload_to_header p) (get_asize n) (first_block s) bs = bs := by
        obtain ⟨l₁, l₂, rfl, hq⟩ := mem_layout_iff.1 hl
        rw [hq, carve_at_append fun d hd => hinv.size_pos d (List.mem_append_left _ hd), carve, if_neg hsplit]
        simp
      refine ⟨s, p, ?_, rfl, rfl, rfl, f, hFit, .inr ⟨_, bs, ls, S, hinv, by omega, by omega, by omega,
        .inr ⟨rfl, hfits, rfl, fun y => ?_, fun c hc => by simp at hc⟩, fun _ _ _ _ _ _ => rfl,
        by rw [hin, hcarve], fun _ _ => rfl⟩⟩
      · simp only [realloc, if_neg hn.ne', if_neg hp0, hgs, ok_bind, ge_iff_le, if_pos hfits,
          size_sub_of_le hfits (by omega), if_neg hsplit]
        rfl
      · obtain ⟨y, c⟩ := y
        rw [List.mem_filter]
        constructor
        · intro hy
          by_cases hyp : y = payload_to_header p
          · subst hyp
            exact .inl (by rw [layout_unique hinv.size_pos (mem_allocs.1 hy).1 hl])
          · exact .inr ⟨hy, by simpa using hyp⟩
        · rintro (h | ⟨h, -⟩)
          · rw [h]; exact hp
          · exact h
  have hSlt : S < n + tsize := lt_of_lt_get_asize hsmall hS8 hS32 (by omega)
  obtain ⟨s₁, q, hmalloc, hlistp₁, hseg₁, hlo₁, f, hFit, ⟨rfl, hmem₁, hbrk₁, hmb⟩ |
      ⟨bs₁, ls₁, S₁, hinv₁, hS₁, hSlt₁, hq8, hadds, hkeep₁, hmb⟩⟩ := malloc_spec hinv hn hsmall
  · refine ⟨s₁, 0, ?_, hlistp₁, hseg₁, hlo₁, f, hFit, .inl ⟨rfl, hmem₁, hbrk₁, by omega, ?_⟩⟩
    · simp only [realloc, if_neg hn.ne', if_neg hp0, hgs, ok_bind, ge_iff_le, if_neg hfits, hmalloc, if_true]
      rfl
    · simp [realloc_blocks, hn.ne', hp0, hsize, hfits, hmb]
  have hfb : first_block s₁ = first_block s := by simp only [first_block, hseg₁]
  have hp₁ : (payload_to_header p, ⟨S, true⟩) ∈ allocs (first_block s₁) bs₁ := hfb ▸ (hadds.1 _).2 (.inr hp)
  have hq₁ : (payload_to_header q, ⟨S₁, true⟩) ∈ allocs (first_block s₁) bs₁ := hfb ▸ (hadds.1 _).2 (.inl rfl)
  have hne : payload_to_header q ≠ payload_to_header p := fun h => hadds.2 _ (h ▸ hp)
  have hqq : payload_to_header q = q - 8 := rfl
  have hlay : ∀ {b : Nat} {c : Blk}, (b, c) ∈ allocs (first_block s₁) bs₁ → (b, c) ∈ layout s₁.seglist (sentinels ++ bs₁) :=
    fun h => by rw [layout_append]; exact List.mem_append_right _ (mem_allocs.1 h).1
  obtain ⟨hqlo, hqhi, -⟩ := hinv₁.chain.size_facts (hlay hq₁)
  obtain ⟨-, hphi, -⟩ := hinv₁.chain.size_facts (hlay hp₁)
  dsimp only at hqhi hphi
  rw [hpp] at hphi
  rw [hqq] at hqlo hqhi
  have hcopy : s₁.heap.memcpy q p (S - tsize) = _ :=
    Heap.memcpy_of_mem (by rw [hlo₁]; omega) (by omega) (by omega) (by omega)
  obtain ⟨hinv₂, hkeep₂⟩ := hinv₁.payload_write hq₁ (m := s₁.heap.mem.copy q p (S - tsize))
    (fun x hx => Mem.copy_apply_of_not_mem (by simp only [wsize] at hx; omega))
  obtain ⟨m', bs', ls', hfree, hinv', hdrops, hkeep', hbs', -⟩ := free_spec hinv₂ hp₁
  replace hdrops : Drops (allocs (first_block s₁) bs₁) (allocs (first_block s₁) bs') (payload_to_header p) :=
    hdrops
  replace hkeep' : Keeps (s₁.heap.mem.copy q p (S - tsize)) m' (allocs (first_block s₁) bs') := hkeep'
  have hq0 : q ≠ 0 := by omega
  refine ⟨{ s₁ with heap := { s₁.heap with mem := m' } }, q, ?_, hlistp₁, hseg₁, hlo₁, f, hFit,
    .inr ⟨allocs (first_block s) bs₁, bs', ls', S₁, hinv', hS₁, hSlt₁, hq8,
      .inl ⟨by omega, by omega, hadds, hfb ▸ hdrops⟩, ?_, ?_,
      fun i hi => ?_⟩⟩
  · have hps : get_payload_size s₁.heap (payload_to_header p) = .ok (S - tsize) := by
      simp only [get_payload_size, Chain.get_size hinv₁.chain (hlay hp₁), ok_bind, pure_eq_ok,
        size_sub_of_le (show tsize ≤ S by omega) (by omega)]
    simp only [realloc, if_neg hn.ne', if_neg hp0, hgs, ok_bind, ge_iff_le, if_neg hfits, hmalloc]
    rw [if_neg hq0, hps, ok_bind, hcopy, ok_bind, hfree]
    rfl
  · have hfresh : ∀ y ∈ allocs (first_block s) bs, y.1 ≠ payload_to_header q :=
      fun y hy h => hadds.2 y.2 (h ▸ hy)
    refine (hkeep₁.mono fun y hy => (List.mem_filter.1 hy).1).trans ((hkeep₂.mono fun y hy => ?_).trans
      (hkeep'.mono fun y hy => ?_))
    · obtain ⟨hy, -⟩ := List.mem_filter.1 hy
      exact List.mem_filter.2 ⟨hfb ▸ (hadds.1 y).2 (.inr hy), by simpa using hfresh y hy⟩
    · obtain ⟨hy, hyp⟩ := List.mem_filter.1 hy
      exact (hdrops y).2 ⟨hfb ▸ (hadds.1 y).2 (.inr hy), by simpa using hyp⟩
  · rw [hbs', show first_block { s₁ with heap := { s₁.heap with mem := s₁.heap.mem.copy q p (S - tsize) } } =
      first_block s from hfb]
    simp [realloc_blocks, hn.ne', hp0, hsize, hfits, hmb, hq0]
  · have hi' : i < S - tsize := lt_of_lt_of_le hi (Nat.min_le_right _ _)
    have hq' := (hdrops _).2 ⟨hq₁, hne⟩
    have h1 := hkeep' _ _ hq' (q + i) (by omega) (by dsimp only; omega)
    have h2 := hkeep₁ _ _ hp (p + i) (by omega) (by dsimp only; omega)
    show m' (q + i) = s.heap.mem (p + i)
    rw [h1, ← h2]
    simp only [Mem.copy, if_pos (show q ≤ q + i ∧ q + i < q + (S - tsize) from ⟨by omega, by omega⟩),
      Nat.add_sub_cancel_left]

/-- `calloc` whose product (as `size_t`) is below `2 ^ 31 - 64` either returns `NULL`, changing
    neither memory nor the region, or returns a new block with room for the product whose first
    product bytes are zero; every allocated block is kept. -/
theorem calloc_spec (hinv : Inv s bs ls) {nmemb size : Nat} (hsmall : nmemb * size % 2 ^ 64 < 2 ^ 31 - 64) :
    ∃ s' q, calloc s nmemb size = .ok (s', q) ∧ s'.heap_listp = s.heap_listp ∧ s'.seglist = s.seglist ∧
      s'.heap.lo = s.heap.lo ∧ ∃ f, Fit (first_block s) (get_asize (nmemb * size % 2 ^ 64)) bs f ∧
      ((q = 0 ∧ s'.heap.mem = s.heap.mem ∧ s'.heap.brk = s.heap.brk ∧
          calloc_blocks (first_block s) nmemb size (s.heap.grants 0) f bs = (bs, 0)) ∨
       ∃ bs' ls' S, Inv s' bs' ls' ∧ nmemb * size % 2 ^ 64 + tsize ≤ S ∧ dsize ≤ q ∧
         Adds (allocs (first_block s) bs) (allocs (first_block s) bs') (payload_to_header q, ⟨S, true⟩) ∧
         Keeps s.heap.mem s'.heap.mem (allocs (first_block s) bs) ∧
         calloc_blocks (first_block s) nmemb size (s.heap.grants 0) f bs = (bs', q) ∧
         (∀ i < nmemb * size % 2 ^ 64, s'.heap.mem (q + i) = 0)) := by
  have hd : dsize = 8 := rfl
  have ht : tsize = 12 := rfl
  rcases Nat.eq_zero_or_pos (nmemb * size % 2 ^ 64) with h0 | hpos
  · obtain ⟨f, hFit⟩ := exists_fit first_block_pos
      (get_asize (nmemb * size % 2 ^ 64)) bs
    refine ⟨s, 0, ?_, rfl, rfl, rfl, f, hFit, .inl ⟨rfl, rfl, rfl, by rw [calloc_blocks, malloc_blocks, if_pos h0]⟩⟩
    simp only [calloc, h0, malloc, if_true, pure_eq_ok, ok_bind, ne_eq, not_true_eq_false, if_false]
  obtain ⟨s₁, q, hmalloc, hlistp₁, hseg₁, hlo₁, f, hFit, ⟨rfl, hmem₁, hbrk₁, hmb⟩ |
      ⟨bs₁, ls₁, S₁, hinv₁, hS₁, -, hq8, hadds, hkeep₁, hmb⟩⟩ := malloc_spec hinv hpos hsmall
  · refine ⟨s₁, 0, ?_, hlistp₁, hseg₁, hlo₁, f, hFit, .inl ⟨rfl, hmem₁, hbrk₁, hmb⟩⟩
    simp only [calloc, hmalloc, ok_bind, ne_eq, not_true_eq_false, if_false]
    rfl
  have hfb : first_block s₁ = first_block s := by simp only [first_block, hseg₁]
  have hq₁ : (payload_to_header q, ⟨S₁, true⟩) ∈ allocs (first_block s₁) bs₁ := hfb ▸ (hadds.1 _).2 (.inl rfl)
  have hqq : payload_to_header q = q - 8 := rfl
  have hlay : (payload_to_header q, ⟨S₁, true⟩) ∈ layout s₁.seglist (sentinels ++ bs₁) := by
    rw [layout_append]; exact List.mem_append_right _ (mem_allocs.1 hq₁).1
  obtain ⟨hqlo, hqhi, -⟩ := hinv₁.chain.size_facts hlay
  dsimp only at hqhi
  rw [hqq] at hqlo hqhi
  have hset := Heap.memset_of_mem (h := s₁.heap) (p := q) (n := nmemb * size % 2 ^ 64) (c := 0)
    (by omega) (by omega)
  obtain ⟨hinv₂, hkeep₂⟩ := hinv₁.payload_write hq₁ (m := s₁.heap.mem.fill q (nmemb * size % 2 ^ 64) 0)
    (fun x hx => Mem.fill_apply_of_not_mem (by simp only [wsize] at hx; omega))
  refine ⟨{ s₁ with heap := { s₁.heap with mem := s₁.heap.mem.fill q (nmemb * size % 2 ^ 64) 0 } }, q,
    ?_, hlistp₁, hseg₁, hlo₁, f, hFit, .inr ⟨bs₁, ls₁, S₁, hinv₂, hS₁, hq8, hfb ▸ hadds, ?_, hmb, fun i hi => ?_⟩⟩
  · simp only [calloc, hmalloc, ok_bind, ne_eq, if_pos (show ¬q = 0 by omega), hset]
    rfl
  · refine hkeep₁.trans (hkeep₂.mono fun y hy => List.mem_filter.2 ⟨hfb ▸ (hadds.1 y).2 (.inr hy), ?_⟩)
    have : y.1 ≠ payload_to_header q := fun h => hadds.2 y.2 (by rw [← h]; exact hy)
    simpa using this
  · simp only [Mem.fill, if_pos (show q ≤ q + i ∧ q + i < q + nmemb * size % 2 ^ 64 from ⟨by omega, by omega⟩)]

/-- The adjusted size of any request is positive, and a multiple of 8 below `2 ^ 64`. -/
theorem get_asize_pos (n : Nat) : 0 < get_asize n ∧ get_asize n + 7 < 2 ^ 64 := by
  unfold get_asize malloc_lab.max round_up
  simp only [min_block_size, ptr_size, dsize, wsize]
  split <;> omega

/-- `malloc` answers `NULL`, for a request of any size, only when no block fits and the provider
    refuses to grow the region: the heap, `heap_listp` and `seglist` are as they were. -/
theorem malloc_null (hinv : Inv s bs ls) {n : Nat} {s' : State} (h : malloc s n = .ok (s', 0)) :
    s'.heap.mem = s.heap.mem ∧ s'.heap.brk = s.heap.brk ∧ s'.heap_listp = s.heap_listp ∧
      s'.seglist = s.seglist := by
  by_cases hn : n = 0
  · simp only [malloc, if_pos hn, pure_eq_ok, Except.ok.injEq, Prod.mk.injEq] at h
    rw [← h.1]
    exact ⟨rfl, rfl, rfl, rfl⟩
  have hlistp : s.heap_listp ≠ 0 := by rw [hinv.listp]; have := hinv.lo_pos; omega
  obtain ⟨h0, h7⟩ := get_asize_pos n
  obtain ⟨r, hr, -⟩ := find_fit_inv hinv h0
  simp only [malloc, if_neg hn, if_neg hlistp, pure_bind, hr, ok_bind] at h
  split at h
  · obtain ⟨s₁, b, hext, hl₁, hseg₁, -, hcase⟩ := extend_heap_spec hinv (n := malloc_lab.max (get_asize n) chunksize)
      (by unfold malloc_lab.max; split <;> omega) (by unfold malloc_lab.max chunksize; split <;> omega)
    rw [hext, ok_bind] at h
    rcases hcase with ⟨rfl, hmem, hbrk, -⟩ | ⟨bs', ls', S, -, hb, -⟩
    · simp only [if_true, pure_eq_ok, Except.ok.injEq, Prod.mk.injEq] at h
      rw [← h.1]
      exact ⟨hmem, hbrk, hl₁, hseg₁⟩
    · simp only [if_neg (ne_zero_of_mem_layout hb)] at h
      obtain ⟨_, -, he⟩ := bind_eq_ok_iff.1 h
      simp [header_to_payload, dsize, wsize] at he
  · obtain ⟨_, -, he⟩ := bind_eq_ok_iff.1 h
    simp [header_to_payload, dsize, wsize] at he

/-- `realloc` to a nonzero size answers `NULL` only when its `malloc` did: a block shrunk in place
    returns its own pointer. -/
theorem realloc_null (hinv : Inv s bs ls) {p n : Nat} {s' : State} (hn : n ≠ 0) (h : realloc s p n = .ok (s', 0)) :
    s'.heap.mem = s.heap.mem ∧ s'.heap.brk = s.heap.brk ∧ s'.heap_listp = s.heap_listp ∧
      s'.seglist = s.seglist := by
  simp only [realloc, if_neg hn] at h
  split at h
  · exact malloc_null hinv h
  obtain ⟨_, -, h⟩ := bind_eq_ok_iff.1 h
  split at h
  · split at h
    · simp only [bind_eq_ok_iff, pure_eq_ok, Except.ok.injEq, Prod.mk.injEq] at h
      obtain ⟨_, -, -, hp⟩ := h
      contradiction
    · simp only [pure_eq_ok, Except.ok.injEq, Prod.mk.injEq] at h
      exact absurd h.2 ‹_›
  obtain ⟨⟨s₁, q⟩, hm, h⟩ := bind_eq_ok_iff.1 h
  split at h
  · simp only [pure_eq_ok, Except.ok.injEq, Prod.mk.injEq] at h
    rw [← h.1]
    exact malloc_null hinv (by rwa [← ‹q = 0›])
  · simp only [bind_eq_ok_iff, pure_eq_ok, Except.ok.injEq, Prod.mk.injEq] at h
    obtain ⟨_, -, _, -, _, -, -, hq⟩ := h
    contradiction

/-- `calloc` answers `NULL` only when its `malloc` did. -/
theorem calloc_null (hinv : Inv s bs ls) {nmemb size : Nat} {s' : State} (h : calloc s nmemb size = .ok (s', 0)) :
    s'.heap.mem = s.heap.mem ∧ s'.heap.brk = s.heap.brk ∧ s'.heap_listp = s.heap_listp ∧
      s'.seglist = s.seglist := by
  simp only [calloc] at h
  obtain ⟨⟨s₁, q⟩, hm, h⟩ := bind_eq_ok_iff.1 h
  split at h
  · simp only [bind_eq_ok_iff, pure_eq_ok, Except.ok.injEq, Prod.mk.injEq] at h
    obtain ⟨_, -, -, hq⟩ := h
    contradiction
  · simp only [pure_eq_ok, Except.ok.injEq, Prod.mk.injEq] at h
    rw [← h.1]
    exact malloc_null hinv (by rwa [← h.2])

end malloc_lab.segregated
