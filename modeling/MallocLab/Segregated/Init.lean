import MallocLab.Segregated.Api

namespace malloc_lab.segregated

/-- The memory `init_seglist` leaves after its first `i` rounds: each head record gets its header
    and footer, and `pred` and `succ` pointing to itself. -/
def init_mem (m : Mem) (start : Nat) : Nat → Mem
  | 0 => m
  | i + 1 =>
    let b := start + i * block_size
    ((((init_mem m start i).store b 4 (pack block_size true)).store (b + block_size - 4) 4
      (pack block_size true)).store (pred_ptr b) ptr_size b).store (succ_ptr b) ptr_size b

section init_mem

variable {h : Heap} {m : Mem} {start : Nat}

theorem init_seglist_eq (hlo : h.lo ≤ start) :
    ∀ i, start + i * block_size ≤ h.brk → init_seglist h start i = .ok { h with mem := init_mem h.mem start i }
  | 0, _ => rfl
  | i + 1, hi => by
    have hb : start + i * 32 + 32 ≤ h.brk := by simp only [block_size, Nat.succ_mul] at hi; omega
    rw [init_seglist, init_seglist_eq hlo i (by simp only [block_size] at hi ⊢; omega), ok_bind]
    dsimp only
    rw [write_header_eq (h := { h with mem := init_mem h.mem start i }) (by simp only; omega)
        (by simp only [block_size]; omega), ok_bind,
      write_footer_of_header (h := { h with mem := init_mem h.mem start i }) (by simp only; omega)
        (by simp only [block_size]; omega) (by decide) (by decide) (by decide), ok_bind,
      Heap.write_of_mem (by simp only [pred_ptr, dsize, wsize]; omega)
        (by simp only [pred_ptr, dsize, wsize, ptr_size, block_size]; omega), ok_bind,
      Heap.write_of_mem (by simp only [succ_ptr, dsize, wsize, ptr_size]; omega)
        (by simp only [succ_ptr, dsize, wsize, ptr_size, block_size]; omega)]
    rfl

/-- Rounds write only their own head record. -/
theorem init_mem_of_not_mem : ∀ i x, x < start ∨ start + i * block_size ≤ x → init_mem m start i x = m x
  | 0, _, _ => rfl
  | i + 1, x, hx => by
    simp only [init_mem, block_size, pred_ptr, succ_ptr, dsize, wsize, ptr_size] at hx ⊢
    rw [Mem.store_apply_of_not_mem (by omega), Mem.store_apply_of_not_mem (by omega),
      Mem.store_apply_of_not_mem (by omega), Mem.store_apply_of_not_mem (by omega),
      init_mem_of_not_mem i x (by simp only [block_size]; omega)]

/-- Later rounds keep the head records already written. -/
theorem init_mem_stable {j : Nat} : ∀ i x, j < i → x < start + (j + 1) * block_size →
    init_mem m start i x = init_mem m start (j + 1) x
  | 0, _, hj, _ => absurd hj (Nat.not_lt_zero _)
  | i + 1, x, hj, hx => by
    rcases Nat.lt_succ_iff_lt_or_eq.1 hj with hj | rfl
    · have hle : (j + 1) * block_size ≤ i * block_size := Nat.mul_le_mul_right _ hj
      conv_lhs => rw [init_mem]
      simp only [block_size, pred_ptr, succ_ptr, dsize, wsize, ptr_size] at hle hx ⊢
      rw [Mem.store_apply_of_not_mem (by omega), Mem.store_apply_of_not_mem (by omega),
        Mem.store_apply_of_not_mem (by omega), Mem.store_apply_of_not_mem (by omega),
        init_mem_stable i x hj (by simp only [block_size]; omega)]
    · rfl

/-- After the loop, head record `j` is an allocated block of `block_size` bytes whose `pred` and
    `succ` point to itself. -/
theorem init_mem_head (m : Mem) (start : Nat) {i j : Nat} (hj : j < i) (hfit : start + i * block_size < 2 ^ 64) :
    Tagged (init_mem m start i) (start + j * block_size) ⟨block_size, true⟩ ∧
      succ_of (init_mem m start i) (start + j * block_size) = start + j * block_size ∧
      pred_of (init_mem m start i) (start + j * block_size) = start + j * block_size := by
  have hle : (j + 1) * block_size ≤ i * block_size := Nat.mul_le_mul_right _ hj
  have hload : ∀ a k, a + k ≤ start + (j + 1) * block_size →
      (init_mem m start i).load a k = (init_mem m start (j + 1)).load a k := fun a k hak =>
    Mem.load_congr fun x hx => init_mem_stable i (a + x) hj (by omega)
  have hb : start + j * block_size < 2 ^ 64 := by
    simp only [block_size, Nat.succ_mul] at hle hfit ⊢; omega
  simp only [block_size, Nat.succ_mul] at hload
  simp only [block_size] at hb ⊢
  have h4 : pack 32 true < 256 ^ 4 := pack_lt _ _
  refine ⟨⟨?_, ?_⟩, ?_, ?_⟩
  · rw [hload _ _ (by omega)]
    simp only [init_mem, block_size, pred_ptr, succ_ptr, dsize, wsize, ptr_size]
    rw [Mem.load_store_of_disjoint (by omega), Mem.load_store_of_disjoint (by omega),
      Mem.load_store_of_disjoint (by omega), Mem.load_store_self, Nat.mod_eq_of_lt h4]
  · dsimp only
    rw [hload _ _ (by omega)]
    simp only [init_mem, block_size, pred_ptr, succ_ptr, dsize, wsize, ptr_size]
    rw [Mem.load_store_of_disjoint (by omega), Mem.load_store_of_disjoint (by omega),
      Mem.load_store_self, Nat.mod_eq_of_lt h4]
  · rw [succ_of, hload _ _ (by simp only [succ_ptr, dsize, wsize, ptr_size]; omega)]
    simp only [init_mem, block_size, pred_ptr, succ_ptr, dsize, wsize, ptr_size]
    rw [Mem.load_store_self, Nat.mod_eq_of_lt (by omega)]
  · rw [pred_of, hload _ _ (by simp only [pred_ptr, dsize, wsize, ptr_size]; omega)]
    simp only [init_mem, block_size, pred_ptr, succ_ptr, dsize, wsize, ptr_size]
    rw [Mem.load_store_of_disjoint (by omega), Mem.load_store_self, Nat.mod_eq_of_lt (by omega)]

end init_mem

theorem mem_layout_replicate_iff {n a p : Nat} {b c : Blk} :
    (p, b) ∈ layout a (List.replicate n c) ↔ ∃ k < n, p = a + k * c.size ∧ b = c := by
  induction n generalizing a with
  | zero => simp
  | succ n ih =>
    rw [List.replicate_succ, layout_cons, List.mem_cons, ih]
    constructor
    · rintro (h | ⟨k, hk, rfl, rfl⟩)
      · simp only [Prod.mk.injEq] at h
        exact ⟨0, by omega, by simp [h.1], h.2⟩
      · exact ⟨k + 1, by omega, by rw [Nat.succ_mul]; omega, rfl⟩
    · rintro ⟨k, hk, rfl, rfl⟩
      rcases k with _ | k
      · exact .inl (by simp)
      · exact .inr ⟨k, by omega, by rw [Nat.succ_mul]; omega, rfl⟩

/-- A heap not yet initialised: `heap_listp` is `NULL` and the region is still empty; the region
    lies in the 64-bit address space. -/
structure Fresh (s : State) : Prop where
  lo_pos : 0 < s.heap.lo
  fit : s.heap.lo + MAX_HEAP < 2 ^ 64
  brk_eq : s.heap.brk = s.heap.lo
  listp : s.heap_listp = 0

section mm_init

variable {s : State}

/-- The memory `mm_init` leaves before extending the heap: the head records, the prologue and the
    epilogue header after `start`. -/
def boot_mem (m : Mem) (start : Nat) : Mem :=
  let prologue := start + size_class_cnt * block_size
  (((init_mem m start size_class_cnt).store prologue 4 (pack block_size true)).store
    (prologue + block_size - 4) 4 (pack block_size true)).store (prologue + block_size) 4 (pack 0 true)

/-- The sentinels of a fresh region: the head records are rings of their own, the prologue and the
    epilogue are in place. -/
theorem boot_inv {h : Heap} {start : Nat} (hs : h.lo = start) (hlo : 0 < start)
    (hfit : start + MAX_HEAP < 2 ^ 64) (hbrk : h.brk = start + 552) :
    Inv ⟨{ h with mem := boot_mem h.mem start }, start + size_class_cnt * block_size, start⟩ [] (fun _ => []) := by
  subst hs
  set lo := h.lo
  have hmax : MAX_HEAP = 2 ^ 31 - 1 := rfl
  have hfar : ∀ x, x < lo + 512 → boot_mem h.mem lo x = init_mem h.mem lo size_class_cnt x := fun x hx => by
    simp only [boot_mem, size_class_cnt, block_size]
    rw [Mem.store_apply_of_not_mem (by omega), Mem.store_apply_of_not_mem (by omega),
      Mem.store_apply_of_not_mem (by omega)]
  have hhead : ∀ i < size_class_cnt, Tagged (boot_mem h.mem lo) (head lo i) ⟨block_size, true⟩ ∧
      succ_of (boot_mem h.mem lo) (head lo i) = head lo i ∧ pred_of (boot_mem h.mem lo) (head lo i) = head lo i := by
    intro i hi
    obtain ⟨⟨ht₁, ht₂⟩, hs, hp⟩ := init_mem_head h.mem lo hi
      (by simp only [size_class_cnt, block_size]; omega)
    simp only [head, size_class_cnt, block_size] at hi ⊢
    have hl : ∀ a k, a + k ≤ lo + 512 → (boot_mem h.mem lo).load a k = (init_mem h.mem lo 16).load a k :=
      fun a k hak => Mem.load_congr fun x hx => hfar _ (by omega)
    refine ⟨⟨?_, ?_⟩, ?_, ?_⟩
    · rw [hl _ _ (by omega)]; exact ht₁
    · dsimp only at ht₂ ⊢
      rw [hl _ _ (by omega)]; exact ht₂
    · rw [succ_of, hl _ _ (by simp only [succ_ptr, dsize, wsize, ptr_size]; omega)]; exact hs
    · rw [pred_of, hl _ _ (by simp only [pred_ptr, dsize, wsize, ptr_size]; omega)]; exact hp
  have h4 : ∀ al, pack 32 al < 256 ^ 4 := fun al => pack_lt _ _
  have h0 : pack 0 true < 256 ^ 4 := pack_lt _ _
  refine ⟨hlo, hfit, rfl, rfl, ⟨fun p c hp => ?_, ?_, le_rfl, by simp [hbrk], ?_, by decide⟩,
    by simp [hbrk, epilogue_size, dsize, wsize], by simp [Sized], by simp [hbrk, hmax],
    ⟨fun i hi => ?_, fun _ _ => List.nodup_nil, fun _ _ _ _ _ h => absurd h (List.not_mem_nil _),
      fun _ _ _ _ => List.not_mem_nil _, ?_⟩, fun i hi x => ?_⟩
  · rw [List.append_nil, sentinels, mem_layout_replicate_iff] at hp
    obtain ⟨k, hk, rfl, rfl⟩ := hp
    rcases Nat.lt_succ_iff_lt_or_eq.1 hk with hk | rfl
    · exact (hhead k hk).1
    · simp only [boot_mem, size_class_cnt, block_size]
      constructor
      · rw [Mem.load_store_of_disjoint (by omega), Mem.load_store_of_disjoint (by omega),
          Mem.load_store_self, Nat.mod_eq_of_lt (h4 true)]
      · dsimp only
        rw [Mem.load_store_of_disjoint (by omega), Mem.load_store_of_eq (by omega), Nat.mod_eq_of_lt (h4 true)]
  · simp only [boot_mem, List.append_nil, total_sentinels, size_class_cnt, block_size]
    rw [Mem.load_store_of_eq (by omega), Nat.mod_eq_of_lt h0]
  · intro c hc
    rw [List.append_nil, sentinels, List.mem_replicate] at hc
    simp [hc.2, block_size]
  · obtain ⟨-, hs, hp⟩ := hhead i hi
    exact ⟨hs, hp, trivial⟩
  · rintro x y ⟨i, hi, rfl | hx⟩ ⟨j, hj, rfl | hy⟩ hne
    · simp only [head, block_size] at hne ⊢
      rcases Nat.lt_or_gt_of_ne hne with h | h
      · left
        have : i < j := by
          by_contra hij
          have : j * 32 ≤ i * 32 := Nat.mul_le_mul_right _ (by omega)
          omega
        have : (i + 1) * 32 ≤ j * 32 := Nat.mul_le_mul_right _ this
        rw [Nat.succ_mul] at this
        omega
      · right
        have : j < i := by
          by_contra hij
          have : i * 32 ≤ j * 32 := Nat.mul_le_mul_right _ (by omega)
          omega
        have : (j + 1) * 32 ≤ i * 32 := Nat.mul_le_mul_right _ this
        rw [Nat.succ_mul] at this
        omega
    all_goals simp_all
  · simp only [List.not_mem_nil, false_iff, not_exists, not_and]
    intro S hS
    rw [List.append_nil, sentinels, mem_layout_replicate_iff] at hS
    obtain ⟨k, -, -, h⟩ := hS
    simp at h

/-- A successful `mm_init` leaves a well-formed heap with no allocated block. -/
theorem mm_init_spec {s₀ : State} (h0 : Fresh s₀) (hinit : mm_init s₀ = .ok (s, 0)) :
    ∃ bs ls, Inv s bs ls ∧ s.heap.lo = s₀.heap.lo ∧ allocs (first_block s) bs = [] := by
  have hlo := h0.lo_pos
  have hbrk := h0.brk_eq
  have hmax : MAX_HEAP = 2 ^ 31 - 1 := rfl
  by_cases hg : s₀.heap.grants 0 = true ∧
      s₀.heap.brk + (size_class_cnt * block_size + prologue_size + epilogue_size) ≤ s₀.heap.lo + MAX_HEAP
  swap
  · simp only [mm_init, Heap.mem_sbrk, if_neg hg, pure_eq_ok, Except.ok.injEq, Prod.mk.injEq] at hinit
    exact absurd hinit.2 (by decide)
  set b := s₀.heap.brk
  set h₁ : Heap := { s₀.heap with grants := fun i => s₀.heap.grants (i + 1), brk := b + 552 }
  have hrun : mm_init s₀ = (do
      let (s, block) ← extend_heap ⟨{ h₁ with mem := boot_mem h₁.mem b }, b + size_class_cnt * block_size, b⟩
        chunksize
      pure (s, if block = 0 then (-1 : Int) else 0)) := by
    simp only [mm_init, Heap.mem_sbrk, if_pos hg]
    rw [init_seglist_eq (by simp; omega) size_class_cnt (by simp [size_class_cnt, block_size, prologue_size, epilogue_size, min_block_size, ptr_size, dsize, wsize]), ok_bind,
      write_header_eq (by simp; omega) (by simp [size_class_cnt, block_size, prologue_size, epilogue_size, min_block_size, ptr_size, dsize, wsize]), ok_bind,
      write_footer_of_header (by simp; omega) (by simp [size_class_cnt, block_size, prologue_size, epilogue_size, min_block_size, ptr_size, dsize, wsize]) (by decide)
        (by decide) (by decide), ok_bind,
      write_header_eq (by simp; omega) (by simp [size_class_cnt, block_size, prologue_size, epilogue_size, min_block_size, ptr_size, dsize, wsize]), ok_bind]
    rfl
  have hinv₁ := boot_inv (h := h₁) hbrk.symm (by omega) (by rw [hbrk]; exact h0.fit) rfl
  obtain ⟨s₂, r, hext, -, hseg₂, hlo₂, ⟨rfl, -⟩ | ⟨bs', ls', S, hinv₂, -, -, hallocs, -⟩⟩ :=
    extend_heap_spec hinv₁ le_rfl (by decide)
  · rw [hrun, hext] at hinit
    simp only [ok_bind, if_true, pure_eq_ok, Except.ok.injEq, Prod.mk.injEq] at hinit
    exact absurd hinit.2 (by decide)
  · rw [hrun, hext] at hinit
    simp only [ok_bind, pure_eq_ok, Except.ok.injEq, Prod.mk.injEq] at hinit
    obtain ⟨rfl, -⟩ := hinit
    exact ⟨bs', ls', hinv₂, hlo₂, by simpa [first_block, hseg₂] using hallocs⟩

end mm_init

/-- The splices of the free lists over any store of 16 rings: `insert_free_block` of a block `b` of
    size `S`, clear of every node, puts `b` first on list `get_seglist_idx S`; `remove_from_free_list`
    of a node `b` of list `i` deletes it from that list, between its neighbours on the ring. The
    other lists are kept, the lists stay well-formed, and only the link words of `b` and of its
    neighbours are written. -/
theorem free_list_splices :
    (∀ (s : State) (ls : Nat → List Nat) (b S : Nat), Lists s.heap.mem s.seglist ls →
      s.heap.brk < 2 ^ 64 →
      (∀ x, Node s.seglist ls x → s.heap.lo ≤ x ∧ x + 32 ≤ s.heap.brk ∧ (x + 32 ≤ b ∨ b + 32 ≤ x)) →
      s.heap.lo ≤ b → b + 32 ≤ s.heap.brk → get_size s.heap b = .ok S →
      ∃ m, insert_free_block s b = .ok { s with heap := { s.heap with mem := m } } ∧
        Lists m s.seglist (Function.update ls (get_seglist_idx S) (b :: ls (get_seglist_idx S))) ∧
        Relinks (fun y => y = b ∨ y = head s.seglist (get_seglist_idx S) ∨
          y = (ls (get_seglist_idx S)).headD (head s.seglist (get_seglist_idx S))) s.heap.mem m) ∧
    ∀ (h : Heap) (lo : Nat) (ls : Nat → List Nat) (i b : Nat), Lists h.mem lo ls → h.brk < 2 ^ 64 →
      (∀ x, Node lo ls x → h.lo ≤ x ∧ x + 32 ≤ h.brk) → i < size_class_cnt → b ∈ ls i →
      ∃ m, remove_from_free_list h b = .ok { h with mem := m } ∧
        Lists m lo (Function.update ls i ((ls i).erase b)) ∧
        Relinks (fun y => y = pred_of h.mem b ∨ y = succ_of h.mem b) h.mem m ∧
        pred_of h.mem b ∈ head lo i :: ls i ∧ succ_of h.mem b ∈ head lo i :: ls i := by
  refine ⟨fun s ls b S hl hfit hgeo hlo hhi hS => ?_, fun h lo ls i b hl hfit hgeo hi hb => ?_⟩
  · exact ⟨_, insert_free_block_spec hl hfit hgeo hlo hhi hS⟩
  · obtain ⟨hp, -, hn, -⟩ := hl.neighbours hi hb
    obtain ⟨hrun, hlists, hrel⟩ := remove_from_free_list_spec hl hfit hgeo hi hb
    exact ⟨_, hrun, hlists, hrel, hp, hn⟩

/-- A property of every head and of every list node holds of every node. -/
theorem Node.of_forall {lo : Nat} {ls : Nat → List Nat} {P : Nat → Prop} (hh : ∀ i < size_class_cnt, P (head lo i))
    (hl : ∀ i < size_class_cnt, ∀ x ∈ ls i, P x) : ∀ x, Node lo ls x → P x := by
  rintro x ⟨i, hi, rfl | hx⟩
  exacts [hh i hi, hl i hi x hx]

/-- The region at 16 with the sentinels of `mm_init` and three free blocks of 32 bytes at 560, 592
    and 624 on no list. -/
def spare : State :=
  ⟨⟨(((boot_mem (fun _ => 0) 16).store 560 4 (pack 32 false)).store 592 4 (pack 32 false)).store 624 4
    (pack 32 false), 16, 664, fun _ => true⟩, 528, 16⟩

/-- The state `insert_free_block` leaves, or the state itself when it faults. -/
def inserted (s : State) (b : Nat) : State :=
  match insert_free_block s b with
  | .ok s' => s'
  | .error _ => s

/-- `spare` after the insertion of 560, 592 and 624 in turn: list 0 runs 624, 592, 560. -/
def spare_filed : State := inserted (inserted (inserted spare 560) 592) 624

theorem free_list_splices_spare :
    Lists spare_filed.heap.mem 16 (Function.update (fun _ => []) (get_seglist_idx 32) [624, 592, 560]) ∧
    ∃ m, remove_from_free_list spare_filed.heap 592 = .ok { spare_filed.heap with mem := m } ∧
      Lists m 16 (Function.update (fun _ => []) (get_seglist_idx 32) [624, 560]) := by
  have hhead : ∀ i < size_class_cnt, 16 ≤ head 16 i ∧ head 16 i + 32 ≤ 528 := fun i hi => by
    simp only [head, block_size, size_class_cnt] at hi ⊢; omega
  have hl₀ : Lists spare.heap.mem 16 (fun _ => []) := by
    have hw : ∀ w, 528 ≤ w → ∀ x, Node 16 (fun _ => []) x → w + 4 ≤ x + 8 ∨ x + 24 ≤ w := fun w hw =>
      Node.of_forall (fun i hi => by have := hhead i hi; omega) fun _ _ _ hx => absurd hx (List.not_mem_nil _)
    exact (((boot_inv (h := ⟨fun _ => 0, 16, 568, fun _ => true⟩) rfl (by decide) (by decide) rfl).lists.store_away
      (hw 560 (by decide))).store_away (hw 592 (by decide))).store_away (hw 624 (by decide))
  -- each insertion of a block `b` of 32 bytes clear of every node and inside `[16, 664)`
  have step : ∀ (s : State) (ls : Nat → List Nat) (b : Nat), Lists s.heap.mem 16 ls → s.seglist = 16 →
      s.heap.lo = 16 → s.heap.brk = 664 →
      (∀ i < size_class_cnt, ∀ x ∈ ls i, 560 ≤ x ∧ x + 32 ≤ 664 ∧ (x + 32 ≤ b ∨ b + 32 ≤ x)) →
      560 ≤ b → b + 32 ≤ 664 → get_size s.heap b = .ok 32 →
      Lists (inserted s b).heap.mem 16 (Function.update ls (get_seglist_idx 32) (b :: ls (get_seglist_idx 32))) := by
    intro s ls b hl hseg hlo hbrk hls hb₁ hb₂ hS
    have hgeo : ∀ x, Node 16 ls x → 16 ≤ x ∧ x + 32 ≤ 664 ∧ (x + 32 ≤ b ∨ b + 32 ≤ x) :=
      Node.of_forall (fun i hi => by have := hhead i hi; omega) fun i hi x hx => by have := hls i hi x hx; omega
    rw [← hseg] at hl
    obtain ⟨m, hrun, hl', -⟩ := free_list_splices.1 s ls b 32 hl (by omega) (by rw [hseg, hlo, hbrk]; exact hgeo)
      (by omega) (by omega) hS
    rw [hseg] at hl'
    simpa only [inserted, hrun] using hl'
  have hl₃ := step _ _ 624 (step _ _ 592 (step spare _ 560 hl₀ rfl rfl rfl (by decide) (by decide) (by decide) rfl)
    rfl rfl rfl (by decide) (by decide) (by decide) rfl) rfl rfl rfl (by decide) (by decide) (by decide) rfl
  simp only [Function.update_idem, Function.update_same] at hl₃
  refine ⟨hl₃, ?_⟩
  obtain ⟨m, hrun, hl, -⟩ := free_list_splices.2 spare_filed.heap 16 _ _ 592 hl₃ (by decide)
    (show ∀ x, Node 16 _ x → 16 ≤ x ∧ x + 32 ≤ 664 from
      Node.of_forall (fun i hi => by have := hhead i hi; omega) (by decide)) (get_seglist_idx_lt 32)
    (by simp)
  simp only [Function.update_idem, Function.update_same] at hl
  exact ⟨m, hrun, hl⟩

end malloc_lab.segregated
