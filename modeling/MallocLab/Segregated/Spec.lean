import MallocLab.Segregated.Lists
import MallocLab.Segregated.Class
import MallocLab.Live

namespace malloc_lab.segregated

/-- The 16 size-class head records and the prologue: allocated blocks of `block_size` bytes from
    the start of the heap. -/
def sentinels : List Blk := List.replicate (size_class_cnt + 1) ⟨block_size, true⟩

@[simp] theorem total_sentinels : total sentinels = 544 := rfl

/-- The lists `ls` file the free blocks of the chain `full` laid out from `lo`: list `i` holds
    exactly the free blocks of size class `i`. -/
def Filed (lo : Nat) (full : List Blk) (ls : Nat → List Nat) : Prop :=
  ∀ i < size_class_cnt, ∀ x, x ∈ ls i ↔ ∃ S, (x, ⟨S, false⟩) ∈ layout lo full ∧ get_seglist_idx S = i

/-- Memory `m'` differs from `m` only in the head records and inside free blocks of `full`. -/
def Scratch (lo : Nat) (full : List Blk) (m m' : Mem) : Prop :=
  ∀ x, m' x ≠ m x → x < lo + size_class_cnt * block_size ∨
    ∃ q S, (q, ⟨S, false⟩) ∈ layout lo full ∧ q ≤ x ∧ x < q + S

/-- Memory `m'` differs from `m` only in link words of blocks `N` holds of. -/
def Relinks (N : Nat → Prop) (m m' : Mem) : Prop :=
  ∀ x, m' x ≠ m x → ∃ y, N y ∧ y + 8 ≤ x ∧ x < y + 24

/-- The head records are blocks of `full`: allocated, of `block_size` bytes, from `lo` on. -/
def Heads (lo : Nat) (full : List Blk) : Prop :=
  ∀ i < size_class_cnt, (head lo i, ⟨block_size, true⟩) ∈ layout lo full

/-- `y` is a head record, or lies with its link words inside a free block of `full`. -/
def Spare (lo : Nat) (full : List Blk) (y : Nat) : Prop :=
  (∃ i < size_class_cnt, y = head lo i) ∨ ∃ q S, (q, ⟨S, false⟩) ∈ layout lo full ∧ q ≤ y ∧ y + 32 ≤ q + S

section layout

variable {lo p q : Nat} {c d : Blk} {bs : List Blk}

theorem mem_layout_replicate {n k a : Nat} (hk : k < n) :
    (a + k * c.size, c) ∈ layout a (List.replicate n c) := by
  induction n generalizing a k with
  | zero => omega
  | succ n ih =>
    rw [List.replicate_succ, layout_cons]
    rcases k with _ | k
    · simp
    · have := ih (a := a + c.size) (k := k) (by omega)
      rw [Nat.succ_mul, Nat.add_comm (k * c.size), ← Nat.add_assoc]
      exact List.mem_cons_of_mem _ this

/-- The head records are the first blocks of the chain. -/
theorem heads_sentinels : Heads lo (sentinels ++ bs) := fun i hi => by
  rw [layout_append]
  exact List.mem_append_left _ (mem_layout_replicate (by simp only [size_class_cnt] at hi ⊢; omega))

theorem Heads.append {l₁ l₂ : List Blk} (hh : Heads lo l₁) : Heads lo (l₁ ++ l₂) := fun i hi => by
  rw [layout_append]
  exact List.mem_append_left _ (hh i hi)

/-- Distinct blocks of a chain of blocks of at least 32 bytes lie a block apart. -/
theorem far_of_layout (hsz : ∀ e ∈ bs, 32 ≤ e.size) (hp : (p, c) ∈ layout lo bs)
    (hq : (q, d) ∈ layout lo bs) (hne : p ≠ q) : p + 32 ≤ q ∨ q + 32 ≤ p := by
  have hc := hsz c (mem_layout hp).1
  have hd := hsz d (mem_layout hq).1
  have := layout_disjoint hp hq hne
  omega

theorem sized_sentinels (h : Sized min_block_size bs) : Sized min_block_size (sentinels ++ bs) :=
  Sized.append.2 ⟨fun b hb => by
    rw [sentinels, List.mem_replicate] at hb
    rw [hb.2]
    decide, h⟩

end layout

section lists

variable {m m' : Mem} {lo : Nat} {ls : Nat → List Nat} {bs : List Blk} {x : Nat}

/-- A node of the filed lists is a head record or a free block of the chain. -/
theorem Filed.block {full : List Blk} (hf : Filed lo full ls) (hh : Heads lo full) (hx : Node lo ls x) :
    ∃ c, (x, c) ∈ layout lo full ∧ (c.alloc = false ∨ ∃ i < size_class_cnt, x = head lo i) := by
  obtain ⟨i, hi, rfl | hx⟩ := hx
  · exact ⟨_, hh i hi, .inr ⟨i, hi, rfl⟩⟩
  · obtain ⟨S, hS, -⟩ := (hf i hi x).1 hx
    exact ⟨_, hS, .inl rfl⟩

theorem Filed.spare {full : List Blk} (hf : Filed lo full ls) (hsz : ∀ c ∈ full, 32 ≤ c.size)
    (hx : Node lo ls x) : Spare lo full x := by
  obtain ⟨i, hi, rfl | hx⟩ := hx
  · exact .inl ⟨i, hi, rfl⟩
  · obtain ⟨S, hS, -⟩ := (hf i hi _).1 hx
    exact .inr ⟨_, S, hS, le_rfl, by have := hsz _ (mem_layout hS).1; dsimp only at this; omega⟩

/-- Lists that file the same free blocks of two chains file both. -/
theorem Filed.congr {full full' : List Blk} (hf : Filed lo full ls)
    (hfree : ∀ x S, (x, ⟨S, false⟩) ∈ layout lo full' ↔ (x, ⟨S, false⟩) ∈ layout lo full) :
    Filed lo full' ls := fun i hi x => by
  rw [hf i hi x]
  simp only [hfree]

/-- The lists read only the link words of their nodes. -/
theorem Lists.congr (hl : Lists m lo ls)
    (hm : ∀ x, Node lo ls x → ∀ j < 16, m' (x + 8 + j) = m (x + 8 + j)) : Lists m' lo ls := by
  refine ⟨fun i hi => (hl.ring i hi).congr fun x hx => ⟨?_, ?_⟩, hl.nodup, hl.unique, hl.no_head, hl.apart⟩
  · refine Mem.load_congr fun j hj => ?_
    have := hm x (Lists.node_of_mem_cons hi hx) (8 + j) (by simp only [ptr_size] at hj; omega)
    rwa [show x + 8 + (8 + j) = succ_ptr x + j by simp only [succ_ptr, dsize, wsize, ptr_size]; omega] at this
  · refine Mem.load_congr fun j hj => ?_
    have := hm x (Lists.node_of_mem_cons hi hx) j (by simp only [ptr_size] at hj; omega)
    rwa [show x + 8 + j = pred_ptr x + j by simp only [pred_ptr, dsize, wsize]] at this

/-- A store clear of every node's link words keeps the lists. -/
theorem Lists.store_away (hl : Lists m lo ls) {w k v : Nat}
    (hw : ∀ x, Node lo ls x → w + k ≤ x + 8 ∨ x + 24 ≤ w) : Lists (m.store w k v) lo ls :=
  hl.congr fun x hx j hj => Mem.store_apply_of_not_mem (by have := hw x hx; omega)

end lists

section scratch

variable {lo : Nat} {full full' : List Blk} {m₁ m₂ m₃ : Mem}

theorem Scratch.refl : Scratch lo full m₁ m₁ := fun _ h => absurd rfl h

theorem Scratch.trans (h₁ : Scratch lo full m₁ m₂) (h₂ : Scratch lo full m₂ m₃) : Scratch lo full m₁ m₃ :=
  fun x hx => if h : m₃ x = m₂ x then h₁ x (h ▸ hx) else h₂ x h

/-- Scratch space of a chain stays scratch space of a chain whose free blocks cover its free
    blocks. -/
theorem Scratch.mono (h : Scratch lo full m₁ m₂)
    (hsub : ∀ q S x, (q, ⟨S, false⟩) ∈ layout lo full → q ≤ x → x < q + S →
      ∃ q' S', (q', ⟨S', false⟩) ∈ layout lo full' ∧ q' ≤ x ∧ x < q' + S') :
    Scratch lo full' m₁ m₂ := fun x hx => by
  rcases h x hx with h | ⟨q, S, hq, h1, h2⟩
  · exact .inl h
  · exact .inr (hsub q S x hq h1 h2)

/-- Scratch space misses every allocated block after the head records. -/
theorem Scratch.apply_alloc (h : Scratch lo full m₁ m₂) (hpos : ∀ c ∈ full, 0 < c.size) {q c x : Nat}
    (hq : (q, ⟨c, true⟩) ∈ layout lo full) (hq' : lo + size_class_cnt * block_size ≤ q) (h1 : q ≤ x)
    (h2 : x < q + c) : m₂ x = m₁ x := by
  by_contra hx
  rcases h x hx with h | ⟨r, S, hr, h3, h4⟩
  · omega
  · have hne : q ≠ r := by
      rintro rfl
      simpa using layout_unique hpos hq hr
    have := layout_disjoint hq hr hne
    dsimp only at this
    omega

/-- Changes in the scratch space keep every allocated block of the real blocks. -/
theorem Scratch.keeps {bs : List Blk} (h : Scratch lo (sentinels ++ bs) m₁ m₂)
    (hpos : ∀ b ∈ bs, 0 < b.size) : Keeps m₁ m₂ (allocs (lo + total sentinels) bs) := by
  rintro p ⟨c, al⟩ hp x h1 h2
  obtain ⟨hp', hpa⟩ := List.mem_filter.1 hp
  obtain rfl : al = true := by simpa using hpa
  have hlo := (mem_layout hp').2.1
  simp only [total_sentinels] at hlo
  refine h.apply_alloc (fun b hb => ?_) (by rw [layout_append]; exact List.mem_append_right _ hp')
    (by simp only [size_class_cnt, block_size]; omega) h1 h2
  rcases List.mem_append.1 hb with hb | hb
  · rw [sentinels, List.mem_replicate] at hb
    simp [hb.2, block_size]
  · exact hpos b hb

end scratch

section splices

variable {h : Heap} {x v : Nat}

theorem read_succ (hlo : h.lo ≤ x) (hhi : x + 24 ≤ h.brk) :
    h.read (succ_ptr x) ptr_size = .ok (succ_of h.mem x) :=
  Heap.read_of_mem (by simp only [succ_ptr, dsize, wsize]; omega)
    (by simp only [succ_ptr, dsize, wsize, ptr_size]; omega)

theorem read_pred (hlo : h.lo ≤ x) (hhi : x + 24 ≤ h.brk) :
    h.read (pred_ptr x) ptr_size = .ok (pred_of h.mem x) :=
  Heap.read_of_mem (by simp only [pred_ptr, dsize, wsize]; omega)
    (by simp only [pred_ptr, dsize, wsize, ptr_size]; omega)

theorem write_succ (hlo : h.lo ≤ x) (hhi : x + 24 ≤ h.brk) :
    h.write (succ_ptr x) ptr_size v = .ok { h with mem := h.mem.store (succ_ptr x) ptr_size v } :=
  Heap.write_of_mem (by simp only [succ_ptr, dsize, wsize]; omega)
    (by simp only [succ_ptr, dsize, wsize, ptr_size]; omega)

theorem write_pred (hlo : h.lo ≤ x) (hhi : x + 24 ≤ h.brk) :
    h.write (pred_ptr x) ptr_size v = .ok { h with mem := h.mem.store (pred_ptr x) ptr_size v } :=
  Heap.write_of_mem (by simp only [pred_ptr, dsize, wsize]; omega)
    (by simp only [pred_ptr, dsize, wsize, ptr_size]; omega)

/-- The same four accesses on the heap `h` with its memory replaced. -/
theorem read_succ_mk (m : Mem) (hlo : h.lo ≤ x) (hhi : x + 24 ≤ h.brk) :
    ({ h with mem := m } : Heap).read (succ_ptr x) ptr_size = .ok (succ_of m x) :=
  read_succ (h := { h with mem := m }) hlo hhi

theorem read_pred_mk (m : Mem) (hlo : h.lo ≤ x) (hhi : x + 24 ≤ h.brk) :
    ({ h with mem := m } : Heap).read (pred_ptr x) ptr_size = .ok (pred_of m x) :=
  read_pred (h := { h with mem := m }) hlo hhi

theorem write_succ_mk (m : Mem) (hlo : h.lo ≤ x) (hhi : x + 24 ≤ h.brk) :
    ({ h with mem := m } : Heap).write (succ_ptr x) ptr_size v =
      .ok { h with mem := m.store (succ_ptr x) ptr_size v } :=
  write_succ (h := { h with mem := m }) hlo hhi

theorem write_pred_mk (m : Mem) (hlo : h.lo ≤ x) (hhi : x + 24 ≤ h.brk) :
    ({ h with mem := m } : Heap).write (pred_ptr x) ptr_size v =
      .ok { h with mem := m.store (pred_ptr x) ptr_size v } :=
  write_pred (h := { h with mem := m }) hlo hhi

variable {s : State} {ls : Nat → List Nat} {b S i lo : Nat}

/-- `insert_free_block` of a block lying a block away from every node links it in first on the
    list of its size class, and writes only link words of it and of nodes. -/
theorem insert_free_block_spec (hl : Lists s.heap.mem s.seglist ls) (hfit : s.heap.brk < 2 ^ 64)
    (hgeo : ∀ x, Node s.seglist ls x → s.heap.lo ≤ x ∧ x + 32 ≤ s.heap.brk ∧ (x + 32 ≤ b ∨ b + 32 ≤ x))
    (hlo : s.heap.lo ≤ b) (hhi : b + 32 ≤ s.heap.brk) (hS : get_size s.heap b = .ok S) :
    insert_free_block s b = .ok { s with heap := { s.heap with mem :=
        (linked_in s.heap.mem (head s.seglist (get_seglist_idx S))
          ((ls (get_seglist_idx S)).headD (head s.seglist (get_seglist_idx S))) b) } } ∧
      Lists (linked_in s.heap.mem (head s.seglist (get_seglist_idx S))
          ((ls (get_seglist_idx S)).headD (head s.seglist (get_seglist_idx S))) b) s.seglist
        (Function.update ls (get_seglist_idx S) (b :: ls (get_seglist_idx S))) ∧
      Relinks (fun y => y = b ∨ y = head s.seglist (get_seglist_idx S) ∨
          y = (ls (get_seglist_idx S)).headD (head s.seglist (get_seglist_idx S))) s.heap.mem
        (linked_in s.heap.mem (head s.seglist (get_seglist_idx S))
          ((ls (get_seglist_idx S)).headD (head s.seglist (get_seglist_idx S))) b) := by
  have hi := get_seglist_idx_lt S
  set i := get_seglist_idx S
  set hd := head s.seglist i
  set f := (ls i).headD hd
  have hf : f ∈ hd :: ls i := by rcases hls : ls i with _ | ⟨g, t⟩ <;> simp [f, hls]
  obtain ⟨hh1, hh2, hh3⟩ := hgeo hd (Lists.node_head hi)
  obtain ⟨hf1, hf2, hf3⟩ := hgeo f (Lists.node_of_mem_cons hi hf)
  have hsucc : succ_of s.heap.mem hd = f := (hl.ring i hi).succ_head
  have hhead : s.seglist + i * block_size = hd := rfl
  have hb24 : b + 24 ≤ s.heap.brk := by omega
  have hh24 : hd + 24 ≤ s.heap.brk := by omega
  have hf24 : f + 24 ≤ s.heap.brk := by omega
  refine ⟨?_, hl.insert hi (fun x hx => (hgeo x hx).2.2) (fun x hx => by have := (hgeo x hx).2.1; omega)
    (by omega), fun y hy => ?_⟩
  · simp only [insert_free_block, hS, ok_bind, hhead]
    rw [write_pred hlo hb24, ok_bind, read_succ_mk _ hh1 hh24, ok_bind, succ_of_store_pred (by omega), hsucc,
      write_succ_mk _ hlo hb24, ok_bind, read_pred_mk _ hlo hb24, ok_bind, pred_of_store_succ (by omega),
      pred_of_store_self (by omega), write_succ_mk _ hh1 hh24, ok_bind, read_succ_mk _ hlo hb24, ok_bind,
      succ_of_store_succ (by omega), succ_of_store_self (by omega), write_pred_mk _ hf1 hf24]
    rfl
  · by_cases h1 : hd + 8 ≤ y ∧ y < hd + 24
    · exact ⟨hd, .inr (.inl rfl), h1⟩
    by_cases h2 : f + 8 ≤ y ∧ y < f + 24
    · exact ⟨f, .inr (.inr rfl), h2⟩
    by_cases h3 : b + 8 ≤ y ∧ y < b + 24
    · exact ⟨b, .inl rfl, h3⟩
    exact absurd (linked_in_apply (by omega) (by omega) (by omega)) hy

/-- `remove_from_free_list` of a node of list `i` unlinks it from between its neighbours, and
    writes only their link words. -/
theorem remove_from_free_list_spec (hl : Lists h.mem lo ls) (hfit : h.brk < 2 ^ 64)
    (hgeo : ∀ x, Node lo ls x → h.lo ≤ x ∧ x + 32 ≤ h.brk) (hi : i < size_class_cnt) (hb : b ∈ ls i) :
    remove_from_free_list h b = .ok { h with mem := unlinked h.mem (pred_of h.mem b) (succ_of h.mem b) } ∧
      Lists (unlinked h.mem (pred_of h.mem b) (succ_of h.mem b)) lo (Function.update ls i ((ls i).erase b)) ∧
      Relinks (fun y => y = pred_of h.mem b ∨ y = succ_of h.mem b) h.mem
        (unlinked h.mem (pred_of h.mem b) (succ_of h.mem b)) := by
  obtain ⟨hp, hpb, hn, hnb⟩ := hl.neighbours hi hb
  set p := pred_of h.mem b
  set n := succ_of h.mem b
  have hbN : Node lo ls b := Lists.node_mem hi hb
  have hpN : Node lo ls p := Lists.node_of_mem_cons hi hp
  have hnN : Node lo ls n := Lists.node_of_mem_cons hi hn
  obtain ⟨hb1, hb2⟩ := hgeo b hbN
  obtain ⟨hp1, hp2⟩ := hgeo p hpN
  obtain ⟨hn1, hn2⟩ := hgeo n hnN
  have hfp := hl.far hpN hbN hpb
  have hfn := hl.far hnN hbN hnb
  refine ⟨?_, hl.remove hi hb (fun x hx => by have := (hgeo x hx).2; omega), fun y hy => ?_⟩
  · simp only [remove_from_free_list]
    rw [read_pred hb1 (by omega), ok_bind, read_succ hb1 (by omega), ok_bind, write_succ hp1 (by omega), ok_bind,
      read_succ_mk _ hb1 (by omega), ok_bind, succ_of_store_succ (by omega),
      read_pred_mk _ hb1 (by omega), ok_bind, pred_of_store_succ (by omega), write_pred_mk _ hn1 (by omega)]
    rfl
  · by_cases h1 : p + 8 ≤ y ∧ y < p + 24
    · exact ⟨p, .inl rfl, h1⟩
    by_cases h2 : n + 8 ≤ y ∧ y < n + 24
    · exact ⟨n, .inr rfl, h2⟩
    exact absurd (unlinked_apply (by omega) (by omega)) hy

end splices

section frames

variable {lo : Nat} {full full' : List Blk} {N N' : Nat → Prop} {m₁ m₂ m₃ : Mem}

theorem Relinks.refl : Relinks N m₁ m₁ := fun _ h => absurd rfl h

theorem Relinks.mono (h : Relinks N m₁ m₂) (hN : ∀ y, N y → N' y) : Relinks N' m₁ m₂ := fun x hx => by
  obtain ⟨y, hy, h1, h2⟩ := h x hx
  exact ⟨y, hN y hy, h1, h2⟩

theorem Relinks.trans (h₁ : Relinks N m₁ m₂) (h₂ : Relinks N m₂ m₃) : Relinks N m₁ m₃ :=
  fun x hx => if h : m₃ x = m₂ x then h₁ x (h ▸ hx) else h₂ x h

/-- Link words of spare blocks are scratch space. -/
theorem Relinks.scratch (h : Relinks (Spare lo full) m₁ m₂) : Scratch lo full m₁ m₂ := fun x hx => by
  obtain ⟨y, hy | ⟨q, S, hq, h1, h2⟩, h3, h4⟩ := h x hx
  · obtain ⟨i, hi, rfl⟩ := hy
    left
    simp only [head, size_class_cnt, block_size] at hi h4 ⊢
    omega
  · exact .inr ⟨q, S, hq, by omega, by omega⟩

/-- Writes to link words of spare blocks keep the chain. -/
theorem Chain.relink {h : Heap} (hc : Chain h lo full) (hh : Heads lo full)
    (hr : Relinks (Spare lo full) h.mem m₁) : Chain { h with mem := m₁ } lo full :=
  hc.interior fun x hx => by
    obtain ⟨y, hy | ⟨q, S, hq, h1, h2⟩, h3, h4⟩ := hr x hx
    · obtain ⟨i, hi, rfl⟩ := hy
      exact ⟨_, _, hh i hi, by omega, by simp only [block_size]; omega⟩
    · exact ⟨q, ⟨S, false⟩, hq, by omega, by dsimp only; omega⟩

/-- Spare blocks stay spare in a chain whose free blocks cover the old free blocks. -/
theorem Spare.mono {y : Nat} (h : Spare lo full y)
    (hcov : ∀ q S, (q, ⟨S, false⟩) ∈ layout lo full →
      ∃ q' S', (q', ⟨S', false⟩) ∈ layout lo full' ∧ q' ≤ q ∧ q + S ≤ q' + S') : Spare lo full' y := by
  rcases h with h | ⟨q, S, hq, h1, h2⟩
  · exact .inl h
  · obtain ⟨q', S', hq', h3, h4⟩ := hcov q S hq
    exact .inr ⟨q', S', hq', by omega, by omega⟩

theorem Scratch.of_block {q S : Nat} (hq : (q, ⟨S, false⟩) ∈ layout lo full)
    (h : ∀ x, x < q ∨ q + S ≤ x → m₂ x = m₁ x) : Scratch lo full m₁ m₂ := fun x hx =>
  .inr ⟨q, S, hq, by by_contra h'; exact hx (h x (by omega)), by by_contra h'; exact hx (h x (by omega))⟩

end frames

section filing

variable {a x S S' : Nat} {l₁ l₂ : List Blk}

/-- Marking the block after `l₁` free adds it to the free blocks of the layout. -/
theorem mem_layout_flip :
    (x, ⟨S', false⟩) ∈ layout a (l₁ ++ ⟨S, false⟩ :: l₂) ↔
      (x = a + total l₁ ∧ S' = S) ∨ (x, ⟨S', false⟩) ∈ layout a (l₁ ++ ⟨S, true⟩ :: l₂) := by
  simp only [layout_append, layout_cons, List.mem_append, List.mem_cons, Prod.mk.injEq, Blk.mk.injEq,
    Bool.false_eq_true, and_false, false_or]
  constructor
  · rintro (h | ⟨rfl, rfl, -⟩ | h)
    · exact .inr (.inl h)
    · exact .inl ⟨rfl, rfl⟩
    · exact .inr (.inr h)
  · rintro (⟨rfl, rfl⟩ | h | h)
    · exact .inr (.inl ⟨rfl, rfl, trivial⟩)
    · exact .inl h
    · exact .inr (.inr h)

/-- Replacing allocated blocks by allocated blocks of the same total keeps the free blocks. -/
theorem free_congr {mid : List Blk} (mid' : List Blk) (hm : ∀ c ∈ mid, c.alloc = true) (hm' : ∀ c ∈ mid', c.alloc = true)
    (ht : total mid' = total mid) :
    (x, ⟨S, false⟩) ∈ layout a (l₁ ++ mid' ++ l₂) ↔ (x, ⟨S, false⟩) ∈ layout a (l₁ ++ mid ++ l₂) := by
  simp only [layout_append, List.mem_append, total_append, ht]
  have h1 : (x, ⟨S, false⟩) ∉ layout (a + total l₁) mid := fun h => by
    simpa using hm _ (mem_layout h).1
  have h2 : (x, ⟨S, false⟩) ∉ layout (a + total l₁) mid' := fun h => by
    simpa using hm' _ (mem_layout h).1
  simp only [h1, h2, or_false]

end filing

section filed_splices

variable {m : Mem} {lo : Nat} {ls : Nat → List Nat} {full : List Blk} {S : Nat} {l₁ l₂ : List Blk}

/-- Storing a header or a footer word of a block of the filing chain keeps the lists. -/
theorem Lists.store_tag (hl : Lists m lo ls) (hf : Filed lo full ls) (hh : Heads lo full)
    (hsz : ∀ c ∈ full, 32 ≤ c.size) {q : Nat} {c : Blk} (hq : (q, c) ∈ layout lo full) {w v : Nat}
    (hw : w = q ∨ w + 4 = q + c.size) : Lists (m.store w 4 v) lo ls :=
  hl.store_away fun x hx => by
    obtain ⟨d, hd, -⟩ := hf.block hh hx
    have hc := hsz c (mem_layout hq).1
    have hd32 := hsz d (mem_layout hd).1
    by_cases hxq : x = q
    · subst hxq
      have := layout_unique (fun e he => by have := hsz e he; omega) hd hq
      subst this
      omega
    · have := layout_disjoint hd hq hxq
      omega

theorem sizes_of {l l' : List Blk} (hsz : ∀ c ∈ l, 32 ≤ c.size) (hmap : l'.map Blk.size = l.map Blk.size) :
    ∀ c ∈ l', 32 ≤ c.size := fun c hc => by
  have : c.size ∈ l.map Blk.size := hmap ▸ List.mem_map_of_mem _ hc
  obtain ⟨d, hd, hdc⟩ := List.mem_map.1 this
  exact hdc ▸ hsz d hd

theorem sizes_flip (hsz : ∀ c ∈ l₁ ++ ⟨S, false⟩ :: l₂, 32 ≤ c.size) (al : Bool) :
    ∀ c ∈ l₁ ++ ⟨S, al⟩ :: l₂, 32 ≤ c.size := fun c hc => by
  simp only [List.mem_append, List.mem_cons] at hc
  rcases hc with h | rfl | h
  · exact hsz c (by simp [h])
  · exact hsz ⟨S, false⟩ (by simp)
  · exact hsz c (by simp [h])

/-- `insert_free_block` of the free block after `l₁`, which no list holds yet: the lists then file
    it too, and only link words of spare blocks change. -/
theorem insert_free_block_filed {s : State} {p : Nat} (hp : p = s.seglist + total l₁)
    (hc : Chain s.heap s.seglist (l₁ ++ ⟨S, false⟩ :: l₂))
    (hh : Heads s.seglist l₁) (hsz : ∀ c ∈ l₁ ++ ⟨S, false⟩ :: l₂, 32 ≤ c.size)
    (hl : Lists s.heap.mem s.seglist ls) (hf : Filed s.seglist (l₁ ++ ⟨S, true⟩ :: l₂) ls)
    (hfit : s.heap.brk < 2 ^ 64) :
    ∃ m ls', insert_free_block s p = .ok { s with heap := { s.heap with mem := m } } ∧
      Chain { s.heap with mem := m } s.seglist (l₁ ++ ⟨S, false⟩ :: l₂) ∧ Lists m s.seglist ls' ∧
      Filed s.seglist (l₁ ++ ⟨S, false⟩ :: l₂) ls' ∧
      Relinks (Spare s.seglist (l₁ ++ ⟨S, false⟩ :: l₂)) s.heap.mem m := by
  subst hp
  set lo := s.seglist
  set b := lo + total l₁
  have hbF : (b, ⟨S, false⟩) ∈ layout lo (l₁ ++ ⟨S, false⟩ :: l₂) := mem_layout_mid
  have hbT : (b, ⟨S, true⟩) ∈ layout lo (l₁ ++ ⟨S, true⟩ :: l₂) := mem_layout_mid
  have hszT := sizes_flip hsz true
  have htot : total (l₁ ++ ⟨S, true⟩ :: l₂) = total (l₁ ++ ⟨S, false⟩ :: l₂) := by simp
  obtain ⟨hlo, hhi, -⟩ := hc.size_facts hbF
  have hS32 : 32 ≤ S := hsz ⟨S, false⟩ (by simp)
  dsimp only at hhi
  have hend := hc.end_le
  have hlo' := hc.lo_le
  have hgeo : ∀ x, Node lo ls x → s.heap.lo ≤ x ∧ x + 32 ≤ s.heap.brk ∧ (x + 32 ≤ b ∨ b + 32 ≤ x) := by
    intro x hx
    obtain ⟨c, hxc, hfree⟩ := hf.block hh.append hx
    have hne : x ≠ b := by
      rintro rfl
      have := layout_unique (fun e he => by have := hszT e he; omega) hxc hbT
      subst this
      rcases hfree with h | ⟨i, hi, hx'⟩
      · simp at h
      · have := (mem_layout (hh i hi)).2.2
        simp only [block_size] at this
        omega
    obtain ⟨-, h1, h2⟩ := mem_layout hxc
    have := hszT c (mem_layout hxc).1
    exact ⟨by omega, by omega, far_of_layout hszT hxc hbT hne⟩
  obtain ⟨hrun, hlists, hrel⟩ := insert_free_block_spec hl hfit hgeo hlo (by omega) (hc.get_size hbF)
  have hi := get_seglist_idx_lt S
  have hnode : ∀ y, y = head lo (get_seglist_idx S) ∨
      y = (ls (get_seglist_idx S)).headD (head lo (get_seglist_idx S)) → Node lo ls y
    | _, .inl rfl => Lists.node_head hi
    | _, .inr rfl => Lists.node_of_mem_cons hi (by rcases ls (get_seglist_idx S) with _ | ⟨g, t⟩ <;> simp)
  have hrel' : Relinks (Spare lo (l₁ ++ ⟨S, false⟩ :: l₂)) s.heap.mem _ := hrel.mono fun y hy => by
    rcases hy with rfl | hy
    · exact .inr ⟨b, S, hbF, le_rfl, by have := hsz ⟨S, false⟩ (by simp); dsimp only at this; omega⟩
    · exact (hf.spare hszT (hnode y hy)).mono fun q S' hq => ⟨q, S', mem_layout_flip.2 (.inr hq), le_rfl, le_rfl⟩
  refine ⟨_, _, hrun, Chain.relink hc hh.append hrel', hlists, fun k hk x => ?_, hrel'⟩
  have key : (∃ S', (x, ⟨S', false⟩) ∈ layout lo (l₁ ++ ⟨S, false⟩ :: l₂) ∧ get_seglist_idx S' = k) ↔
      (x = b ∧ get_seglist_idx S = k) ∨ x ∈ ls k := by
    rw [hf k hk x]
    simp only [mem_layout_flip]
    constructor
    · rintro ⟨S', ⟨rfl, rfl⟩ | h, hk'⟩
      · exact .inl ⟨rfl, hk'⟩
      · exact .inr ⟨S', h, hk'⟩
    · rintro (⟨rfl, hk'⟩ | ⟨S', h, hk'⟩)
      · exact ⟨S, .inl ⟨rfl, rfl⟩, hk'⟩
      · exact ⟨S', .inr h, hk'⟩
  rw [key]
  by_cases hki : k = get_seglist_idx S
  · subst hki
    rw [Function.update_same, List.mem_cons]
    simp only [and_true]
  · rw [Function.update_noteq hki]
    exact ⟨.inr, fun h => h.elim (fun h => absurd h.2.symm hki) id⟩

/-- `remove_from_free_list` of the free block after `l₁`: the lists then file it as allocated,
    and only link words of spare blocks of that chain change. -/
theorem remove_filed {h : Heap} {p : Nat} (hp : p = lo + total l₁) (hl : Lists h.mem lo ls)
    (hf : Filed lo (l₁ ++ ⟨S, false⟩ :: l₂) ls)
    (hh : Heads lo l₁) (hsz : ∀ c ∈ l₁ ++ ⟨S, false⟩ :: l₂, 32 ≤ c.size) (hlo : h.lo ≤ lo)
    (hend : lo + total (l₁ ++ ⟨S, false⟩ :: l₂) ≤ h.brk) (hfit : h.brk < 2 ^ 64) :
    ∃ m ls', remove_from_free_list h p = .ok { h with mem := m } ∧ Lists m lo ls' ∧
      Filed lo (l₁ ++ ⟨S, true⟩ :: l₂) ls' ∧ Relinks (Spare lo (l₁ ++ ⟨S, true⟩ :: l₂)) h.mem m := by
  subst hp
  set b := lo + total l₁
  have hbF : (b, ⟨S, false⟩) ∈ layout lo (l₁ ++ ⟨S, false⟩ :: l₂) := mem_layout_mid
  have hbT : (b, ⟨S, true⟩) ∈ layout lo (l₁ ++ ⟨S, true⟩ :: l₂) := mem_layout_mid
  have hszT := sizes_flip hsz true
  have hi := get_seglist_idx_lt S
  have hb : b ∈ ls (get_seglist_idx S) := (hf _ hi b).2 ⟨S, hbF, rfl⟩
  have hgeo : ∀ x, Node lo ls x → h.lo ≤ x ∧ x + 32 ≤ h.brk := fun x hx => by
    obtain ⟨c, hxc, -⟩ := hf.block hh.append hx
    obtain ⟨-, h1, h2⟩ := mem_layout hxc
    have := hsz c (mem_layout hxc).1
    omega
  -- a free block of the chain with `b` allocated is not `b`
  have hne : ∀ x S', (x, ⟨S', false⟩) ∈ layout lo (l₁ ++ ⟨S, true⟩ :: l₂) → x ≠ b := by
    rintro x S' hx rfl
    have := layout_unique (fun e he => by have := hszT e he; omega) hx hbT
    simp at this
  obtain ⟨hrun, hlists, hrel⟩ := remove_from_free_list_spec hl hfit hgeo hi hb
  obtain ⟨hp, hpb, hn, hnb⟩ := hl.neighbours hi hb
  have hnode : ∀ y, y = pred_of h.mem b ∨ y = succ_of h.mem b → Node lo ls y ∧ y ≠ b := fun y hy => by
    rcases hy with hy | hy <;> rw [hy]
    exacts [⟨Lists.node_of_mem_cons hi hp, hpb⟩, ⟨Lists.node_of_mem_cons hi hn, hnb⟩]
  refine ⟨_, _, hrun, hlists, fun k hk x => ?_, hrel.mono fun y hy' => ?_⟩
  · have key : x ∈ ls k ↔ (x = b ∧ get_seglist_idx S = k) ∨
        ∃ S', (x, ⟨S', false⟩) ∈ layout lo (l₁ ++ ⟨S, true⟩ :: l₂) ∧ get_seglist_idx S' = k := by
      rw [hf k hk x]
      simp only [mem_layout_flip]
      constructor
      · rintro ⟨S', ⟨rfl, rfl⟩ | h, hk'⟩
        · exact .inl ⟨rfl, hk'⟩
        · exact .inr ⟨S', h, hk'⟩
      · rintro (⟨rfl, hk'⟩ | ⟨S', h, hk'⟩)
        · exact ⟨S, .inl ⟨rfl, rfl⟩, hk'⟩
        · exact ⟨S', .inr h, hk'⟩
    by_cases hki : k = get_seglist_idx S
    · subst hki
      rw [Function.update_same, (hl.nodup _ hi).mem_erase_iff, key]
      constructor
      · rintro ⟨hxb, ⟨rfl, -⟩ | h⟩
        · exact absurd rfl hxb
        · exact h
      · rintro ⟨S', h, hk'⟩
        exact ⟨hne x S' h, .inr ⟨S', h, hk'⟩⟩
    · rw [Function.update_noteq hki, key]
      exact ⟨fun h => h.elim (fun h => absurd h.2.symm hki) id, .inr⟩
  · obtain ⟨hy, hyb⟩ := hnode y hy'
    rcases hf.spare hsz hy with h | ⟨q, S', hq, h1, h2⟩
    · exact .inl h
    · refine .inr ⟨q, S', ?_, h1, h2⟩
      rcases mem_layout_flip.1 hq with ⟨rfl, rfl⟩ | hq
      · -- the node `y` inside `b` would be `b` itself
        exfalso
        obtain ⟨c, hyc, -⟩ := hf.block hh.append hy
        by_cases hyb' : y = b
        · exact hyb hyb'
        · have := layout_disjoint hyc hbF hyb'
          dsimp only at this
          omega
      · exact hq

end filed_splices

section tags

variable {h : Heap} {p S : Nat} {al al' : Bool}

/-- `write_footer` finds the footer from the header just written. -/
theorem write_footer_of_header (hlo : h.lo ≤ p) (hhi : p + S ≤ h.brk) (h16 : 16 ≤ S)
    (h88 : S % 8 = 0) (hlt : S < 2 ^ 32) :
    write_footer { h with mem := h.mem.store p 4 (pack S al) } p S al' =
      .ok { h with mem := (h.mem.store p 4 (pack S al)).store (p + S - 4) 4 (pack S al') } := by
  have hread : get_size { h with mem := h.mem.store p 4 (pack S al) } p = .ok S := by
    rw [get_size_eq (h := { h with mem := h.mem.store p 4 (pack S al) }) hlo (by simp; omega)]
    simp only [Mem.load_store_self, Nat.mod_eq_of_lt (show pack S al < 256 ^ 4 from pack_lt _ _),
      extract_size_pack h88 hlt]
  simp only [write_footer, get_footer, get_payload_size, hread, ok_bind, pure_eq_ok, tsize, dsize, wsize]
  rw [size_sub_of_le (by omega) (by omega), show p + 2 * 4 + (S - 3 * 4) = p + S - 4 by omega,
    Heap.write_of_mem (by simp; omega) (by simp; omega)]

/-- `write_header` then `write_footer` with one size tag the block at `p`. -/
theorem write_header_footer (hlo : h.lo ≤ p) (hhi : p + S ≤ h.brk) (h16 : 16 ≤ S)
    (h88 : S % 8 = 0) (hlt : S < 2 ^ 32) :
    (do let h ← write_header h p S al; write_footer h p S al') =
      .ok { h with mem := (h.mem.store p 4 (pack S al)).store (p + S - 4) 4 (pack S al') } := by
  rw [write_header_eq hlo (by omega), ok_bind, write_footer_of_header hlo hhi h16 h88 hlt]

end tags

section coalesce

variable {s : State} {ls : Nat → List Nat} {S : Nat} {l₁ l₂ mid : List Blk}

/-- Free blocks of a chain lie inside free blocks of the chain with the run `mid` made one free
    block. -/
theorem cover_merge {a : Nat} (l₁ mid l₂ : List Blk) (ht : total mid = S) :
    ∀ q S', (q, ⟨S', false⟩) ∈ layout a (l₁ ++ mid ++ l₂) →
      ∃ q' S'', (q', ⟨S'', false⟩) ∈ layout a (l₁ ++ ⟨S, false⟩ :: l₂) ∧ q' ≤ q ∧ q + S' ≤ q' + S'' := by
  intro q S' hq
  simp only [layout_append, List.mem_append, total_append] at hq
  rcases hq with (hq | hq) | hq
  · exact ⟨q, S', by simp [layout_append, hq], le_rfl, le_rfl⟩
  · have := mem_layout hq
    exact ⟨a + total l₁, S, mem_layout_mid, by omega, by dsimp only at this; omega⟩
  · refine ⟨q, S', ?_, le_rfl, le_rfl⟩
    simp only [layout_append, layout_cons, List.mem_append, List.mem_cons]
    exact .inr (.inr (by rw [Nat.add_assoc]; rwa [ht] at hq))

/-- The writes of a merging `coalesce` case, header then footer over the run `mid` that the
    filing chain `full` holds as blocks, keep the lists. -/
theorem retag_filed {full : List Blk} {lo p : Nat} (hp : p = lo + total l₁) (hc : Chain s.heap lo (l₁ ++ mid ++ l₂))
    (hl : Lists s.heap.mem lo ls) (hf : Filed lo full ls) (hh : Heads lo full) (hsz : ∀ c ∈ full, 32 ≤ c.size)
    {c₁ c₂ : Blk} {q : Nat} (hfirst : (p, c₁) ∈ layout lo full) (hlast : (q, c₂) ∈ layout lo full)
    (hend : q + c₂.size = p + S) (hS : total mid = S) (h16 : 16 ≤ S) (h88 : S % 8 = 0) :
    write_header s.heap p S false = .ok { s.heap with mem := s.heap.mem.store p 4 (pack S false) } ∧
      write_footer { s.heap with mem := s.heap.mem.store p 4 (pack S false) } p S false =
        .ok { s.heap with mem := ((s.heap.mem.store p 4 (pack S false)).store (p + S - 4) 4 (pack S false)) } ∧
      Chain { s.heap with mem := ((s.heap.mem.store p 4 (pack S false)).store (p + S - 4) 4 (pack S false)) }
        lo (l₁ ++ ⟨S, false⟩ :: l₂) ∧
      Lists ((s.heap.mem.store p 4 (pack S false)).store (p + S - 4) 4 (pack S false)) lo ls ∧
      ∀ x, x < p ∨ p + S ≤ x → ((s.heap.mem.store p 4 (pack S false)).store (p + S - 4) 4 (pack S false)) x =
        s.heap.mem x := by
  subst hp
  have hlo := hc.lo_le
  have hhi := hc.end_le
  have hsmall := hc.small
  simp only [total_append] at hhi hsmall
  exact ⟨write_header_eq (by omega) (by omega), write_footer_of_header (by omega) (by omega) h16 h88 (by omega),
    hc.retag false hS (by omega) h88,
    (hl.store_tag hf hh hsz hfirst (.inl rfl)).store_tag hf hh hsz hlast (.inr (by omega)),
    fun x hx => store_store_outside hx (by omega)⟩

/-- The last step of a merging `coalesce` case: the run `mid` is now one free block of `S` bytes
    in the chain, the lists file its parts as allocated, and `insert_free_block` files it. -/
theorem coalesce_finish (mid : List Blk) {M₁ M₂ : Mem} {p : Nat} (hp : p = s.seglist + total l₁)
    (hc : Chain { s.heap with mem := M₁ } s.seglist (l₁ ++ ⟨S, false⟩ :: l₂))
    (hh : Heads s.seglist l₁) (hsz : ∀ c ∈ l₁ ++ ⟨S, false⟩ :: l₂, 32 ≤ c.size)
    (hM₁ : ∀ x, x < p ∨ p + S ≤ x → M₁ x = s.heap.mem x)
    (hr : Relinks (Spare s.seglist (l₁ ++ ⟨S, false⟩ :: l₂)) M₁ M₂) (hm : ∀ c ∈ mid, c.alloc = true)
    (ht : total mid = S) (hl : Lists M₂ s.seglist ls) (hf : Filed s.seglist (l₁ ++ mid ++ l₂) ls)
    (hfit : s.heap.brk < 2 ^ 64) :
    ∃ m ls', insert_free_block { s with heap := { s.heap with mem := M₂ } } p =
        .ok { s with heap := { s.heap with mem := m } } ∧
      Chain { s.heap with mem := m } s.seglist (l₁ ++ ⟨S, false⟩ :: l₂) ∧ Lists m s.seglist ls' ∧
      Filed s.seglist (l₁ ++ ⟨S, false⟩ :: l₂) ls' ∧
      Scratch s.seglist (l₁ ++ ⟨S, false⟩ :: l₂) s.heap.mem m := by
  subst hp
  have hc₂ : Chain { s.heap with mem := M₂ } s.seglist (l₁ ++ ⟨S, false⟩ :: l₂) :=
    Chain.relink (h := { s.heap with mem := M₁ }) hc hh.append hr
  have hf' : Filed s.seglist (l₁ ++ ⟨S, true⟩ :: l₂) ls := hf.congr fun x S' => by
    simpa using free_congr [⟨S, true⟩] hm (by simp) (by simp [ht])
  obtain ⟨m, ls', hrun, hc₃, hl₃, hf₃, hr₃⟩ :=
    insert_free_block_filed (s := { s with heap := { s.heap with mem := M₂ } }) rfl hc₂ hh hsz hl hf' hfit
  exact ⟨m, ls', hrun, hc₃, hl₃, hf₃, ((Scratch.of_block mem_layout_mid hM₁).trans hr.scratch).trans hr₃.scratch⟩

end coalesce

end malloc_lab.segregated
