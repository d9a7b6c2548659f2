import MallocLab.Segregated.Ring
import Mathlib.Data.List.Nodup

namespace malloc_lab.segregated

/-- The head record of size class `i` (`&seglist[i]` for `seglist = lo`). -/
def head (lo i : Nat) : Nat := lo + i * block_size

/-- A node of the lists: a head or a member of one of the 16 lists. -/
def Node (lo : Nat) (ls : Nat → List Nat) (x : Nat) : Prop :=
  ∃ i < size_class_cnt, x = head lo i ∨ x ∈ ls i

/-- The 16 free lists `ls`: list `i` is a ring through `head lo i` without repeats, no node is on
    two lists or is a head, and distinct nodes lie a block apart. -/
structure Lists (m : Mem) (lo : Nat) (ls : Nat → List Nat) : Prop where
  ring : ∀ i < size_class_cnt, Ring m (head lo i) (ls i)
  nodup : ∀ i < size_class_cnt, (ls i).Nodup
  unique : ∀ i j x, i < size_class_cnt → j < size_class_cnt → x ∈ ls i → x ∈ ls j → i = j
  no_head : ∀ i j, i < size_class_cnt → j < size_class_cnt → head lo j ∉ ls i
  apart : ∀ x y, Node lo ls x → Node lo ls y → x ≠ y → x + block_size ≤ y ∨ y + block_size ≤ x

/-- The memory once `b` is linked in after the head `hd`, whose first node was `f`. -/
def linked_in (m : Mem) (hd f b : Nat) : Mem :=
  (((m.store (pred_ptr b) ptr_size hd).store (succ_ptr b) ptr_size f).store (succ_ptr hd) ptr_size b).store
    (pred_ptr f) ptr_size b

/-- The memory once the node between `p` and `n` is unlinked. -/
def unlinked (m : Mem) (p n : Nat) : Mem :=
  (m.store (succ_ptr p) ptr_size n).store (pred_ptr n) ptr_size p

section store

variable {m : Mem} {v x y : Nat}

/-- A store into the `succ` word of `y` keeps the `succ` word of a node `x` 8 bytes away. -/
theorem succ_of_store_succ (h : x + 8 ≤ y ∨ y + 8 ≤ x) :
    succ_of (m.store (succ_ptr y) ptr_size v) x = succ_of m x :=
  Mem.load_store_of_disjoint (by simp only [succ_ptr, dsize, wsize, ptr_size]; omega)

theorem succ_of_store_pred (h : x + 16 ≤ y ∨ y ≤ x) :
    succ_of (m.store (pred_ptr y) ptr_size v) x = succ_of m x :=
  Mem.load_store_of_disjoint (by simp only [succ_ptr, pred_ptr, dsize, wsize, ptr_size]; omega)

theorem pred_of_store_pred (h : x + 8 ≤ y ∨ y + 8 ≤ x) :
    pred_of (m.store (pred_ptr y) ptr_size v) x = pred_of m x :=
  Mem.load_store_of_disjoint (by simp only [pred_ptr, dsize, wsize, ptr_size]; omega)

theorem pred_of_store_succ (h : x ≤ y ∨ y + 16 ≤ x) :
    pred_of (m.store (succ_ptr y) ptr_size v) x = pred_of m x :=
  Mem.load_store_of_disjoint (by simp only [succ_ptr, pred_ptr, dsize, wsize, ptr_size]; omega)

theorem succ_of_store_self (hv : v < 2 ^ 64) : succ_of (m.store (succ_ptr x) ptr_size v) x = v := by
  rw [succ_of, Mem.load_store_self, Nat.mod_eq_of_lt (by simpa [ptr_size] using hv)]

theorem pred_of_store_self (hv : v < 2 ^ 64) : pred_of (m.store (pred_ptr x) ptr_size v) x = v := by
  rw [pred_of, Mem.load_store_self, Nat.mod_eq_of_lt (by simpa [ptr_size] using hv)]

end store

section splice

variable {m : Mem} {hd f b p n x : Nat}

/-- `linked_in` keeps the link words of every node a block away from `b`, `hd` and `f`. -/
theorem linked_in_far (hb : x + 32 ≤ b ∨ b + 32 ≤ x) (hh : x + 32 ≤ hd ∨ hd + 32 ≤ x)
    (hf : x + 32 ≤ f ∨ f + 32 ≤ x) :
    succ_of (linked_in m hd f b) x = succ_of m x ∧ pred_of (linked_in m hd f b) x = pred_of m x := by
  unfold linked_in
  exact ⟨by rw [succ_of_store_pred (by omega), succ_of_store_succ (by omega), succ_of_store_succ (by omega),
      succ_of_store_pred (by omega)],
    by rw [pred_of_store_pred (by omega), pred_of_store_succ (by omega), pred_of_store_succ (by omega),
      pred_of_store_pred (by omega)]⟩

theorem linked_in_succ_head (hfh : f = hd ∨ f + 32 ≤ hd ∨ hd + 32 ≤ f) (hv : b < 2 ^ 64) :
    succ_of (linked_in m hd f b) hd = b := by
  unfold linked_in
  rw [succ_of_store_pred (by omega), succ_of_store_self hv]

theorem linked_in_pred_b (hbh : hd + 32 ≤ b ∨ b + 32 ≤ hd) (hbf : f + 32 ≤ b ∨ b + 32 ≤ f)
    (hv : hd < 2 ^ 64) : pred_of (linked_in m hd f b) b = hd := by
  unfold linked_in
  rw [pred_of_store_pred (by omega), pred_of_store_succ (by omega), pred_of_store_succ (by omega),
    pred_of_store_self hv]

theorem linked_in_succ_b (hbh : hd + 32 ≤ b ∨ b + 32 ≤ hd) (hbf : f + 32 ≤ b ∨ b + 32 ≤ f)
    (hv : f < 2 ^ 64) : succ_of (linked_in m hd f b) b = f := by
  unfold linked_in
  rw [succ_of_store_pred (by omega), succ_of_store_succ (by omega), succ_of_store_self hv]

theorem linked_in_succ_f (hbf : f + 32 ≤ b ∨ b + 32 ≤ f) (hfh : f + 32 ≤ hd ∨ hd + 32 ≤ f) :
    succ_of (linked_in m hd f b) f = succ_of m f := by
  unfold linked_in
  rw [succ_of_store_pred (by omega), succ_of_store_succ (by omega), succ_of_store_succ (by omega),
    succ_of_store_pred (by omega)]

theorem linked_in_pred_head (hbh : hd + 32 ≤ b ∨ b + 32 ≤ hd) (hfh : f + 32 ≤ hd ∨ hd + 32 ≤ f) :
    pred_of (linked_in m hd f b) hd = pred_of m hd := by
  unfold linked_in
  rw [pred_of_store_pred (by omega), pred_of_store_succ (by omega), pred_of_store_succ (by omega),
    pred_of_store_pred (by omega)]

theorem linked_in_pred_f (hv : b < 2 ^ 64) : pred_of (linked_in m hd f b) f = b := by
  unfold linked_in
  rw [pred_of_store_self hv]

/-- `unlinked` keeps the link words of every node a block away from `p` and `n`. -/
theorem unlinked_far (hp : x + 32 ≤ p ∨ p + 32 ≤ x) (hn : x + 32 ≤ n ∨ n + 32 ≤ x) :
    succ_of (unlinked m p n) x = succ_of m x ∧ pred_of (unlinked m p n) x = pred_of m x := by
  unfold unlinked
  exact ⟨by rw [succ_of_store_pred (by omega), succ_of_store_succ (by omega)],
    by rw [pred_of_store_pred (by omega), pred_of_store_succ (by omega)]⟩

theorem unlinked_succ_p (hpn : p = n ∨ p + 32 ≤ n ∨ n + 32 ≤ p) (hv : n < 2 ^ 64) :
    succ_of (unlinked m p n) p = n := by
  unfold unlinked
  rw [succ_of_store_pred (by omega), succ_of_store_self hv]

theorem unlinked_pred_n (hv : p < 2 ^ 64) : pred_of (unlinked m p n) n = p := by
  unfold unlinked
  rw [pred_of_store_self hv]

/-- The `succ` word of a node other than `p` is kept (that of `n` too). -/
theorem unlinked_succ (hxp : x + 32 ≤ p ∨ p + 32 ≤ x) (hxn : x = n ∨ x + 32 ≤ n ∨ n + 32 ≤ x) :
    succ_of (unlinked m p n) x = succ_of m x := by
  unfold unlinked
  rw [succ_of_store_pred (by omega), succ_of_store_succ (by omega)]

/-- The `pred` word of a node other than `n` is kept (that of `p` too). -/
theorem unlinked_pred (hxn : x + 32 ≤ n ∨ n + 32 ≤ x) (hxp : x = p ∨ x + 32 ≤ p ∨ p + 32 ≤ x) :
    pred_of (unlinked m p n) x = pred_of m x := by
  unfold unlinked
  rw [pred_of_store_pred (by omega), pred_of_store_succ (by omega)]

/-- `linked_in` changes only bytes of the link words of `hd`, `f` and `b`. -/
theorem linked_in_apply {y : Nat} (hh : y < hd + 8 ∨ hd + 24 ≤ y) (hf : y < f + 8 ∨ f + 24 ≤ y)
    (hb : y < b + 8 ∨ b + 24 ≤ y) : linked_in m hd f b y = m y := by
  unfold linked_in
  simp only [pred_ptr, succ_ptr, dsize, wsize, ptr_size]
  rw [Mem.store_apply_of_not_mem (by omega), Mem.store_apply_of_not_mem (by omega),
    Mem.store_apply_of_not_mem (by omega), Mem.store_apply_of_not_mem (by omega)]

/-- `unlinked` changes only bytes of the link words of `p` and `n`. -/
theorem unlinked_apply {y : Nat} (hp : y < p + 8 ∨ p + 24 ≤ y) (hn : y < n + 8 ∨ n + 24 ≤ y) :
    unlinked m p n y = m y := by
  unfold unlinked
  simp only [pred_ptr, succ_ptr, dsize, wsize, ptr_size]
  rw [Mem.store_apply_of_not_mem (by omega), Mem.store_apply_of_not_mem (by omega)]

end splice

section lists

variable {m : Mem} {lo : Nat} {ls : Nat → List Nat} {i j x y b : Nat}

theorem head_inj (hij : head lo i = head lo j) : i = j := by
  simp only [head, block_size] at hij
  omega

theorem Lists.node_head (hi : i < size_class_cnt) : Node lo ls (head lo i) := ⟨i, hi, .inl rfl⟩

theorem Lists.node_mem (hi : i < size_class_cnt) (hx : x ∈ ls i) : Node lo ls x := ⟨i, hi, .inr hx⟩

/-- A ring all of whose link words are kept survives. -/
theorem Ring.congr {m' : Mem} {hd : Nat} {l : List Nat} (h : Ring m hd l)
    (hu : ∀ x ∈ hd :: l, succ_of m' x = succ_of m x ∧ pred_of m' x = pred_of m x) : Ring m' hd l :=
  Links.congr h (fun x hx => (hu x (by
      rw [List.cons_append, ← List.cons_append, List.dropLast_concat] at hx; exact hx)).1)
    fun y hy => (hu y (by
      simp only [List.cons_append, List.tail_cons, List.mem_append, List.mem_singleton] at hy
      rcases hy with hy | rfl
      · exact List.mem_cons_of_mem _ hy
      · exact List.mem_cons_self _ _)).2

/-- The nodes of list `i`, its head first. -/
theorem Lists.node_of_mem_cons (hi : i < size_class_cnt) (hx : x ∈ head lo i :: ls i) : Node lo ls x := by
  rcases List.mem_cons.1 hx with rfl | hx
  · exact Lists.node_head hi
  · exact Lists.node_mem hi hx

/-- Nodes of two different lists, heads included, are different. -/
theorem Lists.ne_of_ne (hl : Lists m lo ls) (hi : i < size_class_cnt) (hj : j < size_class_cnt) (hij : i ≠ j)
    (hx : x ∈ head lo i :: ls i) (hy : y ∈ head lo j :: ls j) : x ≠ y := by
  rintro rfl
  rcases List.mem_cons.1 hx with rfl | hx <;> rcases List.mem_cons.1 hy with hy | hy
  · exact hij (head_inj hy)
  · exact hl.no_head j i hj hi hy
  · exact hl.no_head i j hi hj (hy ▸ hx)
  · exact hij (hl.unique i j x hi hj hx hy)

theorem Lists.far (hl : Lists m lo ls) (hx : Node lo ls x) (hy : Node lo ls y) (hxy : x ≠ y) :
    x + 32 ≤ y ∨ y + 32 ≤ x :=
  hl.apart x y hx hy hxy

/-- Linking `b`, a block away from every node, in after the head of list `i` puts it first on
    that list and changes no other list. -/
theorem Lists.insert (hl : Lists m lo ls) (hi : i < size_class_cnt)
    (hb : ∀ x, Node lo ls x → x + 32 ≤ b ∨ b + 32 ≤ x) (hsmall : ∀ x, Node lo ls x → x < 2 ^ 64)
    (hb64 : b < 2 ^ 64) :
    Lists (linked_in m (head lo i) ((ls i).headD (head lo i)) b) lo (Function.update ls i (b :: ls i)) := by
  set hd := head lo i
  set f := (ls i).headD hd
  have hhn : Node lo ls hd := Lists.node_head hi
  have hf : f ∈ hd :: ls i := by rcases hls : ls i with _ | ⟨g, t⟩ <;> simp [f, hls]
  have hfn : Node lo ls f := Lists.node_of_mem_cons hi hf
  have hbf := hb f hfn
  have hbh := hb hd hhn
  have hfh : f = hd ∨ f + 32 ≤ hd ∨ hd + 32 ≤ f := by
    by_cases h : f = hd
    · exact .inl h
    · exact .inr (hl.far hfn hhn h)
  have hkeep : ∀ x, Node lo ls x → x ≠ hd → x ≠ f →
      succ_of (linked_in m hd f b) x = succ_of m x ∧ pred_of (linked_in m hd f b) x = pred_of m x :=
    fun x hx hxh hxf => linked_in_far (hb x hx) (hl.far hx hhn hxh) (hl.far hx hfn hxf)
  have hnb : ∀ k < size_class_cnt, b ∉ ls k := fun k hk hbk => by
    have := hb b (Lists.node_mem hk hbk); omega
  have hmem : ∀ x k, x ∈ Function.update ls i (b :: ls i) k → (k = i ∧ x = b) ∨ x ∈ ls k := by
    intro x k hx
    by_cases hki : k = i
    · subst hki
      rw [Function.update_same] at hx
      rcases List.mem_cons.1 hx with rfl | hx
      · exact .inl ⟨rfl, rfl⟩
      · exact .inr hx
    · rw [Function.update_noteq hki] at hx
      exact .inr hx
  have hnode : ∀ x, Node lo (Function.update ls i (b :: ls i)) x → x = b ∨ Node lo ls x := by
    rintro x ⟨k, hk, rfl | hx⟩
    · exact .inr (Lists.node_head hk)
    · rcases hmem x k hx with ⟨-, rfl⟩ | hx
      · exact .inl rfl
      · exact .inr (Lists.node_mem hk hx)
  refine ⟨fun k hk => ?_, fun k hk => ?_, fun k k' x hk hk' hx hx' => ?_, fun k k' hk hk' hx => ?_,
    fun x y hx hy hxy => ?_⟩
  · by_cases hki : k = i
    · subst hki
      rw [Function.update_same]
      have hnd : (hd :: ls k).Nodup := List.nodup_cons.2 ⟨hl.no_head k k hk hk, hl.nodup k hk⟩
      refine (hl.ring k hk).insert hnd (linked_in_succ_head hfh hb64) (linked_in_pred_b hbh hbf (hsmall _ hhn))
        (linked_in_succ_b hbh hbf (hsmall _ hfn)) (linked_in_pred_f hb64) (fun x hx => ?_) (fun x hx hxf => ?_)
      · have hxh : x ≠ hd := fun h => hl.no_head k k hk hk (by rw [h] at hx; exact hx)
        by_cases hxf : x = f
        · rw [hxf]
          exact linked_in_succ_f hbf (hfh.resolve_left (hxf ▸ hxh))
        · exact (hkeep x (Lists.node_mem hk hx) hxh hxf).1
      · rcases List.mem_append.1 hx with hx | hx
        · exact (hkeep x (Lists.node_mem hk hx) (fun h => hl.no_head k k hk hk (by rw [h] at hx; exact hx))
            hxf).2
        · rw [List.mem_singleton.1 hx] at hxf ⊢
          exact linked_in_pred_head hbh (hfh.resolve_left (Ne.symm hxf))
    · rw [Function.update_noteq hki]
      exact (hl.ring k hk).congr fun x hx => hkeep x (Lists.node_of_mem_cons hk hx)
        (hl.ne_of_ne hk hi hki hx (List.mem_cons_self _ _)) (hl.ne_of_ne hk hi hki hx hf)
  · by_cases hki : k = i
    · subst hki
      rw [Function.update_same]
      exact List.nodup_cons.2 ⟨hnb k hk, hl.nodup k hk⟩
    · rw [Function.update_noteq hki]
      exact hl.nodup k hk
  · rcases hmem x k hx with ⟨hk1, hxb⟩ | hx <;> rcases hmem x k' hx' with ⟨hk2, hxb'⟩ | hx'
    · exact hk1.trans hk2.symm
    · exact (hnb k' hk' (hxb ▸ hx')).elim
    · exact (hnb k hk (hxb' ▸ hx)).elim
    · exact hl.unique k k' x hk hk' hx hx'
  · rcases hmem _ k hx with ⟨-, h⟩ | hx
    · have := hb _ (Lists.node_head hk'); omega
    · exact hl.no_head k k' hk hk' hx
  · rcases hnode x hx with hxb | hx <;> rcases hnode y hy with hyb | hy
    · exact absurd (hxb.trans hyb.symm) hxy
    · have := hb y hy; simp only [block_size]; omega
    · have := hb x hx; simp only [block_size]; omega
    · exact hl.apart x y hx hy hxy

/-- The `pred` and `succ` of a node of list `i` are other nodes of that list, or its head. -/
theorem Lists.neighbours (hl : Lists m lo ls) (hi : i < size_class_cnt) (hb : b ∈ ls i) :
    pred_of m b ∈ head lo i :: ls i ∧ pred_of m b ≠ b ∧ succ_of m b ∈ head lo i :: ls i ∧ succ_of m b ≠ b := by
  obtain ⟨l₁, l₂, hsplit⟩ := List.append_of_mem hb
  have hring := hl.ring i hi
  rw [hsplit] at hring
  obtain ⟨A, p, n, B, hA, hB, rfl, rfl⟩ := hring.split
  have hhd : head lo i ≠ b := fun h => hl.no_head i i hi hi (h ▸ hb)
  have hnd := hl.nodup i hi
  rw [hsplit] at hnd
  obtain ⟨-, hn₂, hdis⟩ := List.nodup_append.1 hnd
  have hp : pred_of m b ∈ head lo i :: l₁ := by rw [hA]; exact List.mem_append_right _ (List.mem_singleton_self _)
  have hn : succ_of m b ∈ l₂ ++ [head lo i] := by rw [hB]; exact List.mem_cons_self _ _
  have hpb : pred_of m b ≠ b := by
    rcases List.mem_cons.1 hp with h | h
    · rw [h]; exact hhd
    · intro he; rw [he] at h; exact hdis h (List.mem_cons_self _ _)
  have hnb : succ_of m b ≠ b := by
    rcases List.mem_append.1 hn with h | h
    · intro he; rw [he] at h; exact (List.nodup_cons.1 hn₂).1 h
    · rw [List.mem_singleton.1 h]; exact hhd
  exact ⟨mem_of_split hsplit (.inl hp), hpb, mem_of_split hsplit (.inr hn), hnb⟩

/-- Unlinking the node `b` of list `i` from between its neighbours takes it off that list and
    changes no other list. -/
theorem Lists.remove (hl : Lists m lo ls) (hi : i < size_class_cnt) (hb : b ∈ ls i)
    (hsmall : ∀ x, Node lo ls x → x < 2 ^ 64) :
    Lists (unlinked m (pred_of m b) (succ_of m b)) lo (Function.update ls i ((ls i).erase b)) := by
  set hd := head lo i
  obtain ⟨l₁, l₂, hsplit⟩ := List.append_of_mem hb
  have hring := hl.ring i hi
  rw [hsplit] at hring
  obtain ⟨A, p, n, B, hA, hB, hpb⟩ := hring.split
  -- the distinctness facts the splice needs, from the list and its head
  have hhd : hd ∉ ls i := hl.no_head i i hi hi
  have hls := hl.nodup i hi
  rw [hsplit] at hhd hls
  simp only [List.mem_append, List.mem_cons, not_or] at hhd
  obtain ⟨hn₁, hn₂, hdis⟩ := List.nodup_append.1 hls
  have hb₁ : b ∉ l₁ := fun h => hdis h (List.mem_cons_self _ _)
  have hp₁ : p ∈ hd :: l₁ := hA ▸ List.mem_append_right _ (List.mem_singleton_self _)
  have hn₂' : n ∈ l₂ ++ [hd] := hB ▸ List.mem_cons_self _ _
  have hAp : ∀ x ∈ A, x ≠ p := by
    have : (A ++ [p]).Nodup := hA ▸ List.nodup_cons.2 ⟨hhd.1, hn₁⟩
    exact fun x hx hxp => (List.nodup_append.1 this).2.2 hx (hxp ▸ List.mem_singleton_self _)
  have hl₂p : ∀ x ∈ l₂, x ≠ p := by
    rintro x hx rfl
    rcases List.mem_cons.1 hp₁ with h | h
    · exact hhd.2.2 (h ▸ hx)
    · exact hdis h (List.mem_cons_of_mem _ hx)
  have hl₁n : ∀ x ∈ l₁, x ≠ n := by
    rintro x hx rfl
    rcases List.mem_append.1 hn₂' with h | h
    · exact hdis hx (List.mem_cons_of_mem _ h)
    · exact hhd.1 (List.mem_singleton.1 h ▸ hx)
  have hBn : ∀ x ∈ B, x ≠ n := by
    have : (n :: B).Nodup := hB ▸ List.nodup_append.2 ⟨(List.nodup_cons.1 hn₂).2, List.nodup_singleton _,
      fun x hx hx' => hhd.2.2 (by rw [List.mem_singleton.1 hx'] at hx; exact hx)⟩
    exact fun x hx hxn => (List.nodup_cons.1 this).1 (hxn ▸ hx)
  rw [hpb.1, hpb.2]
  -- the nodes the splice reads and writes are nodes of list `i`, so a block apart or equal
  have hI : ∀ x, x ∈ hd :: l₁ ∨ x ∈ l₂ ++ [hd] → x ∈ hd :: ls i := fun x hx => mem_of_split hsplit hx
  have hpI := hI p (.inl hp₁)
  have hnI := hI n (.inr hn₂')
  have hnear : ∀ x y, x ∈ hd :: ls i → y ∈ hd :: ls i → x = y ∨ x + 32 ≤ y ∨ y + 32 ≤ x := by
    intro x y hx hy
    by_cases h : x = y
    · exact .inl h
    · exact .inr (hl.far (Lists.node_of_mem_cons hi hx) (Lists.node_of_mem_cons hi hy) h)
  have hfar : ∀ x y, x ∈ hd :: ls i → y ∈ hd :: ls i → x ≠ y → x + 32 ≤ y ∨ y + 32 ≤ x :=
    fun x y hx hy hxy => (hnear x y hx hy).resolve_left hxy
  have herase : (ls i).erase b = l₁ ++ l₂ := by
    rw [hsplit, List.erase_append_right _ hb₁, List.erase_cons_head]
  have hmem : ∀ x k, x ∈ Function.update ls i ((ls i).erase b) k → x ∈ ls k := by
    intro x k hx
    by_cases hki : k = i
    · subst hki
      rw [Function.update_same] at hx
      exact List.mem_of_mem_erase hx
    · rwa [Function.update_noteq hki] at hx
  have hnode : ∀ x, Node lo (Function.update ls i ((ls i).erase b)) x → Node lo ls x := by
    rintro x ⟨k, hk, rfl | hx⟩
    · exact Lists.node_head hk
    · exact Lists.node_mem hk (hmem x k hx)
  refine ⟨fun k hk => ?_, fun k hk => ?_, fun k k' x hk hk' hx hx' => hl.unique k k' x hk hk' (hmem x k hx)
    (hmem x k' hx'), fun k k' hk hk' hx => hl.no_head k k' hk hk' (hmem _ k hx),
    fun x y hx hy hxy => hl.apart x y (hnode x hx) (hnode y hy) hxy⟩
  · by_cases hki : k = i
    · subst hki
      rw [Function.update_same, herase]
      refine hring.remove hA hB (unlinked_succ_p (hnear p n hpI hnI) (hsmall n (Lists.node_of_mem_cons hk hnI)))
        (unlinked_pred_n (hsmall p (Lists.node_of_mem_cons hk hpI))) (fun x hx => ?_) (fun x hx => ?_)
      · have hxI : x ∈ hd :: ls k := by
          rcases List.mem_append.1 hx with hx | hx
          · exact hI x (.inl (hA ▸ List.mem_append_left _ hx))
          · exact hI x (.inr (List.mem_append_left _ hx))
        have hxp : x ≠ p := by
          rcases List.mem_append.1 hx with hx | hx
          · exact hAp x hx
          · exact hl₂p x hx
        exact unlinked_succ (hfar x p hxI hpI hxp) (hnear x n hxI hnI)
      · have hxI : x ∈ hd :: ls k := by
          rcases List.mem_append.1 hx with hx | hx
          · exact hI x (.inl (List.mem_cons_of_mem _ hx))
          · exact hI x (.inr (hB ▸ List.mem_cons_of_mem _ hx))
        have hxn : x ≠ n := by
          rcases List.mem_append.1 hx with hx | hx
          · exact hl₁n x hx
          · exact hBn x hx
        exact unlinked_pred (hfar x n hxI hnI hxn) (hnear x p hxI hpI)
    · rw [Function.update_noteq hki]
      refine (hl.ring k hk).congr fun x hx => unlinked_far ?_ ?_
      · exact hl.far (Lists.node_of_mem_cons hk hx) (Lists.node_of_mem_cons hi hpI) (hl.ne_of_ne hk hi hki hx hpI)
      · exact hl.far (Lists.node_of_mem_cons hk hx) (Lists.node_of_mem_cons hi hnI) (hl.ne_of_ne hk hi hki hx hnI)
  · by_cases hki : k = i
    · subst hki
      rw [Function.update_same]
      exact (hl.nodup k hk).erase b
    · rw [Function.update_noteq hki]
      exact hl.nodup k hk

end lists

end malloc_lab.segregated
