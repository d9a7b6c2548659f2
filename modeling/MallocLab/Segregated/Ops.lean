import MallocLab.Segregated.Blocks

namespace malloc_lab.segregated

theorem mem_layout_at {a p : Nat} {c : Blk} {l : List Blk} (l₁ l₂ : List Blk) (hp : p = a + total l₁)
    (hl : l = l₁ ++ c :: l₂) : (p, c) ∈ layout a l :=
  hl ▸ mem_layout_of_eq l₁ l₂ hp

section coalesce

variable {s : State} {ls : Nat → List Nat} {pre post : List Blk} {prev : Blk} {size : Nat}

/-- `coalesce` of a block marked free that no list holds, after `pre ++ [prev]`: the chain becomes
    `merge`'s, the lists file its free blocks, the result is the merged free block, which starts
    at `prev` when `prev` is free and holds the bytes of its free neighbours, and only head
    records and free blocks of the new chain are written. -/
theorem coalesce_spec (hc : Chain s.heap s.seglist (pre ++ prev :: ⟨size, false⟩ :: post))
    (hh : Heads s.seglist pre) (hsz : Sized min_block_size (pre ++ prev :: ⟨size, false⟩ :: post))
    (hl : Lists s.heap.mem s.seglist ls) (hf : Filed s.seglist (pre ++ prev :: ⟨size, true⟩ :: post) ls)
    (hfit : s.heap.brk < 2 ^ 64) :
    ∃ m ls' r S, coalesce s (s.seglist + total pre + prev.size) =
        .ok ({ s with heap := { s.heap with mem := m } }, r) ∧
      Chain { s.heap with mem := m } s.seglist (pre ++ merge prev size post) ∧ Lists m s.seglist ls' ∧
      Filed s.seglist (pre ++ merge prev size post) ls' ∧
      (r, ⟨S, false⟩) ∈ layout s.seglist (pre ++ merge prev size post) ∧ size ≤ S ∧
      r = (if prev.alloc then s.seglist + total pre + prev.size else s.seglist + total pre) ∧
      S = size + free_bytes prev + free_bytes (post.headD ⟨0, true⟩) ∧
      Scratch s.seglist (pre ++ merge prev size post) s.heap.mem m := by
  set lo := s.seglist
  set b := lo + total pre + prev.size
  have hq : (b, ⟨size, false⟩) ∈ layout lo (pre ++ prev :: ⟨size, false⟩ :: post) :=
    mem_layout_at (pre ++ [prev]) post (by simp [b, Nat.add_assoc]) (by simp)
  have hp : (lo + total pre, prev) ∈ layout lo (pre ++ prev :: ⟨size, false⟩ :: post) := mem_layout_mid
  have hsz32 : ∀ c ∈ pre ++ prev :: ⟨size, false⟩ :: post, 32 ≤ c.size := fun c hc => (hsz c hc).1
  have hszT := sizes_flip
    (show ∀ c ∈ (pre ++ [prev]) ++ ⟨size, false⟩ :: post, 32 ≤ c.size by simpa using hsz32) true
  simp only [List.append_assoc, List.singleton_append] at hszT
  have hszM : ∀ c ∈ pre ++ merge prev size post, 32 ≤ c.size := fun c hc => (sized_merge hsz c hc).1
  have hhT : Heads lo (pre ++ prev :: ⟨size, true⟩ :: post) := hh.append
  have hnext := hc.find_next hq
  have hprev := hc.find_prev hp
  have hpa := hc.get_alloc hp
  have hps := hc.get_size hp
  have hsz' := hc.get_size hq
  obtain ⟨-, -, -, hS88, -⟩ := hc.size_facts hq
  obtain ⟨-, -, -, hP88, -⟩ := hc.size_facts hp
  have hS32 : 32 ≤ size := hsz32 ⟨size, false⟩ (by simp)
  have hP32 : 32 ≤ prev.size := hsz32 prev (by simp)
  simp only at hS88 hnext hsz'
  rcases post with _ | ⟨n, post⟩
  · have hna : get_alloc s.heap (b + size) = .ok true := by
      simpa [b, Nat.add_assoc] using hc.get_alloc_end
    rcases prev with ⟨ps, _ | _⟩ <;> simp only at hP88 hP32 hprev hpa hps hna
    · -- only the previous block is free
      have hfirst : (lo + total pre, ⟨ps, false⟩) ∈ layout lo (pre ++ [⟨ps, false⟩, ⟨size, true⟩]) :=
        mem_layout_mid
      have hlast : (b, ⟨size, true⟩) ∈ layout lo (pre ++ [⟨ps, false⟩, ⟨size, true⟩]) :=
        mem_layout_at (pre ++ [⟨ps, false⟩]) [] (by simp [b, Nat.add_assoc]) (by simp)
      obtain ⟨hw₁, hw₂, hc₁, hl₁, hM₁⟩ := retag_filed (S := size + ps) rfl
        (show Chain s.heap lo (pre ++ [⟨ps, false⟩, ⟨size, false⟩] ++ []) by simpa using hc) hl hf hhT hszT
        hfirst hlast (by simp [b]; omega) (by simp; omega) (by omega) (by omega)
      set M₁ := (s.heap.mem.store (lo + total pre) 4 (pack (size + ps) false)).store
        (lo + total pre + (size + ps) - 4) 4 (pack (size + ps) false)
      obtain ⟨M₂, ls₂, hrm, hl₂, hf₂, hr₂⟩ := remove_filed (h := { s.heap with mem := M₁ }) rfl hl₁ hf hh
        (by simpa using hszT) hc.lo_le (by have := hc.end_le; simp at this ⊢; omega) hfit
      have hcov := cover_merge (a := lo) (S := size + ps) pre [⟨ps, true⟩, ⟨size, true⟩] [] (by simp; omega)
      obtain ⟨m, ls', hrun, hc₃, hl₃, hf₃, hsc⟩ := coalesce_finish [⟨ps, true⟩, ⟨size, true⟩] rfl
        (by simpa using hc₁) hh (by simpa [merge] using hszM) hM₁
        (hr₂.mono fun y hy => hy.mono (by simpa using hcov)) (by simp) (by simp; omega)
        hl₂ (by simpa using hf₂) hfit
      refine ⟨m, ls', lo + total pre, size + ps, ?_, by simpa [merge] using hc₃, hl₃, by simpa [merge] using hf₃,
        by simpa [merge] using (mem_layout_mid : (lo + total pre, ⟨size + ps, false⟩) ∈ layout lo (pre ++ [_])),
        by omega, by simp, by simp [free_bytes], by simpa [merge] using hsc⟩
      simp only [coalesce, hnext, hprev, hpa, hna, hsz', hps, ok_bind, Bool.false_and, Bool.not_false,
        Bool.true_and, Bool.false_eq_true, ite_false, ite_true]
      rw [hw₁, ok_bind, hw₂, ok_bind, hrm, ok_bind]
      simp only [pure_bind]
      erw [hrun]
      rfl
    · -- neither neighbour is free
      obtain ⟨m, ls', hrun, hc₃, hl₃, hf₃, hr₃⟩ := insert_free_block_filed (p := b) (by simp [b, Nat.add_assoc])
        (show Chain s.heap lo ((pre ++ [⟨ps, true⟩]) ++ ⟨size, false⟩ :: []) by simpa using hc) hh.append
        (by simpa using hsz32) hl (by simpa using hf) hfit
      refine ⟨m, ls', b, size, ?_, by simpa [merge] using hc₃, hl₃, by simpa [merge] using hf₃,
        by simpa [merge] using hq, le_rfl, by simp, by simp [free_bytes],
        by simpa [merge] using hr₃.scratch⟩
      simp only [coalesce, hnext, hprev, hpa, hna, hsz', ok_bind, Bool.and_self, ite_true, pure_bind]
      erw [hrun]
      rfl
  · have hn : (b + size, n) ∈ layout lo (pre ++ prev :: ⟨size, false⟩ :: n :: post) :=
      mem_layout_at (pre ++ [prev, ⟨size, false⟩]) post (by simp [b, Nat.add_assoc]) (by simp)
    have hna := hc.get_alloc hn
    have hns := hc.get_size hn
    obtain ⟨-, -, -, hN88, -⟩ := hc.size_facts hn
    have hN32 : 32 ≤ n.size := hsz32 n (by simp)
    have hend := hc.end_le
    simp only [total_append, total_cons] at hend
    rcases prev with ⟨ps, _ | _⟩ <;> rcases n with ⟨ns, _ | _⟩ <;>
      simp only at hP88 hP32 hN88 hN32 hprev hpa hps hna hns hend
    · -- both neighbours are free
      have hfirst : (lo + total pre, ⟨ps, false⟩) ∈
          layout lo (pre ++ ⟨ps, false⟩ :: ⟨size, true⟩ :: ⟨ns, false⟩ :: post) := mem_layout_mid
      have hlast : (b + size, ⟨ns, false⟩) ∈ layout lo (pre ++ ⟨ps, false⟩ :: ⟨size, true⟩ :: ⟨ns, false⟩ :: post) :=
        mem_layout_at (pre ++ [⟨ps, false⟩, ⟨size, true⟩]) post (by simp [b, Nat.add_assoc]) (by simp)
      obtain ⟨hw₁, hw₂, hc₁, hl₁, hM₁⟩ := retag_filed (S := size + (ns + ps)) (q := b + size) rfl
        (show Chain s.heap lo (pre ++ [⟨ps, false⟩, ⟨size, false⟩, ⟨ns, false⟩] ++ post) by simpa using hc)
        hl hf hhT hszT hfirst hlast (by simp [b]; omega) (by simp; omega) (by omega) (by omega)
      set M₁ := (s.heap.mem.store (lo + total pre) 4 (pack (size + (ns + ps)) false)).store
        (lo + total pre + (size + (ns + ps)) - 4) 4 (pack (size + (ns + ps)) false)
      obtain ⟨M₂, ls₂, hrm₁, hl₂, hf₂, hr₂⟩ := remove_filed (h := { s.heap with mem := M₁ }) rfl hl₁ hf hh
        hszT hc.lo_le (by simp; omega) hfit
      obtain ⟨M₃, ls₃, hrm₂, hl₃, hf₃, hr₃⟩ := remove_filed (h := { s.heap with mem := M₂ })
        (show b + size = lo + total (pre ++ [⟨ps, true⟩, ⟨size, true⟩]) by simp [b, Nat.add_assoc]) hl₂
        (show Filed lo ((pre ++ [⟨ps, true⟩, ⟨size, true⟩]) ++ ⟨ns, false⟩ :: post) ls₂ by simpa using hf₂)
        hh.append (sizes_of hsz32 (by simp)) hc.lo_le (by simp; omega) hfit
      have hcov₂ := cover_merge (a := lo) (S := size + (ns + ps)) pre [⟨ps, true⟩, ⟨size, true⟩, ⟨ns, false⟩] post
        (by simp; omega)
      have hcov₃ := cover_merge (a := lo) (S := size + (ns + ps)) pre [⟨ps, true⟩, ⟨size, true⟩, ⟨ns, true⟩] post
        (by simp; omega)
      obtain ⟨m, ls', hrun, hc₄, hl₄, hf₄, hsc⟩ := coalesce_finish [⟨ps, true⟩, ⟨size, true⟩, ⟨ns, true⟩] rfl hc₁ hh
        (by simpa [merge] using hszM) hM₁
        ((hr₂.mono fun y hy => hy.mono (by simpa using hcov₂)).trans (hr₃.mono fun y hy => hy.mono (by simpa using hcov₃)))
        (by simp) (by simp; omega) hl₃ (by simpa using hf₃) hfit
      refine ⟨m, ls', lo + total pre, size + (ns + ps), ?_, by simpa [merge] using hc₄, hl₄,
        by simpa [merge] using hf₄, by simpa [merge] using (mem_layout_mid : (lo + total pre, ⟨size + (ns + ps), false⟩) ∈
          layout lo (pre ++ _ :: post)), by omega, by simp, by simp [free_bytes]; omega, by simpa [merge] using hsc⟩
      simp only [coalesce, hnext, hprev, hpa, hna, hsz', hps, hns, ok_bind, Bool.false_and,
        Bool.not_false, Bool.and_false, Bool.false_eq_true, ite_false]
      rw [hw₁, ok_bind, hw₂, ok_bind, hrm₁, ok_bind, hrm₂, ok_bind]
      simp only [pure_bind]
      erw [hrun]
      rfl
    · -- only the previous block is free
      have hfirst : (lo + total pre, ⟨ps, false⟩) ∈
          layout lo (pre ++ ⟨ps, false⟩ :: ⟨size, true⟩ :: ⟨ns, true⟩ :: post) := mem_layout_mid
      have hlast : (b, ⟨size, true⟩) ∈ layout lo (pre ++ ⟨ps, false⟩ :: ⟨size, true⟩ :: ⟨ns, true⟩ :: post) :=
        mem_layout_at (pre ++ [⟨ps, false⟩]) (⟨ns, true⟩ :: post) (by simp [b, Nat.add_assoc]) (by simp)
      obtain ⟨hw₁, hw₂, hc₁, hl₁, hM₁⟩ := retag_filed (S := size + ps) (q := b) rfl
        (show Chain s.heap lo (pre ++ [⟨ps, false⟩, ⟨size, false⟩] ++ ⟨ns, true⟩ :: post) by simpa using hc)
        hl hf hhT hszT hfirst hlast (by simp [b]; omega) (by simp; omega) (by omega) (by omega)
      set M₁ := (s.heap.mem.store (lo + total pre) 4 (pack (size + ps) false)).store
        (lo + total pre + (size + ps) - 4) 4 (pack (size + ps) false)
      obtain ⟨M₂, ls₂, hrm, hl₂, hf₂, hr₂⟩ := remove_filed (h := { s.heap with mem := M₁ }) rfl hl₁ hf hh
        hszT hc.lo_le (by simp; omega) hfit
      have hcov := cover_merge (a := lo) (S := size + ps) pre [⟨ps, true⟩, ⟨size, true⟩] (⟨ns, true⟩ :: post)
        (by simp; omega)
      obtain ⟨m, ls', hrun, hc₃, hl₃, hf₃, hsc⟩ := coalesce_finish [⟨ps, true⟩, ⟨size, true⟩] rfl hc₁ hh
        (by simpa [merge] using hszM) hM₁ (hr₂.mono fun y hy => hy.mono (by simpa using hcov)) (by simp)
        (by simp; omega) hl₂ (by simpa using hf₂) hfit
      refine ⟨m, ls', lo + total pre, size + ps, ?_, by simpa [merge] using hc₃, hl₃, by simpa [merge] using hf₃,
        by simpa [merge] using (mem_layout_mid : (lo + total pre, ⟨size + ps, false⟩) ∈
          layout lo (pre ++ _ :: ⟨ns, true⟩ :: post)), by omega, by simp, by simp [free_bytes], by simpa [merge] using hsc⟩
      simp only [coalesce, hnext, hprev, hpa, hna, hsz', hps, ok_bind, Bool.false_and, Bool.not_false,
        Bool.true_and, Bool.false_eq_true, ite_false, ite_true]
      rw [hw₁, ok_bind, hw₂, ok_bind, hrm, ok_bind]
      simp only [pure_bind]
      erw [hrun]
      rfl
    · -- only the next block is free
      have hfirst : (b, ⟨size, true⟩) ∈ layout lo (pre ++ ⟨ps, true⟩ :: ⟨size, true⟩ :: ⟨ns, false⟩ :: post) :=
        mem_layout_at (pre ++ [⟨ps, true⟩]) (⟨ns, false⟩ :: post) (by simp [b, Nat.add_assoc]) (by simp)
      have hlast : (b + size, ⟨ns, false⟩) ∈ layout lo (pre ++ ⟨ps, true⟩ :: ⟨size, true⟩ :: ⟨ns, false⟩ :: post) :=
        mem_layout_at (pre ++ [⟨ps, true⟩, ⟨size, true⟩]) post (by simp [b, Nat.add_assoc]) (by simp)
      obtain ⟨hw₁, hw₂, hc₁, hl₁, hM₁⟩ := retag_filed (S := size + ns) (q := b + size)
        (show b = lo + total (pre ++ [⟨ps, true⟩]) by simp [b, Nat.add_assoc])
        (show Chain s.heap lo ((pre ++ [⟨ps, true⟩]) ++ [⟨size, false⟩, ⟨ns, false⟩] ++ post) by simpa using hc)
        hl hf hhT hszT hfirst hlast (by simp; omega) (by simp) (by omega) (by omega)
      set M₁ := (s.heap.mem.store b 4 (pack (size + ns) false)).store (b + (size + ns) - 4) 4 (pack (size + ns) false)
      obtain ⟨M₂, ls₂, hrm, hl₂, hf₂, hr₂⟩ := remove_filed (h := { s.heap with mem := M₁ })
        (show b + size = lo + total (pre ++ [⟨ps, true⟩, ⟨size, true⟩]) by simp [b, Nat.add_assoc]) hl₁
        (show Filed lo ((pre ++ [⟨ps, true⟩, ⟨size, true⟩]) ++ ⟨ns, false⟩ :: post) ls by simpa using hf)
        hh.append (sizes_of hsz32 (by simp)) hc.lo_le (by simp; omega) hfit
      have hcov := cover_merge (a := lo) (S := size + ns) (pre ++ [⟨ps, true⟩]) [⟨size, true⟩, ⟨ns, true⟩] post
        (by simp)
      obtain ⟨m, ls', hrun, hc₃, hl₃, hf₃, hsc⟩ := coalesce_finish [⟨size, true⟩, ⟨ns, true⟩]
        (show b = s.seglist + total (pre ++ [⟨ps, true⟩]) by simp [b, Nat.add_assoc]) hc₁ hh.append
        (by simpa [merge] using hszM) hM₁ (hr₂.mono fun y hy => hy.mono (by simpa using hcov)) (by simp)
        (by simp) hl₂ (by simpa using hf₂) hfit
      refine ⟨m, ls', b, size + ns, ?_, by simpa [merge] using hc₃, hl₃, by simpa [merge] using hf₃,
        mem_layout_at (pre ++ [⟨ps, true⟩]) post (by simp [b, Nat.add_assoc]) (by simp [merge]), by omega,
        by simp, by simp [free_bytes], by simpa [merge] using hsc⟩
      simp only [coalesce, hnext, hprev, hpa, hna, hsz', hns, ok_bind, Bool.true_and, Bool.not_false,
        Bool.false_eq_true, ite_false, ite_true, Bool.not_true, Bool.and_false]
      rw [hw₁, ok_bind, hw₂, ok_bind, hrm, ok_bind]
      simp only [pure_bind]
      erw [hrun]
      rfl
    · -- neither neighbour is free
      obtain ⟨m, ls', hrun, hc₃, hl₃, hf₃, hr₃⟩ := insert_free_block_filed (p := b) (by simp [b, Nat.add_assoc])
        (show Chain s.heap lo ((pre ++ [⟨ps, true⟩]) ++ ⟨size, false⟩ :: ⟨ns, true⟩ :: post) by simpa using hc)
        hh.append (sizes_of hsz32 (by simp)) hl (by simpa using hf) hfit
      refine ⟨m, ls', b, size, ?_, by simpa [merge] using hc₃, hl₃, by simpa [merge] using hf₃,
        by simpa [merge] using hq, le_rfl, by simp, by simp [free_bytes],
        by simpa [merge] using hr₃.scratch⟩
      simp only [coalesce, hnext, hprev, hpa, hna, hsz', ok_bind, Bool.and_self, ite_true, pure_bind]
      erw [hrun]
      rfl

end coalesce

section place

variable {s : State} {ls : Nat → List Nat} {l₁ l₂ : List Blk} {csize asize p : Nat}

/-- The real blocks start after the head records. -/
theorem Heads.le_total {lo : Nat} {l : List Blk} (hh : Heads lo l) : lo + size_class_cnt * block_size ≤ lo + total l := by
  have := (mem_layout (hh 15 (by decide))).2.2
  simp only [head, block_size, size_class_cnt] at this ⊢
  omega

/-- A store inside an allocated block after the head records keeps the lists. -/
theorem Lists.store_alloc {m : Mem} {lo : Nat} {full : List Blk} (hl : Lists m lo ls) (hf : Filed lo full ls)
    (hh : Heads lo full) (hsz : ∀ c ∈ full, 32 ≤ c.size) {q c : Nat} (hq : (q, ⟨c, true⟩) ∈ layout lo full)
    (hq' : lo + size_class_cnt * block_size ≤ q) {w k v : Nat} (hw : q ≤ w) (hwk : w + k ≤ q + c) :
    Lists (m.store w k v) lo ls :=
  hl.store_away fun x hx => by
    obtain ⟨d, hd, hfree⟩ := hf.block hh hx
    have hne : x ≠ q := by
      rintro rfl
      rcases hfree with h | ⟨i, hi, rfl⟩
      · have := layout_unique (fun e he => by have := hsz e he; omega) hd hq
        simp [this] at h
      · simp only [head, size_class_cnt, block_size] at hi hq'
        omega
    have hdis := layout_disjoint hd hq hne
    have := hsz d (mem_layout hd).1
    dsimp only at hdis
    omega

/-- `split_block` of the block after `l₁`, which no list holds: its first `asize` bytes become an
    allocated block and the rest a free block on its list; only that block, head records and
    free blocks change, and the new block's payload is not written. -/
theorem split_block_spec {al : Bool} (hp : p = s.seglist + total l₁)
    (hc : Chain s.heap s.seglist (l₁ ++ ⟨csize, al⟩ :: l₂)) (hh : Heads s.seglist l₁)
    (hsz : ∀ c ∈ l₁ ++ ⟨csize, al⟩ :: l₂, 32 ≤ c.size) (hl : Lists s.heap.mem s.seglist ls)
    (hf : Filed s.seglist (l₁ ++ ⟨csize, true⟩ :: l₂) ls) (hfit : s.heap.brk < 2 ^ 64)
    (ha : 32 ≤ asize) (ha8 : asize % 8 = 0) (hrest : asize + 32 ≤ csize) :
    ∃ m ls', split_block s p asize = .ok { s with heap := { s.heap with mem := m } } ∧
      Chain { s.heap with mem := m } s.seglist (l₁ ++ ⟨asize, true⟩ :: ⟨csize - asize, false⟩ :: l₂) ∧
      Lists m s.seglist ls' ∧ Filed s.seglist (l₁ ++ ⟨asize, true⟩ :: ⟨csize - asize, false⟩ :: l₂) ls' ∧
      Scratch s.seglist (l₁ ++ ⟨csize, false⟩ :: l₂) s.heap.mem m ∧
      ∀ x, p + 4 ≤ x → x + 4 < p + asize → m x = s.heap.mem x := by
  subst hp
  set lo := s.seglist
  set p := lo + total l₁
  have hb : (p, ⟨csize, al⟩) ∈ layout lo (l₁ ++ ⟨csize, al⟩ :: l₂) := mem_layout_mid
  have hbT : (p, ⟨csize, true⟩) ∈ layout lo (l₁ ++ ⟨csize, true⟩ :: l₂) := mem_layout_mid
  obtain ⟨hlo, hhi, -, hc88, hlt⟩ := hc.size_facts hb
  dsimp only at hhi hc88 hlt
  have hcs := hc.get_size hb
  have hszT : ∀ c ∈ l₁ ++ ⟨csize, true⟩ :: l₂, 32 ≤ c.size := sizes_of hsz (by simp)
  have hp512 : lo + size_class_cnt * block_size ≤ p := hh.le_total
  set R := csize - asize with hR
  have hchain := hc.split true false (s := asize) (by omega) ha8 (by simp; omega)
  dsimp only at hchain
  rw [← hR] at hchain
  set M₂ := (s.heap.mem.store p 4 (pack asize true)).store (p + asize - 4) 4 (pack asize true)
  set M₄ := (M₂.store (p + asize) 4 (pack R false)).store (p + asize + R - 4) 4 (pack R false)
  have hl₄ : Lists M₄ lo ls := by
    have h1 := hl.store_alloc hf hh.append hszT hbT hp512 (w := p) (k := 4) (v := pack asize true) le_rfl (by omega)
    have h2 := h1.store_alloc hf hh.append hszT hbT hp512 (w := p + asize - 4) (k := 4) (v := pack asize true)
      (by omega) (by omega)
    have h3 := h2.store_alloc hf hh.append hszT hbT hp512 (w := p + asize) (k := 4) (v := pack R false)
      (by omega) (by omega)
    exact h3.store_alloc hf hh.append hszT hbT hp512 (by omega) (by omega)
  have hszN : ∀ c ∈ l₁ ++ ⟨asize, true⟩ :: ⟨R, false⟩ :: l₂, 32 ≤ c.size := by
    intro c hc
    simp only [List.mem_append, List.mem_cons] at hc
    rcases hc with hc | rfl | rfl | hc
    · exact hsz c (List.mem_append_left _ hc)
    · exact ha
    · dsimp only
      omega
    · exact hsz c (by simp [hc])
  have hf₄ : Filed lo ((l₁ ++ [⟨asize, true⟩]) ++ ⟨R, true⟩ :: l₂) ls := hf.congr fun x S' => by
    have : (x, ⟨S', false⟩) ∈ layout lo (l₁ ++ [⟨asize, true⟩, ⟨R, true⟩] ++ l₂) ↔
        (x, ⟨S', false⟩) ∈ layout lo (l₁ ++ [⟨csize, true⟩] ++ l₂) :=
      free_congr _ (by simp) (by simp) (by simp; omega)
    simpa using this
  obtain ⟨m, ls', hrun, hc₅, hl₅, hf₅, hr₅⟩ := insert_free_block_filed
    (s := { s with heap := { s.heap with mem := M₄ } }) (p := p + asize) (by simp [p, Nat.add_assoc])
    (by rw [List.append_cons l₁ ⟨asize, true⟩] at hchain; exact hchain) hh.append
    (by simpa using hszN) hl₄ hf₄ hfit
  have hnext : find_next { s.heap with mem := M₂ } p = .ok (p + asize) := by
    simp only [find_next]
    rw [get_size_eq (h := { s.heap with mem := M₂ }) hlo (by simp; omega), ok_bind]
    simp only [M₂, Mem.load_store_of_disjoint (show p + 4 ≤ p + asize - 4 ∨ _ from .inl (by omega)),
      Mem.load_store_self, Nat.mod_eq_of_lt (show pack asize true < 256 ^ 4 from pack_lt _ _),
      extract_size_pack ha8 (by omega), pure_eq_ok]
  have hcov := cover_merge (a := lo) (S := csize) l₁ [⟨asize, true⟩, ⟨R, false⟩] l₂ (by simp; omega)
  refine ⟨m, ls', ?_, by simpa using hc₅, hl₅, by simpa using hf₅, ?_, ?_⟩
  · simp only [split_block, hcs, ok_bind]
    rw [write_header_eq hlo (by omega), ok_bind, write_footer_of_header hlo (by omega) (by omega) ha8 (by omega),
      ok_bind, hnext, ok_bind, size_sub_of_le (by omega) (by omega),
      write_header_eq (h := { s.heap with mem := M₂ }) (by simp; omega) (by simp; omega), ok_bind,
      write_footer_of_header (h := { s.heap with mem := M₂ }) (by simp; omega) (by simp; omega) (by omega)
        (by omega) (by omega), ok_bind]
    erw [hrun]
  · refine (Scratch.of_block mem_layout_mid fun x hx => ?_).trans
      (hr₅.mono fun y hy => hy.mono (by simpa using hcov)).scratch
    simp only [M₄, M₂]
    rw [Mem.store_apply_of_not_mem (by omega), Mem.store_apply_of_not_mem (by omega),
      Mem.store_apply_of_not_mem (by omega), Mem.store_apply_of_not_mem (by omega)]
  · intro x hx1 hx2
    have hM : M₄ x = s.heap.mem x := by
      simp only [M₄, M₂]
      rw [Mem.store_apply_of_not_mem (by omega), Mem.store_apply_of_not_mem (by omega),
        Mem.store_apply_of_not_mem (by omega), Mem.store_apply_of_not_mem (by omega)]
    have hsc : Scratch lo (l₁ ++ [⟨asize, true⟩] ++ ⟨R, false⟩ :: l₂) M₄ m := hr₅.scratch
    rw [← hM]
    exact hsc.apply_alloc (fun c hc => by have := hszN c (by simpa using hc); omega)
      (mem_layout_at (c := ⟨asize, true⟩) l₁ (⟨R, false⟩ :: l₂) rfl (by simp)) hp512 (by omega) (by omega)

/-- `place` of `asize` bytes in the free block after `l₁`: the block leaves its list and is
    carved as `carve` says; only free blocks of the old chain and head records change. -/
theorem place_spec (hp : p = s.seglist + total l₁)
    (hc : Chain s.heap s.seglist (l₁ ++ ⟨csize, false⟩ :: l₂)) (hh : Heads s.seglist l₁)
    (hsz : ∀ c ∈ l₁ ++ ⟨csize, false⟩ :: l₂, 32 ≤ c.size) (hl : Lists s.heap.mem s.seglist ls)
    (hf : Filed s.seglist (l₁ ++ ⟨csize, false⟩ :: l₂) ls) (hfit : s.heap.brk < 2 ^ 64)
    (ha : 32 ≤ asize) (ha8 : asize % 8 = 0) (hac : asize ≤ csize) :
    ∃ m ls', place s p asize = .ok { s with heap := { s.heap with mem := m } } ∧
      Chain { s.heap with mem := m } s.seglist (l₁ ++ carve min_block_size csize asize ++ l₂) ∧
      Lists m s.seglist ls' ∧ Filed s.seglist (l₁ ++ carve min_block_size csize asize ++ l₂) ls' ∧
      Scratch s.seglist (l₁ ++ ⟨csize, false⟩ :: l₂) s.heap.mem m := by
  subst hp
  set lo := s.seglist
  set p := lo + total l₁
  have hb : (p, ⟨csize, false⟩) ∈ layout lo (l₁ ++ ⟨csize, false⟩ :: l₂) := mem_layout_mid
  have hcs := hc.get_size hb
  obtain ⟨hlo, hhi, -, hc88, hlt⟩ := hc.size_facts hb
  dsimp only at hhi hc88 hlt hcs
  obtain ⟨M₁, ls₁, hrm, hl₁, hf₁, hr₁⟩ := remove_filed rfl hl hf hh hsz hc.lo_le (by have := hc.end_le; omega) hfit
  have hr₁' : Relinks (Spare lo (l₁ ++ ⟨csize, false⟩ :: l₂)) s.heap.mem M₁ :=
    hr₁.mono fun y hy => hy.mono fun q S hq => ⟨q, S, mem_layout_flip.2 (.inr hq), le_rfl, le_rfl⟩
  have hc₁ : Chain { s.heap with mem := M₁ } lo (l₁ ++ ⟨csize, false⟩ :: l₂) := Chain.relink hc hh.append hr₁'
  by_cases hsplit : csize - asize ≥ min_block_size
  · obtain ⟨m, ls', hrun, hc₂, hl₂, hf₂, hsc, -⟩ := split_block_spec (s := { s with heap := { s.heap with mem := M₁ } })
      rfl hc₁ hh hsz hl₁ hf₁ hfit ha ha8 (by simp only [min_block_size, wsize, ptr_size] at hsplit; omega)
    refine ⟨m, ls', ?_, by simpa [carve, hsplit] using hc₂, hl₂, by simpa [carve, hsplit] using hf₂,
      hr₁'.scratch.trans hsc⟩
    simp only [place, hcs, hrm, ok_bind, size_sub_of_le hac (by omega), hsplit, ite_true]
    exact hrun
  · have hq : (p, ⟨csize, true⟩) ∈ layout lo (l₁ ++ ⟨csize, true⟩ :: l₂) := mem_layout_mid
    have hszT := sizes_flip hsz true
    have hl₂ := (hl₁.store_tag hf₁ hh.append hszT hq (w := p) (v := pack csize true) (.inl rfl)).store_tag
      hf₁ hh.append hszT hq (w := p + csize - 4) (v := pack csize true) (.inr (by dsimp only; omega))
    have hc₂ := (show Chain _ lo (l₁ ++ [⟨csize, false⟩] ++ l₂) by simpa using hc₁).retag true
      (show total [⟨csize, false⟩] = csize by simp) (by omega) hc88
    refine ⟨_, ls₁, ?_, by simpa [carve, hsplit] using hc₂, hl₂, by simpa [carve, hsplit] using hf₁,
      hr₁'.scratch.trans (Scratch.of_block hb fun x hx => ?_)⟩
    · simp only [place, hcs, hrm, ok_bind, size_sub_of_le hac (by omega), hsplit, ite_false]
      rw [write_header_eq (h := { s.heap with mem := M₁ }) hlo (by simp; omega), ok_bind,
        write_footer_of_header (h := { s.heap with mem := M₁ }) hlo (by simp; omega) (by omega) hc88 hlt]
      rfl
    · rw [Mem.store_apply_of_not_mem (by omega), Mem.store_apply_of_not_mem (by omega)]

end place

section coalesce_real

variable {s : State} {ls : Nat → List Nat} {l₁ post : List Blk} {size : Nat}

theorem sentinels_eq : sentinels = List.replicate size_class_cnt ⟨block_size, true⟩ ++ [⟨block_size, true⟩] := by
  simp only [sentinels, List.replicate_succ']

theorem heads_replicate {lo : Nat} : Heads lo (List.replicate size_class_cnt ⟨block_size, true⟩) :=
  fun _ hi => mem_layout_replicate hi

/-- The sentinels are allocated, so a free block of the chain is a real block. -/
theorem mem_layout_real {lo q S : Nat} {bs : List Blk} (h : (q, ⟨S, false⟩) ∈ layout lo (sentinels ++ bs)) :
    (q, ⟨S, false⟩) ∈ layout (lo + total sentinels) bs := by
  rw [layout_append, List.mem_append] at h
  rcases h with h | h
  · simpa [sentinels] using (mem_layout h).1
  · exact h

/-- `coalesce` of the free block after the sentinels and the real blocks `l₁`: the real blocks
    that result, with everything the callers of `coalesce` use about them. -/
theorem coalesce_real (hc : Chain s.heap s.seglist (sentinels ++ l₁ ++ ⟨size, false⟩ :: post))
    (hsz : Sized min_block_size (l₁ ++ ⟨size, false⟩ :: post)) (hl : Lists s.heap.mem s.seglist ls)
    (hf : Filed s.seglist (sentinels ++ l₁ ++ ⟨size, true⟩ :: post) ls) (hfit : s.heap.brk < 2 ^ 64) :
    ∃ m ls' r S bs', coalesce s (s.seglist + total sentinels + total l₁) =
        .ok ({ s with heap := { s.heap with mem := m } }, r) ∧
      Chain { s.heap with mem := m } s.seglist (sentinels ++ bs') ∧ Sized min_block_size bs' ∧
      total bs' = total l₁ + size + total post ∧
      allocs (s.seglist + total sentinels) bs' =
        allocs (s.seglist + total sentinels) (l₁ ++ ⟨size, false⟩ :: post) ∧
      Lists m s.seglist ls' ∧ Filed s.seglist (sentinels ++ bs') ls' ∧
      (r, ⟨S, false⟩) ∈ layout (s.seglist + total sentinels) bs' ∧ size ≤ S ∧
      Scratch s.seglist (sentinels ++ bs') s.heap.mem m ∧
      bs' = (free_at (s.seglist + total sentinels + total l₁) (s.seglist + total sentinels) prologue
        (l₁ ++ ⟨size, false⟩ :: post)).tail ∧
      r = s.seglist + total sentinels + total l₁ - free_bytes (l₁.getLastD prologue) := by
  have hsz' := sized_sentinels hsz
  rcases List.eq_nil_or_concat l₁ with rfl | ⟨pre, prev, rfl⟩
  · have hsplit : ∀ l : List Blk, sentinels ++ l =
        List.replicate size_class_cnt ⟨block_size, true⟩ ++ ⟨block_size, true⟩ :: l := fun l => by
      simp [sentinels_eq]
    obtain ⟨m, ls', r, S, hrun, hchain, hl', hf', hr, hS, hr', -, hsc⟩ := coalesce_spec
      (by simpa [hsplit] using hc) heads_replicate (by simpa [hsplit] using hsz') hl
      (by simpa [hsplit] using hf) hfit
    have hm : merge ⟨block_size, true⟩ size post =
        ⟨block_size, true⟩ :: (merge ⟨block_size, true⟩ size post).tail := by
      rcases post with _ | ⟨⟨ns, _ | _⟩, post⟩ <;> simp [merge]
    rw [hm, ← hsplit] at hchain hf' hr hsc
    have htot : total (merge ⟨block_size, true⟩ size post) = _ := total_merge
    have hal : allocs (s.seglist + total (List.replicate size_class_cnt ⟨block_size, true⟩))
        (merge ⟨block_size, true⟩ size post) = _ := allocs_merge
    rw [hm] at htot hal
    have hszM := sized_merge (by simpa [hsplit] using hsz')
    rw [hm, ← hsplit] at hszM
    have h512 : total (List.replicate size_class_cnt (⟨block_size, true⟩ : Blk)) = 512 := rfl
    have hpro : prologue = ⟨block_size, true⟩ := rfl
    refine ⟨m, ls', r, S, _, by simpa using hrun, hchain, (Sized.append.1 hszM).2, ?_, ?_, hl', hf',
      mem_layout_real hr, hS, hsc, by simp [free_at, hpro], ?_⟩
    · simp [block_size] at htot ⊢
      omega
    · rw [h512] at hal
      simpa [Nat.add_assoc, block_size] using hal
    · rw [hr', h512]
      rfl
  · obtain ⟨m, ls', r, S, hrun, hchain, hl', hf', hr, hS, hr', -, hsc⟩ := coalesce_spec
      (show Chain s.heap s.seglist ((sentinels ++ pre) ++ prev :: ⟨size, false⟩ :: post) by simpa using hc)
      heads_sentinels (by simpa using hsz') hl (by simpa using hf) hfit
    rw [List.append_assoc] at hchain hf' hr hsc
    rw [List.concat_eq_append] at hsz ⊢
    have hpos : ∀ d ∈ pre ++ [prev], 0 < d.size := fun d hd => hsz.pos (by decide) d (List.mem_append_left _ hd)
    refine ⟨m, ls', r, S, pre ++ merge prev size post, by simpa [Nat.add_assoc] using hrun, hchain,
      sized_merge (by simpa using hsz), ?_, by simp [allocs_append, allocs_merge], hl', hf',
      mem_layout_real hr, hS, hsc,
      by rw [free_at_append hpos, List.getLastD_concat, ← List.cons_append, List.dropLast_concat]; rfl, ?_⟩
    · simp [total_merge]
      omega
    · rw [hr', List.getLastD_concat]
      by_cases hp : prev.alloc <;> simp [free_bytes, hp, total_append] <;> omega

end coalesce_real

end malloc_lab.segregated
