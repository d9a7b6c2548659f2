import MallocLab.Implicit.Basic
import MallocLab.Live

namespace malloc_lab.implicit

section helpers

variable {h : Heap} {p S : Nat} {al al' : Bool}

theorem write_footer_of_header (hlo : h.lo ≤ p) (hhi : p + S ≤ h.brk) (h8 : 8 ≤ S)
    (h88 : S % 8 = 0) (hlt : S < 2 ^ 32) :
    write_footer { h with mem := h.mem.store p 4 (pack S al) } p S al' =
      .ok { h with mem := (h.mem.store p 4 (pack S al)).store (p + S - 4) 4 (pack S al') } := by
  have hread : get_size { h with mem := h.mem.store p 4 (pack S al) } p = .ok S := by
    rw [get_size_eq (h := { h with mem := h.mem.store p 4 (pack S al) }) hlo (by simp; omega)]
    simp only [Mem.load_store_self, Nat.mod_eq_of_lt (show pack S al < 256 ^ 4 from pack_lt _ _),
      extract_size_pack h88 hlt]
  simp only [write_footer, hread, ok_bind, wsize, dsize]
  rw [show p + 4 + S - 2 * 4 = p + S - 4 by omega, Heap.write_of_mem (by simp; omega) (by simp; omega)]

/-- `write_header` then `write_footer` with one size tag the block at `p`. -/
theorem write_header_footer (hlo : h.lo ≤ p) (hhi : p + S ≤ h.brk) (h8 : 8 ≤ S)
    (h88 : S % 8 = 0) (hlt : S < 2 ^ 32) :
    (do let h ← write_header h p S al; write_footer h p S al') =
      .ok { h with mem := (h.mem.store p 4 (pack S al)).store (p + S - 4) 4 (pack S al') } := by
  rw [write_header_eq hlo (by omega), ok_bind, write_footer_of_header hlo hhi h8 h88 hlt]

end helpers


section coalesce

variable {h : Heap} {a size : Nat} {pre post : List Blk} {prev : Blk}

/-- The write pair of a `coalesce` case, over the run `mid` starting at `a + total l₁`. -/
private theorem coalesce_case (l₁ mid l₂ : List Blk) {p S : Nat} (hc : Chain h a (l₁ ++ mid ++ l₂))
    (hp : p = a + total l₁) (hS : total mid = S) (h8 : 8 ≤ S) (h88 : S % 8 = 0) :
    ∃ m, (do let h ← write_header h p S false
             let h ← write_footer h p S false
             pure (h, p)) = Except.ok ({ h with mem := m }, p) ∧
      Chain { h with mem := m } a (l₁ ++ ⟨S, false⟩ :: l₂) ∧
      (p, ⟨S, false⟩) ∈ layout a (l₁ ++ ⟨S, false⟩ :: l₂) ∧
      ∀ x, x < p ∨ p + S ≤ x → m x = h.mem x := by
  subst hp
  have hlo := hc.lo_le
  have hhi := hc.end_le
  simp only [total_append] at hhi
  refine ⟨_, ?_, hc.retag false hS h8 h88, mem_layout_mid, fun x hx => store_store_outside hx (by omega)⟩
  rw [write_header_eq (by omega) (by omega), ok_bind,
    write_footer_of_header (by omega) (by omega) h8 h88 (by have := hc.small; simp at this; omega)]
  rfl

/-- `coalesce` of the free block that follows `pre ++ [prev]` leaves the chain `merge` computes,
    returns the merged free block, which starts at `prev` when `prev` is free and holds the bytes
    of its free neighbours, and writes nothing outside it. -/
theorem coalesce_spec (hc : Chain h a (pre ++ prev :: ⟨size, false⟩ :: post)) :
    ∃ m r S, coalesce h (a + total pre + prev.size) = .ok ({ h with mem := m }, r) ∧
      Chain { h with mem := m } a (pre ++ merge prev size post) ∧
      (r, ⟨S, false⟩) ∈ layout a (pre ++ merge prev size post) ∧ size ≤ S ∧
      r = (if prev.alloc then a + total pre + prev.size else a + total pre) ∧
      S = size + free_bytes prev + free_bytes (post.headD ⟨0, true⟩) ∧
      ∀ x, x < r ∨ r + S ≤ x → m x = h.mem x := by
  have hq : (a + total pre + prev.size, ⟨size, false⟩) ∈ layout a (pre ++ prev :: ⟨size, false⟩ :: post) := by
    simpa using mem_layout_of_eq (b := ⟨size, false⟩) (pre ++ [prev]) post
      (a := a) (p := a + total pre + prev.size) (by simp [Nat.add_assoc])
  have hp : (a + total pre, prev) ∈ layout a (pre ++ prev :: ⟨size, false⟩ :: post) := mem_layout_mid
  have hnext := hc.find_next hq
  have hprev := hc.find_prev hp
  have hpa := hc.get_alloc hp
  have hps := hc.get_size hp
  have hsz := hc.get_size hq
  obtain ⟨-, -, hS8, hS88, -⟩ := hc.size_facts hq
  obtain ⟨-, -, hP8, hP88, -⟩ := hc.size_facts hp
  simp only at hS8 hS88 hnext hsz
  rcases post with _ | ⟨n, post⟩
  · have hna : get_alloc h (a + total pre + prev.size + size) = .ok true := by
      simpa [Nat.add_assoc] using hc.get_alloc_end
    rcases prev with ⟨ps, _ | _⟩ <;> simp only at hP8 hP88 hnext hprev hpa hps hsz hna
    · -- only the previous block is free
      obtain ⟨m, hrun, hchain, hmem, hframe⟩ := coalesce_case pre
        [⟨ps, false⟩, ⟨size, false⟩] [] (S := size + ps) (by simpa using hc) rfl
        (by simp; omega) (by omega) (by omega)
      refine ⟨m, a + total pre, size + ps, ?_, by simpa [merge] using hchain,
        by simpa [merge] using hmem, by omega, by simp, by simp [free_bytes], hframe⟩
      simp only [coalesce, hnext, hprev, hpa, hna, hsz, hps, ok_bind, Bool.false_and, Bool.not_false,
        Bool.true_and, Bool.false_eq_true, ite_false, ite_true]
      exact hrun
    · -- neither neighbour is free
      refine ⟨h.mem, _, size, ?_, by simpa [merge] using hc, hq, le_rfl, by simp, by simp [free_bytes], fun _ _ => rfl⟩
      simp only [coalesce, hnext, hprev, hpa, hna, hsz, ok_bind, Bool.and_self, ite_true]
      rfl
  · have hn : (a + total pre + prev.size + size, n) ∈ layout a (pre ++ prev :: ⟨size, false⟩ :: n :: post) := by
      simpa using mem_layout_of_eq (b := n) (pre ++ [prev, ⟨size, false⟩]) post
        (a := a) (p := a + total pre + prev.size + size) (by simp [Nat.add_assoc])
    have hna := hc.get_alloc hn
    have hns := hc.get_size hn
    obtain ⟨-, -, hN8, hN88, -⟩ := hc.size_facts hn
    rcases prev with ⟨ps, _ | _⟩ <;> rcases n with ⟨ns, _ | _⟩ <;>
      simp only at hP8 hP88 hN8 hN88 hnext hprev hpa hps hsz hna hns
    · -- both neighbours are free
      obtain ⟨m, hrun, hchain, hmem, hframe⟩ := coalesce_case pre
        [⟨ps, false⟩, ⟨size, false⟩, ⟨ns, false⟩] post (S := size + (ns + ps))
        (by simpa using hc) rfl (by simp; omega) (by omega) (by omega)
      refine ⟨m, a + total pre, size + (ns + ps), ?_, by simpa [merge] using hchain,
        by simpa [merge] using hmem, by omega, by simp, by simp [free_bytes]; omega, hframe⟩
      simp only [coalesce, hnext, hprev, hpa, hna, hsz, hps, hns, ok_bind, Bool.false_and,
        Bool.not_false, Bool.and_false, Bool.false_eq_true, ite_false]
      exact hrun
    · -- only the previous block is free
      obtain ⟨m, hrun, hchain, hmem, hframe⟩ := coalesce_case pre
        [⟨ps, false⟩, ⟨size, false⟩] (⟨ns, true⟩ :: post) (S := size + ps)
        (by simpa using hc) rfl (by simp; omega) (by omega) (by omega)
      refine ⟨m, a + total pre, size + ps, ?_, by simpa [merge] using hchain,
        by simpa [merge] using hmem, by omega, by simp, by simp [free_bytes], hframe⟩
      simp only [coalesce, hnext, hprev, hpa, hna, hsz, hps, ok_bind, Bool.false_and, Bool.not_false,
        Bool.true_and, Bool.false_eq_true, ite_false, ite_true]
      exact hrun
    · -- only the next block is free
      obtain ⟨m, hrun, hchain, hmem, hframe⟩ := coalesce_case (pre ++ [⟨ps, true⟩])
        [⟨size, false⟩, ⟨ns, false⟩] post (S := size + ns)
        (p := a + total pre + ps) (by simpa using hc) (by simp [Nat.add_assoc]) (by simp)
        (by omega) (by omega)
      refine ⟨m, a + total pre + ps, size + ns, ?_, by simpa [merge] using hchain,
        by simpa [merge] using hmem, by omega, by simp, by simp [free_bytes], hframe⟩
      simp only [coalesce, hnext, hprev, hpa, hna, hsz, hns, ok_bind, Bool.true_and, Bool.not_false,
        Bool.false_eq_true, ite_false, ite_true]
      exact hrun
    · -- neither neighbour is free
      refine ⟨h.mem, _, size, ?_, by simpa [merge] using hc, hq, le_rfl, by simp, by simp [free_bytes], fun _ _ => rfl⟩
      simp only [coalesce, hnext, hprev, hpa, hna, hsz, ok_bind, Bool.and_self, ite_true]
      rfl

end coalesce


section place

variable {h : Heap} {a p c asize : Nat} {l₁ l₂ : List Blk}

/-- `place` in the free block of `c` bytes at `p` leaves the chain `carve` computes, and writes
    nothing outside that block. -/
theorem place_spec (hc : Chain h a (l₁ ++ ⟨c, false⟩ :: l₂)) (hp : p = a + total l₁)
    (hle : asize ≤ c) (h16 : min_block_size ≤ asize) (h88 : asize % 8 = 0) :
    ∃ m, place h p asize = .ok { h with mem := m } ∧
      Chain { h with mem := m } a (l₁ ++ carve min_block_size c asize ++ l₂) ∧
      ∀ x, x < p ∨ p + c ≤ x → m x = h.mem x := by
  subst hp
  have hb := hc.size_facts mem_layout_mid
  obtain ⟨hlo, hhi, hc8, hc88, hlt⟩ := hb
  simp only [min_block_size, dsize, wsize] at h16 hc8 hc88 hlt hhi
  have hsz := hc.get_size mem_layout_mid
  simp only at hsz
  have hsub : size_sub c asize = c - asize := size_sub_of_le hle (by omega)
  by_cases hsplit : c - asize ≥ min_block_size
  · have hsplit' := hsplit
    simp only [min_block_size, dsize, wsize] at hsplit'
    have hchain := hc.split true false (s := asize) (by omega) h88 (by simp; omega)
    simp only at hchain
    set q := a + total l₁
    set M₁ := (h.mem.store q 4 (pack asize true)).store (q + asize - 4) 4 (pack asize true)
    refine ⟨(M₁.store (q + asize) 4 (pack (c - asize) false)).store (q + asize + (c - asize) - 4) 4
      (pack (c - asize) false), ?_, ?_, fun x hx => ?_⟩
    · have hw1 : write_header h q asize true = _ := write_header_eq hlo (by omega)
      have hw2 : write_footer { h with mem := h.mem.store q 4 (pack asize true) } q asize true = _ :=
        write_footer_of_header hlo (by omega) (by omega) h88 (by omega)
      have hn : find_next { h with mem := M₁ } q = .ok (q + asize) := by
        simp only [malloc_lab.find_next, get_size_eq (h := { h with mem := M₁ }) hlo (by simp; omega),
          ok_bind, M₁]
        rw [Mem.load_store_of_disjoint (by omega), Mem.load_store_self,
          Nat.mod_eq_of_lt (show pack asize true < 256 ^ 4 from pack_lt _ _),
          extract_size_pack h88 (by omega)]
        rfl
      have hw3 : write_header { h with mem := M₁ } (q + asize) (c - asize) false = _ :=
        write_header_eq (by simp; omega) (by simp; omega)
      have hw4 : write_footer { h with mem := M₁.store (q + asize) 4 (pack (c - asize) false) } (q + asize)
          (c - asize) false = _ :=
        write_footer_of_header (h := { h with mem := M₁ }) (by simp; omega) (by simp; omega) (by omega)
          (by omega) (by omega)
      simp only [place, hsz, hsub, ok_bind]
      rw [if_pos hsplit, hw1, ok_bind, hw2, ok_bind, hn, ok_bind, hw3, ok_bind, hw4]
    · rw [carve, if_pos hsplit]
      simpa using hchain
    · simp only [M₁]
      rw [Mem.store_apply_of_not_mem (by omega), Mem.store_apply_of_not_mem (by omega),
        Mem.store_apply_of_not_mem (by omega), Mem.store_apply_of_not_mem (by omega)]
  · have hc' : Chain h a (l₁ ++ [⟨c, false⟩] ++ l₂) := by simpa using hc
    have hchain := hc'.retag true (S := c) (by simp) hc8 hc88
    refine ⟨_, ?_, by simpa [carve, hsplit] using hchain, fun x hx => store_store_outside hx (by omega)⟩
    simp only [place, hsz, hsub, ok_bind]
    rw [if_neg hsplit, write_header_eq hlo (by omega), ok_bind,
      write_footer_of_header hlo (by omega) hc8 hc88 hlt]

end place


section find_fit

variable {h : Heap} {a asize fuel : Nat} {full : List Blk}

/-- The scan from `a` over a chain of headers returns the first fit, or `0` at the epilogue, as
    long as the fuel outlasts the blocks; the footers are never read. -/
theorem find_fit_loop_of_headers (hh : Headers h a full) (hfuel : full.length < fuel) :
    find_fit_loop h asize fuel a = .ok ((first_fit asize a full).getD 0) := by
  induction full generalizing a fuel with
  | nil =>
    obtain ⟨fuel, rfl⟩ : ∃ f, fuel = f + 1 := ⟨fuel - 1, by simp at hfuel; omega⟩
    have hend := hh.epilogue
    simp only [total_nil, Nat.add_zero] at hend
    simp [find_fit_loop, hend, first_fit]
  | cons b bs ih =>
    obtain ⟨fuel, rfl⟩ : ∃ f, fuel = f + 1 := ⟨fuel - 1, by simp at hfuel; omega⟩
    obtain ⟨hpos, hsize, halloc⟩ := hh.block a b (List.mem_cons_self _ _)
    have hnext : find_next h a = .ok (a + b.size) := by simp [find_next, hsize]
    have hrest : find_fit_loop h asize fuel (a + b.size) = _ := ih hh.tail (by simp at hfuel; omega)
    rcases b with ⟨s, _ | _⟩ <;> simp only at hpos hsize halloc hnext hrest
    · by_cases hfit : asize ≤ s
      · simp [find_fit_loop, hsize, halloc, first_fit, hfit, hpos]
      · simp [find_fit_loop, hsize, halloc, hnext, hrest, first_fit, hfit, hpos]
    · simp [find_fit_loop, hsize, halloc, hnext, hrest, first_fit, hpos]

theorem find_fit_loop_spec (hc : Chain h a full) (hfuel : full.length < fuel) :
    find_fit_loop h asize fuel a = .ok ((first_fit asize a full).getD 0) :=
  find_fit_loop_of_headers hc.headers hfuel

end find_fit


/-- The prologue block: allocated, one double word. -/
def prologue : Blk := ⟨dsize, true⟩

section coalesce_real

variable {h : Heap} {a size : Nat} {pre post : List Blk}

/-- `coalesce` of the free block that follows the prologue and the real blocks `pre`: the real
    blocks that result, with everything the callers of `coalesce` use about them. -/
theorem coalesce_real (hc : Chain h a (prologue :: pre ++ ⟨size, false⟩ :: post))
    (hsz : Sized min_block_size (pre ++ ⟨size, false⟩ :: post)) :
    ∃ m r S bs', coalesce h (a + dsize + total pre) = .ok ({ h with mem := m }, r) ∧
      bs' = (free_at (a + dsize + total pre) (a + dsize) prologue (pre ++ ⟨size, false⟩ :: post)).tail ∧
      r = a + dsize + total pre - free_bytes (pre.getLastD prologue) ∧
      Chain { h with mem := m } a (prologue :: bs') ∧ Sized min_block_size bs' ∧
      total bs' = total pre + size + total post ∧
      allocs (a + dsize) bs' = allocs (a + dsize) (pre ++ ⟨size, false⟩ :: post) ∧
      (NoAdjFree (pre ++ ⟨size, true⟩ :: post) → NoAdjFree bs') ∧
      (r, ⟨S, false⟩) ∈ layout (a + dsize) bs' ∧ size ≤ S ∧
      ∀ x, x < r ∨ r + S ≤ x → m x = h.mem x := by
  rcases List.eq_nil_or_concat pre with rfl | ⟨pre, prev, rfl⟩
  · obtain ⟨m, r, S, hrun, hchain, hmem, hS, hr, -, hframe⟩ :=
      coalesce_spec (show Chain h a ([] ++ prologue :: ⟨size, false⟩ :: post) by simpa using hc)
    have hm : merge prologue size post = prologue :: (merge prologue size post).tail := by
      rcases post with _ | ⟨⟨ns, _ | _⟩, post⟩ <;> simp [merge, prologue]
    refine ⟨m, r, S, (merge prologue size post).tail, by simpa [prologue] using hrun,
      by simp [free_at], by simpa [prologue, free_bytes] using hr,
      by simpa [← hm] using hchain, ?_, ?_, ?_, ?_, ?_, hS, hframe⟩
    · simp only [List.nil_append, Sized.cons] at hsz
      rcases post with _ | ⟨⟨ns, _ | _⟩, post⟩ <;>
        simp only [Sized.cons, Bool.false_eq_true, if_false, if_true, merge, prologue, List.tail_cons] at hsz ⊢
      · exact ⟨hsz.1, by simp [Sized]⟩
      · exact ⟨⟨by omega, by omega⟩, hsz.2.2⟩
      · exact hsz
    · have : total (merge prologue size post) = _ := total_merge
      rw [hm] at this
      simp [prologue, dsize, wsize] at this ⊢
      omega
    · have : allocs a (merge prologue size post) = _ := allocs_merge
      rw [hm] at this
      simpa [prologue] using this
    · intro hno
      have : NoAdjFree ([] ++ merge prologue size post) :=
        noAdjFree_merge (by simpa [NoAdjFree, List.chain'_cons', prologue] using hno)
      rw [List.nil_append, hm] at this
      exact this.tail
    · rw [hm] at hmem
      simpa [prologue, dsize, wsize] using hmem
  · obtain ⟨m, r, S, hrun, hchain, hmem, hS, hr, -, hframe⟩ :=
      coalesce_spec (show Chain h a ((prologue :: pre) ++ prev :: ⟨size, false⟩ :: post) by simpa using hc)
    rw [List.concat_eq_append] at hsz ⊢
    have hpos : ∀ d ∈ pre ++ [prev], 0 < d.size := fun d hd => hsz.pos (by decide) d (List.mem_append_left _ hd)
    refine ⟨m, r, S, pre ++ merge prev size post, by simpa [Nat.add_assoc] using hrun,
      by rw [free_at_append hpos, List.getLastD_concat, ← List.cons_append, List.dropLast_concat]; rfl,
      ?_, by simpa using hchain, ?_, ?_, ?_, ?_, ?_, hS, hframe⟩
    · rw [hr, List.getLastD_concat]
      by_cases hp : prev.alloc <;> simp [free_bytes, hp, prologue, dsize, wsize] <;> omega
    · exact sized_merge (by simpa using hsz)
    · simp [total_merge]; omega
    · simp [allocs_append, allocs_merge]
    · intro hno
      exact noAdjFree_merge (by simpa using hno)
    · simpa [layout_append, prologue, Nat.add_assoc] using hmem

end coalesce_real

end malloc_lab.implicit
