import MallocLab.Segregated.Basic

namespace malloc_lab.segregated

/-- The loop of `get_highest_1bit_idx` adds to `idx` the number of bits of a positive `num` below
    `2 ^ fuel`: one more than the `k` with `2 ^ k ≤ num < 2 ^ (k + 1)`. -/
theorem highest_1bit_loop_bits : ∀ fuel num idx, 0 < num → num < 2 ^ fuel →
    ∃ k, highest_1bit_loop fuel num idx = idx + (k + 1) ∧ 2 ^ k ≤ num ∧ num < 2 ^ (k + 1)
  | 0, _, _, h0, h1 => by simp at h1; omega
  | fuel + 1, num, idx, h0, h1 => by
    rw [Nat.pow_succ] at h1
    simp only [highest_1bit_loop]
    split
    · obtain ⟨k, hk, h2, h3⟩ := highest_1bit_loop_bits fuel (num / 2) (idx + 1) ‹_› (by omega)
      rw [Nat.pow_succ] at h3
      exact ⟨k + 1, by omega, by rw [Nat.pow_succ]; omega, by rw [Nat.pow_succ, Nat.pow_succ]; omega⟩
    · exact ⟨0, rfl, by simp; omega, by simp; omega⟩

/-- Before it clamps, `get_seglist_idx` computes the least `c` with `size ≤ 2 ^ c`: the exact
    power of two falls into the class below. -/
theorem get_seglist_idx_ceil {size : Nat} (h0 : 0 < size) (h1 : size < 2 ^ 31) :
    ∃ c, size ≤ 2 ^ c ∧ (c = 0 ∨ 2 ^ (c - 1) < size) ∧
      get_seglist_idx size = if c ≤ 5 then 0 else if c ≥ 20 then 15 else c - 5 := by
  obtain ⟨k, hk, h2, h3⟩ := highest_1bit_loop_bits 32 size 0 h0 (by omega)
  have hget : get_highest_1bit_idx (size % 2 ^ 32) = k + 1 := by
    rw [get_highest_1bit_idx, Nat.mod_eq_of_lt (by omega), hk, Nat.zero_add]
  by_cases hs : size = 2 ^ k
  · refine ⟨k, hs.le, ?_, by simp only [get_seglist_idx, hget, Nat.add_sub_cancel, if_pos hs]⟩
    rcases k with _ | k
    · exact .inl rfl
    · exact .inr (by rw [Nat.add_sub_cancel, hs, Nat.pow_succ]; have := Nat.one_le_two_pow (n := k); omega)
  · refine ⟨k + 1, h3.le, .inr (by rw [Nat.add_sub_cancel]; omega), ?_⟩
    simp only [get_seglist_idx, hget, Nat.add_sub_cancel, if_neg hs]

/-- The least exponent `c` with `size ≤ 2 ^ c` is at most any `j` with `size ≤ 2 ^ j`. -/
theorem ceil_le_of_le_pow {c j size : Nat} (hc : c = 0 ∨ 2 ^ (c - 1) < size) (hj : size ≤ 2 ^ j) :
    c ≤ j := by
  by_contra hcj
  rcases hc with rfl | hc
  · omega
  · have := Nat.pow_le_pow_right (by decide : 2 > 0) (show j ≤ c - 1 by omega)
    omega

/-- The least exponent `c` with `size ≤ 2 ^ c` exceeds any `j` with `2 ^ j < size`. -/
theorem lt_ceil_of_pow_lt {c j size : Nat} (hc : size ≤ 2 ^ c) (hj : 2 ^ j < size) : j < c := by
  by_contra hcj
  have := Nat.pow_le_pow_right (by decide : 2 > 0) (show c ≤ j by omega)
  omega

theorem get_seglist_idx_lt (size : Nat) : get_seglist_idx size < size_class_cnt := by
  unfold get_seglist_idx size_class_cnt
  dsimp only
  split_ifs <;> omega

/-- A larger size never falls into a lower class. -/
theorem get_seglist_idx_mono {s t : Nat} (h0 : 0 < s) (hst : s ≤ t) (ht : t < 2 ^ 31) :
    get_seglist_idx s ≤ get_seglist_idx t := by
  obtain ⟨c, hc₁, hc₂, hs⟩ := get_seglist_idx_ceil h0 (by omega)
  obtain ⟨d, hd₁, -, ht'⟩ := get_seglist_idx_ceil (by omega) ht
  have hcd : c ≤ d := ceil_le_of_le_pow hc₂ (by omega)
  rw [hs, ht']
  split_ifs <;> omega

/-- `get_seglist_idx` puts the sizes up to 32 into class 0, those above `2 ^ 19` into class 15, and
    those in `(2 ^ (i + 4), 2 ^ (i + 5)]` into class `i` for `i` from 1 to 14; so it is monotone
    and below 16. -/
theorem get_seglist_idx_classes :
    (∀ s, 0 < s → s ≤ 32 → get_seglist_idx s = 0) ∧
    (∀ s, 2 ^ 19 < s → s < 2 ^ 31 → get_seglist_idx s = 15) ∧
    (∀ s i, 1 ≤ i → i ≤ 14 → 2 ^ (i + 4) < s → s ≤ 2 ^ (i + 5) → get_seglist_idx s = i) ∧
    (∀ s t, 0 < s → s ≤ t → t < 2 ^ 31 → get_seglist_idx s ≤ get_seglist_idx t) ∧
    ∀ s, get_seglist_idx s < size_class_cnt := by
  refine ⟨fun s h0 h32 => ?_, fun s h19 h31 => ?_, fun s i hi hi' h1 h2 => ?_,
    fun _ _ h0 hst ht => get_seglist_idx_mono h0 hst ht, get_seglist_idx_lt⟩
  · obtain ⟨c, -, hc, hs⟩ := get_seglist_idx_ceil h0 (by omega)
    have := ceil_le_of_le_pow (j := 5) hc h32
    rw [hs, if_pos this]
  · obtain ⟨c, hc, -, hs⟩ := get_seglist_idx_ceil (by omega) h31
    have := lt_ceil_of_pow_lt hc h19
    rw [hs, if_neg (by omega), if_pos (by omega)]
  · have h31 : s < 2 ^ 31 := lt_of_le_of_lt h2 (Nat.pow_lt_pow_right (by decide) (by omega))
    obtain ⟨c, hc₁, hc₂, hs⟩ := get_seglist_idx_ceil (by have := Nat.one_le_two_pow (n := i + 4); omega) h31
    have := ceil_le_of_le_pow hc₂ h2
    have := lt_ceil_of_pow_lt hc₁ h1
    rw [hs, if_neg (by omega), if_neg (by omega)]
    omega

theorem get_seglist_idx_classes_at :
    get_seglist_idx 24 = 0 ∧ get_seglist_idx (2 ^ 20) = 15 ∧ get_seglist_idx 100 = 2 ∧
      get_seglist_idx 100 ≤ get_seglist_idx 4096 :=
  ⟨get_seglist_idx_classes.1 24 (by decide) (by decide),
    get_seglist_idx_classes.2.1 (2 ^ 20) (by decide) (by decide),
    get_seglist_idx_classes.2.2.1 100 2 (by decide) (by decide) (by decide) (by decide),
    get_seglist_idx_classes.2.2.2.1 100 4096 (by decide) (by decide) (by decide)⟩

end malloc_lab.segregated
