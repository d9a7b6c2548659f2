import MallocLab.Layout

namespace malloc_lab

section free_commute

variable {a p q size : Nat} {u w b X Y m : Blk} {bs L pre M post : List Blk}

/-- `coalesce` looks at one block after the freed one: the rest of the list stays as it is. -/
theorem merge_cons (prev : Blk) (size : Nat) (n : Blk) (post : List Blk) :
    merge prev size (n :: post) = merge prev size [n] ++ post := by
  rcases prev with ⟨_, _ | _⟩ <;> rcases n with ⟨_, _ | _⟩ <;> rfl

/-- An allocated block after the freed one is never absorbed. -/
theorem merge_alloc_cons (prev : Blk) (size : Nat) (hm : m.alloc = true) (post : List Blk) :
    merge prev size (m :: post) = merge prev size [] ++ m :: post := by
  rcases prev with ⟨_, _ | _⟩ <;> simp [merge, hm]

/-- An allocated block before the freed one is never absorbed. -/
theorem merge_eq_cons (hu : u.alloc = true) (size : Nat) (post : List Blk) :
    merge u size post = u :: (merge u size post).tail := by
  rcases post with _ | ⟨⟨_, _ | _⟩, post⟩ <;> simp [merge, hu]

/-- A merge of nonempty blocks is made of nonempty blocks. -/
theorem merge_pos (hu : 0 < u.size) (hs : 0 < size) (hpost : ∀ d ∈ post, 0 < d.size) :
    ∀ d ∈ merge u size post, 0 < d.size := by
  rcases u with ⟨us, _ | _⟩ <;> rcases post with _ | ⟨⟨ns, _ | _⟩, post⟩ <;>
    simp_all [merge]

/-- Freeing the block right after a block freed first, which was allocated then: the two merges
    make one free block. -/
theorem merge_merge_next (hX : X.alloc = true) (D : List Blk) (u d : Blk) (y : Nat) (post : List Blk) :
    (D ++ merge u X.size []).dropLast ++ merge ((D ++ merge u X.size []).getLastD d) y post =
      D ++ merge u X.size (merge X y post).tail := by
  rcases u with ⟨us, _ | _⟩ <;> rcases post with _ | ⟨⟨ns, _ | _⟩, post⟩ <;> simp [merge, hX] <;> omega

/-- Freeing the block two after a block freed first: both merges reach the block between. -/
theorem merge_merge_gap (D : List Blk) (u m d : Blk) (x y : Nat) (post : List Blk) :
    (D ++ merge u x [m]).dropLast ++ merge ((D ++ merge u x [m]).getLastD d) y post =
      D ++ merge u x (merge m y post) := by
  rcases u with ⟨us, _ | _⟩ <;> rcases m with ⟨ms, _ | _⟩ <;> rcases post with _ | ⟨⟨ns, _ | _⟩, post⟩ <;>
    simp [merge] <;> omega

/-- The merge of a freed block is never empty. -/
theorem merge_ne_nil (prev : Blk) (size : Nat) (post : List Blk) : merge prev size post ≠ [] := by
  rcases prev with ⟨_, _ | _⟩ <;> rcases post with _ | ⟨⟨_, _ | _⟩, _⟩ <;> simp [merge]

/-- Freeing by address the block `b` after the blocks `L`, the first of which stands before the
    run from `a`. -/
theorem free_at_of_split (hpos : ∀ d ∈ w :: bs, 0 < d.size) (hL : L ≠ []) (hW : w :: bs = L ++ b :: post)
    (hq : q + w.size = a + total L) : free_at q a w bs = L.dropLast ++ merge (L.getLastD w) b.size post := by
  obtain ⟨w', pre, rfl⟩ := List.exists_cons_of_ne_nil hL
  simp only [List.cons_append, List.cons.injEq] at hW
  obtain ⟨rfl, rfl⟩ := hW
  rw [total_cons] at hq
  obtain rfl : q = a + total pre := by omega
  rw [free_at_append fun d hd => hpos d (by simp [hd]), List.getLastD_cons]

/-- Freeing by address keeps every block nonempty. -/
theorem free_at_pos (hpos : ∀ d ∈ b :: bs, 0 < d.size) : ∀ d ∈ free_at q p b bs, 0 < d.size := by
  induction bs generalizing p b with
  | nil => simpa [free_at] using hpos
  | cons c bs ih =>
    simp only [List.forall_mem_cons] at hpos ih
    unfold free_at
    split
    · exact merge_pos hpos.1 hpos.2.1 hpos.2.2
    · exact List.forall_mem_cons.2 ⟨hpos.1, ih hpos.2⟩

/-- Freeing by address after a first `free` that left the block before the run in place. -/
theorem free_at_tail_of_eq {r : Nat} {K T : List Blk} (hw : w.alloc = true) (hpos : ∀ d ∈ w :: bs, 0 < d.size)
    (e : free_at r a w bs = K ++ b :: T) (hK : K ≠ []) (hq : q + w.size = a + total K) :
    free_at q a w (free_at r a w bs).tail = K.dropLast ++ merge (K.getLastD w) b.size T :=
  free_at_of_split (fun d hd => free_at_pos hpos d (by rwa [← free_at_eq_cons hw] at hd)) hK
    ((free_at_eq_cons hw).symm.trans e) hq

/-- Two blocks of a layout, the first at the lower address, split the list around them. -/
theorem exists_split_two (hX : (p, X) ∈ layout a bs) (hY : (q, Y) ∈ layout a bs) (hpq : p < q) :
    ∃ pre M post, bs = pre ++ X :: (M ++ Y :: post) ∧ p = a + total pre ∧
      q = a + total pre + X.size + total M := by
  obtain ⟨pre, rest, rfl, rfl⟩ := mem_layout_iff.1 hX
  rw [layout_append, List.mem_append, layout_cons, List.mem_cons] at hY
  rcases hY with hY | hY | hY
  · have := (mem_layout hY).2.2
    omega
  · obtain ⟨rfl, -⟩ := Prod.mk.inj hY
    omega
  · obtain ⟨M, post, rfl, rfl⟩ := mem_layout_iff.1 hY
    exact ⟨pre, M, post, rfl, rfl, rfl⟩

/-- Freeing two allocated blocks by address in either order gives the same blocks, when the block
    before the run is allocated: each merge reaches only the freed block's neighbours, and where
    the two blocks are near, both orders merge the same ones. -/
theorem free_at_comm (hw : w.alloc = true) (hX : X.alloc = true) (hY : Y.alloc = true)
    (hbs : bs = pre ++ X :: (M ++ Y :: post)) (hpos : ∀ d ∈ w :: bs, 0 < d.size) (hp : p = a + total pre)
    (hq : q = a + total pre + X.size + total M) :
    free_at q a w (free_at p a w bs).tail = free_at p a w (free_at q a w bs).tail := by
  have hfirst : ∀ R, bs = pre ++ X :: R → free_at p a w bs = (w :: pre).dropLast ++ merge (pre.getLastD w) X.size R :=
    fun R h => by
      rw [free_at_of_split hpos (List.cons_ne_nil _ _) (by rw [h]; rfl) (by rw [hp, total_cons]; omega),
        List.getLastD_cons]
  have htD : total (w :: pre).dropLast + (pre.getLastD w).size = w.size + total pre := by
    simpa [total_append, total_cons] using congrArg total (dropLast_append_getLastD w pre)
  have hmerge : ∀ y T, total (merge (pre.getLastD w) y T) = (pre.getLastD w).size + y + total T :=
    fun _ _ => total_merge
  rcases M with _ | ⟨m₁, M⟩
  · -- the two blocks side by side
    have e₁ : free_at p a w bs = ((w :: pre).dropLast ++ merge (pre.getLastD w) X.size []) ++ Y :: post := by
      rw [hfirst (Y :: post) hbs, merge_alloc_cons _ _ hY, List.append_assoc]
    have e₂ : free_at q a w bs = (w :: pre) ++ X :: (merge X Y.size post).tail := by
      rw [free_at_of_split hpos (by simp) (show w :: bs = ((w :: pre) ++ [X]) ++ Y :: post by simp [hbs])
        (by simp only [hq, total_append, total_cons, total_nil]; omega), List.dropLast_concat, List.getLastD_concat]
      exact congrArg _ (merge_eq_cons hX _ _)
    rw [free_at_tail_of_eq hw hpos e₁ (by simp [merge_ne_nil])
        (by simp only [hq, total_append, hmerge, total_nil]; omega),
      free_at_tail_of_eq hw hpos e₂ (by simp) (by simp only [hp, total_cons]; omega), List.getLastD_cons]
    exact merge_merge_next hX _ _ _ _ _
  rcases List.eq_nil_or_concat M with rfl | ⟨C, m₂, rfl⟩
  · -- one block between
    have e₁ : free_at p a w bs = ((w :: pre).dropLast ++ merge (pre.getLastD w) X.size [m₁]) ++ Y :: post := by
      rw [hfirst (m₁ :: Y :: post) hbs, merge_cons, List.append_assoc]
    have e₂ : free_at q a w bs = (w :: pre) ++ X :: merge m₁ Y.size post := by
      rw [free_at_of_split hpos (by simp) (show w :: bs = ((w :: pre) ++ [X]) ++ [m₁] ++ Y :: post by simp [hbs])
        (by simp only [hq, total_append, total_cons, total_nil]; omega), List.dropLast_concat, List.getLastD_concat]
      simp
    rw [free_at_tail_of_eq hw hpos e₁ (by simp [merge_ne_nil])
        (by simp only [hq, total_append, hmerge, total_cons, total_nil]; omega),
      free_at_tail_of_eq hw hpos e₂ (by simp) (by simp only [hp, total_cons]; omega), List.getLastD_cons]
    exact merge_merge_gap _ _ _ _ _ _ _
  · -- two blocks or more between: the merges are apart
    rw [List.concat_eq_append] at hbs hq
    have e₁ : free_at p a w bs =
        ((w :: pre).dropLast ++ merge (pre.getLastD w) X.size [m₁] ++ C ++ [m₂]) ++ Y :: post := by
      rw [hfirst (m₁ :: (C ++ m₂ :: Y :: post)) (by simp [hbs]), merge_cons]
      simp
    have e₂ : free_at q a w bs = (w :: pre) ++ X :: m₁ :: (C ++ merge m₂ Y.size post) := by
      rw [free_at_of_split hpos (by simp)
        (show w :: bs = ((w :: pre) ++ X :: m₁ :: C) ++ [m₂] ++ Y :: post by simp [hbs])
        (by simp only [hq, total_append, total_cons, total_nil]; omega), List.dropLast_concat, List.getLastD_concat]
      simp
    rw [free_at_tail_of_eq hw hpos e₁ (by simp)
        (by simp only [hq, total_append, hmerge, total_cons, total_nil]; omega),
      free_at_tail_of_eq hw hpos e₂ (by simp) (by simp only [hp, total_cons]; omega), List.getLastD_cons,
      merge_cons _ _ m₁ (C ++ _), List.dropLast_concat, List.getLastD_concat]
    simp

/-- Freeing two distinct allocated blocks of a layout by address, in either order, gives the same
    blocks when the block before the run is allocated. -/
theorem free_at_comm_of_mem {Sp Sq : Nat} (hw : w.alloc = true) (hpos : ∀ d ∈ w :: bs, 0 < d.size)
    (hp : (p, ⟨Sp, true⟩) ∈ layout a bs) (hq : (q, ⟨Sq, true⟩) ∈ layout a bs) (hpq : p ≠ q) :
    free_at q a w (free_at p a w bs).tail = free_at p a w (free_at q a w bs).tail := by
  rcases Nat.lt_or_gt_of_ne hpq with h | h
  · obtain ⟨pre, M, post, hbs, hp, hq⟩ := exists_split_two hp hq h
    exact free_at_comm hw rfl rfl hbs hpos hp hq
  · obtain ⟨pre, M, post, hbs, hq, hp⟩ := exists_split_two hq hp h
    exact (free_at_comm hw rfl rfl hbs hpos hq hp).symm

end free_commute

end malloc_lab
