import MallocLab.Block
import Mathlib.Data.List.Chain

namespace malloc_lab

/-- A block as the chain of headers records it: its size and its allocation bit. -/
structure Blk where
  size : Nat
  alloc : Bool
  deriving DecidableEq, Repr

/-- The bytes covered by a run of blocks. -/
def total : List Blk → Nat
  | [] => 0
  | b :: bs => b.size + total bs

@[simp] theorem total_nil : total [] = 0 := rfl

@[simp] theorem total_cons (b : Blk) (bs : List Blk) : total (b :: bs) = b.size + total bs := rfl

@[simp] theorem total_append (l₁ l₂ : List Blk) : total (l₁ ++ l₂) = total l₁ + total l₂ := by
  induction l₁ with
  | nil => simp
  | cons b l₁ ih => simp [ih, Nat.add_assoc]

/-- The address of each block of `bs` when the blocks lie back to back from `a`. -/
def layout : Nat → List Blk → List (Nat × Blk)
  | _, [] => []
  | a, b :: bs => (a, b) :: layout (a + b.size) bs

@[simp] theorem layout_nil (a : Nat) : layout a [] = [] := rfl

@[simp] theorem layout_cons (a : Nat) (b : Blk) (bs : List Blk) :
    layout a (b :: bs) = (a, b) :: layout (a + b.size) bs := rfl

theorem layout_append (a : Nat) (l₁ l₂ : List Blk) :
    layout a (l₁ ++ l₂) = layout a l₁ ++ layout (a + total l₁) l₂ := by
  induction l₁ generalizing a with
  | nil => simp
  | cons b l₁ ih => simp [ih, Nat.add_assoc]

theorem mem_layout {a p : Nat} {b : Blk} {bs : List Blk} (h : (p, b) ∈ layout a bs) :
    b ∈ bs ∧ a ≤ p ∧ p + b.size ≤ a + total bs := by
  induction bs generalizing a with
  | nil => simp at h
  | cons c bs ih =>
    simp only [layout_cons, List.mem_cons, Prod.mk.injEq] at h
    rcases h with ⟨rfl, rfl⟩ | h
    · simp
    · obtain ⟨hb, hle, hend⟩ := ih h
      simp only [List.mem_cons, total_cons]
      exact ⟨Or.inr hb, by omega, by omega⟩

theorem layout_pairwise (a : Nat) (bs : List Blk) :
    (layout a bs).Pairwise (fun x y => x.1 + x.2.size ≤ y.1) := by
  induction bs generalizing a with
  | nil => simp
  | cons b bs ih =>
    simp only [layout_cons, List.pairwise_cons]
    exact ⟨fun y hy => (mem_layout (a := a + b.size) (p := y.1) (b := y.2) hy).2.1, ih _⟩

/-- Two blocks of one layout at different addresses occupy disjoint ranges. -/
theorem layout_disjoint {a p q : Nat} {b c : Blk} {bs : List Blk}
    (hp : (p, b) ∈ layout a bs) (hq : (q, c) ∈ layout a bs) (hne : p ≠ q) :
    p + b.size ≤ q ∨ q + c.size ≤ p := by
  have hpair := layout_pairwise a bs
  induction bs generalizing a with
  | nil => simp at hp
  | cons d bs ih =>
    simp only [layout_cons, List.mem_cons, Prod.mk.injEq, List.pairwise_cons] at hp hq hpair
    rcases hp with ⟨rfl, rfl⟩ | hp <;> rcases hq with ⟨rfl, rfl⟩ | hq
    · exact absurd rfl hne
    · exact .inl (hpair.1 _ hq)
    · exact .inr (hpair.1 _ hp)
    · exact ih hp hq hpair.2

theorem mem_layout_iff {a p : Nat} {b : Blk} {bs : List Blk} :
    (p, b) ∈ layout a bs ↔ ∃ l₁ l₂, bs = l₁ ++ b :: l₂ ∧ p = a + total l₁ := by
  constructor
  · intro h
    induction bs generalizing a with
    | nil => simp at h
    | cons c bs ih =>
      simp only [layout_cons, List.mem_cons, Prod.mk.injEq] at h
      rcases h with ⟨rfl, rfl⟩ | h
      · exact ⟨[], bs, rfl, by simp⟩
      · obtain ⟨l₁, l₂, rfl, rfl⟩ := ih h
        exact ⟨c :: l₁, l₂, rfl, by simp [Nat.add_assoc]⟩
  · rintro ⟨l₁, l₂, rfl, rfl⟩
    simp [layout_append]

/-- In a layout of nonempty blocks an address names at most one block. -/
theorem layout_unique {a p : Nat} {b c : Blk} {bs : List Blk} (hpos : ∀ d ∈ bs, 0 < d.size)
    (hb : (p, b) ∈ layout a bs) (hc : (p, c) ∈ layout a bs) : b = c := by
  induction bs generalizing a with
  | nil => simp at hb
  | cons d bs ih =>
    simp only [layout_cons, List.mem_cons, Prod.mk.injEq] at hb hc
    have hd := hpos d (by simp)
    rcases hb with ⟨rfl, rfl⟩ | hb <;> rcases hc with ⟨hpc, rfl⟩ | hc
    · rfl
    · have := (mem_layout hc).2.1; omega
    · have := (mem_layout hb).2.1; omega
    · exact ih (fun e he => hpos e (by simp [he])) hb hc

/-- Every block is at least `min` bytes and a multiple of 8. -/
def Sized (min : Nat) (bs : List Blk) : Prop :=
  ∀ b ∈ bs, min ≤ b.size ∧ b.size % 8 = 0

theorem Sized.append {n : Nat} {l₁ l₂ : List Blk} : Sized n (l₁ ++ l₂) ↔ Sized n l₁ ∧ Sized n l₂ := by
  simp only [Sized, List.mem_append]
  exact ⟨fun h => ⟨fun b hb => h b (.inl hb), fun b hb => h b (.inr hb)⟩,
    fun h b hb => hb.elim (h.1 b) (h.2 b)⟩

theorem Sized.cons {n : Nat} {b : Blk} {bs : List Blk} :
    Sized n (b :: bs) ↔ (n ≤ b.size ∧ b.size % 8 = 0) ∧ Sized n bs := by
  simp [Sized]

theorem Sized.pos {k : Nat} {bs : List Blk} (h : Sized k bs) (hk : 0 < k) : ∀ b ∈ bs, 0 < b.size :=
  fun b hb => Nat.lt_of_lt_of_le hk (h b hb).1

theorem length_le_total {k : Nat} {bs : List Blk} (h : Sized k bs) (hk : 0 < k) : bs.length ≤ total bs := by
  induction bs with
  | nil => simp
  | cons b bs ih =>
    rw [Sized.cons] at h
    have := ih h.2
    simp only [List.length_cons, total_cons]
    omega

theorem size_le_total {b : Blk} {bs : List Blk} (hb : b ∈ bs) : b.size ≤ total bs := by
  induction bs with
  | nil => simp at hb
  | cons c bs ih =>
    rcases List.mem_cons.1 hb with rfl | hb
    · simp
    · have := ih hb; simp; omega

theorem Sized.total_mod {k : Nat} {bs : List Blk} (h : Sized k bs) : total bs % 8 = 0 := by
  induction bs with
  | nil => rfl
  | cons b bs ih =>
    rw [Sized.cons] at h
    have := ih h.2
    simp only [total_cons]
    omega

/-- Blocks whose sizes are multiples of 8 start a multiple of 8 bytes after the first. -/
theorem layout_mod {k a p : Nat} {b : Blk} {bs : List Blk} (h : Sized k bs) (hp : (p, b) ∈ layout a bs) :
    p % 8 = a % 8 := by
  obtain ⟨l₁, l₂, rfl, rfl⟩ := mem_layout_iff.1 hp
  have := (Sized.append.1 h).1.total_mod
  omega

/-- The allocated blocks of a layout, with their addresses. -/
def allocs (a : Nat) (bs : List Blk) : List (Nat × Blk) :=
  (layout a bs).filter fun pb => pb.2.alloc

@[simp] theorem allocs_nil (a : Nat) : allocs a [] = [] := rfl

theorem allocs_append (a : Nat) (l₁ l₂ : List Blk) :
    allocs a (l₁ ++ l₂) = allocs a l₁ ++ allocs (a + total l₁) l₂ := by
  simp [allocs, layout_append, List.filter_append]

@[simp] theorem allocs_cons_free (a s : Nat) (bs : List Blk) :
    allocs a (⟨s, false⟩ :: bs) = allocs (a + s) bs := by
  simp [allocs]

@[simp] theorem allocs_cons_alloc (a s : Nat) (bs : List Blk) :
    allocs a (⟨s, true⟩ :: bs) = (a, ⟨s, true⟩) :: allocs (a + s) bs := by
  simp [allocs]

theorem mem_allocs {a q : Nat} {b : Blk} {bs : List Blk} :
    (q, b) ∈ allocs a bs ↔ (q, b) ∈ layout a bs ∧ b.alloc = true := by
  simp [allocs]

/-- The address of a free block is not the address of any allocated one. -/
theorem not_mem_allocs_of_free {a r c : Nat} {bs : List Blk} (hpos : ∀ d ∈ bs, 0 < d.size)
    (hr : (r, ⟨c, false⟩) ∈ layout a bs) (b : Blk) : (r, b) ∉ allocs a bs := fun h => by
  obtain ⟨hl, hal⟩ := mem_allocs.1 h
  cases layout_unique hpos hl hr
  simp at hal

/-- Freeing the block at `a + total l₁` removes exactly that address from the allocated blocks. -/
theorem mem_allocs_free {a q S : Nat} {b : Blk} {l₁ l₂ : List Blk}
    (hpos : ∀ d ∈ l₁ ++ ⟨S, true⟩ :: l₂, 0 < d.size) :
    (q, b) ∈ allocs a (l₁ ++ ⟨S, false⟩ :: l₂) ↔
      (q, b) ∈ allocs a (l₁ ++ ⟨S, true⟩ :: l₂) ∧ q ≠ a + total l₁ := by
  have hS := hpos ⟨S, true⟩ (by simp)
  simp only [allocs_append, allocs_cons_free, allocs_cons_alloc, List.mem_append, List.mem_cons,
    Prod.mk.injEq]
  constructor
  · rintro (h | h)
    · obtain ⟨hb, -, hend⟩ := mem_layout (mem_allocs.1 h).1
      have := hpos b (by simp [hb])
      exact ⟨.inl h, by omega⟩
    · have := (mem_layout (mem_allocs.1 h).1).2.1
      exact ⟨.inr (.inr h), by simp only at hS; omega⟩
  · rintro ⟨h | ⟨rfl, -⟩ | h, hq⟩
    · exact .inl h
    · exact absurd rfl hq
    · exact .inr h

/-- A layout has no allocated block exactly when every block of it is free. -/
theorem allocs_eq_nil {a : Nat} {bs : List Blk} : allocs a bs = [] ↔ ∀ b ∈ bs, b.alloc = false := by
  induction bs generalizing a with
  | nil => simp
  | cons b bs ih => rcases b with ⟨s, _ | _⟩ <;> simp [ih]

/-- No two neighbouring blocks are both free. -/
def NoAdjFree (bs : List Blk) : Prop :=
  bs.Chain' fun x y => x.alloc = true ∨ y.alloc = true

/-- Free blocks that are never neighbours are at most one. -/
theorem NoAdjFree.length_le_one {bs : List Blk} (h : NoAdjFree bs) (hfree : ∀ b ∈ bs, b.alloc = false) :
    bs.length ≤ 1 := by
  rcases bs with _ | ⟨b, _ | ⟨c, bs⟩⟩
  · simp
  · simp
  · rcases (List.chain'_cons.1 h).1 with hb | hc
    · simp [hfree b (by simp)] at hb
    · simp [hfree c (by simp)] at hc

theorem NoAdjFree.append_alloc {bs : List Blk} (h : NoAdjFree bs) (s : Nat) :
    NoAdjFree (bs ++ [⟨s, true⟩]) :=
  List.chain'_append.2 ⟨h, List.chain'_singleton _, fun _ _ _ hy => .inr (by
    simp only [List.head?_cons, Option.mem_some_iff] at hy
    rw [← hy])⟩

/-- The blocks `coalesce` leaves in place of `prev :: ⟨size, false⟩ :: post`: the free block
    absorbs whichever of `prev` and the head of `post` is free. -/
def merge (prev : Blk) (size : Nat) : List Blk → List Blk
  | [] => if prev.alloc then [prev, ⟨size, false⟩] else [⟨size + prev.size, false⟩]
  | n :: post =>
    if prev.alloc then
      if n.alloc then prev :: ⟨size, false⟩ :: n :: post else prev :: ⟨size + n.size, false⟩ :: post
    else if n.alloc then ⟨size + prev.size, false⟩ :: n :: post
    else ⟨size + (n.size + prev.size), false⟩ :: post

/-- The bytes a neighbour adds to a merge: its size when it is free, none when it is allocated. -/
def free_bytes (b : Blk) : Nat := if b.alloc then 0 else b.size

/-- In a layout of nonempty blocks with no two free blocks side by side, the blocks right before
    and right after a free block are allocated. -/
theorem NoAdjFree.neighbours {a r S q : Nat} {c : Blk} {bs : List Blk} (hno : NoAdjFree bs)
    (hpos : ∀ b ∈ bs, 0 < b.size) (hr : (r, ⟨S, false⟩) ∈ layout a bs) (hq : (q, c) ∈ layout a bs)
    (hadj : q + c.size = r ∨ q = r + S) : c.alloc = true := by
  induction bs generalizing a with
  | nil => simp at hr
  | cons d bs ih =>
    have hd := hpos d (List.mem_cons_self _ _)
    have hpos' : ∀ b ∈ bs, 0 < b.size := fun b hb => hpos b (List.mem_cons_of_mem _ hb)
    -- the block at the start of `layout (a + d.size) bs` is the head of `bs`
    have hhead : ∀ {e : Blk}, (a + d.size, e) ∈ layout (a + d.size) bs →
        ∃ t, bs = e :: t := fun {e} he => by
      rcases bs with _ | ⟨e', t⟩
      · simp at he
      · exact ⟨t, by rw [layout_unique hpos' he (List.mem_cons_self _ _)]⟩
    simp only [layout_cons, List.mem_cons, Prod.mk.injEq] at hr hq
    rcases hr with ⟨rfl, hrd⟩ | hr <;> rcases hq with ⟨hqa, hqd⟩ | hq
    · subst hrd hqd; simp only at hadj hd; omega
    · -- the free block comes first: its successor is the head of `bs`
      subst hrd
      have hqr := (mem_layout hq).2.1
      simp only at hadj hqr
      rw [show q = r + (⟨S, false⟩ : Blk).size by simp only; omega] at hq
      obtain ⟨t, rfl⟩ := hhead hq
      simpa [NoAdjFree] using hno.rel_head
    · -- the free block is the head of `bs`: `d` comes right before it
      subst hqd
      have hrq := (mem_layout hr).2.1
      rw [show r = a + c.size by omega] at hr
      obtain ⟨t, rfl⟩ := hhead hr
      simpa [NoAdjFree] using hno.rel_head
    · exact ih hno.tail hpos' hr hq

/-- The blocks `place` leaves of a block of `csize` bytes: `asize` allocated bytes, followed by
    the rest as a free block when that is at least `min` bytes. -/
def carve (min csize asize : Nat) : List Blk :=
  if csize - asize ≥ min then [⟨asize, true⟩, ⟨csize - asize, false⟩] else [⟨csize, true⟩]

section merge

variable {prev : Blk} {size a : Nat} {pre post : List Blk}

theorem total_merge : total (merge prev size post) = prev.size + size + total post := by
  rcases prev with ⟨ps, _ | _⟩ <;> rcases post with _ | ⟨⟨ns, _ | _⟩, post⟩ <;>
    simp [merge] <;> omega

theorem allocs_merge : allocs a (merge prev size post) = allocs a (prev :: ⟨size, false⟩ :: post) := by
  rcases prev with ⟨ps, _ | _⟩ <;> rcases post with _ | ⟨⟨ns, _ | _⟩, post⟩ <;>
    simp [merge, Nat.add_assoc, Nat.add_comm, Nat.add_left_comm]

theorem sized_merge {k : Nat} (h : Sized k (pre ++ prev :: ⟨size, false⟩ :: post)) :
    Sized k (pre ++ merge prev size post) := by
  simp only [Sized, List.forall_mem_append, List.forall_mem_cons] at h ⊢
  obtain ⟨hpre, hp, hs, hpost⟩ := h
  refine ⟨hpre, ?_⟩
  rcases prev with ⟨ps, _ | _⟩ <;> rcases post with _ | ⟨⟨ns, _ | _⟩, post⟩ <;>
    simp only [List.forall_mem_cons] at hp hpost <;>
    simp only [merge, Bool.false_eq_true, if_true, if_false, List.forall_mem_cons,
      List.forall_mem_nil, and_true] <;>
    refine ⟨?_, ?_⟩ <;> (try refine ⟨?_, ?_⟩) <;> (try refine ⟨?_, ?_⟩) <;>
    first | omega | exact hpost | exact hpost.2

theorem noAdjFree_merge (h : NoAdjFree (pre ++ prev :: ⟨size, true⟩ :: post)) :
    NoAdjFree (pre ++ merge prev size post) := by
  unfold NoAdjFree at *
  rw [List.chain'_append] at h ⊢
  obtain ⟨hpre, hmid, hjoin⟩ := h
  rcases prev with ⟨ps, _ | _⟩ <;> rcases post with _ | ⟨⟨ns, _ | _⟩, post⟩ <;>
    simp_all [merge, List.chain'_cons']

end merge

/-- First fit over a layout: the first free block of at least `asize` bytes. -/
def first_fit (asize : Nat) : Nat → List Blk → Option Nat
  | _, [] => none
  | p, b :: bs => if !b.alloc && decide (asize ≤ b.size) then some p else first_fit asize (p + b.size) bs

/-- A first fit is a free block of the layout, large enough, with no fitting block before it. -/
theorem first_fit_eq_some {asize a r : Nat} {bs : List Blk} (h : first_fit asize a bs = some r) :
    ∃ l₁ c l₂, bs = l₁ ++ ⟨c, false⟩ :: l₂ ∧ r = a + total l₁ ∧ asize ≤ c ∧
      ∀ b ∈ l₁, b.alloc = true ∨ b.size < asize := by
  induction bs generalizing a with
  | nil => simp [first_fit] at h
  | cons b bs ih =>
    rcases b with ⟨s, al⟩
    simp only [first_fit] at h
    by_cases hfit : (!al && decide (asize ≤ s)) = true
    · rw [if_pos hfit] at h
      cases al <;> simp at hfit h
      exact ⟨[], s, bs, rfl, by simp [h], hfit, by simp⟩
    · rw [if_neg hfit] at h
      obtain ⟨l₁, c, l₂, rfl, rfl, hc, hbefore⟩ := ih h
      refine ⟨⟨s, al⟩ :: l₁, c, l₂, rfl, by simp [Nat.add_assoc], hc, ?_⟩
      simp only [List.mem_cons, forall_eq_or_imp]
      refine ⟨?_, hbefore⟩
      cases al <;> simp at hfit ⊢
      omega

theorem first_fit_eq_none {asize a : Nat} {bs : List Blk} (h : first_fit asize a bs = none) :
    ∀ b ∈ bs, b.alloc = true ∨ b.size < asize := by
  induction bs generalizing a with
  | nil => simp
  | cons b bs ih =>
    rcases b with ⟨s, al⟩
    simp only [first_fit] at h
    by_cases hfit : (!al && decide (asize ≤ s)) = true
    · rw [if_pos hfit] at h
      cases h
    · rw [if_neg hfit] at h
      simp only [List.mem_cons, forall_eq_or_imp]
      refine ⟨?_, ih h⟩
      cases al <;> simp at hfit ⊢
      omega

/-- No block before the first fit is a free block of at least `asize` bytes. -/
theorem first_fit_first {asize a r p : Nat} {b : Blk} {bs : List Blk} (h : first_fit asize a bs = some r)
    (hp : (p, b) ∈ layout a bs) (hlt : p < r) : b.alloc = true ∨ b.size < asize := by
  obtain ⟨l₁, c, l₂, rfl, rfl, -, hbefore⟩ := first_fit_eq_some h
  rw [layout_append, List.mem_append] at hp
  rcases hp with hp | hp
  · exact hbefore b (mem_layout hp).1
  · have := (mem_layout hp).2.1
    omega

section carve

variable {k csize asize a : Nat} {pre post : List Blk}

theorem total_carve (h : asize ≤ csize) : total (carve k csize asize) = csize := by
  unfold carve
  split
  · simp only [total_cons, total_nil]
    omega
  · simp

theorem allocs_carve : allocs a (carve k csize asize) =
    [(a, ⟨if csize - asize ≥ k then asize else csize, true⟩)] := by
  unfold carve
  split <;> simp [*]

theorem sized_carve (hk : k ≤ asize) (ha : asize % 8 = 0) (hc : csize % 8 = 0) (hkc : k ≤ csize) :
    Sized k (carve k csize asize) := by
  unfold carve
  split <;> simp [Sized] <;> omega

theorem noAdjFree_carve (h : NoAdjFree (pre ++ ⟨csize, false⟩ :: post)) :
    NoAdjFree (pre ++ carve k csize asize ++ post) := by
  unfold NoAdjFree at *
  rw [List.append_assoc]
  rw [List.chain'_append] at h ⊢
  obtain ⟨hpre, hmid, hjoin⟩ := h
  unfold carve
  split <;> rcases post with _ | ⟨⟨ns, _ | _⟩, post⟩ <;> simp_all [List.chain'_cons']

end carve

/-- `coalesce` by address: among the blocks from `p` on, which follow `prev`, the block at `q`
    becomes free and absorbs whichever of its neighbours are free. -/
def free_at (q : Nat) : Nat → Blk → List Blk → List Blk
  | _, prev, [] => [prev]
  | p, prev, b :: bs => if p = q then merge prev b.size bs else prev :: free_at q (p + b.size) b bs

/-- `place` by address: among the blocks from `p` on, the block at `r` is carved for `asize`
    bytes, with a free rest when at least `min` bytes are left. -/
def carve_at (min r asize : Nat) : Nat → List Blk → List Blk
  | _, [] => []
  | p, b :: bs => if p = r then carve min b.size asize ++ bs else b :: carve_at min r asize (p + b.size) bs

/-- The size of the block at address `q` among the blocks from `p` on; `0` when none starts
    there. -/
def size_of (q : Nat) : Nat → List Blk → Nat
  | _, [] => 0
  | p, b :: bs => if p = q then b.size else size_of q (p + b.size) bs

section at_address

variable {k asize p : Nat} {prev b : Blk} {pre post : List Blk}

/-- Freeing the block that follows the nonempty blocks `pre` merges it with the last of them. -/
theorem free_at_append (hpos : ∀ d ∈ pre, 0 < d.size) :
    free_at (p + total pre) p prev (pre ++ b :: post) =
      (prev :: pre).dropLast ++ merge (pre.getLastD prev) b.size post := by
  induction pre generalizing p prev with
  | nil => simp [free_at]
  | cons d pre ih =>
    have hd := hpos d (List.mem_cons_self _ _)
    have hrest : free_at (p + d.size + total pre) (p + d.size) d (pre ++ b :: post) =
        (d :: pre).dropLast ++ merge (pre.getLastD d) b.size post :=
      ih fun e he => hpos e (List.mem_cons_of_mem _ he)
    rw [total_cons, ← Nat.add_assoc] at *
    rw [List.cons_append, free_at, if_neg (show p ≠ p + d.size + total pre by omega), hrest,
      List.dropLast_cons₂, List.getLastD_cons, List.cons_append]

/-- Carving the block that follows the nonempty blocks `pre` leaves them and `post` alone. -/
theorem carve_at_append (hpos : ∀ d ∈ pre, 0 < d.size) :
    carve_at k (p + total pre) asize p (pre ++ b :: post) = pre ++ carve k b.size asize ++ post := by
  induction pre generalizing p with
  | nil => simp [carve_at]
  | cons d pre ih =>
    have hd := hpos d (List.mem_cons_self _ _)
    have hrest := ih (p := p + d.size) fun e he => hpos e (List.mem_cons_of_mem _ he)
    rw [total_cons, ← Nat.add_assoc] at *
    rw [List.cons_append, carve_at, if_neg (show p ≠ p + d.size + total pre by omega), hrest]
    rfl

theorem size_of_append (hpos : ∀ d ∈ pre, 0 < d.size) : size_of (p + total pre) p (pre ++ b :: post) = b.size := by
  induction pre generalizing p with
  | nil => simp [size_of]
  | cons d pre ih =>
    have hd := hpos d (List.mem_cons_self _ _)
    have hrest := ih (p := p + d.size) fun e he => hpos e (List.mem_cons_of_mem _ he)
    rw [total_cons, ← Nat.add_assoc] at *
    rw [List.cons_append, size_of, if_neg (show p ≠ p + d.size + total pre by omega), hrest]

theorem size_of_of_mem {q : Nat} {bs : List Blk} (hpos : ∀ d ∈ bs, 0 < d.size) (h : (q, b) ∈ layout p bs) :
    size_of q p bs = b.size := by
  obtain ⟨l₁, l₂, rfl, rfl⟩ := mem_layout_iff.1 h
  exact size_of_append fun d hd => hpos d (List.mem_append_left _ hd)

end at_address

section free_at

variable {q p k asize c : Nat} {prev b : Blk} {bs pre post : List Blk}

theorem dropLast_append_getLastD (prev : Blk) (pre : List Blk) :
    (prev :: pre).dropLast ++ [pre.getLastD prev] = prev :: pre := by
  rw [← List.getLast_eq_getLastD prev pre (List.cons_ne_nil _ _), List.dropLast_concat_getLast]

/-- Freeing by address keeps the bytes, the block before the run included. -/
theorem total_free_at : total (free_at q p prev bs) = prev.size + total bs := by
  induction bs generalizing p prev with
  | nil => simp [free_at]
  | cons b bs ih =>
    unfold free_at
    split
    · simp only [total_merge, total_cons]; omega
    · simp only [total_cons, ih]

/-- An allocated block before the run is never absorbed. -/
theorem free_at_eq_cons (hprev : prev.alloc = true) :
    free_at q p prev bs = prev :: (free_at q p prev bs).tail := by
  rcases bs with _ | ⟨b, bs⟩
  · rfl
  · unfold free_at
    split
    · rcases bs with _ | ⟨⟨ns, _ | _⟩, bs⟩ <;> simp [merge, hprev]
    · rfl

/-- The merged block holds at least the bytes of the block that was freed. -/
theorem exists_free_mem_merge (prev : Blk) (size : Nat) (post : List Blk) :
    ∃ S, (⟨S, false⟩ : Blk) ∈ merge prev size post ∧ size ≤ S := by
  rcases prev with ⟨ps, _ | _⟩ <;> rcases post with _ | ⟨⟨ns, _ | _⟩, post⟩ <;>
    simp only [merge, Bool.false_eq_true, if_true, if_false] <;>
    first
    | exact ⟨_, List.mem_cons_self _ _, by omega⟩
    | exact ⟨_, List.mem_cons_of_mem _ (List.mem_cons_self _ _), by omega⟩

/-- Between two allocated neighbours, freeing a block only clears its bit. -/
theorem free_at_isolated (hpos : ∀ d ∈ pre, 0 < d.size) (hprev : (pre.getLastD prev).alloc = true)
    (hnext : (post.headD ⟨0, true⟩).alloc = true) :
    free_at (p + total pre) p prev (pre ++ b :: post) = prev :: pre ++ ⟨b.size, false⟩ :: post := by
  have hmerge : merge (pre.getLastD prev) b.size post = pre.getLastD prev :: ⟨b.size, false⟩ :: post := by
    rcases post with _ | ⟨n, post⟩
    · simp only [merge, hprev, if_true]
    · simp only [List.headD_cons] at hnext
      simp only [merge, hprev, hnext, if_true]
  rw [free_at_append hpos, hmerge]
  conv_rhs => rw [← dropLast_append_getLastD prev pre]
  rw [List.append_assoc, List.singleton_append]

/-- Freeing a block just carved out of `c` bytes frees all `c` bytes when the block after it is
    allocated: the free rest `carve` split off is absorbed again. -/
theorem free_at_carve (hpos : ∀ d ∈ pre, 0 < d.size) (hnext : (post.headD ⟨0, true⟩).alloc = true)
    (hle : asize ≤ c) :
    free_at (p + total pre) p prev (pre ++ carve k c asize ++ post) =
      free_at (p + total pre) p prev (pre ++ ⟨c, true⟩ :: post) := by
  unfold carve
  split
  · rw [List.append_assoc, List.cons_append, List.singleton_append, free_at_append hpos, free_at_append hpos]
    congr 1
    rcases pre.getLastD prev with ⟨ls, _ | _⟩ <;> rcases post with _ | ⟨⟨ns, _ | _⟩, post⟩ <;>
      simp_all [merge] <;> omega
  · rw [List.append_assoc, List.singleton_append]

/-- Carving by address keeps the bytes. -/
theorem total_carve_at {k r asize : Nat} (hk : 0 < k) : ∀ {p : Nat} {bs : List Blk},
    total (carve_at k r asize p bs) = total bs
  | _, [] => rfl
  | p, b :: bs => by
    unfold carve_at
    split
    · unfold carve
      split
      · simp only [List.cons_append, List.nil_append, total_cons]; omega
      · rfl
    · simp only [total_cons, total_carve_at hk]

end free_at

/-- The blocks from `p` to `e` around the allocated blocks `A`, listed by address: each gap before,
    between and after them one free block. -/
def canon : Nat → List (Nat × Blk) → Nat → List Blk
  | p, [], e => if p < e then [⟨e - p, false⟩] else []
  | p, (q, b) :: A, e => (if p < q then [⟨q - p, false⟩] else []) ++ b :: canon (q + b.size) A e

section canonical

variable {a : Nat} {bs l₁ l₂ : List Blk}

theorem canon_gap {p q e : Nat} {b : Blk} {A : List (Nat × Blk)} (h : p < q) :
    canon p ((q, b) :: A) e = ⟨q - p, false⟩ :: canon q ((q, b) :: A) e := by
  simp [canon, h]

/-- Nonempty blocks with no two free ones side by side are the gaps around their allocated
    blocks: the allocated blocks and the end fix the whole list. -/
theorem eq_canon (hno : NoAdjFree bs) (hpos : ∀ b ∈ bs, 0 < b.size) : bs = canon a (allocs a bs) (a + total bs) := by
  induction bs generalizing a with
  | nil => simp [canon]
  | cons b t ih =>
    have hb := hpos b (List.mem_cons_self _ _)
    have iht := ih (a := a + b.size) hno.tail fun d hd => hpos d (List.mem_cons_of_mem _ hd)
    rw [total_cons, ← Nat.add_assoc]
    rcases b with ⟨S, _ | _⟩
    · rcases t with _ | ⟨⟨c, _ | _⟩, t⟩
      · simp only at hb
        simp [canon, hb]
      · simp [NoAdjFree] at hno
      · rw [allocs_cons_free, allocs_cons_alloc, canon_gap (by simp only at hb; omega), ← allocs_cons_alloc, ← iht]
        simp
    · rw [allocs_cons_alloc, canon, if_neg (Nat.lt_irrefl a), List.nil_append, ← iht]

/-- Allocated blocks listed by address come in increasing order of address. -/
theorem allocs_sorted (hpos : ∀ b ∈ bs, 0 < b.size) : (allocs a bs).Pairwise fun x y => x.1 < y.1 :=
  ((layout_pairwise a bs).imp_of_mem fun {x _} hx _ h => by
    have := hpos x.2 (mem_layout (a := a) (p := x.1) hx).1
    omega).filter _

/-- Two lists sorted by strictly increasing address with the same members are equal. -/
theorem eq_of_mem_iff_of_sorted : ∀ {A B : List (Nat × Blk)}, A.Pairwise (fun x y => x.1 < y.1) →
    B.Pairwise (fun x y => x.1 < y.1) → (∀ y, y ∈ A ↔ y ∈ B) → A = B
  | [], [], _, _, _ => rfl
  | [], y :: _, _, _, h => absurd ((h y).2 (List.mem_cons_self _ _)) (List.not_mem_nil _)
  | x :: _, [], _, _, h => absurd ((h x).1 (List.mem_cons_self _ _)) (List.not_mem_nil _)
  | x :: A, y :: B, hA, hB, h => by
    rw [List.pairwise_cons] at hA hB
    have hxy : x = y := by
      rcases List.mem_cons.1 ((h x).1 (List.mem_cons_self _ _)) with e | hx
      · exact e
      rcases List.mem_cons.1 ((h y).2 (List.mem_cons_self _ _)) with e | hy
      · exact e.symm
      exact absurd ((hA.1 y hy).trans (hB.1 x hx)) (Nat.lt_irrefl _)
    subst hxy
    refine congrArg _ (eq_of_mem_iff_of_sorted hA.2 hB.2 fun z => ⟨fun hz => ?_, fun hz => ?_⟩)
    · exact ((List.mem_cons.1 ((h z).1 (List.mem_cons_of_mem _ hz))).resolve_left fun e =>
        absurd (hA.1 z hz) (by rw [e]; exact Nat.lt_irrefl _))
    · exact ((List.mem_cons.1 ((h z).2 (List.mem_cons_of_mem _ hz))).resolve_left fun e =>
        absurd (hB.1 z hz) (by rw [e]; exact Nat.lt_irrefl _))

/-- Two block lists of the same length in bytes, with no two free blocks side by side, and with the
    same allocated blocks from `a` are the same list. -/
theorem eq_of_allocs (hno₁ : NoAdjFree l₁) (hno₂ : NoAdjFree l₂) (hpos₁ : ∀ b ∈ l₁, 0 < b.size)
    (hpos₂ : ∀ b ∈ l₂, 0 < b.size) (htot : total l₁ = total l₂) (h : ∀ y, y ∈ allocs a l₁ ↔ y ∈ allocs a l₂) :
    l₁ = l₂ :=
  calc l₁ = canon a (allocs a l₁) (a + total l₁) := eq_canon hno₁ hpos₁
    _ = canon a (allocs a l₂) (a + total l₂) := by
      rw [eq_of_mem_iff_of_sorted (allocs_sorted hpos₁) (allocs_sorted hpos₂) h, htot]
    _ = l₂ := (eq_canon hno₂ hpos₂).symm

end canonical

end malloc_lab
