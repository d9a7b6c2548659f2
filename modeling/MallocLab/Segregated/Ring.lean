import MallocLab.Segregated.Basic

namespace malloc_lab.segregated

/-- The `succ` pointer stored in the node at `x`. -/
def succ_of (m : Mem) (x : Nat) : Nat := m.load (succ_ptr x) ptr_size

/-- The `pred` pointer stored in the node at `x`. -/
def pred_of (m : Mem) (x : Nat) : Nat := m.load (pred_ptr x) ptr_size

/-- Consecutive nodes of `l` are linked both ways. -/
def Links (m : Mem) : List Nat → Prop
  | x :: y :: rest => succ_of m x = y ∧ pred_of m y = x ∧ Links m (y :: rest)
  | _ => True

/-- The circular list through the head `hd`, with the nodes `l` in `succ` order. -/
def Ring (m : Mem) (hd : Nat) (l : List Nat) : Prop := Links m (hd :: l ++ [hd])

section links

variable {m m' : Mem} {x y hd b : Nat} {l l₁ l₂ : List Nat}

@[simp] theorem links_nil : Links m [] := trivial

@[simp] theorem links_single : Links m [x] := trivial

theorem links_cons_cons {rest : List Nat} :
    Links m (x :: y :: rest) ↔ succ_of m x = y ∧ pred_of m y = x ∧ Links m (y :: rest) := Iff.rfl

/-- Links of a concatenation: the two halves, which share the node `x`. -/
theorem links_append : ∀ (l₁ : List Nat) (x : Nat) (l₂ : List Nat),
    Links m (l₁ ++ x :: l₂) ↔ Links m (l₁ ++ [x]) ∧ Links m (x :: l₂)
  | [], x, l₂ => by simp
  | [a], x, l₂ => by simp [links_cons_cons, and_assoc]
  | a :: c :: l₁, x, l₂ => by
    simp only [List.cons_append, links_cons_cons]
    rw [← List.cons_append, ← List.cons_append, links_append (c :: l₁) x l₂, and_assoc, and_assoc]

/-- Links read the `succ` of every node but the last and the `pred` of every node but the first. -/
theorem Links.congr (h : Links m l) (hs : ∀ x ∈ l.dropLast, succ_of m' x = succ_of m x)
    (hp : ∀ y ∈ l.tail, pred_of m' y = pred_of m y) : Links m' l := by
  induction l with
  | nil => trivial
  | cons x l ih =>
    rcases l with _ | ⟨y, rest⟩
    · trivial
    obtain ⟨h1, h2, h3⟩ := h
    refine ⟨(hs x (by simp)).trans h1, (hp y (by simp)).trans h2, ih h3 (fun z hz => hs z ?_) ?_⟩
    · exact List.mem_cons_of_mem _ hz
    · exact fun z hz => hp z (List.mem_cons_of_mem _ hz)

/-- The head's `succ` is the first node, or the head itself on an empty list. -/
theorem Ring.succ_head (h : Ring m hd l) : succ_of m hd = l.headD hd := by
  rcases l with _ | ⟨f, t⟩
  · exact h.1
  · exact h.1

/-- Splicing `b` in after the head: `hd.succ = b`, `b.pred = hd`, `b.succ` is the old first node
    `f` and `f.pred = b`; every other link word of the ring is kept. -/
theorem Ring.insert (h : Ring m hd l) (hnd : (hd :: l).Nodup)
    (h1 : succ_of m' hd = b) (h2 : pred_of m' b = hd) (h3 : succ_of m' b = l.headD hd)
    (h4 : pred_of m' (l.headD hd) = b) (hs : ∀ x ∈ l, succ_of m' x = succ_of m x)
    (hp : ∀ x ∈ l ++ [hd], x ≠ l.headD hd → pred_of m' x = pred_of m x) : Ring m' hd (b :: l) := by
  rcases l with _ | ⟨f, t⟩
  · exact ⟨h1, h2, h3, h4, trivial⟩
  obtain ⟨-, -, hrest⟩ := h
  simp only [List.nodup_cons, List.mem_cons, not_or] at hnd
  have hrest' : Links m (f :: (t ++ [hd])) := hrest
  refine ⟨h1, h2, h3, h4, hrest'.congr (fun x hx => hs x ?_) fun y hy => hp y ?_ ?_⟩
  · rwa [← List.cons_append, List.dropLast_concat] at hx
  · exact List.mem_cons_of_mem _ hy
  · rintro rfl
    rcases List.mem_append.1 hy with hy | hy
    · exact hnd.2.1 hy
    · exact hnd.1.1 (List.mem_singleton.1 hy).symm

/-- Unlinking `b` from between its neighbours `p` (the last of `hd :: l₁`) and `n` (the first of
    `l₂ ++ [hd]`): `p.succ = n` and `n.pred = p`, and every other link word the ring reads is
    kept. -/
theorem Ring.remove {A B : List Nat} {p n : Nat} (h : Ring m hd (l₁ ++ b :: l₂))
    (hA : hd :: l₁ = A ++ [p]) (hB : l₂ ++ [hd] = n :: B)
    (h1 : succ_of m' p = n) (h2 : pred_of m' n = p)
    (hs : ∀ x ∈ A ++ l₂, succ_of m' x = succ_of m x)
    (hp : ∀ x ∈ l₁ ++ B, pred_of m' x = pred_of m x) : Ring m' hd (l₁ ++ l₂) := by
  have e₁ : hd :: (l₁ ++ b :: l₂) ++ [hd] = A ++ p :: b :: n :: B := by
    rw [show hd :: (l₁ ++ b :: l₂) ++ [hd] = (hd :: l₁) ++ b :: (l₂ ++ [hd]) by simp, hA, hB]
    simp
  have e₂ : hd :: (l₁ ++ l₂) ++ [hd] = A ++ p :: n :: B := by
    rw [show hd :: (l₁ ++ l₂) ++ [hd] = (hd :: l₁) ++ (l₂ ++ [hd]) by simp, hA, hB]
    simp
  have hA' : (A ++ [p]).tail = l₁ := by rw [← hA]; rfl
  have hB' : (n :: B).dropLast = l₂ := by rw [← hB, List.dropLast_concat]
  unfold Ring at h ⊢
  rw [e₁, links_append] at h
  rw [e₂, links_append]
  obtain ⟨hpre, -, -, -, -, hpost⟩ := h
  refine ⟨hpre.congr (fun x hx => hs x ?_) (fun y hy => hp y ?_), h1, h2,
    hpost.congr (fun x hx => hs x ?_) (fun y hy => hp y ?_)⟩
  · rw [List.dropLast_concat] at hx
    exact List.mem_append_left _ hx
  · rw [hA'] at hy
    exact List.mem_append_left _ hy
  · rw [hB'] at hx
    exact List.mem_append_right _ hx
  · exact List.mem_append_right _ hy

/-- The neighbours of the node `b`: its `pred` is the last of `hd :: l₁` and its `succ` the first
    of `l₂ ++ [hd]`. -/
theorem Ring.split (h : Ring m hd (l₁ ++ b :: l₂)) :
    ∃ A p n B, hd :: l₁ = A ++ [p] ∧ l₂ ++ [hd] = n :: B ∧ pred_of m b = p ∧ succ_of m b = n := by
  obtain ⟨A, p, hA⟩ : ∃ A p, hd :: l₁ = A ++ [p] := by
    rcases List.eq_nil_or_concat (hd :: l₁) with h | ⟨A, p, h⟩
    · exact absurd h (List.cons_ne_nil _ _)
    · exact ⟨A, p, by rw [h, List.concat_eq_append]⟩
  obtain ⟨n, B, hB⟩ : ∃ n B, l₂ ++ [hd] = n :: B := by
    rcases l₂ with _ | ⟨n, B⟩
    · exact ⟨hd, [], rfl⟩
    · exact ⟨n, B ++ [hd], rfl⟩
  have e : hd :: (l₁ ++ b :: l₂) ++ [hd] = A ++ p :: b :: n :: B := by
    rw [show hd :: (l₁ ++ b :: l₂) ++ [hd] = (hd :: l₁) ++ b :: (l₂ ++ [hd]) by simp, hA, hB]
    simp
  unfold Ring at h
  rw [e, links_append] at h
  exact ⟨A, p, n, B, hA, hB, h.2.2.1, h.2.2.2.1⟩

/-- The nodes on either side of `b` are nodes of the ring. -/
theorem mem_of_split {x : Nat} {l : List Nat} (hsplit : l = l₁ ++ b :: l₂)
    (hx : x ∈ hd :: l₁ ∨ x ∈ l₂ ++ [hd]) : x ∈ hd :: l := by
  subst hsplit
  rcases hx with hx | hx
  · rcases List.mem_cons.1 hx with rfl | hx
    · exact List.mem_cons_self _ _
    · exact List.mem_cons_of_mem _ (List.mem_append_left _ hx)
  · rcases List.mem_append.1 hx with hx | hx
    · exact List.mem_cons_of_mem _ (List.mem_append_right _ (List.mem_cons_of_mem _ hx))
    · rw [List.mem_singleton.1 hx]
      exact List.mem_cons_self _ _

end links

end malloc_lab.segregated
