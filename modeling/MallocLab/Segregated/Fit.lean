import MallocLab.Segregated.Spec
import Mathlib.Data.Finset.Card

namespace malloc_lab.segregated

/-- The size in the header at `x`. -/
def size_at (h : Heap) (x : Nat) : Nat := extract_size (h.mem.load x 4)

section scan

variable {h : Heap} {hd : Nat}

/-- A walk from `x` along links ending at `hd` goes next to the first node after `x`. -/
theorem Links.cons_succ {m : Mem} {x : Nat} {l : List Nat} (hl : Links m (x :: l ++ [hd])) :
    succ_of m x = l.headD hd ∧ Links m (l ++ [hd]) := by
  rcases l with _ | ⟨y, l⟩
  · exact ⟨hl.1, hl.2.2⟩
  · exact ⟨hl.1, hl.2.2⟩

/-- The inner loop of `find_fit` walks the nodes `l` up to the head `hd` and returns the first of
    at least `asize` bytes: given more fuel than nodes, it is `List.find?` on `l`. -/
theorem find_fit_scan_eq (asize : Nat) : ∀ (l : List Nat) (fuel : Nat), Links h.mem (l ++ [hd]) → hd ∉ l →
    l.length < fuel → (∀ x ∈ l, h.lo ≤ x ∧ x + 24 ≤ h.brk) →
    find_fit_scan h asize hd fuel (l.headD hd) = .ok (l.find? fun x => asize ≤ size_at h x)
  | [], fuel + 1, _, _, _, _ => by simp [find_fit_scan]
  | x :: l, fuel + 1, hlk, hhd, hlen, hgeo => by
    obtain ⟨hx, hxb⟩ := hgeo x (List.mem_cons_self _ _)
    obtain ⟨hsucc, hlk'⟩ := Links.cons_succ hlk
    have hne : x ≠ hd := fun e => hhd (e ▸ List.mem_cons_self _ _)
    have hsz : get_size h x = .ok (size_at h x) := get_size_eq hx (by omega)
    simp only [find_fit_scan, List.headD_cons, hne, if_false, hsz, ok_bind, List.find?_cons]
    by_cases hfit : asize ≤ size_at h x
    · simp [hfit]
    · simp only [hfit, if_false, decide_False, read_succ hx hxb, ok_bind, hsucc]
      exact find_fit_scan_eq asize l fuel hlk' (fun h' => hhd (List.mem_cons_of_mem _ h'))
        (by simp at hlen; omega) fun y hy => hgeo y (List.mem_cons_of_mem _ hy)

end scan

/-- A list of distinct numbers below `b` has at most `b` members. -/
theorem length_le_of_nodup {l : List Nat} {b : Nat} (hnd : l.Nodup) (hlt : ∀ x ∈ l, x < b) :
    l.length ≤ b := by
  have := Finset.card_le_card
    (show l.toFinset ⊆ Finset.range b from fun x hx => Finset.mem_range.2 (hlt x (List.mem_toFinset.1 hx)))
  rwa [List.toFinset_card_of_nodup hnd, Finset.card_range] at this

section classes

variable {s : State} {ls : Nat → List Nat}

/-- The outer loop of `find_fit` over the classes `idx .. idx + k - 1`: it returns `0` when no node
    of those lists has `asize` bytes, and otherwise a node of one of them with `asize` bytes. -/
theorem find_fit_classes_spec (asize : Nat) (hl : Lists s.heap.mem s.seglist ls)
    (hgeo : ∀ x, Node s.seglist ls x → s.heap.lo ≤ x ∧ x + 32 ≤ s.heap.brk) :
    ∀ k idx, idx + k ≤ size_class_cnt → ∃ r, find_fit_classes s asize k idx = .ok r ∧
      ((r = 0 ∧ ∀ i, idx ≤ i → i < idx + k → ∀ x ∈ ls i, size_at s.heap x < asize) ∨
        ∃ i, idx ≤ i ∧ i < idx + k ∧ r ∈ ls i ∧ asize ≤ size_at s.heap r)
  | 0, idx, _ => ⟨0, rfl, .inl ⟨rfl, fun i h1 h2 => by omega⟩⟩
  | k + 1, idx, hk => by
    have hi : idx < size_class_cnt := by omega
    have hring := hl.ring idx hi
    have hhd := hgeo _ (Lists.node_head hi)
    have hnd : (head s.seglist idx :: ls idx).Nodup :=
      List.nodup_cons.2 ⟨hl.no_head idx idx hi hi, hl.nodup idx hi⟩
    have hlen := length_le_of_nodup (b := s.heap.brk) hnd fun x hx => by
      rcases List.mem_cons.1 hx with rfl | hx
      · omega
      · have := hgeo x (Lists.node_mem hi hx)
        omega
    have hscan := find_fit_scan_eq asize (ls idx) s.heap.brk (Links.cons_succ hring).2
      (hl.no_head idx idx hi hi) (by simp at hlen; omega) fun x hx => by
        have := hgeo x (Lists.node_mem hi hx)
        omega
    have hfirst : s.heap.read (succ_ptr (head s.seglist idx)) ptr_size = .ok ((ls idx).headD (head s.seglist idx)) := by
      rw [read_succ hhd.1 (by omega), hring.succ_head]
    simp only [find_fit_classes]
    rw [show s.seglist + idx * block_size = head s.seglist idx from rfl, hfirst, ok_bind, hscan, ok_bind]
    cases hfind : (ls idx).find? fun x => asize ≤ size_at s.heap x with
    | some b =>
      refine ⟨b, rfl, .inr ⟨idx, le_rfl, by omega, List.mem_of_find?_eq_some hfind, ?_⟩⟩
      simpa using List.find?_some hfind
    | none =>
      obtain ⟨r, hr, hcase⟩ := find_fit_classes_spec asize hl hgeo k (idx + 1) (by omega)
      refine ⟨r, hr, ?_⟩
      rcases hcase with ⟨rfl, hnone⟩ | ⟨i, h1, h2, hmem, hfit⟩
      · refine .inl ⟨rfl, fun i h1 h2 x hx => ?_⟩
        rcases Nat.eq_or_lt_of_le h1 with rfl | h1
        · simpa using List.find?_eq_none.1 hfind x hx
        · exact hnone i h1 (by omega) x hx
      · exact .inr ⟨i, by omega, by omega, hmem, hfit⟩

/-- `find_fit` returns `0` when no list from the request's class on has a node of `asize` bytes,
    and otherwise a node of some list with `asize` bytes. -/
theorem find_fit_spec (asize : Nat) (hl : Lists s.heap.mem s.seglist ls)
    (hgeo : ∀ x, Node s.seglist ls x → s.heap.lo ≤ x ∧ x + 32 ≤ s.heap.brk) :
    ∃ r, find_fit s asize = .ok r ∧
      ((r = 0 ∧ ∀ i, get_seglist_idx asize ≤ i → i < size_class_cnt → ∀ x ∈ ls i, size_at s.heap x < asize) ∨
        ∃ i < size_class_cnt, r ∈ ls i ∧ asize ≤ size_at s.heap r) := by
  have hidx := get_seglist_idx_lt asize
  obtain ⟨r, hr, hcase⟩ := find_fit_classes_spec asize hl hgeo (size_class_cnt - get_seglist_idx asize)
    (get_seglist_idx asize) (by omega)
  refine ⟨r, hr, hcase.imp (fun ⟨h0, hnone⟩ => ⟨h0, fun i h1 h2 => hnone i h1 (by omega)⟩) ?_⟩
  rintro ⟨i, -, h2, hmem, hfit⟩
  exact ⟨i, by omega, hmem, hfit⟩

end classes

end malloc_lab.segregated
