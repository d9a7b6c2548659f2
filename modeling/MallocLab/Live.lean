import MallocLab.Chain

namespace malloc_lab

/-- The allocated blocks `A'` are those of `A` and the block `x`, whose address `A` does not use. -/
def Adds (A A' : List (Nat × Blk)) (x : Nat × Blk) : Prop :=
  (∀ y, y ∈ A' ↔ y = x ∨ y ∈ A) ∧ ∀ b, (x.1, b) ∉ A

/-- The allocated blocks `A'` are those of `A` but the one at address `q`. -/
def Drops (A A' : List (Nat × Blk)) (q : Nat) : Prop :=
  ∀ y, y ∈ A' ↔ y ∈ A ∧ y.1 ≠ q

/-- A call of the allocator's interface. -/
inductive Call
  | malloc (size : Nat)
  | free (ptr : Nat)
  | realloc (ptr size : Nat)
  | calloc (nmemb size : Nat)
  deriving DecidableEq, Repr

/-- The pointer a call hands back to the allocator (`NULL` for `malloc` and `calloc`). -/
def Call.operand : Call → Nat
  | .free p => p
  | .realloc p _ => p
  | _ => 0

/-- The number of bytes a call asks for (`0` for `free`). -/
def Call.request : Call → Nat
  | .malloc n => n
  | .free _ => 0
  | .realloc _ n => n
  | .calloc nmemb size => nmemb * size

/-- The calls a run may make: `free` and `realloc` get `NULL` or a live pointer, every size that
    reaches `malloc` or `realloc` is below `2 ^ 31 - 64`, and the arguments of `calloc` satisfy
    `ok`, each allocator's own form of that bound. -/
def Allowed (ok : Nat → Nat → Prop) (L : List (Nat × Nat)) : Call → Prop
  | .malloc n => n < 2 ^ 31 - 64
  | .free p => p = 0 ∨ p ∈ L.map Prod.fst
  | .realloc p n => (p = 0 ∨ p ∈ L.map Prod.fst) ∧ n < 2 ^ 31 - 64
  | .calloc nmemb size => ok nmemb size

/-- The live allocations once `p` is no longer live. -/
def release (L : List (Nat × Nat)) (p : Nat) : List (Nat × Nat) :=
  L.filter fun x => x.1 ≠ p

/-- The live allocations once the pointer `p` is returned for a request of `n` bytes. -/
def acquire (L : List (Nat × Nat)) (p n : Nat) : List (Nat × Nat) :=
  if p = 0 then L else (p, n) :: L

/-- The live allocations after a call that returned `r`: each pointer with the number of bytes
    the allocator was asked to reserve for it, for `calloc` the product as the `size_t` it
    passes to `malloc`. -/
def live_after (L : List (Nat × Nat)) : Call → Nat → List (Nat × Nat)
  | .malloc n, r => acquire L r n
  | .free p, _ => release L p
  | .realloc p n, r => if n = 0 then release L p else if r = 0 then L else (r, n) :: release L p
  | .calloc nmemb size, r => acquire L r (nmemb * size % 2 ^ 64)

/-- A pointer a call with a nonzero request returned, other than `NULL`, is live after it. -/
theorem mem_live_after {L : List (Nat × Nat)} {c : Call} {r : Nat} (hr : r ≠ 0) (hc : c.request ≠ 0) :
    ∃ n, (r, n) ∈ live_after L c r := by
  cases c with
  | malloc n => exact ⟨n, by simp [live_after, acquire, hr]⟩
  | free p => exact absurd rfl hc
  | realloc p n => exact ⟨n, by simp [live_after, hr, show n ≠ 0 from hc]⟩
  | calloc nmemb size => exact ⟨nmemb * size % 2 ^ 64, by simp [live_after, acquire, hr]⟩

/-- A `NULL` answer to a call with a nonzero request leaves the live allocations alone. -/
theorem live_after_null {L : List (Nat × Nat)} {c : Call} (hc : c.request ≠ 0) : live_after L c 0 = L := by
  cases c with
  | free p => exact absurd rfl hc
  | realloc p n => simp [live_after, show n ≠ 0 from hc]
  | _ => simp [live_after, acquire]

/-- The payloads `[p, p + n)` of the live allocations lie in the region `[lo, brk)`, and those
    of distinct pointers do not overlap. -/
def Apart (h : Heap) (L : List (Nat × Nat)) : Prop :=
  (∀ x ∈ L, h.lo ≤ x.1 ∧ x.1 + x.2 ≤ h.brk) ∧
    ∀ x ∈ L, ∀ y ∈ L, x.1 ≠ y.1 → x.1 + x.2 ≤ y.1 ∨ y.1 + y.2 ≤ x.1

/-- The states a run reaches from a state `init` admits, by allowed calls that return, with the
    live allocations after each call. -/
inductive Reach {σ : Type} (init : σ → Prop) (ok : Nat → Nat → Prop) (step : σ → Call → Except Fault (σ × Nat)) :
    σ → List (Nat × Nat) → Prop
  | init {s : σ} : init s → Reach init ok step s []
  | step {s s' : σ} {L : List (Nat × Nat)} {c : Call} {r : Nat} :
      Reach init ok step s L → Allowed ok L c → step s c = .ok (s', r) → Reach init ok step s' (live_after L c r)

/-- The live allocations `L` match the allocated blocks `A` one to one: each live pointer is the
    payload, `off` bytes into its block, of an allocated block with room for the request up to
    the footer; each allocated block is some live pointer's; no pointer is live twice. -/
structure Tracks (off : Nat) (A : List (Nat × Blk)) (L : List (Nat × Nat)) : Prop where
  nodup : (L.map Prod.fst).Nodup
  live : ∀ x ∈ L, off ≤ x.1 ∧ ∃ S, (x.1 - off, ⟨S, true⟩) ∈ A ∧ x.1 + x.2 + wsize ≤ x.1 - off + S
  onto : ∀ q b, (q, b) ∈ A → ∃ n, (q + off, n) ∈ L

section tracks

variable {off p n S : Nat} {A A' : List (Nat × Blk)} {L : List (Nat × Nat)}

theorem Tracks.congr (h : Tracks off A L) (hA : ∀ y, y ∈ A' ↔ y ∈ A) : Tracks off A' L :=
  ⟨h.nodup, fun x hx => by
    obtain ⟨hoff, S, hS, hn⟩ := h.live x hx
    exact ⟨hoff, S, (hA _).2 hS, hn⟩, fun q b hq => h.onto q b ((hA _).1 hq)⟩

theorem Tracks.adds (h : Tracks off A L) (hA : Adds A A' (p - off, ⟨S, true⟩)) (hp : off ≤ p)
    (hn : p + n + wsize ≤ p - off + S) : Tracks off A' ((p, n) :: L) := by
  refine ⟨List.nodup_cons.2 ⟨fun hmem => ?_, h.nodup⟩, fun x hx => ?_, fun q b hq => ?_⟩
  · obtain ⟨x, hx, rfl⟩ := List.mem_map.1 hmem
    obtain ⟨-, S', hS', -⟩ := h.live x hx
    exact hA.2 _ hS'
  · rcases List.mem_cons.1 hx with rfl | hx
    · exact ⟨hp, S, (hA.1 _).2 (.inl rfl), hn⟩
    · obtain ⟨hoff, S', hS', hn'⟩ := h.live x hx
      exact ⟨hoff, S', (hA.1 _).2 (.inr hS'), hn'⟩
  · rcases (hA.1 _).1 hq with hq | hq
    · simp only [Prod.mk.injEq] at hq
      exact ⟨n, by rw [hq.1, Nat.sub_add_cancel hp]; exact List.mem_cons_self _ _⟩
    · obtain ⟨n', hn'⟩ := h.onto q b hq
      exact ⟨n', List.mem_cons_of_mem _ hn'⟩

theorem Tracks.drops (h : Tracks off A L) (hA : Drops A A' (p - off)) (hp : off ≤ p) :
    Tracks off A' (release L p) := by
  refine ⟨h.nodup.sublist (List.Sublist.map _ (List.filter_sublist _)), fun x hx => ?_, fun q b hq => ?_⟩
  · obtain ⟨hx, hxp⟩ := List.mem_filter.1 hx
    obtain ⟨hoff, S', hS', hn'⟩ := h.live x hx
    simp only [decide_eq_true_eq] at hxp
    exact ⟨hoff, S', (hA _).2 ⟨hS', by dsimp only; omega⟩, hn'⟩
  · obtain ⟨hq, hqp⟩ := (hA _).1 hq
    obtain ⟨n', hn'⟩ := h.onto q b hq
    exact ⟨n', List.mem_filter.2 ⟨hn', by simp only [decide_eq_true_eq]; dsimp only at hqp; omega⟩⟩

/-- No live pointer is `NULL`, so releasing `NULL` changes nothing. -/
theorem Tracks.release_zero (h : Tracks off A L) (hoff : 0 < off) : release L 0 = L :=
  List.filter_eq_self.2 fun x hx => by
    have := (h.live x hx).1
    simp only [decide_eq_true_eq]
    omega

theorem Tracks.moves {A₁ : List (Nat × Blk)} (h : Tracks off A L) {r : Nat}
    (h₁ : Adds A A₁ (r - off, ⟨S, true⟩)) (h₂ : Drops A₁ A' (p - off)) (hp : off ≤ p) (hr : off ≤ r)
    (hrp : r ≠ p) (hn : r + n + wsize ≤ r - off + S) : Tracks off A' ((r, n) :: release L p) := by
  have hmid : Tracks off (A.filter fun y => y.1 ≠ p - off) (release L p) :=
    h.drops (fun y => by simp [List.mem_filter]) hp
  refine hmid.adds ⟨fun y => ?_, fun b hb => h₁.2 b (List.mem_filter.1 hb).1⟩ hr hn
  rw [h₂ y, h₁.1 y, List.mem_filter]
  constructor
  · rintro ⟨rfl | hy, hne⟩
    · exact .inl rfl
    · exact .inr ⟨hy, by simpa using hne⟩
  · rintro (rfl | ⟨hy, hne⟩)
    · exact ⟨.inl rfl, by dsimp only; omega⟩
    · exact ⟨.inr hy, by simpa using hne⟩

/-- The bytes of every live allocation whose block `m'` keeps are unchanged. -/
theorem Tracks.kept {m m' : Mem} (h : Tracks off A L) (hk : Keeps m m' A') {x : Nat × Nat} (hx : x ∈ L)
    (hA : ∀ S, (x.1 - off, ⟨S, true⟩) ∈ A → (x.1 - off, ⟨S, true⟩) ∈ A') :
    ∀ i < x.2, m' (x.1 + i) = m (x.1 + i) := by
  obtain ⟨hoff, S, hS, hn⟩ := h.live x hx
  intro i hi
  exact hk _ _ (hA S hS) _ (by omega) (by dsimp only; omega)

/-- The payloads of live allocations tracked by the allocated blocks of one layout lie inside
    the region and do not overlap. -/
theorem Tracks.apart {h : Heap} {a : Nat} {bs : List Blk} (ht : Tracks off (allocs a bs) L)
    (hlo : h.lo ≤ a) (hhi : a + total bs ≤ h.brk) : Apart h L := by
  refine ⟨fun x hx => ?_, fun x hx y hy hne => ?_⟩
  · obtain ⟨hoff, S, hS, hn⟩ := ht.live x hx
    have := mem_layout (mem_allocs.1 hS).1
    simp only [wsize] at hn this
    omega
  · obtain ⟨hx₀, S, hS, hn⟩ := ht.live x hx
    obtain ⟨hy₀, T, hT, hm⟩ := ht.live y hy
    have := layout_disjoint (mem_allocs.1 hS).1 (mem_allocs.1 hT).1 (by omega)
    simp only [wsize] at hn hm this
    omega

/-- Blocks whose sizes are multiples of 8 put every live pointer at one offset modulo 8. -/
theorem Tracks.mod {a k : Nat} {bs : List Blk} (ht : Tracks off (allocs a bs) L) (hs : Sized k bs) :
    ∀ x ∈ L, x.1 % 8 = (a + off) % 8 := fun x hx => by
  obtain ⟨hoff, S, hS, -⟩ := ht.live x hx
  have := layout_mod hs (mem_allocs.1 hS).1
  omega

end tracks

end malloc_lab
