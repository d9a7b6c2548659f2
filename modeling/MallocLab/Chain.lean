import MallocLab.Layout

namespace malloc_lab

/-- The header and the footer of the block at `p` both hold its packed size and bit. -/
def Tagged (m : Mem) (p : Nat) (b : Blk) : Prop :=
  m.load p 4 = pack b.size b.alloc ∧ m.load (p + b.size - 4) 4 = pack b.size b.alloc

/-- The blocks `bs` tile memory from `a`: each carries its header and its footer. -/
def Tiles (m : Mem) (a : Nat) (bs : List Blk) : Prop :=
  ∀ p b, (p, b) ∈ layout a bs → Tagged m p b

variable {m m' : Mem} {a p : Nat} {b : Blk} {bs l₁ l₂ : List Blk}

@[simp] theorem tiles_nil : Tiles m a [] := by simp [Tiles]

theorem tiles_cons : Tiles m a (b :: bs) ↔ Tagged m a b ∧ Tiles m (a + b.size) bs := by
  simp only [Tiles, layout_cons, List.mem_cons, Prod.mk.injEq]
  exact ⟨fun h => ⟨h a b (.inl ⟨rfl, rfl⟩), fun p c hp => h p c (.inr hp)⟩,
    fun h p c hp => hp.elim (fun ⟨hp, hc⟩ => hp ▸ hc ▸ h.1) (h.2 p c)⟩

theorem tiles_append : Tiles m a (l₁ ++ l₂) ↔ Tiles m a l₁ ∧ Tiles m (a + total l₁) l₂ := by
  simp only [Tiles, layout_append, List.mem_append]
  exact ⟨fun h => ⟨fun p b hp => h p b (.inl hp), fun p b hp => h p b (.inr hp)⟩,
    fun h p b hp => hp.elim (h.1 p b) (h.2 p b)⟩

/-- Memory that agrees on the header and footer bytes of a block keeps its tags. -/
theorem Tagged.congr (ht : Tagged m p b)
    (hh : ∀ i < 4, m' (p + i) = m (p + i))
    (hf : ∀ i < 4, m' (p + b.size - 4 + i) = m (p + b.size - 4 + i)) : Tagged m' p b := by
  unfold Tagged at *
  rw [Mem.load_congr hh, Mem.load_congr hf]
  exact ht

/-- Memory that agrees on the bytes a run of blocks covers keeps its tiles. -/
theorem Tiles.congr (ht : Tiles m a bs) (hsz : ∀ c ∈ bs, 4 ≤ c.size)
    (hm : ∀ x, a ≤ x → x < a + total bs → m' x = m x) : Tiles m' a bs := by
  intro p c hp
  obtain ⟨hc, hle, hend⟩ := mem_layout hp
  have h4 := hsz c hc
  exact (ht p c hp).congr (fun i hi => hm _ (by omega) (by omega)) (fun i hi => hm _ (by omega) (by omega))

theorem Tiles.store_outside (ht : Tiles m a bs) (hsz : ∀ c ∈ bs, 4 ≤ c.size) {c k v : Nat}
    (hout : c + k ≤ a ∨ a + total bs ≤ c) : Tiles (m.store c k v) a bs :=
  ht.congr hsz fun _ _ _ => Mem.store_apply_of_not_mem (by omega)

/-- Writing the header and then the footer of a block of size `s` tags it. -/
theorem tagged_store_store {s : Nat} {al : Bool} (hs : 8 ≤ s) :
    Tagged ((m.store p 4 (pack s al)).store (p + s - 4) 4 (pack s al)) p ⟨s, al⟩ := by
  have hlt : pack s al < 256 ^ 4 := pack_lt s al
  refine ⟨?_, ?_⟩
  · rw [Mem.load_store_of_disjoint (by omega), Mem.load_store_self, Nat.mod_eq_of_lt hlt]
  · rw [Mem.load_store_self, Nat.mod_eq_of_lt hlt]

/-- Replacing a run of blocks by one block over the same bytes keeps the rest of the tiling,
    when memory changed only inside that run and the new block carries its tags. -/
theorem Tiles.replace {mid : List Blk} {new : Blk} (ht : Tiles m a (l₁ ++ mid ++ l₂))
    (hsz : ∀ c ∈ l₁ ++ l₂, 4 ≤ c.size) (hnew : new.size = total mid)
    (hm : ∀ x, x < a + total l₁ ∨ a + total l₁ + total mid ≤ x → m' x = m x)
    (htag : Tagged m' (a + total l₁) new) : Tiles m' a (l₁ ++ new :: l₂) := by
  rw [tiles_append, tiles_append, total_append, ← Nat.add_assoc] at ht
  rw [tiles_append, tiles_cons, hnew]
  exact ⟨ht.1.1.congr (fun c hc => hsz c (by simp [hc])) fun x _ hx => hm x (.inl hx), htag,
    ht.2.congr (fun c hc => hsz c (by simp [hc])) fun x hx _ => hm x (.inr hx)⟩

section reads

variable {h : Heap} {s : Nat} {al : Bool}

theorem get_size_eq (hlo : h.lo ≤ p) (hhi : p + 4 ≤ h.brk) :
    get_size h p = .ok (extract_size (h.mem.load p 4)) := by
  simp [get_size, wsize, Heap.read_of_mem hlo hhi]

theorem get_alloc_eq (hlo : h.lo ≤ p) (hhi : p + 4 ≤ h.brk) :
    get_alloc h p = .ok (extract_alloc (h.mem.load p 4)) := by
  simp [get_alloc, wsize, Heap.read_of_mem hlo hhi]

/-- A header that `get_size` reads lies in the region and holds the size it gives. -/
theorem get_size_ok {sz : Nat} (hs : get_size h p = .ok sz) :
    h.lo ≤ p ∧ p + 4 ≤ h.brk ∧ sz % 8 = 0 ∧ sz < 2 ^ 32 := by
  by_cases hr : h.lo ≤ p ∧ p + 4 ≤ h.brk
  · rw [get_size_eq hr.1 hr.2, Except.ok.injEq] at hs
    subst hs
    have := Mem.load_lt h.mem p 4
    rw [extract_size_eq (by omega)]
    exact ⟨hr.1, hr.2, by omega, by omega⟩
  · simp [get_size, wsize, Heap.read_eq_error hr] at hs

theorem write_header_eq (hlo : h.lo ≤ p) (hhi : p + 4 ≤ h.brk) :
    write_header h p s al = .ok { h with mem := h.mem.store p 4 (pack s al) } :=
  Heap.write_of_mem hlo hhi

/-- The header of a tagged block gives back its size. -/
theorem Tagged.get_size (ht : Tagged h.mem p b) (hb : b.size % 8 = 0) (hlt : b.size < 2 ^ 32)
    (hlo : h.lo ≤ p) (hhi : p + 4 ≤ h.brk) : get_size h p = .ok b.size := by
  rw [get_size_eq hlo hhi, ht.1, extract_size_pack hb hlt]

theorem Tagged.get_alloc (ht : Tagged h.mem p b) (hb : b.size % 8 = 0) (hlt : b.size < 2 ^ 32)
    (hlo : h.lo ≤ p) (hhi : p + 4 ≤ h.brk) : get_alloc h p = .ok b.alloc := by
  rw [get_alloc_eq hlo hhi, ht.1, extract_alloc_pack hb hlt]

theorem Tagged.find_next (ht : Tagged h.mem p b) (hb : b.size % 8 = 0) (hlt : b.size < 2 ^ 32)
    (hlo : h.lo ≤ p) (hhi : p + 4 ≤ h.brk) : find_next h p = .ok (p + b.size) := by
  simp [malloc_lab.find_next, ht.get_size hb hlt hlo hhi]

/-- The footer of a tagged block leads `find_prev` of the block after it back to it. -/
theorem Tagged.find_prev (ht : Tagged h.mem p b) (hb : b.size % 8 = 0) (hlt : b.size < 2 ^ 32)
    (h4 : 4 ≤ b.size) (hlo : h.lo ≤ p + b.size - 4) (hhi : p + b.size ≤ h.brk) :
    find_prev h (p + b.size) = .ok p := by
  have hf : find_prev_footer (p + b.size) = p + b.size - 4 := rfl
  simp only [malloc_lab.find_prev, hf, wsize, Heap.read_of_mem hlo (by omega : p + b.size - 4 + 4 ≤ h.brk),
    ok_bind, ht.2, extract_size_pack hb hlt]
  congr 1
  omega

end reads

/-- Memory `m'` keeps every byte of the blocks `l`, given with their addresses. -/
def Keeps (m m' : Mem) (l : List (Nat × Blk)) : Prop :=
  ∀ p b, (p, b) ∈ l → ∀ x, p ≤ x → x < p + b.size → m' x = m x

theorem Keeps.trans {m₁ m₂ m₃ : Mem} {l : List (Nat × Blk)} (h₁ : Keeps m₁ m₂ l)
    (h₂ : Keeps m₂ m₃ l) : Keeps m₁ m₃ l :=
  fun p b hp x h1 h2 => (h₂ p b hp x h1 h2).trans (h₁ p b hp x h1 h2)

theorem Keeps.mono {m m' : Mem} {l l' : List (Nat × Blk)} (h : Keeps m m' l) (hl : ∀ x ∈ l', x ∈ l) :
    Keeps m m' l' :=
  fun p b hp => h p b (hl _ hp)

/-- Changing memory only inside one free block of a layout keeps all its allocated blocks. -/
theorem keeps_allocs_of_frame {a r S : Nat} {L : List Blk} (hmem : (r, ⟨S, false⟩) ∈ layout a L)
    (hpos : ∀ b ∈ L, 0 < b.size) (hframe : ∀ x, x < r ∨ r + S ≤ x → m' x = m x) :
    Keeps m m' (allocs a L) := by
  intro p b hp x h1 h2
  simp only [allocs, List.mem_filter] at hp
  have hne : p ≠ r := by
    rintro rfl
    have := layout_unique hpos hp.1 hmem
    subst this
    simp at hp
  have hd := layout_disjoint hp.1 hmem hne
  dsimp only at hd
  exact hframe x (by omega)

/-- Memory that changes only from the end of the blocks `bs` on keeps every one of them. -/
theorem keeps_allocs_of_above {a : Nat} {bs : List Blk} (hframe : ∀ x, x < a + total bs → m' x = m x) :
    Keeps m m' (allocs a bs) := by
  intro p b hp x _ h2
  have := (mem_layout (List.mem_filter.1 hp).1).2.2
  exact hframe x (by omega)

/-- The heap holds the blocks `full` back to back from `a`, then an epilogue header of size 0
    and bit 1, all inside the region; every block is a multiple of 8 and at least 8 bytes. -/
structure Chain (h : Heap) (a : Nat) (full : List Blk) : Prop where
  tiles : Tiles h.mem a full
  epilogue : h.mem.load (a + total full) 4 = pack 0 true
  lo_le : h.lo ≤ a
  end_le : a + total full + 4 ≤ h.brk
  sized : Sized 8 full
  small : total full < 2 ^ 32

section chain

variable {h : Heap} {a p : Nat} {b c : Blk} {full l₁ l₂ mid : List Blk}

theorem mem_layout_mid : (a + total l₁, b) ∈ layout a (l₁ ++ b :: l₂) := by
  simp [layout_append]

theorem mem_layout_of_eq (l₁ l₂ : List Blk) (hp : p = a + total l₁) : (p, b) ∈ layout a (l₁ ++ b :: l₂) :=
  hp ▸ mem_layout_mid

theorem Chain.size_facts (hc : Chain h a full) (hp : (p, b) ∈ layout a full) :
    h.lo ≤ p ∧ p + b.size + 4 ≤ h.brk ∧ 8 ≤ b.size ∧ b.size % 8 = 0 ∧ b.size < 2 ^ 32 := by
  obtain ⟨hb, hle, hend⟩ := mem_layout hp
  have := hc.lo_le; have := hc.end_le; have := hc.small; have := size_le_total hb
  exact ⟨by omega, by omega, (hc.sized b hb).1, (hc.sized b hb).2, by omega⟩

theorem Chain.get_size (hc : Chain h a full) (hp : (p, b) ∈ layout a full) :
    get_size h p = .ok b.size := by
  obtain ⟨hlo, hhi, -, h8, hlt⟩ := hc.size_facts hp
  exact (hc.tiles p b hp).get_size h8 hlt hlo (by omega)

theorem Chain.get_alloc (hc : Chain h a full) (hp : (p, b) ∈ layout a full) :
    get_alloc h p = .ok b.alloc := by
  obtain ⟨hlo, hhi, -, h8, hlt⟩ := hc.size_facts hp
  exact (hc.tiles p b hp).get_alloc h8 hlt hlo (by omega)

theorem Chain.find_next (hc : Chain h a full) (hp : (p, b) ∈ layout a full) :
    find_next h p = .ok (p + b.size) := by
  obtain ⟨hlo, hhi, -, h8, hlt⟩ := hc.size_facts hp
  exact (hc.tiles p b hp).find_next h8 hlt hlo (by omega)

theorem Chain.find_prev (hc : Chain h a full) (hp : (p, b) ∈ layout a full) :
    find_prev h (p + b.size) = .ok p := by
  obtain ⟨hlo, hhi, h8, h88, hlt⟩ := hc.size_facts hp
  exact (hc.tiles p b hp).find_prev h88 hlt (by omega) (by omega) (by omega)

theorem Chain.get_size_end (hc : Chain h a full) :
    malloc_lab.get_size h (a + total full) = .ok 0 := by
  rw [get_size_eq (by have := hc.lo_le; omega) hc.end_le, hc.epilogue,
    extract_size_pack (by norm_num) (by norm_num)]

theorem Chain.get_alloc_end (hc : Chain h a full) :
    malloc_lab.get_alloc h (a + total full) = .ok true := by
  rw [get_alloc_eq (by have := hc.lo_le; omega) hc.end_le, hc.epilogue,
    extract_alloc_pack (by norm_num) (by norm_num)]

theorem Chain.tail (hc : Chain h a (b :: full)) : Chain h (a + b.size) full := by
  obtain ⟨ht, he, hlo, hend, hs, hsm⟩ := hc
  rw [tiles_cons] at ht
  rw [Sized.cons] at hs
  simp only [total_cons] at he hend hsm
  exact ⟨ht.2, by rwa [Nat.add_assoc], by omega, by omega, hs.2, by omega⟩

/-- Retiling: when memory changes only inside the bytes of `mid`, and those bytes now hold the
    blocks `mid'` of the same total, the chain holds `l₁ ++ mid' ++ l₂`. -/
theorem Chain.replace {m : Mem} (hc : Chain h a (l₁ ++ mid ++ l₂)) (mid' : List Blk)
    (htot : total mid' = total mid) (hsz : Sized 8 mid')
    (hm : ∀ x, x < a + total l₁ ∨ a + total l₁ + total mid ≤ x → m x = h.mem x)
    (ht : Tiles m (a + total l₁) mid') : Chain { h with mem := m } a (l₁ ++ mid' ++ l₂) := by
  have hsized := hc.sized
  rw [Sized.append, Sized.append] at hsized
  have htiles := hc.tiles
  rw [tiles_append, tiles_append] at htiles
  have hsz4 : ∀ c ∈ l₁ ++ l₂, 4 ≤ c.size := fun c hc' => by
    rcases List.mem_append.1 hc' with hc' | hc'
    · have := (hsized.1.1 c hc').1; omega
    · have := (hsized.2 c hc').1; omega
  have he := hc.end_le
  refine ⟨?_, ?_, hc.lo_le, ?_, ?_, ?_⟩
  · rw [tiles_append, tiles_append]
    refine ⟨⟨htiles.1.1.congr (fun c hc' => hsz4 c (by simp [hc'])) fun x _ hx => hm x (.inl hx),
      ht⟩, ?_⟩
    simp only [total_append] at htiles ⊢
    rw [htot]
    exact htiles.2.congr (fun c hc' => hsz4 c (by simp [hc'])) fun x hx _ => hm x (.inr (by omega))
  · have hepi := hc.epilogue
    simp only [total_append] at hepi he ⊢
    rw [htot, Mem.load_congr fun i _ => hm _ (.inr (by omega))]
    exact hepi
  · simpa [htot] using he
  · rw [Sized.append, Sized.append]
    exact ⟨⟨hsized.1.1, hsz⟩, hsized.2⟩
  · simpa [htot] using hc.small

/-- Writing the header and then the footer over the bytes of `mid` makes them one block of
    `S = total mid` bytes; memory outside it is untouched. -/
theorem Chain.retag (hc : Chain h a (l₁ ++ mid ++ l₂)) (al : Bool) {S : Nat} (hS : total mid = S)
    (h8 : 8 ≤ S) (h88 : S % 8 = 0) :
    Chain { h with mem := ((h.mem.store (a + total l₁) 4 (pack S al)).store
      (a + total l₁ + S - 4) 4 (pack S al)) } a (l₁ ++ ⟨S, al⟩ :: l₂) := by
  subst hS
  have := hc.replace [⟨total mid, al⟩] (by simp) (by simp [Sized, h8, h88])
    (m := (h.mem.store (a + total l₁) 4 (pack (total mid) al)).store
      (a + total l₁ + total mid - 4) 4 (pack (total mid) al))
    (fun x hx => by rw [Mem.store_apply_of_not_mem (by omega), Mem.store_apply_of_not_mem (by omega)])
    (tiles_cons.2 ⟨tagged_store_store h8, by simp⟩)
  simpa using this

theorem store_store_outside {m : Mem} {p S x w w' : Nat} (hx : x < p ∨ p + S ≤ x) (h4 : 4 ≤ S) :
    ((m.store p 4 w).store (p + S - 4) 4 w') x = m x := by
  rw [Mem.store_apply_of_not_mem (by omega), Mem.store_apply_of_not_mem (by omega)]

/-- Four writes carving the block `b` into blocks of `s` and `b.size - s` bytes. -/
theorem Chain.split (hc : Chain h a (l₁ ++ b :: l₂)) (al₁ al₂ : Bool) {s : Nat} (h8 : 8 ≤ s)
    (h88 : s % 8 = 0) (hrest : s + 8 ≤ b.size) :
    Chain { h with mem := ((((h.mem.store (a + total l₁) 4 (pack s al₁)).store
        (a + total l₁ + s - 4) 4 (pack s al₁)).store (a + total l₁ + s) 4 (pack (b.size - s) al₂)).store
        (a + total l₁ + s + (b.size - s) - 4) 4 (pack (b.size - s) al₂)) } a
      (l₁ ++ ⟨s, al₁⟩ :: ⟨b.size - s, al₂⟩ :: l₂) := by
  obtain ⟨-, -, -, hb8, -⟩ := hc.size_facts mem_layout_mid
  have hc' : Chain h a (l₁ ++ [b] ++ l₂) := by simpa using hc
  have hlt₁ : pack s al₁ < 256 ^ 4 := pack_lt _ _
  have hlt₂ : pack (b.size - s) al₂ < 256 ^ 4 := pack_lt _ _
  have hsplit := hc'.replace [⟨s, al₁⟩, ⟨b.size - s, al₂⟩] (by simp; omega)
    (by simp [Sized]; omega)
    (m := (((h.mem.store (a + total l₁) 4 (pack s al₁)).store
        (a + total l₁ + s - 4) 4 (pack s al₁)).store (a + total l₁ + s) 4 (pack (b.size - s) al₂)).store
        (a + total l₁ + s + (b.size - s) - 4) 4 (pack (b.size - s) al₂))
    (fun x hx => by
      simp only [total_cons, total_nil, Nat.add_zero] at hx
      rw [Mem.store_apply_of_not_mem (by omega), Mem.store_apply_of_not_mem (by omega),
        Mem.store_apply_of_not_mem (by omega), Mem.store_apply_of_not_mem (by omega)])
    (by
      rw [tiles_cons, tiles_cons]
      refine ⟨⟨?_, ?_⟩, ⟨?_, ?_⟩, tiles_nil⟩ <;> dsimp only
      · rw [Mem.load_store_of_disjoint (by omega), Mem.load_store_of_disjoint (by omega),
          Mem.load_store_of_disjoint (by omega), Mem.load_store_self, Nat.mod_eq_of_lt hlt₁]
      · rw [Mem.load_store_of_disjoint (by omega), Mem.load_store_of_disjoint (by omega),
          Mem.load_store_self, Nat.mod_eq_of_lt hlt₁]
      · rw [Mem.load_store_of_disjoint (by omega), Mem.load_store_self, Nat.mod_eq_of_lt hlt₂]
      · rw [Mem.load_store_self, Nat.mod_eq_of_lt hlt₂])
  simpa using hsplit

/-- Writes inside one block, clear of its header and its footer, keep the chain. -/
theorem Chain.payload_write {m : Mem} (hc : Chain h a full) (hp : (p, b) ∈ layout a full)
    (hm : ∀ x, x < p + 4 ∨ p + b.size - 4 ≤ x → m x = h.mem x) : Chain { h with mem := m } a full := by
  have hsz := hc.size_facts hp
  have htag := hc.tiles p b hp
  obtain ⟨l₁, l₂, rfl, rfl⟩ := mem_layout_iff.1 hp
  have hc' : Chain h a (l₁ ++ [b] ++ l₂) := by simpa using hc
  have := hc'.replace [b] rfl (fun c hc => by
      simp only [List.mem_singleton] at hc
      exact hc ▸ ⟨hsz.2.2.1, hsz.2.2.2.1⟩)
    (fun x hx => hm x (by simp only [total_cons, total_nil] at hx; omega))
    (tiles_cons.2 ⟨htag.congr (fun i hi => hm _ (by omega)) (fun i hi => hm _ (by omega)), by simp⟩)
  simpa using this

/-- Writes that stay inside blocks, clear of their headers and footers, keep the chain. -/
theorem Chain.interior {m : Mem} (hc : Chain h a full)
    (hm : ∀ x, m x ≠ h.mem x → ∃ q c, (q, c) ∈ layout a full ∧ q + 4 ≤ x ∧ x + 4 < q + c.size) :
    Chain { h with mem := m } a full := by
  have hkeep : ∀ x, (∀ q c, (q, c) ∈ layout a full → x < q + 4 ∨ q + c.size ≤ x + 4) → m x = h.mem x :=
    fun x hx => by
      by_contra hne
      obtain ⟨q, c, hq, h1, h2⟩ := hm x hne
      have := hx q c hq
      omega
  have hpos : ∀ d ∈ full, 0 < d.size := fun d hd => by have := (hc.sized d hd).1; omega
  refine ⟨fun p b hp => (hc.tiles p b hp).congr (fun i hi => hkeep _ fun q c hq => ?_)
    (fun i hi => hkeep _ fun q c hq => ?_), ?_, hc.lo_le, hc.end_le, hc.sized, hc.small⟩
  · have h8 := (hc.sized b (mem_layout hp).1).1
    by_cases hpq : p = q
    · omega
    · have := layout_disjoint hp hq hpq
      omega
  · have h8 := (hc.sized b (mem_layout hp).1).1
    by_cases hpq : p = q
    · subst hpq
      rw [layout_unique hpos hq hp]
      omega
    · have := layout_disjoint hp hq hpq
      omega
  · rw [Mem.load_congr fun i _ => hkeep _ fun q c hq => .inr (by have := (mem_layout hq).2.2; omega)]
    exact hc.epilogue

/-- A heap whose top moved up keeps its chain. -/
theorem Chain.grow (hc : Chain h a full) {brk : Nat} (hbrk : h.brk ≤ brk) (g : Nat → Bool) :
    Chain { h with brk := brk, grants := g } a full :=
  ⟨hc.tiles, hc.epilogue, hc.lo_le, le_trans hc.end_le hbrk, hc.sized, hc.small⟩

/-- Three writes turning the epilogue into a free block of `size` bytes and writing a new
    epilogue after it. -/
theorem Chain.extend (hc : Chain h a full) {size : Nat} (h8 : 8 ≤ size) (h88 : size % 8 = 0)
    (hsmall : total full + size < 2 ^ 32) (hroom : a + total full + size + 4 ≤ h.brk) :
    Chain { h with mem := (((h.mem.store (a + total full) 4 (pack size false)).store
        (a + total full + size - 4) 4 (pack size false)).store (a + total full + size) 4 (pack 0 true)) }
      a (full ++ [⟨size, false⟩]) := by
  have hlt₁ : pack size false < 256 ^ 4 := pack_lt _ _
  have hlt₀ : pack 0 true < 256 ^ 4 := pack_lt _ _
  have hsz4 : ∀ c ∈ full, 4 ≤ c.size := fun c hc' => by have := (hc.sized c hc').1; omega
  refine ⟨?_, ?_, hc.lo_le, by simp; omega, ?_, by simpa using hsmall⟩
  · rw [tiles_append, tiles_cons]
    refine ⟨?_, ⟨?_, ?_⟩, by simp⟩ <;> dsimp only
    · exact ((hc.tiles.store_outside hsz4 (.inr le_rfl)).store_outside hsz4 (.inr (by omega))).store_outside
        hsz4 (.inr (by omega))
    · rw [Mem.load_store_of_disjoint (by omega), Mem.load_store_of_disjoint (by omega),
        Mem.load_store_self, Nat.mod_eq_of_lt hlt₁]
    · rw [Mem.load_store_of_disjoint (by omega), Mem.load_store_self, Nat.mod_eq_of_lt hlt₁]
  · simp only [total_append, total_cons, total_nil, Nat.add_zero, ← Nat.add_assoc]
    rw [Mem.load_store_self, Nat.mod_eq_of_lt hlt₀]
  · rw [Sized.append]
    exact ⟨hc.sized, by simp [Sized, h8, h88]⟩

theorem Chain.drop : ∀ {a : Nat} (l₁ : List Blk), Chain h a (l₁ ++ l₂) → Chain h (a + total l₁) l₂
  | _, [], hc => by simpa using hc
  | a, b :: l₁, hc => by
    rw [total_cons, ← Nat.add_assoc]
    exact Chain.drop l₁ hc.tail

/-- What the heap's own walkers read from `a`: for each block of `full` in turn, `get_size`,
    `get_alloc` and `find_next` read its header, its footer repeats the header word bit for bit
    and `find_prev` of the block after it comes back to it; after the last block comes the
    epilogue, of size 0 and allocated. -/
structure Walks (h : Heap) (a : Nat) (full : List Blk) : Prop where
  block : ∀ p b, (p, b) ∈ layout a full → get_size h p = .ok b.size ∧ get_alloc h p = .ok b.alloc ∧
    find_next h p = .ok (p + b.size) ∧ find_prev h (p + b.size) = .ok p ∧
    h.read (p + b.size - wsize) wsize = h.read p wsize
  epilogue : get_size h (a + total full) = .ok 0 ∧ get_alloc h (a + total full) = .ok true

theorem Chain.walks (hc : Chain h a full) : Walks h a full := by
  refine ⟨fun p b hp => ⟨hc.get_size hp, hc.get_alloc hp, hc.find_next hp, hc.find_prev hp, ?_⟩,
    hc.get_size_end, hc.get_alloc_end⟩
  obtain ⟨hlo, hhi, h8, -⟩ := hc.size_facts hp
  rw [Heap.read_of_mem (a := p + b.size - wsize) (by simp only [wsize]; omega) (by simp only [wsize]; omega),
    Heap.read_of_mem hlo (by simp only [wsize]; omega)]
  simp only [wsize, (hc.tiles p b hp).1, (hc.tiles p b hp).2]

end chain

/-- The headers alone chain the blocks `full` from `a` to an epilogue of size 0: `get_size` and
    `get_alloc` of each block's header give its size, which is positive, and its bit. The footers
    may hold anything. -/
structure Headers (h : Heap) (a : Nat) (full : List Blk) : Prop where
  block : ∀ p b, (p, b) ∈ layout a full → 0 < b.size ∧ get_size h p = .ok b.size ∧ get_alloc h p = .ok b.alloc
  epilogue : get_size h (a + total full) = .ok 0

section headers

variable {h : Heap} {a p : Nat} {b : Blk} {full : List Blk}

theorem Chain.headers (hc : Chain h a full) : Headers h a full :=
  ⟨fun _ _ hp => ⟨by have := (hc.size_facts hp).2.2.1; omega, hc.get_size hp, hc.get_alloc hp⟩,
    hc.get_size_end⟩

theorem Headers.tail (hh : Headers h a (b :: full)) : Headers h (a + b.size) full :=
  ⟨fun p c hp => hh.block p c (List.mem_cons_of_mem _ hp), by simpa [Nat.add_assoc] using hh.epilogue⟩

/-- A block of a header chain is at least 8 bytes, a multiple of 8, and it and the epilogue
    header after the chain lie in the region. -/
theorem Headers.size_facts (hh : Headers h a full) (hp : (p, b) ∈ layout a full) :
    h.lo ≤ p ∧ p + b.size ≤ a + total full ∧ a + total full + 4 ≤ h.brk ∧ 8 ≤ b.size ∧ b.size % 8 = 0 := by
  obtain ⟨hpos, hs, -⟩ := hh.block p b hp
  obtain ⟨hlo, -, h8, -⟩ := get_size_ok hs
  obtain ⟨-, hhi, -⟩ := get_size_ok hh.epilogue
  exact ⟨hlo, (mem_layout hp).2.2, hhi, by omega, h8⟩

theorem Headers.length_lt (hh : Headers h a full) : full.length < h.brk := by
  have hsized : Sized 8 full := fun c hc => by
    obtain ⟨p, hp⟩ : ∃ p, (p, c) ∈ layout a full := by
      obtain ⟨l₁, l₂, rfl⟩ := List.append_of_mem hc
      exact ⟨_, mem_layout_mid⟩
    exact ⟨(hh.size_facts hp).2.2.2.1, (hh.size_facts hp).2.2.2.2⟩
  have := length_le_total hsized (by decide)
  have := (get_size_ok hh.epilogue).2.1
  omega

/-- Memory fixes the chain: two header chains from one address are the same list of blocks. -/
theorem Headers.unique : ∀ {a : Nat} {l₁ l₂ : List Blk}, Headers h a l₁ → Headers h a l₂ → l₁ = l₂
  | _, [], [], _, _ => rfl
  | a, [], c :: _, h₁, h₂ => by
    obtain ⟨hpos, hs, -⟩ := h₂.block a c (List.mem_cons_self _ _)
    have := h₁.epilogue
    rw [total_nil, Nat.add_zero, hs, Except.ok.injEq] at this
    omega
  | a, b :: _, [], h₁, h₂ => by
    obtain ⟨hpos, hs, -⟩ := h₁.block a b (List.mem_cons_self _ _)
    have := h₂.epilogue
    rw [total_nil, Nat.add_zero, hs, Except.ok.injEq] at this
    omega
  | a, b :: l₁, c :: l₂, h₁, h₂ => by
    obtain ⟨-, hs₁, ha₁⟩ := h₁.block a b (List.mem_cons_self _ _)
    obtain ⟨-, hs₂, ha₂⟩ := h₂.block a c (List.mem_cons_self _ _)
    have hbc : b = c := by
      rcases b with ⟨bs, ba⟩
      rcases c with ⟨cs, ca⟩
      rw [hs₁, Except.ok.injEq] at hs₂
      rw [ha₁, Except.ok.injEq] at ha₂
      simp only at hs₂ ha₂
      rw [hs₂, ha₂]
    subst hbc
    rw [Headers.unique h₁.tail h₂.tail]

/-- `mm_checkheap`'s loop over a header chain that the epilogue stops: it compares the header of
    every block whose successor lies one `block_t` below `hi` with the footer word before that
    successor, and answers whether all of them agree. -/
theorem Headers.checkheap_loop {blk hi : Nat} : ∀ {a fuel : Nat} {full : List Blk}, Headers h a full →
    hi ≤ a + total full + blk → full.length < fuel →
    malloc_lab.checkheap_loop h blk hi fuel a = .ok ((layout a full).all fun x =>
      decide (x.1 + x.2.size + blk < hi → h.mem.load x.1 4 = h.mem.load (x.1 + x.2.size - 4) 4))
  | _, 0, _, _, _, hf => absurd hf (Nat.not_lt_zero _)
  | a, fuel + 1, [], hh, hstop, _ => by
    have hn : malloc_lab.find_next h a = .ok a := by
      have := hh.epilogue
      simp only [total_nil, Nat.add_zero] at this
      simp [malloc_lab.find_next, this]
    simp only [total_nil, Nat.add_zero] at hstop
    simp only [malloc_lab.checkheap_loop, hn, ok_bind, if_neg (Nat.not_lt.2 hstop)]
    rfl
  | a, fuel + 1, b :: full, hh, hstop, hf => by
    have hp : (a, b) ∈ layout a (b :: full) := List.mem_cons_self _ _
    obtain ⟨hlo, hend, hhi, h8, -⟩ := hh.size_facts hp
    have hnext : malloc_lab.find_next h a = .ok (a + b.size) := by
      simp [malloc_lab.find_next, (hh.block a b hp).2.1]
    simp only [total_cons] at hend hhi hstop
    simp only [malloc_lab.checkheap_loop, hnext, ok_bind, layout_cons, List.all_cons]
    split
    · rename_i hlt
      rw [Heap.read_of_mem hlo (by simp only [wsize]; omega), ok_bind, find_prev_footer,
        Heap.read_of_mem (a := a + b.size - wsize) (by simp only [wsize]; omega)
          (by simp only [wsize]; omega), ok_bind]
      simp only [wsize, hlt, true_implies, decide_not, ne_eq]
      by_cases heq : h.mem.load a 4 = h.mem.load (a + b.size - 4) 4
      · simp only [heq, not_true_eq_false, if_false, decide_True, Bool.true_and]
        exact Headers.checkheap_loop hh.tail (by omega) (by simp only [List.length_cons] at hf; omega)
      · simp [heq]
    · rename_i hge
      simp only [pure_eq_ok, Except.ok.injEq, hge, false_implies, decide_True, Bool.true_and,
        @eq_comm Bool true, List.all_eq_true, decide_eq_true_eq]
      intro x hx hlt
      have := (mem_layout hx).2.1
      omega

/-- `mm_checkheap` on a header chain from `heap_listp` that the epilogue stops, less than one
    `block_t` below the last byte of the region. -/
theorem Headers.checkheap {blk : Nat} (hh : Headers h a full) (ha : a ≠ 0)
    (hstop : h.brk ≤ a + total full + blk + 1) :
    checkheap h a blk = .ok ((layout a full).all fun x =>
      decide (x.1 + x.2.size + blk < h.brk - 1 → h.mem.load x.1 4 = h.mem.load (x.1 + x.2.size - 4) 4)) := by
  rw [malloc_lab.checkheap, if_neg ha]
  exact hh.checkheap_loop (by omega) hh.length_lt

/-- `mm_checkheap` accepts a chain that starts at `heap_listp`, when the epilogue header lies
    less than one `block_t` below the last byte of the region: every footer repeats its header. -/
theorem Chain.checkheap {blk : Nat} (hc : Chain h a full) (ha : a ≠ 0)
    (hstop : h.brk ≤ a + total full + blk + 1) : checkheap h a blk = .ok true := by
  rw [hc.headers.checkheap ha hstop, List.all_eq_true.2 fun x hx => decide_eq_true fun _ =>
    (hc.tiles x.1 x.2 hx).1.trans (hc.tiles x.1 x.2 hx).2.symm]

end headers

end malloc_lab
