/-
LiloBoot.Lib.MallocTheorems — when the heap is safe.

Two things break it. The checks against `malloc_top` add the size to a
pointer in 32 bits, so a huge size passes them; and `NULL` counts as the last
block until the first block exists, so a `realloc` or `free` of `NULL` moves
the pointer out of the area. Every run without such a call (`Fits`) keeps
`Inv`: the live blocks lie below the pointer, apart from each other, and no
live block is above the last one.
-/
import LiloBoot.Lib.Malloc

namespace LiloBoot.Malloc

/-! ## §1 What a safe heap is -/

/-- Two blocks with their headers do not touch. -/
def Apart (b c : Block) : Prop :=
  b.addr + b.size + sizeofInt ≤ c.addr ∨ c.addr + c.size + sizeofInt ≤ b.addr

/-- A block with its header lies in the area. -/
def Inside (bottom size : Nat) (b : Block) : Prop :=
  bottom + sizeofInt ≤ b.addr ∧ b.addr + b.size ≤ bottom + size

/-- The live blocks are inside the area and apart. -/
structure Safe (bottom size : Nat) (live : List Block) : Prop where
  inside : ∀ b ∈ live, Inside bottom size b
  apart : live.Pairwise Apart

/-- What a call owes to the blocks: the others keep their contents, a `realloc` carries the
common part over, and when it fails the block is as it was. -/
structure Keeps (s : State) (op : Op) (r : Nat) (t : State) : Prop where
  others : ∀ b ∈ s.live, b.addr ≠ op.target →
    b ∈ t.live ∧ ∀ i < b.size, t.heap.mem (b.addr + i) = s.heap.mem (b.addr + i)
  carried : ∀ ptr size, op = .realloc ptr size → r ≠ 0 → ∀ b ∈ s.live, b.addr = ptr →
    ∀ i < min b.size size, t.heap.mem (r + i) = s.heap.mem (b.addr + i)
  failed : ∀ ptr size, op = .realloc ptr size → r = 0 → ∀ b ∈ s.live, b.addr = ptr →
    b ∈ t.live ∧ ∀ i < b.size, t.heap.mem (b.addr + i) = s.heap.mem (b.addr + i)
  returned : ∀ size, op = .malloc size ∨ (∃ ptr, op = .realloc ptr size) → r ≠ 0 →
    ∃ b ∈ t.live, b.addr = r ∧ size ≤ b.size

/-- The condition on a call: the check of its size sees the true end of the block, and `NULL`
is not the last block. -/
def Fits (s : State) : Op → Prop
  | .malloc size =>
    s.heap.mallocPtr + size + sizeofInt < 2 ^ 32
      ∨ s.heap.mallocTop < u32 (s.heap.mallocPtr + size + sizeofInt)
  | .realloc ptr size =>
    if ptr = s.heap.lastAlloc then
      ptr ≠ 0 ∧ ptr + size < 2 ^ 32 ∨ s.heap.mallocTop < u32 (ptr + size)
    else
      s.heap.mallocPtr + size + sizeofInt < 2 ^ 32
        ∨ s.heap.mallocTop < u32 (s.heap.mallocPtr + size + sizeofInt)
  | .free ptr => ptr ≠ 0 ∨ s.heap.lastAlloc ≠ 0

/-! ## §2 Memory -/

theorem setBytes_outside {mem : Bytes} {addr n a : Nat} {f : Nat → UInt8}
    (h : a < addr ∨ addr + n ≤ a) : setBytes mem addr n f a = mem a := by
  rw [setBytes, if_neg (by omega)]

theorem setBytes_inside {mem : Bytes} {addr n i : Nat} {f : Nat → UInt8} (h : i < n) :
    setBytes mem addr n f (addr + i) = f i := by
  rw [setBytes, if_pos (by omega), Nat.add_sub_cancel_left]

/-- What is stored is what is loaded. -/
theorem loadInt_storeInt (mem : Bytes) (addr : Nat) {v : Nat} (h : v < 2 ^ 32) :
    loadInt (storeInt mem addr v) addr = v := by
  have hbyte : ∀ i < 4, storeInt mem addr v (addr + i) = UInt8.ofNat (v / 256 ^ (3 - i)) :=
    fun i hi => setBytes_inside hi
  have h0 := hbyte 0 (by decide)
  rw [Nat.add_zero] at h0
  rw [loadInt, h0, hbyte 1 (by decide), hbyte 2 (by decide), hbyte 3 (by decide)]
  simp only [UInt8.toNat_ofNat']
  omega

/-- A number is loaded from its four bytes only. -/
theorem loadInt_congr {mem mem' : Bytes} {addr : Nat}
    (h : ∀ i < 4, mem' (addr + i) = mem (addr + i)) : loadInt mem' addr = loadInt mem addr := by
  have h0 := h 0 (by decide)
  rw [Nat.add_zero] at h0
  rw [loadInt, loadInt, h0, h 1 (by decide), h 2 (by decide), h 3 (by decide)]

/-! ## §3 The invariant -/

/-- A live block is under the pointer, and its header holds its size. -/
structure Held (bottom size : Nat) (h : Heap) (b : Block) : Prop where
  inside : Inside bottom size b
  header : loadInt h.mem (b.addr - sizeofInt) = b.size

/-- The pointer is in the area, above all live blocks, and no live block lies above the last
one. -/
structure Pointers (bottom size : Nat) (s : State) : Prop where
  ptr_ge : bottom ≤ s.heap.mallocPtr
  below : ∀ b ∈ s.live, b.addr + b.size ≤ s.heap.mallocPtr
  last_ge : s.heap.lastAlloc ≠ 0 → bottom + sizeofInt ≤ s.heap.lastAlloc
    ∧ s.heap.lastAlloc ≤ s.heap.mallocPtr + sizeofInt
  last_top : ∀ b ∈ s.live, s.heap.lastAlloc ≠ 0
    ∧ (b.addr = s.heap.lastAlloc ∨ b.addr + b.size + sizeofInt ≤ s.heap.lastAlloc)

/-- What every call keeps. A heap whose pointer is `NULL` is out of service. -/
structure Inv (bottom size : Nat) (s : State) : Prop where
  top : s.heap.mallocTop = bottom + size
  top_lt : bottom + size < 2 ^ 32
  held : ∀ b ∈ s.live, Held bottom size s.heap b
  apart : s.live.Pairwise Apart
  pointers : s.heap.mallocPtr = 0 ∨ 0 < bottom ∧ Pointers bottom size s

theorem Inv.safe {bottom size : Nat} {s : State} (h : Inv bottom size s) :
    Safe bottom size s.live :=
  ⟨fun b hb => (h.held b hb).inside, h.apart⟩

/-- Forgetting blocks keeps the invariant. -/
theorem Inv.sublist {bottom size : Nat} {s : State} (h : Inv bottom size s) {live : List Block}
    (hsub : live.Sublist s.live) : Inv bottom size ⟨s.heap, live⟩ where
  top := h.top
  top_lt := h.top_lt
  held := fun b hb => h.held b (hsub.subset hb)
  apart := h.apart.sublist hsub
  pointers := by
    rcases h.pointers with hnull | ⟨hpos, hp⟩
    · exact .inl hnull
    · exact .inr ⟨hpos, hp.ptr_ge, fun b hb => hp.below b (hsub.subset hb), hp.last_ge,
        fun b hb => hp.last_top b (hsub.subset hb)⟩

/-- A block that ends where nothing has changed is held as before. -/
theorem Held.congr {bottom size : Nat} {h h' : Heap} {b : Block} (hb : Held bottom size h b)
    (hmem : ∀ a, a < b.addr → h'.mem a = h.mem a) : Held bottom size h' b := by
  have hin := hb.inside.1
  simp only [sizeofInt] at hin
  refine ⟨hb.inside, ?_⟩
  rw [← hb.header]
  exact loadInt_congr fun i hi => hmem _ (by simp only [sizeofInt]; omega)

theorem Held.addr_pos {bottom size : Nat} {h : Heap} {b : Block} (hb : Held bottom size h b) :
    0 < b.addr := by
  have hin := hb.inside.1
  simp only [sizeofInt] at hin
  omega

/-- Live blocks with one address are one block. -/
theorem Inv.unique {bottom size : Nat} {s : State} (h : Inv bottom size s) {b c : Block}
    (hb : b ∈ s.live) (hc : c ∈ s.live) (heq : b.addr = c.addr) : b = c := by
  by_contra hne
  have hsym : Std.Symm Apart := ⟨fun x y hxy => Or.symm hxy⟩
  have hap := h.apart.forall hb hc hne
  simp only [Apart, sizeofInt] at hap
  omega

/-! ## §4 The calls -/

/-- What a successful `malloc` has done. -/
structure Got (h : Heap) (size r : Nat) (h' : Heap) : Prop where
  ptr_ne : h.mallocPtr ≠ 0
  addr : r = h.mallocPtr + sizeofInt
  fits : h.mallocPtr + size + sizeofInt ≤ h.mallocTop
  top : h'.mallocTop = h.mallocTop
  last : h'.lastAlloc = r
  ptr : h'.mallocPtr = 0 ∨ r + size ≤ h'.mallocPtr
  below : ∀ a < h.mallocPtr, h'.mem a = h.mem a
  header : loadInt h'.mem h.mallocPtr = size

/-- `malloc` fails without a trace, or gives the bytes behind the pointer. -/
theorem malloc_spec {h : Heap} {size : Nat} (hsize : size < 2 ^ 32)
    (hfit : h.mallocPtr + size + sizeofInt < 2 ^ 32
      ∨ h.mallocTop < u32 (h.mallocPtr + size + sizeofInt)) :
    malloc size h = (0, h) ∨ ∃ r h', malloc size h = (r + 1, h') ∧ Got h size (r + 1) h' := by
  by_cases hnull : h.mallocPtr = 0
  · exact .inl (by rw [malloc, if_pos hnull])
  by_cases hover : u32 (h.mallocPtr + size + sizeofInt) > h.mallocTop
  · exact .inl (by rw [malloc, if_neg hnull, if_pos hover])
  have hend : h.mallocPtr + size + sizeofInt < 2 ^ 32 := by
    rcases hfit with hfit | hfit
    · exact hfit
    · exact absurd hfit hover
  rw [u32_of_lt hend] at hover
  simp only [sizeofInt] at hend hover
  have haddr : u32 (h.mallocPtr + 4) = h.mallocPtr + 3 + 1 := u32_of_lt (by omega)
  refine .inr ⟨h.mallocPtr + 3,
    { mem := setBytes (storeInt h.mem h.mallocPtr size) (h.mallocPtr + 3 + 1) size fun _ => 90
      mallocPtr := u32 (u32 (h.mallocPtr + size + 4) + 3) / 4 * 4
      mallocTop := h.mallocTop
      lastAlloc := h.mallocPtr + 3 + 1 }, ?_, ?_⟩
  · rw [malloc, if_neg hnull, if_neg (by rw [u32_of_lt (by simp only [sizeofInt]; omega)]; exact hover)]
    simp only [sizeofInt, haddr]
  · exact {
      ptr_ne := hnull
      addr := rfl
      fits := Nat.le_of_not_lt hover
      top := rfl
      last := rfl
      ptr := by
        show u32 (u32 (h.mallocPtr + size + 4) + 3) / 4 * 4 = 0
          ∨ h.mallocPtr + 3 + 1 + size ≤ u32 (u32 (h.mallocPtr + size + 4) + 3) / 4 * 4
        rw [u32_of_lt hend]
        simp only [u32]
        omega
      below := fun a ha => by
        show setBytes (storeInt h.mem h.mallocPtr size) (h.mallocPtr + 3 + 1) size
          (fun _ => 90) a = h.mem a
        rw [setBytes_outside (by omega), storeInt, setBytes_outside (by omega)]
      header := by
        show loadInt (setBytes (storeInt h.mem h.mallocPtr size) (h.mallocPtr + 3 + 1) size
          fun _ => 90) h.mallocPtr = size
        rw [loadInt_congr fun i hi => setBytes_outside (by omega), loadInt_storeInt _ _ hsize] }

/-- The new block is the top of the heap. -/
theorem Got.inv {bottom size n r : Nat} {s : State} {h' : Heap} (hg : Got s.heap n r h')
    (h : Inv bottom size s) {mem : Bytes} (hmem : ∀ a < r, mem a = h'.mem a) :
    Inv bottom size ⟨{ h' with mem := mem }, ⟨r, n⟩ :: s.live⟩ := by
  obtain ⟨hpos, hp⟩ : 0 < bottom ∧ Pointers bottom size s := by
    rcases h.pointers with hnull | hp
    · exact absurd hnull hg.ptr_ne
    · exact hp
  have haddr := hg.addr
  have hfits := hg.fits
  have htop := h.top
  have hge := hp.ptr_ge
  simp only [sizeofInt] at haddr hfits
  have hnew : Held bottom size { h' with mem := mem } ⟨r, n⟩ := by
    refine ⟨⟨?_, ?_⟩, ?_⟩
    · simp only [sizeofInt]
      omega
    · show r + n ≤ bottom + size
      omega
    · show loadInt mem (r - sizeofInt) = n
      have hat : r - sizeofInt = s.heap.mallocPtr := by
        simp only [sizeofInt]
        omega
      rw [hat, loadInt_congr fun i hi => hmem _ (by omega), hg.header]
  exact {
    top := hg.top.trans htop
    top_lt := h.top_lt
    held := by
      intro b hb
      rcases List.mem_cons.mp hb with rfl | hb
      · exact hnew
      · have hbelow := hp.below b hb
        refine (h.held b hb).congr fun a ha => ?_
        show mem a = s.heap.mem a
        rw [hmem a (by omega), hg.below a (by omega)]
    apart := by
      refine List.pairwise_cons.mpr ⟨fun b hb => .inr ?_, h.apart⟩
      have hbelow := hp.below b hb
      simp only [sizeofInt]
      omega
    pointers := by
      rcases hg.ptr with hnull | hptr
      · exact .inl hnull
      refine .inr ⟨hpos, ?_, ?_, ?_, ?_⟩
      · show bottom ≤ h'.mallocPtr
        omega
      · intro b hb
        show b.addr + b.size ≤ h'.mallocPtr
        rcases List.mem_cons.mp hb with rfl | hb
        · exact hptr
        · have hbelow := hp.below b hb
          omega
      · intro _
        show bottom + sizeofInt ≤ h'.lastAlloc ∧ h'.lastAlloc ≤ h'.mallocPtr + sizeofInt
        rw [hg.last]
        simp only [sizeofInt]
        omega
      · intro b hb
        show h'.lastAlloc ≠ 0 ∧ (b.addr = h'.lastAlloc ∨ b.addr + b.size + sizeofInt ≤ h'.lastAlloc)
        rw [hg.last]
        refine ⟨by omega, ?_⟩
        rcases List.mem_cons.mp hb with rfl | hb
        · exact .inl rfl
        · have hbelow := hp.below b hb
          right
          simp only [sizeofInt]
          omega }

/-- No live block is changed by writing behind the pointer. -/
theorem Got.live_below {bottom size n r : Nat} {s : State} {h' : Heap} (hg : Got s.heap n r h')
    (h : Inv bottom size s) {b : Block} (hb : b ∈ s.live) {i : Nat} (hi : i < b.size) :
    b.addr + i < s.heap.mallocPtr := by
  rcases h.pointers with hnull | ⟨-, hp⟩
  · exact absurd hnull hg.ptr_ne
  · have hbelow := hp.below b hb
    omega

/-- `malloc` as a call of the program. -/
theorem step_malloc {bottom size n : Nat} {s : State} (h : Inv bottom size s)
    (hn : n < 2 ^ 32) (hfit : Fits s (.malloc n)) :
    Inv bottom size (step s (.malloc n)).2
      ∧ Keeps s (.malloc n) (step s (.malloc n)).1 (step s (.malloc n)).2 := by
  have htop := h.top
  have htop' := h.top_lt
  rcases malloc_spec hn hfit with hfail | ⟨r, h', hgot, hg⟩
  · simp only [step, hfail]
    refine ⟨h, ⟨fun b hb _ => ⟨hb, fun i _ => rfl⟩, ?_, ?_, fun _ _ hr => absurd rfl hr⟩⟩
    · intro ptr k hop
      cases hop
    · intro ptr k hop
      cases hop
  · simp only [step, hgot]
    have hinv := hg.inv h fun a (_ : a < r + 1) => (rfl : h'.mem a = h'.mem a)
    refine ⟨hinv, ⟨?_, ?_, ?_, ?_⟩⟩
    · intro b hb _
      exact ⟨List.mem_cons_of_mem _ hb, fun i hi => hg.below _ (hg.live_below h hb hi)⟩
    · intro ptr k hop
      cases hop
    · intro ptr k hop
      cases hop
    · intro k hop _
      rcases hop with hop | ⟨ptr, hop⟩
      · cases hop
        exact ⟨_, List.mem_cons_self, rfl, Nat.le_refl _⟩
      · cases hop

/-- Resizing the last block in place. -/
theorem step_realloc_last {bottom size ptr n : Nat} {s : State} (h : Inv bottom size s)
    (hn : n < 2 ^ 32) (hallowed : ptr = 0 ∨ ∃ b ∈ s.live, b.addr = ptr)
    (hptr : s.heap.mallocPtr ≠ 0) (hlast : ptr = s.heap.lastAlloc)
    (hfit : ptr ≠ 0 ∧ ptr + n < 2 ^ 32 ∨ s.heap.mallocTop < u32 (ptr + n)) :
    Inv bottom size (step s (.realloc ptr n)).2
      ∧ Keeps s (.realloc ptr n) (step s (.realloc ptr n)).1 (step s (.realloc ptr n)).2 := by
  by_cases hover : u32 (ptr + n) > s.heap.mallocTop
  · have hfail : realloc ptr n s.heap = (0, s.heap) := by
      rw [realloc, if_neg hptr, if_pos hlast, if_pos hover]
    simp only [step, hfail]
    refine ⟨h, ⟨fun b hb _ => ⟨hb, fun i _ => rfl⟩, fun _ _ _ hr => absurd rfl hr,
      fun _ _ _ _ b hb _ => ⟨hb, fun i _ => rfl⟩, fun _ _ hr => absurd rfl hr⟩⟩
  obtain ⟨hne, hend⟩ : ptr ≠ 0 ∧ ptr + n < 2 ^ 32 := by
    rcases hfit with hfit | hfit
    · exact hfit
    · exact absurd hfit hover
  rw [u32_of_lt hend] at hover
  obtain ⟨b, hb, hbaddr⟩ : ∃ b ∈ s.live, b.addr = ptr := by
    rcases hallowed with hzero | hlive
    · exact absurd hzero hne
    · exact hlive
  clear hallowed hfit
  obtain ⟨hpos, hp⟩ : 0 < bottom ∧ Pointers bottom size s := by
    rcases h.pointers with hnull | hp
    · exact absurd hnull hptr
    · exact hp
  have htop := h.top
  have htop' := h.top_lt
  have hin := (h.held b hb).inside.1
  simp only [sizeofInt] at hin
  have hhead : sub32 ptr sizeofInt = ptr - 4 := sub32_of_le (by simp only [sizeofInt]; omega) (by omega)
  obtain ⟨r, rfl⟩ : ∃ r, ptr = r + 1 := ⟨ptr - 1, by omega⟩
  have hok : realloc (r + 1) n s.heap = (r + 1, { s.heap with
      mem := storeInt s.heap.mem (r + 1 - 4) n
      mallocPtr := r + 1 + n }) := by
    rw [realloc, if_neg hptr, if_pos hlast, if_neg (by rw [u32_of_lt hend]; exact hover), hhead,
      u32_of_lt hend]
  -- the other blocks end before the header
  have hothers : ∀ c ∈ s.live, c.addr ≠ r + 1 → c.addr + c.size + 4 ≤ r + 1 := by
    intro c hc hcne
    have hc' := (hp.last_top c hc).2
    simp only [sizeofInt] at hc'
    omega
  have hmem : ∀ a, a < r + 1 - 4 ∨ r + 1 ≤ a →
      storeInt s.heap.mem (r + 1 - 4) n a = s.heap.mem a := by
    intro a ha
    rw [storeInt, setBytes_outside (by omega)]
  simp only [step, hok]
  refine ⟨?_, ⟨?_, ?_, ?_, ?_⟩⟩
  · exact {
      top := htop
      top_lt := htop'
      held := by
        intro c hc
        rcases List.mem_cons.mp hc with rfl | hc
        · refine ⟨⟨by simp only [sizeofInt]; omega, by show r + 1 + n ≤ _; omega⟩, ?_⟩
          exact loadInt_storeInt _ _ hn
        · obtain ⟨hc, hcne⟩ := List.mem_filter.mp hc
          have hbelow := hothers c hc (by simpa using hcne)
          exact (h.held c hc).congr fun a ha => hmem a (by omega)
      apart := by
        refine List.pairwise_cons.mpr ⟨fun c hc => .inr ?_, h.apart.sublist List.filter_sublist⟩
        obtain ⟨hc, hcne⟩ := List.mem_filter.mp hc
        exact hothers c hc (by simpa using hcne)
      pointers := by
        refine .inr ⟨hpos, ?_, ?_, ?_, ?_⟩
        · show bottom ≤ r + 1 + n
          omega
        · intro c hc
          show c.addr + c.size ≤ r + 1 + n
          rcases List.mem_cons.mp hc with rfl | hc
          · exact Nat.le_refl _
          · obtain ⟨hc, hcne⟩ := List.mem_filter.mp hc
            have hbelow := hothers c hc (by simpa using hcne)
            omega
        · intro _
          show bottom + sizeofInt ≤ s.heap.lastAlloc ∧ s.heap.lastAlloc ≤ r + 1 + n + sizeofInt
          rw [← hlast]
          simp only [sizeofInt]
          omega
        · intro c hc
          show s.heap.lastAlloc ≠ 0
            ∧ (c.addr = s.heap.lastAlloc ∨ c.addr + c.size + sizeofInt ≤ s.heap.lastAlloc)
          rw [← hlast]
          refine ⟨by omega, ?_⟩
          rcases List.mem_cons.mp hc with rfl | hc
          · exact .inl rfl
          · obtain ⟨hc, hcne⟩ := List.mem_filter.mp hc
            exact .inr (hothers c hc (by simpa using hcne)) }
  · intro c hc hcne
    have hcne : c.addr ≠ r + 1 := hcne
    have hbelow := hothers c hc hcne
    refine ⟨List.mem_cons_of_mem _ (List.mem_filter.mpr ⟨hc, by simpa using hcne⟩),
      fun i hi => hmem _ (by omega)⟩
  · intro ptr' n' hop _ c hc hcaddr i hi
    cases hop
    rw [hcaddr]
    exact hmem _ (by omega)
  · intro _ _ _ hr
    exact absurd hr (Nat.succ_ne_zero r)
  · intro k hop _
    rcases hop with hop | ⟨ptr', hop⟩
    · cases hop
    · cases hop
      exact ⟨_, List.mem_cons_self, rfl, Nat.le_refl _⟩

/-- Moving a block to the top of the heap. -/
theorem step_realloc_move {bottom size ptr n : Nat} {s : State} (h : Inv bottom size s)
    (hn : n < 2 ^ 32) (hallowed : ptr = 0 ∨ ∃ b ∈ s.live, b.addr = ptr)
    (hptr : s.heap.mallocPtr ≠ 0) (hlast : ptr ≠ s.heap.lastAlloc)
    (hfit : s.heap.mallocPtr + n + sizeofInt < 2 ^ 32
      ∨ s.heap.mallocTop < u32 (s.heap.mallocPtr + n + sizeofInt)) :
    Inv bottom size (step s (.realloc ptr n)).2
      ∧ Keeps s (.realloc ptr n) (step s (.realloc ptr n)).1 (step s (.realloc ptr n)).2 := by
  have htop := h.top
  have htop' := h.top_lt
  rcases malloc_spec hn hfit with hfail | ⟨r, h', hgot, hg⟩
  · have hfail' : realloc ptr n s.heap = (0, s.heap) := by
      rw [realloc, if_neg hptr, if_neg hlast, hfail]
      rfl
    simp only [step, hfail']
    exact ⟨h, ⟨fun b hb _ => ⟨hb, fun i _ => rfl⟩, fun _ _ _ hr => absurd rfl hr,
      fun _ _ _ _ b hb _ => ⟨hb, fun i _ => rfl⟩, fun _ _ hr => absurd rfl hr⟩⟩
  have hinv : ∀ mem : Bytes, (∀ a < r + 1, mem a = h'.mem a) →
      Inv bottom size ⟨{ h' with mem := mem }, ⟨r + 1, n⟩ :: s.live.filter (·.addr ≠ ptr)⟩ :=
    fun mem hmem => (hg.inv h hmem).sublist (List.filter_sublist.cons_cons _)
  have hreturned : ∀ k, Op.realloc ptr n = .malloc k ∨ (∃ p, Op.realloc ptr n = .realloc p k) →
      ∃ b ∈ (⟨r + 1, n⟩ :: s.live.filter (·.addr ≠ ptr) : List Block),
        b.addr = r + 1 ∧ k ≤ b.size := by
    intro k hop
    rcases hop with hop | ⟨p, hop⟩
    · cases hop
    · cases hop
      exact ⟨_, List.mem_cons_self, rfl, Nat.le_refl _⟩
  have hkept : ∀ b ∈ s.live, b.addr ≠ ptr →
      b ∈ (⟨r + 1, n⟩ :: s.live.filter (·.addr ≠ ptr) : List Block) := fun b hb hne =>
    List.mem_cons_of_mem _ (List.mem_filter.mpr ⟨hb, by simpa using hne⟩)
  have haddr := hg.addr
  simp only [sizeofInt] at haddr
  by_cases hzero : ptr = 0
  · have hok : realloc ptr n s.heap = (r + 1, h') := by
      rw [realloc, if_neg hptr, if_neg hlast, hgot]
      simp only
      rw [if_neg (by omega)]
    simp only [step, hok]
    refine ⟨hinv h'.mem fun a _ => rfl, ⟨?_, ?_, ?_, fun k hop _ => hreturned k hop⟩⟩
    · intro b hb hne
      exact ⟨hkept b hb hne, fun i hi => hg.below _ (hg.live_below h hb hi)⟩
    · intro p k hop _ b hb hb'
      cases hop
      have := (h.held b hb).addr_pos
      omega
    · intro _ _ _ hr
      exact absurd hr (Nat.succ_ne_zero r)
  · obtain ⟨b, hb, rfl⟩ : ∃ b ∈ s.live, b.addr = ptr := by
      rcases hallowed with hnull | hlive
      · exact absurd hnull hzero
      · exact hlive
    clear hallowed hfit
    have hin := (h.held b hb).inside
    simp only [Inside, sizeofInt] at hin
    have hbelow : b.addr + b.size ≤ s.heap.mallocPtr := by
      rcases h.pointers with hnull | ⟨-, hp⟩
      · exact absurd hnull hptr
      · exact hp.below b hb
    have hhead : sub32 b.addr sizeofInt = b.addr - sizeofInt :=
      sub32_of_le (by simp only [sizeofInt]; omega) (by omega)
    have hsize : loadInt h'.mem (b.addr - sizeofInt) = b.size := by
      rw [← (h.held b hb).header]
      exact loadInt_congr fun i hi => hg.below _ (by simp only [sizeofInt]; omega)
    have hok : realloc b.addr n s.heap = (r + 1, { h' with
        mem := setBytes h'.mem (r + 1) b.size fun i => h'.mem (b.addr + i) }) := by
      rw [realloc, if_neg hptr, if_neg hlast, hgot]
      simp only
      rw [if_pos ⟨Nat.succ_ne_zero r, hzero⟩, hhead, hsize]
    simp only [step, hok]
    refine ⟨hinv _ fun a ha => setBytes_outside (by omega), ⟨?_, ?_, ?_, fun k hop _ => hreturned k hop⟩⟩
    · intro c hc hne
      refine ⟨hkept c hc hne, fun i hi => ?_⟩
      have hlow := hg.live_below h hc hi
      show setBytes h'.mem (r + 1) b.size (fun i => h'.mem (b.addr + i)) (c.addr + i) = _
      rw [setBytes_outside (by omega), hg.below _ hlow]
    · intro p k hop _ c hc hcaddr i hi
      cases hop
      obtain rfl := h.unique hc hb hcaddr
      show setBytes h'.mem (r + 1) c.size (fun i => h'.mem (c.addr + i)) (r + 1 + i) = _
      rw [setBytes_inside (by omega), hg.below _ (hg.live_below h hc (by omega))]
    · intro _ _ _ hr
      exact absurd hr (Nat.succ_ne_zero r)

/-- Giving a block back; the pointer moves down only for the last one. -/
theorem step_free {bottom size ptr : Nat} {s : State} (h : Inv bottom size s)
    (hallowed : ptr = 0 ∨ ∃ b ∈ s.live, b.addr = ptr) (hfit : Fits s (.free ptr)) :
    Inv bottom size (step s (.free ptr)).2
      ∧ Keeps s (.free ptr) (step s (.free ptr)).1 (step s (.free ptr)).2 := by
  have hsub : Inv bottom size ⟨s.heap, s.live.filter (·.addr ≠ ptr)⟩ :=
    h.sublist List.filter_sublist
  have hmem : (free ptr s.heap).mem = s.heap.mem := by
    rw [free]
    split
    · rfl
    · split <;> rfl
  have hkeeps : Keeps s (.free ptr) (step s (.free ptr)).1 (step s (.free ptr)).2 := by
    refine ⟨fun b hb hne => ⟨List.mem_filter.mpr ⟨hb, ?_⟩, fun i _ => ?_⟩, ?_, ?_,
      fun _ _ hr => absurd rfl hr⟩
    · have hne : b.addr ≠ ptr := hne
      simpa using hne
    · show (free ptr s.heap).mem _ = _
      rw [hmem]
    · intro p k hop
      cases hop
    · intro p k hop
      cases hop
  refine ⟨?_, hkeeps⟩
  simp only [step]
  by_cases hnull : s.heap.mallocPtr = 0
  · rw [free, if_pos hnull]
    exact hsub
  by_cases hlast : ptr = s.heap.lastAlloc
  · obtain ⟨hpos, hp⟩ : 0 < bottom ∧ Pointers bottom size s := by
      rcases h.pointers with hn | hp
      · exact absurd hn hnull
      · exact hp
    have hne : s.heap.lastAlloc ≠ 0 := by
      rcases hfit with hfit | hfit
      · rwa [← hlast]
      · exact hfit
    obtain ⟨b, hb, hbaddr⟩ : ∃ b ∈ s.live, b.addr = ptr := by
      rcases hallowed with hzero | hlive
      · exact absurd (hlast.symm.trans hzero) hne
      · exact hlive
    clear hallowed hfit hkeeps
    have hin := (h.held b hb).inside
    simp only [Inside, sizeofInt] at hin
    have htop := h.top_lt
    have hdown : sub32 s.heap.lastAlloc sizeofInt = s.heap.lastAlloc - 4 :=
      sub32_of_le (by simp only [sizeofInt]; omega) (by omega)
    rw [free, if_neg hnull, if_pos hlast, hdown]
    clear hdown
    refine ⟨h.top, htop, fun c hc => ⟨(hsub.held c hc).inside, (hsub.held c hc).header⟩,
      hsub.apart, .inr ⟨hpos, ?_, ?_, ?_, ?_⟩⟩
    · show bottom ≤ s.heap.lastAlloc - 4
      omega
    · intro c hc
      show c.addr + c.size ≤ s.heap.lastAlloc - 4
      obtain ⟨hc, hcne⟩ := List.mem_filter.mp hc
      have hcne : c.addr ≠ ptr := by simpa using hcne
      have hc' := (hp.last_top c hc).2
      simp only [sizeofInt] at hc'
      omega
    · intro _
      show bottom + sizeofInt ≤ s.heap.lastAlloc
        ∧ s.heap.lastAlloc ≤ s.heap.lastAlloc - 4 + sizeofInt
      simp only [sizeofInt]
      omega
    · intro c hc
      exact hp.last_top c (List.mem_filter.mp hc).1
  · rw [free, if_neg hnull, if_neg hlast]
    exact hsub

/-- **One call** that fits keeps the invariant and the contents of the blocks. -/
theorem step_spec {bottom size : Nat} {s : State} (h : Inv bottom size s) (op : Op)
    (hallowed : op.Allowed s) (hfit : Fits s op) :
    Inv bottom size (step s op).2 ∧ Keeps s op (step s op).1 (step s op).2 := by
  cases op with
  | malloc n => exact step_malloc h hallowed hfit
  | free ptr => exact step_free h hallowed hfit
  | realloc ptr n =>
    obtain ⟨hn, hlive⟩ := hallowed
    by_cases hnull : s.heap.mallocPtr = 0
    · -- the heap is out of service
      have hfail : realloc ptr n s.heap = (0, s.heap) := by rw [realloc, if_pos hnull]
      simp only [step, hfail]
      exact ⟨h, ⟨fun b hb _ => ⟨hb, fun i _ => rfl⟩, fun _ _ _ hr => absurd rfl hr,
        fun _ _ _ _ b hb _ => ⟨hb, fun i _ => rfl⟩, fun _ _ hr => absurd rfl hr⟩⟩
    · by_cases hlast : ptr = s.heap.lastAlloc
      · rw [Fits, if_pos hlast] at hfit
        exact step_realloc_last h hn hlive hnull hlast hfit
      · rw [Fits, if_neg hlast] at hfit
        exact step_realloc_move h hn hlive hnull hlast hfit

/-! ## §5 Runs -/

/-- The heap after `malloc_init`. -/
def start (mem : Bytes) (bottom size : Nat) : State := ⟨mallocInit mem bottom size, []⟩

/-- The states a program reaches by allowed calls that fit. -/
inductive Reachable (mem : Bytes) (bottom size : Nat) : State → Prop where
  | start : Reachable mem bottom size (start mem bottom size)
  | step {s : State} (op : Op) : Reachable mem bottom size s → op.Allowed s → Fits s op →
    Reachable mem bottom size (step s op).2

theorem start_inv (mem : Bytes) {bottom size : Nat} (htop : bottom + size < 2 ^ 32) :
    Inv bottom size (start mem bottom size) where
  top := u32_of_lt htop
  top_lt := htop
  held := by
    intro b hb
    exact absurd hb List.not_mem_nil
  apart := List.Pairwise.nil
  pointers := by
    by_cases hzero : bottom = 0
    · exact .inl hzero
    · refine .inr ⟨Nat.pos_of_ne_zero hzero, Nat.le_refl _, ?_, fun hne => absurd rfl hne, ?_⟩
      · intro b hb
        exact absurd hb List.not_mem_nil
      · intro b hb
        exact absurd hb List.not_mem_nil

theorem Reachable.inv {mem : Bytes} {bottom size : Nat} (htop : bottom + size < 2 ^ 32)
    {s : State} (h : Reachable mem bottom size s) : Inv bottom size s := by
  induction h with
  | start => exact start_inv mem htop
  | step op _ hallowed hfit ih => exact (step_spec ih op hallowed hfit).1

/-- **The heap is safe** in every state reached by calls that fit, and every further such call
keeps the contents of the blocks. -/
theorem heap_safe (mem : Bytes) (bottom size : Nat) (htop : bottom + size < 2 ^ 32) (s : State)
    (h : Reachable mem bottom size s) :
    Safe bottom size s.live
      ∧ ∀ op : Op, op.Allowed s → Fits s op →
        Safe bottom size (step s op).2.live ∧ Keeps s op (step s op).1 (step s op).2 := by
  have hinv := h.inv htop
  refine ⟨hinv.safe, fun op hallowed hfit => ?_⟩
  obtain ⟨hinv', hkeeps⟩ := step_spec hinv op hallowed hfit
  exact ⟨hinv'.safe, hkeeps⟩

/-! ## §6 Two programs -/

/-- A heap of 64 bytes at address 16. -/
def sampleStart : State := start (fun _ => 0) 16 64

/-- A request for nearly 4 GiB passes the check: the end of the block wraps around to the
start of the area. -/
theorem hugeRequest_granted :
    (step sampleStart (.malloc 0xfffffffc)).1 = 20
      ∧ (Op.malloc 0xfffffffc).Allowed sampleStart
      ∧ ¬ Safe 16 64 (step sampleStart (.malloc 0xfffffffc)).2.live := by
  have hlive : (step sampleStart (.malloc 0xfffffffc)).2.live = [⟨20, 0xfffffffc⟩] := by decide
  refine ⟨by decide, show 0xfffffffc < 2 ^ 32 by decide, fun hsafe => ?_⟩
  have hin := (hsafe.inside ⟨20, 0xfffffffc⟩ (by rw [hlive]; exact List.mem_singleton_self _)).2
  exact absurd hin (by decide)

/-- A block of 10 bytes is resized to 20. -/
theorem smallRequests_safe :
    Safe 16 64 (step sampleStart (.malloc 10)).2.live
      ∧ Keeps (step sampleStart (.malloc 10)).2 (.realloc 20 30)
        (step (step sampleStart (.malloc 10)).2 (.realloc 20 30)).1
        (step (step sampleStart (.malloc 10)).2 (.realloc 20 30)).2 := by
  have hlive : (step sampleStart (.malloc 10)).2.live = [⟨20, 10⟩] := by decide
  have hlast : (step sampleStart (.malloc 10)).2.heap.lastAlloc = 20 := by decide
  have hreach : Reachable (fun _ => 0) 16 64 (step sampleStart (.malloc 10)).2 :=
    .step (.malloc 10) .start (show 10 < 2 ^ 32 by decide)
      (show 16 + 10 + 4 < 2 ^ 32 ∨ _ from .inl (by decide))
  have hfit : Fits (step sampleStart (.malloc 10)).2 (.realloc 20 30) := by
    rw [Fits, hlast, if_pos rfl]
    exact .inl ⟨by decide, by decide⟩
  obtain ⟨hsafe, hnext⟩ := heap_safe (fun _ => 0) 16 64 (by decide) _ hreach
  refine ⟨hsafe, (hnext (.realloc 20 30) ⟨by decide, .inr ⟨⟨20, 10⟩, ?_, rfl⟩⟩ hfit).2⟩
  rw [hlive]
  exact List.mem_singleton_self _

end LiloBoot.Malloc
