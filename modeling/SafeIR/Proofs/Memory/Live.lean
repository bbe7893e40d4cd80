import SafeIR.Proofs.Memory.Regions

/-!
# Live allocations

A client of a memory keeps books: which blocks of the stack and of the heap it was given and has not
given back, and which frames it has entered and not left. A `Session` is a memory with such books,
kept from requests and answers alone. Frames are left in the reverse order of entering; blocks are
given back in any order, more than once, or by addresses that were never handed out.

The main statement is `live_allocations_disjoint`: the globals and all blocks that are live
according to the books lie apart. The heap takes back only its latest block, so the argument needs
to know that no other live block reaches beyond the start of that one.
-/

namespace SafeIR.Memory

variable {size count : UInt64} {m : Memory} {len : Nat}

/-- A block that was handed out, and the alignment that was asked for. -/
structure Block where
  span : Span
  align : Nat

/-- A frame that was entered, and the blocks of the stack that were live then. -/
structure Opened where
  frame : Frame
  blocks : List Block

/-- A memory, with the blocks that are live in it. -/
structure Session where
  memory : Memory
  frames : List Opened := []
  stack : List Block := []
  heap : List Block := []

/-- What code asks of memory. -/
inductive Request where
  | alloca (size align : UInt64)
  | malloc (size : UInt64)
  | calloc (count size : UInt64)
  | free (addr : UInt64)
  | enter
  /-- Leave the frame that was entered last. -/
  | leave
  /-- Store bytes somewhere. -/
  | write (addr : UInt64) (data : List UInt8)
  deriving DecidableEq

/-- The request changes bytes. -/
def Request.isWrite : Request → Bool
  | .write .. => true
  | _ => false

namespace Session

/-- Enter a block of the heap into the books; a null pointer is no block. -/
def took (s : Session) (len : Nat) : UInt64 × Memory → Session
  | (addr, m) =>
    if addr = 0 then { s with memory := m }
    else { s with memory := m, heap := ⟨⟨addr.toNat, max len 1⟩, 16⟩ :: s.heap }

/-- What a request leaves behind. -/
def step (s : Session) : Request → Session
  | .alloca size align =>
    match s.memory.alloca size align with
    | .ok (addr, m) =>
      { s with memory := m, stack := ⟨⟨addr.toNat, size.toNat⟩, align.toNat⟩ :: s.stack }
    | .error _ => s
  | .malloc size => s.took size.toNat (s.memory.malloc size)
  | .calloc count size => s.took (count.toNat * size.toNat) (s.memory.calloc count size)
  | .free addr =>
    { s with memory := s.memory.free addr, heap := s.heap.filter (·.span.start ≠ addr.toNat) }
  | .enter => { s with frames := ⟨s.memory.enterFrame, s.stack⟩ :: s.frames }
  | .leave =>
    match s.frames with
    | [] => s
    | f :: fs => { s with memory := s.memory.leaveFrame f.frame, stack := f.blocks, frames := fs }
  | .write addr data =>
    match s.memory.write addr data with
    | .ok m => { s with memory := m }
    | .error _ => s

def run (s : Session) (rs : List Request) : Session := rs.foldl step s

/-- A new memory, of which nothing is handed out. -/
def start (image : List UInt8) (config : Config) : Session := { memory := withConfig image config }

/-- The places of the globals and of all blocks that are live. -/
def live (image : List UInt8) (s : Session) : List Span :=
  ⟨nullGuard, image.length⟩ :: (s.stack ++ s.heap).map Block.span

@[simp] theorem run_nil (s : Session) : s.run [] = s := rfl

@[simp] theorem run_cons (s : Session) (r : Request) (rs : List Request) :
    s.run (r :: rs) = (s.step r).run rs := rfl

theorem run_append (s : Session) (rs rs' : List Request) :
    s.run (rs ++ rs') = (s.run rs).run rs' := List.foldl_append ..

end Session

/-! ## Blocks between two bounds -/

/-- Blocks between two bounds, each at its alignment and apart from the others. -/
structure Packed (low high : Nat) (blocks : List Block) : Prop where
  within : ∀ b ∈ blocks, low ≤ b.span.start ∧ b.span.stop ≤ high
  aligned : ∀ b ∈ blocks, max b.align 1 ∣ b.span.start
  disjoint : blocks.Pairwise fun a b => a.span.Disjoint b.span

namespace Packed

variable {low high high' : Nat} {b : Block} {blocks : List Block}

theorem nil (low high : Nat) : Packed low high [] :=
  ⟨by simp, by simp, .nil⟩

/-- A block behind all others. -/
theorem cons (h : Packed low high blocks) (hlow : low ≤ high) (hstart : high ≤ b.span.start)
    (hstop : b.span.stop ≤ high') (haligned : max b.align 1 ∣ b.span.start) :
    Packed low high' (b :: blocks) where
  within := by
    intro c hc
    rcases List.mem_cons.mp hc with rfl | hc
    · exact ⟨Nat.le_trans hlow hstart, hstop⟩
    · obtain ⟨hcstart, hcstop⟩ := h.within c hc
      have hb : b.span.start ≤ b.span.stop := Nat.le_add_right ..
      exact ⟨hcstart, by omega⟩
  aligned := List.forall_mem_cons.mpr ⟨haligned, h.aligned⟩
  disjoint := List.pairwise_cons.mpr
    ⟨fun c hc => .inr (Nat.le_trans (h.within c hc).2 hstart), h.disjoint⟩

/-- The upper bound may move to any place that no block reaches beyond. -/
theorem bound (h : Packed low high blocks) (hstop : ∀ b ∈ blocks, b.span.stop ≤ high') :
    Packed low high' blocks :=
  ⟨fun b hb => ⟨(h.within b hb).1, hstop b hb⟩, h.aligned, h.disjoint⟩

theorem filter (h : Packed low high blocks) (p : Block → Bool) :
    Packed low high (blocks.filter p) :=
  ⟨fun b hb => h.within b (List.mem_of_mem_filter hb),
    fun b hb => h.aligned b (List.mem_of_mem_filter hb), h.disjoint.filter p⟩

end Packed

/-! ## The books agree with the memory -/

/-- Each frame was entered at a place of the stack behind its blocks and the frames before. -/
def Nested (base : Nat) : Nat → List Opened → Prop
  | _, [] => True
  | sp, f :: fs => base ≤ f.frame.sp ∧ f.frame.sp ≤ sp ∧ Packed base f.frame.sp f.blocks ∧
      Nested base f.frame.sp fs

theorem Nested.mono {base sp sp' : Nat} {fs : List Opened} (h : Nested base sp fs)
    (hle : sp ≤ sp') : Nested base sp' fs := by
  cases fs with
  | nil => trivial
  | cons f fs => exact ⟨h.1, Nat.le_trans h.2.1 hle, h.2.2⟩

/-- Live blocks lie where they should, apart from each other. -/
structure Session.Sound (image : List UInt8) (s : Session) : Prop where
  regions : s.memory.Regions
  globals : nullGuard + image.length ≤ s.memory.stackBase
  stack : Packed s.memory.stackBase s.memory.sp s.stack
  frames : Nested s.memory.stackBase s.memory.sp s.frames
  heap : Packed s.memory.stackEnd s.memory.heapNext s.heap
  heapAlign : ∀ b ∈ s.heap, b.align = 16
  /-- All live blocks but the latest end before the latest. -/
  latest : ∀ addr, s.memory.heapLast = some addr →
    ∀ b ∈ s.heap, b.span.start ≠ addr → b.span.stop ≤ addr

namespace Session

variable {image : List UInt8} {config : Config} {s : Session}

theorem sound_start (h : (withConfig image config).size < twoPow 64) :
    (start image config).Sound image where
  regions := regions_withConfig h
  globals := le_alignUp ..
  stack := .nil ..
  frames := trivial
  heap := .nil ..
  heapAlign := fun _ hb => nomatch hb
  latest := nofun

theorem Sound.alloca (h : s.Sound image) (size align : UInt64) :
    (s.step (.alloca size align)).Sound image := by
  simp only [step]
  split
  next addr m hok =>
    have hregions := h.regions.effect (effect_of_alloca hok)
    obtain ⟨hroom, rfl, rfl⟩ := alloca_eq_ok.mp hok
    have hstart := le_alignUp s.memory.sp align.toNat
    have hnat := h.regions.toNat_ofNat (p := alignUp s.memory.sp align.toNat)
      (by have := h.regions.end_le; have := h.regions.next_le; omega)
    refine ⟨hregions, h.globals, ?_, ?_, h.heap, h.heapAlign, h.latest⟩
    · refine h.stack.cons h.regions.base_le ?_ ?_ ?_
      · exact hnat.symm ▸ hstart
      · exact Nat.le_of_eq (congrArg (· + size.toNat) hnat)
      · exact hnat.symm ▸ dvd_alignUp ..
    · exact h.frames.mono (Nat.le_trans hstart (Nat.le_add_right ..))
  next => exact h

/-- A block that was cut behind `heapNext` enters the books as the latest. -/
theorem Sound.cut (h : s.Sound image) {zeroed : Nat}
    (hroom : alignUp s.memory.heapNext 16 + max len 1 ≤ s.memory.size)
    (hzeroed : zeroed ≤ max len 1) :
    (s.took len (UInt64.ofNat (alignUp s.memory.heapNext 16),
      { s.memory.patch (alignUp s.memory.heapNext 16) (List.replicate zeroed 0) with
        heapNext := alignUp s.memory.heapNext 16 + max len 1
        heapLast := some (alignUp s.memory.heapNext 16) })).Sound image := by
  have hstart := le_alignUp s.memory.heapNext 16
  have hplace : alignUp s.memory.heapNext 16 ≤ s.memory.size :=
    Nat.le_trans (Nat.le_add_right ..) hroom
  have hregions := h.regions.effect (.cut hstart (by omega) hroom hzeroed)
  rw [took, if_neg (h.regions.block_ne_zero hplace), h.regions.toNat_ofNat hplace]
  refine ⟨hregions, h.globals, h.stack, h.frames, ?_, ?_, ?_⟩
  · exact h.heap.cons h.regions.end_le hstart (Nat.le_refl _) (dvd_alignUp _ 16)
  · exact List.forall_mem_cons.mpr ⟨rfl, h.heapAlign⟩
  · rintro _ ⟨⟩ b hb hne
    rcases List.mem_cons.mp hb with rfl | hb
    · exact absurd rfl hne
    · exact Nat.le_trans (h.heap.within b hb).2 hstart

theorem Sound.malloc (h : s.Sound image) (size : UInt64) :
    (s.step (.malloc size)).Sound image := by
  simp only [step]
  rcases malloc_cases s.memory size with ⟨-, heq⟩ | ⟨hroom, heq⟩ <;> rw [heq]
  · exact h
  · have hzeroed : 0 ≤ max size.toNat 1 := Nat.zero_le _
    exact h.cut hroom hzeroed

theorem Sound.calloc (h : s.Sound image) (count size : UInt64) :
    (s.step (.calloc count size)).Sound image := by
  simp only [step]
  rcases h.regions.calloc_cases count size with heq | ⟨-, hroom, heq⟩ <;> rw [heq]
  · exact h
  · exact h.cut hroom (Nat.le_max_left ..)

theorem Sound.free (h : s.Sound image) (addr : UInt64) : (s.step (.free addr)).Sound image := by
  have hheap := h.heap.filter (·.span.start ≠ addr.toNat)
  have halign : ∀ b ∈ s.heap.filter (·.span.start ≠ addr.toNat), b.align = 16 :=
    fun b hb => h.heapAlign b (List.mem_of_mem_filter hb)
  have hregions := h.regions.effect (h.regions.effect_apply (.free addr))
  simp only [step, Op.apply] at hregions ⊢
  rcases free_cases s.memory addr with heq | ⟨hlast, heq⟩ <;> rw [heq] at hregions ⊢
  · exact ⟨h.regions, h.globals, h.stack, h.frames, hheap, halign,
      fun addr hlast b hb => h.latest addr hlast b (List.mem_of_mem_filter hb)⟩
  · -- What is left of the heap ends before the block that is given back.
    refine ⟨hregions, h.globals, h.stack, h.frames, hheap.bound fun b hb => ?_, halign, ?_⟩
    · obtain ⟨hb, hne⟩ := List.mem_filter.mp hb
      exact h.latest _ hlast b hb (by simpa using hne)
    · rintro _ ⟨⟩

theorem Sound.enter (h : s.Sound image) : (s.step .enter).Sound image :=
  ⟨h.regions, h.globals, h.stack, ⟨h.regions.base_le, Nat.le_refl _, h.stack, h.frames⟩, h.heap,
    h.heapAlign, h.latest⟩

/-- Leaving the latest frame puts the stack pointer where it was saved. -/
theorem Sound.sp_leaveFrame (h : s.Sound image) {f : Opened} {fs : List Opened}
    (hf : s.frames = f :: fs) : (s.memory.leaveFrame f.frame).sp = f.frame.sp := by
  have hnested := h.frames
  rw [hf] at hnested
  have hle := Nat.le_trans hnested.2.1 h.regions.sp_le
  show max _ (min _ _) = _
  rw [Nat.min_eq_left hle, Nat.max_eq_right hnested.1]

theorem Sound.leave (h : s.Sound image) : (s.step .leave).Sound image := by
  have hregions := fun f => h.regions.effect (h.regions.effect_apply (.leaveFrame f))
  simp only [step]
  cases hf : s.frames with
  | nil => exact h
  | cons f fs =>
    have hsp := h.sp_leaveFrame hf
    have hnested := h.frames
    rw [hf] at hnested
    obtain ⟨-, -, hblocks, hframes⟩ := hnested
    exact ⟨hregions f.frame, h.globals, hsp.symm ▸ hblocks, hsp.symm ▸ hframes, h.heap, h.heapAlign,
      h.latest⟩

theorem Sound.write (h : s.Sound image) (addr : UInt64) (data : List UInt8) :
    (s.step (.write addr data)).Sound image := by
  simp only [step]
  split
  next m hok =>
    have hregions := h.regions.effect (effect_of_write hok)
    obtain ⟨-, rfl⟩ := write_eq_ok.mp hok
    exact ⟨hregions, h.globals, h.stack, h.frames, h.heap, h.heapAlign, h.latest⟩
  next => exact h

theorem Sound.run (h : s.Sound image) (rs : List Request) : (s.run rs).Sound image := by
  induction rs generalizing s with
  | nil => exact h
  | cons r rs ih =>
    refine ih ?_
    cases r with
    | alloca size align => exact h.alloca size align
    | malloc size => exact h.malloc size
    | calloc count size => exact h.calloc count size
    | free addr => exact h.free addr
    | enter => exact h.enter
    | leave => exact h.leave
    | write addr data => exact h.write addr data

/-- Globals, stack and heap follow one another, and the blocks of each region lie apart. -/
theorem Sound.pairwise_live (h : s.Sound image) : (s.live image).Pairwise Span.Disjoint := by
  have hbase := h.globals
  have hsp := h.regions.sp_le
  have hend := h.regions.end_le
  have hbase_le := h.regions.base_le
  rw [live, List.pairwise_cons, List.pairwise_map, List.pairwise_append]
  refine ⟨?_, h.stack.disjoint, h.heap.disjoint, fun a ha b hb => ?_⟩
  · intro span hspan
    obtain ⟨b, hb, rfl⟩ := List.mem_map.mp hspan
    refine .inl ?_
    show nullGuard + image.length ≤ _
    rcases List.mem_append.mp hb with hb | hb
    · exact Nat.le_trans hbase (h.stack.within b hb).1
    · have := (h.heap.within b hb).1
      omega
  · exact .inl (Nat.le_trans (h.stack.within a ha).2 (Nat.le_trans hsp (h.heap.within b hb).1))

theorem Sound.guard_le (h : s.Sound image) : ∀ span ∈ s.live image, nullGuard ≤ span.start := by
  have hguard := h.regions.guard_le
  have hbase := h.regions.base_le
  have hsp := h.regions.sp_le
  intro span hspan
  rcases List.mem_cons.mp hspan with rfl | hspan
  · exact Nat.le_refl _
  · obtain ⟨b, hb, rfl⟩ := List.mem_map.mp hspan
    rcases List.mem_append.mp hb with hb | hb
    · exact Nat.le_trans hguard (h.stack.within b hb).1
    · have := (h.heap.within b hb).1
      omega

/-! ## Frames -/

/-- Requests that leave every frame they enter, and no other. -/
inductive Balanced : List Request → Prop where
  | nil : Balanced []
  | plain {r : Request} {rs : List Request} (henter : r ≠ .enter) (hleave : r ≠ .leave)
      (h : Balanced rs) : Balanced (r :: rs)
  | nested {inner rest : List Request} (hinner : Balanced inner) (hrest : Balanced rest) :
      Balanced (.enter :: (inner ++ .leave :: rest))

theorem frames_step {r : Request} (henter : r ≠ .enter) (hleave : r ≠ .leave) :
    (s.step r).frames = s.frames := by
  cases r with
  | enter => exact absurd rfl henter
  | leave => exact absurd rfl hleave
  | free => rfl
  | malloc | calloc =>
    simp only [step, took]
    split <;> rfl
  | alloca | write =>
    simp only [step]
    split <;> rfl

theorem Balanced.frames_run {rs : List Request} (h : Balanced rs) (s : Session) :
    (s.run rs).frames = s.frames := by
  induction h generalizing s with
  | nil => rfl
  | plain henter hleave _ ih => exact (ih _).trans (frames_step henter hleave)
  | nested _ _ ihinner ihrest =>
    rw [run_cons, run_append, run_cons, ihrest]
    -- The frame entered first is the latest again once the inner requests are done.
    have hinner := ihinner (s.step .enter)
    simp only [step] at hinner ⊢
    rw [hinner]

/-- Leaving a frame brings back the stack as it was when the frame was entered. -/
theorem Sound.run_frame (h : s.Sound image) {inner : List Request} (hinner : Balanced inner) :
    (s.run (.enter :: (inner ++ [.leave]))).memory.sp = s.memory.sp ∧
      (s.run (.enter :: (inner ++ [.leave]))).stack = s.stack := by
  have hsound := h.enter.run inner
  have hframes : ((s.step .enter).run inner).frames = ⟨s.memory.enterFrame, s.stack⟩ :: s.frames :=
    hinner.frames_run _
  have hsp := hsound.sp_leaveFrame hframes
  rw [run_cons, run_append, run_cons, run_nil]
  simp only [step] at hsp hframes ⊢
  rw [hframes]
  exact ⟨hsp, rfl⟩

/-! ## Fresh blocks -/

/-- Bytes above the guard that are zero read as zero. -/
theorem read_zero {addr len : UInt64} {start : Nat} (haddr : addr.toNat = start)
    (hguard : nullGuard ≤ start) (hend : start + len.toNat ≤ m.size)
    (hzero : ∀ i < len.toNat, m.byte? (start + i) = some 0) :
    m.read addr len = .ok (List.replicate len.toNat 0) := by
  subst haddr
  refine read_eq_ok.mpr ⟨⟨hguard, hend⟩, ?_⟩
  have hlen : (List.replicate len.toNat (0 : UInt8)).length = len.toNat := List.length_replicate
  have hbytes : ∀ i < (List.replicate len.toNat (0 : UInt8)).length,
      m.byte? (addr.toNat + i) = (List.replicate len.toNat 0)[i]? := by
    intro i hi
    rw [hlen] at hi
    rw [hzero i hi, List.getElem?_replicate, if_pos hi]
  have hslice := slice_eq (by rwa [hlen]) hbytes
  rwa [hlen] at hslice

/-- A span that was set to zero is zero. -/
theorem byte?_zeroed {start i : Nat} (h : start + len ≤ m.size) (hi : i < len) :
    (m.patch start (List.replicate len 0)).byte? (start + i) = some 0 := by
  rw [byte?_patch (by rwa [List.length_replicate]), List.length_replicate,
    if_pos (Span.mem_iff.mpr ⟨Nat.le_add_right .., Nat.add_lt_add_left hi _⟩),
    Nat.add_sub_cancel_left, List.getElem?_replicate, if_pos hi]

/-- A new block of the stack reads as zero. -/
theorem Sound.read_alloca (h : s.Sound image) {align addr : UInt64}
    (hok : s.memory.alloca size align = .ok (addr, m)) :
    m.read addr size = .ok (List.replicate size.toNat 0) := by
  have hguard := h.regions.guard_le
  have hbase := h.regions.base_le
  have hend := h.regions.end_le
  have hnext := h.regions.next_le
  have hsize := (effect_of_alloca hok).size_eq
  obtain ⟨hroom, rfl, rfl⟩ := alloca_eq_ok.mp hok
  have hstart := le_alignUp s.memory.sp align.toNat
  exact read_zero (h.regions.toNat_ofNat (by omega)) (by omega) (by rw [hsize]; omega)
    fun i hi => byte?_zeroed (by omega) hi

/-- Where a zeroed block lies, and which bytes of it were set to zero. -/
theorem Sound.calloc_block (h : s.Sound image) (hne : (s.memory.calloc count size).1 ≠ 0) :
    ∃ start, (s.memory.calloc count size).1.toNat = start ∧
      nullGuard + image.length ≤ start ∧
      start + max (count * size).toNat 1 ≤ s.memory.size ∧
      (count * size).toNat = count.toNat * size.toNat ∧
      (s.memory.calloc count size).2.bytes =
        (s.memory.patch start (List.replicate (count * size).toNat 0)).bytes := by
  have hglobals := h.globals
  have hbase := h.regions.base_le
  have hsp := h.regions.sp_le
  have hend := h.regions.end_le
  have hstart := le_alignUp s.memory.heapNext 16
  rcases h.regions.calloc_cases count size with heq | ⟨hword, hroom, heq⟩
  · exact absurd (congrArg Prod.fst heq) hne
  have hlen : (count * size).toNat = count.toNat * size.toNat := by
    rw [UInt64.toNat_mul]
    exact Nat.mod_eq_of_lt hword
  rw [heq, hlen]
  exact ⟨_, h.regions.toNat_ofNat (by omega), by omega, hroom, rfl, rfl⟩

/-- A block that was asked for zeroed reads as zero, in all the bytes that were asked for. -/
theorem Sound.read_calloc (h : s.Sound image) (hne : (s.memory.calloc count size).1 ≠ 0) :
    (s.memory.calloc count size).2.read (s.memory.calloc count size).1 (count * size) =
      .ok (List.replicate (count.toNat * size.toNat) 0) := by
  obtain ⟨start, haddr, hguard, hroom, hlen, hbytes⟩ := h.calloc_block hne
  have hsize : (s.memory.calloc count size).2.size = s.memory.size :=
    (h.regions.effect_apply (.calloc count size)).size_eq
  rw [← hlen]
  refine read_zero haddr (by omega) (by omega) fun i hi => ?_
  rw [byte?, hbytes]
  exact byte?_zeroed (by omega) hi

/-! ## Before anything is stored -/

/-- Behind the globals there are only zeros. -/
def Untouched (image : List UInt8) (m : Memory) : Prop :=
  ∀ p, nullGuard + image.length ≤ p → p < m.size → m.byte? p = some 0

theorem Untouched.patch (h : Untouched image m) {start : Nat} (hend : start + len ≤ m.size) :
    Untouched image (m.patch start (List.replicate len 0)) := by
  intro p hp hlt
  rw [size_patch] at hlt
  rw [byte?_patch (by rwa [List.length_replicate]), List.length_replicate]
  split
  next hmem =>
    have hspan := Span.mem_iff.mp hmem
    rw [List.getElem?_replicate, if_pos (by simp only at hspan; omega)]
  next => exact h p hp hlt

/-- Only stores put anything else into a memory. -/
theorem Sound.untouched_step (h : s.Sound image) (hu : Untouched image s.memory) {r : Request}
    (hr : r.isWrite = false) : Untouched image (s.step r).memory := by
  have hend := h.regions.end_le
  have hnext := h.regions.next_le
  cases r with
  | write => cases hr
  | enter => exact hu
  | leave =>
    simp only [step]
    split <;> exact hu
  | free addr =>
    simp only [step]
    rcases free_cases s.memory addr with heq | ⟨-, heq⟩ <;> rw [heq] <;> exact hu
  | alloca size align =>
    simp only [step]
    split
    next hok =>
      obtain ⟨hroom, -, rfl⟩ := alloca_eq_ok.mp hok
      exact hu.patch (by omega)
    next => exact hu
  | malloc size =>
    simp only [step]
    rcases malloc_cases s.memory size with ⟨-, heq⟩ | ⟨-, heq⟩ <;> rw [heq, took] <;> split <;>
      exact hu
  | calloc count size =>
    simp only [step]
    rcases h.regions.calloc_cases count size with heq | ⟨-, hroom, heq⟩ <;> rw [heq, took] <;> split
    · exact hu
    · exact hu
    all_goals exact hu.patch (by omega)

theorem Sound.untouched_run (h : s.Sound image) (hu : Untouched image s.memory)
    {rs : List Request} (hrs : ∀ r ∈ rs, r.isWrite = false) :
    Untouched image (s.run rs).memory := by
  induction rs generalizing s with
  | nil => exact hu
  | cons r rs ih =>
    obtain ⟨hr, hrs⟩ := List.forall_mem_cons.mp hrs
    exact ih (h.run [r]) (h.untouched_step hu hr) hrs

theorem untouched_start (image : List UInt8) (config : Config) :
    Untouched image (start image config).memory := by
  intro p hp hlt
  exact (byte?_withConfig image config (by omega) hlt).trans (if_neg (by omega))

/-- An empty block has a byte of its own. It is not set to zero, but it is zero as long as nothing
was stored. -/
theorem Sound.read_calloc_untouched (h : s.Sound image) (hu : Untouched image s.memory)
    (hne : (s.memory.calloc count size).1 ≠ 0) :
    (s.memory.calloc count size).2.read (s.memory.calloc count size).1
        (UInt64.ofNat (max (count.toNat * size.toNat) 1)) =
      .ok (List.replicate (max (count.toNat * size.toNat) 1) 0) := by
  obtain ⟨start, haddr, hguard, hroom, hlen, hbytes⟩ := h.calloc_block hne
  have hsize : (s.memory.calloc count size).2.size = s.memory.size :=
    (h.regions.effect_apply (.calloc count size)).size_eq
  rw [hlen] at hroom
  have hnat := h.regions.toNat_ofNat (p := max (count.toNat * size.toNat) 1) (by omega)
  have hzero : ∀ i < (UInt64.ofNat (max (count.toNat * size.toNat) 1)).toNat,
      (s.memory.calloc count size).2.byte? (start + i) = some 0 := by
    intro i hi
    rw [byte?, hbytes]
    exact hu.patch (by omega) _ (by omega) (by rw [size_patch]; omega)
  have hread := read_zero haddr (by omega) (by omega) hzero
  rwa [hnat] at hread

end Session

/-- Whatever is asked of a new memory whose size is a word, the globals and all live blocks lie
apart from each other and from the guard, each at its alignment. New blocks of the stack and new
zeroed blocks of the heap read as zero. A frame that is left brings back the stack pointer, and the
blocks, of the moment it was entered. -/
theorem live_allocations_disjoint (image : List UInt8) (config : Config)
    (hsize : (withConfig image config).size < twoPow 64) (rs : List Request) :
    let s := (Session.start image config).run rs
    (s.live image).Pairwise Span.Disjoint ∧
      (∀ span ∈ s.live image, nullGuard ≤ span.start) ∧
      (∀ b ∈ s.heap, 16 ∣ b.span.start) ∧
      (∀ b ∈ s.stack, max b.align 1 ∣ b.span.start) ∧
      (∀ size align addr m, s.memory.alloca size align = .ok (addr, m) →
        m.read addr size = .ok (List.replicate size.toNat 0)) ∧
      (∀ count size addr m, s.memory.calloc count size = (addr, m) → addr ≠ 0 →
        m.read addr (count * size) = .ok (List.replicate (count.toNat * size.toNat) 0) ∧
        ((∀ r ∈ rs, r.isWrite = false) →
          m.read addr (UInt64.ofNat (max (count.toNat * size.toNat) 1)) =
            .ok (List.replicate (max (count.toNat * size.toNat) 1) 0))) ∧
      ∀ inner, Session.Balanced inner →
        (s.run (.enter :: (inner ++ [.leave]))).memory.sp = s.memory.sp ∧
          (s.run (.enter :: (inner ++ [.leave]))).stack = s.stack := by
  intro s
  have hstart : (Session.start image config).Sound image := Session.sound_start hsize
  have h : s.Sound image := hstart.run rs
  refine ⟨h.pairwise_live, h.guard_le, fun b hb => ?_, h.stack.aligned,
    fun size align addr m hok => h.read_alloca hok, fun count size addr m heq hne => ?_,
    fun inner hinner => h.run_frame hinner⟩
  · have haligned := h.heap.aligned b hb
    rwa [h.heapAlign b hb] at haligned
  · obtain ⟨rfl, rfl⟩ : (s.memory.calloc count size).1 = addr ∧
        (s.memory.calloc count size).2 = m := by rw [heq]; exact ⟨rfl, rfl⟩
    exact ⟨h.read_calloc hne, fun hrs =>
      h.read_calloc_untouched (hstart.untouched_run (Session.untouched_start image config) hrs) hne⟩

/-- A block of the heap is given back out of order, another is given back and its place taken again,
and a frame is left with a block in it. -/
theorem live_allocations_disjoint_reuse :
    let s := (Session.start [1, 2, 3, 4] { stack := 32, heap := 48 }).run
      [.malloc 8, .enter, .alloca 5 3, .malloc 0, .free 112, .malloc 1, .enter, .alloca 7 0, .leave,
        .alloca 2 8, .free 144, .calloc 2 3, .malloc 1000]
    (withConfig [1, 2, 3, 4] { stack := 32, heap := 48 }).size < twoPow 64 ∧
      s.live [1, 2, 3, 4] = [⟨64, 4⟩, ⟨88, 2⟩, ⟨81, 5⟩, ⟨144, 6⟩, ⟨128, 1⟩] ∧
      (s.live [1, 2, 3, 4]).Pairwise Span.Disjoint := by
  have hsize : (withConfig [1, 2, 3, 4] { stack := 32, heap := 48 }).size < twoPow 64 := by
    rw [size_withConfig]
    decide
  exact ⟨hsize, by decide +kernel, (live_allocations_disjoint _ _ hsize _).1⟩

end SafeIR.Memory
