import Mathlib.Data.List.Basic
import Mathlib.Algebra.Order.Group.Nat
import Mathlib.Tactic.Common

/-!
# The arena of the skip list

The arena hands out the bytes of its current block from the front, and takes a new block when the
rest of it is too short or the request is large. `AllocateAligned` adds `bytes % 16` to its request,
which makes the size a multiple of 16 only for multiples of 8, and it expects that the current
block is used up to a multiple of 16.
-/

namespace MemSafeDB.SkipList

/-- A block of memory that `new` returned. -/
structure Block where
  base : Nat
  size : Nat

/-- The assertions of the arena and of `tag_pointer`. -/
inductive ArenaAssertion where
  | bytesPositive
  | blockAligned
  | fallbackAligned
  | resultAligned
  | tagNotNull
  | tagSize

/-- `blocks` is the newest first; the sizes of the blocks are ghosts. -/
structure Arena where
  allocPtr : Nat
  allocBytesRemaining : Nat
  blocks : List Block
  memoryUsage : Nat

/-- `tag_pointer`: the checks before it tags the granules of the range. -/
def tagPointer (ptr size : Nat) : Except ArenaAssertion Nat :=
  if ptr = 0 then .error .tagNotNull
  else if size % 16 ≠ 0 then .error .tagSize
  else .ok ptr

namespace Arena

def empty : Arena := ⟨0, 0, [], 0⟩

def kBlockSize : Nat := 4096

/-- `fresh` is the address that `new` returns if the call needs a block. -/
def allocateNewBlock (s : Arena) (fresh blockBytes : Nat) : Except ArenaAssertion (Nat × Arena) :=
  if fresh % 16 ≠ 0 then .error .blockAligned
  else
    .ok (fresh,
      { s with
        blocks := ⟨fresh, blockBytes⟩ :: s.blocks
        memoryUsage := (s.memoryUsage + (blockBytes + 8)) % 2 ^ 64 })

def allocateFallback (s : Arena) (fresh bytes : Nat) : Except ArenaAssertion (Nat × Arena) :=
  if bytes > kBlockSize / 4 then s.allocateNewBlock fresh bytes
  else do
    let (allocPtr, s) ← s.allocateNewBlock fresh kBlockSize
    let result := allocPtr
    if result % 16 ≠ 0 then .error .fallbackAligned
    else
      pure (result,
        { s with allocPtr := allocPtr + bytes, allocBytesRemaining := kBlockSize - bytes })

/-- The front of the current block. -/
def takeFront (s : Arena) (bytes : Nat) : Nat × Arena :=
  (s.allocPtr,
    { s with
      allocPtr := s.allocPtr + bytes
      allocBytesRemaining := s.allocBytesRemaining - bytes })

def allocate (s : Arena) (fresh bytes : Nat) : Except ArenaAssertion (Nat × Arena) :=
  if bytes = 0 then .error .bytesPositive
  else if bytes ≤ s.allocBytesRemaining then .ok (s.takeFront bytes)
  else s.allocateFallback fresh bytes

/-- The size that `AllocateAligned` computes from the request. -/
def needed (bytes : Nat) : Nat :=
  let slop := bytes % 16
  (bytes + slop) % 2 ^ 64

/-- The end of `AllocateAligned`: in an MTE build the result is tagged. -/
def tagResult (mte : Bool) (result needed : Nat) : Except ArenaAssertion Nat :=
  if result % 16 ≠ 0 then .error .resultAligned
  else if mte then tagPointer result needed
  else .ok result

def allocateAligned (mte : Bool) (s : Arena) (fresh bytes : Nat) :
    Except ArenaAssertion (Nat × Arena) := do
  let needed := needed bytes
  let (result, s) ←
    (if needed ≤ s.allocBytesRemaining then .ok (s.takeFront needed)
      else s.allocateFallback fresh needed)
  let result ← tagResult mte result needed
  pure (result, s)

/-! ## Sequences of calls -/

inductive Request where
  | allocate (bytes : Nat)
  | allocateAligned (bytes : Nat)

def Request.bytes : Request → Nat
  | .allocate bytes => bytes
  | .allocateAligned bytes => bytes

/-- What a request takes from the arena. -/
def Request.size : Request → Nat
  | .allocate bytes => bytes
  | .allocateAligned bytes => needed bytes

structure Call where
  request : Request
  fresh : Nat

/-- A block of `bytes` bytes that the arena returned. `size` bytes are set aside for it, and
`tag_pointer` tags them if the block is aligned. -/
structure Allocation where
  ptr : Nat
  bytes : Nat
  size : Nat
  aligned : Bool

/-- The arena and what it has returned so far. -/
structure Served where
  arena : Arena
  log : List Allocation

def Served.init : Served := ⟨empty, []⟩

def Served.serve (mte : Bool) (s : Served) (c : Call) : Except ArenaAssertion Served :=
  match c.request with
  | .allocate bytes => do
    let (ptr, arena) ← s.arena.allocate c.fresh bytes
    pure ⟨arena, ⟨ptr, bytes, bytes, false⟩ :: s.log⟩
  | .allocateAligned bytes => do
    let (ptr, arena) ← s.arena.allocateAligned mte c.fresh bytes
    pure ⟨arena, ⟨ptr, bytes, needed bytes, true⟩ :: s.log⟩

/-- The ranges of `n` bytes from `p` and of `m` bytes from `q` do not overlap. -/
def Apart (p n q m : Nat) : Prop := p + n ≤ q ∨ q + m ≤ p

/-- No granule has bytes of both ranges. -/
def NoSharedGranule (p n q m : Nat) : Prop :=
  ∀ x y, p ≤ x → x < p + n → q ≤ y → y < q + m → x / 16 ≠ y / 16

structure WellAllocated (s : Served) : Prop where
  inBlock : ∀ a ∈ s.log, ∃ b ∈ s.arena.blocks,
    b.base ≤ a.ptr ∧ a.ptr + a.bytes ≤ b.base + b.size
  disjoint : s.log.Pairwise (fun a b => Apart a.ptr a.bytes b.ptr b.bytes)
  /-- the rest of a block, or the null pointer before there is a block -/
  tail : s.arena.allocPtr = 0 ∧ s.arena.allocBytesRemaining = 0 ∨
    ∃ b ∈ s.arena.blocks, b.base ≤ s.arena.allocPtr ∧
      s.arena.allocPtr + s.arena.allocBytesRemaining = b.base + b.size
  unused : ∀ a ∈ s.log, Apart a.ptr a.bytes s.arena.allocPtr s.arena.allocBytesRemaining
  aligned : ∀ a ∈ s.log, a.aligned → a.ptr % 16 = 0 ∧ a.size % 16 = 0
  /-- no other block has bytes in a granule that is tagged for an aligned one -/
  granules : s.log.Pairwise
    (fun a b => a.aligned ∨ b.aligned → NoSharedGranule a.ptr a.size b.ptr b.size)

/-- The size of the block that the arena asks for to serve `size` bytes, if it does. -/
def blockSize (s : Arena) (size : Nat) : Option Nat :=
  if size ≤ s.allocBytesRemaining then none
  else if size > kBlockSize / 4 then some size
  else some kBlockSize

/-- What `new` promises of a block. -/
structure Fresh (blocks : List Block) (base size : Nat) : Prop where
  aligned : base % 16 = 0
  not_null : 0 < base
  fits : base + size < 2 ^ 64
  apart : ∀ b ∈ blocks, Apart b.base b.size base size

structure Suitable (s : Served) (c : Call) : Prop where
  bytes_pos : 0 < c.request.bytes
  bytes_lt : c.request.bytes < 2 ^ 64
  fresh : ∀ size, s.arena.blockSize c.request.size = some size →
    Fresh s.arena.blocks c.fresh size

/-- The calls ask for at least one byte, and `new` gives them fresh memory. -/
def Admissible (mte : Bool) : Served → List Call → Prop
  | _, [] => True
  | s, c :: cs => Suitable s c ∧ ∀ s', s.serve mte c = .ok s' → Admissible mte s' cs

/-- No assertion fails in the calls, and after each of them everything is well allocated. -/
def Conforms (mte : Bool) : Served → List Call → Prop
  | s, [] => WellAllocated s
  | s, c :: cs => WellAllocated s ∧ ∃ s', s.serve mte c = .ok s' ∧ Conforms mte s' cs

/-- A request of `AllocateAligned` is a multiple of 8, and if it fits into the current block, that
block is used up to a multiple of 16. -/
def Careful (s : Served) : Request → Prop
  | .allocate _ => True
  | .allocateAligned bytes =>
    bytes % 8 = 0 ∧ bytes + bytes % 16 < 2 ^ 64 ∧
      (bytes + bytes % 16 ≤ s.arena.allocBytesRemaining → s.arena.allocPtr % 16 = 0)

def AllCareful (mte : Bool) : Served → List Call → Prop
  | _, [] => True
  | s, c :: cs => Careful s c.request ∧ ∀ s', s.serve mte c = .ok s' → AllCareful mte s' cs

/-! ## What a call takes -/

/-- `size` bytes are taken from the arena, at `ptr`. -/
inductive Takes (s : Arena) (fresh size : Nat) : Nat → Arena → Prop
  | front (h : size ≤ s.allocBytesRemaining) (hnone : s.blockSize size = none) :
      Takes s fresh size s.allocPtr (s.takeFront size).2
  | own (usage : Nat) (hsize : s.blockSize size = some size) :
      Takes s fresh size fresh
        { s with blocks := ⟨fresh, size⟩ :: s.blocks, memoryUsage := usage }
  | next (usage : Nat) (hsize : s.blockSize size = some kBlockSize) (hle : size ≤ kBlockSize) :
      Takes s fresh size fresh
        ⟨fresh + size, kBlockSize - size, ⟨fresh, kBlockSize⟩ :: s.blocks, usage⟩

variable {arena arena' : Arena} {fresh size ptr bytes : Nat} {mte : Bool}

lemma allocateFallback_eq (hlt : ¬size ≤ arena.allocBytesRemaining)
    (hfresh : fresh % 16 = 0) :
    ∃ ptr arena', arena.allocateFallback fresh size = .ok (ptr, arena') ∧
      arena.Takes fresh size ptr arena' := by
  have hblock : ∀ blockBytes, arena.allocateNewBlock fresh blockBytes =
      .ok (fresh, { arena with
        blocks := ⟨fresh, blockBytes⟩ :: arena.blocks
        memoryUsage := (arena.memoryUsage + (blockBytes + 8)) % 2 ^ 64 }) := by
    intro blockBytes
    rw [allocateNewBlock, if_neg (by omega)]
  set usage := fun blockBytes => (arena.memoryUsage + (blockBytes + 8)) % 2 ^ 64
  by_cases hlarge : size > kBlockSize / 4
  · refine ⟨_, _, ?_, .own (usage size) (by rw [blockSize, if_neg hlt, if_pos hlarge])⟩
    rw [allocateFallback, if_pos hlarge, hblock]
  · have hle : size ≤ kBlockSize := by
      unfold kBlockSize at hlarge ⊢
      omega
    refine ⟨_, _, ?_, .next (usage kBlockSize) (by rw [blockSize, if_neg hlt, if_neg hlarge]) hle⟩
    rw [allocateFallback, if_neg hlarge, hblock]
    change (if fresh % 16 ≠ 0 then _ else _) = _
    rw [if_neg (by omega)]
    rfl

/-- The bytes come from the front of the current block or from a new block. -/
lemma takes (arena : Arena) (size : Nat)
    (hfresh : ∀ n, arena.blockSize size = some n → fresh % 16 = 0) :
    ∃ ptr arena', (if size ≤ arena.allocBytesRemaining then .ok (arena.takeFront size)
        else arena.allocateFallback fresh size) = .ok (ptr, arena') ∧
      arena.Takes fresh size ptr arena' := by
  by_cases hle : size ≤ arena.allocBytesRemaining
  · rw [if_pos hle]
    exact ⟨_, _, rfl, .front hle (by rw [blockSize, if_pos hle])⟩
  · rw [if_neg hle]
    refine allocateFallback_eq hle ?_
    by_cases hlarge : size > kBlockSize / 4
    · exact hfresh size (by rw [blockSize, if_neg hle, if_pos hlarge])
    · exact hfresh kBlockSize (by rw [blockSize, if_neg hle, if_neg hlarge])

/-- What a call of `AllocateAligned` or `Allocate` records. -/
def Request.record (r : Request) (ptr : Nat) : Allocation :=
  match r with
  | .allocate bytes => ⟨ptr, bytes, bytes, false⟩
  | .allocateAligned bytes => ⟨ptr, bytes, needed bytes, true⟩

/-- The assertions about the pointer and the size of an aligned block. -/
def Request.Checked (mte : Bool) (ptr : Nat) : Request → Prop
  | .allocate _ => True
  | .allocateAligned bytes => ptr % 16 = 0 ∧ (mte → ptr ≠ 0 ∧ needed bytes % 16 = 0)

lemma tagResult_eq (h : ptr % 16 = 0 ∧ (mte → ptr ≠ 0 ∧ size % 16 = 0)) :
    tagResult mte ptr size = .ok ptr := by
  unfold tagResult tagPointer
  cases mte with
  | false => rw [if_neg (not_not.mpr h.1), if_neg Bool.false_ne_true]
  | true =>
    obtain ⟨hnull, hsize⟩ := h.2 rfl
    rw [if_neg (not_not.mpr h.1), if_pos rfl, if_neg hnull, if_neg (not_not.mpr hsize)]

lemma tagResult_error (h : ¬(ptr % 16 = 0 ∧ (mte → ptr ≠ 0 ∧ size % 16 = 0))) :
    ∃ a, tagResult mte ptr size = .error a := by
  unfold tagResult tagPointer
  by_cases haligned : ptr % 16 = 0
  · cases mte with
    | false => exact absurd ⟨haligned, fun hfalse => absurd hfalse Bool.false_ne_true⟩ h
    | true =>
      rw [if_neg (not_not.mpr haligned), if_pos rfl]
      by_cases hnull : ptr = 0
      · rw [if_pos hnull]
        exact ⟨_, rfl⟩
      · have hsize : size % 16 ≠ 0 := fun hsize => h ⟨haligned, fun _ => ⟨hnull, hsize⟩⟩
        rw [if_neg hnull, if_pos hsize]
        exact ⟨_, rfl⟩
  · rw [if_pos haligned]
    exact ⟨_, rfl⟩

/-- A call takes its bytes, and it returns if the assertions hold. -/
lemma Served.serve_eq {s : Served} {c : Call} (mte : Bool) (h : Suitable s c) :
    ∃ ptr arena', s.arena.Takes c.fresh c.request.size ptr arena' ∧
      (c.request.Checked mte ptr → s.serve mte c = .ok ⟨arena', c.request.record ptr :: s.log⟩) ∧
      (¬c.request.Checked mte ptr → ∃ a, s.serve mte c = .error a) := by
  obtain ⟨r, fresh⟩ := c
  cases r with
  | allocate bytes =>
    have hpos : bytes ≠ 0 := Nat.pos_iff_ne_zero.mp h.bytes_pos
    obtain ⟨ptr, arena', heq, htakes⟩ :=
      takes s.arena bytes (fun n hn => (h.fresh n hn).aligned)
    refine ⟨ptr, arena', htakes, fun _ => ?_, fun hnot => absurd trivial hnot⟩
    simp only [serve, allocate, if_neg hpos, heq]
    rfl
  | allocateAligned bytes =>
    obtain ⟨ptr, arena', heq, htakes⟩ :=
      takes s.arena (needed bytes) (fun n hn => (h.fresh n hn).aligned)
    refine ⟨ptr, arena', htakes, ?_⟩
    have hserve : s.serve mte ⟨.allocateAligned bytes, fresh⟩ =
        (tagResult mte ptr (needed bytes) >>= fun result =>
          .ok ⟨arena', ⟨result, bytes, needed bytes, true⟩ :: s.log⟩) := by
      simp only [serve, allocateAligned, heq]
      change (tagResult mte ptr (needed bytes) >>= fun result =>
        .ok (result, arena')) >>= _ = _
      rw [bind_assoc]
      rfl
    rw [hserve]
    refine ⟨fun h => ?_, fun h => ?_⟩
    · rw [tagResult_eq h]
      rfl
    · obtain ⟨a, ha⟩ := tagResult_error h
      exact ⟨a, by rw [ha]; rfl⟩

/-! ## The invariant -/

/-- What holds of the blocks in every run. -/
structure BlocksSound (blocks : List Block) : Prop where
  fresh : ∀ b ∈ blocks, b.base % 16 = 0 ∧ 0 < b.base ∧ b.base + b.size < 2 ^ 64
  apart : blocks.Pairwise (fun a b => Apart b.base b.size a.base a.size)

lemma BlocksSound.cons {blocks : List Block} {base : Nat} (hb : BlocksSound blocks)
    (h : Fresh blocks base size) : BlocksSound (⟨base, size⟩ :: blocks) := by
  refine ⟨fun b hmem => ?_, List.pairwise_cons.mpr ⟨h.apart, hb.apart⟩⟩
  rcases List.mem_cons.mp hmem with rfl | hmem
  · exact ⟨h.aligned, h.not_null, h.fits⟩
  · exact hb.fresh b hmem

lemma Takes.blocks (ht : arena.Takes fresh size ptr arena') (hb : BlocksSound arena.blocks)
    (hfresh : ∀ n, arena.blockSize size = some n → Fresh arena.blocks fresh n) :
    BlocksSound arena'.blocks := by
  cases ht with
  | front h hnone => exact hb
  | own usage hsize => exact hb.cons (hfresh _ hsize)
  | next usage hsize hle => exact hb.cons (hfresh _ hsize)

/-- The allocations lie apart in the blocks, with all that is set aside for them. -/
structure Tiled (s : Served) : Prop where
  blocks : BlocksSound s.arena.blocks
  inBlock : ∀ a ∈ s.log, ∃ b ∈ s.arena.blocks, b.base ≤ a.ptr ∧ a.ptr + a.size ≤ b.base + b.size
  disjoint : s.log.Pairwise (fun a b => Apart a.ptr a.size b.ptr b.size)
  tail : s.arena.allocPtr = 0 ∧ s.arena.allocBytesRemaining = 0 ∨
    ∃ b ∈ s.arena.blocks, b.base ≤ s.arena.allocPtr ∧
      s.arena.allocPtr + s.arena.allocBytesRemaining = b.base + b.size
  unused : ∀ a ∈ s.log, Apart a.ptr a.size s.arena.allocPtr s.arena.allocBytesRemaining
  bytes_le : ∀ a ∈ s.log, a.bytes ≤ a.size
  aligned : ∀ a ∈ s.log, a.aligned → a.ptr % 16 = 0 ∧ a.size % 16 = 0

lemma tiled_init : Tiled Served.init :=
  ⟨⟨fun _ h => absurd h List.not_mem_nil, List.Pairwise.nil⟩,
    fun _ h => absurd h List.not_mem_nil, List.Pairwise.nil, Or.inl ⟨rfl, rfl⟩,
    fun _ h => absurd h List.not_mem_nil, fun _ h => absurd h List.not_mem_nil,
    fun _ h => absurd h List.not_mem_nil⟩

/-- What the arena takes lies in a block, apart from all that it has taken before. -/
lemma Tiled.takes {s : Served} (hs : Tiled s) (ht : s.arena.Takes fresh size ptr arena')
    (hfresh : ∀ n, s.arena.blockSize size = some n → Fresh s.arena.blocks fresh n)
    (hpos : 0 < size) {al : Allocation} (hptr : al.ptr = ptr) (hsize : al.size = size)
    (hbytes : al.bytes ≤ size) (haligned : al.aligned → ptr % 16 = 0 ∧ size % 16 = 0) :
    Tiled ⟨arena', al :: s.log⟩ := by
  have hblocks := ht.blocks hs.blocks hfresh
  -- a block that is fresh lies apart from all ranges of the older ones
  have hnew : ∀ n, s.arena.blockSize size = some n → ∀ p m,
      (∃ b ∈ s.arena.blocks, b.base ≤ p ∧ p + m ≤ b.base + b.size) → Apart fresh n p m := by
    rintro n hn p m ⟨b, hb, hlo, hhi⟩
    have hapart := (hfresh n hn).apart b hb
    unfold Apart at hapart ⊢
    omega
  have hbytes' : ∀ a ∈ al :: s.log, a.bytes ≤ a.size :=
    List.forall_mem_cons.mpr ⟨by rwa [hsize], hs.bytes_le⟩
  have haligned' : ∀ a ∈ al :: s.log, a.aligned → a.ptr % 16 = 0 ∧ a.size % 16 = 0 :=
    List.forall_mem_cons.mpr ⟨by rwa [hptr, hsize], hs.aligned⟩
  have hlog : ∀ n, s.arena.blockSize size = some n → size ≤ n → al.ptr = fresh →
      (∀ a ∈ al :: s.log, ∃ b ∈ ⟨fresh, n⟩ :: s.arena.blocks,
        b.base ≤ a.ptr ∧ a.ptr + a.size ≤ b.base + b.size) ∧
      (al :: s.log).Pairwise (fun a b => Apart a.ptr a.size b.ptr b.size) := by
    intro n hn hle hal
    refine ⟨List.forall_mem_cons.mpr ⟨⟨_, List.mem_cons_self, hal.ge, ?_⟩, fun a ha => ?_⟩,
      List.pairwise_cons.mpr ⟨fun a ha => ?_, hs.disjoint⟩⟩
    · rw [hal, hsize]
      exact Nat.add_le_add_left hle fresh
    · obtain ⟨b, hb, hrange⟩ := hs.inBlock a ha
      exact ⟨b, List.mem_cons_of_mem _ hb, hrange⟩
    · have hapart := hnew n hn a.ptr a.size (hs.inBlock a ha)
      rw [hal, hsize]
      unfold Apart at hapart ⊢
      omega
  cases ht with
  | front hle hnone =>
    obtain ⟨b, hb, hlo, hhi⟩ : ∃ b ∈ s.arena.blocks, b.base ≤ s.arena.allocPtr ∧
        s.arena.allocPtr + s.arena.allocBytesRemaining = b.base + b.size :=
      hs.tail.resolve_left (fun h => by omega)
    refine ⟨hblocks, List.forall_mem_cons.mpr ⟨⟨b, hb, ?_, ?_⟩, hs.inBlock⟩,
      List.pairwise_cons.mpr ⟨fun a ha => ?_, hs.disjoint⟩, Or.inr ⟨b, hb, ?_, ?_⟩,
      List.forall_mem_cons.mpr ⟨?_, fun a ha => ?_⟩, hbytes', haligned'⟩
    · rwa [hptr]
    · rw [hptr, hsize]
      omega
    · have hunused := hs.unused a ha
      rw [hptr, hsize]
      unfold Apart at hunused ⊢
      omega
    · exact hlo.trans (Nat.le_add_right _ _)
    · change s.arena.allocPtr + size + (s.arena.allocBytesRemaining - size) = _
      omega
    · rw [hptr, hsize]
      exact Or.inl le_rfl
    · have hunused := hs.unused a ha
      change Apart _ _ (s.arena.allocPtr + size) (s.arena.allocBytesRemaining - size)
      unfold Apart at hunused ⊢
      omega
  | own usage hblock =>
    obtain ⟨hin, hpair⟩ := hlog size hblock le_rfl hptr
    refine ⟨hblocks, hin, hpair, ?_, List.forall_mem_cons.mpr ⟨?_, hs.unused⟩, hbytes', haligned'⟩
    · rcases hs.tail with hnull | ⟨b, hb, htail⟩
      · exact Or.inl hnull
      · exact Or.inr ⟨b, List.mem_cons_of_mem _ hb, htail⟩
    · rw [hptr, hsize]
      rcases hs.tail with ⟨hnull, hzero⟩ | ⟨b, hb, hlo, hhi⟩
      · exact Or.inr (by simp only [hnull, hzero, Nat.zero_add, Nat.zero_le])
      · exact hnew size hblock _ _ ⟨b, hb, hlo, hhi.le⟩
  | next usage hblock hle =>
    obtain ⟨hin, hpair⟩ := hlog kBlockSize hblock hle hptr
    refine ⟨hblocks, hin, hpair, Or.inr ⟨_, List.mem_cons_self, ?_, ?_⟩,
      List.forall_mem_cons.mpr ⟨?_, fun a ha => ?_⟩, hbytes', haligned'⟩
    · exact Nat.le_add_right fresh size
    · change fresh + size + (kBlockSize - size) = fresh + kBlockSize
      omega
    · rw [hptr, hsize]
      exact Or.inl le_rfl
    · have hapart := hnew kBlockSize hblock a.ptr a.size (hs.inBlock a ha)
      change Apart _ _ (fresh + size) (kBlockSize - size)
      unfold Apart at hapart ⊢
      omega

/-- Ranges that lie apart share no granule when one of them consists of granules. -/
lemma noSharedGranule {p n q m : Nat} (h : Apart p n q m)
    (haligned : p % 16 = 0 ∧ n % 16 = 0 ∨ q % 16 = 0 ∧ m % 16 = 0) : NoSharedGranule p n q m := by
  intro x y hpx hxn hqy hym heq
  unfold Apart at h
  omega

lemma Tiled.wellAllocated {s : Served} (hs : Tiled s) : WellAllocated s := by
  refine ⟨fun a ha => ?_, ?_, hs.tail, fun a ha => ?_, hs.aligned, ?_⟩
  · obtain ⟨b, hb, hlo, hhi⟩ := hs.inBlock a ha
    have hle := hs.bytes_le a ha
    exact ⟨b, hb, hlo, by omega⟩
  · refine hs.disjoint.imp_of_mem (fun {a b} ha hb hapart => ?_)
    have hle := hs.bytes_le a ha
    have hle' := hs.bytes_le b hb
    unfold Apart at hapart ⊢
    omega
  · have hle := hs.bytes_le a ha
    have hapart := hs.unused a ha
    unfold Apart at hapart ⊢
    omega
  · refine hs.disjoint.imp_of_mem (fun {a b} ha hb hapart h => ?_)
    exact noSharedGranule hapart (h.imp (hs.aligned a ha) (hs.aligned b hb))

/-! ## The calls -/

lemma needed_eq (h : bytes + bytes % 16 < 2 ^ 64) : needed bytes = bytes + bytes % 16 :=
  Nat.mod_eq_of_lt h

/-- The pointer is that of the current block or of a fresh one. -/
lemma Takes.ptr_eq (ht : arena.Takes fresh size ptr arena') :
    size ≤ arena.allocBytesRemaining ∧ ptr = arena.allocPtr ∨
      (∃ n, arena.blockSize size = some n) ∧ ptr = fresh := by
  cases ht with
  | front h hnone => exact Or.inl ⟨h, rfl⟩
  | own usage hsize => exact Or.inr ⟨⟨_, hsize⟩, rfl⟩
  | next usage hsize hle => exact Or.inr ⟨⟨_, hsize⟩, rfl⟩

lemma blockSize_none (h : size ≤ arena.allocBytesRemaining) :
    arena.blockSize size = none := by
  rw [blockSize, if_pos h]

/-- The assertions hold for a careful request. -/
lemma Careful.checked {s : Served} {c : Call} (mte : Bool) (hc : Careful s c.request)
    (hs : Tiled s) (h : Suitable s c) (ht : s.arena.Takes c.fresh c.request.size ptr arena') :
    c.request.Checked mte ptr := by
  obtain ⟨r, fresh⟩ := c
  cases r with
  | allocate bytes => trivial
  | allocateAligned bytes =>
    obtain ⟨hmod, hlt, haligned⟩ := hc
    have hpos : 0 < bytes := h.bytes_pos
    have hsize : needed bytes = bytes + bytes % 16 := needed_eq hlt
    have hptr : ptr % 16 = 0 ∧ ptr ≠ 0 := by
      rcases ht.ptr_eq with ⟨hle, hptr⟩ | ⟨⟨n, hn⟩, hptr⟩
      · rw [Request.size, hsize] at hle
        rcases hs.tail with hnull | ⟨b, hb, hlo, hhi⟩
        · omega
        · have hbase := (hs.blocks.fresh b hb).2.1
          exact ⟨hptr ▸ haligned hle, by omega⟩
      · have hfresh := h.fresh n hn
        exact ⟨hptr ▸ hfresh.aligned, hptr ▸ hfresh.not_null.ne'⟩
    exact ⟨hptr.1, fun _ => ⟨hptr.2, by omega⟩⟩

/-- A careful call returns and keeps everything well allocated. -/
lemma Tiled.serve {s : Served} {c : Call} (mte : Bool) (hs : Tiled s) (h : Suitable s c)
    (hc : Careful s c.request) : ∃ s', s.serve mte c = .ok s' ∧ Tiled s' := by
  obtain ⟨ptr, arena', htakes, hok, -⟩ := Served.serve_eq mte h
  have hchecked := hc.checked true hs h htakes
  refine ⟨_, hok (hc.checked mte hs h htakes), ?_⟩
  have hpos := h.bytes_pos
  obtain ⟨r, fresh⟩ := c
  cases r with
  | allocate bytes =>
    exact hs.takes htakes h.fresh hpos rfl rfl le_rfl (fun hfalse => by cases hfalse)
  | allocateAligned bytes =>
    have hsize : needed bytes = bytes + bytes % 16 := needed_eq hc.2.1
    have hle : bytes ≤ needed bytes := by omega
    exact hs.takes htakes h.fresh (lt_of_lt_of_le hpos hle) rfl rfl hle
      (fun _ => ⟨hchecked.1, (hchecked.2 rfl).2⟩)

/-- A call after which everything is well allocated was careful. -/
lemma WellAllocated.careful {s s' : Served} {c : Call} (hb : BlocksSound s.arena.blocks)
    (h : Suitable s c) (hserve : s.serve mte c = .ok s') (hw : WellAllocated s') :
    Careful s c.request ∧ BlocksSound s'.arena.blocks := by
  obtain ⟨ptr, arena', htakes, hok, herror⟩ := Served.serve_eq mte h
  have hchecked : c.request.Checked mte ptr := by
    by_contra hnot
    obtain ⟨a, ha⟩ := herror hnot
    rw [hserve] at ha
    cases ha
  rw [hok hchecked, Except.ok.injEq] at hserve
  subst hserve
  have hblocks := htakes.blocks hb h.fresh
  refine ⟨?_, hblocks⟩
  obtain ⟨r, fresh⟩ := c
  cases r with
  | allocate bytes => trivial
  | allocateAligned bytes =>
    obtain ⟨b, hmem, hlo, hhi⟩ := hw.inBlock _ List.mem_cons_self
    obtain ⟨hptr, hmod⟩ := hw.aligned _ List.mem_cons_self rfl
    have hbase := hblocks.fresh b hmem
    change b.base ≤ ptr at hlo
    change ptr + bytes ≤ _ at hhi
    have hlt : bytes + bytes % 16 < 2 ^ 64 := by omega
    have hsize : needed bytes = bytes + bytes % 16 := needed_eq hlt
    change needed bytes % 16 = 0 at hmod
    refine ⟨by omega, hlt, fun hle => ?_⟩
    rcases htakes.ptr_eq with ⟨-, heq⟩ | ⟨⟨n, hn⟩, -⟩
    · exact heq ▸ hptr
    · rw [Request.size, hsize, blockSize_none hle] at hn
      cases hn

lemma Tiled.conforms {calls : List Call} {s : Served} (hs : Tiled s) (h : Admissible mte s calls)
    (hc : AllCareful mte s calls) : Conforms mte s calls := by
  induction calls generalizing s with
  | nil => exact hs.wellAllocated
  | cons c calls ih =>
    obtain ⟨s', hserve, hs'⟩ := hs.serve mte h.1 hc.1
    exact ⟨hs.wellAllocated, s', hserve, ih hs' (h.2 s' hserve) (hc.2 s' hserve)⟩

lemma Conforms.wellAllocated {calls : List Call} {s : Served} (h : Conforms mte s calls) :
    WellAllocated s := by
  cases calls with
  | nil => exact h
  | cons c calls => exact h.1

lemma Conforms.allCareful {calls : List Call} {s : Served} (hb : BlocksSound s.arena.blocks)
    (h : Admissible mte s calls) (hc : Conforms mte s calls) : AllCareful mte s calls := by
  induction calls generalizing s with
  | nil => trivial
  | cons c calls ih =>
    obtain ⟨-, s', hserve, hrest⟩ := hc
    obtain ⟨hcareful, hblocks⟩ := hrest.wellAllocated.careful hb h.1 hserve
    refine ⟨hcareful, fun t ht => ?_⟩
    rw [hserve, Except.ok.injEq] at ht
    subst ht
    exact ih hblocks (h.2 s' hserve) hrest

/-- With fresh memory from `new`, the arena allocates well in every call and no assertion fails
exactly if every request of `AllocateAligned` is a multiple of 8 that finds the current block used
up to a multiple of 16. -/
theorem conforms_iff (mte : Bool) (calls : List Call)
    (h : Admissible mte Served.init calls) :
    Conforms mte Served.init calls ↔ AllCareful mte Served.init calls :=
  ⟨fun hc => hc.allCareful tiled_init.blocks h, tiled_init.conforms h⟩

lemma suitable_next {s : Served} {r : Request} {fresh : Nat} (hpos : 0 < r.bytes)
    (hlt : r.bytes < 2 ^ 64) (hsize : s.arena.blockSize r.size = some kBlockSize)
    (hfresh : Fresh s.arena.blocks fresh kBlockSize) : Suitable s ⟨r, fresh⟩ := by
  refine ⟨hpos, hlt, fun size h => ?_⟩
  rw [hsize, Option.some_inj] at h
  exact h ▸ hfresh

lemma suitable_front {s : Served} {r : Request} {fresh : Nat} (hpos : 0 < r.bytes)
    (hlt : r.bytes < 2 ^ 64) (hsize : s.arena.blockSize r.size = none) :
    Suitable s ⟨r, fresh⟩ := by
  refine ⟨hpos, hlt, fun size h => ?_⟩
  rw [hsize] at h
  cases h

lemma fresh_first {base : Nat} (haligned : base % 16 = 0) (hpos : 0 < base)
    (hlt : base + kBlockSize < 2 ^ 64) : Fresh [] base kBlockSize :=
  ⟨haligned, hpos, hlt, fun _ h => absurd h List.not_mem_nil⟩

/-- An aligned block of 24 bytes, for which 32 are taken, and three more bytes. -/
theorem alignedThenBytes_conforms :
    Conforms true Served.init [⟨.allocateAligned 24, 4096⟩, ⟨.allocate 3, 0⟩] := by
  have hfirst : Suitable Served.init ⟨.allocateAligned 24, 4096⟩ :=
    suitable_next (by decide) (by decide) rfl (fresh_first (by decide) (by decide) (by decide))
  have hcalls : Admissible true Served.init [⟨.allocateAligned 24, 4096⟩, ⟨.allocate 3, 0⟩] := by
    refine ⟨hfirst, fun s hs => ⟨?_, fun _ _ => trivial⟩⟩
    obtain rfl := Except.ok.inj hs
    exact suitable_front (by decide) (by decide) rfl
  refine (conforms_iff true _ hcalls).mpr ⟨⟨by decide, by decide, ?_⟩, fun _ _ => ?_⟩
  · exact fun h => absurd h (by decide)
  · exact ⟨trivial, fun _ _ => trivial⟩

/-- Two bytes are taken for an aligned block of one byte, and the next aligned block starts right
behind them; in an MTE build the first call fails already. -/
theorem oneByteThenSixteen_not_conforms :
    ∃ calls, (Admissible true Served.init calls ∧ ¬Conforms true Served.init calls) ∧
      Admissible false Served.init calls ∧ ¬Conforms false Served.init calls := by
  have hfirst : Suitable Served.init ⟨.allocateAligned 1, 4096⟩ :=
    suitable_next (by decide) (by decide) rfl (fresh_first (by decide) (by decide) (by decide))
  refine ⟨[⟨.allocateAligned 1, 4096⟩, ⟨.allocateAligned 16, 0⟩], ⟨⟨hfirst, ?_⟩, ?_⟩,
    ⟨hfirst, fun s hs => ⟨?_, fun _ _ => trivial⟩⟩, ?_⟩
  · intro s hs
    cases hs
  · rintro ⟨-, s, hs, -⟩
    cases hs
  · obtain rfl := Except.ok.inj hs
    exact suitable_front (by decide) (by decide) rfl
  · rintro ⟨-, s, hs, -, t, ht, -⟩
    obtain rfl := Except.ok.inj hs
    cases ht

end Arena
end MemSafeDB.SkipList
