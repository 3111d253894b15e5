import Mathlib.Data.BitVec

/-!
# The processor's view of memory

What a program of the Nios processor reads and writes: on-chip memory, a window
into DDR whose physical base is held by the address span extender, and the
registers of one DMA engine, which may do anything to both memories whenever one
of its registers is accessed.  Bit 31 of an address bypasses the data cache and is
not decoded; caches are flushed before every transfer and are left out.

Memories are addressed by words; `windowWord b k` is the word that the processor
sees `k` words above the start of the window.
-/

namespace VideoProcessing

/-- The memories that the processor shares with the engine: on-chip memory by bus
address, DDR by physical address. -/
structure SharedMemory where
  ocm : BitVec 30 → BitVec 32
  ddr : BitVec 30 → BitVec 32

/-- A DMA engine behind its CSR slave: what it does to its own state and to memory
until a register access has returned. -/
structure DmaEngine (σ : Type) where
  iowr : BitVec 32 → BitVec 32 → σ × SharedMemory → σ × SharedMemory
  iord : BitVec 32 → σ × SharedMemory → BitVec 32 × (σ × SharedMemory)

/-- The span extender's control register, the memories and the state of the
engine. -/
structure Board (σ : Type) where
  window : BitVec 32
  mem : SharedMemory
  dma : σ

/-- The word a byte address lies in. -/
def wordOf (a : BitVec 32) : BitVec 30 := a.extractLsb' 2 30

/-- `CACHE_BYPASS_MASK`. -/
def cacheBypassMask : BitVec 32 := 0x80000000

/-- `ADDRESS_SPAN_EXTENDER_0_WINDOWED_SLAVE_BASE`. -/
def windowedSlaveBase : BitVec 32 := 0x8000000

/-- `DDR3_WINDOW_BASE`. -/
def ddr3WindowBase : BitVec 32 := windowedSlaveBase ||| cacheBypassMask

/-- The bytes of on-chip memory. -/
def ocmSpan : Nat := 0x186A0

/-- The bytes of the window. -/
def windowSpan : Nat := 0x8000000

/-- `&p[i]` for a pointer to words. -/
def index (p : BitVec 32) (i : Nat) : BitVec 32 := p + BitVec.ofNat 32 (4 * i)

/-- The slave that a data access selects. -/
inductive Target
  | ocm (word : BitVec 30)
  | ddr (word : BitVec 30)
  | other
deriving DecidableEq

/-- Without bit 31. -/
theorem toNat_and_not_mask (a : BitVec 32) :
    (a &&& ~~~cacheBypassMask).toNat = a.toNat % 2 ^ 31 := by
  have hmask : (~~~cacheBypassMask).toNat = 2 ^ 31 - 1 := by decide
  rw [BitVec.toNat_and, hmask, Nat.and_two_pow_sub_one_eq_mod]

/-- Elements of an array are consecutive words. -/
theorem wordOf_index (p : BitVec 32) (i : Nat) :
    wordOf (index p i) = wordOf p + BitVec.ofNat 30 i := by
  rw [← BitVec.toNat_inj]
  simp only [wordOf, index, BitVec.extractLsb'_toNat, BitVec.toNat_add, BitVec.toNat_ofNat,
    Nat.shiftRight_eq_div_pow]
  omega

/-- A pointer moved up by whole words. -/
theorem index_add (p : BitVec 32) (n i : Nat) :
    index (p + BitVec.ofNat 32 (4 * n)) i = index p (n + i) := by
  rw [index, index, BitVec.add_assoc, ← BitVec.ofNat_add, ← Nat.mul_add]

variable {σ : Type}

namespace Board

/-- The address map of the data master; the window is mapped at its base plus the
offset. -/
def decode (b : Board σ) (a : BitVec 32) : Target :=
  let bus := a &&& ~~~cacheBypassMask
  if bus.toNat < ocmSpan then .ocm (wordOf bus)
  else if windowedSlaveBase.toNat ≤ bus.toNat ∧
      bus.toNat < windowedSlaveBase.toNat + windowSpan then
    .ddr (wordOf (b.window + (bus - windowedSlaveBase)))
  else .other

/-- `v = *p`; slaves without memory are not read by the programs. -/
def load (b : Board σ) (a : BitVec 32) : BitVec 32 :=
  match b.decode a with
  | .ocm w => b.mem.ocm w
  | .ddr w => b.mem.ddr w
  | .other => 0

/-- `*p = v`. -/
def store (b : Board σ) (a v : BitVec 32) : Board σ :=
  match b.decode a with
  | .ocm w => { b with mem := { b.mem with ocm := Function.update b.mem.ocm w v } }
  | .ddr w => { b with mem := { b.mem with ddr := Function.update b.mem.ddr w v } }
  | .other => b

/-- `IOWR_32DIRECT(csr_base, reg, v)`. -/
def iowr32Direct (e : DmaEngine σ) (b : Board σ) (reg v : BitVec 32) : Board σ :=
  let w := e.iowr reg v (b.dma, b.mem)
  { b with dma := w.1, mem := w.2 }

/-- `IORD_32DIRECT(csr_base, reg)`. -/
def iord32Direct (e : DmaEngine σ) (b : Board σ) (reg : BitVec 32) : BitVec 32 × Board σ :=
  let r := e.iord reg (b.dma, b.mem)
  (r.1, { b with dma := r.2.1, mem := r.2.2 })

/-- The word `k` words above the start of the window. -/
def windowWord (b : Board σ) (k : Nat) : BitVec 32 :=
  b.mem.ddr (wordOf b.window + BitVec.ofNat 30 k)

/-- The board with other contents of memory. -/
def withMem (b : Board σ) (m : SharedMemory) : Board σ := { b with mem := m }

variable (b : Board σ)

@[simp] theorem window_withMem (m : SharedMemory) : (b.withMem m).window = b.window := rfl

@[simp] theorem mem_withMem (m : SharedMemory) : (b.withMem m).mem = m := rfl

theorem windowWord_withMem (m : SharedMemory) (k : Nat) :
    (b.withMem m).windowWord k = m.ddr (wordOf b.window + BitVec.ofNat 30 k) := rfl

/-- A word of the window is decoded to DDR. -/
theorem decode_window {k : Nat} (hk : k < 2 ^ 25) :
    b.decode (index ddr3WindowBase k) = .ddr (wordOf b.window + BitVec.ofNat 30 k) := by
  have hslave : windowedSlaveBase.toNat = 0x8000000 := by decide
  have hnat : (windowedSlaveBase + BitVec.ofNat 32 (4 * k)).toNat = 0x8000000 + 4 * k := by
    rw [BitVec.toNat_add, BitVec.toNat_ofNat, hslave]
    omega
  have hbus : index ddr3WindowBase k &&& ~~~cacheBypassMask =
      windowedSlaveBase + BitVec.ofNat 32 (4 * k) := by
    have hbase : ddr3WindowBase.toNat = 0x88000000 := by decide
    rw [← BitVec.toNat_inj, toNat_and_not_mask, hnat, index, BitVec.toNat_add,
      BitVec.toNat_ofNat, hbase]
    omega
  rw [decode, hbus, hnat, hslave, if_neg (by rw [ocmSpan]; omega),
    if_pos (by rw [windowSpan]; omega), BitVec.add_comm windowedSlaveBase,
    BitVec.add_sub_cancel]
  exact congrArg Target.ddr (wordOf_index b.window k)

/-- A word of on-chip memory is decoded to itself. -/
theorem decode_ocm {a : BitVec 32} (ha : a.toNat < ocmSpan) :
    b.decode a = .ocm (wordOf a) := by
  have hbus : a &&& ~~~cacheBypassMask = a := by
    rw [ocmSpan] at ha
    rw [← BitVec.toNat_inj, toNat_and_not_mask]
    omega
  rw [decode, hbus, if_pos ha]

/-- No store moves the window. -/
@[simp] theorem window_store (a v : BitVec 32) : (b.store a v).window = b.window := by
  rw [store]
  cases b.decode a <;> rfl

/-- No store reaches the engine. -/
@[simp] theorem dma_store (a v : BitVec 32) : (b.store a v).dma = b.dma := by
  rw [store]
  cases b.decode a <;> rfl

/-- Reading the window. -/
theorem load_window {k : Nat} (hk : k < 2 ^ 25) :
    b.load (index ddr3WindowBase k) = b.windowWord k := by
  rw [load, b.decode_window hk]
  rfl

/-- What a store into the window changes. -/
theorem store_window {k : Nat} (hk : k < 2 ^ 25) (v : BitVec 32) :
    b.store (index ddr3WindowBase k) v =
      { b with mem := { b.mem with
          ddr := Function.update b.mem.ddr (wordOf b.window + BitVec.ofNat 30 k) v } } := by
  rw [store, b.decode_window hk]

/-- Reading on-chip memory. -/
theorem load_ocm {a : BitVec 32} (ha : a.toNat < ocmSpan) :
    b.load a = b.mem.ocm (wordOf a) := by
  rw [load, b.decode_ocm ha]

/-- What a store into on-chip memory changes. -/
theorem store_ocm {a : BitVec 32} (ha : a.toNat < ocmSpan) (v : BitVec 32) :
    b.store a v =
      { b with mem := { b.mem with ocm := Function.update b.mem.ocm (wordOf a) v } } := by
  rw [store, b.decode_ocm ha]

/-- A store into the window changes one word of DDR. -/
theorem ddr_store_window {k : Nat} (hk : k < 2 ^ 25) (v : BitVec 32) (w : BitVec 30) :
    (b.store (index ddr3WindowBase k) v).mem.ddr w =
      if (w - wordOf b.window).toNat = k then v else b.mem.ddr w := by
  have hiff : w = wordOf b.window + BitVec.ofNat 30 k ↔
      (w - wordOf b.window).toNat = k := by
    rw [← BitVec.toNat_inj, BitVec.toNat_sub, BitVec.toNat_add, BitVec.toNat_ofNat]
    omega
  rw [b.store_window hk]
  change Function.update b.mem.ddr _ v w = _
  rw [Function.update_apply]
  simp only [hiff]

/-- Words of the window are apart. -/
theorem windowWord_store_window {j k : Nat} (hj : j < 2 ^ 25) (hk : k < 2 ^ 25)
    (v : BitVec 32) :
    (b.store (index ddr3WindowBase k) v).windowWord j = if j = k then v else b.windowWord j := by
  have hplace : (wordOf b.window + BitVec.ofNat 30 j - wordOf b.window).toNat = j := by
    rw [BitVec.add_comm, BitVec.add_sub_cancel, BitVec.toNat_ofNat]
    omega
  rw [windowWord, window_store, b.ddr_store_window hk, hplace]
  rfl

/-- A store into on-chip memory leaves DDR. -/
theorem ddr_store_ocm {a : BitVec 32} (ha : a.toNat < ocmSpan) (v : BitVec 32) :
    (b.store a v).mem.ddr = b.mem.ddr := by
  rw [b.store_ocm ha]

/-- A store into the window leaves on-chip memory. -/
theorem ocm_store_window {k : Nat} (hk : k < 2 ^ 25) (v : BitVec 32) :
    (b.store (index ddr3WindowBase k) v).mem.ocm = b.mem.ocm := by
  rw [b.store_window hk]

/-- Elements of an array in on-chip memory are apart. -/
theorem ocm_store_ocm {p : BitVec 32} {i j : Nat} (hi : i < 2 ^ 30) (hj : j < 2 ^ 30)
    (hp : (index p i).toNat < ocmSpan) (v : BitVec 32) :
    (b.store (index p i) v).mem.ocm (wordOf (index p j)) =
      if j = i then v else b.mem.ocm (wordOf (index p j)) := by
  rw [b.store_ocm hp]
  change Function.update b.mem.ocm _ v (wordOf (index p j)) = _
  have hiff : wordOf (index p j) = wordOf (index p i) ↔ j = i := by
    rw [wordOf_index, wordOf_index, ← BitVec.toNat_inj]
    simp only [BitVec.toNat_add, BitVec.toNat_ofNat]
    omega
  rw [Function.update_apply]
  simp only [hiff]

end Board
end VideoProcessing
