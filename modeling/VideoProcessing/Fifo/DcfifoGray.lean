import VideoProcessing.Fifo.DcfifoQueue

/-!
# The Gray-code laws behind the flags of `simple_dcfifo`

`bin2gray` and the decoding loop of `gray2bin` are inverse to each other, an
increment changes one bit of the code, and the two comparisons of codes decide
what they are meant to decide: `rdempty` that the pointers are equal, `wrfull`
that they are half a turn apart.  All of it holds for arbitrary pointer values,
not only for those a run reaches.
-/

namespace VideoProcessing
namespace SimpleDcfifo

open Lib

variable {dw aw : Nat}

/-- A sample of a pointer taken during an increment decodes to the old or to
the new count. -/
theorem gray2bin_sample {b sample : BitVec (aw + 1)}
    (h : ∀ i, sample.getLsbD i = (bin2gray b).getLsbD i ∨
      sample.getLsbD i = (bin2gray (b + 1)).getLsbD i) :
    gray2bin sample = b ∨ gray2bin sample = b + 1 := by
  obtain ⟨mask, rfl⟩ := Gray.exists_resolve h
  rcases Gray.resolve_encode b mask with hold | hnew
  · left
    exact (congrArg gray2bin hold).trans (gray2bin_bin2gray b)
  · right
    exact (congrArg gray2bin hnew).trans (gray2bin_bin2gray (b + 1))

/-- `wrfull` compares the write pointer with the synchronised read pointer half
a turn further. -/
theorem WrSide.wrfull_iff_sub (haw : 1 ≤ aw) {s : WrSide dw aw} {w r : BitVec (aw + 1)}
    (hw : s.wrPtrGray = bin2gray w) (hr : s.rdPtrGraySync2 = bin2gray r) :
    s.wrfull = true ↔ w - r = BitVec.twoPow (aw + 1) aw := by
  obtain ⟨m, rfl⟩ : ∃ m, aw = m + 1 := ⟨aw - 1, by omega⟩
  have hcode : s.wrfull = true ↔ w = r + BitVec.twoPow (m + 1 + 1) (m + 1) := by
    rw [WrSide.wrfull, beq_iff_eq, full_pattern haw, hw, hr, show m + 1 - 1 = m by omega,
      bin2gray_eq_encode, bin2gray_eq_encode, ← Gray.encode_add_half, Gray.encode_inj]
  rw [hcode]
  constructor
  · rintro rfl
    rw [BitVec.add_comm, BitVec.add_sub_cancel]
  · intro h
    rw [← h, BitVec.add_comm, BitVec.sub_add_cancel]

theorem toNat_half : (BitVec.twoPow (aw + 1) aw).toNat = 2 ^ aw := by
  rw [BitVec.toNat_twoPow, Nat.mod_eq_of_lt (Nat.pow_lt_pow_right (by omega) (by omega))]

/-- The Gray-code laws of `simple_dcfifo`, for every pointer width and all
pointer values. -/
theorem gray_laws (haw : 2 ≤ aw) :
    (∀ b : BitVec (aw + 1), gray2bin (bin2gray b) = b) ∧
    (∀ g : BitVec (aw + 1), bin2gray (gray2bin g) = g) ∧
    (∀ b : BitVec (aw + 1), ∃ k, k < aw + 1 ∧
      ∀ i, ((bin2gray b).getLsbD i ≠ (bin2gray (b + 1)).getLsbD i ↔ i = k)) ∧
    (∀ b sample : BitVec (aw + 1),
      (∀ i, sample.getLsbD i = (bin2gray b).getLsbD i ∨
        sample.getLsbD i = (bin2gray (b + 1)).getLsbD i) →
      gray2bin sample = b ∨ gray2bin sample = b + 1) ∧
    (∀ (s : WrSide dw aw) (w r : BitVec (aw + 1)),
      s.wrPtrGray = bin2gray w → s.rdPtrGraySync2 = bin2gray r →
      (s.wrfull = true ↔ (w - r).toNat = 2 ^ aw)) ∧
    (∀ (s : RdSide dw aw) (w r : BitVec (aw + 1)),
      s.wrPtrGraySync2 = bin2gray w → s.rdPtrGray = bin2gray r →
      (s.rdempty = true ↔ w = r)) := by
  refine ⟨gray2bin_bin2gray, bin2gray_gray2bin, fun b => Gray.encode_xor_succ b,
    fun b sample h => gray2bin_sample h, ?_, ?_⟩
  · intro s w r hw hr
    rw [WrSide.wrfull_iff_sub (by omega) hw hr, ← BitVec.toNat_inj, toNat_half]
  · intro s w r hw hr
    rw [RdSide.rdempty, beq_iff_eq, hw, hr, bin2gray_inj]
    exact eq_comm

/-- The laws at the FIFO's default width: nine address bits, and the wrap of
the ten-bit pointer from its last value to `0`. -/
theorem gray_laws_nine :
    2 ≤ 9 ∧ ∃ k, k < 10 ∧
      ∀ i, ((bin2gray (BitVec.allOnes 10)).getLsbD i ≠
        (bin2gray (BitVec.allOnes 10 + 1)).getLsbD i ↔ i = k) :=
  ⟨by decide, (@gray_laws 32 9 (by decide)).2.2.1 (BitVec.allOnes 10)⟩

end SimpleDcfifo
end VideoProcessing
