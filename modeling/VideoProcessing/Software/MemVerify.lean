import VideoProcessing.Lib.Loop
import VideoProcessing.Lib.ReadBack
import VideoProcessing.Software.Board

/-!
# The DDR test of `nios_ddr3_test`

`TMEM_Verify` writes a block of 257 words over and over, until the length is reached, and
then compares every word with the block.  Messages are left out, and so are the bytes of
a last word that the length cuts off: they are written, and never compared.

* `tmemVerify_eq`: the two loops over blocks are one pass over the words each;
* `tmemVerify_detects`: as `main` calls it, the test is passed by the memories that mix up
  only words a multiple of 257 apart, which no open or shorted address line does.
-/

namespace VideoProcessing

open Lib

namespace MemVerify

variable {M : Type} (io : Ports M (BitVec 32) (BitVec 32))

/-- `szData[i] = szData[i-1] * 13`. -/
def powers (initValue : BitVec 32) : Nat → BitVec 32
  | 0 => initValue
  | i + 1 => powers initValue i * 13

/-- `szData`; the last four words are replaced. -/
def szData (initValue : BitVec 32) (i : Nat) : BitVec 32 :=
  if i = 256 then 0xAAAAAAAA
  else if i = 255 then 0x55555555
  else if i = 254 then 0x00000000
  else if i = 253 then 0xFFFFFFFF
  else powers initValue i

/-- The variables of the two `while` loops that describe the next block. -/
structure Block where
  nAccessLen : BitVec 32
  nItemNum : BitVec 32
  nPos : BitVec 32

namespace Block

/-- Before the first block. -/
def first : Block where
  nAccessLen := 1028
  nItemNum := 257
  nPos := 0

/-- A block that is longer than what remains is cut; the comparison is one of `int`. -/
def cut (s : Block) (byteLen : BitVec 32) : Block :=
  let nRemainedLen := byteLen - s.nPos
  if nRemainedLen.slt s.nAccessLen then
    { s with nAccessLen := nRemainedLen, nItemNum := nRemainedLen.sdiv 4 }
  else s

/-- `nPos += nAccessLen`. -/
def advance (s : Block) : Block := { s with nPos := s.nPos + s.nAccessLen }

end Block

/-- `memcpy(pDes, szData, nAccessLen)`. -/
def memcpy (initValue pDes nAccessLen : BitVec 32) (mem : M) : M :=
  forLoop (nAccessLen.toNat / 4) (fun i mem => io.put mem (index pDes i) (szData initValue i)) mem

/-- `while (nPos < ByteLen)`, for at most so many blocks. -/
def writeLoop (byteLen initValue : BitVec 32) : Nat → BitVec 32 → Block → M → Option M
  | 0, _, _, _ => none
  | fuel + 1, pDes, s, mem =>
      if s.nPos.ult byteLen then
        let s := s.cut byteLen
        writeLoop byteLen initValue fuel (pDes + s.nItemNum * 4) s.advance
          (memcpy io initValue pDes s.nAccessLen mem)
      else some mem

/-- `for (i = 0; i < nItemNum && bPass; i++)`, with `n` words to go: the pointer after it
and `bPass`. -/
def verifyItems (initValue : BitVec 32) (mem : M) :
    Nat → Nat → BitVec 32 → BitVec 32 × Bool
  | 0, _, pSrc => (pSrc, true)
  | n + 1, i, pSrc =>
      if io.fetch mem pSrc = szData initValue i then verifyItems initValue mem n (i + 1) (pSrc + 4)
      else (pSrc + 4, false)

/-- `while (bPass && nPos < ByteLen)`, for at most so many blocks. -/
def readLoop (byteLen initValue : BitVec 32) (mem : M) :
    Nat → BitVec 32 → Block → Bool → Option Bool
  | 0, _, _, _ => none
  | fuel + 1, pSrc, s, bPass =>
      if bPass && s.nPos.ult byteLen then
        let s := s.cut byteLen
        let r := verifyItems io initValue mem s.nItemNum.toNat 0 pSrc
        readLoop byteLen initValue mem fuel r.1 s.advance r.2
      else some bPass

/-- `TMEM_Verify(BaseAddr, ByteLen, InitValue, bShowMessage)`. -/
def tmemVerify (fuel : Nat) (baseAddr byteLen initValue : BitVec 32) (mem : M) :
    Option (Bool × M) :=
  (writeLoop io byteLen initValue fuel baseAddr .first mem).bind fun mem =>
    (readLoop io byteLen initValue mem fuel baseAddr .first true).map fun bPass => (bPass, mem)

section Blocks

variable {byteLen : BitVec 32} {s : Block} {w : Nat}

/-- Both loops are at word `w`. -/
structure AtWord (byteLen : BitVec 32) (s : Block) (w : Nat) : Prop where
  pos : s.nPos.toNat = 4 * w
  le : 4 * w ≤ byteLen.toNat
  block : 4 * w < byteLen.toNat → w % 257 = 0 ∧ s.nAccessLen = 1028 ∧ s.nItemNum = 257

theorem atWord_first (byteLen : BitVec 32) : AtWord byteLen .first 0 :=
  ⟨rfl, Nat.zero_le _, fun _ => ⟨rfl, rfl, rfl⟩⟩

theorem AtWord.ult_iff (h : AtWord byteLen s w) :
    s.nPos.ult byteLen = true ↔ 4 * w < byteLen.toNat := by
  rw [BitVec.ult_iff_lt, BitVec.lt_def, h.pos]

/-- Division of a length that is an `int`. -/
theorem toNat_sdiv_four {x : BitVec 32} (hx : x.toNat < 2 ^ 31) :
    (x.sdiv 4).toNat = x.toNat / 4 := by
  have hmsb : x.msb = false := by
    rw [BitVec.msb_eq_false_iff_two_mul_lt]
    omega
  have hfour : (4 : BitVec 32).msb = false := by decide
  rw [BitVec.sdiv_eq, hmsb, hfour]
  exact BitVec.toNat_udiv

/-- The words of the next block. -/
def blockWords (byteLen : BitVec 32) (w : Nat) : Nat := min 257 (byteLen.toNat / 4 - w)

/-- The next block, and where the loops are after it. -/
theorem AtWord.cut (h : AtWord byteLen s w) (hlen : byteLen.toNat < 2 ^ 31)
    (hword : 4 ∣ byteLen.toNat) (hlt : 4 * w < byteLen.toNat) :
    (s.cut byteLen).nItemNum.toNat = blockWords byteLen w ∧
      (s.cut byteLen).nAccessLen.toNat = 4 * blockWords byteLen w ∧
        AtWord byteLen (s.cut byteLen).advance (w + blockWords byteLen w) := by
  obtain ⟨hmod, haccess, hitems⟩ := h.block hlt
  have hpos := h.pos
  have hrem : (byteLen - s.nPos).toNat = byteLen.toNat - 4 * w := by
    rw [BitVec.toNat_sub, hpos]
    omega
  have hslt : (byteLen - s.nPos).slt s.nAccessLen = true ↔
      byteLen.toNat - 4 * w < 1028 := by
    have hint : (1028 : BitVec 32).toInt = 1028 := by decide
    rw [BitVec.slt_iff_toInt_lt, haccess, hint, BitVec.toInt_eq_toNat_of_lt (by omega),
      hrem]
    omega
  have hadvance : ∀ {s' : Block} {k : Nat}, s'.nPos = s.nPos → s'.nAccessLen.toNat = 4 * k →
      4 * (w + k) ≤ byteLen.toNat → s'.advance.nPos.toNat = 4 * (w + k) := by
    intro s' k hsame hk hle
    rw [Block.advance, BitVec.toNat_add, hsame, hpos, hk]
    omega
  rw [blockWords]
  by_cases hcut : byteLen.toNat - 4 * w < 1028
  · have hmin : min 257 (byteLen.toNat / 4 - w) = byteLen.toNat / 4 - w := by omega
    have hbytes : (byteLen - s.nPos).toNat = 4 * (byteLen.toNat / 4 - w) := by omega
    rw [hmin, Block.cut, if_pos (hslt.2 hcut)]
    refine ⟨?_, hbytes, ⟨hadvance rfl hbytes (by omega), by omega, by omega⟩⟩
    rw [toNat_sdiv_four (by omega), hrem]
    omega
  · have hmin : min 257 (byteLen.toNat / 4 - w) = 257 := by omega
    have hfour : (1028 : BitVec 32).toNat = 4 * 257 := by decide
    rw [hmin, Block.cut, if_neg (fun hs => hcut (hslt.1 hs))]
    refine ⟨by rw [hitems]; rfl, by rw [haccess, hfour],
      ⟨hadvance rfl (by rw [haccess, hfour]) (by omega), by omega, ?_⟩⟩
    intro _
    exact ⟨by omega, haccess, hitems⟩

/-- A block is not empty. -/
theorem blockWords_pos (hword : 4 ∣ byteLen.toNat) (hlt : 4 * w < byteLen.toNat) :
    0 < blockWords byteLen w := by
  rw [blockWords]
  omega

end Blocks

section Loops

variable {io} {byteLen initValue baseAddr : BitVec 32} {mem : M} {s : Block} {w : Nat}

/-- The word for address `i`. -/
def expected (initValue : BitVec 32) (i : Nat) : BitVec 32 := szData initValue (i % 257)

theorem expected_add {k : Nat} (hw : w % 257 = 0) (hk : k < 257) :
    expected initValue (w + k) = szData initValue k := by
  have hmod : (w + k) % 257 = k := by omega
  rw [expected, hmod]

theorem index_add_mul (p x : BitVec 32) (w : Nat) :
    index p w + x * 4 = index p (w + x.toNat) := by
  have hfour : (4 : BitVec 32).toNat = 4 := rfl
  rw [index, index, BitVec.add_assoc, ← BitVec.toNat_inj]
  simp only [BitVec.toNat_add, BitVec.toNat_mul, BitVec.toNat_ofNat, hfour]
  omega

theorem index_index (p : BitVec 32) (w i : Nat) : index (index p w) i = index p (w + i) :=
  index_add p w i

/-- One block is written. -/
theorem memcpy_filled {x : BitVec 32} {k : Nat} (hx : x.toNat = 4 * k) (hk : k ≤ 257)
    (hw : w % 257 = 0) :
    memcpy io initValue (index baseAddr w) x
        (filled io (index baseAddr) (expected initValue) mem w) =
      filled io (index baseAddr) (expected initValue) mem (w + k) := by
  rw [memcpy, hx, Nat.mul_div_cancel_left k (by decide)]
  clear hx
  induction k with
  | zero => rfl
  | succ k ih =>
      rw [forLoop, ih (Nat.le_of_succ_le hk), index_index, ← expected_add hw hk]
      rfl

variable (io initValue baseAddr mem) in
/-- The first loop writes every word once. -/
theorem writeLoop_eq (hlen : byteLen.toNat < 2 ^ 31) (hword : 4 ∣ byteLen.toNat)
    {fuel : Nat} (h : AtWord byteLen s w) (hfuel : byteLen.toNat / 4 - w < fuel) :
    writeLoop io byteLen initValue fuel (index baseAddr w) s
        (filled io (index baseAddr) (expected initValue) mem w) =
      some (filled io (index baseAddr) (expected initValue) mem (byteLen.toNat / 4)) := by
  induction fuel generalizing s w with
  | zero => exact absurd hfuel (Nat.not_lt_zero _)
  | succ fuel ih =>
      rw [writeLoop]
      by_cases hlt : 4 * w < byteLen.toNat
      · obtain ⟨hitems, haccess, hnext⟩ := h.cut hlen hword hlt
        have hpos := blockWords_pos hword hlt
        rw [if_pos (h.ult_iff.2 hlt)]
        change writeLoop io byteLen initValue fuel (index baseAddr w + (s.cut byteLen).nItemNum * 4)
          (s.cut byteLen).advance _ = _
        rw [index_add_mul, hitems,
          memcpy_filled haccess (Nat.min_le_left _ _) (h.block hlt).1]
        exact ih hnext (by omega)
      · have hle := h.le
        have hend : w = byteLen.toNat / 4 := by omega
        rw [if_neg (fun hult => hlt (h.ult_iff.1 hult)), ← hend]

variable (io initValue mem) in
/-- One block is compared. -/
theorem verifyItems_iff (n i : Nat) (p : BitVec 32) :
    let r := verifyItems io initValue mem n i p
    (r.2 = true ↔ ∀ k, k < n → io.fetch mem (index p k) = szData initValue (i + k)) ∧
      (r.2 = true → r.1 = index p n) := by
  induction n generalizing i p with
  | zero =>
      refine ⟨⟨fun _ k hk => absurd hk (Nat.not_lt_zero k), fun _ => rfl⟩, fun _ => ?_⟩
      exact (BitVec.add_zero p).symm
  | succ n ih =>
      have hfirst : index p 0 = p := BitVec.add_zero p
      have hnext : ∀ k, index (p + 4) k = index p (k + 1) := by
        intro k
        rw [Nat.add_comm]
        exact index_add p 1 k
      obtain ⟨hiff, hptr⟩ := ih (i + 1) (p + 4)
      simp only [hnext] at hiff hptr
      intro r
      by_cases hword : io.fetch mem p = szData initValue i
      · have hr : r = verifyItems io initValue mem n (i + 1) (p + 4) := if_pos hword
        rw [hr]
        refine ⟨hiff.trans ⟨?_, ?_⟩, hptr⟩
        · intro hall k hk
          cases k with
          | zero => rwa [hfirst]
          | succ k =>
              rw [hall k (Nat.lt_of_succ_lt_succ hk), Nat.add_right_comm, Nat.add_assoc]
        · intro hall k hk
          rw [hall (k + 1) (Nat.succ_lt_succ hk), Nat.add_right_comm, Nat.add_assoc]
      · have hr : r = (p + 4, false) := if_neg hword
        rw [hr]
        refine ⟨⟨fun hfalse => absurd hfalse Bool.false_ne_true, fun hall => ?_⟩,
          fun hfalse => absurd hfalse Bool.false_ne_true⟩
        have hzero := hall 0 (Nat.succ_pos n)
        rw [hfirst] at hzero
        exact absurd hzero hword

variable (io initValue baseAddr mem) in
/-- The second loop compares every word, up to the first that differs. -/
theorem readLoop_iff (hlen : byteLen.toNat < 2 ^ 31) (hword : 4 ∣ byteLen.toNat)
    {fuel : Nat} (h : AtWord byteLen s w) (hfuel : byteLen.toNat / 4 - w < fuel) :
    ∃ bPass, readLoop io byteLen initValue mem fuel (index baseAddr w) s true = some bPass ∧
      (bPass = true ↔ ∀ i, w ≤ i → i < byteLen.toNat / 4 →
        io.fetch mem (index baseAddr i) = expected initValue i) := by
  induction fuel generalizing s w with
  | zero => exact absurd hfuel (Nat.not_lt_zero _)
  | succ fuel ih =>
      rw [readLoop, Bool.true_and]
      by_cases hlt : 4 * w < byteLen.toNat
      · obtain ⟨hitems, -, hnext⟩ := h.cut hlen hword hlt
        have hpos := blockWords_pos hword hlt
        obtain ⟨hiff, hptr⟩ :=
          verifyItems_iff io initValue mem (blockWords byteLen w) 0 (index baseAddr w)
        have hblock : (verifyItems io initValue mem (blockWords byteLen w) 0
            (index baseAddr w)).2 = true ↔ ∀ k, k < blockWords byteLen w →
              io.fetch mem (index baseAddr (w + k)) = expected initValue (w + k) := by
          refine hiff.trans (forall₂_congr fun k hk => ?_)
          rw [index_index, Nat.zero_add,
            expected_add (h.block hlt).1 (Nat.lt_of_lt_of_le hk (Nat.min_le_left _ _))]
        rw [if_pos (h.ult_iff.2 hlt)]
        change ∃ bPass, readLoop io byteLen initValue mem fuel
          (verifyItems io initValue mem (s.cut byteLen).nItemNum.toNat 0 (index baseAddr w)).1
          (s.cut byteLen).advance _ = _ ∧ _
        rw [hitems]
        generalize verifyItems io initValue mem (blockWords byteLen w) 0 (index baseAddr w) = r
          at hblock hptr ⊢
        obtain ⟨pSrc, bPass⟩ := r
        cases bPass with
        | true =>
            obtain rfl : pSrc = index (index baseAddr w) (blockWords byteLen w) := hptr rfl
            rw [index_index]
            obtain ⟨bPass, hrun, hrest⟩ := ih hnext (by omega)
            refine ⟨bPass, hrun, hrest.trans ⟨?_, fun hall i hi => hall i (by omega)⟩⟩
            intro hall i hi hn
            rcases Nat.lt_or_ge i (w + blockWords byteLen w) with hin | hout
            · have heq := hblock.1 rfl (i - w) (by omega)
              rw [Nat.add_sub_cancel' hi] at heq
              exact heq
            · exact hall i hout hn
        | false =>
            obtain ⟨fuel, rfl⟩ := Nat.exists_eq_add_of_lt (show 0 < fuel by omega)
            refine ⟨false, rfl, fun hfalse => absurd hfalse Bool.false_ne_true,
              fun hall => ?_⟩
            refine hblock.2 fun k hk => hall (w + k) (Nat.le_add_right w k) ?_
            rw [blockWords] at hk
            omega
      · have hle := h.le
        rw [if_neg (fun hult => hlt (h.ult_iff.1 hult))]
        exact ⟨true, rfl, fun _ i hi hlt' => by omega, fun _ => rfl⟩

variable (io initValue baseAddr mem) in
/-- Both loops end: the words are written one after the other and compared. -/
theorem tmemVerify_eq (hlen : byteLen.toNat < 2 ^ 31) (hword : 4 ∣ byteLen.toNat)
    {fuel : Nat} (hfuel : byteLen.toNat / 4 < fuel) :
    let mem' := filled io (index baseAddr) (expected initValue) mem (byteLen.toNat / 4)
    ∃ bPass, tmemVerify io fuel baseAddr byteLen initValue mem = some (bPass, mem') ∧
      (bPass = true ↔ ∀ i, i < byteLen.toNat / 4 →
        io.fetch mem' (index baseAddr i) = expected initValue i) := by
  intro mem'
  have hbase : index baseAddr 0 = baseAddr := BitVec.add_zero baseAddr
  have hwrite := writeLoop_eq io initValue baseAddr mem hlen hword (atWord_first byteLen)
    (Nat.lt_of_le_of_lt (Nat.sub_le _ _) hfuel)
  obtain ⟨bPass, hread, hiff⟩ := readLoop_iff io initValue baseAddr mem' hlen hword
    (atWord_first byteLen) (Nat.lt_of_le_of_lt (Nat.sub_le _ _) hfuel)
  rw [hbase] at hwrite hread
  refine ⟨bPass, ?_,
    hiff.trans ⟨fun hall i => hall i (Nat.zero_le i), fun hall i _ => hall i⟩⟩
  refine Option.bind_eq_some_iff.2 ⟨mem', hwrite, Option.map_eq_some_iff.2 ⟨bPass, hread, rfl⟩⟩

end Loops

section Detects

/-- The words of the block as numbers. -/
def blockNat (i : Nat) : Nat :=
  if i = 256 then 0xAAAAAAAA
  else if i = 255 then 0x55555555
  else if i = 254 then 0
  else if i = 253 then 0xFFFFFFFF
  else 13 ^ i % 2 ^ 32

theorem blockNat_of_lt {i : Nat} (hi : i < 253) : blockNat i = 13 ^ i % 2 ^ 32 := by
  rw [blockNat, if_neg (by omega), if_neg (by omega), if_neg (by omega), if_neg (by omega)]

theorem toNat_powers (i : Nat) : (powers 1 i).toNat = 13 ^ i % 2 ^ 32 := by
  have h13 : (13 : BitVec 32).toNat = 13 := rfl
  induction i with
  | zero => rfl
  | succ i ih => rw [powers, BitVec.toNat_mul, ih, h13, Nat.mod_mul_mod, pow_succ 13 i]

theorem toNat_szData (i : Nat) : (szData 1 i).toNat = blockNat i := by
  rw [szData, blockNat]
  split_ifs
  · rfl
  · rfl
  · rfl
  · rfl
  · exact toNat_powers i

/-- The replaced words differ from the words before them. -/
theorem blockNat_ne_of_ge :
    ∀ i, i < 257 → 253 ≤ i → ∀ j, j < i → blockNat i ≠ blockNat j := by
  decide +kernel

/-- The powers of 13 do not come back to 1 within the block. -/
theorem pow_ne_one : ∀ d, d < 253 → 0 < d → 13 ^ d % 2 ^ 32 ≠ 1 := by
  decide +kernel

theorem blockNat_ne {i j : Nat} (hi : i < 257) (hj : j < i) : blockNat i ≠ blockNat j := by
  rcases Nat.lt_or_ge i 253 with hlt | hge
  · rw [blockNat_of_lt hlt, blockNat_of_lt (lt_trans hj hlt)]
    intro heq
    have hmod : 13 ^ j * 13 ^ (i - j) ≡ 13 ^ j * 1 [MOD 2 ^ 32] := by
      rw [← pow_add, Nat.add_sub_cancel' (Nat.le_of_lt hj), Nat.mul_one]
      exact heq
    have hcoprime : Nat.gcd (2 ^ 32) (13 ^ j) = 1 :=
      Nat.Coprime.pow_right j (by decide)
    have hone := Nat.ModEq.cancel_left_of_coprime hcoprime hmod
    exact pow_ne_one (i - j) (by omega) (by omega) hone
  · exact blockNat_ne_of_ge i hi hge j hj

theorem szData_inj {i j : Nat} (hi : i < 257) (hj : j < 257)
    (h : szData 1 i = szData 1 j) :
    i = j := by
  have hnat := congrArg BitVec.toNat h
  rw [toNat_szData, toNat_szData] at hnat
  rcases Nat.lt_trichotomy i j with hlt | heq | hgt
  · exact absurd hnat.symm (blockNat_ne hj hlt)
  · exact heq
  · exact absurd hnat (blockNat_ne hi hgt)

/-- No power of two is a multiple of 257. -/
theorem add_two_pow_mod (i k : Nat) : (i + 2 ^ k) % 257 ≠ i % 257 := by
  intro heq
  have hdvd : 257 ∣ 2 ^ k := by omega
  have hprime : Nat.Coprime 257 (2 ^ k) := Nat.Coprime.pow_right k (by decide)
  exact absurd (Nat.Coprime.eq_one_of_dvd hprime hdvd) (by decide)

variable {io} {byteLen baseAddr : BitVec 32} {K : Type} [DecidableEq K] {place : Nat → K}

/-- **What the DDR test finds.**  Let the addresses share cells of the memory in any way.
With the initial value 1, as `main` calls it, the test returns, and it is passed if and
only if all addresses of one cell are a multiple of 257 words apart; so it is failed when
two words a power of two apart are one, as with an address line that is open or shorted. -/
theorem tmemVerify_detects
    (hcells : io.CellsAt (index baseAddr) (byteLen.toNat / 4) place)
    (hlen : byteLen.toNat < 2 ^ 31) (hword : 4 ∣ byteLen.toNat) (mem : M) :
    ∃ fuel bPass mem', tmemVerify io fuel baseAddr byteLen 1 mem = some (bPass, mem') ∧
      (bPass = true ↔ ∀ i j, i < byteLen.toNat / 4 → j < byteLen.toNat / 4 →
        place i = place j → i % 257 = j % 257) ∧
      ∀ i k, i + 2 ^ k < byteLen.toNat / 4 → place i = place (i + 2 ^ k) →
        bPass = false := by
  obtain ⟨bPass, hrun, hiff⟩ := tmemVerify_eq io 1 baseAddr mem hlen hword
    (Nat.lt_succ_self (byteLen.toNat / 4))
  have hpass : bPass = true ↔ ∀ i j, i < byteLen.toNat / 4 → j < byteLen.toNat / 4 →
      place i = place j → i % 257 = j % 257 := by
    refine (hiff.trans (readBack_iff hcells)).trans ?_
    refine forall₂_congr fun i j => forall₂_congr fun hi hj => forall_congr' fun hij => ?_
    constructor
    · exact szData_inj (Nat.mod_lt i (by decide)) (Nat.mod_lt j (by decide))
    · intro hmod
      rw [expected, expected, hmod]
  refine ⟨_, bPass, _, hrun, hpass, ?_⟩
  intro i k hk hshared
  rw [← Bool.not_eq_true, hpass]
  intro hall
  exact add_two_pow_mod i k
    (hall i (i + 2 ^ k) (Nat.lt_of_le_of_lt (Nat.le_add_right i _) hk) hk hshared).symm

end Detects

section Window

variable {σ : Type}

/-- The loads and stores of the processor. -/
def dataMaster : Ports (Board σ) (BitVec 32) (BitVec 32) where
  fetch := Board.load
  put := Board.store

/-- The window without the cache bypass. -/
theorem decode_windowedSlaveBase (b : Board σ) (k : Nat) :
    b.decode (index windowedSlaveBase k) = b.decode (index ddr3WindowBase k) := by
  have hbus : index windowedSlaveBase k &&& ~~~cacheBypassMask =
      index ddr3WindowBase k &&& ~~~cacheBypassMask := by
    have hslave : windowedSlaveBase.toNat = 0x8000000 := by decide
    have hbase : ddr3WindowBase.toNat = 0x88000000 := by decide
    rw [← BitVec.toNat_inj, toNat_and_not_mask, toNat_and_not_mask, index, index,
      BitVec.toNat_add, BitVec.toNat_add, BitVec.toNat_ofNat, hslave, hbase]
    omega
  simp only [Board.decode, hbus]

/-- Words of the window have cells of their own. -/
theorem cellsAt_window {n : Nat} (hn : n ≤ 2 ^ 25) :
    (dataMaster : Ports (Board σ) (BitVec 32) (BitVec 32)).CellsAt (index windowedSlaveBase) n
      fun i => i := by
  intro b i j v hi hj
  have hi' : i < 2 ^ 25 := Nat.lt_of_lt_of_le hi hn
  have hj' : j < 2 ^ 25 := Nat.lt_of_lt_of_le hj hn
  have hstore : b.store (index windowedSlaveBase i) v =
      b.store (index ddr3WindowBase i) v := by
    rw [Board.store, Board.store, decode_windowedSlaveBase b i]
  have hload : ∀ b : Board σ, b.load (index windowedSlaveBase j) = b.windowWord j := by
    intro b
    rw [← b.load_window hj', Board.load, Board.load, decode_windowedSlaveBase b j]
  change (b.store (index windowedSlaveBase i) v).load (index windowedSlaveBase j) =
    if j = i then v else b.load (index windowedSlaveBase j)
  rw [hload, hload, hstore]
  exact b.windowWord_store_window hj' hi' v

/-- The word behind the address lines when line 12 is open and reads as zero. -/
def openWord (a : BitVec 32) : BitVec 25 := a.extractLsb' 2 25 &&& ~~~0x400

/-- A memory of the size of the window with an open address line. -/
def openLine : Ports (BitVec 25 → BitVec 32) (BitVec 32) (BitVec 32) where
  fetch mem a := mem (openWord a)
  put mem a v := Function.update mem (openWord a) v

/-- Addresses that differ in the open line share a cell. -/
theorem cellsAt_openLine (n : Nat) :
    openLine.CellsAt (index windowedSlaveBase) n fun i => openWord (index windowedSlaveBase i) :=
  fun mem i j v _ _ => Function.update_apply mem (openWord (index windowedSlaveBase i)) v
    (openWord (index windowedSlaveBase j))

/-- The window of the board passes, and a memory with an open address line fails. -/
theorem tmemVerify_detects_window :
    (∃ fuel mem', tmemVerify dataMaster fuel windowedSlaveBase 0x8000000 1
      (⟨0, ⟨fun _ => 0, fun _ => 0⟩, ()⟩ : Board Unit) = some (true, mem')) ∧
    ∃ fuel mem', tmemVerify openLine fuel windowedSlaveBase 0x8000000 1 (fun _ => 0) =
      some (false, mem') := by
  constructor
  · have hcells : (dataMaster : Ports (Board Unit) (BitVec 32) (BitVec 32)).CellsAt
        (index windowedSlaveBase) ((0x8000000 : BitVec 32).toNat / 4) fun i => i :=
      cellsAt_window (by decide)
    obtain ⟨fuel, bPass, mem', hrun, hpass, -⟩ :=
      tmemVerify_detects hcells (by decide) (by decide) ⟨0, ⟨fun _ => 0, fun _ => 0⟩, ()⟩
    have htrue : bPass = true := hpass.2 fun i j _ _ hij => by rw [hij]
    rw [htrue] at hrun
    exact ⟨fuel, mem', hrun⟩
  · obtain ⟨fuel, bPass, mem', hrun, -, hshared⟩ :=
      tmemVerify_detects (cellsAt_openLine _) (by decide : (0x8000000 : BitVec 32).toNat < 2 ^ 31)
        (by decide) fun _ => 0
    have hfalse : bPass = false := hshared 0 10 (by decide) (by decide)
    rw [hfalse] at hrun
    exact ⟨fuel, mem', hrun⟩

end Window

end MemVerify
end VideoProcessing
