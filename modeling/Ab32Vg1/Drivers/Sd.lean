import Ab32Vg1.Kernel.Def

/-! The CSD register of an SD card in `sd.c`: `mmcsd_parse_csd` cuts its fields out of the four words of
the response, the first word being the highest, and computes the capacity of the card. -/

namespace Ab32Vg1.Drivers

open Kernel

/-- `GET_BITS`: the first index may be that of the word before when the field runs into it. -/
def GET_BITS (resp : Nat → BitVec 32) (start size : Nat) : BitVec 32 :=
  let mask : BitVec 32 := (if size < 32 then 1#32 <<< size else 0) - 1
  let off := 3 - start / 32
  let shft := start % 32
  let res := resp off >>> shft
  let res := if size + shft > 32 then res ||| resp (off - 1) <<< ((32 - shft) % 32) else res
  res &&& mask

/-- `struct rt_mmcsd_csd`. -/
structure MmcsdCsd where
  csd_structure : BitVec 8
  taac : BitVec 8
  nsac : BitVec 8
  tran_speed : BitVec 8
  card_cmd_class : BitVec 16
  rd_blk_len : BitVec 8
  rd_blk_part : BitVec 8
  wr_blk_misalign : BitVec 8
  rd_blk_misalign : BitVec 8
  dsr_imp : BitVec 8
  c_size_mult : BitVec 8
  c_size : BitVec 32
  r2w_factor : BitVec 8
  wr_blk_len : BitVec 8
  wr_blk_partial : BitVec 8
  csd_crc : BitVec 8

/-- The part of `struct rt_mmcsd_card` that `mmcsd_parse_csd` reads and writes. -/
structure SdCard where
  resp_csd : Nat → BitVec 32
  csd : MmcsdCsd
  tacc_clks : BitVec 16
  tacc_ns : BitVec 32
  max_data_rate : BitVec 32
  card_capacity : BitVec 32
  card_blksize : BitVec 32
  flags : BitVec 16

def tran_unit : List (BitVec 32) := [10000, 100000, 1000000, 10000000, 0, 0, 0, 0]

def tran_value : List (BitVec 32) := [0, 10, 12, 13, 15, 20, 25, 30, 35, 40, 45, 50, 55, 60, 70, 80]

def tacc_uint : List (BitVec 32) := [1, 10, 100, 1000, 10000, 100000, 1000000, 10000000]

def tacc_value : List (BitVec 32) := [0, 10, 12, 13, 15, 20, 25, 30, 35, 40, 45, 50, 55, 60, 70, 80]

def CARD_FLAG_SDHC : BitVec 16 := 1#16 <<< 1

/-- The entries of two tables for a byte of the CSD, multiplied. -/
def csdProduct (units values : List (BitVec 32)) (field : BitVec 8) : BitVec 32 :=
  units.getD (field &&& 0x07).toNat 0 * values.getD ((field &&& 0x78) >>> 3).toNat 0

/-- The fields that both versions of the CSD have in the same place. -/
def commonFields (resp : Nat → BitVec 32) (csd : MmcsdCsd) : MmcsdCsd :=
  { csd with
    taac := (GET_BITS resp 112 8).setWidth 8
    nsac := (GET_BITS resp 104 8).setWidth 8
    tran_speed := (GET_BITS resp 96 8).setWidth 8
    card_cmd_class := (GET_BITS resp 84 12).setWidth 16
    rd_blk_len := (GET_BITS resp 80 4).setWidth 8
    rd_blk_part := (GET_BITS resp 79 1).setWidth 8
    wr_blk_misalign := (GET_BITS resp 78 1).setWidth 8
    rd_blk_misalign := (GET_BITS resp 77 1).setWidth 8
    dsr_imp := (GET_BITS resp 76 1).setWidth 8
    r2w_factor := (GET_BITS resp 26 3).setWidth 8
    wr_blk_len := (GET_BITS resp 22 4).setWidth 8
    wr_blk_partial := (GET_BITS resp 21 1).setWidth 8
    csd_crc := (GET_BITS resp 1 7).setWidth 8 }

/-- The case of `mmcsd_parse_csd` for version 0. -/
def parseVersion0 (card : SdCard) : SdCard :=
  let csd := { commonFields card.resp_csd card.csd with
    c_size := GET_BITS card.resp_csd 62 12
    c_size_mult := (GET_BITS card.resp_csd 47 3).setWidth 8 }
  let card_blksize := 1#32 <<< csd.rd_blk_len.toNat
  let card_capacity : BitVec 32 := (csd.c_size + 1 : BitVec 32) <<< (csd.c_size_mult.toNat + 2)
  { card with
    csd := csd
    card_blksize := card_blksize
    card_capacity := (card_capacity * card_blksize) >>> 10
    tacc_clks := csd.nsac.setWidth 16 * 100
    tacc_ns := (csdProduct tacc_uint tacc_value csd.taac + 9) / 10
    max_data_rate := csdProduct tran_unit tran_value csd.tran_speed }

/-- The case of `mmcsd_parse_csd` for version 1. -/
def parseVersion1 (card : SdCard) : SdCard :=
  let csd := { commonFields card.resp_csd card.csd with c_size := GET_BITS card.resp_csd 48 22 }
  { card with
    csd := csd
    flags := card.flags ||| CARD_FLAG_SDHC
    card_blksize := 512
    card_capacity := (csd.c_size + 1) * 512
    tacc_clks := 0
    tacc_ns := 0
    max_data_rate := csdProduct tran_unit tran_value csd.tran_speed }

/-- `mmcsd_parse_csd` and the code that it returns. -/
def mmcsd_parse_csd (card : SdCard) : SdCard × Int :=
  let csd_structure := (GET_BITS card.resp_csd 126 2).setWidth 8
  let card := { card with csd := { card.csd with csd_structure := csd_structure } }
  if csd_structure = 0 then (parseVersion0 card, 0)
  else if csd_structure = 1 then (parseVersion1 card, 0)
  else (card, (- RT_ERROR))

/-! ### The register -/

/-- The 128 bits of the response. -/
def csdBits (resp : Nat → BitVec 32) : BitVec 128 := resp 0 ++ resp 1 ++ resp 2 ++ resp 3

/-- The field of `size` bits from the bit `start` of the response on. -/
def csdSlice (resp : Nat → BitVec 32) (start size : Nat) : Nat :=
  (csdBits resp).toNat / 2 ^ start % 2 ^ size

/-- The fields that both versions have are those of the response. -/
structure CommonFieldsOf (resp : Nat → BitVec 32) (csd : MmcsdCsd) : Prop where
  csd_structure : csd.csd_structure.toNat = csdSlice resp 126 2
  taac : csd.taac.toNat = csdSlice resp 112 8
  nsac : csd.nsac.toNat = csdSlice resp 104 8
  tran_speed : csd.tran_speed.toNat = csdSlice resp 96 8
  card_cmd_class : csd.card_cmd_class.toNat = csdSlice resp 84 12
  rd_blk_len : csd.rd_blk_len.toNat = csdSlice resp 80 4
  rd_blk_part : csd.rd_blk_part.toNat = csdSlice resp 79 1
  wr_blk_misalign : csd.wr_blk_misalign.toNat = csdSlice resp 78 1
  rd_blk_misalign : csd.rd_blk_misalign.toNat = csdSlice resp 77 1
  dsr_imp : csd.dsr_imp.toNat = csdSlice resp 76 1
  r2w_factor : csd.r2w_factor.toNat = csdSlice resp 26 3
  wr_blk_len : csd.wr_blk_len.toNat = csdSlice resp 22 4
  wr_blk_partial : csd.wr_blk_partial.toNat = csdSlice resp 21 1
  csd_crc : csd.csd_crc.toNat = csdSlice resp 1 7

/-- The bytes of a card with a version 0 register: its blocks by the length of a block. -/
def capacity0 (resp : Nat → BitVec 32) : Nat :=
  (csdSlice resp 62 12 + 1) * 2 ^ (csdSlice resp 47 3 + 2) * 2 ^ csdSlice resp 80 4

/-- A card after the parse: its fields are those of the response, and its capacity in KB is exact. -/
def Decoded (resp : Nat → BitVec 32) (card : SdCard) : Prop :=
  CommonFieldsOf resp card.csd ∧
    if csdSlice resp 126 2 = 0 then
      card.csd.c_size.toNat = csdSlice resp 62 12 ∧ card.csd.c_size_mult.toNat = csdSlice resp 47 3 ∧
        card.card_capacity.toNat = capacity0 resp / 1024
    else
      card.csd.c_size.toNat = csdSlice resp 48 22 ∧
        card.card_capacity.toNat = (csdSlice resp 48 22 + 1) * 512

section

variable {resp : Nat → BitVec 32} {start size w i : Nat}

theorem csdSlice_lt (resp : Nat → BitVec 32) (start size : Nat) : csdSlice resp start size < 2 ^ size :=
  Nat.mod_lt _ (Nat.two_pow_pos size)

theorem getLsbD_csdBits (j : Nat) :
    (csdBits resp).getLsbD j =
      if j < 32 then (resp 3).getLsbD j
      else if j - 32 < 32 then (resp 2).getLsbD (j - 32)
      else if j - 32 - 32 < 32 then (resp 1).getLsbD (j - 32 - 32)
      else (resp 0).getLsbD (j - 32 - 32 - 32) := by
  have h3 := BitVec.getLsbD_append (x := resp 0 ++ resp 1 ++ resp 2) (y := resp 3) (i := j)
  have h2 := BitVec.getLsbD_append (x := resp 0 ++ resp 1) (y := resp 2) (i := j - 32)
  have h1 := BitVec.getLsbD_append (x := resp 0) (y := resp 1) (i := j - 32 - 32)
  rw [← h1, ← h2]
  exact h3

/-- The response by its words: the word `w` from the end. -/
theorem csdBits_word (resp : Nat → BitVec 32) (hw : w < 4) (hi : i < 32) :
    (csdBits resp).getLsbD (32 * w + i) = (resp (3 - w)).getLsbD i := by
  rw [getLsbD_csdBits]
  match w, hw with
  | 0, _ => rw [if_pos (by omega), Nat.mul_zero, Nat.zero_add]
  | 1, _ =>
    rw [if_neg (by omega), if_pos (by omega)]
    congr 1
    omega
  | 2, _ =>
    rw [if_neg (by omega), if_neg (by omega), if_pos (by omega)]
    congr 1
    omega
  | 3, _ =>
    rw [if_neg (by omega), if_neg (by omega), if_neg (by omega)]
    congr 1
    omega

theorem getLsbD_sizeMask (hi : i < 32) (hsize : size ≤ 32) :
    ((if size < 32 then 1#32 <<< size else 0) - 1).getLsbD i = decide (i < size) := by
  have hmask : (if size < 32 then 1#32 <<< size else 0) - 1 = BitVec.ofNat 32 (2 ^ size - 1) := by
    split
    · next hlt =>
      have hpow : 2 ^ size < 2 ^ 32 := Nat.pow_lt_pow_right (by decide) hlt
      have hpos := Nat.two_pow_pos size
      apply BitVec.eq_of_toNat_eq
      rw [BitVec.toNat_sub, BitVec.toNat_shiftLeft, BitVec.toNat_ofNat, BitVec.toNat_ofNat,
        Nat.shiftLeft_eq, Nat.mod_eq_of_lt (show 1 < 2 ^ 32 by decide), Nat.one_mul,
        Nat.mod_eq_of_lt hpow]
      show (2 ^ 32 - 1 + 2 ^ size) % 2 ^ 32 = _
      omega
    · next hge =>
      obtain rfl : size = 32 := by omega
      rfl
  rw [hmask, BitVec.getLsbD_ofNat, Nat.testBit_two_pow_sub_one]
  simp [hi]

/-- The bits of a field, from one word or from two. -/
theorem getLsbD_GET_BITS (hsize : size ≤ 32) (hend : start + size ≤ 128) (hi : i < size) :
    (GET_BITS resp start size).getLsbD i = (csdBits resp).getLsbD (start + i) := by
  have hword : (resp (3 - start / 32) >>> (start % 32)).getLsbD i =
      (decide (start % 32 + i < 32) && (csdBits resp).getLsbD (start + i)) := by
    rw [BitVec.getLsbD_ushiftRight]
    by_cases hin : start % 32 + i < 32
    · rw [← csdBits_word resp (by omega) hin, decide_eq_true hin, Bool.true_and]
      congr 1
      omega
    · rw [decide_eq_false hin, Bool.false_and, BitVec.getLsbD_of_ge _ _ (by omega)]
  unfold GET_BITS
  rw [BitVec.getLsbD_and, getLsbD_sizeMask (by omega) hsize, decide_eq_true hi, Bool.and_true]
  split
  · next hcross =>
    rw [BitVec.getLsbD_or, hword, BitVec.getLsbD_shiftLeft]
    have hshift : (32 - start % 32) % 32 = 32 - start % 32 := Nat.mod_eq_of_lt (by omega)
    rw [hshift]
    by_cases hin : start % 32 + i < 32
    · simp [hin, show i < 32 - start % 32 by omega]
    · have hnext := csdBits_word resp (w := start / 32 + 1) (i := i - (32 - start % 32))
        (by omega) (by omega)
      rw [show 32 * (start / 32 + 1) + (i - (32 - start % 32)) = start + i by omega,
        show 3 - (start / 32 + 1) = 3 - start / 32 - 1 by omega] at hnext
      rw [hnext]
      simp [hin, show i < 32 by omega, show ¬ i < 32 - start % 32 by omega]
  · next hcross =>
    rw [hword, decide_eq_true (by omega), Bool.true_and]

/-- `GET_BITS` cuts out the field. -/
theorem GET_BITS_toNat (hsize : size ≤ 32) (hend : start + size ≤ 128) :
    (GET_BITS resp start size).toNat = csdSlice resp start size := by
  apply Nat.eq_of_testBit_eq
  intro i
  rw [csdSlice, Nat.testBit_mod_two_pow, Nat.testBit_div_two_pow, BitVec.testBit_toNat,
    BitVec.testBit_toNat, Nat.add_comm i start]
  by_cases hi : i < size
  · rw [getLsbD_GET_BITS hsize hend hi, decide_eq_true hi, Bool.true_and]
  · rw [decide_eq_false hi, Bool.false_and]
    by_cases hi32 : i < 32
    · unfold GET_BITS
      rw [BitVec.getLsbD_and, getLsbD_sizeMask hi32 hsize, decide_eq_false hi, Bool.and_false]
    · exact BitVec.getLsbD_of_ge _ _ (Nat.not_lt.mp hi32)

/-- A field that is stored in a variable wide enough. -/
theorem field_toNat (hsize : size ≤ w) (hw : w ≤ 32) (hend : start + size ≤ 128) :
    ((GET_BITS resp start size).setWidth w).toNat = csdSlice resp start size := by
  have hlt : csdSlice resp start size < 2 ^ w :=
    (csdSlice_lt resp start size).trans_le (Nat.pow_le_pow_right (by decide) hsize)
  rw [BitVec.toNat_setWidth, GET_BITS_toNat (by omega) hend, Nat.mod_eq_of_lt hlt]

/-- The common fields are those of the response, whatever is set after them. -/
theorem commonFields_of {csd : MmcsdCsd} (h : csd.csd_structure.toNat = csdSlice resp 126 2)
    (c_size : BitVec 32) (c_size_mult : BitVec 8) :
    CommonFieldsOf resp
      { commonFields resp csd with c_size := c_size, c_size_mult := c_size_mult } where
  csd_structure := h
  taac := field_toNat (by decide) (by decide) (by decide)
  nsac := field_toNat (by decide) (by decide) (by decide)
  tran_speed := field_toNat (by decide) (by decide) (by decide)
  card_cmd_class := field_toNat (by decide) (by decide) (by decide)
  rd_blk_len := field_toNat (by decide) (by decide) (by decide)
  rd_blk_part := field_toNat (by decide) (by decide) (by decide)
  wr_blk_misalign := field_toNat (by decide) (by decide) (by decide)
  rd_blk_misalign := field_toNat (by decide) (by decide) (by decide)
  dsr_imp := field_toNat (by decide) (by decide) (by decide)
  r2w_factor := field_toNat (by decide) (by decide) (by decide)
  wr_blk_len := field_toNat (by decide) (by decide) (by decide)
  wr_blk_partial := field_toNat (by decide) (by decide) (by decide)
  csd_crc := field_toNat (by decide) (by decide) (by decide)

/-! ### The capacity -/

/-- The capacity of version 0 is computed in 32 bits. -/
theorem parseVersion0_capacity (card : SdCard) :
    (parseVersion0 card).card_capacity.toNat = capacity0 card.resp_csd % 2 ^ 32 / 1024 := by
  have hsize : (GET_BITS card.resp_csd 62 12).toNat = csdSlice card.resp_csd 62 12 :=
    GET_BITS_toNat (by decide) (by decide)
  have hmult : ((GET_BITS card.resp_csd 47 3).setWidth 8).toNat = csdSlice card.resp_csd 47 3 :=
    field_toNat (by decide) (by decide) (by decide)
  have hlen : ((GET_BITS card.resp_csd 80 4).setWidth 8).toNat = csdSlice card.resp_csd 80 4 :=
    field_toNat (by decide) (by decide) (by decide)
  have hsize_lt := csdSlice_lt card.resp_csd 62 12
  show (((GET_BITS card.resp_csd 62 12 + 1#32) <<<
      (((GET_BITS card.resp_csd 47 3).setWidth 8).toNat + 2) *
    1#32 <<< ((GET_BITS card.resp_csd 80 4).setWidth 8).toNat) >>> 10).toNat = _
  rw [BitVec.toNat_ushiftRight, BitVec.toNat_mul, BitVec.toNat_shiftLeft, BitVec.toNat_shiftLeft,
    BitVec.toNat_add, hsize, hmult, hlen, Nat.shiftRight_eq_div_pow, Nat.shiftLeft_eq, Nat.shiftLeft_eq,
    ← Nat.mul_mod]
  have hone : (csdSlice card.resp_csd 62 12 + (1#32).toNat) % 2 ^ 32 =
      csdSlice card.resp_csd 62 12 + 1 := Nat.mod_eq_of_lt (show _ + 1 < 2 ^ 32 by omega)
  have hunit : (1#32).toNat = 1 := rfl
  rw [hone, hunit, Nat.one_mul]
  rfl

/-- The capacity is exact unless the number of bytes overflows. -/
theorem capacity_iff (n : Nat) : n % 2 ^ 32 / 1024 = n / 1024 ↔ n < 2 ^ 32 := by
  constructor
  · intro h
    omega
  · intro h
    rw [Nat.mod_eq_of_lt h]

theorem parseVersion1_capacity (card : SdCard) :
    (parseVersion1 card).card_capacity.toNat = (csdSlice card.resp_csd 48 22 + 1) * 512 := by
  have hsize : (GET_BITS card.resp_csd 48 22).toNat = csdSlice card.resp_csd 48 22 :=
    GET_BITS_toNat (by decide) (by decide)
  have hsize_lt := csdSlice_lt card.resp_csd 48 22
  show ((GET_BITS card.resp_csd 48 22 + 1) * 512#32).toNat = _
  rw [BitVec.toNat_mul, BitVec.toNat_add, hsize]
  have hunit : (512#32).toNat = 512 := rfl
  rw [hunit]
  show (csdSlice card.resp_csd 48 22 + 1) % 2 ^ 32 * 512 % 2 ^ 32 = _
  omega

/-- The version that is parsed is the one in the response. -/
theorem structure_eq (resp : Nat → BitVec 32) (v : BitVec 8) :
    (GET_BITS resp 126 2).setWidth 8 = v ↔ csdSlice resp 126 2 = v.toNat := by
  rw [← field_toNat (w := 8) (by decide) (by decide) (by decide)]
  exact (BitVec.toNat_inj).symm

end

/-- The parse of a version 0 or 1 register is exact, apart from the capacity of a version 0 card of
4 GB or more. -/
theorem parse_csd_decodes (card : SdCard)
    (hversion : csdSlice card.resp_csd 126 2 = 0 ∨ csdSlice card.resp_csd 126 2 = 1) :
    (mmcsd_parse_csd card).2 = 0 ∧ Decoded card.resp_csd (mmcsd_parse_csd card).1 ↔
      csdSlice card.resp_csd 126 2 = 1 ∨ capacity0 card.resp_csd < 2 ^ 32 := by
  have hstructure : ((GET_BITS card.resp_csd 126 2).setWidth 8).toNat = csdSlice card.resp_csd 126 2 :=
    field_toNat (by decide) (by decide) (by decide)
  generalize hcard : ({ card with csd := { card.csd with
    csd_structure := (GET_BITS card.resp_csd 126 2).setWidth 8 } } : SdCard) = card'
  have hresp : card'.resp_csd = card.resp_csd := hcard ▸ rfl
  have hcsd : card'.csd.csd_structure.toNat = csdSlice card'.resp_csd 126 2 := by
    rw [← hcard]
    exact hstructure
  rcases hversion with h0 | h1
  · have hparse : mmcsd_parse_csd card = (parseVersion0 card', 0) := by
      rw [mmcsd_parse_csd, hcard]
      exact if_pos ((structure_eq card.resp_csd 0).mpr h0)
    have hcapacity := parseVersion0_capacity card'
    rw [hparse, Decoded, if_pos h0, ← hresp, ← capacity_iff, ← hcapacity]
    constructor
    · rintro ⟨-, -, -, -, hexact⟩
      exact .inr hexact
    · rintro (h1 | hexact)
      · rw [hresp, h0] at h1
        cases h1
      · exact ⟨rfl, commonFields_of hcsd _ _, GET_BITS_toNat (by decide) (by decide),
          field_toNat (by decide) (by decide) (by decide), hexact⟩
  · have hparse : mmcsd_parse_csd card = (parseVersion1 card', 0) := by
      have hne : (GET_BITS card.resp_csd 126 2).setWidth 8 ≠ (0 : BitVec 8) := fun h => by
        rw [(structure_eq card.resp_csd 0).mp h] at h1
        cases h1
      rw [mmcsd_parse_csd, hcard]
      exact (if_neg hne).trans (if_pos ((structure_eq card.resp_csd 1).mpr h1))
    rw [hparse, Decoded, if_neg (by omega), ← hresp]
    refine iff_of_true ⟨rfl, commonFields_of hcsd _ _, GET_BITS_toNat (by decide) (by decide), ?_⟩
      (.inl (hresp ▸ h1))
    exact parseVersion1_capacity card'

/-- A card with this response, before the parse. -/
def unparsedCard (w0 w1 w2 w3 : BitVec 32) : SdCard :=
  { resp_csd := fun i => [w0, w1, w2, w3].getD i 0
    csd := ⟨0, 0, 0, 0, 0, 0, 0, 0, 0, 0, 0, 0, 0, 0, 0, 0⟩
    tacc_clks := 0, tacc_ns := 0, max_data_rate := 0, card_capacity := 0, card_blksize := 0, flags := 0 }

/-- The register of a card of 2 GB. -/
def card2G : SdCard := unparsedCard 0x00260032 0x5B5A83FF 0xC0038000 0x0A404001

theorem parse_csd_decodes_2G :
    (mmcsd_parse_csd card2G).2 = 0 ∧ Decoded card2G.resp_csd (mmcsd_parse_csd card2G).1 :=
  (parse_csd_decodes card2G (.inl (by decide +kernel))).mpr (.inr (by decide +kernel))

/-- Its capacity in KB. -/
example : (mmcsd_parse_csd card2G).1.card_capacity.toNat = 2 * 1024 ^ 2 := by decide +kernel

/-- The largest fields with blocks of 2048 bytes are a card of 4 GB, of which nothing is left. -/
def card4G : SdCard := unparsedCard 0 0x000B03FF 0xC0038000 0

theorem parse_csd_overflows :
    ¬ ∀ card : SdCard, csdSlice card.resp_csd 126 2 = 0 ∨ csdSlice card.resp_csd 126 2 = 1 →
      2 ^ csdSlice card.resp_csd 80 4 ≤ 2048 →
        (mmcsd_parse_csd card).2 = 0 ∧ Decoded card.resp_csd (mmcsd_parse_csd card).1 := by
  intro h
  have hversion : csdSlice card4G.resp_csd 126 2 = 0 := by decide +kernel
  obtain ⟨-, -, hdecoded⟩ := h card4G (.inl hversion) (by decide +kernel)
  rw [if_pos hversion] at hdecoded
  have hlost : (mmcsd_parse_csd card4G).1.card_capacity.toNat ≠ capacity0 card4G.resp_csd / 1024 := by
    decide +kernel
  exact hlost hdecoded.2.2

end Ab32Vg1.Drivers
