import Librd.Lib.ShiftRegister

/-!
# CRC-32 (`rdcrc32.c`)

`rd_crc32_update` goes through the bytes of a buffer with a table of 256 entries. Reading outside the table is a
fault (`none`).

* `rdCrc32Update_eq`: the table does what eight steps of the register with the reflected polynomial do, for every byte,
  so that the update feeds the bits of the buffer into the register, the lowest bit of each byte first;
* `getLsbD_rdCrc32Reflect`: `rd_crc32_reflect` turns the bits around.
-/

namespace Librd.Crc

open ShiftRegister

/-- `rd_crc32_t`. -/
abbrev RdCrc32 := BitVec 32

/-- `crc_table`. -/
def crcTable : List RdCrc32 :=
  [0x00000000, 0x77073096, 0xee0e612c, 0x990951ba, 0x076dc419, 0x706af48f, 0xe963a535, 0x9e6495a3,
     0x0edb8832, 0x79dcb8a4, 0xe0d5e91e, 0x97d2d988, 0x09b64c2b, 0x7eb17cbd, 0xe7b82d07, 0x90bf1d91,
     0x1db71064, 0x6ab020f2, 0xf3b97148, 0x84be41de, 0x1adad47d, 0x6ddde4eb, 0xf4d4b551, 0x83d385c7,
     0x136c9856, 0x646ba8c0, 0xfd62f97a, 0x8a65c9ec, 0x14015c4f, 0x63066cd9, 0xfa0f3d63, 0x8d080df5,
     0x3b6e20c8, 0x4c69105e, 0xd56041e4, 0xa2677172, 0x3c03e4d1, 0x4b04d447, 0xd20d85fd, 0xa50ab56b,
     0x35b5a8fa, 0x42b2986c, 0xdbbbc9d6, 0xacbcf940, 0x32d86ce3, 0x45df5c75, 0xdcd60dcf, 0xabd13d59,
     0x26d930ac, 0x51de003a, 0xc8d75180, 0xbfd06116, 0x21b4f4b5, 0x56b3c423, 0xcfba9599, 0xb8bda50f,
     0x2802b89e, 0x5f058808, 0xc60cd9b2, 0xb10be924, 0x2f6f7c87, 0x58684c11, 0xc1611dab, 0xb6662d3d,
     0x76dc4190, 0x01db7106, 0x98d220bc, 0xefd5102a, 0x71b18589, 0x06b6b51f, 0x9fbfe4a5, 0xe8b8d433,
     0x7807c9a2, 0x0f00f934, 0x9609a88e, 0xe10e9818, 0x7f6a0dbb, 0x086d3d2d, 0x91646c97, 0xe6635c01,
     0x6b6b51f4, 0x1c6c6162, 0x856530d8, 0xf262004e, 0x6c0695ed, 0x1b01a57b, 0x8208f4c1, 0xf50fc457,
     0x65b0d9c6, 0x12b7e950, 0x8bbeb8ea, 0xfcb9887c, 0x62dd1ddf, 0x15da2d49, 0x8cd37cf3, 0xfbd44c65,
     0x4db26158, 0x3ab551ce, 0xa3bc0074, 0xd4bb30e2, 0x4adfa541, 0x3dd895d7, 0xa4d1c46d, 0xd3d6f4fb,
     0x4369e96a, 0x346ed9fc, 0xad678846, 0xda60b8d0, 0x44042d73, 0x33031de5, 0xaa0a4c5f, 0xdd0d7cc9,
     0x5005713c, 0x270241aa, 0xbe0b1010, 0xc90c2086, 0x5768b525, 0x206f85b3, 0xb966d409, 0xce61e49f,
     0x5edef90e, 0x29d9c998, 0xb0d09822, 0xc7d7a8b4, 0x59b33d17, 0x2eb40d81, 0xb7bd5c3b, 0xc0ba6cad,
     0xedb88320, 0x9abfb3b6, 0x03b6e20c, 0x74b1d29a, 0xead54739, 0x9dd277af, 0x04db2615, 0x73dc1683,
     0xe3630b12, 0x94643b84, 0x0d6d6a3e, 0x7a6a5aa8, 0xe40ecf0b, 0x9309ff9d, 0x0a00ae27, 0x7d079eb1,
     0xf00f9344, 0x8708a3d2, 0x1e01f268, 0x6906c2fe, 0xf762575d, 0x806567cb, 0x196c3671, 0x6e6b06e7,
     0xfed41b76, 0x89d32be0, 0x10da7a5a, 0x67dd4acc, 0xf9b9df6f, 0x8ebeeff9, 0x17b7be43, 0x60b08ed5,
     0xd6d6a3e8, 0xa1d1937e, 0x38d8c2c4, 0x4fdff252, 0xd1bb67f1, 0xa6bc5767, 0x3fb506dd, 0x48b2364b,
     0xd80d2bda, 0xaf0a1b4c, 0x36034af6, 0x41047a60, 0xdf60efc3, 0xa867df55, 0x316e8eef, 0x4669be79,
     0xcb61b38c, 0xbc66831a, 0x256fd2a0, 0x5268e236, 0xcc0c7795, 0xbb0b4703, 0x220216b9, 0x5505262f,
     0xc5ba3bbe, 0xb2bd0b28, 0x2bb45a92, 0x5cb36a04, 0xc2d7ffa7, 0xb5d0cf31, 0x2cd99e8b, 0x5bdeae1d,
     0x9b64c2b0, 0xec63f226, 0x756aa39c, 0x026d930a, 0x9c0906a9, 0xeb0e363f, 0x72076785, 0x05005713,
     0x95bf4a82, 0xe2b87a14, 0x7bb12bae, 0x0cb61b38, 0x92d28e9b, 0xe5d5be0d, 0x7cdcefb7, 0x0bdbdf21,
     0x86d3d2d4, 0xf1d4e242, 0x68ddb3f8, 0x1fda836e, 0x81be16cd, 0xf6b9265b, 0x6fb077e1, 0x18b74777,
     0x88085ae6, 0xff0f6a70, 0x66063bca, 0x11010b5c, 0x8f659eff, 0xf862ae69, 0x616bffd3, 0x166ccf45,
     0xa00ae278, 0xd70dd2ee, 0x4e048354, 0x3903b3c2, 0xa7672661, 0xd06016f7, 0x4969474d, 0x3e6e77db,
     0xaed16a4a, 0xd9d65adc, 0x40df0b66, 0x37d83bf0, 0xa9bcae53, 0xdebb9ec5, 0x47b2cf7f, 0x30b5ffe9,
     0xbdbdf21c, 0xcabac28a, 0x53b39330, 0x24b4a3a6, 0xbad03605, 0xcdd70693, 0x54de5729, 0x23d967bf,
     0xb3667a2e, 0xc4614ab8, 0x5d681b02, 0x2a6f2b94, 0xb40bbe37, 0xc30c8ea1, 0x5a05df1b, 0x2d02ef8d]

/-- The loop of `rd_crc32_reflect`. -/
def reflectLoop : Nat → RdCrc32 → RdCrc32 → RdCrc32
  | 0, _, ret => ret
  | n + 1, data, ret =>
    let data := data >>> 1
    reflectLoop n data ((ret <<< 1) ||| (data &&& 1))

/-- `rd_crc32_reflect`. -/
def rdCrc32Reflect (data : RdCrc32) (dataLen : Nat) : RdCrc32 := reflectLoop (dataLen - 1) data (data &&& 1)

/-- `rd_crc32_init`. -/
def rdCrc32Init : RdCrc32 := 0xffffffff

/-- `rd_crc32_update`. -/
def rdCrc32Update : RdCrc32 → List UInt8 → Option RdCrc32
  | crc, [] => some (crc &&& 0xffffffff)
  | crc, b :: data => do
    let tblIdx := (crc ^^^ b.toBitVec.setWidth 32) &&& 0xff
    let entry ← crcTable[tblIdx.toNat]?
    rdCrc32Update ((entry ^^^ (crc >>> 8)) &&& 0xffffffff) data

/-- `rd_crc32_finalize`. -/
def rdCrc32Finalize (crc : RdCrc32) : RdCrc32 := crc ^^^ 0xffffffff

/-- `rd_crc32`. -/
def rdCrc32 (data : List UInt8) : Option RdCrc32 := (rdCrc32Update rdCrc32Init data).map rdCrc32Finalize

example : rdCrc32 [49, 50, 51, 52, 53, 54, 55, 56, 57] = some 0xcbf43926 := by decide

/-! ## Reflection -/

theorem getLsbD_and_one (data : RdCrc32) (i : Nat) : (data &&& 1).getLsbD i = (decide (i = 0) && data.getLsbD 0) := by
  rw [BitVec.getLsbD_and]
  by_cases hi : i = 0
  · subst hi
    simp
  · simp [hi]

theorem getLsbD_reflectLoop (n : Nat) (data ret : RdCrc32) {i : Nat} (hi : i < 32) :
    (reflectLoop n data ret).getLsbD i =
    if i < n then data.getLsbD (n - i) else ret.getLsbD (i - n) := by
  induction n generalizing data ret with
  | zero => rfl
  | succ n ih =>
    rw [reflectLoop, ih]
    rcases Nat.lt_trichotomy i n with hlt | heq | hgt
    · rw [if_pos hlt, if_pos (by omega), BitVec.getLsbD_ushiftRight, ← Nat.add_sub_assoc (Nat.le_of_lt hlt),
        Nat.add_comm 1]
    · -- the bit of this round
      subst heq
      rw [if_neg (Nat.lt_irrefl i), if_pos (Nat.lt_succ_self i), BitVec.getLsbD_or, getLsbD_and_one,
        BitVec.getLsbD_shiftLeft,
        BitVec.getLsbD_ushiftRight]
      simp
    · have hsub : i - n - 1 = i - (n + 1) := by omega
      rw [if_neg (by omega), if_neg (by omega), BitVec.getLsbD_or, getLsbD_and_one, BitVec.getLsbD_shiftLeft, hsub]
      simp [show i - n < 32 by omega, show ¬ i - n = 0 by omega]

/-- **Reflection** turns the lowest `n` bits around. -/
theorem getLsbD_rdCrc32Reflect (data : RdCrc32) {n : Nat} (hn : 0 < n) {i : Nat} (hi : i < 32) :
    (rdCrc32Reflect data n).getLsbD i = (decide (i < n) && data.getLsbD (n - 1 - i)) := by
  rw [rdCrc32Reflect, getLsbD_reflectLoop _ _ _ hi, getLsbD_and_one]
  rcases Nat.lt_trichotomy i (n - 1) with hlt | heq | hgt
  · simp [hlt, show i < n by omega]
  · subst heq
    simp [show n - 1 < n by omega]
  · simp [show ¬ i < n by omega, show ¬ i < n - 1 by omega, show ¬ i - (n - 1) = 0 by omega]

/-! ## The table -/

/-- The polynomial of `rdcrc32.c`, reflected. -/
def poly : RdCrc32 := rdCrc32Reflect 0x04c11db7 32

/-- The bits of bytes, the lowest of each first. -/
def bits (data : List UInt8) : List Bool := data.flatMap fun b => (List.range 8).map b.toBitVec.getLsbD

theorem ofBits_bits (b : UInt8) : ofBits 32 (bits [b]) = b.toBitVec.setWidth 32 := by
  apply BitVec.eq_of_getLsbD_eq
  intro i hi
  rw [getLsbD_ofBits, BitVec.getLsbD_setWidth, bits, List.flatMap_singleton]
  by_cases h8 : i < 8
  · simp [hi, h8, List.getD_eq_getElem?_getD]
  · simp [h8, List.getD_eq_getElem?_getD, BitVec.getLsbD_of_ge b.toBitVec i (by omega)]

/-- **The table**: eight steps of the register. -/
theorem crcTable_eq (i : BitVec 8) : crcTable[i.toNat]? = some (shifts poly 8 (i.setWidth 32)) := by
  have hall : ∀ n : Fin 256, crcTable[n.val]? = some (shifts poly 8 (BitVec.ofNat 32 n.val)) := by decide +kernel
  have hi : i.setWidth 32 = BitVec.ofNat 32 i.toNat := BitVec.eq_of_toNat_eq (by simp)
  rw [hi]
  exact hall i.toFin

theorem and_ones (x : RdCrc32) : x &&& 0xffffffff = x := by
  have hones : (0xffffffff : RdCrc32) = BitVec.allOnes 32 := rfl
  rw [hones, BitVec.and_allOnes]

/-- The index is the byte that leaves the register. -/
theorem tblIdx_eq (x : RdCrc32) : x &&& 0xff = (x.setWidth 8).setWidth 32 := by
  have hmask : ∀ i, i < 32 → (0xff : RdCrc32).getLsbD i = decide (i < 8) := by decide
  apply BitVec.eq_of_getLsbD_eq
  intro i hi
  rw [BitVec.getLsbD_and, BitVec.getLsbD_setWidth, BitVec.getLsbD_setWidth, hmask i hi, Bool.and_comm]
  simp [hi]

/-- **A byte of the buffer** feeds its bits into the register. -/
theorem crcTable_step (crc : RdCrc32) (b : UInt8) :
    crcTable[((crc ^^^ b.toBitVec.setWidth 32) &&& 0xff).toNat]?.map
    (fun entry => (entry ^^^ (crc >>> 8)) &&& 0xffffffff) =
      some (feeds poly crc (bits [b])) := by
  obtain ⟨sum, hsum⟩ : ∃ sum, crc ^^^ b.toBitVec.setWidth 32 = sum := ⟨_, rfl⟩
  have hidx : (sum &&& 0xff).toNat = (sum.setWidth 8).toNat := by
    rw [tblIdx_eq, BitVec.toNat_setWidth_of_le (by decide)]
  have hhigh : crc >>> 8 = sum >>> 8 := by
    have hbyte : b.toBitVec.setWidth 32 >>> 8 = 0 := by
      apply BitVec.eq_of_getLsbD_eq
      intro i _
      rw [BitVec.getLsbD_ushiftRight, BitVec.getLsbD_setWidth, BitVec.getLsbD_of_ge _ _ (by omega)]
      simp
    rw [← hsum, BitVec.ushiftRight_xor_distrib, hbyte]
    exact BitVec.xor_zero.symm
  have hlen : (bits [b]).length = 8 := by simp [bits]
  rw [hsum, hidx, crcTable_eq, Option.map_some, and_ones, hhigh, feeds_eq_shifts poly crc (by rw [hlen]; decide), hlen,
    ofBits_bits, hsum, shifts_split poly 8 sum, BitVec.xor_comm]

theorem bits_cons (b : UInt8) (data : List UInt8) : bits (b :: data) = bits [b] ++ bits data := by
  rw [bits, bits, bits, List.flatMap_cons, List.flatMap_singleton]

/-- **Updates** feed the bits of the buffer into the register, and read inside the table. -/
theorem rdCrc32Update_eq (crc : RdCrc32) (data : List UInt8) :
    rdCrc32Update crc data = some (feeds poly crc (bits data)) := by
  induction data generalizing crc with
  | nil =>
    rw [rdCrc32Update, and_ones]
    rfl
  | cons b data ih =>
    have hstep := crcTable_step crc b
    obtain ⟨entry, hentry, hnext⟩ := Option.map_eq_some_iff.1 hstep
    rw [rdCrc32Update, hentry, Option.bind_eq_bind, Option.bind_some, hnext, ih, bits_cons b data, feeds_append]

end Librd.Crc
