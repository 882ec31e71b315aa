import FgMpi.Types.Widths
import Mathlib.Tactic.IntervalCases

/-! `mpid/common/datatype/mpid_ext32_segment.c`, on a little-endian host. -/

namespace FgMpi.Types.External32
open Machine.Ints

abbrev Byte := BitVec 8
abbrev Memory := Int → Byte

/-- `BASIC_convert16` and `BASIC_convert32`; the shifts are those of a signed operand. -/
def basicConvert16 (src : BitVec 16) : BitVec 16 :=
  (src.sshiftRight 8 &&& 0x00FF) ||| (src <<< 8 &&& 0xFF00)

def basicConvert32 {w : Nat} (src : BitVec w) : BitVec w :=
  (src.sshiftRight 24 &&& 0x000000FF#w) ||| (src.sshiftRight 8 &&& 0x0000FF00#w) |||
    (src <<< 8 &&& 0x00FF0000#w) ||| (src <<< 24 &&& 0xFF000000#w)

def basicConvert64 (src : BitVec 64) : BitVec 64 :=
  let dest0 := basicConvert32 ((src >>> 32).setWidth 32)
  let dest1 := basicConvert32 ((src <<< 32 >>> 32).setWidth 32)
  dest0.setWidth 64 <<< 32 ||| dest1.setWidth 64

/-- `(long) src` and `(float) d`.  `undef` is what the first one gives outside the range of `long`. -/
def longOfFloat (undef : BitVec 32 → BitVec 64) (f : BitVec 32) : BitVec 64 :=
  let e := f.toNat / 2 ^ 23 % 256
  let m := 2 ^ 23 + f.toNat % 2 ^ 23
  if e ≥ 190 then undef f
  else
    let n : Nat := if e < 150 then m / 2 ^ (150 - e) else m * 2 ^ (e - 150)
    if f.toNat / 2 ^ 31 = 1 then BitVec.ofInt 64 (-n) else BitVec.ofNat 64 n

def significand (n : Nat) : Nat :=
  let k := n.log2
  if k ≤ 23 then n * 2 ^ (23 - k)
  else
    let q := n / 2 ^ (k - 23)
    let r := n % 2 ^ (k - 23)
    if r > 2 ^ (k - 24) ∨ r = 2 ^ (k - 24) ∧ q % 2 = 1 then q + 1 else q

def floatOfNat (n : Nat) : Nat := if n = 0 then 0 else (n.log2 + 126) * 2 ^ 23 + significand n

def floatOfLong (d : BitVec 64) : BitVec 32 :=
  BitVec.ofNat 32 (floatOfNat d.toInt.natAbs + if d.toInt < 0 then 2 ^ 31 else 0)

def load16 (m : Memory) (a : Int) : BitVec 16 := m (a + 1) ++ m a

def load32 (m : Memory) (a : Int) : BitVec 32 := m (a + 3) ++ (m (a + 2) ++ (m (a + 1) ++ m a))

def load64 (m : Memory) (a : Int) : BitVec 64 := load32 m (a + 4) ++ load32 m a

def byteOf {w : Nat} (x : BitVec w) (i : Nat) : Byte := x.extractLsb' (8 * i) 8

def store (m : Memory) (a : Int) (width : Nat) (bytes : Nat → Byte) : Memory := fun x =>
  if a ≤ x ∧ x < a + width then bytes (x - a).toNat else m x

/-- The conversion of one element: it reads and writes `width` bytes. -/
structure Conversion where
  width : Nat
  bytes : Memory → Int → Nat → Byte

def convert16 : Conversion := ⟨2, fun m a => byteOf (basicConvert16 (load16 m a))⟩
def convert32 : Conversion := ⟨4, fun m a => byteOf (basicConvert32 (load32 m a))⟩
def convert64 : Conversion := ⟨8, fun m a => byteOf (basicConvert64 (load64 m a))⟩

/-- `FLOAT_convert` of 4 bytes. -/
def floatConvert4 (undef : BitVec 32 → BitVec 64) : Conversion :=
  ⟨4, fun m a => byteOf (floatOfLong (basicConvert32 (longOfFloat undef (load32 m a))))⟩

/-- `FLOAT_convert` of 8 bytes: there is no `break`, and the conversions of 96 and 128 bits follow, the
last of which writes over the others. -/
def floatConvert8 : Conversion :=
  ⟨16, fun m a i =>
    if i < 8 then byteOf (basicConvert64 (load64 m a)) i
    else byteOf (basicConvert64 (load64 m (a + 8))) (i - 8)⟩

structure Copied where
  memory : Memory
  reads : List (Int × Nat)

/-- The loop up to `src_end`; the first argument is how often it goes round. -/
def convertLoop (c : Conversion) (size : Nat) (src : Memory) : Nat → Int → Int → Copied → Copied
  | 0, _, _, out => out
  | n + 1, srcPtr, destPtr, out =>
    convertLoop c size src n (srcPtr + size) (destPtr + size)
      ⟨store out.memory destPtr c.width (c.bytes src srcPtr), out.reads ++ [(srcPtr, c.width)]⟩

/-- How often `src_ptr` is increased before it is `src_buf + ((int)count * src_el_size)`. -/
def loopRounds (count size : Nat) : Nat := (toInt (toInt count * size) % 2 ^ 64).toNat / size

/-- The basic types as the code tells them apart, by `is_float_type` and their size. -/
inductive Basic
  | byte
  | two
  | four
  | eight
  | float
  | double
deriving Repr, DecidableEq

def Basic.size : Basic → Nat
  | byte => 1
  | two => 2
  | four | float => 4
  | eight | double => 8

structure ElType where
  basic : Basic
  external32Size : Nat

def ElType.basicSize (t : ElType) : Nat := t.basic.size

/-- The conversion that the size selects in `external32_basic_convert` or `external32_float_convert`. -/
def conversion (undef : BitVec 32 → BitVec 64) : Basic → Option Conversion
  | .byte => none
  | .two => some convert16
  | .four => some convert32
  | .eight => some convert64
  | .float => some (floatConvert4 undef)
  | .double => some floatConvert8

/-- What both piece functions do, and the pointer into the packed buffer afterwards; `none` is an
assertion or `MPID_Abort`. -/
def convertPiece (undef : BitVec 32 → BitVec 64) (t : ElType) (blocks : Nat) (src : Memory)
    (srcBuf : Int) (dest : Memory) (destBuf : Int) : Option Copied :=
  if t.external32Size = 0 then none
  else if t.basicSize = t.external32Size ∧ t.basicSize = 1 then
    some ⟨store dest destBuf blocks fun i => src (srcBuf + i), [(srcBuf, blocks)]⟩
  else if destBuf = 0 ∨ srcBuf = 0 then none
  else if t.basicSize = t.external32Size then
    match conversion undef t.basic with
    | some c =>
      some (convertLoop c t.basicSize src (loopRounds blocks t.basicSize) srcBuf destBuf ⟨dest, []⟩)
    | none => some ⟨dest, []⟩
  else none

/-- `MPID_Segment_contig_pack_external32_to_buf`: the packed buffer and the pointer into it. -/
def contigPackExternal32ToBuf (undef : BitVec 32 → BitVec 64) (blocks : Nat) (elType : ElType)
    (relOff : Int) (user : Memory) (bufp : Int) (buffer : Memory) (packBuffer : Int) :
    Option (Copied × Int) :=
  (convertPiece undef elType blocks user (bufp + relOff) buffer packBuffer).map fun out =>
    (out, packBuffer + elType.external32Size * blocks)

/-- `MPID_Segment_contig_unpack_external32_to_buf`: the user's memory and the pointer. -/
def contigUnpackExternal32ToBuf (undef : BitVec 32 → BitVec 64) (blocks : Nat) (elType : ElType)
    (relOff : Int) (user : Memory) (bufp : Int) (buffer : Memory) (unpackBuffer : Int) :
    Option (Copied × Int) :=
  (convertPiece undef elType blocks buffer unpackBuffer user (bufp + relOff)).map fun out =>
    (out, unpackBuffer + elType.external32Size * blocks)

variable {w i k n s : Nat}

theorem getLsbD_byteOf (x : BitVec w) (i j : Nat) :
    (byteOf x i).getLsbD j = (decide (j < 8) && x.getLsbD (8 * i + j)) := by
  rw [byteOf, BitVec.getLsbD_extractLsb']

theorem byteOf_append_high {v : Nat} (x : BitVec v) (y : BitVec w) (hw : w = 8 * k)
    (hk : k ≤ i) : byteOf (x ++ y) i = byteOf x (i - k) := by
  subst hw
  ext j hj
  rw [← BitVec.getLsbD_eq_getElem, ← BitVec.getLsbD_eq_getElem, getLsbD_byteOf, getLsbD_byteOf,
    BitVec.getLsbD_append, if_neg (by omega)]
  congr 2
  omega

theorem byteOf_append_low {v : Nat} (x : BitVec v) (y : BitVec w) (hw : 8 * i + 8 ≤ w) :
    byteOf (x ++ y) i = byteOf y i := by
  ext j hj
  rw [← BitVec.getLsbD_eq_getElem, ← BitVec.getLsbD_eq_getElem, getLsbD_byteOf, getLsbD_byteOf,
    BitVec.getLsbD_append, if_pos (by omega)]

theorem byteOf_byte (x : Byte) : byteOf x 0 = x := by
  ext j hj
  rw [← BitVec.getLsbD_eq_getElem, getLsbD_byteOf, Nat.mul_zero, Nat.zero_add, decide_eq_true hj,
    Bool.true_and, BitVec.getLsbD_eq_getElem]

theorem byteOf_load16 (m : Memory) (a : Int) (hi : i < 2) :
    byteOf (load16 m a) i = m (a + i) := by
  change byteOf (w := 8 + 8) (m (a + 1) ++ m a) i = m (a + i)
  interval_cases i
  · rw [byteOf_append_low _ _ (by decide), byteOf_byte, Nat.cast_zero, Int.add_zero]
  · rw [byteOf_append_high (k := 1) _ _ rfl le_rfl, byteOf_byte, Nat.cast_one]

theorem byteOf_load32 (m : Memory) (a : Int) (hi : i < 4) :
    byteOf (load32 m a) i = m (a + i) := by
  change byteOf (w := 8 + (8 + (8 + 8))) (m (a + 3) ++ (m (a + 2) ++ (m (a + 1) ++ m a))) i = _
  by_cases hi3 : i = 3
  · subst hi3
    rw [byteOf_append_high (k := 3) _ _ rfl le_rfl, byteOf_byte]
    rfl
  rw [byteOf_append_low _ _ (by omega)]
  by_cases hi2 : i = 2
  · subst hi2
    rw [byteOf_append_high (k := 2) _ _ rfl le_rfl, byteOf_byte]
    rfl
  rw [byteOf_append_low _ _ (by omega)]
  exact byteOf_load16 m a (by omega)

theorem byteOf_load64 (m : Memory) (a : Int) (hi : i < 8) :
    byteOf (load64 m a) i = m (a + i) := by
  change byteOf (w := 32 + 32) (load32 m (a + 4) ++ load32 m a) i = _
  by_cases hlow : i < 4
  · rw [byteOf_append_low _ _ (by omega), byteOf_load32 m a hlow]
  · rw [byteOf_append_high (k := 4) _ _ rfl (by omega), byteOf_load32 m _ (by omega)]
    congr 1
    omega

theorem getLsbD_basicConvert16 (x : BitVec 16) {j : Nat} (hj : j < 16) :
    (basicConvert16 x).getLsbD j = x.getLsbD (8 * (1 - j / 8) + j % 8) := by
  unfold basicConvert16
  interval_cases j <;>
    simp +decide [-BitVec.getLsbD_eq_getElem, BitVec.getLsbD_sshiftRight, BitVec.getLsbD_ofNat,
      Nat.testBit_eq_decide_div_mod_eq]

theorem getLsbD_basicConvert32 (hw : 32 ≤ w) (x : BitVec w) {j : Nat} (hj : j < 32) :
    (basicConvert32 x).getLsbD j = x.getLsbD (8 * (3 - j / 8) + j % 8) := by
  obtain ⟨v, rfl⟩ := Nat.exists_eq_add_of_le hw
  have hlt : ∀ k < 32, k < 32 + v := fun k hk => Nat.lt_add_right v hk
  have hle : ∀ k < 32, ¬32 + v ≤ k := fun k hk => Nat.not_le_of_lt (hlt k hk)
  unfold basicConvert32
  interval_cases j <;>
    simp +decide [-BitVec.getLsbD_eq_getElem, BitVec.getLsbD_sshiftRight, BitVec.getLsbD_ofNat,
      Nat.testBit_eq_decide_div_mod_eq, hlt, hle]

theorem byteOf_basicConvert16 (x : BitVec 16) (hi : i < 2) :
    byteOf (basicConvert16 x) i = byteOf x (1 - i) := by
  ext j hj
  rw [← BitVec.getLsbD_eq_getElem, ← BitVec.getLsbD_eq_getElem, getLsbD_byteOf, getLsbD_byteOf,
    getLsbD_basicConvert16 x (by omega)]
  congr 2
  omega

theorem byteOf_basicConvert32 (hw : 32 ≤ w) (x : BitVec w) (hi : i < 4) :
    byteOf (basicConvert32 x) i = byteOf x (3 - i) := by
  ext j hj
  rw [← BitVec.getLsbD_eq_getElem, ← BitVec.getLsbD_eq_getElem, getLsbD_byteOf, getLsbD_byteOf,
    getLsbD_basicConvert32 hw x (by omega)]
  congr 2
  omega

theorem or_eq_append (high low : BitVec 32) : high.setWidth 64 <<< 32 ||| low.setWidth 64 = high ++ low := by
  refine BitVec.eq_of_getLsbD_eq fun j hj => ?_
  refine Eq.trans ?_ BitVec.getLsbD_append.symm
  rw [BitVec.getLsbD_or, BitVec.getLsbD_shiftLeft, BitVec.getLsbD_setWidth, BitVec.getLsbD_setWidth]
  split
  · simp [*]
  · have hhigh : low.getLsbD j = false := BitVec.getLsbD_of_ge _ _ (by omega)
    have hlt : j - 32 < 64 := by omega
    simp [*]

theorem basicConvert64_eq (x : BitVec 64) : basicConvert64 x =
    basicConvert32 ((x >>> 32).setWidth 32) ++ basicConvert32 ((x <<< 32 >>> 32).setWidth 32) :=
  or_eq_append _ _

theorem byteOf_basicConvert64 (x : BitVec 64) (hi : i < 8) :
    byteOf (basicConvert64 x) i = byteOf x (if i < 4 then 3 - i else 11 - i) := by
  rw [basicConvert64_eq]
  split
  · rw [byteOf_append_low _ _ (by omega), byteOf_basicConvert32 le_rfl _ ‹_›]
    ext j hj
    have hlt : 8 * (3 - i) + j < 32 := by omega
    have hlt' : 32 + (8 * (3 - i) + j) < 64 := by omega
    rw [← BitVec.getLsbD_eq_getElem, ← BitVec.getLsbD_eq_getElem]
    simp [byteOf, hlt, hlt', -BitVec.getLsbD_eq_getElem]
  · rw [byteOf_append_high (k := 4) _ _ rfl (by omega), byteOf_basicConvert32 le_rfl _ (by omega)]
    ext j hj
    have hlt : 8 * (3 - (i - 4)) + j < 32 := by omega
    have hadd : 32 + (8 * (3 - (i - 4)) + j) = 8 * (11 - i) + j := by omega
    simp [byteOf, hlt, hadd]

theorem byteOf_toNat (x : BitVec w) (i : Nat) :
    (byteOf x i).toNat = x.toNat / 2 ^ (8 * i) % 256 := by
  rw [byteOf, BitVec.extractLsb'_toNat, Nat.shiftRight_eq_div_pow]

theorem basicConvert32_lt (x : BitVec 64) : (basicConvert32 x).toNat < 2 ^ 32 := by
  unfold basicConvert32
  simp only [BitVec.toNat_or, BitVec.toNat_and]
  refine Nat.or_lt_two_pow (Nat.or_lt_two_pow (Nat.or_lt_two_pow ?_ ?_) ?_) ?_ <;>
    exact Nat.and_lt_two_pow _ (by decide)

structure Rounded (n k s : Nat) : Prop where
  low : 2 ^ k ≤ n
  high : n < 2 ^ (k + 1)
  ge : 2 ^ 23 ≤ s
  le : s ≤ 2 ^ 24
  exact : k ≤ 23 → s = n * 2 ^ (23 - k)

theorem significand_rounded (hn : 0 < n) : Rounded n n.log2 (significand n) := by
  have hlow : 2 ^ n.log2 ≤ n := Nat.log2_self_le (Nat.pos_iff_ne_zero.mp hn)
  have hhigh : n < 2 ^ (n.log2 + 1) := Nat.lt_log2_self
  unfold significand
  generalize n.log2 = k at hlow hhigh
  rw [Nat.pow_succ] at hhigh
  by_cases hk : k ≤ 23
  · have hpow : 2 ^ k * 2 ^ (23 - k) = 2 ^ 23 := by rw [← Nat.pow_add, Nat.add_sub_cancel' hk]
    have hge := Nat.mul_le_mul_right (2 ^ (23 - k)) hlow
    have hle := Nat.mul_le_mul_right (2 ^ (23 - k)) hhigh.le
    refine ⟨hlow, hhigh, ?_, ?_, fun _ => ?_⟩ <;> simp only [if_pos hk]
    · omega
    · rw [Nat.mul_right_comm, hpow] at hle
      exact hle
  · have hpow : 2 ^ k = 2 ^ (k - 23) * 2 ^ 23 := by rw [← Nat.pow_add, Nat.sub_add_cancel (by omega)]
    have hge : 2 ^ 23 ≤ n / 2 ^ (k - 23) := by
      rw [Nat.le_div_iff_mul_le (Nat.two_pow_pos _), Nat.mul_comm, ← hpow]
      exact hlow
    have hlt : n / 2 ^ (k - 23) < 2 ^ 24 := by
      rw [Nat.div_lt_iff_lt_mul (Nat.two_pow_pos _)]
      calc n < 2 ^ k * 2 := hhigh
        _ = 2 ^ 24 * 2 ^ (k - 23) := by rw [hpow, Nat.pow_succ 2 23]; ring
    refine ⟨hlow, hhigh, ?_, ?_, fun hle => absurd hle hk⟩ <;> simp only [if_neg hk] <;> split <;> omega

def fits (k k' : Nat) : Prop :=
  (k ≤ 23 → (k' + 127) / 2 % 2 ^ min 8 (23 - k) = 0) ∧
    (23 ≤ k → 2 ^ k' / 2 ^ 24 ≤ (k' + 127) / 2 * 2 ^ (k - 23) % 256 ∧
      (k' + 127) / 2 * 2 ^ (k - 23) % 256 ≤ (2 ^ (k' + 1) - 1) / 2 ^ 24)

instance (k k' : Nat) : Decidable (fits k k') := inferInstanceAs (Decidable (_ ∧ _))

theorem exponents : ∀ k k' : Fin 32, fits k k' → fits k' k →
    (k.val, k'.val) ∈ [(22, 22), (22, 30), (30, 22)] := by
  decide +kernel

theorem top_byte (hge : 2 ^ 23 ≤ s) (hlt : s < 2 ^ 24) :
    ((k + 126) * 2 ^ 23 + s) / 2 ^ 24 = (k + 127) / 2 := by omega

structure Ends (k s n : Nat) : Prop where
  top : n / 2 ^ 24 = (if k < 23 then s / 2 ^ (23 - k) else s * 2 ^ (k - 23)) % 256
  low : n % 256 = (if k < 23 then s / 2 ^ (23 - k) else s * 2 ^ (k - 23)) / 2 ^ 24 % 256

theorem ends_fits {k' s' n' : Nat} (h : Rounded n k s) (h' : Rounded n' k' s')
    (hends : Ends k s n') (hbyte : s % 256 = (k' + 127) / 2) : fits k k' := by
  constructor
  · intro hk
    have hdvd : 2 ^ min 8 (23 - k) ∣ s := by
      rw [h.exact hk]
      exact (Nat.pow_dvd_pow 2 (Nat.min_le_right _ _)).mul_left n
    have hbase : 2 ^ min 8 (23 - k) ∣ 256 := Nat.pow_dvd_pow 2 (Nat.min_le_left 8 (23 - k))
    rw [← hbyte]
    exact Nat.mod_eq_zero_of_dvd ((Nat.dvd_mod_iff hbase).mpr hdvd)
  · intro hk
    have htop := hends.top
    rw [if_neg (by omega), Nat.mul_mod, hbyte] at htop
    have hmod : (k' + 127) / 2 * 2 ^ (k - 23) % 256 = n' / 2 ^ 24 := by
      rw [htop, ← hbyte, Nat.mul_mod (s % 256), Nat.mod_mod]
    rw [hmod]
    have hhigh := h'.high
    exact ⟨Nat.div_le_div_right h'.low, Nat.div_le_div_right (by omega)⟩

theorem not_fixed {k' s' n' : Nat} (hk : k < 32) (hk' : k' < 32) (h : Rounded n k s)
    (h' : Rounded n' k' s') (hends : Ends k s n') (hends' : Ends k' s' n)
    (hbyte : s % 256 = (k' + 127) / 2) (hbyte' : s' % 256 = (k + 127) / 2) : False := by
  have hmem := exponents ⟨k, hk⟩ ⟨k', hk'⟩ (ends_fits h h' hends hbyte) (ends_fits h' h hends' hbyte')
  simp only [List.mem_cons, Prod.mk.injEq, List.not_mem_nil, or_false] at hmem
  have htop := hends.top
  have hlow := hends.low
  have hlow' := hends'.low
  have hexact := h.exact
  have hexact' := h'.exact
  have hhigh' := h'.high
  have hge := h.ge
  have hge' := h'.ge
  have hle := h.le
  have hle' := h'.le
  rcases hmem with ⟨rfl, rfl⟩ | ⟨rfl, rfl⟩ | ⟨rfl, rfl⟩
  · norm_num at *
    omega
  · norm_num at *
    omega
  · norm_num at *
    omega

theorem floatOfNat_lt (hn : n < 2 ^ 32) : floatOfNat n < 2 ^ 32 := by
  unfold floatOfNat
  split
  · decide
  · have hle := (significand_rounded (n := n) (by omega)).le
    have hlog := (Nat.log2_lt (by omega)).mpr hn
    omega

theorem floatOfLong_toNat {d : BitVec 64} (hd : d.toNat < 2 ^ 32) :
    (floatOfLong d).toNat = floatOfNat d.toNat := by
  have hint : d.toInt = d.toNat := BitVec.toInt_eq_toNat_of_lt (by omega)
  have hnonneg : ¬(d.toNat : Int) < 0 := by omega
  rw [floatOfLong, hint, if_neg hnonneg, Int.natAbs_natCast, Nat.add_zero, BitVec.toNat_ofNat,
    Nat.mod_eq_of_lt (floatOfNat_lt hd)]

theorem longOfFloat_toNat (undef : BitVec 32 → BitVec 64) {f : BitVec 32} (hk : k < 32)
    (hge : 2 ^ 23 ≤ s) (hlt : s < 2 ^ 24) (hf : f.toNat = (k + 126) * 2 ^ 23 + s) :
    (longOfFloat undef f).toNat = if k < 23 then s / 2 ^ (23 - k) else s * 2 ^ (k - 23) := by
  have he : f.toNat / 2 ^ 23 % 256 = k + 127 := by omega
  have hm : 2 ^ 23 + f.toNat % 2 ^ 23 = s := by omega
  have hsign : ¬f.toNat / 2 ^ 31 = 1 := by omega
  unfold longOfFloat
  simp only [he, hm, if_neg hsign]
  rw [if_neg (by omega), BitVec.toNat_ofNat]
  have hsub : 150 - (k + 127) = 23 - k := by omega
  have hsub' : k + 127 - 150 = k - 23 := by omega
  rw [hsub, hsub']
  split
  · rw [if_pos (by omega), Nat.mod_eq_of_lt]
    exact lt_of_le_of_lt (Nat.div_le_self _ _) (by omega)
  · rw [if_neg (by omega), Nat.mod_eq_of_lt]
    have hpow : 2 ^ (k - 23) ≤ 2 ^ 8 := Nat.pow_le_pow_right (by decide) (by omega)
    calc s * 2 ^ (k - 23) ≤ 2 ^ 24 * 2 ^ 8 := Nat.mul_le_mul hlt.le hpow
      _ < 2 ^ 64 := by decide

section Float
variable (undef : BitVec 32 → BitVec 64)

def floatTurned (f : BitVec 32) : BitVec 32 := floatOfLong (basicConvert32 (longOfFloat undef f))

theorem floatTurned_toNat (f : BitVec 32) :
    (floatTurned undef f).toNat = floatOfNat (basicConvert32 (longOfFloat undef f)).toNat :=
  floatOfLong_toNat (basicConvert32_lt _)

variable {f : BitVec 32}

theorem floatTurned_rounded {g : BitVec 32} (h : floatTurned undef g = f) (hf : f ≠ 0) :
    ∃ k s, k < 32 ∧ Rounded (basicConvert32 (longOfFloat undef g)).toNat k s ∧
      f.toNat = (k + 126) * 2 ^ 23 + s := by
  have hnat := floatTurned_toNat undef g
  rw [h] at hnat
  have hne : (basicConvert32 (longOfFloat undef g)).toNat ≠ 0 := by
    intro hzero
    rw [hzero, floatOfNat, if_pos rfl] at hnat
    exact hf (BitVec.eq_of_toNat_eq hnat)
  rw [floatOfNat, if_neg hne] at hnat
  exact ⟨_, _, (Nat.log2_lt hne).mpr (basicConvert32_lt _),
    significand_rounded (Nat.pos_of_ne_zero hne), by rw [hnat]⟩

theorem floatTurned_ends {k s : Nat} (hk : k < 32) (hge : 2 ^ 23 ≤ s) (hlt : s < 2 ^ 24)
    (hf : f.toNat = (k + 126) * 2 ^ 23 + s) :
    Ends k s (basicConvert32 (longOfFloat undef f)).toNat := by
  have hlong := longOfFloat_toNat undef hk hge hlt hf
  have hbound := basicConvert32_lt (longOfFloat undef f)
  have h0 := congrArg BitVec.toNat (byteOf_basicConvert32 (by decide) (longOfFloat undef f)
    (show 0 < 4 by decide))
  have h3 := congrArg BitVec.toNat (byteOf_basicConvert32 (by decide) (longOfFloat undef f)
    (show 3 < 4 by decide))
  rw [byteOf_toNat, byteOf_toNat, hlong] at h0 h3
  constructor
  · rw [show 3 - 3 = 0 from rfl, Nat.mul_zero, Nat.pow_zero, Nat.div_one] at h3
    rw [← h3]
    omega
  · rw [Nat.mul_zero, Nat.pow_zero, Nat.div_one] at h0
    exact h0

theorem floatTurned_iff {g : BitVec 32} (hbytes : ∀ i < 4, byteOf g i = byteOf f (3 - i)) :
    floatTurned undef f = g ∧ floatTurned undef g = f ↔ f = 0 := by
  have h0 := congrArg BitVec.toNat (hbytes 0 (by decide))
  have h3 := congrArg BitVec.toNat (hbytes 3 (by decide))
  rw [byteOf_toNat, byteOf_toNat] at h0 h3
  have hf := f.isLt
  have hg := g.isLt
  constructor
  · rintro ⟨hpack, hunpack⟩
    by_contra hne
    obtain ⟨k, s, hk, hrounded, hfk⟩ := floatTurned_rounded undef hunpack hne
    have hg0 : g ≠ 0 := by
      rintro rfl
      have hz : (0 : BitVec 32).toNat = 0 := rfl
      rw [hz] at h0
      have hge := hrounded.ge
      omega
    obtain ⟨k', s', hk', hrounded', hgk⟩ := floatTurned_rounded undef hpack hg0
    have hge := hrounded.ge
    have hge' := hrounded'.ge
    have hlow : f.toNat % 256 = s % 256 := by omega
    have hlow' : g.toNat % 256 = s' % 256 := by omega
    have htop : g.toNat / 2 ^ 24 = s % 256 := by omega
    have htop' : f.toNat / 2 ^ 24 = s' % 256 := by omega
    have hlt : s < 2 ^ 24 := by
      refine lt_of_le_of_ne hrounded.le ?_
      rintro rfl
      omega
    have hlt' : s' < 2 ^ 24 := by
      refine lt_of_le_of_ne hrounded'.le ?_
      rintro rfl
      omega
    rw [hfk, top_byte hge hlt] at htop'
    rw [hgk, top_byte hge' hlt'] at htop
    exact not_fixed hk hk' hrounded hrounded' (floatTurned_ends undef hk hge hlt hfk)
      (floatTurned_ends undef hk' hge' hlt' hgk) htop.symm htop'.symm
  · rintro rfl
    have hlong : longOfFloat undef 0 = 0 := by simp [longOfFloat]
    have hzero : floatTurned undef 0 = 0 := by
      rw [floatTurned, hlong]
      decide
    have hgz : g = 0 := by
      have h1 := congrArg BitVec.toNat (hbytes 1 (by decide))
      have h2 := congrArg BitVec.toNat (hbytes 2 (by decide))
      rw [byteOf_toNat, byteOf_toNat] at h1 h2
      have hz : (0 : BitVec 32).toNat = 0 := rfl
      rw [hz] at h0 h1 h2 h3
      refine BitVec.eq_of_toNat_eq ?_
      rw [hz]
      omega
    rw [hgz]
    exact ⟨hzero, hzero⟩

end Float

section Loop
variable (c : Conversion) {size : Nat} (src : Memory)

theorem convertLoop_outside {n : Nat} {srcPtr destPtr : Int} {out : Copied} {x : Int}
    (h : ∀ i < n, ¬(destPtr + i * size ≤ x ∧ x < destPtr + i * size + c.width)) :
    (convertLoop c size src n srcPtr destPtr out).memory x = out.memory x := by
  induction n generalizing srcPtr destPtr out with
  | zero => rfl
  | succ n ih =>
    have hfirst := h 0 (Nat.succ_pos n)
    rw [convertLoop, ih]
    · rw [Nat.cast_zero, Int.zero_mul, Int.add_zero] at hfirst
      exact if_neg hfirst
    · intro i hi
      have hnext := h (i + 1) (Nat.succ_lt_succ hi)
      rw [Nat.cast_succ, Int.add_mul, Int.one_mul, Int.add_comm _ (size : Int), ← Int.add_assoc] at hnext
      exact hnext

theorem convertLoop_inside (hwidth : c.width = size) {n : Nat} {srcPtr destPtr : Int} {out : Copied}
    {i j : Nat} (hi : i < n) (hj : j < size) :
    (convertLoop c size src n srcPtr destPtr out).memory (destPtr + i * size + j) =
      c.bytes src (srcPtr + i * size) j := by
  induction n generalizing srcPtr destPtr out i with
  | zero => exact absurd hi (Nat.not_lt_zero i)
  | succ n ih =>
    rw [convertLoop]
    cases i with
    | zero =>
      rw [convertLoop_outside]
      · have hin : destPtr ≤ destPtr + ((0 : Nat) : Int) * size + j ∧
            destPtr + ((0 : Nat) : Int) * size + j < destPtr + c.width := by
          rw [hwidth, Nat.cast_zero, Int.zero_mul]
          omega
        have hoff : (destPtr + ((0 : Nat) : Int) * size + j - destPtr).toNat = j := by
          rw [Nat.cast_zero, Int.zero_mul]
          omega
        simp only [store, if_pos hin, hoff]
        rw [Nat.cast_zero, Int.zero_mul, Int.add_zero]
      · intro k _ hk
        have hnonneg : (0 : Int) ≤ (k : Int) * size := Int.mul_nonneg (by omega) (by omega)
        rw [Nat.cast_zero, Int.zero_mul] at hk
        omega
    | succ i =>
      have hshift : ∀ a : Int, a + ((i + 1 : Nat) : Int) * size = a + size + i * size := by
        intro a
        push_cast
        ring
      rw [hshift, hshift]
      exact ih (Nat.lt_of_succ_lt_succ hi)

theorem convertLoop_reads (n : Nat) (srcPtr destPtr : Int) (out : Copied) :
    (convertLoop c size src n srcPtr destPtr out).reads =
      out.reads ++ (List.range n).map fun i : Nat => (srcPtr + i * size, c.width) := by
  induction n generalizing srcPtr destPtr out with
  | zero => exact (List.append_nil _).symm
  | succ n ih =>
    rw [convertLoop, ih, List.range_succ_eq_map, List.map_cons, List.map_map, List.append_assoc,
      List.singleton_append, Nat.cast_zero, Int.zero_mul, Int.add_zero]
    congr 2
    refine List.map_congr_left fun i _ => ?_
    simp only [Function.comp_apply, Nat.succ_eq_add_one]
    push_cast
    congr 1
    ring

end Loop

theorem loopRounds_eq {size : Nat} (hsize : size = 2 ∨ size = 4 ∨ size = 8) (hn : n * size < 2 ^ 63) :
    loopRounds n size = n ∧ n * size < 2 ^ 31 ∨
      2 ^ 31 ≤ n * size ∧ (n < loopRounds n size ∨ loopRounds n size + 1 < n) := by
  unfold loopRounds toInt
  simp only [Int.bmod_def]
  rcases hsize with rfl | rfl | rfl <;> split <;> split <;> omega

/-- The `n` elements at `dest` have the wanted bytes, nothing else has changed, and only the elements at
`src` have been read. -/
structure Placed (size n : Nat) (before : Memory) (dest src : Int) (want : Nat → Nat → Byte)
    (out : Copied) : Prop where
  bytes : ∀ i < n, ∀ j < size, out.memory (dest + i * size + j) = want i j
  frame : ∀ x, x < dest ∨ dest + n * size ≤ x → out.memory x = before x
  reads : ∀ r ∈ out.reads, src ≤ r.1 ∧ r.1 + r.2 ≤ src + n * size

section Piece
variable (undef : BitVec 32 → BitVec 64) (t : ElType) (n : Nat) (relOff : Int) (user : Memory) (bufp : Int)

def reversed (size : Nat) (m : Memory) (a : Int) (i j : Nat) : Byte := m (a + i * size + (size - 1 - j : Nat))

def PieceRight : Prop :=
  ∀ buffer packBuffer, packBuffer ≠ 0 → ∃ out,
    contigPackExternal32ToBuf undef n t relOff user bufp buffer packBuffer =
      some (out, packBuffer + t.basicSize * n) ∧
    Placed t.basicSize n buffer packBuffer (bufp + relOff) (reversed t.basicSize user (bufp + relOff)) out ∧
    ∀ user' bufp' relOff', bufp' + relOff' ≠ 0 → ∃ back,
      contigUnpackExternal32ToBuf undef n t relOff' user' bufp' out.memory packBuffer =
        some (back, packBuffer + t.basicSize * n) ∧
      Placed t.basicSize n user' (bufp' + relOff') packBuffer
        (fun i j => user (bufp + relOff + i * t.basicSize + j)) back

def ElementRight (m : Memory) (a : Int) : Prop :=
  match t.basic with
  | .byte | .two | .four => True
  | .eight => ∀ j : Nat, j < 4 → m (a + j) = m (a + (j + 4 : Nat))
  | .float => ∀ j : Nat, j < 4 → m (a + j) = 0
  | .double => False

def Convertible : Prop :=
  t.external32Size = t.basicSize ∧
    (t.basicSize = 1 ∨ n * t.basicSize < 2 ^ 31 ∧
      ∀ i < n, ElementRight t user (bufp + relOff + i * t.basicSize))

variable {t n}

variable {c : Conversion}

theorem placed_of_bytes {size : Nat} (hwidth : 0 < n → c.width = size)
    (hrounds : loopRounds n size = n) {src dest : Memory} {srcBuf destBuf : Int} {want : Nat → Nat → Byte}
    (hbytes : ∀ i < n, ∀ j < size, c.bytes src (srcBuf + i * size) j = want i j) :
    Placed size n dest destBuf srcBuf want
      (convertLoop c size src (loopRounds n size) srcBuf destBuf ⟨dest, []⟩) := by
  have hend : ∀ i < n, ((i : Int) + 1) * size ≤ n * size := by
    intro i hi
    exact Int.mul_le_mul_of_nonneg_right (by omega) (by omega)
  have hnonneg : ∀ i : Nat, (0 : Int) ≤ i * size := fun i => Int.mul_nonneg (by omega) (by omega)
  rw [hrounds]
  refine ⟨?_, ?_, ?_⟩
  · intro i hi j hj
    rw [convertLoop_inside c src (hwidth (by omega)) hi hj]
    exact hbytes i hi j hj
  · intro x hx
    refine convertLoop_outside c src fun i hi hin => ?_
    have := hend i hi
    have := hnonneg i
    have := hwidth (by omega)
    rw [Int.add_mul] at *
    omega
  · intro r hr
    rw [convertLoop_reads, List.nil_append] at hr
    obtain ⟨i, hi, rfl⟩ := List.mem_map.mp hr
    have hi := List.mem_range.mp hi
    have := hend i hi
    have := hnonneg i
    have := hwidth (by omega)
    rw [Int.add_mul] at *
    simp only
    omega

theorem rounds_of_placed {size : Nat} (hsize : size = 2 ∨ size = 4 ∨ size = 8)
    (hn : n * size < 2 ^ 63) (hwidth : size ≤ c.width) (hwidth' : c.width ≤ 2 * size) {src : Memory}
    {srcBuf destBuf : Int} {want : Nat → Nat → Byte} (h : ∀ dest, Placed size n dest destBuf srcBuf want
      (convertLoop c size src (loopRounds n size) srcBuf destBuf ⟨dest, []⟩)) :
    loopRounds n size = n ∧ n * size < 2 ^ 31 ∧ (0 < n → c.width = size) := by
  have hread : ∀ i < loopRounds n size, (i : Int) * size + c.width ≤ n * size := by
    intro i hi
    have hr := ((h fun _ => 0).reads (srcBuf + i * size, c.width) (by
      rw [convertLoop_reads, List.nil_append]
      exact List.mem_map.mpr ⟨i, List.mem_range.mpr hi, rfl⟩)).2
    simp only at hr
    omega
  rcases loopRounds_eq hsize hn with ⟨heq, hlt⟩ | ⟨hge, hmore | hless⟩
  · refine ⟨heq, hlt, fun hpos => ?_⟩
    have hlast := hread (n - 1) (by omega)
    rw [Nat.cast_sub hpos, Int.sub_mul] at hlast
    omega
  · have := hread n hmore
    omega
  · -- the last element keeps what was there before
    have hpos : 0 < n := by omega
    have hwant := (h fun _ => want (n - 1) 0 + 1).bytes (n - 1) (by omega) 0 (by omega)
    rw [convertLoop_outside] at hwant
    · exact absurd hwant (by simp)
    · intro i hi hin
      have hle : ((i : Int) + 2) * size ≤ ((n - 1 : Nat) : Int) * size :=
        Int.mul_le_mul_of_nonneg_right (by omega) (by omega)
      rw [Int.add_mul] at hle
      omega

theorem size_of_conversion (hc : conversion undef t.basic = some c) :
    t.basicSize = 2 ∨ t.basicSize = 4 ∨ t.basicSize = 8 := by
  unfold ElType.basicSize
  cases hb : t.basic with
  | byte =>
    rw [hb] at hc
    cases hc
  | _ => decide

section
variable (hext : t.external32Size = t.basicSize) (hc : conversion undef t.basic = some c)
include hext hc

theorem convertPiece_eq {src dest : Memory} {srcBuf destBuf : Int} (hsrc : srcBuf ≠ 0) (hdest : destBuf ≠ 0) :
    convertPiece undef t n src srcBuf dest destBuf =
      some (convertLoop c t.basicSize src (loopRounds n t.basicSize) srcBuf destBuf ⟨dest, []⟩) := by
  have hsize := size_of_conversion undef hc
  unfold convertPiece
  rw [if_neg (by omega), if_neg (by omega), if_neg (by simp [hsrc, hdest]), if_pos hext.symm, hc]

theorem packed_placed (haddr : bufp + relOff ≠ 0) (h : PieceRight undef t n relOff user bufp) (dest : Memory) :
    Placed t.basicSize n dest 1 (bufp + relOff) (reversed t.basicSize user (bufp + relOff))
      (convertLoop c t.basicSize user (loopRounds n t.basicSize) (bufp + relOff) 1 ⟨dest, []⟩) := by
  obtain ⟨out, hout, hplaced, -⟩ := h dest 1 (by decide)
  rw [contigPackExternal32ToBuf, convertPiece_eq undef hext hc haddr (by decide)] at hout
  simp only [Option.map_some, Option.some.injEq, Prod.mk.injEq] at hout
  rw [hout.1]
  exact hplaced

theorem pieceRight_iff_elements (hn : n * t.basicSize < 2 ^ 63) (haddr : bufp + relOff ≠ 0)
    (hwidth : 0 < n → c.width = t.basicSize) (hwide : t.basicSize ≤ c.width ∧ c.width ≤ 2 * t.basicSize)
    (hright : 0 < n → ∀ a m b, (∀ j < t.basicSize, m (b + j) = user (a + (t.basicSize - 1 - j : Nat))) →
      ((∀ j < t.basicSize, c.bytes user a j = user (a + (t.basicSize - 1 - j : Nat))) ∧
        (∀ j < t.basicSize, c.bytes m b j = user (a + j)) ↔ ElementRight t user a)) :
    PieceRight undef t n relOff user bufp ↔ n * t.basicSize < 2 ^ 31 ∧
      ∀ i < n, ElementRight t user (bufp + relOff + i * t.basicSize) := by
  constructor
  · intro h
    obtain ⟨hrounds, hlt, -⟩ := rounds_of_placed (size_of_conversion undef hc) hn hwide.1 hwide.2
      (packed_placed undef relOff user bufp hext hc haddr h)
    refine ⟨hlt, fun i hi => ?_⟩
    obtain ⟨out, hout, hplaced, hback⟩ := h (fun _ => 0) 1 (by decide)
    obtain ⟨back, hunpack, hreturned⟩ := hback (fun _ => 0) 1 0 (by decide)
    rw [contigPackExternal32ToBuf, convertPiece_eq undef hext hc haddr (by decide)] at hout
    rw [contigUnpackExternal32ToBuf, convertPiece_eq undef hext hc (by decide) (by decide)] at hunpack
    simp only [Option.map_some, Option.some.injEq, Prod.mk.injEq, hrounds] at hout hunpack
    have hpos : 0 < n := by omega
    refine (hright hpos _ out.memory (1 + i * t.basicSize) fun j hj => hplaced.bytes i hi j hj).mp ⟨?_, ?_⟩
    · intro j hj
      rw [← convertLoop_inside c user (hwidth hpos) hi hj, hout.1]
      exact hplaced.bytes i hi j hj
    · intro j hj
      rw [← convertLoop_inside c out.memory (hwidth hpos) hi hj, hunpack.1]
      exact hreturned.bytes i hi j hj
  · rintro ⟨hlt, helements⟩ buffer packBuffer hbuffer
    have hrounds : loopRounds n t.basicSize = n := by
      rcases loopRounds_eq (size_of_conversion undef hc) hn with ⟨heq, -⟩ | ⟨hge, -⟩
      · exact heq
      · omega
    have hplaced : Placed t.basicSize n buffer packBuffer (bufp + relOff)
        (reversed t.basicSize user (bufp + relOff)) (convertLoop c t.basicSize user
          (loopRounds n t.basicSize) (bufp + relOff) packBuffer ⟨buffer, []⟩) := by
      refine placed_of_bytes hwidth hrounds fun i hi j hj => ?_
      -- some memory has the element reversed
      refine ((hright (by omega) _ (fun x : Int => user (bufp + relOff + i * t.basicSize +
        (t.basicSize - 1 - x.toNat : Nat))) 0 fun j _ => ?_).mpr (helements i hi)).1 j hj
      simp only [Int.zero_add, Int.toNat_natCast]
    obtain ⟨out, hout⟩ : ∃ out, out = convertLoop c t.basicSize user (loopRounds n t.basicSize)
        (bufp + relOff) packBuffer ⟨buffer, []⟩ := ⟨_, rfl⟩
    rw [← hout] at hplaced
    refine ⟨out, ?_, hplaced, ?_⟩
    · rw [contigPackExternal32ToBuf, convertPiece_eq undef hext hc haddr hbuffer, hext, hout]
      rfl
    · intro user' bufp' relOff' haddr'
      refine ⟨convertLoop c t.basicSize out.memory (loopRounds n t.basicSize) packBuffer
        (bufp' + relOff') ⟨user', []⟩, ?_, placed_of_bytes hwidth hrounds fun i hi j hj => ?_⟩
      · rw [contigUnpackExternal32ToBuf, convertPiece_eq undef hext hc hbuffer haddr', hext]
        rfl
      · refine ((hright (by omega) _ out.memory (packBuffer + i * t.basicSize) fun j hj => ?_).mpr
          (helements i hi)).2 j hj
        exact hplaced.bytes i hi j hj

end

variable {j : Nat}

theorem convert16_right (m : Memory) (a : Int) (hj : j < 2) :
    convert16.bytes m a j = m (a + (2 - 1 - j : Nat)) := by
  change byteOf (basicConvert16 (load16 m a)) j = _
  rw [byteOf_basicConvert16 _ hj, byteOf_load16 m a (by omega)]

theorem convert32_right (m : Memory) (a : Int) (hj : j < 4) :
    convert32.bytes m a j = m (a + (4 - 1 - j : Nat)) := by
  change byteOf (basicConvert32 (load32 m a)) j = _
  rw [byteOf_basicConvert32 le_rfl _ hj, byteOf_load32 m a (by omega)]

theorem convert64_bytes (m : Memory) (a : Int) (hj : j < 8) :
    convert64.bytes m a j = m (a + (if j < 4 then 3 - j else 11 - j : Nat)) := by
  change byteOf (basicConvert64 (load64 m a)) j = _
  rw [byteOf_basicConvert64 _ hj, byteOf_load64 m a (by split <;> omega)]

theorem reverses_back {size : Nat}
    (hc : ∀ m a, ∀ j < size, c.bytes m a j = m (a + (size - 1 - j : Nat))) {user m : Memory} {a b : Int}
    (hm : ∀ j < size, m (b + j) = user (a + (size - 1 - j : Nat))) (hj : j < size) :
    c.bytes m b j = user (a + j) := by
  rw [hc m b j hj, hm _ (by omega), show size - 1 - (size - 1 - j) = j by omega]

theorem bytes_ext {x y : BitVec 32} (h : ∀ i < 4, byteOf x i = byteOf y i) : x = y := by
  have hbytes : ∀ i < 4, x.toNat / 2 ^ (8 * i) % 256 = y.toNat / 2 ^ (8 * i) % 256 := by
    intro i hi
    rw [← byteOf_toNat, ← byteOf_toNat, h i hi]
  have h0 := hbytes 0 (by decide)
  have h1 := hbytes 1 (by decide)
  have h2 := hbytes 2 (by decide)
  have h3 := hbytes 3 (by decide)
  refine BitVec.eq_of_toNat_eq ?_
  omega

theorem float4_right {user m : Memory} {a b : Int}
    (hm : ∀ j : Nat, j < 4 → m (b + j) = user (a + (4 - 1 - j : Nat))) :
    (∀ j < 4, (floatConvert4 undef).bytes user a j = user (a + (4 - 1 - j : Nat))) ∧
      (∀ j < 4, (floatConvert4 undef).bytes m b j = user (a + j)) ↔
    ∀ j : Nat, j < 4 → user (a + j) = 0 := by
  have hturn : ∀ i < 4, byteOf (load32 m b) i = byteOf (load32 user a) (3 - i) := by
    intro i hi
    rw [byteOf_load32 m b hi, byteOf_load32 user a (by omega), hm i hi]
  have hpack : (∀ j < 4, (floatConvert4 undef).bytes user a j = user (a + (4 - 1 - j : Nat))) ↔
      floatTurned undef (load32 user a) = load32 m b := by
    constructor
    · intro h
      refine bytes_ext fun i hi => ?_
      rw [byteOf_load32 m b hi, hm i hi]
      exact h i hi
    · intro h j hj
      change byteOf (floatTurned undef (load32 user a)) j = _
      rw [h, byteOf_load32 m b hj, hm j hj]
  have hunpack : (∀ j < 4, (floatConvert4 undef).bytes m b j = user (a + j)) ↔
      floatTurned undef (load32 m b) = load32 user a := by
    constructor
    · intro h
      refine bytes_ext fun i hi => ?_
      rw [byteOf_load32 user a hi]
      exact h i hi
    · intro h j hj
      change byteOf (floatTurned undef (load32 m b)) j = _
      rw [h, byteOf_load32 user a hj]
  rw [hpack, hunpack, floatTurned_iff undef hturn]
  constructor
  · intro h j hj
    rw [← byteOf_load32 user a hj, h]
    decide +revert
  · intro h
    refine bytes_ext fun i hi => ?_
    rw [byteOf_load32 user a hi, h i hi]
    decide +revert

theorem convert64_right {user m : Memory} {a b : Int}
    (hm : ∀ j : Nat, j < 8 → m (b + j) = user (a + (8 - 1 - j : Nat))) :
    (∀ j < 8, convert64.bytes user a j = user (a + (8 - 1 - j : Nat))) ∧
      (∀ j < 8, convert64.bytes m b j = user (a + j)) ↔
    ∀ j : Nat, j < 4 → user (a + j) = user (a + (j + 4 : Nat)) := by
  constructor
  · rintro ⟨hpack, -⟩ j hj
    have hhalf := hpack (3 - j) (by omega)
    rw [convert64_bytes user a (by omega), if_pos (by omega), show 3 - (3 - j) = j by omega,
      show 8 - 1 - (3 - j) = j + 4 by omega] at hhalf
    exact hhalf
  · intro h
    have hswap : ∀ j : Nat, j < 8 → user (a + (if j < 4 then 3 - j else 11 - j : Nat)) =
        user (a + (8 - 1 - j : Nat)) := by
      intro j hj
      split
      · rw [h (3 - j) (by omega), show 3 - j + 4 = 8 - 1 - j by omega]
      · rw [h (8 - 1 - j) (by omega), show 8 - 1 - j + 4 = 11 - j by omega]
    have hpack : ∀ j < 8, convert64.bytes user a j = user (a + (8 - 1 - j : Nat)) := by
      intro j hj
      rw [convert64_bytes user a hj, hswap j hj]
    refine ⟨hpack, fun j hj => ?_⟩
    rw [convert64_bytes m b hj]
    split
    · rw [hm _ (by omega), show 8 - 1 - (3 - j) = j + 4 by omega, h j (by omega)]
    · rw [hm _ (by omega), show 8 - 1 - (11 - j) = j - 4 by omega, h (j - 4) (by omega),
        show j - 4 + 4 = j by omega]

theorem pieceRight_wide (hext : t.external32Size = t.basicSize)
    (hc : conversion undef t.basic = some c) (hwidth : t.basicSize < c.width)
    (hwidth' : c.width ≤ 2 * t.basicSize) (hn : n * t.basicSize < 2 ^ 63) (haddr : bufp + relOff ≠ 0)
    (hpos : 0 < n) : ¬PieceRight undef t n relOff user bufp := by
  intro h
  have heq := (rounds_of_placed (size_of_conversion undef hc) hn hwidth.le hwidth'
    (packed_placed undef relOff user bufp hext hc haddr h)).2.2 hpos
  omega

theorem pieceRight_one (hext : t.external32Size = t.basicSize) (hone : t.basicSize = 1) :
    PieceRight undef t n relOff user bufp := by
  have hpiece : ∀ (src dest : Memory) (srcBuf destBuf : Int),
      convertPiece undef t n src srcBuf dest destBuf =
        some ⟨store dest destBuf n fun i => src (srcBuf + i), [(srcBuf, n)]⟩ := by
    intro src dest srcBuf destBuf
    unfold convertPiece
    rw [if_neg (by omega), if_pos ⟨hext.symm, hone⟩]
  have hplaced : ∀ (src dest : Memory) (srcBuf destBuf : Int) (want : Nat → Nat → Byte),
      (∀ i < n, src (srcBuf + i) = want i 0) → Placed 1 n dest destBuf srcBuf want
        ⟨store dest destBuf n fun i => src (srcBuf + i), [(srcBuf, n)]⟩ := by
    intro src dest srcBuf destBuf want hwant
    refine ⟨?_, ?_, ?_⟩
    · intro i hi j hj
      obtain rfl : j = 0 := by omega
      simp only [store]
      rw [if_pos (by omega), show (destBuf + i * ((1 : Nat) : Int) + ((0 : Nat) : Int) - destBuf).toNat = i by
        omega]
      exact hwant i hi
    · intro x hx
      exact if_neg (by omega)
    · intro r hr
      obtain rfl := List.mem_singleton.mp hr
      simp only
      omega
  intro buffer packBuffer _
  rw [contigPackExternal32ToBuf, hpiece, hext, hone]
  refine ⟨_, rfl, hplaced _ _ _ _ _ fun i _ => ?_, ?_⟩
  · simp [reversed]
  · intro user' bufp' relOff' _
    rw [contigUnpackExternal32ToBuf, hpiece, hext, hone]
    refine ⟨_, rfl, hplaced _ _ _ _ _ fun i hi => ?_⟩
    simp only [store]
    rw [if_pos (by omega), show (packBuffer + i - packBuffer).toNat = i by omega]
    simp

/-- A piece of elements of 1, 2, 4 or 8 bytes; the number of its bytes is an `MPI_Aint`. -/
theorem pieceRight_iff (hn : n * t.basicSize < 2 ^ 63) (haddr : bufp + relOff ≠ 0) :
    PieceRight undef t n relOff user bufp ↔ Convertible t n relOff user bufp := by
  unfold Convertible
  by_cases hext : t.external32Size = t.basicSize
  swap
  · refine iff_of_false (fun h => ?_) fun h => hext h.1
    obtain ⟨out, hout, -⟩ := h (fun _ => 0) 1 (by decide)
    have hpiece : convertPiece undef t n user (bufp + relOff) (fun _ => 0) 1 = none := by
      unfold convertPiece
      rw [if_neg (fun h : _ ∧ _ => hext h.1.symm), if_neg (Ne.symm hext)]
      simp
    rw [contigPackExternal32ToBuf, hpiece] at hout
    cases hout
  rw [and_iff_right hext]
  obtain ⟨basic, external32Size⟩ := t
  by_cases hbyte : basic = .byte
  · subst hbyte
    exact iff_of_true (pieceRight_one undef relOff user bufp hext rfl) (Or.inl rfl)
  have hone : ¬ElType.basicSize ⟨basic, external32Size⟩ = 1 := by
    change basic.size ≠ 1
    cases basic <;> first | exact absurd rfl hbyte | decide
  rw [or_iff_right hone]
  cases basic with
  | byte => exact absurd rfl hbyte
  | two =>
    exact pieceRight_iff_elements undef relOff user bufp hext rfl hn haddr (fun _ => rfl)
      (show 2 ≤ 2 ∧ 2 ≤ 2 * 2 by decide)
      fun _ a m b hm => iff_of_true ⟨fun j hj => convert16_right user a hj,
        fun j hj => reverses_back (fun m a j hj => convert16_right m a hj) hm hj⟩ trivial
  | four =>
    exact pieceRight_iff_elements undef relOff user bufp hext rfl hn haddr (fun _ => rfl)
      (show 4 ≤ 4 ∧ 4 ≤ 2 * 4 by decide)
      fun _ a m b hm => iff_of_true ⟨fun j hj => convert32_right user a hj,
        fun j hj => reverses_back (fun m a j hj => convert32_right m a hj) hm hj⟩ trivial
  | eight =>
    exact pieceRight_iff_elements undef relOff user bufp hext rfl hn haddr (fun _ => rfl)
      (show 8 ≤ 8 ∧ 8 ≤ 2 * 8 by decide)
      fun _ a m b hm => convert64_right hm
  | float =>
    exact pieceRight_iff_elements undef relOff user bufp hext rfl hn haddr (fun _ => rfl)
      (show 4 ≤ 4 ∧ 4 ≤ 2 * 4 by decide) fun _ a m b hm => float4_right undef hm
  | double =>
    rcases Nat.eq_zero_or_pos n with rfl | hpos
    · exact pieceRight_iff_elements undef relOff user bufp hext rfl hn haddr
        (fun h => absurd h (by decide)) (show 8 ≤ 16 ∧ 16 ≤ 2 * 8 by decide) fun h => absurd h (by decide)
    · exact iff_of_false (pieceRight_wide undef relOff user bufp hext rfl (show 8 < 16 by decide)
        (show 16 ≤ 2 * 8 by decide) hn haddr hpos) fun h => h.2 0 hpos

end Piece

theorem pieceRight_ints : PieceRight (fun _ => 0) ⟨.four, 4⟩ 2 0 (fun x => BitVec.ofInt 8 x) 16 :=
  (pieceRight_iff (fun _ => 0) 0 (fun x => BitVec.ofInt 8 x) 16 (by decide) (by decide)).mpr
    ⟨rfl, Or.inr ⟨by decide, fun _ _ => trivial⟩⟩

theorem pieceRight_fails :
    (¬∀ undef user, PieceRight undef ⟨.eight, 8⟩ 1 0 user 16) ∧
      ∀ undef user, ¬PieceRight undef ⟨.double, 8⟩ 1 0 user 16 := by
  refine ⟨fun h => ?_, fun undef user => ?_⟩
  · have hright := ((pieceRight_iff_elements (t := ⟨.eight, 8⟩) (fun _ => 0) 0
      (fun x => BitVec.ofInt 8 x) 16 rfl rfl
      (by decide) (by decide) (fun _ => rfl) (by decide) fun _ a m b hm => convert64_right hm).mp (h _ _)).2
    exact absurd (hright 0 Nat.one_pos 0 (by decide)) (by decide)
  · exact pieceRight_wide undef 0 user 16 rfl rfl (by decide) (by decide) (by decide) (by decide) Nat.one_pos

end FgMpi.Types.External32
