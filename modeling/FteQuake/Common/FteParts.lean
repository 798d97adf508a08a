import FteQuake.Common.FteBits

/-!
# The parts of a replacement delta

What `CLFTE_ReadDelta` makes of each part that `SVFTE_WriteUpdate` writes. A field that is sent
arrives when it fits the form that the extensions give it (`SkinFits`, `SolidFits`, `TagFits` and
the like), and one that is not sent stays as it was; the theorems about groups of fields
(`fteFirst_roundTrip`, `ftePredinfo_roundTrip`, `fteModel_roundTrip`, `fteBones_roundTrip`,
`fteLast_roundTrip`) put these together in the order of the message.
-/

namespace FteQuake

open StreamProgram BitFlags BinaryFloat MsgState Sizebuf Nat
open RoundTrip (bind cond field list)
open BitVec (eq_of_toNat_eq lt_def ofInt_toInt toInt_eq_toNat_cond toInt_lt toNat_add toNat_and toNat_ofInt
  toNat_ofNat toNat_or toNat_setWidth toNat_shiftLeft toNat_sub toNat_ushiftRight)

/-! ## Numbers -/

section Numbers

variable {pext2 bits : BitVec 32}

variable {x : BitVec 16} {sz : BitVec 32} {n w : ℕ}

theorem fteIndex_roundTrip (h : pext2 &&& pext2Lerptime = 0 → bits &&& uf16bitLerptime = 0 → ¬255 < x) :
    RoundTrip (fteWriteIndex pext2 bits x) (fteReadIndex pext2 bits) x := by
  unfold fteWriteIndex fteReadIndex
  refine cond (fun _ => uleb128_roundTrip_of_lt (by omega) x) fun hl => ?_
  refine cond (fun _ => ushort_roundTrip x) fun hw => ?_
  have e := lowByte_roundTrip 16 x
  have h' := h (not_not.1 hl) (not_not.1 hw)
  have h255 : (255 : BitVec 16).toNat = 255 := rfl
  have h256 : (256 : BitVec 16).toNat = 256 := rfl
  rw [lt_def, h255] at h'
  rwa [setWidth_setWidth_of_lt (by rw [lt_def, h256]; omega)] at e

theorem fteSmall_roundTrip (x : QByte) :
    RoundTrip (fteWriteSmall pext2 x) (fteReadSmall pext2) x := by
  unfold fteWriteSmall fteReadSmall
  exact cond (fun _ => uleb128_roundTrip_of_lt (by omega) x) fun _ => byte_roundTrip x

theorem toInt_setWidth_16 {x : BitVec 32} (h : -2 ^ 15 ≤ x.toInt) (h' : x.toInt < 2 ^ 15) :
    BitVec.ofInt 32 (BitVec.ofInt 16 x.toInt).toInt = x := by
  rw [toInt_ofInt_of_range h h', ofInt_toInt]

/-- What arrives of a component of the velocity. -/
def fteSpeed (pext2 x : BitVec 32) : BitVec 32 :=
  if pext2 &&& pext2Bigvelocity ≠ 0 then x else BitVec.ofInt 32 (BitVec.ofInt 16 x.toInt).toInt

theorem fteSpeed_roundTrip (x : BitVec 32) :
    RoundTrip (fteWriteSpeed pext2 x) (fteReadSpeed pext2) (fteSpeed pext2 x) := by
  unfold fteWriteSpeed fteReadSpeed fteSpeed
  have hlong : RoundTrip (msgWriteLong x.toInt) msgReadLong (BitVec.ofInt 32 x.toInt).toInt :=
    ⟨_, msgWriteLong_emits _, msgReadLong_longBytes _⟩
  have e := hlong.map (BitVec.ofInt 32)
  rw [ofInt_toInt, ofInt_toInt] at e
  split
  · exact e
  · exact (msgShort_roundTrip x.toInt).map (BitVec.ofInt 32)

theorem fteSpeed_zero : fteSpeed pext2 0 = 0 := by
  unfold fteSpeed
  split <;> rfl

/-- The two bytes of a number of 15 bits. -/
theorem weaponframe_join (x : BitVec 16) :
    ((128 : BitVec 16) ||| (x &&& (127 : BitVec 16))) &&& (127 : BitVec 16) ||| x >>> 7 <<< 7 = x := by
  have h0 : ((128 : BitVec 16) ||| (x &&& (127 : BitVec 16))) &&& (127 : BitVec 16) = x &&& (127 : BitVec 16) := by
    rw [or_and, BitVec.and_assoc, BitVec.and_self]
    exact BitVec.zero_or
  have h1 : x >>> 7 <<< 7 = x &&& ~~~127 := by
    have e := shiftRight_and_shiftLeft x (BitVec.allOnes 16) 7
    rwa [BitVec.and_allOnes] at e
  rw [h0, h1, BitVec.or_comm]
  exact and_not_or_and x 127

theorem fteWeaponframe_roundTrip (h : x < 0x8000) :
    RoundTrip (fteWriteWeaponframe x) fteReadWeaponframe x := by
  have h127 : (127 : BitVec 16).toNat = 127 := rfl
  have h8000 : (0x8000 : BitVec 16).toNat = 0x8000 := rfl
  have h256 : (256 : BitVec 16).toNat = 256 := rfl
  rw [lt_def, h8000] at h
  unfold fteWriteWeaponframe fteReadWeaponframe
  split_ifs with hbig
  · have hfirst : (128 : BitVec 16) ||| (x &&& 127) < 256 := by
      rw [lt_def, toNat_or, toNat_and, h256]
      exact or_lt_two_pow (n := 8) (by decide)
        (lt_of_le_of_lt and_le_right (show 127 < 2 ^ 8 by decide))
    have hsecond : x >>> 7 < 256 := by
      rw [lt_def, toNat_ushiftRight, shiftRight_eq_div_pow, h256]
      omega
    have e₁ := lowByte_roundTrip 16 ((128 : BitVec 16) ||| (x &&& (127 : BitVec 16)))
    have e₂ := (lowByte_roundTrip 16 (x >>> 7)).map_comp
      fun i : BitVec 16 => ((128 : BitVec 16) ||| (x &&& (127 : BitVec 16))) &&& (127 : BitVec 16) ||| i <<< 7
    rw [setWidth_setWidth_of_lt hfirst] at e₁
    rw [setWidth_setWidth_of_lt hsecond, weaponframe_join] at e₂
    have hmark : ((128 : BitVec 16) ||| (x &&& (127 : BitVec 16))) &&& 0x80 ≠ 0 := by
      intro e
      rw [or_and] at e
      exact absurd (or_eq_zero.1 e).1 (by decide)
    refine e₁.bind ?_
    rw [if_pos hmark]
    exact e₂
  · rw [lt_def, h127] at hbig
    have e := lowByte_roundTrip 16 x
    rw [setWidth_setWidth_of_lt (by rw [lt_def, h256]; omega)] at e
    obtain ⟨xs, hw, hr⟩ := e
    refine ⟨xs, hw, ?_⟩
    rw [← List.append_nil xs]
    refine hr.bind ?_
    have hmark : x &&& 0x80 = 0 := and_shl_one_of_lt (i := 7) (by omega)
    rw [if_neg (not_not.2 hmark)]
    exact Source.Takes.pure x

/-- A skin that a short holds. -/
def SkinFits (x : BitVec 32) : Prop := -2 ^ 15 ≤ x.toInt ∧ x.toInt < 2 ^ 15

theorem fteSkin_roundTrip {x : BitVec 32} (h : pext2 &&& pext2Lerptime = 0 → SkinFits x)
    (hn : pext2 &&& pext2Lerptime = 0 → bits &&& uf16bitLerptime = 0 → ¬255 < x) :
    RoundTrip (fteWriteSkin pext2 bits x) (fteReadSkin pext2 bits) x := by
  unfold fteWriteSkin fteReadSkin
  refine cond (fun _ => ?_) fun hl => cond (fun _ => ?_) fun hw => ?_
  · have e := (uleb128_roundTrip_32 (x + 64)).map_comp fun y : BitVec 32 => y - 64
    have hsub (n : BitVec 64) : n.setWidth 32 - 64 = (n - 64).setWidth 32 := by
      apply eq_of_toNat_eq
      rw [toNat_sub, toNat_setWidth, toNat_setWidth, toNat_sub,
        show (64 : BitVec 32).toNat = 64 from rfl, show (64 : BitVec 64).toNat = 64 from rfl]
      omega
    simp only [hsub] at e
    rwa [BitVec.add_sub_cancel] at e
  · obtain ⟨h₁, h₂⟩ := h (not_not.1 hl)
    have e := (msgShort_roundTrip x.toInt).map (BitVec.ofInt 32)
    rwa [toInt_setWidth_16 h₁ h₂] at e
  · have h' := hn (not_not.1 hl) (not_not.1 hw)
    have h255 : (255 : BitVec 32).toNat = 255 := rfl
    rw [lt_def, h255] at h'
    have e := maskByte_roundTrip (x := x) (by omega)
    have hi : x.toInt = x.toNat := by
      rw [toInt_eq_toNat_cond, if_pos (by omega)]
    rwa [← hi] at e

theorem fteColormap_roundTrip (h : pext2 &&& pext2Lerptime = 0 → x < 256) :
    RoundTrip (fteWriteColormap pext2 x) (fteReadColormap pext2) x := by
  unfold fteWriteColormap fteReadColormap
  refine cond (fun _ => uleb128_roundTrip_of_lt (by omega) x) fun hl => ?_
  have hx := h (not_not.1 hl)
  have h256 : (256 : BitVec 16).toNat = 256 := rfl
  have hlow : x &&& 0xff = x := by
    rw [lt_def, h256] at hx
    apply eq_of_toNat_eq
    rw [toNat_and]
    exact (and_two_pow_sub_one_eq_mod _ 8).trans (mod_eq_of_lt hx)
  have e := lowByte_roundTrip 16 x
  rw [hlow]
  rwa [setWidth_setWidth_of_lt hx] at e

/-! ### Sizes -/

theorem toNat_and_mask (x : BitVec w) {m : BitVec w} (hm : m.toNat = 2 ^ n - 1) :
    (x &&& m).toNat = x.toNat % 2 ^ n := by
  rw [toNat_and, hm]
  exact and_two_pow_sub_one_eq_mod _ n

/-- Fields above the low bits of a word. -/
theorem toNat_and_field (x m : BitVec w) {k : ℕ} {f : BitVec w} (hm : m.toNat = 2 ^ k - 1)
    (hf : m <<< n = f) (hw : n + k ≤ w) : (x &&& f).toNat = x.toNat / 2 ^ n % 2 ^ k * 2 ^ n := by
  rw [← hf, ← shiftRight_and_shiftLeft, toNat_shiftLeft, toNat_and_mask _ hm,
    toNat_ushiftRight, shiftLeft_eq, shiftRight_eq_div_pow]
  apply mod_eq_of_lt
  calc x.toNat / 2 ^ n % 2 ^ k * 2 ^ n < 2 ^ k * 2 ^ n :=
        Nat.mul_lt_mul_of_pos_right (Nat.mod_lt _ (Nat.two_pow_pos k)) (Nat.two_pow_pos n)
    _ = 2 ^ (n + k) := by rw [Nat.pow_add, Nat.mul_comm]
    _ ≤ 2 ^ w := Nat.pow_le_pow_right (by omega) hw

/-- A size that its 16-bit form holds. One of them has the form of `ES_SOLID_BSP`. -/
structure Size16Fits (sz : BitVec 32) : Prop where
  extra : ¬EsSolidHasExtraBits sz
  up : 32736 ≤ sz.toNat / 2 ^ 16
  up_lt : sz.toNat / 2 ^ 16 < 33248
  ne : sz ≠ 0x7fe000f8

/-- The steps in which a size is counted. -/
theorem not_extraBits_iff (sz : BitVec 32) : ¬EsSolidHasExtraBits sz ↔
    sz.toNat % 8 = 0 ∧ sz.toNat / 2 ^ 8 % 8 = 0 ∧ sz.toNat / 2 ^ 16 % 8 = 0 := by
  have hz {x : BitVec 32} : x = 0 ↔ x.toNat = 0 :=
    ⟨fun e => by rw [e]; rfl, fun e => eq_of_toNat_eq e⟩
  have hmask : sz &&& 0x0707 = 0 ↔ sz.toNat % 8 = 0 ∧ sz.toNat / 2 ^ 8 % 8 = 0 := by
    rw [show (0x0707 : BitVec 32) = 7 ||| 0x700 from rfl]
    refine and_or_eq_zero.trans ?_
    rw [← BitVec.ofNat_eq_ofNat, hz, hz, toNat_and_mask (n := 3) sz rfl,
      toNat_and_field sz 7 (f := 0x700) (n := 8) (k := 3) rfl rfl (by omega)]
    omega
  have hup : (sz >>> 16) - 32768 + 32 &&& 7 = 0 ↔ sz.toNat / 2 ^ 16 % 8 = 0 := by
    have := sz.isLt
    rw [hz, toNat_and_mask (n := 3) _ rfl, toNat_add, toNat_sub, toNat_ushiftRight,
      shiftRight_eq_div_pow, show (32768 : BitVec 32).toNat = 32768 from rfl, show (32 : BitVec 32).toNat = 32 from rfl]
    omega
  unfold EsSolidHasExtraBits
  rw [not_or, not_not, not_not, hmask, hup, and_assoc]

theorem or_eq_add {x y : BitVec w} {a : ℕ} (hx : x.toNat < 2 ^ n)
    (hy : y.toNat = a * 2 ^ n) : (x ||| y).toNat = x.toNat + y.toNat := by
  rw [toNat_or, hy, Nat.or_comm, Nat.mul_comm, ← Nat.two_pow_add_eq_or_of_lt hx]
  omega

/-- The parts of the 16-bit form. -/
theorem toNat_size16 (h : Size16Fits sz) :
    (size16 sz).toNat = sz.toNat % 2 ^ 8 / 8 + sz.toNat / 2 ^ 8 % 2 ^ 8 / 8 * 2 ^ 5 +
      (sz.toNat / 2 ^ 16 - 32736) / 8 * 2 ^ 10 := by
  have hsz := sz.isLt
  have hup := h.up
  have hlt := h.up_lt
  have hx : ((sz &&& 255) >>> 3).toNat = sz.toNat % 2 ^ 8 / 8 := by
    rw [toNat_ushiftRight, toNat_and_255, shiftRight_eq_div_pow]
  have hd : ((sz >>> 8 &&& 255) >>> 3 <<< 5).toNat = sz.toNat / 2 ^ 8 % 2 ^ 8 / 8 * 2 ^ 5 := by
    rw [toNat_shiftLeft, toNat_ushiftRight, toNat_and_255, toNat_ushiftRight,
      shiftRight_eq_div_pow, shiftRight_eq_div_pow, shiftLeft_eq]
    omega
  have hz : ((sz >>> 16 &&& 65535) - 32768 + 32).toNat = sz.toNat / 2 ^ 16 - 32736 := by
    rw [toNat_add, toNat_sub, toNat_and_mask (n := 16) _ rfl, toNat_ushiftRight,
      shiftRight_eq_div_pow, show (32768 : BitVec 32).toNat = 32768 from rfl, show (32 : BitVec 32).toNat = 32 from rfl]
    omega
  have hu : (((sz >>> 16 &&& 65535) - 32768 + 32).sshiftRight 3 <<< 10).toNat =
      (sz.toNat / 2 ^ 16 - 32736) / 8 * 2 ^ 10 := by
    have hmsb : ((sz >>> 16 &&& 65535) - 32768 + 32).msb = false := by
      rw [BitVec.msb_eq_false_iff_two_mul_lt, hz]
      omega
    rw [BitVec.sshiftRight_eq_of_msb_false hmsb, toNat_shiftLeft, toNat_ushiftRight, hz,
      shiftRight_eq_div_pow, shiftLeft_eq]
    omega
  unfold size16
  dsimp only
  rw [or_eq_add (n := 10) _ hu, or_eq_add (n := 5) _ hd, hx, hd, hu]
  · rw [hx]
    omega
  · rw [or_eq_add (n := 5) _ hd, hx, hd]
    · omega
    · rw [hx]
      omega

/-- The parts of a size from its 16-bit form. -/
theorem toNat_ofSize16 {s : BitVec 16} (h : s ≠ 31) :
    (ofSize16 s).toNat = s.toNat % 2 ^ 5 * 2 ^ 3 + s.toNat / 2 ^ 5 % 2 ^ 5 * 2 ^ 11 +
      (s.toNat / 2 ^ 10 * 8 + 32736) * 2 ^ 16 := by
  have hs := s.isLt
  have hw : (s.setWidth 32).toNat = s.toNat := BitVec.toNat_setWidth_of_le (by omega)
  have hu : (((s.setWidth 32) >>> 7 &&& 0x1F8) - 32 + 32768) <<< 16 =
      BitVec.ofNat 32 ((s.toNat / 2 ^ 10 * 8 + 32736) * 2 ^ 16) := by
    apply eq_of_toNat_eq
    rw [toNat_shiftLeft, toNat_add, toNat_sub, toNat_and_field _ 63 (f := 0x1F8) (n := 3) (k := 6) rfl rfl (by omega),
      toNat_ushiftRight, hw,
      shiftRight_eq_div_pow, shiftLeft_eq, toNat_ofNat,
      show (32768 : BitVec 32).toNat = 32768 from rfl, show (32 : BitVec 32).toNat = 32 from rfl]
    omega
  have hx : ((s.setWidth 32 &&& 0x1F) <<< 3).toNat = s.toNat % 2 ^ 5 * 2 ^ 3 := by
    rw [toNat_shiftLeft, toNat_and_mask (n := 5) _ rfl, hw, shiftLeft_eq]
    omega
  have hd : ((s.setWidth 32 &&& 0x3E0) <<< 6).toNat = s.toNat / 2 ^ 5 % 2 ^ 5 * 2 ^ 11 := by
    rw [toNat_shiftLeft, toNat_and_field _ 31 (f := 0x3E0) (n := 5) (k := 5) rfl rfl (by omega), hw, shiftLeft_eq]
    omega
  have hu' : (BitVec.ofNat 32 ((s.toNat / 2 ^ 10 * 8 + 32736) * 2 ^ 16)).toNat =
      (s.toNat / 2 ^ 10 * 8 + 32736) * 2 ^ 16 := by
    rw [toNat_ofNat]
    omega
  unfold ofSize16
  dsimp only
  rw [if_neg h, hu, BitVec.or_assoc, BitVec.or_comm]
  have hlow : ((s.setWidth 32 &&& 0x1F) <<< 3 ||| (s.setWidth 32 &&& 0x3E0) <<< 6).toNat =
      s.toNat % 2 ^ 5 * 2 ^ 3 + s.toNat / 2 ^ 5 % 2 ^ 5 * 2 ^ 11 := by
    rw [or_eq_add (n := 11) _ hd, hx, hd]
    rw [hx]
    omega
  rw [or_eq_add (n := 16) _ hu', hlow, hu']
  rw [hlow]
  omega

/-- **A size that fits comes back from its 16-bit form.** -/
theorem ofSize16_size16 (h : Size16Fits sz) :
    ofSize16 (BitVec.ofInt 16 (size16 sz).toInt) = sz := by
  obtain ⟨hx, hd, hu⟩ := (not_extraBits_iff sz).1 h.extra
  have hup := h.up
  have hlt := h.up_lt
  have hsz := sz.isLt
  have he := toNat_size16 h
  have hs : (BitVec.ofInt 16 (size16 sz).toInt).toNat = (size16 sz).toNat := by
    rw [toInt_eq_toNat_cond, if_pos (by omega), BitVec.ofInt_natCast, toNat_ofNat]
    omega
  have hne : BitVec.ofInt 16 (size16 sz).toInt ≠ 31 := by
    intro e
    have e' : (size16 sz).toNat = 31 := by rw [← hs, e]; rfl
    refine h.ne (eq_of_toNat_eq ?_)
    rw [show (0x7fe000f8 : BitVec 32).toNat = 0x7fe000f8 from rfl]
    omega
  -- the three fields of the form
  obtain ⟨a, ha⟩ : ∃ a, sz.toNat % 2 ^ 8 = a * 8 := ⟨sz.toNat % 2 ^ 8 / 8, by omega⟩
  obtain ⟨b, hb⟩ : ∃ b, sz.toNat / 2 ^ 8 % 2 ^ 8 = b * 8 := ⟨sz.toNat / 2 ^ 8 % 2 ^ 8 / 8, by omega⟩
  obtain ⟨c, hc⟩ : ∃ c, sz.toNat / 2 ^ 16 - 32736 = c * 8 :=
    ⟨(sz.toNat / 2 ^ 16 - 32736) / 8, by omega⟩
  rw [ha, hb, hc, Nat.mul_div_cancel _ (by omega), Nat.mul_div_cancel _ (by omega),
    Nat.mul_div_cancel _ (by omega)] at he
  have ha' : (a + b * 2 ^ 5 + c * 2 ^ 10) % 2 ^ 5 = a := by omega
  have hb' : (a + b * 2 ^ 5 + c * 2 ^ 10) / 2 ^ 5 % 2 ^ 5 = b := by omega
  have hc' : (a + b * 2 ^ 5 + c * 2 ^ 10) / 2 ^ 10 = c := by omega
  apply eq_of_toNat_eq
  rw [toNat_ofSize16 hne, hs, he, ha', hb', hc']
  omega

theorem msgSize16_roundTrip (h : sz = esSolidBsp ∨ Size16Fits sz) :
    RoundTrip (msgWriteSize16 sz) msgReadSize16 sz := by
  unfold msgWriteSize16 msgReadSize16
  by_cases hb : sz = esSolidBsp
  · rw [if_pos hb, hb]
    exact (msgShort_roundTrip esSolidBsp.toInt).map fun i => ofSize16 (BitVec.ofInt 16 i)
  · have hf := h.resolve_left hb
    have h0 : sz ≠ 0 := by
      rintro rfl
      exact absurd hf.up (by decide)
    rw [if_neg hb, if_pos h0]
    have e := (msgShort_roundTrip (size16 sz).toInt).map fun i => ofSize16 (BitVec.ofInt 16 i)
    rwa [ofInt_toInt, ofSize16_size16 hf] at e

/-- A size that can be sent: the extension has a code for the common ones, and a form for those that
are not counted in steps of 8. -/
def SolidFits (pext2 sz : BitVec 32) : Prop :=
  pext2 &&& pext2Newsizeencoding ≠ 0 ∧
      (sz = 0 ∨ sz = esSolidHull1 ∨ sz = esSolidHull2 ∨ EsSolidHasExtraBits sz) ∨
    sz = esSolidBsp ∨ Size16Fits sz

theorem fteSolid_roundTrip (h : SolidFits pext2 sz) :
    RoundTrip (fteWriteSolid pext2 sz) (fteReadSolid pext2) sz := by
  unfold fteWriteSolid fteReadSolid
  refine cond (fun hp => ?_) fun hp =>
    msgSize16_roundTrip (h.resolve_left fun e => hp e.1)
  have hcode (n : QByte) {x : BitVec 32} {w : MsgWriter Unit} {f : QByte → MsgReader (BitVec 32)}
      (hr : RoundTrip w (f n) x) :
      RoundTrip (do msgWriteByte n.toNat; w) (BitVec.ofInt 8 <$> msgReadByte >>= f) x :=
    (byte_roundTrip n).bind hr
  have hlone (n : QByte) {x : BitVec 32} {f : QByte → MsgReader (BitVec 32)} (hf : f n = pure x) :
      RoundTrip (msgWriteByte n.toNat) (BitVec.ofInt 8 <$> msgReadByte >>= f) x := by
    obtain ⟨xs, hw, hr⟩ := byte_roundTrip n
    refine ⟨xs, hw, ?_⟩
    rw [← List.append_nil xs]
    refine hr.bind ?_
    rw [hf]
    exact Source.Takes.pure x
  split_ifs with h0 hb h1 h2 he
  · subst h0
    exact hlone 0 rfl
  · subst hb
    exact hlone 1 rfl
  · subst h1
    exact hlone 2 rfl
  · subst h2
    exact hlone 3 rfl
  · refine hcode 32 ?_
    have hlong : RoundTrip (msgWriteLong sz.toInt) msgReadLong (BitVec.ofInt 32 sz.toInt).toInt :=
      ⟨_, msgWriteLong_emits _, msgReadLong_longBytes _⟩
    have e := hlong.map (BitVec.ofInt 32)
    rwa [ofInt_toInt, ofInt_toInt] at e
  · refine hcode 16 ?_
    have hsz : sz = esSolidBsp ∨ Size16Fits sz := by
      rcases h with ⟨-, e | e | e | e⟩ | e
      · exact absurd e h0
      · exact absurd e h1
      · exact absurd e h2
      · exact absurd e he
      · exact e
    exact msgSize16_roundTrip hsz

end Numbers

/-! ## Groups of fields -/

section Groups

variable {pext2 : BitVec 32}

theorem fteDrawflags_roundTrip {hexen2flags abslight : QByte} (h : UsesAbslight hexen2flags ∨ abslight = 0) :
    RoundTrip (fteWriteDrawflags hexen2flags abslight) fteReadDrawflags (hexen2flags, abslight) := by
  unfold fteWriteDrawflags fteReadDrawflags
  refine (byte_roundTrip hexen2flags).bind ?_
  have e := field (p := UsesAbslight hexen2flags) (d := 0) (fun _ => byte_roundTrip abslight)
    fun hn => (h.resolve_left hn).symm
  exact e.bind_return fun x => (hexen2flags, x)

/-- An attachment that the forms of entities and tags hold. -/
structure TagFits (pext2 tagentity : BitVec 32) (tagindex : BitVec 16) : Prop where
  entity : tagentity.toNat ≤ maxEdicts
  small : pext2 &&& pext2Replacementdeltas = 0 → tagentity.toNat < 0x8000
  index : pext2 &&& pext2Lerptime = 0 → tagindex < 255 ∨ tagindex = 0xffff

theorem msgclEntity_roundTrip {entity : BitVec 32} (h : entity.toNat ≤ maxEdicts)
    (hs : pext2 &&& pext2Replacementdeltas = 0 → entity.toNat < 0x8000) :
    RoundTrip (msgWriteEntity entity.toNat) (msgclReadEntity pext2) entity := by
  unfold msgclReadEntity
  split
  · refine ⟨_, msgWriteEntity_emits h, ?_⟩
    have e := msgReadBigEntity_entityBytes h
    rwa [BitVec.ofNat_toNat, BitVec.setWidth_eq] at e
  · have hlt := hs (not_not.1 ‹_›)
    have e := (msgShort_roundTrip entity.toNat).map fun i => (BitVec.ofInt 16 i).setWidth 32
    have hback : (BitVec.ofInt 16 (BitVec.ofInt 16 (entity.toNat : Int)).toInt).setWidth 32 =
        entity := by
      rw [ofInt_toInt, BitVec.ofInt_natCast]
      apply eq_of_toNat_eq
      rw [toNat_setWidth, toNat_ofNat]
      omega
    rw [hback] at e
    rwa [msgWriteEntity, if_neg (by omega), if_neg (by omega)]

/-- The byte of a tag, of which the last stands for -1. -/
theorem tagindex_roundTrip {x : BitVec 16} (h : x < 255 ∨ x = 0xffff) :
    RoundTrip (msgWriteByte (x &&& 0xff).toNat)
      ((fun i => if BitVec.ofInt 16 i = 0xff then 0xffff else BitVec.ofInt 16 i) <$> msgReadByte)
      x := by
  have h255 : (255 : BitVec 16).toNat = 255 := rfl
  have h256 : (256 : BitVec 16).toNat = 256 := rfl
  have e := (lowByte_roundTrip 16 (x &&& 0xff)).map_comp fun y : BitVec 16 => if y = 0xff then 0xffff else y
  have hlow : (x &&& 0xff).toNat = x.toNat % 2 ^ 8 := toNat_and_mask (n := 8) _ rfl
  rw [setWidth_setWidth_of_lt (by rw [lt_def, hlow, h256]; omega)] at e
  have hx : (if x &&& 0xff = 0xff then 0xffff else x &&& 0xff) = x := by
    rcases h with h | rfl
    · rw [lt_def, h255] at h
      have e' : x &&& 0xff = x := eq_of_toNat_eq (by omega)
      rw [e', if_neg]
      rintro rfl
      exact absurd h (by decide)
    · rfl
  rwa [hx] at e

theorem fteTag_roundTrip {tagentity : BitVec 32} {tagindex : BitVec 16} (h : TagFits pext2 tagentity tagindex) :
    RoundTrip (fteWriteTag pext2 tagentity tagindex) (fteReadTag pext2) (tagentity, tagindex) := by
  unfold fteWriteTag fteReadTag
  refine (msgclEntity_roundTrip h.entity h.small).bind ?_
  have e : RoundTrip (if pext2 &&& pext2Lerptime ≠ 0 then msgWriteULEB128 (tagindex.setWidth 64 + 1)
        else msgWriteByte (tagindex &&& 0xff).toNat)
      (if pext2 &&& pext2Lerptime ≠ 0 then
        (fun n : BitVec 64 => (n - 1).setWidth 16) <$> msgReadULEB128
      else (fun i => if BitVec.ofInt 16 i = 0xff then 0xffff else BitVec.ofInt 16 i) <$> msgReadByte)
      tagindex := by
    refine cond (fun _ => ?_) fun hl => tagindex_roundTrip (h.index (not_not.1 hl))
    have hn : (tagindex.setWidth 64 + 1).toNat = tagindex.toNat + 1 := by
      rw [toNat_add, BitVec.toNat_setWidth_of_le (by omega),
        show (1 : BitVec 64).toNat = 1 from rfl]
      omega
    have e := ((msgULEB128_roundTrip_iff (tagindex.setWidth 64 + 1)).2 (by omega)).map
      fun n : BitVec 64 => (n - 1).setWidth 16
    rwa [BitVec.add_sub_cancel, BitVec.setWidth_setWidth_of_le _ (by omega), BitVec.setWidth_eq] at e
  exact e.bind_return fun x => (tagentity, x)

theorem fteLight_roundTrip (new : EntityState) :
    RoundTrip (fteWriteLight pext2 new) (fteReadLight pext2)
      (new.light, new.lightstyle, new.lightpflags) := by
  unfold fteWriteLight fteReadLight
  refine (ushort_roundTrip _).bind ?_
  refine (ushort_roundTrip _).bind ?_
  refine (ushort_roundTrip _).bind ?_
  refine (ushort_roundTrip _).bind ?_
  refine (fteSmall_roundTrip _).bind ?_
  have e := (byte_roundTrip new.lightpflags).bind_return fun pflags =>
    (![new.light 0, new.light 1, new.light 2, new.light 3], new.lightstyle, pflags)
  rw [vec4_eta] at e ⊢
  exact e

theorem ssparticle_of_lt {n : BitVec 16} (h : n < maxSsparticlespre) : ssparticle n = n :=
  if_neg (BitVec.not_le.2 h)

theorem fteTraileffect_roundTrip {trail emit : BitVec 16} (ht : trail < maxSsparticlespre)
    (he : emit < maxSsparticlespre) :
    RoundTrip (fteWriteTraileffect pext2 trail emit) (fteReadTraileffect pext2) (trail, emit) := by
  have hmask {x : BitVec 16} (hx : x < maxSsparticlespre) : x &&& 0x3fff = x := by
    rw [lt_def, show maxSsparticlespre.toNat = 1024 from rfl] at hx
    apply eq_of_toNat_eq
    rw [toNat_and_mask (n := 14) _ rfl]
    omega
  have hclear {x : BitVec 16} (hx : x < maxSsparticlespre) : x &&& 0x8000 = 0 := by
    rw [lt_def, show maxSsparticlespre.toNat = 1024 from rfl] at hx
    exact and_shl_one_of_lt (i := 15) (by omega)
  -- the short with the trail, and the short that its high bit announces
  have hpair : RoundTrip (if emit ≠ 0 then do
        msgWriteShort (trail &&& 0x3fff ||| 0x8000).toNat
        msgWriteShort (emit &&& 0x3fff).toNat
      else msgWriteShort (trail &&& 0x3fff).toNat) (do
        let s ← BitVec.ofInt 16 <$> msgReadShort
        let emit ← (if s &&& 0x8000 ≠ 0 then
          (fun i => BitVec.ofInt 16 i &&& 0x3fff) <$> msgReadShort else pure 0)
        return (s &&& 0x3fff, emit)) (trail, emit) := by
    split_ifs with h0
    · refine (ushort_roundTrip (trail &&& 0x3fff ||| 0x8000)).bind ?_
      have hmark : (trail &&& 0x3fff ||| 0x8000) &&& 0x8000 ≠ 0 := by
        intro e
        rw [or_and] at e
        exact absurd (or_eq_zero.1 e).2 (by decide)
      have hlow : (trail &&& 0x3fff ||| 0x8000) &&& 0x3fff = trail := by
        rw [or_and, BitVec.and_assoc, BitVec.and_self, hmask ht]
        exact BitVec.or_zero
      rw [if_pos hmark, hlow]
      have e := (ushort_roundTrip (emit &&& 0x3fff)).map_comp fun x : BitVec 16 => x &&& 0x3fff
      rw [BitVec.and_assoc, BitVec.and_self, hmask he] at e
      rw [hmask he]
      exact e.bind_return fun x => (trail, x)
    · rw [not_not] at h0
      subst h0
      obtain ⟨xs, hw, hr⟩ := ushort_roundTrip (trail &&& 0x3fff)
      refine ⟨xs, hw, ?_⟩
      rw [← List.append_nil xs]
      refine hr.bind ?_
      rw [hmask ht, if_neg (not_not.2 (hclear ht)), hmask ht]
      exact Source.Takes.pure (trail, 0)
  have hlong : RoundTrip (do
        msgWriteULEB128 (trail.setWidth 64)
        msgWriteULEB128 (emit.setWidth 64)) (do
        let trail ← BitVec.setWidth 16 <$> msgReadULEB128
        let emit ← BitVec.setWidth 16 <$> msgReadULEB128
        return (trail, emit)) (trail, emit) :=
    (uleb128_roundTrip_of_lt (by omega) trail).bind
      ((uleb128_roundTrip_of_lt (by omega) emit).bind_return fun x => (trail, x))
  unfold fteWriteTraileffect fteReadTraileffect
  have e := (cond (p := pext2 &&& pext2Lerptime ≠ 0) (fun _ => hlong)
    fun _ => hpair).bind_return fun x => (ssparticle x.1, ssparticle x.2)
  rwa [ssparticle_of_lt ht, ssparticle_of_lt he] at e

theorem fteGlow_roundTrip (new : EntityState) :
    RoundTrip (fteWriteGlow new) fteReadGlow (new.glowsize, new.glowcolour, new.glowmod) := by
  unfold fteWriteGlow fteReadGlow
  refine (byte_roundTrip _).bind ?_
  refine (byte_roundTrip _).bind ?_
  exact (writeVec_roundTrip fun i => byte_roundTrip (new.glowmod i)).bind_return _

/-- A signed byte that is read without its sign. -/
theorem fteFatness_roundTrip (x : QByte) :
    RoundTrip (msgWriteChar x.toInt) (BitVec.ofInt 8 <$> msgReadByte) x := by
  have h : RoundTrip (msgWriteChar x.toInt) msgReadByte (BitVec.ofInt 8 x.toInt).toNat :=
    ⟨_, msgWriteChar_emits _, msgReadByte_byteBytes _⟩
  have e := h.map (BitVec.ofInt 8)
  rwa [ofInt_toInt, ofInt_toNat] at e

theorem fteGravitydir_roundTrip (gravitydir : Fin 2 → QByte) :
    RoundTrip (fteWriteGravitydir gravitydir) fteReadGravitydir gravitydir := by
  unfold fteWriteGravitydir fteReadGravitydir
  refine (byte_roundTrip _).bind ?_
  have e := (byte_roundTrip (gravitydir 1)).bind_return fun y => ![gravitydir 0, y]
  have hvec : ![gravitydir 0, gravitydir 1] = gravitydir := by
    funext i
    match i with
    | 0 => rfl
    | 1 => rfl
  rwa [hvec] at e

end Groups

/-! ## Origin and angles -/

variable {bits pext2 x : BitVec 32} {base new : EntityState} {c : FteClient} {prim : Netprim}
  {physicstime : ℚ}

theorem fteCoord_roundTrip {ezext1 f : BitVec 32} (h : wireCoord (qwCoordtype prim ezext1) f = some x) :
    RoundTrip (if ezext1 &&& ezpext1Floatentcoords ≠ 0 then msgWriteFloat f
        else msgWriteCoord prim.coordtype f)
      (if ezext1 &&& ezpext1Floatentcoords ≠ 0 then msgReadFloat else msgReadCoord prim.coordtype)
      x := by
  unfold qwCoordtype at h
  refine cond (fun hf => ?_) fun hf => ?_
  · rw [if_pos hf] at h
    obtain rfl : f = x := Option.some.inj h
    exact float_roundTrip f
  · rw [if_neg hf] at h
    exact msgCoord_roundTrip h

/-- `x` is what a client with `old` has of a component `f` that is sent, if `sent` holds, as `wire`
has it. -/
def FteArrives (sent : Prop) (wire : BitVec 32 → Option (BitVec 32)) (f old x : BitVec 32) : Prop :=
  (sent → wire f = some x) ∧ (¬sent → old = x)

theorem fteOrigin_roundTrip {ezext1 : BitVec 32} {origin old x : Fin 3 → BitVec 32}
    (hxy : ∀ i, i ≠ 2 → FteArrives (bits &&& ufOriginxy ≠ 0) (wireCoord (qwCoordtype prim ezext1))
      (origin i) (old i) (x i))
    (hz : FteArrives (bits &&& ufOriginz ≠ 0) (wireCoord (qwCoordtype prim ezext1)) (origin 2)
      (old 2) (x 2)) :
    RoundTrip (fteWriteOrigin prim.coordtype ezext1 bits origin)
      (fteReadOrigin prim.coordtype ezext1 bits old) x := by
  have h0 := hxy 0 (by decide)
  have h1 := hxy 1 (by decide)
  unfold fteWriteOrigin fteReadOrigin
  have e₂ := (field (fun h => fteCoord_roundTrip (hz.1 h)) hz.2).bind_return
    fun z => ![x 0, x 1, z]
  rw [vec3_eta] at e₂
  refine bind (a := (x 0, x 1)) (field (fun h => ?_) fun h => ?_) e₂
  · refine (fteCoord_roundTrip (h0.1 h)).bind ?_
    exact (fteCoord_roundTrip (h1.1 h)).bind_return fun y => (x 0, y)
  · rw [h0.2 h, h1.2 h]

theorem fteAngles_roundTrip {anglesize : ℕ} {angles old x : Fin 3 → BitVec 32}
    (hxz : ∀ i, i ≠ 1 → FteArrives (bits &&& ufAnglesxz ≠ 0) (wireAngle anglesize) (angles i) (old i)
      (x i)) (hy : FteArrives (bits &&& ufAnglesy ≠ 0) (wireAngle anglesize) (angles 1) (old 1) (x 1)) :
    RoundTrip (fteWriteAngles anglesize bits angles) (fteReadAngles anglesize bits old) x := by
  have h0 := hxz 0 (by decide)
  have h2 := hxz 2 (by decide)
  unfold fteWriteAngles fteReadAngles
  have e₂ := (field (fun h => msgAngle_roundTrip (hy.1 h)) hy.2).bind_return
    fun y => ![x 0, y, x 2]
  rw [vec3_eta] at e₂
  refine bind (a := (x 0, x 2)) (field (fun h => ?_) fun h => ?_) e₂
  · refine (msgAngle_roundTrip (h0.1 h)).bind ?_
    exact (msgAngle_roundTrip (h2.1 h)).bind_return fun y => (x 0, y)
  · rw [h0.2 h, h2.2 h]

/-! ## Effects -/

/-- With variable lengths, and with a time of a lerp that is defined. -/
theorem fteEffects_roundTrip_lerp (hlerp : c.pext2 &&& pext2Lerptime ≠ 0) (heffects2 : bits &&& ufEffects2Old = 0)
    (ht : bits &&& uf16bitLerptime ≠ 0 → (lerpTime new.lerpend physicstime).isSome)
    (hold : bits &&& ufEffects = 0 → base.effects = new.effects) :
    ∃ lerpend, RoundTrip (fteWriteEffects c.pext2 bits physicstime new) (fteReadEffects c bits base)
      (lerpend, new.effects) := by
  -- the time that is left, as a number of milliseconds
  have htime : ∃ lerpend, RoundTrip (if bits &&& uf16bitLerptime ≠ 0 then do
        let t ← StateT.lift (lerpTime new.lerpend physicstime)
        msgWriteULEB128 (BitVec.ofInt 64 (max 0 t.toInt))
      else pure ()) (if bits &&& uf16bitLerptime ≠ 0 then
        (fun n : BitVec 64 =>
          ofRat (double (c.gametime + double (double n.toNat * double (1 / 1000))))) <$> msgReadULEB128
      else pure base.lerpend) lerpend := by
    by_cases hw : bits &&& uf16bitLerptime ≠ 0
    · obtain ⟨t, hsome⟩ := Option.isSome_iff_exists.1 (ht hw)
      simp only [if_pos hw, hsome, lift_some_bind]
      have hlt : (BitVec.ofInt 64 (max 0 t.toInt)).toNat < 2 ^ 31 := by
        have := toInt_lt (x := t)
        rw [toNat_ofInt]
        omega
      exact ⟨_, ((msgULEB128_roundTrip_iff _).2 hlt).map _⟩
    · simp only [if_neg hw]
      exact ⟨_, RoundTrip.pure base.lerpend⟩
  obtain ⟨lerpend, hr⟩ := htime
  refine ⟨lerpend, ?_⟩
  unfold fteWriteEffects fteReadEffects
  have hunused : ¬bits &&& ufEffects2Old ≠ 0 := not_not.2 heffects2
  rw [if_pos hlerp, if_pos hlerp]
  simp only [if_neg hunused]
  refine hr.bind ?_
  have e := field (p := bits &&& ufEffects ≠ 0) (d := base.effects)
    (fun _ => uleb128_roundTrip_32 new.effects) fun h => hold (not_not.1 h)
  exact e.bind_return fun x => (lerpend, x)

/-- Under a mask of both flags of the effects, the flags of their width. -/
theorem fteEffectsBits_cases (effects : BitVec 32) (hx : x &&& ufEffects2Old = 0#32) :
    (x &&& ufEffects = 0#32 ∧
      fteEffectsBits effects x &&& (ufEffects ||| ufEffects2Old) = 0#32) ∨
    x &&& ufEffects ≠ 0#32 ∧
      (fteEffectsBits effects x &&& (ufEffects ||| ufEffects2Old) = ufEffects ||| ufEffects2Old ∨
      fteEffectsBits effects x &&& (ufEffects ||| ufEffects2Old) = ufEffects2Old ∧
        effects.toNat < 2 ^ 16 ∨
      fteEffectsBits effects x &&& (ufEffects ||| ufEffects2Old) = ufEffects ∧
        effects.toNat < 2 ^ 8) := by
  have hboth : x &&& (ufEffects ||| ufEffects2Old) = x &&& ufEffects := by
    rw [BitVec.and_comm, or_and, BitVec.and_comm _ x, BitVec.and_comm _ x, hx, BitVec.or_zero]
  by_cases h0 : x &&& ufEffects = 0#32
  · have h0' : ¬x &&& ufEffects ≠ 0 := not_not.2 h0
    rw [fteEffectsBits, if_neg h0', hboth]
    exact .inl ⟨h0, h0⟩
  · refine .inr ⟨h0, ?_⟩
    have hself : x &&& ufEffects = ufEffects := by
      have e := and_shl_one x 5
      rw [ufEffects] at h0 ⊢
      rw [e] at h0 ⊢
      split_ifs at h0 ⊢
      · rfl
      · exact absurd rfl h0
    have hhigh : effects &&& 0xffff0000 = 0 ↔ effects.toNat < 2 ^ 16 := by
      have e := toNat_and_field effects 0xffff (f := 0xffff0000) (n := 16) (k := 16) rfl rfl (by omega)
      have := effects.isLt
      constructor
      · intro h
        have e' : (effects &&& 0xffff0000).toNat = 0 := by rw [h]; rfl
        omega
      · intro h
        refine eq_of_toNat_eq ?_
        rw [e, show (0 : BitVec 32).toNat = 0 from rfl]
        omega
    have h0' : x &&& ufEffects ≠ 0 := h0
    rw [fteEffectsBits, if_pos h0']
    split_ifs with hh hm
    · left
      rw [or_and, BitVec.and_self, hboth, hself]
      rfl
    · refine .inr (.inl ⟨?_, hhigh.1 (not_not.1 hh)⟩)
      have e : x &&& ~~~ufEffects &&& (ufEffects ||| ufEffects2Old) = 0#32 := by
        refine and_or_eq_zero.2 ⟨and_not_self _ _, ?_⟩
        rw [and_not_and rfl, hx]
      rw [or_and, e]
      rfl
    · refine .inr (.inr ⟨by rw [hboth, hself], ?_⟩)
      have hlt := hhigh.1 (not_not.1 hh)
      have e := toNat_and_field effects 0xff (f := 0xff00) (n := 8) (k := 8) rfl rfl (by omega)
      rw [not_not.1 hm, show (0 : BitVec 32).toNat = 0 from rfl] at e
      omega

/-- With the flags of their width. -/
theorem fteEffects_roundTrip_width (hlerp : c.pext2 &&& pext2Lerptime = 0)
    (hbits : bits &&& (ufEffects ||| ufEffects2Old) = fteEffectsBits new.effects x &&& (ufEffects ||| ufEffects2Old))
    (hx : x &&& ufEffects2Old = 0#32) (hold : x &&& ufEffects = 0#32 → base.effects = new.effects) :
    RoundTrip (fteWriteEffects c.pext2 bits physicstime new) (fteReadEffects c bits base)
      (base.lerpend, new.effects) := by
  have h2 {v : BitVec 32} (h : bits &&& (ufEffects ||| ufEffects2Old) = v) :
      bits &&& ufEffects2Old = v &&& ufEffects2Old := by
    rw [← h, BitVec.and_assoc]
    rfl
  have h1 {v : BitVec 32} (h : bits &&& (ufEffects ||| ufEffects2Old) = v) :
      bits &&& ufEffects = v &&& ufEffects := by
    rw [← h, BitVec.and_assoc]
    rfl
  have hnat : new.effects.toInt < 2 ^ 31 ∧ -2 ^ 31 ≤ new.effects.toInt :=
    ⟨toInt_lt, BitVec.le_toInt _⟩
  unfold fteWriteEffects fteReadEffects
  rw [if_neg (not_not.2 hlerp), if_neg (not_not.2 hlerp)]
  rcases fteEffectsBits_cases new.effects hx with ⟨h0, e⟩ | ⟨-, e | ⟨e, hlt⟩ | ⟨e, hlt⟩⟩
  · -- nothing is sent
    rw [e] at hbits
    rw [hbits, h2 hbits, h1 hbits, hold h0]
    exact RoundTrip.pure _
  · rw [e] at hbits
    rw [hbits, if_pos rfl, if_pos rfl]
    have hlong : RoundTrip (msgWriteLong new.effects.toInt) msgReadLong
        (BitVec.ofInt 32 new.effects.toInt).toInt := ⟨_, msgWriteLong_emits _, msgReadLong_longBytes _⟩
    have e' := hlong.map fun i => (base.lerpend, BitVec.ofInt 32 i)
    rwa [ofInt_toInt, ofInt_toInt] at e'
  · rw [e] at hbits
    rw [hbits, h2 hbits]
    have e' := (msgShort_roundTrip new.effects.toInt).map fun i => (base.lerpend, (BitVec.ofInt 16 i).setWidth 32)
    have hback : (BitVec.ofInt 16 (BitVec.ofInt 16 new.effects.toInt).toInt).setWidth 32 =
        new.effects := by
      rw [ofInt_toInt]
      apply eq_of_toNat_eq
      rw [toNat_setWidth, toNat_ofInt, toInt_eq_toNat_cond]
      split <;> omega
    rw [hback] at e'
    exact e'
  · rw [e] at hbits
    rw [hbits, h2 hbits, h1 hbits]
    have hi : new.effects.toInt = new.effects.toNat := by
      rw [toInt_eq_toNat_cond, if_pos (by omega)]
    have e' := (maskByte_roundTrip hlt).map_comp fun y : BitVec 32 => (base.lerpend, y)
    rw [hi]
    exact e'

/-- The fields up to the effects. -/
theorem fteFirst_roundTrip {lerpend : BitVec 32} {origin angles : Fin 3 → BitVec 32}
    (hframe : bits &&& ufFrame = 0 → base.frame = new.frame)
    (hnarrow : c.pext2 &&& pext2Lerptime = 0 → bits &&& uf16bitLerptime = 0 →
      bits &&& ufFrame ≠ 0 → ¬255 < new.frame)
    (horigin : RoundTrip (fteWriteOrigin prim.coordtype c.ezext1 bits new.origin)
      (fteReadOrigin prim.coordtype c.ezext1 bits base.origin) origin)
    (hangles : RoundTrip
      (fteWriteAngles (fteAnglesize prim.anglesize.toNat c.pext2 bits) bits new.angles)
      (fteReadAngles (fteAnglesize prim.anglesize.toNat c.pext2 bits) bits base.angles) angles)
    (heffects : RoundTrip (fteWriteEffects c.pext2 bits physicstime new) (fteReadEffects c bits base)
      (lerpend, new.effects)) :
    RoundTrip (fteWriteFirst prim c.pext2 c.ezext1 bits physicstime new)
      (fteReadFirst c prim bits base)
      { base with
        frame := new.frame, origin := origin, angles := angles, lerpend := lerpend
        effects := new.effects } := by
  unfold fteWriteFirst fteReadFirst
  refine (field (fun h => fteIndex_roundTrip fun hl hw => hnarrow hl hw h)
    fun h => hframe (not_not.1 h)).bind ?_
  refine horigin.bind ?_
  refine hangles.bind ?_
  exact heffects.bind_return fun x =>
    { base with
      frame := new.frame, origin := origin, angles := angles, lerpend := x.1, effects := x.2 }

/-! ## Prediction -/

/-- A reader that is not needed. -/
theorem RoundTrip.skip {α : Type} {p : Prop} [Decidable p] {w : MsgWriter Unit} {r : MsgReader α}
    {d : α} (hp : ¬p) : RoundTrip (if p then w else Pure.pure ()) (if p then r else Pure.pure d) d := by
  rw [if_neg hp, if_neg hp]
  exact RoundTrip.pure d

/-- Flags of `predbits`: what is not sent is 0 or did not change. -/
structure FtePredReady (pext2 predbits : BitVec 32) (base new : EntityState) : Prop where
  lt : predbits.toNat < 2 ^ 8
  forward : ¬predbits &&& ufpForward ≠ 0 → 0 = new.movement 0
  side : ¬predbits &&& ufpSide ≠ 0 → 0 = new.movement 1
  up : ¬predbits &&& ufpUp ≠ 0 → 0 = new.movement 2
  movetype : ¬predbits &&& ufpMovetype ≠ 0 → base.pmovetype = new.pmovetype
  velocityxy : ¬predbits &&& ufpVelocityxy ≠ 0 → new.velocity 0 = 0 ∧ new.velocity 1 = 0
  velocityz : ¬predbits &&& ufpVelocityz ≠ 0 → new.velocity 2 = 0
  msec : ¬predbits &&& ufpMsec ≠ 0 → 0 = new.msec
  view : pext2 &&& pext2Predinfo ≠ 0 → predbits &&& ufpViewangle = 0
  weaponframe : pext2 &&& pext2Predinfo = 0 →
    if predbits &&& ufpWeaponframeOld ≠ 0 then new.weaponframe < 0x8000
    else base.weaponframe = new.weaponframe

/-- The state with the prediction of `new`. -/
def ftePredicted (pext2 : BitVec 32) (new base : EntityState) : EntityState :=
  { base with
    movement := new.movement, pmovetype := new.pmovetype
    velocity := fun i => fteSpeed pext2 (new.velocity i), msec := new.msec
    weaponframe := if pext2 &&& pext2Predinfo = 0 then new.weaponframe else base.weaponframe }

theorem ftePrediction_roundTrip (bits : BitVec 32) {predbits : BitVec 32} (h : FtePredReady pext2 predbits base new) :
    RoundTrip (fteWritePrediction pext2 bits predbits new) (fteReadPrediction pext2 bits base)
      (predbits, ftePredicted pext2 new base) := by
  unfold fteWritePrediction fteReadPrediction
  refine (maskByte_roundTrip h.lt).bind ?_
  refine (field (fun _ => short_roundTrip _) h.forward).bind ?_
  refine (field (fun _ => short_roundTrip _) h.side).bind ?_
  refine (field (fun _ => short_roundTrip _) h.up).bind ?_
  refine (field (fun _ => byte_roundTrip _) h.movetype).bind ?_
  refine bind (a := (fteSpeed pext2 (new.velocity 0), fteSpeed pext2 (new.velocity 1)))
    (field (fun _ => ?_) fun hn => ?_) ?_
  · refine (fteSpeed_roundTrip (new.velocity 0)).bind ?_
    exact (fteSpeed_roundTrip (new.velocity 1)).bind_return fun y => (fteSpeed pext2 (new.velocity 0), y)
  · rw [(h.velocityxy hn).1, (h.velocityxy hn).2, fteSpeed_zero]
  refine (field (a := fteSpeed pext2 (new.velocity 2)) (fun _ => fteSpeed_roundTrip _)
    fun hn => ?_).bind ?_
  · rw [h.velocityz hn, fteSpeed_zero]
  refine (field (fun _ => byte_roundTrip _) h.msec).bind ?_
  refine (RoundTrip.skip fun hv => hv.2 (h.view hv.1)).bind ?_
  have hweapon := field (p := pext2 &&& pext2Predinfo = 0 ∧ predbits &&& ufpWeaponframeOld ≠ 0)
    (w := fteWriteWeaponframe new.weaponframe) (r := fteReadWeaponframe) (d := base.weaponframe)
    (a := if pext2 &&& pext2Predinfo = 0 then new.weaponframe else base.weaponframe)
    (fun hp => by
      have e := h.weaponframe hp.1
      rw [if_pos hp.2] at e
      rw [if_pos hp.1]
      exact fteWeaponframe_roundTrip e)
    fun hn => by
      split_ifs with hp
      · have e := h.weaponframe hp
        rwa [if_neg fun e' => hn ⟨hp, e'⟩] at e
      · rfl
  have e := hweapon.bind_return fun weaponframe => (predbits, { base with
    movement := ![new.movement 0, new.movement 1, new.movement 2], pmovetype := new.pmovetype
    velocity := ![fteSpeed pext2 (new.velocity 0), fteSpeed pext2 (new.velocity 1), fteSpeed pext2 (new.velocity 2)]
    msec := new.msec, vangle := base.vangle, weaponframe := weaponframe })
  rw [vec3_eta, vec3_eta fun i => fteSpeed pext2 (new.velocity i)] at e
  rw [vec3_eta, vec3_eta fun i => fteSpeed pext2 (new.velocity i)]
  exact e

/-- A state with other view angles. -/
def EntityState.withVangle (s : EntityState) (vangle : Fin 3 → BitVec 16) : EntityState :=
  { s with vangle := vangle }

theorem fteGuessVangle_eq (c : FteClient) (bits predbits : BitVec 32) (s : EntityState) :
    ∃ vangle, fteGuessVangle c bits predbits s = s.withVangle vangle := by
  unfold fteGuessVangle
  split
  · exact ⟨_, rfl⟩
  · exact ⟨s.vangle, rfl⟩

/-- The state with the prediction of `new`, or at a standstill. -/
def ftePredGot (sent : Prop) [Decidable sent] (pext2 : BitVec 32) (vangle : Fin 3 → BitVec 16)
    (new base : EntityState) : EntityState :=
  { base with
    movement := if sent then new.movement else fun _ => 0
    pmovetype := if sent then new.pmovetype else base.pmovetype
    velocity := if sent then fun i => fteSpeed pext2 (new.velocity i) else fun _ => 0
    msec := if sent then new.msec else 0, vangle := vangle
    weaponframe := if sent then
        if pext2 &&& pext2Predinfo = 0 then new.weaponframe else base.weaponframe
      else base.weaponframe }

/-- Prediction, whether it is sent or not. -/
theorem ftePredinfo_roundTrip (c : FteClient) (bits : BitVec 32) {predbits : BitVec 32}
    (base : EntityState) (h : bits &&& ufPredinfo ≠ 0 → FtePredReady c.pext2 predbits base new) :
    ∃ vangle, RoundTrip (if bits &&& ufPredinfo ≠ 0 then
        fteWritePrediction c.pext2 bits predbits new else pure ())
      (fteReadPredinfo c bits base)
      (ftePredGot (bits &&& ufPredinfo ≠ 0) c.pext2 vangle new base) := by
  unfold fteReadPredinfo ftePredGot
  by_cases hp : bits &&& ufPredinfo ≠ 0
  · obtain ⟨vangle, e⟩ := fteGuessVangle_eq c bits predbits (ftePredicted c.pext2 new base)
    refine ⟨vangle, ?_⟩
    have hr := (ftePrediction_roundTrip bits (h hp)).bind_return fun x => fteGuessVangle c bits x.1 x.2
    simp only [if_pos hp]
    rw [e] at hr
    exact hr
  · obtain ⟨vangle, e⟩ := fteGuessVangle_eq c bits 0 (fteStill base)
    refine ⟨vangle, ?_⟩
    have hr : RoundTrip (pure ()) _ (fteGuessVangle c bits 0 (fteStill base)) :=
      (RoundTrip.pure ((0 : BitVec 32), fteStill base)).bind_return fun x => fteGuessVangle c bits x.1 x.2
    simp only [if_neg hp]
    rw [e] at hr
    exact hr

/-! ## Models and what follows -/

/-- The fields from the model to the scale: those that are not sent did not change, and the others
fit. -/
structure FteModelReady (pext2 bits : BitVec 32) (base new : EntityState) : Prop where
  modelindex : ¬bits &&& ufModel ≠ 0 → base.modelindex = new.modelindex
  skinnum : ¬bits &&& ufSkin ≠ 0 → base.skinnum = new.skinnum
  colormap : ¬bits &&& ufColormap ≠ 0 → base.colormap = new.colormap
  solidsize : ¬bits &&& ufSolid ≠ 0 → base.solidsize = new.solidsize
  dpflags : ¬bits &&& ufFlags ≠ 0 → base.dpflags = new.dpflags
  trans : ¬bits &&& ufAlpha ≠ 0 → base.trans = new.trans
  scale : ¬bits &&& ufScale ≠ 0 → base.scale = new.scale
  model_fits : pext2 &&& pext2Lerptime = 0 → bits &&& uf16bitLerptime = 0 → bits &&& ufModel ≠ 0 →
    ¬255 < new.modelindex
  skin_narrow : pext2 &&& pext2Lerptime = 0 → bits &&& uf16bitLerptime = 0 → bits &&& ufSkin ≠ 0 →
    ¬255 < new.skinnum
  skin_fits : bits &&& ufSkin ≠ 0 → pext2 &&& pext2Lerptime = 0 → SkinFits new.skinnum
  colormap_fits : bits &&& ufColormap ≠ 0 → pext2 &&& pext2Lerptime = 0 → new.colormap < 256
  solid_fits : bits &&& ufSolid ≠ 0 → SolidFits pext2 new.solidsize

theorem fteModel_roundTrip (h : FteModelReady pext2 bits base new) :
    RoundTrip (fteWriteModel pext2 bits new) (fteReadModel pext2 bits base)
      { base with
        modelindex := new.modelindex, skinnum := new.skinnum, colormap := new.colormap
        solidsize := new.solidsize, dpflags := new.dpflags, trans := new.trans
        scale := new.scale } := by
  unfold fteWriteModel fteReadModel
  refine (field (fun hm => fteIndex_roundTrip fun hl hw => h.model_fits hl hw hm)
    h.modelindex).bind ?_
  refine (field (fun hs => fteSkin_roundTrip (h.skin_fits hs) fun hl hw =>
    h.skin_narrow hl hw hs) h.skinnum).bind ?_
  refine (field (fun hc => fteColormap_roundTrip (h.colormap_fits hc)) h.colormap).bind ?_
  refine (field (fun hs => fteSolid_roundTrip (h.solid_fits hs)) h.solidsize).bind ?_
  refine (field (fun _ => fteSmall_roundTrip _) h.dpflags).bind ?_
  refine (field (fun _ => byte_roundTrip _) h.trans).bind ?_
  exact (field (fun _ => byte_roundTrip _) h.scale).bind_return fun scale =>
    { base with
      modelindex := new.modelindex, skinnum := new.skinnum, colormap := new.colormap
      solidsize := new.solidsize, dpflags := new.dpflags, trans := new.trans, scale := scale }

/-- The fields from the flags of Hexen 2 on. -/
structure FteLastReady (pext2 bits : BitVec 32) (base new : EntityState) : Prop where
  drawflags : ¬bits &&& ufDrawflags ≠ 0 →
    (base.hexen2flags, base.abslight) = (new.hexen2flags, new.abslight)
  tag : ¬bits &&& ufTaginfo ≠ 0 → (base.tagentity, base.tagindex) = (new.tagentity, new.tagindex)
  light : ¬bits &&& ufLight ≠ 0 → (base.light, base.lightstyle, base.lightpflags) =
    (new.light, new.lightstyle, new.lightpflags)
  effectnums : ¬bits &&& ufTraileffect ≠ 0 → (base.traileffectnum, base.emiteffectnum) =
    (new.traileffectnum, new.emiteffectnum)
  colormod : ¬bits &&& ufColormod ≠ 0 → base.colormod = new.colormod
  glow : ¬bits &&& ufGlow ≠ 0 → (base.glowsize, base.glowcolour, base.glowmod) =
    (new.glowsize, new.glowcolour, new.glowmod)
  fatness : ¬bits &&& ufFatness ≠ 0 → base.fatness = new.fatness
  modelindex2 : ¬bits &&& ufModelindex2 ≠ 0 → base.modelindex2 = new.modelindex2
  gravitydir : ¬bits &&& ufGravitydir ≠ 0 → base.gravitydir = new.gravitydir
  drawflags_fits : bits &&& ufDrawflags ≠ 0 → UsesAbslight new.hexen2flags ∨ new.abslight = 0
  tag_fits : bits &&& ufTaginfo ≠ 0 → TagFits pext2 new.tagentity new.tagindex
  effectnums_fit : bits &&& ufTraileffect ≠ 0 →
    new.traileffectnum < maxSsparticlespre ∧ new.emiteffectnum < maxSsparticlespre
  model2_fits : pext2 &&& pext2Lerptime = 0 → bits &&& uf16bitLerptime = 0 →
    bits &&& ufModelindex2 ≠ 0 → ¬255 < new.modelindex2
  unused : bits &&& ufUnused1 = 0

theorem fteLast_roundTrip (h : FteLastReady pext2 bits base new) :
    RoundTrip (fteWriteLast pext2 bits new) (fteReadLast pext2 bits base)
      { base with
        hexen2flags := new.hexen2flags, abslight := new.abslight, tagentity := new.tagentity
        tagindex := new.tagindex, light := new.light, lightstyle := new.lightstyle
        lightpflags := new.lightpflags, traileffectnum := new.traileffectnum
        emiteffectnum := new.emiteffectnum, colormod := new.colormod, glowsize := new.glowsize
        glowcolour := new.glowcolour, glowmod := new.glowmod, fatness := new.fatness
        modelindex2 := new.modelindex2, gravitydir := new.gravitydir } := by
  have hunused : ¬bits &&& ufUnused1 ≠ 0 := not_not.2 h.unused
  unfold fteWriteLast fteReadLast
  simp only [if_neg hunused]
  refine (field (fun hd => fteDrawflags_roundTrip (h.drawflags_fits hd))
    h.drawflags).bind ?_
  refine (field (fun ht => fteTag_roundTrip (h.tag_fits ht)) h.tag).bind ?_
  refine (field (fun _ => fteLight_roundTrip new) h.light).bind ?_
  refine (field (fun he => fteTraileffect_roundTrip (h.effectnums_fit he).1
    (h.effectnums_fit he).2) h.effectnums).bind ?_
  refine (field (fun _ => writeVec_roundTrip fun i => byte_roundTrip (new.colormod i))
    h.colormod).bind ?_
  refine (field (fun _ => fteGlow_roundTrip new) h.glow).bind ?_
  refine (field (fun _ => fteFatness_roundTrip _) h.fatness).bind ?_
  refine (field (fun hm => fteIndex_roundTrip fun hl hw => h.model2_fits hl hw hm)
    h.modelindex2).bind ?_
  exact (field (fun _ => fteGravitydir_roundTrip _) h.gravitydir).bind_return
    fun gravitydir => { base with
      hexen2flags := new.hexen2flags, abslight := new.abslight, tagentity := new.tagentity
      tagindex := new.tagindex, light := new.light, lightstyle := new.lightstyle
      lightpflags := new.lightpflags, traileffectnum := new.traileffectnum
      emiteffectnum := new.emiteffectnum, colormod := new.colormod, glowsize := new.glowsize
      glowcolour := new.glowcolour, glowmod := new.glowmod, fatness := new.fatness
      modelindex2 := new.modelindex2, gravitydir := gravitydir }

/-! ## Bones -/

theorem shortBytes_decodeShort (m : Mem QByte) (p : ℕ) :
    shortBytes (boneShort m p).toInt = m.slice p 2 := by
  have e : (boneShort m p).toNat = (m p).toNat + (m (p + 1)).toNat * 2 ^ 8 := by
    have h0 := (m p).isLt
    have h1 := (m (p + 1)).isLt
    simp only [boneShort, Mem.slice_succ, Mem.slice_zero, decodeShort, List.getD_cons_zero,
      List.getD_cons_succ, toNat_ofNat, shiftLeft_eq]
    omega
  rw [Mem.slice_succ, Mem.slice_one, shortBytes]
  refine List.cons_eq_cons.2 ⟨?_, List.cons_eq_cons.2 ⟨?_, rfl⟩⟩
  · apply eq_of_toNat_eq
    rw [toNat_ofInt, toInt_eq_toNat_cond, e]
    split <;> omega
  · apply eq_of_toNat_eq
    rw [toNat_ofInt, Int.shiftRight_eq_div_pow, toInt_eq_toNat_cond, e]
    split <;> omega

/-- A run of shorts is a run of bytes. -/
theorem shortsBytes_range (m : Mem QByte) (p n : ℕ) :
    shortsBytes ((List.range n).map fun i => boneShort m (p + 2 * i)) = m.slice p (2 * n) := by
  induction n with
  | zero => rfl
  | succ n ih =>
    rw [List.range_succ, List.map_append, shortsBytes, List.flatMap_append, ← shortsBytes, ih, mul_succ,
      Mem.slice_add, List.map_singleton, List.flatMap_singleton, shortBytes_decodeShort]

/-- The bones of an entity, one short after the other. -/
theorem shortsBytes_bones (bonedata : Mem QByte) (new : EntityState) :
    shortsBytes ((List.range (new.bonecount.toNat * 7)).map fun i =>
      boneShort bonedata (new.boneoffset.toNat + 2 * i)) = boneBytes bonedata new := by
  have hsize : 2 * (new.bonecount.toNat * 7) = boneSize new.bonecount := by
    unfold boneSize
    omega
  rw [shortsBytes_range, hsize, boneBytes]

/-- The flags of bone data. -/
theorem boneFlags_iff (pext2 : BitVec 32) (bonedata : Mem QByte) (new : EntityState) :
    let fl := boneFlags pext2 (some bonedata) new
    (fl &&& 0x80 ≠ 0 ↔ new.bonecount ≠ 0) ∧
    (fl &&& 0x40 ≠ 0 ↔ new.basebone ≠ 0 ∨ new.baseframe ≠ 0) ∧
    (fl &&& 0x20 ≠ 0 ↔ pext2 &&& pext2Bonecontrols ≠ 0 ∧ ∃ i, new.bonecontrol i ≠ 0) ∧
    (fl &&& 0x10 ≠ 0 ↔ pext2 &&& pext2Bodygroup ≠ 0 ∧ new.bodygroup ≠ 0) ∧
    (fl &&& 0x08 ≠ 0 ↔ pext2 &&& pext2Framerate ≠ 0 ∧ new.animrate ≠ 0) ∧ fl &&& 0x07 = 0 := by
  simp [boneFlags, imp_iff_not_or]

/-- The state and the packet with the bones of `new`. -/
def fteBonesGot (pext2 : BitVec 32) (newbones : Mem QByte) (newp : BonePack)
    (new base : EntityState) : EntityState × BonePack :=
  let (boneoffset, newp) := if new.bonecount ≠ 0 then newp.allocate (boneBytes newbones new)
    else (base.boneoffset, newp)
  ({ base with
    bonecount := new.bonecount, boneoffset := boneoffset, basebone := new.basebone
    baseframe := new.baseframe
    bonecontrol := if pext2 &&& pext2Bonecontrols ≠ 0 then new.bonecontrol else fun _ => 0
    bodygroup := if pext2 &&& pext2Bodygroup ≠ 0 then new.bodygroup else 0
    animrate := if pext2 &&& pext2Framerate ≠ 0 then new.animrate else 0 }, newp)

theorem ftePose_roundTrip (basebone : QByte) (baseframe : BitVec 16) :
    RoundTrip (do
      fteWriteSmall pext2 basebone
      if pext2 &&& pext2Lerptime ≠ 0 then msgWriteULEB128 (baseframe.setWidth 64)
      else msgWriteShort baseframe.toNat) (do
      let basebone ← fteReadSmall pext2
      let baseframe ← (if pext2 &&& pext2Lerptime ≠ 0 then BitVec.setWidth 16 <$> msgReadULEB128
        else BitVec.ofInt 16 <$> msgReadShort)
      return (basebone, baseframe)) (basebone, baseframe) := by
  refine (fteSmall_roundTrip basebone).bind ?_
  have e := cond (p := pext2 &&& pext2Lerptime ≠ 0)
    (fun _ => uleb128_roundTrip_of_lt (by omega) baseframe) fun _ => ushort_roundTrip baseframe
  exact e.bind_return fun x => (basebone, x)

theorem bonecontrol_roundTrip (bonecontrol : Fin 5 → BitVec 16) :
    RoundTrip ((List.finRange 5).forM fun i => msgWriteShort (bonecontrol i).toInt)
      ((fun xs : List (BitVec 16) => fun i : Fin 5 => xs.getD i 0) <$>
        (List.finRange 5).mapM fun _ => BitVec.ofInt 16 <$> msgReadShort) bonecontrol := by
  have e := (list (List.finRange 5) fun i => short_roundTrip (bonecontrol i)).map
    fun xs : List (BitVec 16) => fun i : Fin 5 => xs.getD i 0
  have hlist : (fun i : Fin 5 => ((List.finRange 5).map bonecontrol).getD i 0) = bonecontrol := by
    funext i
    simp
  rwa [hlist] at e

/-- A field of an extension that is 0 when it is not sent. -/
theorem gated_eq {α : Type} {g n : Prop} [Decidable g] {x zero : α} (h : ¬(g ∧ n))
    (hn : ¬n → x = zero) : zero = if g then x else zero := by
  split_ifs with hg
  · exact (hn fun e => h ⟨hg, e⟩).symm
  · rfl

theorem fteBones_roundTrip (pext2 : BitVec 32) (newbones : Mem QByte) (newp : BonePack) (new base : EntityState) :
    RoundTrip (fteWriteBones pext2 (some newbones) new) (fteReadBones pext2 newp base)
      (fteBonesGot pext2 newbones newp new base) := by
  obtain ⟨hcount, hpose, hcontrol, hbody, hrate, hrest⟩ := boneFlags_iff pext2 newbones new
  have hrest' : ¬boneFlags pext2 (some newbones) new &&& 0x07 ≠ 0 := not_not.2 hrest
  unfold fteWriteBones fteReadBones fteBonesGot
  simp only [lift_some_bind]
  refine (byte_roundTrip (boneFlags pext2 (some newbones) new)).bind ?_
  simp only [if_neg hrest', hcount, hpose, hcontrol, hbody, hrate]
  -- the bones and where they are put
  refine bind (a := (new.bonecount, if new.bonecount ≠ 0 then
      newp.allocate (boneBytes newbones new) else (base.boneoffset, newp)))
    (field (fun hc => ?_) fun hc => ?_) ?_
  · rw [if_pos hc]
    refine (byte_roundTrip new.bonecount).bind ?_
    have e := (list (List.range (new.bonecount.toNat * 7)) fun i =>
      short_roundTrip (boneShort newbones (new.boneoffset.toNat + 2 * i))).bind_return
        fun xs => (new.bonecount, newp.allocate (shortsBytes xs))
    rwa [shortsBytes_bones] at e
  · rw [if_neg hc, not_not.1 hc]
  generalize (if new.bonecount ≠ 0 then newp.allocate (boneBytes newbones new) else (base.boneoffset, newp)) = r
  obtain ⟨boneoffset, pack⟩ := r
  dsimp only
  refine bind (a := (new.basebone, new.baseframe))
    (field (fun _ => ftePose_roundTrip _ _) fun hn => ?_) ?_
  · push Not at hn
    rw [hn.1, hn.2]
  refine bind (field (a := if pext2 &&& pext2Bonecontrols ≠ 0 then
    new.bonecontrol else fun _ => 0) (fun hc => ?_) fun hn => gated_eq hn fun hz => ?_) ?_
  · rw [if_pos hc.1]
    exact bonecontrol_roundTrip _
  · push Not at hz
    exact funext hz
  refine bind (field (a := if pext2 &&& pext2Bodygroup ≠ 0 then new.bodygroup
    else 0) (fun hc => ?_) fun hn => gated_eq hn not_not.1) ?_
  · rw [if_pos hc.1]
    exact byte_roundTrip _
  have hlast := field (p := pext2 &&& pext2Framerate ≠ 0 ∧ new.animrate ≠ 0)
    (a := if pext2 &&& pext2Framerate ≠ 0 then new.animrate else 0)
    (fun hc => by rw [if_pos hc.1]; exact short_roundTrip new.animrate)
    fun hn => gated_eq hn not_not.1
  exact hlast.bind_return fun animrate => ({ base with
    bonecount := new.bonecount, boneoffset := boneoffset, basebone := new.basebone
    baseframe := new.baseframe
    bonecontrol := if pext2 &&& pext2Bonecontrols ≠ 0 then new.bonecontrol else fun _ => 0
    bodygroup := if pext2 &&& pext2Bodygroup ≠ 0 then new.bodygroup else 0
    animrate := animrate }, pack)

end FteQuake
