import FteQuake.Common.FteParts

/-!
# Sizes of solid entities

`COM_EncodeSize`, `COM_DecodeSize` and the 16-bit form of sizes (`MSG_WriteSize16`,
`MSG_ReadSize16`). A size is 0 (not solid), `ES_SOLID_BSP` or a box; the form counts a box in steps
of 8, with 5 bits for its width, 5 for what is below the origin and 6 for its top.

The reader knows the form of `ES_SOLID_BSP` and takes all others, 0 too, for boxes. So 0 comes back
as the box that has no width and ends 32 units below the origin, which is written as 0 as well, and
the box of that top and full width is written as `ES_SOLID_BSP` (`size16_codec`).
-/

namespace FteQuake

namespace SolidSize

open StreamProgram BitFlags BinaryFloat Sizebuf

/-! ## Sizes and boxes -/

/-- `bound`. -/
def bound (min num max : ℤ) : ℤ := if num ≥ min then if num < max then num else max else min

/-- `COM_EncodeSize`. -/
def comEncodeSize (mins maxs : Fin 3 → ℚ) : BitVec 32 :=
  let solid := BitVec.ofInt 32 (bound 0 (trunc (-mins 0)) 255)
  let solid := solid ||| BitVec.ofInt 32 (bound 0 (trunc (-mins 2)) 255) <<< 8
  let solid := solid ||| BitVec.ofInt 32 (bound 0 (trunc (maxs 2 + 32768)) 65535) <<< 16
  if solid = 0x80000000 then 0 else solid

/-- `COM_DecodeSize`. -/
def comDecodeSize (solid : BitVec 32) : (Fin 3 → ℚ) × (Fin 3 → ℚ) :=
  let x : ℤ := (solid &&& 255).toNat
  let d : ℤ := (solid >>> 8 &&& 255).toNat
  let u : ℤ := (solid >>> 16 &&& 65535).toNat
  (![-x, -x, -d], ![x, x, (u - 32768 : ℤ)])

/-- A box whose extents are multiples of 8: up to 248 to the sides and below the origin, from -32 to
464 for its top. -/
structure IsBox (sz : BitVec 32) : Prop where
  width : ∃ k : ℤ, 0 ≤ k ∧ k ≤ 31 ∧ (comDecodeSize sz).2 0 = 8 * k
  down : ∃ k : ℤ, 0 ≤ k ∧ k ≤ 31 ∧ (comDecodeSize sz).1 2 = -(8 * k)
  up : ∃ k : ℤ, -4 ≤ k ∧ k < 59 ∧ (comDecodeSize sz).2 2 = 8 * k

/-- The bits of a box. -/
structure BoxBits (n : ℕ) : Prop where
  width : n % 8 = 0
  down : n / 2 ^ 8 % 8 = 0
  up : n / 2 ^ 16 % 8 = 0
  up_ge : 32736 ≤ n / 2 ^ 16
  up_lt : n / 2 ^ 16 < 33240

theorem toNat_fields (sz : BitVec 32) :
    (sz &&& 255).toNat = sz.toNat % 2 ^ 8 ∧ (sz >>> 8 &&& 255).toNat = sz.toNat / 2 ^ 8 % 2 ^ 8 ∧
      (sz >>> 16 &&& 65535).toNat = sz.toNat / 2 ^ 16 := by
  have hsz := sz.isLt
  refine ⟨toNat_and_255 sz, ?_, ?_⟩
  · rw [toNat_and_255, BitVec.toNat_ushiftRight, Nat.shiftRight_eq_div_pow]
  · rw [toNat_and_mask (n := 16) _ rfl, BitVec.toNat_ushiftRight, Nat.shiftRight_eq_div_pow]
    omega

variable {sz : BitVec 32}

theorem isBox_iff : IsBox sz ↔ BoxBits sz.toNat := by
  obtain ⟨hx, hd, hu⟩ := toNat_fields sz
  have hsz := sz.isLt
  constructor
  · rintro ⟨⟨a, ha0, ha, hax⟩, ⟨b, hb0, hb, hbd⟩, ⟨c, hc0, hc, hcu⟩⟩
    change (((sz &&& 255).toNat : ℤ) : ℚ) = 8 * a at hax
    change -(((sz >>> 8 &&& 255).toNat : ℤ) : ℚ) = -(8 * b) at hbd
    change (((sz >>> 16 &&& 65535).toNat - 32768 : ℤ) : ℚ) = 8 * c at hcu
    have hax' : ((sz &&& 255).toNat : ℤ) = 8 * a := by exact_mod_cast hax
    have hbd' : ((sz >>> 8 &&& 255).toNat : ℤ) = 8 * b := by exact_mod_cast neg_injective hbd
    have hcu' : ((sz >>> 16 &&& 65535).toNat : ℤ) - 32768 = 8 * c := by exact_mod_cast hcu
    rw [hx] at hax'
    rw [hd] at hbd'
    rw [hu] at hcu'
    constructor <;> omega
  · rintro ⟨h1, h2, h3, h4, h5⟩
    refine ⟨⟨(sz.toNat % 2 ^ 8 / 8 : ℕ), by omega, by omega, ?_⟩,
      ⟨(sz.toNat / 2 ^ 8 % 2 ^ 8 / 8 : ℕ), by omega, by omega, ?_⟩,
      ⟨(sz.toNat / 2 ^ 16 / 8 : ℕ) - 4096, by omega, by omega, ?_⟩⟩
    · change (((sz &&& 255).toNat : ℤ) : ℚ) = _
      rw [hx]
      exact_mod_cast show sz.toNat % 2 ^ 8 = 8 * (sz.toNat % 2 ^ 8 / 8) by omega
    · change -(((sz >>> 8 &&& 255).toNat : ℤ) : ℚ) = _
      rw [hd]
      exact_mod_cast congrArg (fun k : ℕ => -(k : ℤ))
        (show sz.toNat / 2 ^ 8 % 2 ^ 8 = 8 * (sz.toNat / 2 ^ 8 % 2 ^ 8 / 8) by omega)
    · change (((sz >>> 16 &&& 65535).toNat - 32768 : ℤ) : ℚ) = _
      rw [hu]
      exact_mod_cast show (sz.toNat / 2 ^ 16 : ℕ) - (32768 : ℤ) = 8 * ((sz.toNat / 2 ^ 16 / 8 : ℕ) - 4096) by
        omega

theorem IsBox.size16Fits (h : IsBox sz) (hne : sz ≠ 0x7fe000f8) : Size16Fits sz := by
  obtain ⟨hwidth, hdown, hup, hge, hlt⟩ := isBox_iff.1 h
  exact ⟨(not_extraBits_iff sz).2 ⟨hwidth, hdown, hup⟩, hge, by omega, hne⟩

theorem trunc_intCast (n : ℤ) : trunc n = n := le_antisymm (trunc_le le_rfl) (le_trunc le_rfl)

/-- **A word is the size of an entity of its extents**, except for that of a point. -/
theorem encode_decode_iff : comEncodeSize (comDecodeSize sz).1 (comDecodeSize sz).2 = sz ↔ sz ≠ 0x80000000 := by
  obtain ⟨hx, hd, hu⟩ := toNat_fields sz
  have hsz := sz.isLt
  have hwidth : trunc (-(comDecodeSize sz).1 0) = (sz &&& 255).toNat := by
    change trunc (-(-(((sz &&& 255).toNat : ℤ) : ℚ))) = _
    rw [neg_neg, trunc_intCast]
  have hdown : trunc (-(comDecodeSize sz).1 2) = (sz >>> 8 &&& 255).toNat := by
    change trunc (-(-(((sz >>> 8 &&& 255).toNat : ℤ) : ℚ))) = _
    rw [neg_neg, trunc_intCast]
  have hup : trunc ((comDecodeSize sz).2 2 + 32768) = (sz >>> 16 &&& 65535).toNat := by
    change trunc ((((sz >>> 16 &&& 65535).toNat - 32768 : ℤ) : ℚ) + (32768 : ℚ)) = _
    rw [Int.cast_sub, Int.cast_ofNat, sub_add_cancel, trunc_intCast]
  have hbound {n : ℕ} {m : ℤ} (hnm : n ≤ m) : bound 0 n m = n := by
    unfold bound
    split
    · split
      · rfl
      · omega
    · omega
  have hsolid : sz &&& (255 : BitVec 32) ||| (sz >>> 8 &&& 255) <<< 8 ||| (sz >>> 16 &&& 65535) <<< 16 = sz := by
    have hlow : ((sz >>> 8 &&& 255) <<< 8).toNat = sz.toNat / 2 ^ 8 % 2 ^ 8 * 2 ^ 8 := by
      rw [BitVec.toNat_shiftLeft, hd, Nat.shiftLeft_eq]
      omega
    have hhigh : ((sz >>> 16 &&& 65535) <<< 16).toNat = sz.toNat / 2 ^ 16 * 2 ^ 16 := by
      rw [BitVec.toNat_shiftLeft, hu, Nat.shiftLeft_eq]
      omega
    have htwo : (sz &&& (255 : BitVec 32) ||| (sz >>> 8 &&& 255) <<< 8).toNat =
        sz.toNat % 2 ^ 8 + sz.toNat / 2 ^ 8 % 2 ^ 8 * 2 ^ 8 := by
      rw [or_eq_add (n := 8) (by rw [hx]; omega) hlow, hx, hlow]
    apply BitVec.eq_of_toNat_eq
    rw [or_eq_add (n := 16) (by rw [htwo]; omega) hhigh, htwo, hhigh]
    omega
  unfold comEncodeSize
  rw [hwidth, hdown, hup, hbound (by omega), hbound (by omega), hbound (by omega)]
  simp only [BitVec.ofInt_natCast, BitVec.ofNat_toNat, BitVec.setWidth_eq]
  rw [hsolid]
  split
  · rename_i hpoint
    simp [hpoint]
  · rename_i hpoint
    exact iff_of_true rfl hpoint

/-! ## The 16-bit form -/

theorem msgWriteSize16_emits (h : IsBox sz) :
    sink.Emits (msgWriteSize16 sz) (shortBytes (size16 sz).toInt) () := by
  have hbits := isBox_iff.1 h
  have hbsp : sz ≠ esSolidBsp := by
    rintro rfl
    exact absurd hbits.up_ge (by decide)
  have hzero : sz ≠ 0 := by
    rintro rfl
    exact absurd hbits.up_ge (by decide)
  rw [msgWriteSize16, if_neg hbsp, if_pos hzero]
  exact msgWriteShort_emits _

/-- The forms of two sizes are written alike only when they are the same short. -/
theorem ofInt_of_emits {w : MsgWriter Unit} {a b : Int} (ha : sink.Emits w (shortBytes a) ())
    (hb : sink.Emits w (shortBytes b) ()) : BitVec.ofInt 16 a = BitVec.ofInt 16 b := by
  rw [← decodeShort_shortBytes, ← decodeShort_shortBytes, emits_unique ha hb]

/-- The two boxes whose forms are reserved. -/
theorem size16_reserved (h : IsBox sz) :
    (sink.Emits (msgWriteSize16 sz) (shortBytes 0) () ↔ sz = 0x7fe00000) ∧
      (sink.Emits (msgWriteSize16 sz) (shortBytes esSolidBsp.toInt) () ↔ sz = 0x7fe000f8) := by
  by_cases hne : sz = 0x7fe000f8
  · subst hne
    refine ⟨⟨fun hzero => ?_, fun heq => absurd heq (by decide)⟩, ⟨fun _ => rfl, fun _ => msgWriteSize16_emits h⟩⟩
    exact absurd (ofInt_of_emits (msgWriteSize16_emits h) hzero) (by decide)
  · have hbits := isBox_iff.1 h
    obtain ⟨hwidth, hdown, hup, hge, hlt⟩ := hbits
    have hform := toNat_size16 (h.size16Fits hne)
    have hshort : (BitVec.ofInt 16 (size16 sz).toInt).toNat = (size16 sz).toNat := by
      rw [BitVec.toInt_eq_toNat_cond, if_pos (by omega), BitVec.ofInt_natCast, BitVec.toNat_ofNat]
      omega
    constructor
    · constructor
      · intro hzero
        have hcode := congrArg BitVec.toNat (ofInt_of_emits (msgWriteSize16_emits h) hzero)
        rw [hshort] at hcode
        refine BitVec.eq_of_toNat_eq ?_
        rw [show (0x7fe00000 : BitVec 32).toNat = 0x7fe00000 from rfl]
        rw [show (BitVec.ofInt 16 0).toNat = 0 from rfl] at hcode
        omega
      · rintro rfl
        exact msgWriteSize16_emits h
    · refine ⟨fun hbsp => ?_, fun heq => absurd heq hne⟩
      have hcode := congrArg BitVec.toNat (ofInt_of_emits (msgWriteSize16_emits h) hbsp)
      rw [hshort, show (BitVec.ofInt 16 esSolidBsp.toInt).toNat = 31 from rfl] at hcode
      refine absurd (BitVec.eq_of_toNat_eq ?_) hne
      rw [show (0x7fe000f8 : BitVec 32).toNat = 0x7fe000f8 from rfl]
      omega

/-- What the reader makes of the form that 0 is written as. -/
theorem zero_readsBack : RoundTrip (msgWriteSize16 0) msgReadSize16 0x7fe00000 :=
  (msgShort_roundTrip 0).map fun i => ofSize16 (BitVec.ofInt 16 i)

/-- **The codec of sizes**: a size comes back, and a box has a form of its own, exactly when it is
not 0 and not one of the two boxes that end 32 units below the origin, go no further down, and have
no width or the full width. -/
theorem size16_codec {sz : BitVec 32} (h : sz = 0 ∨ sz = esSolidBsp ∨ IsBox sz) :
    (RoundTrip (msgWriteSize16 sz) msgReadSize16 sz ∧
      (IsBox sz → ¬sink.Emits (msgWriteSize16 sz) (shortBytes esSolidBsp.toInt) () ∧
        ¬sink.Emits (msgWriteSize16 sz) (shortBytes 0) ())) ↔
    sz ≠ 0 ∧ sz ≠ 0x7fe00000 ∧ sz ≠ 0x7fe000f8 := by
  constructor
  · rintro ⟨hround, hbox⟩
    have hzero : sz ≠ 0 := by
      rintro rfl
      exact absurd (hround.unique zero_readsBack) (by decide)
    refine ⟨hzero, fun heq => ?_, fun heq => ?_⟩
    · have hb : IsBox sz := isBox_iff.2 (by subst heq; constructor <;> decide)
      exact (hbox hb).2 ((size16_reserved hb).1.2 heq)
    · have hb : IsBox sz := isBox_iff.2 (by subst heq; constructor <;> decide)
      exact (hbox hb).1 ((size16_reserved hb).2.2 heq)
  · rintro ⟨hzero, hpoint, hwide⟩
    constructor
    · rcases h with hz | hbsp | hb
      · exact absurd hz hzero
      · exact msgSize16_roundTrip (.inl hbsp)
      · exact msgSize16_roundTrip (.inr (hb.size16Fits hwide))
    · intro hb
      exact ⟨fun he => hwide ((size16_reserved hb).2.1 he), fun he => hpoint ((size16_reserved hb).1.1 he)⟩

/-- The size of a player. -/
theorem size16_codec_player :
    RoundTrip (msgWriteSize16 0x80201810) msgReadSize16 0x80201810 :=
  ((size16_codec (.inr (.inr (isBox_iff.2 (by constructor <;> decide))))).2
    ⟨by decide, by decide, by decide⟩).1

/-- **0 does not come back**, and two boxes are written as the reserved forms. -/
theorem size16_collides :
    ¬∀ sz : BitVec 32, sz = 0 ∨ sz = esSolidBsp ∨ IsBox sz →
      RoundTrip (msgWriteSize16 sz) msgReadSize16 sz ∧
      (IsBox sz → ¬sink.Emits (msgWriteSize16 sz) (shortBytes esSolidBsp.toInt) () ∧
        ¬sink.Emits (msgWriteSize16 sz) (shortBytes 0) ()) := by
  intro h
  exact absurd ((h 0 (.inl rfl)).1.unique zero_readsBack) (by decide)

end SolidSize

end FteQuake
