import FteQuake.Common.FteEntity

/-!
# The bits of a replacement delta

What the change bits say about two states (`fteCalcBits_iff`), which of them are sent
(`fteSentBits_field`), and that the client reads the bits that were sent (`fteBits_roundTrip`).
-/

namespace FteQuake

open StreamProgram BitFlags BinaryFloat MsgState Sizebuf

/-! ## The bits that come back -/

/-- Bits that can be sent: the flags that announce more bytes, and none of an attachment to a fifth
byte. -/
structure FteBitsReady (bits : BitVec 32) : Prop where
  extend1 : bits &&& ufExtend1 ≠ 0 ↔ bits &&& 0x0000ff00 ≠ 0
  extend2 : bits &&& ufExtend2 ≠ 0 ↔ bits &&& 0x00ff0000 ≠ 0
  extend3 : bits &&& ufExtend3 ≠ 0 ↔ bits &&& 0xff000000 ≠ 0
  extend4 : bits &&& ufExtend4 = 0

/-- One more byte of bits, when the low ones have been read. -/
theorem fteReadMoreBits_roundTrip {bits : BitVec 32} (flag low byte next : BitVec 32) (shift : ℕ)
    (hflag : low &&& flag = flag) (hbyte : (0xff : BitVec 32) <<< shift = byte)
    (hnext : low ||| byte = next) (h : bits &&& flag ≠ 0 ↔ bits &&& byte ≠ 0) :
    RoundTrip (if bits &&& flag ≠ 0 then msgWriteByte (bits >>> shift &&& 0xff).toNat else pure ())
      (fteReadMoreBits flag (bits &&& low) shift) (bits &&& next) := by
  have hsplit : bits &&& next = bits &&& low ||| bits &&& byte := by
    rw [← hnext, BitVec.and_comm, or_and, BitVec.and_comm low, BitVec.and_comm byte]
  unfold fteReadMoreBits
  rw [BitVec.and_assoc, hflag, hsplit]
  refine RoundTrip.field (fun _ => ?_) fun h0 => ?_
  · have e := (maskByte_roundTrip (x := bits >>> shift &&& 0xff)
      (by rw [toNat_and_255]; omega)).map_comp fun i : BitVec 32 => bits &&& low ||| i <<< shift
    rwa [shiftRight_and_shiftLeft, hbyte] at e
  · have h0' : bits &&& byte = 0#32 := not_not.1 fun e => h0 (h.2 e)
    rw [h0', BitVec.or_zero]

/-- **The bits come back.** -/
theorem fteBits_roundTrip {bits : BitVec 32} (h : FteBitsReady bits) :
    RoundTrip (fteWriteBits bits) fteReadBits bits := by
  unfold fteWriteBits fteReadBits
  refine (maskByte_roundTrip (by rw [toNat_and_255]; omega)).bind ?_
  have h1 := fteReadMoreBits_roundTrip ufExtend1 0xff 0xff00 0xffff 8 rfl rfl rfl h.extend1
  refine h1.bind ?_
  have h2 := fteReadMoreBits_roundTrip ufExtend2 0xffff 0xff0000 0xffffff 16 rfl rfl rfl h.extend2
  refine h2.bind ?_
  have hlast := fteReadMoreBits_roundTrip ufExtend3 0xffffff 0xff000000 (BitVec.allOnes 32) 24 rfl rfl rfl h.extend3
  rw [BitVec.and_allOnes] at hlast
  obtain ⟨xs, hw, hr⟩ := hlast
  refine ⟨xs, hw, ?_⟩
  rw [← List.append_nil xs]
  refine hr.bind ?_
  rw [if_neg (not_not.2 h.extend4)]
  exact Source.Takes.pure bits

/-! ## The change bits -/

section Calc

variable (old new : EntityState) (oldbones newbones : Mem QByte) (pext2 : BitVec 32) (us : Bool)

/-- The movement of a player sets flags of prediction, origin and angles only. -/
theorem ftePredCalcBits_and {f : BitVec 32}
    (h : (ufPredinfo ||| ufSvMovetype ||| ufSvWeaponframeOld ||| ufOriginxy ||| ufOriginz |||
      ufAnglesxz ||| ufAnglesy) &&& f = 0#32) : ftePredCalcBits old new pext2 us &&& f = 0#32 := by
  simp only [or_and, or_eq_zero] at h
  obtain ⟨⟨⟨⟨⟨⟨hpred, hmove⟩, hweapon⟩, hxy⟩, hz⟩, hxz⟩, hy⟩ := h
  have h2 {a b : BitVec 32} (ha : a &&& f = 0#32) (hb : b &&& f = 0#32) : (a ||| b) &&& f = 0#32 := by
    rw [or_and, ha, hb, BitVec.or_zero]
  have hstart : (0 |> orIf (old.pmovetype ≠ new.pmovetype) (ufPredinfo ||| ufSvMovetype)
      |> orIf (old.weaponframe ≠ new.weaponframe ∧ pext2 &&& pext2Predinfo = 0)
        (ufPredinfo ||| ufSvWeaponframeOld)) &&& f = 0#32 := by
    rw [orIf_and_of_and_eq_zero (h2 hpred hweapon), orIf_and_of_and_eq_zero (h2 hpred hmove)]
    exact BitVec.zero_and
  unfold ftePredCalcBits
  dsimp only
  split
  · rw [orIf_and_of_and_eq_zero (h2 hxz hy), orIf_and_of_and_eq_zero (h2 hxy hz), orIf_and_of_and_eq_zero hpred]
    exact hstart
  · exact hstart

section

attribute [local simp] svfteDeltaCalcBits ufFrame ufModel ufSkin ufColormap ufSolid ufFlags ufAlpha ufScale ufEffects
  ufDrawflags ufTaginfo ufLight ufTraileffect ufColormod ufGlow ufFatness ufModelindex2 ufGravitydir ufOriginxy
  ufOriginz ufAnglesxz ufAnglesy ufBonedata

/-- The flags of the fields that are sent when they change. -/
theorem fteCalcBits_iff :
    let bits := svfteDeltaCalcBits old oldbones new newbones pext2 us
    (bits &&& ufFrame ≠ 0 ↔ new.frame ≠ old.frame) ∧
    (bits &&& ufModel ≠ 0 ↔ new.modelindex ≠ old.modelindex) ∧
    (bits &&& ufSkin ≠ 0 ↔ new.skinnum ≠ old.skinnum) ∧
    (bits &&& ufColormap ≠ 0 ↔ new.colormap ≠ old.colormap) ∧
    (bits &&& ufSolid ≠ 0 ↔ new.solidsize ≠ old.solidsize) ∧
    (bits &&& ufFlags ≠ 0 ↔ new.dpflags ≠ old.dpflags) ∧
    (bits &&& ufAlpha ≠ 0 ↔ new.trans ≠ old.trans) ∧
    (bits &&& ufScale ≠ 0 ↔ new.scale ≠ old.scale) ∧
    (bits &&& ufEffects ≠ 0 ↔ new.effects ≠ old.effects) ∧
    (bits &&& ufDrawflags ≠ 0 ↔ new.hexen2flags ≠ old.hexen2flags ∨ new.abslight ≠ old.abslight) ∧
    (bits &&& ufTaginfo ≠ 0 ↔ new.tagentity ≠ old.tagentity ∨ new.tagindex ≠ old.tagindex) ∧
    (bits &&& ufLight ≠ 0 ↔ new.light ≠ old.light ∨ new.lightstyle ≠ old.lightstyle ∨
      new.lightpflags ≠ old.lightpflags) ∧
    (bits &&& ufTraileffect ≠ 0 ↔ new.traileffectnum ≠ old.traileffectnum ∨ new.emiteffectnum ≠ old.emiteffectnum) ∧
    (bits &&& ufColormod ≠ 0 ↔ new.colormod ≠ old.colormod) ∧
    (bits &&& ufGlow ≠ 0 ↔ new.glowsize ≠ old.glowsize ∨ new.glowcolour ≠ old.glowcolour ∨ new.glowmod ≠ old.glowmod) ∧
    (bits &&& ufFatness ≠ 0 ↔ new.fatness ≠ old.fatness) ∧
    (bits &&& ufModelindex2 ≠ 0 ↔ new.modelindex2 ≠ old.modelindex2) ∧
    (bits &&& ufGravitydir ≠ 0 ↔ new.gravitydir ≠ old.gravitydir) := by
  have h {f : BitVec 32} := @ftePredCalcBits_and old new pext2 us f
  unfold ufPredinfo ufSvMovetype ufSvWeaponframeOld ufExtend2 ufExtend4 ufOriginxy ufOriginz ufAnglesxz ufAnglesy at h
  simp [h, imp_iff_not_or]

/-- The flag of bone data. -/
theorem fteCalcBits_bonedata :
    svfteDeltaCalcBits old oldbones new newbones pext2 us &&& ufBonedata ≠ 0 ↔
      pext2 &&& pext2Newsizeencoding ≠ 0 ∧ BonesDiffer old oldbones new newbones ∨
      pext2 &&& pext2Bonecontrols ≠ 0 ∧ new.bonecontrol ≠ old.bonecontrol ∨
      pext2 &&& pext2Bodygroup ≠ 0 ∧ new.bodygroup ≠ old.bodygroup ∨
      pext2 &&& pext2Framerate ≠ 0 ∧ new.animrate ≠ old.animrate := by
  have h : ftePredCalcBits old new pext2 us &&& ufBonedata = 0#32 :=
    ftePredCalcBits_and old new pext2 us rfl
  unfold ufBonedata at h
  simp
  tauto

/-- Flags that are set later or not at all. -/
theorem fteCalcBits_free :
    let bits := svfteDeltaCalcBits old oldbones new newbones pext2 us
    bits &&& ufReset = 0#32 ∧ bits &&& uf16bitLerptime = 0#32 ∧ bits &&& ufExtend1 = 0#32 ∧
      bits &&& ufExtend3 = 0#32 ∧ bits &&& ufEffects2Old = 0#32 ∧ bits &&& ufUnused1 = 0#32 := by
  have h {f : BitVec 32} := @ftePredCalcBits_and old new pext2 us f
  unfold ufPredinfo ufSvMovetype ufSvWeaponframeOld ufExtend2 ufExtend4 ufOriginxy ufOriginz ufAnglesxz ufAnglesy at h
  simp [h, ufReset, uf16bitLerptime, ufExtend1, ufExtend3, ufEffects2Old, ufUnused1]

/-- The flags of prediction are those of the movement. -/
theorem fteCalcBits_pred {f : BitVec 32} (hf : f = ufPredinfo ∨ f = ufSvMovetype ∨ f = ufSvWeaponframeOld) :
    svfteDeltaCalcBits old oldbones new newbones pext2 us &&& f =
      ftePredCalcBits old new pext2 us &&& f := by
  unfold svfteDeltaCalcBits
  rcases hf with rfl | rfl | rfl
  all_goals iterate 26 rw [orIf_and_of_and_eq_zero (by rfl)]

/-- A component that is not sent did not change. -/
theorem fteCalcBits_vectors :
    let bits := svfteDeltaCalcBits old oldbones new newbones pext2 us
    (bits &&& ufOriginxy = 0 → ¬Differ (new.origin 0) (old.origin 0) ∧ ¬Differ (new.origin 1) (old.origin 1)) ∧
    (bits &&& ufOriginz = 0 → ¬Differ (new.origin 2) (old.origin 2)) ∧
    (bits &&& ufAnglesxz = 0 → ¬Differ (new.angles 0) (old.angles 0) ∧ ¬Differ (new.angles 2) (old.angles 2)) ∧
    (bits &&& ufAnglesy = 0 → ¬Differ (new.angles 1) (old.angles 1)) := by
  simp
  tauto

end

/-- **The flags of prediction.** Without them there is nothing of the movement to send. -/
theorem ftePredCalcBits_spec :
    let bits := ftePredCalcBits old new pext2 us
    (bits &&& ufSvMovetype ≠ 0 ↔ new.pmovetype ≠ old.pmovetype) ∧
    (bits &&& ufSvWeaponframeOld ≠ 0 ↔
      pext2 &&& pext2Predinfo = 0 ∧ new.weaponframe ≠ old.weaponframe) ∧
    (bits &&& ufPredinfo = 0 → new.pmovetype = old.pmovetype ∧
      (pext2 &&& pext2Predinfo = 0 → new.weaponframe = old.weaponframe) ∧
      (new.pmovetype ≠ 0 → svfteDeltaPredCalcBits (some old) new = 0)) := by
  refine ⟨?_, ?_, ?_⟩
  all_goals
    unfold ftePredCalcBits
    dsimp only
    split
    all_goals
      simp [ufPredinfo, ufSvMovetype, ufSvWeaponframeOld, ufExtend2, ufExtend4, ufOriginxy, ufOriginz,
        ufAnglesxz, ufAnglesy]
      tauto

end Calc

/-- The flags of what moves. -/
theorem svfteDeltaPredCalcBits_iff (old : Option EntityState) (new : EntityState) :
    let bits := svfteDeltaPredCalcBits old new
    (bits &&& ufpForward ≠ 0 ↔ new.movement 0 ≠ 0) ∧ (bits &&& ufpSide ≠ 0 ↔ new.movement 1 ≠ 0) ∧
    (bits &&& ufpUp ≠ 0 ↔ new.movement 2 ≠ 0) ∧
    (bits &&& ufpVelocityxy ≠ 0 ↔ new.velocity 0 ≠ 0 ∨ new.velocity 1 ≠ 0) ∧
    (bits &&& ufpVelocityz ≠ 0 ↔ new.velocity 2 ≠ 0) ∧ (bits &&& ufpMsec ≠ 0 ↔ new.msec ≠ 0) := by
  simp [svfteDeltaPredCalcBits, ufpMovetype, ufpForward, ufpSide, ufpUp, ufpVelocityxy, ufpVelocityz, ufpMsec]
  tauto

variable {bits f pext2 : BitVec 32} {new : EntityState}

/-- A player whose movement has no flags stands still. -/
theorem fteStill_of_predCalcBits {old : Option EntityState} (h : svfteDeltaPredCalcBits old new = 0) :
    new.movement = (fun _ => 0) ∧ new.velocity = (fun _ => 0) ∧ new.msec = 0 := by
  have h' (f : BitVec 32) : ¬svfteDeltaPredCalcBits old new &&& f ≠ 0 := by
    rw [h, not_not]
    exact BitVec.zero_and
  obtain ⟨hf, hs, hu, hxy, hz, hm⟩ := svfteDeltaPredCalcBits_iff old new
  have hxy' := mt hxy.2 (h' _)
  push Not at hxy'
  refine ⟨?_, ?_, not_not.1 (mt hm.2 (h' _))⟩
  · funext i
    match i with
    | 0 => exact not_not.1 (mt hf.2 (h' _))
    | 1 => exact not_not.1 (mt hs.2 (h' _))
    | 2 => exact not_not.1 (mt hu.2 (h' _))
  · funext i
    match i with
    | 0 => exact hxy'.1
    | 1 => exact hxy'.2
    | 2 => exact not_not.1 (mt hz.2 (h' _))

/-! ## The bits that are sent -/

/-- The flags that a message has beside those of its fields. -/
def fteSpecialFlags : BitVec 32 :=
  ufEffects ||| ufPredinfo ||| ufExtend1 ||| uf16bitLerptime ||| ufExtend2 ||| ufBonedata |||
    ufExtend3 ||| ufEffects2Old ||| ufExtend4

theorem fteEffectsBits_and {effects : BitVec 32} (h : ufEffects &&& f = 0#32)
    (h' : ufEffects2Old &&& f = 0#32) : fteEffectsBits effects bits &&& f = bits &&& f := by
  unfold fteEffectsBits
  split_ifs
  · rw [or_and, or_and, h, h', BitVec.or_zero, BitVec.or_zero]
  · rw [or_and, and_not_and h, h', BitVec.or_zero]
  · rfl
  · rfl

theorem fteWideBits_and {ahead : Bool} (hw : uf16bitLerptime &&& f = 0#32) (h : ufEffects &&& f = 0#32)
    (h' : ufEffects2Old &&& f = 0#32) : fteWideBits pext2 ahead new bits &&& f = bits &&& f := by
  unfold fteWideBits
  split_ifs
  · exact orIf_and_of_and_eq_zero hw
  · rw [fteEffectsBits_and h h']
    iterate 4 rw [orIf_and_of_and_eq_zero hw]

theorem fteExtendBits_and (h1 : ufExtend1 &&& f = 0#32) (h2 : ufExtend2 &&& f = 0#32) (h3 : ufExtend3 &&& f = 0#32) :
    fteExtendBits bits &&& f = bits &&& f := by
  unfold fteExtendBits
  rw [orIf_and_of_and_eq_zero h1, orIf_and_of_and_eq_zero h2, orIf_and_of_and_eq_zero h3]

theorem fteServerBits_and (hmove : ufSvMovetype &&& f = 0#32) (hview : ufSvViewangles &&& f = 0#32)
    (hweapon : ufSvWeaponframeOld &&& f = 0#32) (hpred : ufPredinfo &&& f = 0#32) (hbones : ufBonedata &&& f = 0#32) :
    fteServerBits pext2 bits &&& f = bits &&& f := by
  unfold fteServerBits
  dsimp only
  split_ifs
  all_goals simp [and_not_and hbones, and_not_and hweapon, orIf_and_of_and_eq_zero hpred, and_not_and hview, and_not_and hmove]

/-- **The flags of fields are sent as they are.** -/
theorem fteSentBits_field {ahead : Bool}
    (h : fteSpecialFlags &&& f = 0#32) : fteSentBits pext2 bits ahead new &&& f = bits &&& f := by
  unfold fteSpecialFlags at h
  simp only [or_and, or_eq_zero] at h
  obtain ⟨⟨⟨⟨⟨⟨⟨⟨heffects, hpred⟩, h1⟩, hw⟩, h2⟩, hbones⟩, h3⟩, heffects2⟩, h4⟩ := h
  rw [fteSentBits, fteExtendBits_and h1 h2 h3, fteWideBits_and hw heffects heffects2,
    fteServerBits_and h4 h3 h2 hpred hbones]

/-- Bits as `SVFTE_DeltaCalcBits` computes them. -/
structure FteCalcReady (pext2 bits : BitVec 32) : Prop where
  wide : bits &&& uf16bitLerptime = 0
  extend1 : bits &&& ufExtend1 = 0
  view : bits &&& ufSvViewangles = 0
  effects2 : bits &&& ufEffects2Old = 0
  weapon : pext2 &&& pext2Predinfo ≠ 0 → bits &&& ufSvWeaponframeOld = 0
  bones : pext2 &&& pext2Bones = 0 → bits &&& ufBonedata = 0

theorem fteCalcBits_ready (old new : EntityState) (oldbones newbones : Mem QByte) (pext2 : BitVec 32) (us : Bool) :
    FteCalcReady pext2 (svfteDeltaCalcBits old oldbones new newbones pext2 us) := by
  obtain ⟨-, hwide, h1, h3, heffects2, -⟩ := fteCalcBits_free old new oldbones newbones pext2 us
  refine ⟨hwide, h1, h3, heffects2, fun h => ?_, fun h => ?_⟩
  · rw [fteCalcBits_pred old new oldbones newbones pext2 us (.inr (.inr rfl))]
    exact not_not.1 fun e => h ((ftePredCalcBits_spec old new pext2 us).2.1.1 e).1
  · unfold pext2Bones at h
    simp only [BitVec.ofNat_eq_ofNat, and_or_eq_zero] at h
    obtain ⟨⟨⟨hsize, hcontrols⟩, hbody⟩, hrate⟩ := h
    by_contra e
    rcases (fteCalcBits_bonedata old new oldbones newbones pext2 us).1 e with e | e | e | e
    · exact e.1 hsize
    · exact e.1 hcontrols
    · exact e.1 hbody
    · exact e.1 hrate

section Sent

variable {pext2 bits : BitVec 32} {ahead : Bool} {new : EntityState}

/-- The flags of the server are taken away, and nothing else is. -/
theorem fteServerBits_eq (h : FteCalcReady pext2 bits) :
    fteServerBits pext2 bits = bits &&& ~~~ufSvMovetype &&& ~~~ufSvWeaponframeOld := by
  have hview : bits &&& ~~~ufSvMovetype &&& ufSvViewangles = 0#32 := by
    rw [and_not_and rfl]
    exact h.view
  have hview' : ¬bits &&& ~~~ufSvMovetype &&& ufSvViewangles ≠ 0 := not_not.2 hview
  have hweapon (hp : pext2 &&& pext2Predinfo ≠ 0) : bits &&& ~~~ufSvMovetype &&& ufSvWeaponframeOld = 0#32 := by
    rw [and_not_and rfl]
    exact h.weapon hp
  have hbones (hp : pext2 &&& pext2Bones = 0) :
      bits &&& ~~~ufSvMovetype &&& ~~~ufSvWeaponframeOld &&& ufBonedata = 0#32 := by
    rw [and_not_and rfl, and_not_and rfl]
    exact h.bones hp
  unfold fteServerBits
  dsimp only
  rw [orIf_neg hview', and_not_of_and_eq_zero hview]
  split_ifs with hb hp hp
  · exact and_not_of_and_eq_zero (hbones hb)
  · have e := and_not_of_and_eq_zero (hbones hb)
    rwa [and_not_of_and_eq_zero (hweapon hp)] at e ⊢
  · rfl
  · rw [and_not_of_and_eq_zero (hweapon hp)]

/-- The flags of prediction and of bone data are sent as they are. -/
theorem fteSentBits_pred (h : FteCalcReady pext2 bits) :
    fteSentBits pext2 bits ahead new &&& ufPredinfo = bits &&& ufPredinfo ∧
      fteSentBits pext2 bits ahead new &&& ufBonedata = bits &&& ufBonedata := by
  rw [fteSentBits, fteServerBits_eq h]
  constructor
  all_goals rw [fteExtendBits_and rfl rfl rfl, fteWideBits_and rfl rfl rfl, and_not_and rfl, and_not_and rfl]

/-- **The sent bits can be sent.** -/
theorem fteSentBits_ready (h : FteCalcReady pext2 bits) :
    FteBitsReady (fteSentBits pext2 bits ahead new) := by
  rw [fteSentBits, fteServerBits_eq h]
  have h1 : fteWideBits pext2 ahead new (bits &&& ~~~ufSvMovetype &&& ~~~ufSvWeaponframeOld) &&& ufExtend1 = 0#32 := by
    rw [fteWideBits_and rfl rfl rfl, and_not_and rfl, and_not_and rfl]
    exact h.extend1
  have h2 : fteWideBits pext2 ahead new (bits &&& ~~~ufSvMovetype &&& ~~~ufSvWeaponframeOld) &&& ufExtend2 = 0#32 := by
    rw [fteWideBits_and rfl rfl rfl]
    exact and_not_self _ _
  have h3 : fteWideBits pext2 ahead new (bits &&& ~~~ufSvMovetype &&& ~~~ufSvWeaponframeOld) &&& ufExtend3 = 0#32 := by
    rw [fteWideBits_and rfl rfl rfl, and_not_and rfl, and_not_and rfl]
    exact h.view
  have h4 : fteWideBits pext2 ahead new (bits &&& ~~~ufSvMovetype &&& ~~~ufSvWeaponframeOld) &&& ufExtend4 = 0#32 := by
    rw [fteWideBits_and rfl rfl rfl, and_not_and rfl]
    exact and_not_self _ _
  generalize fteWideBits pext2 ahead new _ = x at h1 h2 h3 h4
  unfold fteExtendBits
  dsimp only
  refine ⟨?_, ?_, ?_, ?_⟩
  · refine orIf_announces (by decide) rfl ?_
    rw [orIf_and_of_and_eq_zero rfl, orIf_and_of_and_eq_zero rfl, h1]
  · rw [orIf_and_of_and_eq_zero (f := ufExtend1) (g := ufExtend2) rfl,
      orIf_and_of_and_eq_zero (f := ufExtend1) (g := 0x00ff0000) rfl]
    refine orIf_announces (by decide) rfl ?_
    rw [orIf_and_of_and_eq_zero rfl, h2]
  · rw [orIf_and_of_and_eq_zero (f := ufExtend1) (g := ufExtend3) rfl, orIf_and_of_and_eq_zero (f := ufExtend1) (g :=
      0xff000000) rfl, orIf_and_of_and_eq_zero (f := ufExtend2) (g := ufExtend3) rfl, orIf_and_of_and_eq_zero (f :=
      ufExtend2) (g := 0xff000000) rfl]
    exact orIf_announces (by decide) rfl h3
  · rw [orIf_and_of_and_eq_zero rfl, orIf_and_of_and_eq_zero rfl, orIf_and_of_and_eq_zero rfl]
    exact h4

/-- Without the flag of wide numbers, those that are sent fit a byte. -/
theorem fteSentBits_narrow (hr : FteCalcReady pext2 bits) (hlerp : pext2 &&& pext2Lerptime = 0)
    (h : fteSentBits pext2 bits ahead new &&& uf16bitLerptime = 0) :
    (bits &&& ufModel ≠ 0 → ¬255 < new.modelindex) ∧
    (bits &&& ufModelindex2 ≠ 0 → ¬255 < new.modelindex2) ∧
    (bits &&& ufSkin ≠ 0 → ¬255 < new.skinnum) ∧ (bits &&& ufFrame ≠ 0 → ¬255 < new.frame) := by
  have hne : ¬uf16bitLerptime &&& uf16bitLerptime = 0#32 := by decide
  rw [fteSentBits, fteServerBits_eq hr, fteExtendBits_and rfl rfl rfl, fteWideBits,
    if_neg (not_not.2 hlerp), fteEffectsBits_and rfl rfl] at h
  rw [BitVec.ofNat_eq_ofNat, orIf_and_eq_zero, orIf_and_eq_zero, orIf_and_eq_zero, orIf_and_eq_zero] at h
  obtain ⟨hframe, hskin, hmodel2, hmodel, -⟩ := h
  -- the flags under which the widths are looked at are those of the fields
  rw [and_not_and rfl, and_not_and rfl] at hframe hskin hmodel2 hmodel
  exact ⟨fun e e' => hne (hmodel ⟨e, e'⟩), fun e e' => hne (hmodel2 ⟨e, e'⟩),
    fun e e' => hne (hskin ⟨e, e'⟩), fun e e' => hne (hframe ⟨e, e'⟩)⟩

/-- With variable lengths, the flag of the effects is sent as it is. -/
theorem fteSentBits_effects_lerp (ahead : Bool) (new : EntityState) (hr : FteCalcReady pext2 bits)
    (hlerp : pext2 &&& pext2Lerptime ≠ 0) :
    fteSentBits pext2 bits ahead new &&& ufEffects = bits &&& ufEffects ∧
      fteSentBits pext2 bits ahead new &&& ufEffects2Old = 0 := by
  rw [fteSentBits, fteServerBits_eq hr, fteWideBits, if_pos hlerp]
  constructor
  · rw [fteExtendBits_and rfl rfl rfl, orIf_and_of_and_eq_zero rfl, and_not_and rfl, and_not_and rfl]
  · rw [fteExtendBits_and rfl rfl rfl, orIf_and_of_and_eq_zero rfl, and_not_and rfl, and_not_and rfl]
    exact hr.effects2

/-- Otherwise the flags tell the number of bytes. -/
theorem fteSentBits_effects (ahead : Bool) (new : EntityState) (hr : FteCalcReady pext2 bits)
    (hlerp : pext2 &&& pext2Lerptime = 0) :
    ∃ x, fteSentBits pext2 bits ahead new &&& (ufEffects ||| ufEffects2Old) =
        fteEffectsBits new.effects x &&& (ufEffects ||| ufEffects2Old) ∧
      x &&& ufEffects = bits &&& ufEffects ∧ x &&& ufEffects2Old = 0 := by
  rw [fteSentBits, fteServerBits_eq hr, fteWideBits, if_neg (not_not.2 hlerp), fteExtendBits_and rfl rfl rfl]
  refine ⟨_, rfl, ?_, ?_⟩
  · iterate 4 rw [orIf_and_of_and_eq_zero rfl]
    rw [and_not_and rfl, and_not_and rfl]
  · iterate 4 rw [orIf_and_of_and_eq_zero rfl]
    rw [and_not_and rfl, and_not_and rfl]
    exact hr.effects2

end Sent

end FteQuake
