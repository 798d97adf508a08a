import FteQuake.Common.FteParts

/-!
# Replacement deltas come back

Main result: `svfteWriteUpdate_readDelta`. The client takes exactly the bytes that
`SVFTE_WriteUpdate` writes for the bits of `SVFTE_DeltaCalcBits`, and gets the new state in every
field that is networked (`FteEntityAgrees`), when the changes are `FteSendable`: they fit the forms in
which they are sent. Coordinates and angles that are sent arrive as their wire format holds them.
Without bits the two states agree; the movement of a player is then left out, since it is sent whole
and never compared.
-/

namespace FteQuake

open StreamProgram BitFlags BinaryFloat MsgState Sizebuf

/-! ## What is networked -/

/-- `got` has the bones of `new`, in the memories beside them, when the extensions carry them. The
bones that are posed in the place of bone data are compared without such data only. -/
structure FteBonesAgree (pext2 : BitVec 32) (got : EntityState) (gotbones : Mem QByte)
    (new : EntityState) (newbones : Mem QByte) : Prop where
  bonecount : pext2 &&& pext2Newsizeencoding ≠ 0 → got.bonecount = new.bonecount
  bones : pext2 &&& pext2Newsizeencoding ≠ 0 → boneBytes gotbones got = boneBytes newbones new
  pose : pext2 &&& pext2Newsizeencoding ≠ 0 → new.bonecount = 0 →
    got.basebone = new.basebone ∧ got.baseframe = new.baseframe
  bonecontrol : pext2 &&& pext2Bonecontrols ≠ 0 → got.bonecontrol = new.bonecontrol
  bodygroup : pext2 &&& pext2Bodygroup ≠ 0 → got.bodygroup = new.bodygroup
  animrate : pext2 &&& pext2Framerate ≠ 0 → got.animrate = new.animrate

/-- `got` is `new` in the fields that the extensions carry. Coordinates and angles are compared by
`coord` and `angle`. -/
structure FteEntityAgrees (pext2 : BitVec 32) (coord angle : BitVec 32 → BitVec 32 → Prop)
    (got : EntityState) (gotbones : Mem QByte) (new : EntityState) (newbones : Mem QByte) : Prop
    extends FteBonesAgree pext2 got gotbones new newbones where
  frame : got.frame = new.frame
  origin : ∀ i, coord (got.origin i) (new.origin i)
  angles : ∀ i, angle (got.angles i) (new.angles i)
  effects : got.effects = new.effects
  pmovetype : got.pmovetype = new.pmovetype
  weaponframe : pext2 &&& pext2Predinfo = 0 → got.weaponframe = new.weaponframe
  modelindex : got.modelindex = new.modelindex
  skinnum : got.skinnum = new.skinnum
  colormap : got.colormap = new.colormap
  solidsize : got.solidsize = new.solidsize
  dpflags : got.dpflags = new.dpflags
  trans : got.trans = new.trans
  scale : got.scale = new.scale
  drawflags : (got.hexen2flags, got.abslight) = (new.hexen2flags, new.abslight)
  tag : (got.tagentity, got.tagindex) = (new.tagentity, new.tagindex)
  light : (got.light, got.lightstyle, got.lightpflags) =
    (new.light, new.lightstyle, new.lightpflags)
  effectnums : (got.traileffectnum, got.emiteffectnum) = (new.traileffectnum, new.emiteffectnum)
  colormod : got.colormod = new.colormod
  glow : (got.glowsize, got.glowcolour, got.glowmod) =
    (new.glowsize, new.glowcolour, new.glowmod)
  fatness : got.fatness = new.fatness
  modelindex2 : got.modelindex2 = new.modelindex2
  gravitydir : got.gravitydir = new.gravitydir

/-- `got` moves like `new`. -/
structure FteEntityMoves (got new : EntityState) : Prop where
  movement : got.movement = new.movement
  velocity : got.velocity = new.velocity
  msec : got.msec = new.msec

/-- **The update of `new` from `old` reaches a client that holds `old`.** Without bits, the two
states agree. With bits, if the update can be written at all, its bytes are the same wherever they
fit, and the client takes exactly these and gets a state that agrees with `new`. The client has the
bones of `old` at an offset of its own. -/
def FteDelta (pext2 ezext1 : BitVec 32) (prim : Netprim) (us : Bool) (physicstime : ℚ)
    (coord angle : BitVec 32 → BitVec 32 → Prop) (old : EntityState) (oldbones : Mem QByte)
    (new : EntityState) (newbones : Mem QByte) : Prop :=
  let bits := svfteDeltaCalcBits old oldbones new newbones pext2 us
  let update := svfteWriteUpdate bits new pext2 ezext1 physicstime (some newbones)
  if bits = 0 then FteEntityAgrees pext2 coord angle old oldbones new newbones
  else (∃ msg : Sizebuf, msg.prim = prim ∧ (update.run msg).isSome) → ∃ xs,
    (∀ msg : Sizebuf, msg.prim = prim → msg.cursize + xs.length ≤ msg.maxsize →
      update.run msg = some ((), msg.append xs)) ∧
    ∀ (c : FteClient) (entnum offset : BitVec 32) (baseline : EntityState) (oldp : Mem QByte)
      (newp : BonePack), c.pext2 = pext2 → c.ezext1 = ezext1 →
      oldp.slice offset.toNat (boneSize old.bonecount) = boneBytes oldbones old →
      newp.bonedatacur < 2 ^ 32 → ∃ got pack,
        (netprimSource prim).Takes
          (clfteReadDelta c entnum (some { old with boneoffset := offset }) baseline oldp newp) xs
          (got, pack) ∧
        FteEntityAgrees pext2 coord angle got pack.bonedata new newbones ∧
        (new.pmovetype ≠ 0 → FteEntityMoves got new) ∧ got.number = entnum

/-- The changes that fit the forms in which they are sent. -/
structure FteSendable (pext2 : BitVec 32) (old new : EntityState) : Prop where
  skinnum : new.skinnum ≠ old.skinnum → pext2 &&& pext2Lerptime = 0 → SkinFits new.skinnum
  colormap : new.colormap ≠ old.colormap → pext2 &&& pext2Lerptime = 0 → new.colormap < 256
  solidsize : new.solidsize ≠ old.solidsize → SolidFits pext2 new.solidsize
  weaponframe : new.weaponframe ≠ old.weaponframe → pext2 &&& pext2Predinfo = 0 →
    new.weaponframe < 0x8000
  abslight : new.hexen2flags ≠ old.hexen2flags ∨ new.abslight ≠ old.abslight →
    UsesAbslight new.hexen2flags ∨ new.abslight = 0
  tagentity : new.tagentity ≠ old.tagentity ∨ new.tagindex ≠ old.tagindex →
    pext2 &&& pext2Replacementdeltas = 0 → new.tagentity.toNat < 0x8000
  tagindex : new.tagentity ≠ old.tagentity ∨ new.tagindex ≠ old.tagindex →
    pext2 &&& pext2Lerptime = 0 → new.tagindex < 255 ∨ new.tagindex = 0xffff
  effectnums : new.traileffectnum ≠ old.traileffectnum ∨ new.emiteffectnum ≠ old.emiteffectnum →
    new.traileffectnum < maxSsparticlespre ∧ new.emiteffectnum < maxSsparticlespre
  velocity : new.pmovetype ≠ 0 → pext2 &&& pext2Bigvelocity = 0 → ∀ i, SkinFits (new.velocity i)

/-! ## An update that can be written -/

/-- What a client has of a component. -/
def fteArrived (sent : Prop) [Decidable sent] (wire : BitVec 32 → Option (BitVec 32))
    (f old : BitVec 32) : BitVec 32 :=
  if sent then (wire f).getD 0 else old

variable {f : BitVec 32} {msg : Sizebuf}

theorem fteArrives_arrived {sent : Prop} [Decidable sent] {wire : BitVec 32 → Option (BitVec 32)}
    (old : BitVec 32) (h : sent → (wire f).isSome) :
    FteArrives sent wire f old (fteArrived sent wire f old) := by
  unfold fteArrived
  refine ⟨fun hs => ?_, fun hs => by rw [if_neg hs]⟩
  obtain ⟨x, hx⟩ := Option.isSome_iff_exists.1 (h hs)
  rw [if_pos hs, hx]
  rfl

/-- The flags of the components. -/
def originFlag (i : Fin 3) : BitVec 32 := if i = 2 then ufOriginz else ufOriginxy

def anglesFlag (i : Fin 3) : BitVec 32 := if i = 1 then ufAnglesy else ufAnglesxz

/-- The conversions of an update are defined, and its attachment is to an entity. -/
structure FteWritable (prim : Netprim) (pext2 ezext1 bits : BitVec 32) (physicstime : ℚ)
    (new : EntityState) : Prop where
  origin : ∀ i, bits &&& originFlag i ≠ 0 →
    (wireCoord (qwCoordtype prim ezext1) (new.origin i)).isSome
  angles : ∀ i, bits &&& anglesFlag i ≠ 0 →
    (wireAngle (fteAnglesize prim.anglesize.toNat pext2 bits) (new.angles i)).isSome
  lerp : pext2 &&& pext2Lerptime ≠ 0 → bits &&& uf16bitLerptime ≠ 0 →
    (lerpTime new.lerpend physicstime).isSome
  tag : bits &&& ufTaginfo ≠ 0 → new.tagentity.toNat ≤ maxEdicts

/-- Both parts of a sequence ran. -/
theorem run_seq_isSome {σ : Type} {m n : StateT σ Option Unit} {s : σ}
    (h : ((do m; n : StateT σ Option Unit).run s).isSome) :
    ∃ t, (m.run s).isSome ∧ (n.run t).isSome := by
  obtain ⟨r, hr⟩ := Option.isSome_iff_exists.1 h
  obtain ⟨a, t, hm, hn⟩ := run_bind_inv hr
  exact ⟨t, by rw [hm]; rfl, by rw [hn]; rfl⟩

theorem msgWriteCoord_isSome {type : QByte}
    (h : ((msgWriteCoord type f).run msg).isSome) : (wireCoord type f).isSome := by
  unfold msgWriteCoord at h
  cases hc : msgToCoord f type with
  | none =>
    rw [hc] at h
    exact absurd h Bool.false_ne_true
  | some c =>
    obtain ⟨x, hx⟩ := Option.isSome_iff_exists.1 (msgToCoord_spec hc).2.2.2
    rw [wireCoord, hc, Option.bind_eq_bind, Option.bind_some, hx]
    rfl

theorem msgWriteAngle_isSome {anglesize : ℕ}
    (h : ((msgWriteAngle anglesize f).run msg).isSome) : (wireAngle anglesize f).isSome := by
  unfold msgWriteAngle at h
  rw [wireAngle, Option.isSome_map]
  split at h
  · rw [msgWriteAngle16] at h
    cases hc : msgToAngle f 2 with
    | none =>
      rw [hc] at h
      exact absurd h Bool.false_ne_true
    | some c => rfl
  · rfl
  · cases hc : msgToAngle f 1 with
    | none =>
      rw [hc] at h
      exact absurd h Bool.false_ne_true
    | some c => rfl
  · exact absurd h Bool.false_ne_true

/-- **An update that was written could be written.** -/
theorem FteWritable.of_run {prim : Netprim} {pext2 ezext1 bits predbits : BitVec 32}
    {physicstime : ℚ} {new : EntityState} {boneptr : Option (Mem QByte)}
    (h : ((fteWriteMessage prim pext2 ezext1 bits predbits physicstime boneptr new).run msg).isSome) :
    FteWritable prim pext2 ezext1 bits physicstime new := by
  obtain ⟨s, -, h⟩ := run_seq_isSome h
  obtain ⟨t, hfirst, h⟩ := run_seq_isSome h
  obtain ⟨s, -, h⟩ := run_seq_isSome h
  obtain ⟨s, -, h⟩ := run_seq_isSome h
  obtain ⟨u, -, hlast⟩ := run_seq_isSome h
  obtain ⟨s, -, h⟩ := run_seq_isSome hfirst
  obtain ⟨s₁, horigin, h⟩ := run_seq_isSome h
  obtain ⟨s₂, hangles, heffects⟩ := run_seq_isSome h
  obtain ⟨s₃, -, h⟩ := run_seq_isSome hlast
  obtain ⟨s₄, htag, -⟩ := run_seq_isSome h
  obtain ⟨s₅, hxy, hz⟩ := run_seq_isSome horigin
  obtain ⟨s₆, hxz, hy⟩ := run_seq_isSome hangles
  have hcoord {i : Fin 3} {s : Sizebuf} (h : ((if ezext1 &&& ezpext1Floatentcoords ≠ 0 then
      msgWriteFloat (new.origin i) else msgWriteCoord prim.coordtype (new.origin i)).run s).isSome) :
      (wireCoord (qwCoordtype prim ezext1) (new.origin i)).isSome := by
    unfold qwCoordtype
    split_ifs at h ⊢
    · rfl
    · exact msgWriteCoord_isSome h
  refine ⟨fun i hi => ?_, fun i hi => ?_, fun hl hw => ?_, fun ht => ?_⟩
  · match i with
    | 0 =>
      rw [if_pos (show bits &&& ufOriginxy ≠ 0 from hi)] at hxy
      exact hcoord (run_seq_isSome hxy).choose_spec.1
    | 1 =>
      rw [if_pos (show bits &&& ufOriginxy ≠ 0 from hi)] at hxy
      exact hcoord (run_seq_isSome hxy).choose_spec.2
    | 2 =>
      rw [if_pos (show bits &&& ufOriginz ≠ 0 from hi)] at hz
      exact hcoord hz
  · match i with
    | 0 =>
      rw [if_pos (show bits &&& ufAnglesxz ≠ 0 from hi)] at hxz
      exact msgWriteAngle_isSome (run_seq_isSome hxz).choose_spec.1
    | 1 =>
      rw [if_pos (show bits &&& ufAnglesy ≠ 0 from hi)] at hy
      exact msgWriteAngle_isSome hy
    | 2 =>
      rw [if_pos (show bits &&& ufAnglesxz ≠ 0 from hi)] at hxz
      exact msgWriteAngle_isSome (run_seq_isSome hxz).choose_spec.2
  · unfold fteWriteEffects at heffects
    rw [if_pos hl] at heffects
    obtain ⟨s, ht, -⟩ := run_seq_isSome heffects
    rw [if_pos hw] at ht
    cases hc : lerpTime new.lerpend physicstime with
    | none =>
      rw [hc] at ht
      exact absurd ht Bool.false_ne_true
    | some t => rfl
  · rw [if_pos ht] at htag
    obtain ⟨s, hentity, -⟩ := run_seq_isSome htag
    unfold msgWriteEntity at hentity
    by_contra hbig
    rw [if_pos (by omega)] at hentity
    exact absurd hentity Bool.false_ne_true

/-! ## The parts of an update -/

section Update

variable {pext2 ezext1 : BitVec 32} {us ahead : Bool} {old new : EntityState}
  {oldbones newbones : Mem QByte}

variable {bits f : BitVec 32} {prim : Netprim}

/-- What a plain flag of the sent bits says. -/
theorem fteSent_iff {pext2 : BitVec 32} {ahead : Bool} {new : EntityState} {c : Prop}
    (h : bits &&& f ≠ 0 ↔ c) (hf : fteSpecialFlags &&& f = 0#32) :
    fteSentBits pext2 bits ahead new &&& f ≠ 0 ↔ c := by
  rwa [fteSentBits_field hf]

theorem fteSent_same {α : Type} {x y : α} (hf : fteSpecialFlags &&& f = 0#32)
    (e : svfteDeltaCalcBits old oldbones new newbones pext2 us &&& f ≠ 0 ↔ x ≠ y)
    (hn : ¬fteSentBits pext2 (svfteDeltaCalcBits old oldbones new newbones pext2 us) ahead new &&& f ≠ 0) : y = x :=
  (not_not.1 (mt (fteSent_iff e hf).2 hn)).symm

theorem fteModelReady_sent (h : FteSendable pext2 old new) :
    FteModelReady pext2 (fteSentBits pext2
      (svfteDeltaCalcBits old oldbones new newbones pext2 us) ahead new) old new := by
  obtain ⟨-, hmodel, hskin, hcolormap, hsolid, hflags, halpha, hscale, -⟩ :=
    fteCalcBits_iff old new oldbones newbones pext2 us
  have hready := fteCalcBits_ready old new oldbones newbones pext2 us
  refine ⟨fteSent_same rfl hmodel, fteSent_same rfl hskin, fteSent_same rfl hcolormap, fteSent_same rfl hsolid,
    fteSent_same rfl hflags, fteSent_same rfl halpha, fteSent_same rfl hscale, fun hl hw hs => ?_, fun hl hw hs => ?_,
    fun hs => ?_, fun hs => ?_, fun hs => ?_⟩
  · exact (fteSentBits_narrow hready hl hw).1 (hmodel.2 ((fteSent_iff hmodel rfl).1 hs))
  · exact (fteSentBits_narrow hready hl hw).2.2.1 (hskin.2 ((fteSent_iff hskin rfl).1 hs))
  · exact h.skinnum ((fteSent_iff hskin rfl).1 hs)
  · exact h.colormap ((fteSent_iff hcolormap rfl).1 hs)
  · exact h.solidsize ((fteSent_iff hsolid rfl).1 hs)

theorem fteLastReady_sent (h : FteSendable pext2 old new)
    (htag : fteSentBits pext2 (svfteDeltaCalcBits old oldbones new newbones pext2 us) ahead new &&&
      ufTaginfo ≠ 0 → new.tagentity.toNat ≤ maxEdicts) :
    FteLastReady pext2 (fteSentBits pext2
      (svfteDeltaCalcBits old oldbones new newbones pext2 us) ahead new) old new := by
  obtain ⟨-, -, -, -, -, -, -, -, -, hdraw, htags, hlight, htrail, hcolour, hglow, hfat, hmodel2,
    hgravity⟩ := fteCalcBits_iff old new oldbones newbones pext2 us
  have hready := fteCalcBits_ready old new oldbones newbones pext2 us
  have hunused := (fteCalcBits_free old new oldbones newbones pext2 us).2.2.2.2.2
  -- groups of two and three fields
  have htwo {α β : Type} {x y : α} {x' y' : β} : (x ≠ y ∨ x' ≠ y') ↔ (x, x') ≠ (y, y') := by
    rw [ne_eq (x, x'), Prod.mk.injEq, not_and_or]
  have hthree {α β γ : Type} {x y : α} {x' y' : β} {x'' y'' : γ} :
      (x ≠ y ∨ x' ≠ y' ∨ x'' ≠ y'') ↔ (x, x', x'') ≠ (y, y', y'') := by
    rw [ne_eq (x, x', x''), Prod.mk.injEq, Prod.mk.injEq, not_and_or, not_and_or]
  refine ⟨fteSent_same rfl (hdraw.trans htwo), fteSent_same rfl (htags.trans htwo),
    fteSent_same rfl (hlight.trans hthree), fteSent_same rfl (htrail.trans htwo), fteSent_same rfl hcolour,
    fteSent_same rfl (hglow.trans hthree), fteSent_same rfl hfat, fteSent_same rfl hmodel2, fteSent_same rfl hgravity,
    fun hs => ?_, fun hs => ?_, fun hs => ?_, fun hl hw hs => ?_, ?_⟩
  · exact h.abslight ((fteSent_iff hdraw rfl).1 hs)
  · have hc := (fteSent_iff htags rfl).1 hs
    exact ⟨htag hs, h.tagentity hc, h.tagindex hc⟩
  · exact h.effectnums ((fteSent_iff htrail rfl).1 hs)
  · exact (fteSentBits_narrow hready hl hw).2.1 (hmodel2.2 ((fteSent_iff hmodel2 rfl).1 hs))
  · rw [fteSentBits_field rfl]
    exact hunused

/-- The flags of `predbits`. -/
theorem ftePredbits_and :
    (f = ufpForward ∨ f = ufpSide ∨ f = ufpUp ∨ f = ufpVelocityxy ∨ f = ufpVelocityz ∨ f = ufpMsec →
      (fteServerPredbits pext2 bits ||| svfteDeltaPredCalcBits none new) &&& f =
        svfteDeltaPredCalcBits none new &&& f) ∧
    (f = ufpMovetype ∨ f = ufpViewangle →
      (fteServerPredbits pext2 bits ||| svfteDeltaPredCalcBits none new) &&& f =
        fteServerPredbits pext2 bits &&& f) := by
  constructor
  · intro hf
    have h0 : fteServerPredbits pext2 bits &&& f = 0#32 := by
      unfold fteServerPredbits
      rcases hf with rfl | rfl | rfl | rfl | rfl | rfl
      all_goals
        iterate 3 rw [orIf_and_of_and_eq_zero rfl]
        rfl
    rw [or_and, h0, BitVec.zero_or]
  · intro hf
    have h0 : svfteDeltaPredCalcBits none new &&& f = 0#32 := by
      unfold svfteDeltaPredCalcBits
      rcases hf with rfl | rfl
      all_goals
        iterate 7 rw [orIf_and_of_and_eq_zero rfl]
        rw [orIf_neg (by simp)]
        rfl
    rw [or_and, h0, BitVec.or_zero]

/-- **The prediction can be sent.** -/
theorem ftePredReady_sent (oldbones newbones : Mem QByte) (us : Bool) (h : FteSendable pext2 old new) :
    FtePredReady pext2 (fteServerPredbits pext2
      (svfteDeltaCalcBits old oldbones new newbones pext2 us) ||| svfteDeltaPredCalcBits none new)
      old new := by
  have hready := fteCalcBits_ready old new oldbones newbones pext2 us
  obtain ⟨hmove, hweapon, -⟩ := ftePredCalcBits_spec old new pext2 us
  rw [← fteCalcBits_pred old new oldbones newbones pext2 us (.inr (.inl rfl))] at hmove
  rw [← fteCalcBits_pred old new oldbones newbones pext2 us (.inr (.inr rfl))] at hweapon
  obtain ⟨hf, hs, hu, hxy, hz, hm⟩ := svfteDeltaPredCalcBits_iff none new
  have hmotion {f : BitVec 32} := @ftePredbits_and pext2 new
    (svfteDeltaCalcBits old oldbones new newbones pext2 us) f
  have hmt : fteServerPredbits pext2 (svfteDeltaCalcBits old oldbones new newbones pext2 us) &&&
      ufpMovetype ≠ 0 ↔ new.pmovetype ≠ old.pmovetype := by
    unfold fteServerPredbits
    rw [orIf_and_of_and_eq_zero rfl, orIf_and_of_and_eq_zero rfl]
    exact (orIf_and_self_ne_zero (by decide) BitVec.zero_and).trans hmove
  have hwf : fteServerPredbits pext2 (svfteDeltaCalcBits old oldbones new newbones pext2 us) &&&
      ufpWeaponframeOld ≠ 0 ↔ pext2 &&& pext2Predinfo = 0 ∧ new.weaponframe ≠ old.weaponframe := by
    unfold fteServerPredbits
    have hview : ¬(pext2 &&& pext2Predinfo ≠ 0 ∧
        svfteDeltaCalcBits old oldbones new newbones pext2 us &&& ufSvViewangles ≠ 0) :=
      fun e => e.2 hready.view
    rw [orIf_neg hview]
    refine (orIf_and_self_ne_zero (by decide) ?_).trans ?_
    · rw [orIf_and_of_and_eq_zero rfl]
      exact BitVec.zero_and
    · rw [hweapon]
      exact ⟨fun e => e.2, fun e => ⟨e.1, e⟩⟩
  refine ⟨?_, fun hn => ?_, fun hn => ?_, fun hn => ?_, fun hn => ?_, fun hn => ?_, fun hn => ?_,
    fun hn => ?_, fun hp => ?_, fun hp => ?_⟩
  · rw [BitVec.toNat_or]
    apply Nat.or_lt_two_pow
    · unfold fteServerPredbits
      iterate 3 apply orIf_lt (by decide)
      decide
    · unfold svfteDeltaPredCalcBits
      iterate 8 apply orIf_lt (by decide)
      decide
  · rw [hmotion.1 (.inl rfl), hf, not_not] at hn
    exact hn.symm
  · rw [hmotion.1 (.inr (.inl rfl)), hs, not_not] at hn
    exact hn.symm
  · rw [hmotion.1 (.inr (.inr (.inl rfl))), hu, not_not] at hn
    exact hn.symm
  · rw [hmotion.2 (.inl rfl), hmt, not_not] at hn
    exact hn.symm
  · rw [hmotion.1 (.inr (.inr (.inr (.inl rfl)))), hxy] at hn
    push Not at hn
    exact hn
  · rw [hmotion.1 (.inr (.inr (.inr (.inr (.inl rfl))))), hz, not_not] at hn
    exact hn
  · rw [hmotion.1 (.inr (.inr (.inr (.inr (.inr rfl))))), hm, not_not] at hn
    exact hn.symm
  · rw [hmotion.2 (.inr rfl)]
    exact not_not.1 fun e => (hwf.1 e).1 |> hp
  · have e := hmotion.2 (.inr rfl)
    rw [show ufpWeaponframeOld = ufpViewangle from rfl, e]
    have hwf' : fteServerPredbits pext2 (svfteDeltaCalcBits old oldbones new newbones pext2 us) &&&
        ufpViewangle ≠ 0 ↔ _ := hwf
    split_ifs with hs
    · exact h.weaponframe (hwf'.1 hs).2 hp
    · by_contra hne
      exact hs (hwf'.2 ⟨hp, Ne.symm hne⟩)

/-- The fields up to the effects, in a state that has those of `old`. -/
theorem fteFirst_sent {c : FteClient} {physicstime : ℚ} (base : EntityState)
    (hw : FteWritable prim c.pext2 c.ezext1 (fteSentBits c.pext2
      (svfteDeltaCalcBits old oldbones new newbones c.pext2 us) ahead new) physicstime new)
    (hframe : base.frame = old.frame) (heffects : base.effects = old.effects) :
    let bits := fteSentBits c.pext2 (svfteDeltaCalcBits old oldbones new newbones c.pext2 us) ahead
      new
    ∃ lerpend, RoundTrip (fteWriteFirst prim c.pext2 c.ezext1 bits physicstime new) (fteReadFirst c prim bits base)
      { base with
        frame := new.frame
        origin := fun i => fteArrived (bits &&& originFlag i ≠ 0)
          (wireCoord (qwCoordtype prim c.ezext1)) (new.origin i) (base.origin i)
        angles := fun i => fteArrived (bits &&& anglesFlag i ≠ 0)
          (wireAngle (fteAnglesize prim.anglesize.toNat c.pext2 bits)) (new.angles i)
          (base.angles i)
        lerpend := lerpend, effects := new.effects } := by
  intro bits
  obtain ⟨hfr, -, -, -, -, -, -, -, heff, -⟩ :=
    fteCalcBits_iff old new oldbones newbones c.pext2 us
  have hready := fteCalcBits_ready old new oldbones newbones c.pext2 us
  have horigin (i : Fin 3) := fteArrives_arrived (base.origin i) (hw.origin i)
  have hangles (i : Fin 3) := fteArrives_arrived (base.angles i) (hw.angles i)
  have hsent : ∃ lerpend, RoundTrip (fteWriteEffects c.pext2 bits physicstime new)
      (fteReadEffects c bits base) (lerpend, new.effects) := by
    by_cases hl : c.pext2 &&& pext2Lerptime = 0
    · obtain ⟨x, hx, hx', hx2⟩ := fteSentBits_effects ahead new hready hl
      refine ⟨_, fteEffects_roundTrip_width hl hx hx2 fun h0 => ?_⟩
      rw [hx'] at h0
      rw [heffects]
      exact (not_not.1 (mt heff.2 (not_not.2 h0))).symm
    · obtain ⟨h1, h2⟩ := fteSentBits_effects_lerp ahead new hready hl
      refine fteEffects_roundTrip_lerp hl h2 (hw.lerp hl) fun h0 => ?_
      rw [heffects]
      exact (not_not.1 (mt heff.2 (not_not.2 (h1 ▸ h0)))).symm
  obtain ⟨lerpend, hsent⟩ := hsent
  refine ⟨lerpend, fteFirst_roundTrip (fun h0 => ?_) (fun hl hn hs => ?_) ?_ ?_ hsent⟩
  · rw [hframe]
    exact (not_not.1 (mt (fteSent_iff hfr rfl).2 (not_not.2 h0))).symm
  · exact (fteSentBits_narrow hready hl hn).2.2.2 (hfr.2 ((fteSent_iff hfr rfl).1 hs))
  · refine fteOrigin_roundTrip (fun i hi => ?_) (horigin 2)
    match i, hi with
    | 0, _ => exact horigin 0
    | 1, _ => exact horigin 1
    | 2, h => exact absurd rfl h
  · refine fteAngles_roundTrip (fun i hi => ?_) (hangles 1)
    match i, hi with
    | 0, _ => exact hangles 0
    | 1, h => exact absurd rfl h
    | 2, _ => exact hangles 2

/-- Bones of a packet, read where they were put. -/
theorem boneBytes_allocate {p : BonePack} {xs : List QByte} {s : EntityState}
    (hcur : p.bonedatacur < 2 ^ 32) (hoffset : s.boneoffset = (p.allocate xs).1)
    (hsize : boneSize s.bonecount = xs.length) : boneBytes (p.allocate xs).2.bonedata s = xs := by
  unfold boneBytes
  have e : s.boneoffset.toNat = p.bonedatacur := by
    rw [hoffset, BonePack.allocate, BitVec.toNat_ofNat, Nat.mod_eq_of_lt hcur]
  rw [e, hsize]
  exact Mem.slice_blit_self _ _ _

/-- The bones, in a state that has those of `old`. -/
theorem fteBones_sent (ahead us : Bool) (base olds : EntityState) {oldp : Mem QByte} {newp : BonePack}
    (hcur : newp.bonedatacur < 2 ^ 32)
    (holdp : oldp.slice olds.boneoffset.toNat (boneSize old.bonecount) = boneBytes oldbones old)
    (hcount : base.bonecount = old.bonecount) (hpose : base.basebone = old.basebone ∧ base.baseframe = old.baseframe)
    (hcontrol : base.bonecontrol = old.bonecontrol) (hbody : base.bodygroup = old.bodygroup)
    (hrate : base.animrate = old.animrate) :
    let bits := fteSentBits pext2 (svfteDeltaCalcBits old oldbones new newbones pext2 us) ahead new
    ∃ bonecount boneoffset basebone baseframe bonecontrol bodygroup animrate pack, let got := { base with
        bonecount := bonecount, boneoffset := boneoffset, basebone := basebone
        baseframe := baseframe, bonecontrol := bonecontrol, bodygroup := bodygroup
        animrate := animrate }
      RoundTrip (if bits &&& ufBonedata ≠ 0 then fteWriteBones pext2 (some newbones) new else pure ())
        (if bits &&& ufBonedata ≠ 0 then fteReadBones pext2 newp base
          else StateT.lift (fteCopyBones (some olds) oldp newp base)) (got, pack) ∧
      FteBonesAgree pext2 got pack.bonedata new newbones := by
  intro bits
  have hsent := fteCalcBits_bonedata old new oldbones newbones pext2 us
  have hbits : bits &&& ufBonedata = _ :=
    (fteSentBits_pred (fteCalcBits_ready old new oldbones newbones pext2 us)).2
  rw [← hbits] at hsent
  by_cases hb : bits &&& ufBonedata ≠ 0
  · simp only [if_pos hb]
    have hr := fteBones_roundTrip pext2 newbones newp new base
    unfold fteBonesGot at hr
    by_cases hc : new.bonecount ≠ 0
    · rw [if_pos hc] at hr
      refine ⟨_, _, _, _, _, _, _, _, hr, fun _ => rfl, fun _ => ?_, fun _ _ => ⟨rfl, rfl⟩,
        fun h => if_pos h, fun h => if_pos h, fun h => if_pos h⟩
      exact boneBytes_allocate hcur rfl (Mem.length_slice _ _ _).symm
    · rw [if_neg hc] at hr
      refine ⟨_, _, _, _, _, _, _, _, hr, fun _ => rfl, fun _ => ?_, fun _ _ => ⟨rfl, rfl⟩,
        fun h => if_pos h, fun h => if_pos h, fun h => if_pos h⟩
      rw [boneBytes, boneBytes, not_not.1 hc]
      rfl
  · simp only [if_neg hb]
    have hsame := mt hsent.2 hb
    unfold BonesDiffer at hsame
    push Not at hsame
    obtain ⟨hbones, hcontrols, hbodies, hrates⟩ := hsame
    have hcontrol' h := hcontrol.trans (hcontrols h).symm
    have hbody' h := hbody.trans (hbodies h).symm
    have hrate' h := hrate.trans (hrates h).symm
    have hcount' h := hcount.trans (hbones h).1.symm
    have hpose' (h : pext2 &&& pext2Newsizeencoding ≠ 0) (hz : new.bonecount = 0) :
        base.basebone = new.basebone ∧ base.baseframe = new.baseframe := by
      rw [hpose.1, hpose.2, ((hbones h).2.2 hz).1, ((hbones h).2.2 hz).2]
      exact ⟨rfl, rfl⟩
    unfold fteCopyBones
    by_cases hc : base.bonecount ≠ 0
    · rw [if_pos hc]
      refine ⟨base.bonecount, (newp.allocate (oldp.slice olds.boneoffset.toNat
        (boneSize base.bonecount))).1, base.basebone, base.baseframe, base.bonecontrol,
        base.bodygroup, base.animrate, _, RoundTrip.pure _, hcount', fun h => ?_, hpose', hcontrol',
        hbody', hrate'⟩
      rw [← (hbones h).2.1 (hcount' h ▸ hc), (hbones h).1, ← boneBytes, ← holdp, hcount]
      exact boneBytes_allocate hcur rfl (Mem.length_slice _ _ _).symm
    · rw [if_neg hc]
      refine ⟨base.bonecount, base.boneoffset, base.basebone, base.baseframe, base.bonecontrol,
        base.bodygroup, base.animrate, newp, RoundTrip.pure _, hcount', fun h => ?_, hpose', hcontrol',
        hbody', hrate'⟩
      rw [boneBytes, boneBytes, ← hcount' h, not_not.1 hc]
      rfl

/-! ## The message -/

/-- `got` is the angle `left`, possibly with the other sign of zero, or what `left` is on the
wire. -/
def FteAngleArrives (anglesize : ℕ) (got left : BitVec 32) : Prop :=
  got = left ∨ ¬Differ got left ∨ wireAngle anglesize left = some got

theorem fteAnglesize_congr {anglesize : ℕ} {bits' : BitVec 32} (h : bits &&& ufPredinfo = bits' &&& ufPredinfo) :
    fteAnglesize anglesize pext2 bits = fteAnglesize anglesize pext2 bits' := by
  rw [fteAnglesize, fteAnglesize, h]

/-- A component that is sent as `wire` has it, or did not change. -/
theorem fteArrived_spec {sent : Prop} [Decidable sent] {wire : BitVec 32 → Option (BitVec 32)}
    {x : BitVec 32} (h : sent → (wire f).isSome) (h' : ¬sent → ¬Differ f x) :
    fteArrived sent wire f x = f ∨ ¬Differ (fteArrived sent wire f x) f ∨
      wire f = some (fteArrived sent wire f x) := by
  obtain ⟨hs, hn⟩ := fteArrives_arrived x h
  by_cases hp : sent
  · exact .inr (.inr (hs hp))
  · rw [← hn hp]
    exact .inr (.inl fun e => h' hp e.symm)

/-- **What moves arrives**, when there is a movement. -/
theorem fteMoves_got (vangle : Fin 3 → BitVec 16) (base : EntityState)
    (hbits : bits &&& ufPredinfo = svfteDeltaCalcBits old oldbones new newbones pext2 us &&& ufPredinfo)
    (h : FteSendable pext2 old new) (hp : new.pmovetype ≠ 0) :
    FteEntityMoves (ftePredGot (bits &&& ufPredinfo ≠ 0) pext2 vangle new base) new := by
  unfold ftePredGot
  by_cases hs : bits &&& ufPredinfo ≠ 0
  · simp only [if_pos hs]
    refine ⟨rfl, ?_, rfl⟩
    funext i
    change fteSpeed pext2 (new.velocity i) = new.velocity i
    unfold fteSpeed
    split_ifs with hbig
    · rfl
    · have hfits := h.velocity hp (not_not.1 hbig) i
      exact toInt_setWidth_16 hfits.1 hfits.2
  · simp only [if_neg hs]
    rw [not_not, hbits, fteCalcBits_pred old new oldbones newbones pext2 us (.inl rfl)] at hs
    obtain ⟨hmovement, hvelocity, hmsec⟩ :=
      fteStill_of_predCalcBits (((ftePredCalcBits_spec old new pext2 us).2.2 hs).2.2 hp)
    exact ⟨hmovement.symm, hvelocity.symm, hmsec.symm⟩

/-- The type of movement and, without prediction info, the frame of the weapon. -/
theorem fteWeapon_got (vangle : Fin 3 → BitVec 16) (base : EntityState)
    (hbits : bits &&& ufPredinfo = svfteDeltaCalcBits old oldbones new newbones pext2 us &&& ufPredinfo)
    (hpmove : base.pmovetype = old.pmovetype) (hweapon : base.weaponframe = old.weaponframe) :
    let got := ftePredGot (bits &&& ufPredinfo ≠ 0) pext2 vangle new base
    got.pmovetype = new.pmovetype ∧ (pext2 &&& pext2Predinfo = 0 → got.weaponframe = new.weaponframe) := by
  by_cases hs : bits &&& ufPredinfo ≠ 0
  · exact ⟨if_pos hs, fun hp => (if_pos hs).trans (if_pos hp)⟩
  · have hs' := hs
    rw [not_not, hbits, fteCalcBits_pred old new oldbones newbones pext2 us (.inl rfl)] at hs'
    obtain ⟨hmove, hframe, -⟩ := (ftePredCalcBits_spec old new pext2 us).2.2 hs'
    exact ⟨(if_neg hs).trans (hpmove.trans hmove.symm), fun hp => (if_neg hs).trans (hweapon.trans (hframe hp).symm)⟩

/-- A component whose flag is not sent did not change. -/
theorem fteSent_vectors (i : Fin 3) :
    let bits := fteSentBits pext2 (svfteDeltaCalcBits old oldbones new newbones pext2 us) ahead new
    (¬bits &&& originFlag i ≠ 0 → ¬Differ (new.origin i) (old.origin i)) ∧
      (¬bits &&& anglesFlag i ≠ 0 → ¬Differ (new.angles i) (old.angles i)) := by
  intro bits
  obtain ⟨hxy, hz, hxz, hy⟩ := fteCalcBits_vectors old new oldbones newbones pext2 us
  have hfield {f : BitVec 32} (hf : fteSpecialFlags &&& f = 0#32) (h : ¬bits &&& f ≠ 0) :
      svfteDeltaCalcBits old oldbones new newbones pext2 us &&& f = 0 := by
    rw [not_not, fteSentBits_field hf] at h
    exact h
  match i with
  | 0 => exact ⟨fun h => (hxy (hfield rfl h)).1, fun h => (hxz (hfield rfl h)).1⟩
  | 1 => exact ⟨fun h => (hxy (hfield rfl h)).2, fun h => hy (hfield rfl h)⟩
  | 2 => exact ⟨fun h => hz (hfield rfl h), fun h => (hxz (hfield rfl h)).2⟩

/-- **The parts of an update come back**, in the order of the message. -/
theorem fteMessage_roundTrip (c : FteClient) {physicstime : ℚ}
    (number sequence : BitVec 32) {offset : BitVec 32} {oldp : Mem QByte} (newp : BonePack)
    (hpext2 : c.pext2 = pext2) (hezext1 : c.ezext1 = ezext1) (h : FteSendable pext2 old new)
    (hw : FteWritable prim pext2 ezext1 (fteSentBits pext2
      (svfteDeltaCalcBits old oldbones new newbones pext2 us) ahead new) physicstime new)
    (hcur : newp.bonedatacur < 2 ^ 32)
    (holdp : oldp.slice offset.toNat (boneSize old.bonecount) = boneBytes oldbones old) :
    let changed := svfteDeltaCalcBits old oldbones new newbones pext2 us
    let bits := fteSentBits pext2 changed ahead new
    ∃ got pack, RoundTrip (do
        fteWriteFirst prim pext2 ezext1 bits physicstime new
        (if bits &&& ufPredinfo ≠ 0 then fteWritePrediction pext2 bits
          (fteServerPredbits pext2 changed ||| svfteDeltaPredCalcBits none new) new else pure ())
        fteWriteModel pext2 bits new
        (if bits &&& ufBonedata ≠ 0 then fteWriteBones pext2 (some newbones) new else pure ())
        fteWriteLast pext2 bits new)
      (fteReadMessage c prim bits (some { old with boneoffset := offset }) oldp newp
        { old with number := number, sequence := sequence, boneoffset := offset }) (got, pack) ∧
      FteEntityAgrees pext2 (CoordArrives (qwCoordtype prim ezext1))
        (FteAngleArrives (fteAnglesize prim.anglesize.toNat pext2 changed)) got pack.bonedata new
        newbones ∧
      (new.pmovetype ≠ 0 → FteEntityMoves got new) ∧ got.number = number := by
  subst hpext2 hezext1
  intro changed bits
  have hpred : bits &&& ufPredinfo = changed &&& ufPredinfo :=
    (fteSentBits_pred (fteCalcBits_ready old new oldbones newbones c.pext2 us)).1
  let base : EntityState := { old with
    number := number, sequence := sequence, boneoffset := offset }
  obtain ⟨lerpend, hfirst⟩ := fteFirst_sent base hw rfl rfl
  set first : EntityState := { base with
    frame := new.frame
    origin := fun i => fteArrived (bits &&& originFlag i ≠ 0)
      (wireCoord (qwCoordtype prim c.ezext1)) (new.origin i) (base.origin i)
    angles := fun i => fteArrived (bits &&& anglesFlag i ≠ 0)
      (wireAngle (fteAnglesize prim.anglesize.toNat c.pext2 bits)) (new.angles i) (base.angles i)
    lerpend := lerpend, effects := new.effects }
  obtain ⟨vangle, hsecond⟩ := ftePredinfo_roundTrip c bits first
    fun _ => { ftePredReady_sent oldbones newbones us h with }
  set second := ftePredGot (bits &&& ufPredinfo ≠ 0) c.pext2 vangle new first
  have hmodel : FteModelReady c.pext2 bits second new := { fteModelReady_sent h with }
  set third : EntityState := { second with
    modelindex := new.modelindex, skinnum := new.skinnum, colormap := new.colormap
    solidsize := new.solidsize, dpflags := new.dpflags, trans := new.trans, scale := new.scale }
  obtain ⟨bonecount, boneoffset, basebone, baseframe, bonecontrol, bodygroup, animrate, pack, hbones,
    hagree⟩ := fteBones_sent ahead us third { old with boneoffset := offset } hcur holdp rfl ⟨rfl, rfl⟩ rfl rfl
      rfl
  set fourth : EntityState := { third with
    bonecount := bonecount, boneoffset := boneoffset, basebone := basebone, baseframe := baseframe
    bonecontrol := bonecontrol, bodygroup := bodygroup, animrate := animrate }
  have hlast : FteLastReady c.pext2 bits fourth new := { fteLastReady_sent h hw.tag with }
  have hr := (fteLast_roundTrip hlast).bind_return fun s => (s, pack)
  refine ⟨_, pack, hfirst.bind (hsecond.bind ((fteModel_roundTrip hmodel).bind (hbones.bind hr))), ?_, ?_, ?_⟩
  · obtain ⟨hpmove, hweapon⟩ := fteWeapon_got vangle first hpred rfl rfl
    refine { hagree with
      frame := rfl, origin := fun i => ?_, angles := fun i => ?_, effects := rfl
      pmovetype := hpmove, weaponframe := hweapon, modelindex := rfl, skinnum := rfl
      colormap := rfl, solidsize := rfl, dpflags := rfl, trans := rfl, scale := rfl
      drawflags := rfl, tag := rfl, light := rfl, effectnums := rfl, colormod := rfl, glow := rfl
      fatness := rfl, modelindex2 := rfl, gravitydir := rfl }
    · exact fteArrived_spec (hw.origin i) (fteSent_vectors i).1
    · rw [← fteAnglesize_congr hpred]
      exact fteArrived_spec (hw.angles i) (fteSent_vectors i).2
  · exact fun hp => { fteMoves_got vangle first hpred h hp with }
  · rfl

/-- Without bits, the states agree. -/
theorem fteAgrees_of_unchanged {anglesize : ℕ} (h : svfteDeltaCalcBits old oldbones new newbones pext2 us = 0) :
    FteEntityAgrees pext2 (CoordArrives (qwCoordtype prim ezext1)) (FteAngleArrives anglesize) old
      oldbones new newbones := by
  have h0 (f : BitVec 32) : svfteDeltaCalcBits old oldbones new newbones pext2 us &&& f = 0 := by
    rw [h]
    exact BitVec.zero_and
  have hsame {f : BitVec 32} {c : Prop}
      (e : svfteDeltaCalcBits old oldbones new newbones pext2 us &&& f ≠ 0 ↔ c) : ¬c :=
    mt e.2 (not_not.2 (h0 f))
  obtain ⟨hframe, hmodel, hskin, hcolormap, hsolid, hflags, halpha, hscale, heffects, hdraw, htag,
    hlight, htrail, hcolour, hglow, hfat, hmodel2, hgravity⟩ :=
    fteCalcBits_iff old new oldbones newbones pext2 us
  obtain ⟨hxy, hz, hxz, hy⟩ := fteCalcBits_vectors old new oldbones newbones pext2 us
  have hpred := h0 ufPredinfo
  rw [fteCalcBits_pred old new oldbones newbones pext2 us (.inl rfl)] at hpred
  obtain ⟨hmove, hweapon, -⟩ := (ftePredCalcBits_spec old new pext2 us).2.2 hpred
  have hbones := hsame (fteCalcBits_bonedata old new oldbones newbones pext2 us)
  have hdraw' := hsame hdraw
  have htag' := hsame htag
  have hlight' := hsame hlight
  have htrail' := hsame htrail
  have hglow' := hsame hglow
  unfold BonesDiffer at hbones
  push Not at hbones hdraw' htag' hlight' htrail' hglow'
  obtain ⟨hdata, hcontrols, hbodies, hrates⟩ := hbones
  have hstill {x y : BitVec 32} (e : ¬Differ x y) : ¬Differ y x := fun e' => e e'.symm
  exact
    { bonecount := fun hp => (hdata hp).1.symm
      bones := fun hp => by
        by_cases hc : new.bonecount = 0
        · rw [boneBytes, boneBytes, ← (hdata hp).1, hc]
          rfl
        · rw [← (hdata hp).2.1 hc, (hdata hp).1]
          rfl
      pose := fun hp hc => ⟨((hdata hp).2.2 hc).1.symm, ((hdata hp).2.2 hc).2.symm⟩
      bonecontrol := fun hp => (hcontrols hp).symm
      bodygroup := fun hp => (hbodies hp).symm
      animrate := fun hp => (hrates hp).symm
      frame := (not_not.1 (hsame hframe)).symm
      origin := fun i => .inr (.inl (hstill (match i with
        | 0 => (hxy (h0 _)).1
        | 1 => (hxy (h0 _)).2
        | 2 => hz (h0 _))))
      angles := fun i => .inr (.inl (hstill (match i with
        | 0 => (hxz (h0 _)).1
        | 1 => hy (h0 _)
        | 2 => (hxz (h0 _)).2)))
      effects := (not_not.1 (hsame heffects)).symm
      pmovetype := hmove.symm
      weaponframe := fun hp => (hweapon hp).symm
      modelindex := (not_not.1 (hsame hmodel)).symm
      skinnum := (not_not.1 (hsame hskin)).symm
      colormap := (not_not.1 (hsame hcolormap)).symm
      solidsize := (not_not.1 (hsame hsolid)).symm
      dpflags := (not_not.1 (hsame hflags)).symm
      trans := (not_not.1 (hsame halpha)).symm
      scale := (not_not.1 (hsame hscale)).symm
      drawflags := by rw [hdraw'.1, hdraw'.2]
      tag := by rw [htag'.1, htag'.2]
      light := by rw [hlight'.1, hlight'.2.1, hlight'.2.2]
      effectnums := by rw [htrail'.1, htrail'.2]
      colormod := (not_not.1 (hsame hcolour)).symm
      glow := by rw [hglow'.1, hglow'.2.1, hglow'.2.2]
      fatness := (not_not.1 (hsame hfat)).symm
      modelindex2 := (not_not.1 (hsame hmodel2)).symm
      gravitydir := (not_not.1 (hsame hgravity)).symm }

/-- **Updates reach the client.** For every pair of states and every set of extensions, when the
changes can be sent. -/
theorem svfteWriteUpdate_readDelta {prim : Netprim} {physicstime : ℚ}
    (h : FteSendable pext2 old new) :
    FteDelta pext2 ezext1 prim us physicstime (CoordArrives (qwCoordtype prim ezext1))
      (FteAngleArrives (fteAnglesize prim.anglesize.toNat pext2
        (svfteDeltaCalcBits old oldbones new newbones pext2 us))) old oldbones new newbones := by
  unfold FteDelta
  intro bits update
  split_ifs with h0
  · exact fteAgrees_of_unchanged h0
  rintro ⟨msg₀, hmsg₀, hrun⟩
  have hupdate (msg : Sizebuf) (hp : msg.prim = prim) : update.run msg =
      (fteWriteMessage prim pext2 ezext1
        (fteSentBits pext2 bits (lerpAhead new.lerpend physicstime) new)
        (fteServerPredbits pext2 bits) physicstime (some newbones) new).run msg := by
    rw [← hp]
    rfl
  rw [hupdate msg₀ hmsg₀] at hrun
  have hw := FteWritable.of_run hrun
  have hready := fteCalcBits_ready old new oldbones newbones pext2 us
  have hsent : FteBitsReady (fteSentBits pext2 bits (lerpAhead new.lerpend physicstime) new) :=
    fteSentBits_ready hready
  obtain ⟨bs, hbw, hbr⟩ := fteBits_roundTrip hsent
  -- the bytes do not depend on the client
  let someone : FteClient := ⟨pext2, ezext1, 0, 0, fun _ => 0⟩
  have hsome := fteMessage_roundTrip someone 0 0 ⟨oldbones, 0⟩ rfl rfl h hw (Nat.zero_lt_succ _)
    (rfl : oldbones.slice old.boneoffset.toNat _ = _)
  obtain ⟨-, -, ⟨rs, hrw, -⟩, -⟩ := hsome
  refine ⟨bs ++ rs, fun msg hp hfits => ?_, ?_⟩
  · rw [hupdate msg hp]
    exact (hbw.seq hrw) msg hfits
  · intro c entnum offset baseline oldp newp hpext2 hezext1 holdp hcur
    obtain ⟨got, pack, hr, hagree, hmoves, hnumber⟩ :=
      fteMessage_roundTrip c entnum c.incomingSequence newp hpext2 hezext1 h hw hcur holdp
    have hreset : ¬fteSentBits pext2 bits (lerpAhead new.lerpend physicstime) new &&& ufReset ≠ 0 := by
      rw [not_not, fteSentBits_field rfl]
      exact (fteCalcBits_free old new oldbones newbones pext2 us).1
    refine ⟨got, pack, ?_, hagree, hmoves, hnumber⟩
    refine Source.Takes.get_bind fun st ys hst => ?_
    rw [hst.1]
    refine hbr.restrict.bind ?_
    rw [fteBase, if_neg hreset]
    exact ((roundTrip_iff hrw).1 hr).restrict

end Update

/-- No bone data. -/
def noBones : Mem QByte := fun _ => 0

/-- A change of the frame. -/
theorem svfteWriteUpdate_readDelta_frame :
    FteDelta pext2Replacementdeltas 0 floatPrim false 0 (CoordArrives (qwCoordtype floatPrim 0))
      (FteAngleArrives (fteAnglesize floatPrim.anglesize.toNat pext2Replacementdeltas
        (svfteDeltaCalcBits idleEntity noBones { idleEntity with frame := 300 } noBones
          pext2Replacementdeltas false)))
      idleEntity noBones { idleEntity with frame := 300 } noBones :=
  svfteWriteUpdate_readDelta
    { skinnum := fun h => absurd rfl h
      colormap := fun h => absurd rfl h
      solidsize := fun h => absurd rfl h
      weaponframe := fun h => absurd rfl h
      abslight := fun h => absurd h (by decide)
      tagentity := fun h => absurd h (by decide)
      tagindex := fun h => absurd h (by decide)
      effectnums := fun h => absurd h (by decide)
      velocity := fun h => absurd rfl h }

/-- What a client with `old` holds after the update to `new`. -/
def fteReceived (pext2 : BitVec 32) (prim : Netprim) (old new : EntityState) :
    Option EntityState := do
  let bits := svfteDeltaCalcBits old noBones new noBones pext2 false
  let ((), msg) ← (svfteWriteUpdate bits new pext2 0 0 (some noBones)).run
    { bufferOf [] 1400 with prim := prim }
  let ((got, _), _) ← (clfteReadDelta ⟨pext2, 0, 0, 0, fun _ => 0⟩ new.number (some old) old noBones
    ⟨noBones, 0⟩).run
    ⟨{ bufferOf msg.contents 0 with prim := prim }, bufferOf [] 0, .netMessage, false⟩
  return got

/-- **What does not arrive**: coordinates and angles between the steps of their formats, numbers that
are too large for the forms in which they are sent, and lights that are not asked for. A player that
stops is not sent at all. -/
theorem fteDelta_inexact :
    (fteReceived 0 vanillaPrim idleEntity { idleEntity with origin := ![0x3d800000, 0, 0] }).map
      (fun got => got.origin 0) = some 0x3e000000 ∧
    (fteReceived 0 vanillaPrim idleEntity { idleEntity with angles := ![0x3f800000, 0, 0] }).map
      (fun got => got.angles 0) = some 0x3fb40000 ∧
    (fteReceived 0 floatPrim idleEntity { idleEntity with skinnum := 0x8000 }).map
      (fun got => got.skinnum) = some 0xffff8000 ∧
    (fteReceived 0 floatPrim idleEntity { idleEntity with colormap := 256 }).map
      (fun got => got.colormap) = some 0 ∧
    (fteReceived 0 floatPrim idleEntity { idleEntity with weaponframe := 0x8000 }).map
      (fun got => got.weaponframe) = some 0 ∧
    (fteReceived 0 floatPrim idleEntity { idleEntity with abslight := 1 }).map
      (fun got => got.abslight) = some 0 ∧
    (fteReceived 0 floatPrim idleEntity { idleEntity with tagentity := 0x8001 }).map
      (fun got => got.tagentity) = some 0x8080 ∧
    (fteReceived 0 floatPrim idleEntity { idleEntity with tagindex := 255 }).map
      (fun got => got.tagindex) = some 0xffff ∧
    (fteReceived 0 floatPrim idleEntity { idleEntity with traileffectnum := 1024 }).map
      (fun got => got.traileffectnum) = some 0 ∧
    (fteReceived 0 floatPrim idleEntity
      { idleEntity with pmovetype := 1, velocity := ![0x8000, 0, 0] }).map
      (fun got => got.velocity 0) = some 0xffff8000 ∧
    svfteDeltaCalcBits { idleEntity with pmovetype := 1, velocity := ![1, 0, 0] } noBones
      { idleEntity with pmovetype := 1 } noBones 0 false = 0 := by
  decide +kernel

end FteQuake
