import FteQuake.Common.Sizebuf
import FteQuake.Lib.BoundedMemory
import Mathlib.Data.BitVec

/-!
# Extensions of paths

`COM_RequireExtension` of `common.c`. A path lies in a buffer of `maxlen` bytes, and the function
fails (`none`) where it stores outside, where a sum leaves the `int`s, and at its `Sys_Error`.

The place of the extension in a path that has to be truncated is `maxlen - 1 + elen`, where
`maxlen - (1 + elen)` would leave room for it: every such call stores outside the buffer
(`requireExtension_respects`).
-/

namespace FteQuake

namespace RequireExtension

/-! ## The function -/

/-- A character as `Q_strncasecmp` compares it. -/
def toUpper (c : QByte) : QByte := if 0x61 ≤ c ∧ c ≤ 0x7a then c - 0x20 else c

/-- `!Q_strcasecmp`. -/
def strcaseeq (a b : List QByte) : Bool := a.map toUpper = b.map toUpper

/-- `COM_RequireExtension`. -/
def comRequireExtension (path : Mem QByte) (extension : List QByte) (maxlen : ℕ) :
    Option (Bool × Mem QByte) :=
  let plen := path.strlen maxlen 0
  let elen := extension.length
  -- already suffixed
  if plen ≥ elen ∧ strcaseeq (path.slice (plen - elen) elen) extension = true then some (true, path)
  else if 2 ^ 31 ≤ plen + 1 + elen then none
  else if plen + 1 + elen > maxlen then
    if elen + 1 > maxlen then none
    else if 2 ^ 31 ≤ maxlen - 1 + elen then none
    else (path.puts maxlen (maxlen - 1 + elen) (extension ++ [0])).map (false, ·)
  else (path.puts maxlen plen (extension ++ [0])).map (true, ·)

/-! ## What it is for -/

/-- A string ends with an extension, in either case. -/
def EndsWith (s extension : List QByte) : Prop :=
  ∃ p t, s = p ++ t ∧ strcaseeq t extension = true

/-- What a call leaves of a path `s` in its buffer. -/
structure Respects (path : Mem QByte) (s extension : List QByte) (maxlen : ℕ) (okay : Bool)
    (path' : Mem QByte) (s' : List QByte) : Prop where
  holds : path'.Holds 0 s'
  fits : s'.length + 1 ≤ maxlen
  outside : ∀ i, maxlen ≤ i → path' i = path i
  endsWith : EndsWith s' extension
  unchanged : EndsWith s extension → path' = path ∧ okay = true
  appended : ¬EndsWith s extension →
    ∃ p, p <+: s ∧ s' = p ++ extension ∧ (okay = true ↔ p = s)

section Suffix

variable {path : Mem QByte} {s extension : List QByte} {maxlen : ℕ}

theorem strcaseeq_self (t : List QByte) : strcaseeq t t = true := decide_eq_true rfl

theorem length_of_strcaseeq {a b : List QByte} (h : strcaseeq a b = true) : a.length = b.length := by
  have := congrArg List.length (of_decide_eq_true h)
  rwa [List.length_map, List.length_map] at this

/-- The test of the function. -/
theorem suffixed_iff (hs : path.Holds 0 s) : (s.length ≥ extension.length ∧
    strcaseeq (path.slice (s.length - extension.length) extension.length) extension = true) ↔
      EndsWith s extension := by
  have hdrop {k : ℕ} (hk : k ≤ s.length) : path.slice k (s.length - k) = s.drop k := by
    have := Mem.drop_slice path 0 s.length k
    rw [hs.chars, Nat.zero_add] at this
    exact this.symm
  constructor
  · rintro ⟨hle, heq⟩
    refine ⟨s.take (s.length - extension.length), s.drop (s.length - extension.length),
      (List.take_append_drop _ _).symm, ?_⟩
    rw [← hdrop (Nat.sub_le _ _), Nat.sub_sub_self hle]
    exact heq
  · rintro ⟨p, t, rfl, heq⟩
    have hlength := length_of_strcaseeq heq
    rw [List.length_append, ← hlength]
    refine ⟨by omega, ?_⟩
    have ht := hdrop (k := p.length) (by rw [List.length_append]; omega)
    rw [List.drop_left, List.length_append, Nat.add_sub_cancel_left] at ht
    rw [Nat.add_sub_cancel_right, ht]
    exact heq

variable (hs : path.Holds 0 s) (hlen : s.length + 1 ≤ maxlen)
include hs hlen

theorem requireExtension_of_endsWith (hends : EndsWith s extension) :
    comRequireExtension path extension maxlen = some (true, path) := by
  unfold comRequireExtension
  dsimp only
  rw [if_pos]
  rw [hs.strlen (by omega)]
  exact (suffixed_iff hs).2 hends

theorem requireExtension_of_not_endsWith (hends : ¬EndsWith s extension) :
    comRequireExtension path extension maxlen =
      if 2 ^ 31 ≤ s.length + 1 + extension.length then none
      else if s.length + 1 + extension.length > maxlen then
        if extension.length + 1 > maxlen then none
        else if 2 ^ 31 ≤ maxlen - 1 + extension.length then none
        else (path.puts maxlen (maxlen - 1 + extension.length) (extension ++ [0])).map (false, ·)
      else (path.puts maxlen s.length (extension ++ [0])).map (true, ·) := by
  unfold comRequireExtension
  dsimp only
  rw [if_neg, hs.strlen (by omega)]
  rw [hs.strlen (by omega)]
  exact fun h => hends ((suffixed_iff hs).1 h)

end Suffix

/-- **The extension is put in its place exactly when nothing has to be truncated**: for a path in its
buffer and an extension that a buffer of this size can hold. -/
theorem requireExtension_respects {path : Mem QByte} {s extension : List QByte} {maxlen : ℕ}
    (hs : path.Holds 0 s) (hlen : s.length + 1 ≤ maxlen) (hmax : maxlen < 2 ^ 31)
    (hext : 0 ∉ extension) (hfit : extension.length + 1 ≤ maxlen) :
    (∃ okay path' s', comRequireExtension path extension maxlen = some (okay, path') ∧
      Respects path s extension maxlen okay path' s') ↔
    EndsWith s extension ∨ s.length + 1 + extension.length ≤ maxlen := by
  by_cases hends : EndsWith s extension
  · rw [requireExtension_of_endsWith hs hlen hends]
    refine ⟨fun _ => .inl hends, fun _ => ⟨true, path, s, rfl, hs, hlen, fun _ _ => rfl, hends, ?_, ?_⟩⟩
    · exact fun _ => ⟨rfl, rfl⟩
    · exact fun h => absurd hends h
  · rw [requireExtension_of_not_endsWith hs hlen hends]
    have hne : extension ≠ [] := by
      rintro rfl
      exact hends ⟨s, [], (List.append_nil s).symm, strcaseeq_self []⟩
    by_cases hroom : s.length + 1 + extension.length ≤ maxlen
    · rw [if_neg (by omega), if_neg (by omega),
        Mem.puts_of_le (by simp only [List.length_append, List.length_singleton]; omega), Option.map_some]
      refine ⟨fun _ => .inr hroom, fun _ => ⟨true, _, s ++ extension, rfl, ?_⟩⟩
      constructor
      · have := Mem.Holds.append_blit (p := 0) hs.chars hs.zero_notMem hext
        rwa [Nat.zero_add] at this
      · rw [List.length_append]
        omega
      · intro i hi
        refine Mem.blit_apply_ge _ _ ?_
        rw [List.length_append, List.length_singleton]
        omega
      · exact ⟨s, extension, rfl, strcaseeq_self _⟩
      · exact fun h => absurd h hends
      · exact fun _ => ⟨s, List.prefix_rfl, rfl, by simp⟩
    · -- the extension would begin behind the buffer
      have hout : (path.puts maxlen (maxlen - 1 + extension.length) (extension ++ [0])) = none := by
        refine Mem.puts_of_lt ?_ (by simp) _
        rw [List.length_append, List.length_singleton]
        have := List.length_pos_of_ne_nil hne
        omega
      rw [if_pos (show s.length + 1 + extension.length > maxlen by omega), hout, Option.map_none,
        if_neg (show ¬extension.length + 1 > maxlen by omega), ite_self, ite_self]
      constructor
      · rintro ⟨_, _, _, hsome, -⟩
        cases hsome
      · rintro (h | h)
        · exact absurd h hends
        · exact absurd h hroom

theorem requireExtension_respects_map :
    ∃ okay path' s', comRequireExtension (Mem.blit (fun _ => 7) 0 [0x61, 0x62, 0]) [0x2e, 0x6d] 5
        = some (okay, path') ∧
      Respects (Mem.blit (fun _ => 7) 0 [0x61, 0x62, 0]) [0x61, 0x62] [0x2e, 0x6d] 5 okay path' s' :=
  (requireExtension_respects (Mem.holds_blit (s := [0x61, 0x62]) _ 0 (by decide)) (by decide) (by decide)
    (by decide) (by decide)).2 (.inr (by decide))

/-- **A path that has to be truncated is not**: `abcd` with `.m` in a buffer of 6 bytes. -/
theorem requireExtension_overruns :
    ¬∀ (path : Mem QByte) (s extension : List QByte) (maxlen : ℕ), path.Holds 0 s → s.length + 1 ≤ maxlen →
      maxlen < 2 ^ 31 → 0 ∉ extension → extension.length + 1 ≤ maxlen →
      ∃ okay path' s', comRequireExtension path extension maxlen = some (okay, path') ∧
        Respects path s extension maxlen okay path' s' := by
  intro h
  obtain ⟨okay, path', s', hrun, -⟩ := h (Mem.blit (fun _ => 7) 0 [0x61, 0x62, 0x63, 0x64, 0])
    [0x61, 0x62, 0x63, 0x64] [0x2e, 0x6d] 6 (Mem.holds_blit (s := [0x61, 0x62, 0x63, 0x64]) _ 0 (by decide))
    (by decide) (by decide) (by decide) (by decide)
  have hnone : comRequireExtension (Mem.blit (fun _ => 7) 0 [0x61, 0x62, 0x63, 0x64, 0]) [0x2e, 0x6d] 6 = none :=
    rfl
  rw [hnone] at hrun
  cases hrun

end RequireExtension

end FteQuake
