import FteQuake.Lib.WholeSteps
import Mathlib.Algebra.Order.BigOperators.Group.List
import Mathlib.Data.Rat.Floor
import Mathlib.Logic.Function.Iterate
import Mathlib.Tactic.NormNum

/-!
# Fixed-tick movement

`PMSrc_PlayerMove` of `pm_source.c`, over the rationals: the time of a command is added to the carry of
the player, and whole ticks of it are run. What a tick does to the rest of the player is a parameter.

`playerMove_ticks` says that the ticks of a sequence of commands are the whole ticks in the total time,
when everything is on one grid that is coarser than the slack of the comparison.
-/

namespace FteQuake

open WholeSteps

namespace PmSource

/-- `PMSRC_MAX_TICKS`. -/
def maxTicks : ℕ := 8

/-- `PMSRC_TICK_EPSILON`. -/
def tickEpsilon : ℚ := 1 / 100000

/-- The fields of `pmove` that say how time is spent; the rest is `body`. -/
structure Pmove (σ : Type) where
  msecCarry : ℚ
  ticksrun : ℕ
  tickused : ℚ
  body : σ

/-- The fields of `usercmd_t`: the time, and the rest. -/
structure Usercmd (κ : Type) where
  msec : ℚ
  input : κ

/-- What `PMSrc_PlayerMove` does besides: before the ticks, `PMSrc_Tick`, and behind the ticks. -/
structure Physics (σ κ : Type) where
  before : κ → σ → σ
  tick : κ → σ → σ
  after : κ → σ → σ

variable {σ κ : Type}

/-- The loop over the ticks, of which `left` may still be run. -/
def tickLoop (tick : ℚ) (step : σ → σ) : ℕ → ℚ → ℕ → σ → ℚ × ℕ × σ
  | 0, avail, iters, s => (if tick ≤ avail + tickEpsilon then 0 else avail, iters, s)
  | left + 1, avail, iters, s =>
    if tick ≤ avail + tickEpsilon then tickLoop tick step left (avail - tick) (iters + 1) (step s)
    else (avail, iters, s)

/-- The length of a tick, from `movevars.ticrate`. -/
def tickLength (ticrate : ℚ) : ℚ := if ticrate < 1 / 1000 then 15 / 1000 else ticrate

/-- The time of a command. -/
def cmdTime (gamespeed : ℚ) (cmd : Usercmd κ) : ℚ := cmd.msec * (1 / 1000) * gamespeed

section Move

variable (phys : Physics σ κ) (ticrate gamespeed : ℚ)

/-- `PMSrc_PlayerMove`. -/
def playerMove (p : Pmove σ) (cmd : Usercmd κ) : Pmove σ :=
  let tick := tickLength ticrate
  let avail := p.msecCarry + cmdTime gamespeed cmd
  let (avail, iters, body) :=
    tickLoop tick (phys.tick cmd.input) maxTicks avail 0 (phys.before cmd.input p.body)
  ⟨if avail < 0 then 0 else avail, iters, tick, phys.after cmd.input body⟩

/-- Commands, one after the other: the player, and the ticks that were run. -/
def playerMoves : Pmove σ → List (Usercmd κ) → Pmove σ × ℕ
  | p, [] => (p, 0)
  | p, cmd :: cmds =>
    let p := playerMove phys ticrate gamespeed p cmd
    let r := playerMoves p cmds
    (r.1, p.ticksrun + r.2)

/-- No command has more whole ticks to run than may be run. -/
def WithinTicks : Pmove σ → List (Usercmd κ) → Prop
  | _, [] => True
  | p, cmd :: cmds => steps ticrate (p.msecCarry + cmdTime gamespeed cmd) ≤ maxTicks ∧
    WithinTicks (playerMove phys ticrate gamespeed p cmd) cmds

/-- The total time of commands. -/
def totalTime (cmds : List (Usercmd κ)) : ℚ := (cmds.map (cmdTime gamespeed)).sum

end Move

/-! ## One command -/

variable {phys : Physics σ κ} {ticrate gamespeed tick quantum avail : ℚ}

/-- The multiples of a quantum. -/
def OnGrid (quantum x : ℚ) : Prop := ∃ n : ℕ, x = n * quantum

theorem OnGrid.nonneg (hq : 0 ≤ quantum) {x : ℚ} (h : OnGrid quantum x) : 0 ≤ x := by
  obtain ⟨n, rfl⟩ := h
  exact mul_nonneg n.cast_nonneg hq

theorem OnGrid.add {x y : ℚ} (hx : OnGrid quantum x) (hy : OnGrid quantum y) :
    OnGrid quantum (x + y) := by
  obtain ⟨n, rfl⟩ := hx
  obtain ⟨k, rfl⟩ := hy
  exact ⟨n + k, by push_cast; ring⟩

theorem OnGrid.sub {x y : ℚ} (hq : 0 < quantum) (hx : OnGrid quantum x) (hy : OnGrid quantum y)
    (hle : y ≤ x) : OnGrid quantum (x - y) := by
  obtain ⟨n, rfl⟩ := hx
  obtain ⟨k, rfl⟩ := hy
  have hkn : k ≤ n := by
    have h := le_of_mul_le_mul_right hle hq
    exact_mod_cast h
  exact ⟨n - k, by push_cast [hkn]; ring⟩

/-- The slack of the comparison does not matter on a grid that is coarser. -/
theorem OnGrid.le_add_epsilon_iff (hq : tickEpsilon < quantum) (ht : OnGrid quantum tick)
    (ha : OnGrid quantum avail) : tick ≤ avail + tickEpsilon ↔ tick ≤ avail := by
  have heps : (0 : ℚ) ≤ tickEpsilon := by norm_num [tickEpsilon]
  refine ⟨fun h => ?_, fun h => by linarith⟩
  by_contra hlt
  obtain ⟨n, rfl⟩ := ht
  obtain ⟨k, rfl⟩ := ha
  have hkn : k < n := by
    have h := lt_of_mul_lt_mul_right (not_le.1 hlt) (heps.trans hq.le)
    exact_mod_cast h
  have hsucc : (k : ℚ) + 1 ≤ n := by exact_mod_cast hkn
  have hmul := mul_le_mul_of_nonneg_right hsucc (heps.trans hq.le)
  linarith

/-- The loop runs the whole ticks and leaves the rest. -/
theorem tickLoop_eq (hq : tickEpsilon < quantum) (ht : OnGrid quantum tick) (hpos : 0 < tick)
    (ha : OnGrid quantum avail) (step : σ → σ) (left iters : ℕ) (s : σ) (hleft : steps tick avail ≤ left) :
    tickLoop tick step left avail iters s =
      (rest tick avail, iters + steps tick avail, step^[steps tick avail] s) := by
  have hq' : 0 < quantum := lt_of_le_of_lt (by norm_num [tickEpsilon]) hq
  induction left generalizing avail iters s with
  | zero =>
    have hlt : ¬ tick ≤ avail := fun hle => by
      rw [steps_of_le hpos hle] at hleft
      omega
    have hsteps := steps_of_lt hpos (ha.nonneg hq'.le) (not_le.1 hlt)
    have hcmp := OnGrid.le_add_epsilon_iff hq ht ha
    rw [tickLoop, if_neg (hcmp.not.2 hlt), hsteps, rest_of_lt hpos (ha.nonneg hq'.le) (not_le.1 hlt)]
    rfl
  | succ left ih =>
    have hcmp := OnGrid.le_add_epsilon_iff hq ht ha
    by_cases hle : tick ≤ avail
    · have hsteps := steps_of_le hpos hle
      rw [tickLoop, if_pos (hcmp.2 hle), ih (ha.sub hq' ht hle) _ _ (by omega), rest_of_le hpos hle,
        hsteps, Function.iterate_succ_apply]
      congr 2
      omega
    · have hsteps := steps_of_lt hpos (ha.nonneg hq'.le) (not_le.1 hle)
      rw [tickLoop, if_neg (hcmp.not.2 hle), hsteps, rest_of_lt hpos (ha.nonneg hq'.le) (not_le.1 hle)]
      rfl

/-- The loop runs no more ticks than it may. -/
theorem tickLoop_le (tick : ℚ) (step : σ → σ) (left : ℕ) (avail : ℚ) (iters : ℕ) (s : σ) :
    (tickLoop tick step left avail iters s).2.1 ≤ iters + left := by
  induction left generalizing avail iters s with
  | zero => exact le_rfl
  | succ left ih =>
    rw [tickLoop]
    split
    · have h := ih (avail - tick) (iters + 1) (step s)
      omega
    · exact Nat.le_add_right _ _

theorem playerMove_ticksrun_le (phys : Physics σ κ) (ticrate gamespeed : ℚ) (p : Pmove σ)
    (cmd : Usercmd κ) : (playerMove phys ticrate gamespeed p cmd).ticksrun ≤ maxTicks := by
  have h := tickLoop_le (tickLength ticrate) (phys.tick cmd.input) maxTicks
    (p.msecCarry + cmdTime gamespeed cmd) 0 (phys.before cmd.input p.body)
  rwa [Nat.zero_add] at h

/-! ## Commands -/

/-- Everything is on one grid that is coarser than the slack, and the carry is below a tick. -/
structure Quantised (ticrate gamespeed quantum : ℚ) (p : Pmove σ) (cmds : List (Usercmd κ)) : Prop where
  tick_ge : 1 / 1000 ≤ ticrate
  quantum_gt : tickEpsilon < quantum
  tick : OnGrid quantum ticrate
  carry : OnGrid quantum p.msecCarry
  carry_lt : p.msecCarry < ticrate
  times : ∀ cmd ∈ cmds, OnGrid quantum (cmdTime gamespeed cmd)

namespace Quantised

variable {p : Pmove σ} {cmd : Usercmd κ} {cmds : List (Usercmd κ)}

theorem tick_pos (h : Quantised ticrate gamespeed quantum p cmds) : 0 < ticrate :=
  lt_of_lt_of_le (by norm_num) h.tick_ge

theorem quantum_pos (h : Quantised ticrate gamespeed quantum p cmds) : 0 < quantum :=
  lt_of_le_of_lt (by norm_num [tickEpsilon]) h.quantum_gt

theorem totalTime_nonneg (h : Quantised ticrate gamespeed quantum p cmds) :
    0 ≤ totalTime gamespeed cmds := by
  refine List.sum_nonneg fun x hx => ?_
  obtain ⟨c, hc, rfl⟩ := List.mem_map.1 hx
  exact (h.times c hc).nonneg h.quantum_pos.le

/-- The rest of a command is a carry again. -/
theorem of_rest (h : Quantised ticrate gamespeed quantum p (cmd :: cmds)) {p' : Pmove σ}
    (hp' : p'.msecCarry = rest ticrate (p.msecCarry + cmdTime gamespeed cmd)) :
    Quantised ticrate gamespeed quantum p' cmds where
  tick_ge := h.tick_ge
  quantum_gt := h.quantum_gt
  tick := h.tick
  carry := by
    have havail := h.carry.add (h.times cmd (.head _))
    obtain ⟨k, hk⟩ := h.tick
    have hmul : OnGrid quantum (steps ticrate (p.msecCarry + cmdTime gamespeed cmd) * ticrate) := by
      refine ⟨steps ticrate (p.msecCarry + cmdTime gamespeed cmd) * k, ?_⟩
      push_cast
      rw [mul_assoc, ← hk]
    have hnonneg := rest_nonneg h.tick_pos (havail.nonneg h.quantum_pos.le)
    rw [hp']
    exact havail.sub h.quantum_pos hmul (sub_nonneg.1 hnonneg)
  carry_lt := hp' ▸ rest_lt h.tick_pos _
  times := fun c hc => h.times c (.tail _ hc)

/-- One command runs the whole ticks of the time there is, and carries the rest. -/
theorem playerMove (h : Quantised ticrate gamespeed quantum p (cmd :: cmds)) (phys : Physics σ κ)
    (hwithin : steps ticrate (p.msecCarry + cmdTime gamespeed cmd) ≤ maxTicks) :
    PmSource.playerMove phys ticrate gamespeed p cmd =
      ⟨rest ticrate (p.msecCarry + cmdTime gamespeed cmd),
        steps ticrate (p.msecCarry + cmdTime gamespeed cmd), ticrate,
        phys.after cmd.input ((phys.tick cmd.input)^[steps ticrate
          (p.msecCarry + cmdTime gamespeed cmd)] (phys.before cmd.input p.body))⟩ := by
  have havail := h.carry.add (h.times cmd (.head _))
  have hloop := tickLoop_eq h.quantum_gt h.tick h.tick_pos havail (phys.tick cmd.input) maxTicks 0
    (phys.before cmd.input p.body) hwithin
  have hlength : tickLength ticrate = ticrate := if_neg (not_lt.2 h.tick_ge)
  have hnonneg := rest_nonneg h.tick_pos (havail.nonneg h.quantum_pos.le)
  simp [PmSource.playerMove, hlength, hloop, if_neg (not_lt.2 hnonneg)]

/-- Commands run the whole ticks of their total time. -/
theorem playerMoves (h : Quantised ticrate gamespeed quantum p cmds) (phys : Physics σ κ)
    (hwithin : WithinTicks phys ticrate gamespeed p cmds) :
    (PmSource.playerMoves phys ticrate gamespeed p cmds).2 =
        steps ticrate (p.msecCarry + totalTime gamespeed cmds) ∧
      (PmSource.playerMoves phys ticrate gamespeed p cmds).1.msecCarry =
        rest ticrate (p.msecCarry + totalTime gamespeed cmds) := by
  induction cmds generalizing p with
  | nil =>
    have hnonneg := h.carry.nonneg h.quantum_pos.le
    simp only [PmSource.playerMoves, totalTime, List.map_nil, List.sum_nil, add_zero]
    exact ⟨(steps_of_lt h.tick_pos hnonneg h.carry_lt).symm, (rest_of_lt h.tick_pos hnonneg h.carry_lt).symm⟩
  | cons cmd cmds ih =>
    obtain ⟨hcmd, hcmds⟩ := hwithin
    have hmove := h.playerMove phys hcmd
    have hrest : Quantised ticrate gamespeed quantum (PmSource.playerMove phys ticrate gamespeed p cmd)
        cmds := h.of_rest (by rw [hmove])
    obtain ⟨hticks, hcarry⟩ := ih hrest hcmds
    have havail := (h.carry.add (h.times cmd (.head _))).nonneg h.quantum_pos.le
    have htotal := hrest.totalTime_nonneg
    have hsum : p.msecCarry + totalTime gamespeed (cmd :: cmds) =
        p.msecCarry + cmdTime gamespeed cmd + totalTime gamespeed cmds := by
      rw [totalTime, List.map_cons, List.sum_cons, add_assoc]
      rfl
    rw [hsum, steps_add h.tick_pos havail htotal, rest_add h.tick_pos havail htotal]
    refine ⟨?_, ?_⟩
    · show (PmSource.playerMove phys ticrate gamespeed p cmd).ticksrun + (PmSource.playerMoves phys
        ticrate gamespeed (PmSource.playerMove phys ticrate gamespeed p cmd) cmds).2 = _
      rw [hticks, hmove]
    · show (PmSource.playerMoves phys ticrate gamespeed
        (PmSource.playerMove phys ticrate gamespeed p cmd) cmds).1.msecCarry = _
      rw [hcarry, hmove]

end Quantised

theorem WithinTicks.of_prefix {p : Pmove σ} {pre cmds : List (Usercmd κ)} (hpre : pre <+: cmds)
    (h : WithinTicks phys ticrate gamespeed p cmds) : WithinTicks phys ticrate gamespeed p pre := by
  induction pre generalizing p cmds with
  | nil => trivial
  | cons cmd pre ih =>
    obtain ⟨suf, rfl⟩ := hpre
    exact ⟨h.1, ih (List.prefix_append pre suf) h.2⟩

/-- **Commands run the whole ticks of their total time**, however it is split, and the carry stays
below a tick; and whatever the input is, one command runs at most `PMSRC_MAX_TICKS` ticks. -/
theorem playerMove_ticks (phys : Physics σ κ) (ticrate gamespeed : ℚ) (p : Pmove σ)
    (cmds : List (Usercmd κ)) :
    (∀ q : Pmove σ, ∀ cmd : Usercmd κ,
        (playerMove phys ticrate gamespeed q cmd).ticksrun ≤ maxTicks) ∧
      ∀ quantum, Quantised ticrate gamespeed quantum p cmds →
        WithinTicks phys ticrate gamespeed p cmds →
        (∀ pre, pre <+: cmds → 0 ≤ (playerMoves phys ticrate gamespeed p pre).1.msecCarry ∧
          (playerMoves phys ticrate gamespeed p pre).1.msecCarry < ticrate) ∧
        (playerMoves phys ticrate gamespeed p cmds).2 =
          ⌊(p.msecCarry + totalTime gamespeed cmds) / ticrate⌋₊ ∧
        ∀ cmds' : List (Usercmd κ), Quantised ticrate gamespeed quantum p cmds' →
          WithinTicks phys ticrate gamespeed p cmds' →
          totalTime gamespeed cmds' = totalTime gamespeed cmds →
          (playerMoves phys ticrate gamespeed p cmds').2 =
              (playerMoves phys ticrate gamespeed p cmds).2 ∧
            (playerMoves phys ticrate gamespeed p cmds').1.msecCarry =
              (playerMoves phys ticrate gamespeed p cmds).1.msecCarry := by
  refine ⟨playerMove_ticksrun_le phys ticrate gamespeed, fun quantum h hwithin => ⟨?_, ?_, ?_⟩⟩
  · intro pre hpre
    have hquantised : Quantised ticrate gamespeed quantum p pre :=
      { h with times := fun c hc => h.times c (hpre.subset hc) }
    have hnonneg : 0 ≤ p.msecCarry + totalTime gamespeed pre :=
      add_nonneg (h.carry.nonneg h.quantum_pos.le) hquantised.totalTime_nonneg
    rw [(hquantised.playerMoves phys (hwithin.of_prefix hpre)).2]
    exact ⟨rest_nonneg h.tick_pos hnonneg, rest_lt h.tick_pos _⟩
  · exact (h.playerMoves phys hwithin).1
  · intro cmds' h' hwithin' htotal
    rw [(h.playerMoves phys hwithin).1, (h.playerMoves phys hwithin).2,
      (h'.playerMoves phys hwithin').1, (h'.playerMoves phys hwithin').2, htotal]
    exact ⟨rfl, rfl⟩

/-- Two commands of 10 and one of 20 milliseconds, with ticks of 15 and a carry of 5. -/
theorem playerMove_ticks_split :
    (playerMoves (⟨fun _ s => s, fun _ s => s + 1, fun _ s => s⟩ : Physics ℕ Unit) (15 / 1000) 1
        ⟨5 / 1000, 0, 0, 0⟩ [⟨10, ()⟩, ⟨10, ()⟩, ⟨20, ()⟩]).2 =
      ⌊((5 / 1000 : ℚ) + totalTime 1 [(⟨10, ()⟩ : Usercmd Unit), ⟨10, ()⟩, ⟨20, ()⟩]) /
        (15 / 1000)⌋₊ := by
  refine ((playerMove_ticks (⟨fun _ s => s, fun _ s => s + 1, fun _ s => s⟩ : Physics ℕ Unit)
    (15 / 1000) 1 ⟨5 / 1000, 0, 0, 0⟩ [⟨10, ()⟩, ⟨10, ()⟩, ⟨20, ()⟩]).2 (5 / 1000) ?_ ?_).2.1
  · refine ⟨by norm_num, by norm_num [tickEpsilon], ⟨3, by norm_num⟩, ⟨1, by norm_num⟩, by norm_num, ?_⟩
    intro cmd hcmd
    simp only [List.mem_cons, List.not_mem_nil, or_false] at hcmd
    rcases hcmd with rfl | rfl | rfl
    · exact ⟨2, by norm_num [cmdTime]⟩
    · exact ⟨2, by norm_num [cmdTime]⟩
    · exact ⟨4, by norm_num [cmdTime]⟩
  · exact ⟨by decide +kernel, by decide +kernel, by decide +kernel, trivial⟩

end PmSource

end FteQuake
