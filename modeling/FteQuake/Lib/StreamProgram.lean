import Mathlib.Data.List.Basic
import Mathlib.Tactic.Basic

/-!
# Programs that write to and read from a stream

A writer is a state program whose effect, when there is room, is to push a list of symbols; a
reader is a state program whose effect, when the list lies ahead of its cursor, is to skip it and
return a value. Both are specified by the list alone:

* `Sink.Emits W m xs a`: with room for `xs`, `m` pushes `xs` and returns `a`;
* `Source.Takes R m xs a`: with `xs` ahead, `m` skips `xs` and returns `a`.

Both compose along `++` under `bind` (`Emits.bind`, `Takes.bind`), so a writer and a reader that
are built alike are matched piece by piece, without looking at the buffers again. Programs may
fail (the state monad is over `Option`); `Emits` and `Takes` say that they do not.
-/

namespace StreamProgram

variable {σ β α γ : Type}

/-- A sequence ran when both parts did. -/
theorem run_bind_inv {m : StateT σ Option α} {f : α → StateT σ Option γ} {s : σ} {r : γ × σ}
    (h : (m >>= f).run s = some r) : ∃ a t, m.run s = some (a, t) ∧ (f a).run t = some r := by
  rw [StateT.run_bind] at h
  obtain ⟨⟨a, t⟩, hm, hf⟩ := Option.bind_eq_some_iff.1 h
  exact ⟨a, t, hm, hf⟩

/-! ## Writers -/

/-- A state to which lists can be pushed while there is room. -/
structure Sink (σ β : Type) where
  /-- There is room for `n` more symbols. -/
  room : σ → ℕ → Prop
  /-- The state after pushing a list. -/
  push : σ → List β → σ
  push_nil : ∀ s, push s [] = s
  push_append : ∀ s xs ys, push s (xs ++ ys) = push (push s xs) ys
  room_mono : ∀ {s n m}, room s n → m ≤ n → room s m
  room_push : ∀ {s xs n}, room s (xs.length + n) → room (push s xs) n

namespace Sink

variable (W : Sink σ β)

/-- With room for `xs`, `m` pushes `xs` and returns `a`. -/
def Emits (m : StateT σ Option α) (xs : List β) (a : α) : Prop :=
  ∀ s, W.room s xs.length → m.run s = some (a, W.push s xs)

variable {W}

theorem Emits.pure (a : α) : W.Emits (pure a) [] a := by
  intro s _
  simp [StateT.run_pure, W.push_nil]

theorem Emits.bind {m : StateT σ Option α} {f : α → StateT σ Option γ} {xs ys : List β} {a : α}
    {c : γ} (hm : W.Emits m xs a) (hf : W.Emits (f a) ys c) : W.Emits (m >>= f) (xs ++ ys) c := by
  intro s hs
  rw [List.length_append] at hs
  rw [StateT.run_bind, hm s (W.room_mono hs (by omega)), W.push_append]
  exact hf _ (W.room_push hs)

/-- A program that looks at the state may use that there is room. -/
theorem Emits.get_bind {f : σ → StateT σ Option γ} {xs : List β} {c : γ}
    (h : ∀ s, W.room s xs.length → W.Emits (f s) xs c) : W.Emits (get >>= f) xs c := by
  intro s hs
  exact h s hs s hs

/-- Sequencing of two writers without a result. -/
theorem Emits.seq {m : StateT σ Option Unit} {n : StateT σ Option γ} {xs ys : List β} {c : γ}
    (hm : W.Emits m xs ()) (hn : W.Emits n ys c) : W.Emits (do m; n) (xs ++ ys) c :=
  hm.bind hn

/-- A writer that runs only under a condition. -/
theorem Emits.ite {p : Prop} [Decidable p] {m : StateT σ Option Unit} {xs : List β} (hm : p → W.Emits m xs ()) :
    W.Emits (if p then m else Pure.pure ()) (if p then xs else []) () := by
  by_cases h : p
  · simpa only [if_pos h] using hm h
  · simpa only [if_neg h] using Emits.pure ()

/-- A choice between two writers. -/
theorem Emits.cond {p : Prop} [Decidable p] {m n : StateT σ Option γ} {xs ys : List β} {c : γ}
    (hm : p → W.Emits m xs c) (hn : ¬p → W.Emits n ys c) :
    W.Emits (if p then m else n) (if p then xs else ys) c := by
  by_cases h : p
  · simpa only [if_pos h] using hm h
  · simpa only [if_neg h] using hn h

/-- Writing a list of items one after the other. -/
theorem Emits.forM {ι : Type} {f : ι → StateT σ Option Unit} {g : ι → List β} :
    ∀ l : List ι, (∀ i ∈ l, W.Emits (f i) (g i) ()) → W.Emits (l.forM f) (l.flatMap g) ()
  | [], _ => Emits.pure ()
  | i :: l, h => by
    rw [List.flatMap_cons]
    exact (h i (by simp)).bind (Emits.forM l fun j hj => h j (by simp [hj]))

/-- The states of a sink that have a property which pushing keeps. -/
def restrict (W : Sink σ β) (P : σ → Prop) (hP : ∀ s xs, P s → P (W.push s xs)) : Sink σ β where
  room s n := P s ∧ W.room s n
  push := W.push
  push_nil := W.push_nil
  push_append := W.push_append
  room_mono h hm := ⟨h.1, W.room_mono h.2 hm⟩
  room_push h := ⟨hP _ _ h.1, W.room_push h.2⟩

theorem Emits.restrict {P : σ → Prop} {hP : ∀ s xs, P s → P (W.push s xs)}
    {m : StateT σ Option α} {xs : List β} {a : α} (h : W.Emits m xs a) :
    (W.restrict P hP).Emits m xs a :=
  fun s hs => h s hs.2

end Sink

/-! ## Readers -/

/-- A state with a cursor, and the lists that may lie ahead of it. -/
structure Source (σ β : Type) where
  /-- Exactly `xs` is left to read. -/
  ahead : σ → List β → Prop
  /-- The state with the cursor moved on by `n` symbols. -/
  skip : σ → ℕ → σ
  skip_zero : ∀ s, skip s 0 = s
  skip_add : ∀ s m n, skip s (m + n) = skip (skip s m) n
  ahead_skip : ∀ {s xs ys}, ahead s (xs ++ ys) → ahead (skip s xs.length) ys

namespace Source

variable (R : Source σ β)

/-- With `xs` ahead, whatever follows it, `m` skips `xs` and returns `a`. -/
def Takes (m : StateT σ Option α) (xs : List β) (a : α) : Prop :=
  ∀ s ys, R.ahead s (xs ++ ys) → m.run s = some (a, R.skip s xs.length)

variable {R}

theorem Takes.pure (a : α) : R.Takes (pure a) [] a := by
  intro s ys _
  simp [StateT.run_pure, R.skip_zero]

theorem Takes.bind {m : StateT σ Option α} {f : α → StateT σ Option γ} {xs ys : List β} {a : α}
    {c : γ} (hm : R.Takes m xs a) (hf : R.Takes (f a) ys c) : R.Takes (m >>= f) (xs ++ ys) c := by
  intro s zs hs
  rw [List.append_assoc] at hs
  rw [StateT.run_bind, hm s _ hs, List.length_append, R.skip_add]
  exact hf _ zs (R.ahead_skip hs)

/-- A program that looks at the state may use what the list ahead says about it. -/
theorem Takes.get_bind {f : σ → StateT σ Option γ} {xs : List β} {c : γ}
    (h : ∀ s ys, R.ahead s (xs ++ ys) → R.Takes (f s) xs c) : R.Takes (get >>= f) xs c := by
  intro s ys hs
  exact h s ys hs s ys hs

theorem Takes.map {m : StateT σ Option α} {xs : List β} {a : α} (f : α → γ) (hm : R.Takes m xs a) :
    R.Takes (f <$> m) xs (f a) := by
  intro s ys hs
  rw [StateT.run_map, hm s ys hs]
  rfl

/-- An injective map of the result loses nothing about the reader. -/
theorem Takes.map_iff {m : StateT σ Option α} {xs : List β} {a : α} {f : α → γ}
    (hf : Function.Injective f) : R.Takes (f <$> m) xs (f a) ↔ R.Takes m xs a := by
  refine ⟨fun h s ys hs => ?_, Takes.map f⟩
  have e := h s ys hs
  rw [StateT.run_map] at e
  obtain ⟨⟨a', s'⟩, hm, he⟩ := Option.map_eq_some_iff.1 e
  obtain ⟨ha, rfl⟩ := Prod.mk.inj he
  have ha' : a' = a := hf ha
  rw [hm, ha']

/-- Reading a list of items one after the other. -/
theorem Takes.mapM {ι : Type} {f : ι → StateT σ Option α} {g : ι → List β} {v : ι → α} :
    ∀ l : List ι, (∀ i ∈ l, R.Takes (f i) (g i) (v i)) → R.Takes (l.mapM f) (l.flatMap g) (l.map v)
  | [], _ => by
    rw [List.mapM_nil]
    exact Takes.pure []
  | i :: l, h => by
    rw [List.mapM_cons, List.flatMap_cons, List.map_cons]
    refine (h i (by simp)).bind ?_
    have hl := Takes.mapM l fun j hj => h j (by simp [hj])
    rw [← List.append_nil (l.flatMap g)]
    exact hl.bind (Takes.pure (v i :: l.map v))

/-- The states of a source that have a property which moving the cursor keeps. -/
def restrict (R : Source σ β) (P : σ → Prop) (hP : ∀ s n, P s → P (R.skip s n)) : Source σ β where
  ahead s xs := P s ∧ R.ahead s xs
  skip := R.skip
  skip_zero := R.skip_zero
  skip_add := R.skip_add
  ahead_skip h := ⟨hP _ _ h.1, R.ahead_skip h.2⟩

theorem Takes.restrict {P : σ → Prop} {hP : ∀ s n, P s → P (R.skip s n)} {m : StateT σ Option α}
    {xs : List β} {a : α} (h : R.Takes m xs a) : (R.restrict P hP).Takes m xs a :=
  fun s ys hs => h s ys hs.2

end Source

end StreamProgram
