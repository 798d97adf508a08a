import Mathlib.Data.List.Infix

/-!
# Streaming decoders

A decoder takes input in pieces and gives output in pieces. A run of it is given some input and room
for some output; it says how much of the input it used, what it put out, and whether the stream has
ended. A format says which contents a stream of bytes stands for.

`Correct` is what a decoder for a format promises: on the streams of the format it goes on until the
input is used up or the room is, it stops exactly at the end of the stream, and it has put out the
contents by then. `Drains` is what it promises where there is no input: at the start of a stream, and
at its end.
-/

namespace StreamDecoder

/-- How a run of a decoder ends. -/
inductive Ret
  | ok
  | streamEnd
  | error
  deriving DecidableEq, Repr

/-- A run of a decoder. -/
structure Step (σ β : Type) where
  ret : Ret
  used : ℕ
  out : List β
  next : σ

/-- A decoder; the flag asks it to finish. -/
structure Decoder (σ β : Type) where
  init : σ
  run : σ → Bool → List β → ℕ → Step σ β

variable {σ β : Type}

/-- The states a decoder gets to before the stream ends, with what it used and what it put out. -/
inductive Fed (D : Decoder σ β) : σ → List β → List β → Prop
  | init : Fed D D.init [] []
  | run {s : σ} {x y : List β} (i : List β) (n : ℕ) (h : (D.run s false i n).ret = .ok) :
    Fed D s x y → Fed D (D.run s false i n).next (x ++ i.take (D.run s false i n).used)
      (y ++ (D.run s false i n).out)

/-- The runs that are right for the stream `d` of the contents `c`, after `x` was used and `y` was put
out, when the input is `i` and the room is `n`. -/
inductive Outcome (d c x y i : List β) (n : ℕ) : Step σ β → Prop
  | hungry (out : List β) (s : σ) (hx : x ++ i <+: d) (hy : y ++ out <+: c) (hn : out.length ≤ n) :
    Outcome d c x y i n ⟨.ok, i.length, out, s⟩
  | full (used : ℕ) (out : List β) (s : σ) (hx : x ++ i.take used <+: d) (hy : y ++ out <+: c)
    (hn : out.length = n) : Outcome d c x y i n ⟨.ok, used, out, s⟩
  | ended (used : ℕ) (out : List β) (s : σ) (hx : x ++ i.take used = d) (hy : y ++ out = c)
    (hn : out.length ≤ n) : Outcome d c x y i n ⟨.streamEnd, used, out, s⟩

/-- A decoder for a format. -/
structure Correct (D : Decoder σ β) (Decodes : List β → List β → Prop) : Prop where
  feed : ∀ {d c x y i : List β} {s : σ} {n : ℕ}, Decodes d c → Fed D s x y → x <+: d →
    (x ++ i <+: d ∨ d <+: x ++ i) → i ≠ [] → 0 < n → Outcome d c x y i n (D.run s false i n)
  ended : ∀ {s : σ} {f : Bool} {i : List β} {n : ℕ}, (D.run s f i n).ret = .streamEnd →
    ∀ f' i' n', D.run (D.run s f i n).next f' i' n' = ⟨.streamEnd, 0, [], (D.run s f i n).next⟩

/-- The states a decoder gets to without input. -/
inductive Starved (D : Decoder σ β) : σ → Prop
  | init : Starved D D.init
  | run {s : σ} (n : ℕ) (h : Starved D s) : Starved D (D.run s false [] n).next

/-- What a decoder does without input: it puts out nothing at the start of a stream, and at the end of
one what it still has, which are `k` bytes at most. -/
structure Drains (D : Decoder σ β) (Decodes : List β → List β → Prop) (k : ℕ) : Prop where
  starved : ∀ {s : σ}, Starved D s → ∀ n, (D.run s false [] n).out = []
  drain : ∀ {d c y : List β} {s : σ} {n : ℕ}, Decodes d c → Fed D s d y → k ≤ n →
    ∃ out t, D.run s false [] n = ⟨.streamEnd, 0, out, t⟩ ∧ y ++ out = c

/-! ## A decoder of one stream -/

/-- The decoder of one stream, with contents that fit whatever room there is. Its state is what it has
used. -/
def single (d c : List β) : Decoder ℕ β where
  init := 0
  run s _ i n :=
    if d.length ≤ s then ⟨.streamEnd, 0, [], s⟩
    else if s + i.length < d.length then ⟨.ok, i.length, [], s + i.length⟩
    else if n < c.length then ⟨.error, 0, [], s⟩
    else ⟨.streamEnd, d.length - s, c, d.length⟩

variable {d c x y : List β} {s : ℕ}

theorem Fed.single (hd : d ≠ []) (h : Fed (single d c) s x y) : s = x.length ∧ y = [] ∧ s < d.length := by
  induction h with
  | init => exact ⟨rfl, rfl, List.length_pos_of_ne_nil hd⟩
  | @run s x y i n hret hfed ih =>
    obtain ⟨rfl, rfl, hlt⟩ := ih
    by_cases hi : x.length + i.length < d.length
    · simp [StreamDecoder.single, hi, Nat.not_le.2 hlt]
    · simp only [StreamDecoder.single, if_neg (Nat.not_le.2 hlt), if_neg hi] at hret
      split at hret <;> cases hret

theorem single_correct (hd : d ≠ []) (hc : c.length ≤ 1) :
    Correct (single d c) fun d' c' => d' = d ∧ c' = c := by
  constructor
  · rintro d c x y i s n ⟨rfl, rfl⟩ hfed hx hcomp hi hn
    obtain ⟨rfl, rfl, hlt⟩ := hfed.single hd
    by_cases hlen : x.length + i.length < d.length
    · have hrun : (single d c).run x.length false i n = ⟨.ok, i.length, [], x.length + i.length⟩ := by
        simp [single, hlen, Nat.not_le.2 hlt]
      rw [hrun]
      refine .hungry [] _ (hcomp.resolve_right fun hpre => ?_) List.nil_prefix (Nat.zero_le n)
      have hle := hpre.length_le
      rw [List.length_append] at hle
      omega
    · have hrun : (single d c).run x.length false i n = ⟨.streamEnd, d.length - x.length, c, d.length⟩ := by
        simp [single, hlen, Nat.not_le.2 hlt, Nat.not_lt.2 (hc.trans hn)]
      rw [hrun]
      refine .ended _ _ _ ?_ rfl (hc.trans hn)
      have hdle : d <+: x ++ i := hcomp.elim
        (fun hpre => (hpre.eq_of_length_le (by rw [List.length_append]; omega)) ▸ List.prefix_refl _) id
      have htake : (x ++ i).take d.length = x ++ i.take (d.length - x.length) := by
        rw [List.take_append, List.take_of_length_le hlt.le]
      rw [← htake]
      exact (List.prefix_iff_eq_take.1 hdle).symm
  · intro s f i n hret f' i' n'
    have hnext : d.length ≤ ((single d c).run s f i n).next := by
      simp only [single] at hret ⊢
      split at hret
      · rename_i hle
        simp [hle]
      · rename_i hle
        split at hret
        · cases hret
        · rename_i hlt
          split at hret
          · cases hret
          · rename_i hroom
            simp [hle, hlt, hroom]
    simp only [single] at hnext ⊢
    rw [if_pos hnext]

theorem single_drains (hd : d ≠ []) (k : ℕ) :
    Drains (single d c) (fun d' c' => d' = d ∧ c' = c) k := by
  constructor
  · intro s hs n
    have hrun : ∀ n, (single d c).run 0 false [] n = ⟨.ok, 0, [], 0⟩ := fun n => by
      have hpos := List.length_pos_of_ne_nil hd
      simp [single, Nat.not_le.2 hpos, hpos]
    suffices hzero : s = 0 by rw [hzero, hrun]
    induction hs with
    | init => rfl
    | run n _ ih => rw [ih, hrun]
  · rintro d c y s n ⟨rfl, rfl⟩ hfed -
    obtain ⟨rfl, -, hlt⟩ := hfed.single hd
    exact absurd hlt (Nat.lt_irrefl _)

end StreamDecoder
