import Mathlib.Data.List.Chain
import Mathlib.Data.Nat.Init
import Mathlib.Tactic.Common

/-!
# Operators with priorities

A chain is an operand, and operators with an operand behind each. It is evaluated priority by priority, the
lowest first, where the operators of a priority are applied from the left (`left`) or from the right (`right`).

A parser that climbs priorities and goes on at the same priority behind an operator applies from the right:
`right_succ_nil`, `right_succ_stop` and `right_succ_apply` say what one of its calls adds to that of the priority
below. Both evaluations agree where operators of equal priority that come next to each other associate
(`left_eq_right`).
-/

namespace Precedence

open List

variable {α ω : Type*} (pri : ω → ℕ) (apply : ω → α → α → α)

/-- The operators of priority `p` are applied from the left. -/
def leftPass (p : ℕ) : α → List (ω × α) → α × List (ω × α)
  | a, [] => (a, [])
  | a, (o, b) :: r =>
    if pri o = p then leftPass p (apply o a b) r else (a, (o, (leftPass p b r).1) :: (leftPass p b r).2)

/-- The operators of priority `p` are applied from the right. -/
def rightPass (p : ℕ) : α → List (ω × α) → α × List (ω × α)
  | a, [] => (a, [])
  | a, (o, b) :: r =>
    if pri o = p then (apply o a (rightPass p b r).1, (rightPass p b r).2)
    else (a, (o, (rightPass p b r).1) :: (rightPass p b r).2)

/-- The operators of the priorities below `n` are applied, from the left where they are equal. -/
def left : (n : ℕ) → α × List (ω × α) → α × List (ω × α)
  | 0, c => c
  | n + 1, c => leftPass pri apply n (left n c).1 (left n c).2

/-- The operators of the priorities below `n` are applied, from the right where they are equal. -/
def right : (n : ℕ) → α × List (ω × α) → α × List (ω × α)
  | 0, c => c
  | n + 1, c => rightPass pri apply n (right n c).1 (right n c).2

/-- The operands behind operators, with the operators of the priorities below `n` applied. -/
def rest (n : ℕ) : List (ω × α) → List (ω × α)
  | [] => []
  | (o, b) :: r => (o, (right pri apply n (b, r)).1) :: (right pri apply n (b, r)).2

/-- `(a o b) o' c` is `a o (b o' c)`. -/
def Associate (o o' : ω) : Prop := ∀ a b c, apply o' (apply o a b) c = apply o a (apply o' b c)

/-- Operators of equal priority that come next to each other, with tighter ones at most between them, associate. -/
def Associates (os : List ω) : Prop :=
  ∀ p, (os.filter (p ≤ pri ·)).IsChain fun o o' => pri o = p → pri o' = p → Associate apply o o'

variable {pri apply} {n p : ℕ} {a v : α} {c : α × List (ω × α)} {o : ω} {b : α} {r : List (ω × α)}

/-! ## The steps of a parser -/

theorem right_zero (a : α) (r : List (ω × α)) : right pri apply 0 (a, r) = (a, rest pri apply 0 r) := by
  cases r <;> rfl

theorem right_succ_nil (h : right pri apply n c = (v, [])) : right pri apply (n + 1) c = (v, []) := by
  rw [right, h]
  rfl

theorem right_succ_stop (h : right pri apply n c = (v, rest pri apply n ((o, b) :: r))) (ho : pri o ≠ n) :
    right pri apply (n + 1) c = (v, rest pri apply (n + 1) ((o, b) :: r)) := by
  rw [right, h, rest, rightPass, if_neg ho]
  rfl

theorem right_succ_apply (h : right pri apply n c = (v, rest pri apply n ((o, b) :: r))) (ho : pri o = n) :
    right pri apply (n + 1) c =
      (apply o v (right pri apply (n + 1) (b, r)).1, (right pri apply (n + 1) (b, r)).2) := by
  rw [right, h, rest, rightPass, if_pos ho]
  rfl

/-! ## The operators that are left -/

theorem map_fst_rightPass (p : ℕ) (a : α) (r : List (ω × α)) :
    (rightPass pri apply p a r).2.map Prod.fst = (r.map Prod.fst).filter (pri · ≠ p) := by
  induction r generalizing a with
  | nil => rfl
  | cons x r ih =>
    rw [rightPass, map_cons]
    by_cases hp : pri x.1 = p
    · rw [if_pos hp, filter_cons_of_neg (by simpa using hp)]
      exact ih _
    · rw [if_neg hp, filter_cons_of_pos (by simpa using hp), map_cons, ih]

theorem map_fst_right (n : ℕ) (c : α × List (ω × α)) :
    (right pri apply n c).2.map Prod.fst = (c.2.map Prod.fst).filter (n ≤ pri ·) := by
  induction n with
  | zero => exact (filter_eq_self.mpr fun _ _ => decide_eq_true (Nat.zero_le _)).symm
  | succ n ih =>
    rw [right, map_fst_rightPass, ih, filter_filter]
    congr 1
    funext o
    rw [← Bool.decide_and, decide_eq_decide]
    omega

/-- No operator is left above the greatest priority. -/
theorem right_snd_eq_nil (h : ∀ o ∈ c.2.map Prod.fst, pri o < n) : (right pri apply n c).2 = [] := by
  refine map_eq_nil_iff.mp ((map_fst_right n c).trans (filter_eq_nil_iff.mpr fun o ho => ?_))
  simpa using h o ho

/-! ## From the left and from the right -/

theorem rightPass_apply (h : ∀ o' ∈ (r.map Prod.fst).head?, pri o' = p → Associate apply o o') :
    rightPass pri apply p (apply o a b) r =
      (apply o a (rightPass pri apply p b r).1, (rightPass pri apply p b r).2) := by
  cases r with
  | nil => rfl
  | cons x r =>
    rw [rightPass, rightPass]
    by_cases hp : pri x.1 = p
    · rw [if_pos hp, if_pos hp, h x.1 rfl hp]
    · rw [if_neg hp, if_neg hp]

theorem leftPass_eq (a : α) (r : List (ω × α))
    (h : (r.map Prod.fst).IsChain fun o o' => pri o = p → pri o' = p → Associate apply o o') :
    leftPass pri apply p a r = rightPass pri apply p a r := by
  induction r generalizing a with
  | nil => rfl
  | cons x r ih =>
    rw [map_cons] at h
    rw [leftPass, rightPass]
    by_cases hp : pri x.1 = p
    · rw [if_pos hp, if_pos hp, ih _ h.tail, rightPass_apply fun o' ho' => h.rel_head? ho' hp]
    · rw [if_neg hp, if_neg hp, ih _ h.tail]

/-- From the left and from the right the value is the same, where operators of equal priority associate. -/
theorem left_eq_right (n : ℕ) (h : Associates pri apply (c.2.map Prod.fst)) :
    left pri apply n c = right pri apply n c := by
  induction n with
  | zero => rfl
  | succ n ih => rw [left, right, ih, leftPass_eq _ _ (by rw [map_fst_right]; exact h n)]

/-! ## Operators next to a chain -/

theorem leftPass_cons_of_ne (ho : pri o ≠ p) : leftPass pri apply p a ((o, b) :: r) =
    (a, (o, (leftPass pri apply p b r).1) :: (leftPass pri apply p b r).2) := if_neg ho

theorem leftPass_cons_of_eq (ho : pri o = p) :
    leftPass pri apply p a ((o, b) :: r) = leftPass pri apply p (apply o a b) r := if_pos ho

/-- An operator of a greater priority is not applied. -/
theorem left_cons_of_le (ho : n ≤ pri o) :
    left pri apply n (a, (o, b) :: r) = (a, (o, (left pri apply n (b, r)).1) :: (left pri apply n (b, r)).2) := by
  induction n with
  | zero => rfl
  | succ n ih =>
    rw [left, ih (Nat.le_of_succ_le ho), leftPass_cons_of_ne (Nat.ne_of_gt ho)]
    rfl

/-- Where no operator of a priority comes next, the operand stays. -/
theorem leftPass_of_head (h : ∀ x ∈ r.head?, pri x.1 ≠ p) (a b : α) :
    leftPass pri apply p a r = (a, (leftPass pri apply p b r).2) := by
  cases r with
  | nil => rfl
  | cons x r => rw [leftPass_cons_of_ne (h x rfl), leftPass_cons_of_ne (h x rfl)]

theorem rightPass_of_head (h : ∀ x ∈ r.head?, pri x.1 ≠ p) (a b : α) :
    rightPass pri apply p a r = (a, (rightPass pri apply p b r).2) := by
  cases r with
  | nil => rfl
  | cons x r => rw [rightPass, rightPass, if_neg (h x rfl), if_neg (h x rfl)]

/-- An operator in front that associates with those of the priority may be applied last. -/
theorem leftPass_apply (h : ∀ x ∈ r, pri x.1 = p → Associate apply o x.1) (a b : α) :
    (leftPass pri apply p (apply o a b) r).1 = apply o a (leftPass pri apply p b r).1 := by
  induction r generalizing b with
  | nil => rfl
  | cons x r ih =>
    obtain ⟨o', c⟩ := x
    by_cases hp : pri o' = p
    · rw [leftPass_cons_of_eq hp, leftPass_cons_of_eq hp, h _ mem_cons_self hp]
      exact ih (fun x hx => h x (mem_cons_of_mem _ hx)) _
    · rw [leftPass_cons_of_ne hp, leftPass_cons_of_ne hp]

/-- What is left behind a pass was there before. -/
theorem mem_leftPass {x : ω × α} (hx : x ∈ (leftPass pri apply p a r).2) : x.1 ∈ r.map Prod.fst := by
  induction r generalizing a with
  | nil => cases hx
  | cons y r ih =>
    obtain ⟨o, b⟩ := y
    by_cases hp : pri o = p
    · rw [leftPass_cons_of_eq hp] at hx
      exact mem_cons_of_mem _ (ih hx)
    · rw [leftPass_cons_of_ne hp] at hx
      rcases mem_cons.mp hx with rfl | hx
      · exact mem_cons_self
      · exact mem_cons_of_mem _ (ih hx)

theorem mem_left {x : ω × α} (hx : x ∈ (left pri apply n c).2) : x.1 ∈ c.2.map Prod.fst := by
  induction n generalizing x with
  | zero => exact mem_map_of_mem hx
  | succ n ih =>
    obtain ⟨y, hy, hxy⟩ := mem_map.mp (mem_leftPass hx)
    exact hxy ▸ ih hy

end Precedence
