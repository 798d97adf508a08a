import FteQuake.Common.Sizebuf
import Mathlib.Data.List.Infix

/-!
# Cleaning up paths

`COM_CleanUpPath` of `common.c`. It works in place on a terminated string and only moves the rest of
the string towards its start, so a function from strings to strings.

What it leaves has no backslash, no `..`, no slash at its start and no two slashes in a row
(`sanitised_cleanUpPath`), and it leaves such strings alone. Each pass keeps what the passes before
it achieved: a pair of characters next to each other in its result was one before
(`pair_of_collapse`), except where `..` is cut out, and that pass runs until there is none.

The slash that the pass for `..` looks for is the one in front of the dots. So `a/../b` becomes
`a/b`: of a component and `..` only `..` goes (`cleanUpPath_join`).
-/

namespace FteQuake

open List

namespace CleanUpPath

def slash : QByte := 0x2f

def backslash : QByte := 0x5c

def dot : QByte := 0x2e

/-! ## The function -/

/-- The pass over the backslashes. -/
def forwardSlashes (str : List QByte) : List QByte := str.map fun c => if c = backslash then slash else c

/-- `strstr (str, "..")`. -/
def strstrDots : List QByte → Option ℕ
  | [] => none
  | c :: str => if c = dot ∧ str.head? = some dot then some 0 else (strstrDots str).map (· + 1)

/-- The last slash in front of a place. -/
def lastSlash (str : List QByte) : ℕ → Option ℕ
  | 0 => none
  | n + 1 => if str[n]? = some slash then some n else lastSlash str n

theorem lastSlash_lt {str : List QByte} {n k : ℕ} (h : lastSlash str n = some k) : k < n := by
  induction n with
  | zero => cases h
  | succ n ih =>
    unfold lastSlash at h
    split at h
    · cases h
      omega
    · exact (ih h).trans (Nat.lt_succ_self n)

theorem strstrDots_lt {str : List QByte} {i : ℕ} (h : strstrDots str = some i) : i + 1 < str.length := by
  induction str generalizing i with
  | nil => cases h
  | cons c str ih =>
    unfold strstrDots at h
    split at h
    · rename_i hdots
      cases h
      cases str with
      | nil => cases hdots.2
      | cons d str => simp
    · obtain ⟨j, hj, rfl⟩ := Option.map_eq_some_iff.1 h
      have := ih hj
      rw [length_cons]
      omega

/-- A string without the `..` at a place and what is between them and the slash in front of them. -/
def cutDots (str : List QByte) (dots : ℕ) : List QByte :=
  match lastSlash str dots with
  | some slash => str.take slash ++ str.drop (dots + 2)
  | none => str.take dots ++ str.drop (dots + 2)

theorem length_cutDots_lt {str : List QByte} {dots : ℕ} (h : strstrDots str = some dots) :
    (cutDots str dots).length < str.length := by
  have hlt := strstrDots_lt h
  unfold cutDots
  split
  · rename_i k hk
    have hle := lastSlash_lt hk
    rw [length_append, length_take, length_drop]
    omega
  · rw [length_append, length_take, length_drop]
    omega

/-- The pass over the `..`. -/
def removeDots (str : List QByte) : List QByte :=
  match _h : strstrDots str with
  | none => str
  | some dots => removeDots (cutDots str dots)
termination_by str.length
decreasing_by exact length_cutDots_lt ‹_›

/-- The pass over the slashes at the start. -/
def stripSlashes : List QByte → List QByte
  | [] => []
  | c :: str => if c = slash then stripSlashes str else c :: str

/-- The pass over slashes in a row, of which it keeps the last. -/
def collapse : List QByte → List QByte
  | [] => []
  | c :: str => if c = slash ∧ str.head? = some slash then collapse str else c :: collapse str

/-- `COM_CleanUpPath`. -/
def comCleanUpPath (str : List QByte) : List QByte :=
  collapse (stripSlashes (removeDots (forwardSlashes str)))

/-- A path that is in order. -/
structure Sanitised (str : List QByte) : Prop where
  backslash : backslash ∉ str
  dots : ¬[dot, dot] <:+: str
  absolute : str.head? ≠ some slash
  double : ¬[slash, slash] <:+: str

/-! ## Pairs of characters -/

section Passes

variable {a b c : QByte} {str s t : List QByte}

theorem pair_infix_cons :
    [a, b] <:+: c :: str ↔ (c = a ∧ str.head? = some b) ∨ [a, b] <:+: str := by
  rw [infix_cons_iff, cons_prefix_cons]
  refine or_congr_left (and_congr eq_comm ?_)
  cases str with
  | nil => simp
  | cons d str => simp [eq_comm]

theorem strstrDots_eq_none : strstrDots str = none ↔ ¬[dot, dot] <:+: str := by
  induction str with
  | nil => simp [strstrDots]
  | cons c str ih =>
    rw [strstrDots, pair_infix_cons, not_or]
    split
    · rename_i h
      simp [h]
    · rename_i h
      rw [Option.map_eq_none_iff, ih]
      exact ⟨fun hstr => ⟨h, hstr⟩, And.right⟩

/-- The first `..` of a string. -/
theorem strstrDots_append (h : ¬[dot, dot] <:+: s ++ [dot]) :
    strstrDots (s ++ dot :: dot :: t) = some s.length := by
  induction s with
  | nil => rfl
  | cons c s ih =>
    rw [cons_append, pair_infix_cons, not_or] at h
    have hhead : (s ++ dot :: dot :: t).head? = (s ++ [dot]).head? := by
      cases s <;> rfl
    rw [cons_append, strstrDots, hhead, if_neg h.1, ih h.2]
    rfl

/-! ## The passes -/

theorem backslash_notMem_forwardSlashes : backslash ∉ forwardSlashes str := by
  intro h
  obtain ⟨c, -, hc⟩ := List.mem_map.1 h
  split at hc
  · exact absurd hc (by decide)
  · rename_i hne
    exact hne hc

theorem forwardSlashes_of_notMem (h : backslash ∉ str) : forwardSlashes str = str := by
  refine (map_congr_left fun c hc => ?_).trans (map_id str)
  rw [if_neg]
  · rfl
  · rintro rfl
    exact h hc

theorem removeDots_of_none (h : ¬[dot, dot] <:+: str) : removeDots str = str := by
  have hnone := strstrDots_eq_none.2 h
  rw [removeDots]
  split
  · rfl
  · rename_i heq
    rw [hnone] at heq
    cases heq

theorem removeDots_of_some {dots : ℕ} (h : strstrDots str = some dots) :
    removeDots str = removeDots (cutDots str dots) := by
  rw [removeDots]
  split
  · rename_i heq
    rw [h] at heq
    cases heq
  · rename_i heq
    rw [h] at heq
    cases heq
    rfl

theorem cutDots_subset (str : List QByte) (dots : ℕ) : cutDots str dots ⊆ str := by
  unfold cutDots
  split <;> exact List.append_subset.2 ⟨take_subset _ _, drop_subset _ _⟩

/-- The pass runs until there is no `..`, and leaves characters of the string. -/
theorem removeDots_spec (str : List QByte) : ¬[dot, dot] <:+: removeDots str ∧ removeDots str ⊆ str := by
  induction str using removeDots.induct with
  | case1 str h =>
    have hnone := strstrDots_eq_none.1 h
    rw [removeDots_of_none hnone]
    exact ⟨hnone, List.Subset.refl _⟩
  | case2 str dots h ih =>
    rw [removeDots_of_some h]
    exact ⟨ih.1, List.Subset.trans ih.2 (cutDots_subset str dots)⟩

theorem stripSlashes_suffix (str : List QByte) : stripSlashes str <:+ str := by
  induction str with
  | nil => exact suffix_rfl
  | cons c str ih =>
    unfold stripSlashes
    split
    · exact ih.trans (suffix_cons c str)
    · exact suffix_rfl

theorem head_stripSlashes (str : List QByte) : (stripSlashes str).head? ≠ some slash := by
  induction str with
  | nil => exact nofun
  | cons c str ih =>
    unfold stripSlashes
    split
    · exact ih
    · rename_i hc
      exact fun h => hc (Option.some.inj h)

theorem stripSlashes_of_head (h : str.head? ≠ some slash) : stripSlashes str = str := by
  cases str with
  | nil => rfl
  | cons c str => exact if_neg fun hc => h (congrArg some hc)

theorem head_collapse (str : List QByte) : (collapse str).head? = str.head? := by
  induction str with
  | nil => rfl
  | cons c str ih =>
    unfold collapse
    split
    · rename_i h
      rw [ih, h.2, h.1]
      rfl
    · rfl

/-- No pair is new after slashes are left out. -/
theorem pair_of_collapse (h : [a, b] <:+: collapse str) : [a, b] <:+: str := by
  induction str with
  | nil => exact h
  | cons c str ih =>
    unfold collapse at h
    split at h
    · exact (ih h).trans (suffix_cons c str).isInfix
    · rw [pair_infix_cons, head_collapse] at h
      exact pair_infix_cons.2 (h.imp_right ih)

theorem double_collapse (str : List QByte) : ¬[slash, slash] <:+: collapse str := by
  induction str with
  | nil => simp [collapse]
  | cons c str ih =>
    unfold collapse
    split
    · exact ih
    · rename_i h
      rw [pair_infix_cons, head_collapse]
      exact fun hpair => hpair.elim h ih

theorem collapse_subset (str : List QByte) : collapse str ⊆ str := by
  induction str with
  | nil => exact List.Subset.refl _
  | cons c str ih =>
    unfold collapse
    split
    · exact List.Subset.trans ih (subset_cons_self c str)
    · exact cons_subset_cons c ih

theorem collapse_of_none (h : ¬[slash, slash] <:+: str) : collapse str = str := by
  induction str with
  | nil => rfl
  | cons c str ih =>
    rw [pair_infix_cons, not_or] at h
    rw [collapse, if_neg h.1, ih h.2]

/-- **Every path is put in order.** -/
theorem sanitised_cleanUpPath (str : List QByte) : Sanitised (comCleanUpPath str) := by
  have hdots := (removeDots_spec (forwardSlashes str)).1
  have hstrip := stripSlashes_suffix (removeDots (forwardSlashes str))
  constructor
  · intro h
    exact backslash_notMem_forwardSlashes ((removeDots_spec _).2 (hstrip.subset (collapse_subset _ h)))
  · exact fun h => hdots ((pair_of_collapse h).trans hstrip.isInfix)
  · unfold comCleanUpPath
    rw [head_collapse]
    exact head_stripSlashes _
  · exact double_collapse _

/-- **A path in order stays as it is.** -/
theorem cleanUpPath_of_sanitised (h : Sanitised str) : comCleanUpPath str = str := by
  unfold comCleanUpPath
  rw [forwardSlashes_of_notMem h.backslash, removeDots_of_none h.dots, stripSlashes_of_head h.absolute,
    collapse_of_none h.double]

end Passes

/-! ## Relative paths -/

/-- The component `..`. -/
def dotdot : List QByte := [dot, dot]

/-- A component that is the name of something. -/
structure Ordinary (c : List QByte) : Prop where
  ne_nil : c ≠ []
  slash : slash ∉ c
  backslash : backslash ∉ c
  zero : 0 ∉ c
  dots : ¬[dot, dot] <:+: c

/-- The path of components. -/
def join (cs : List (List QByte)) : List QByte := [slash].intercalate cs

/-- Components of which each `..` follows an ordinary one that no other `..` takes, behind `depth` that
none has taken. -/
def Relative : ℕ → List (List QByte) → Prop
  | _, [] => True
  | depth, c :: cs =>
    (c = dotdot ∧ 0 < depth ∧ Relative (depth - 1) cs) ∨ (Ordinary c ∧ Relative (depth + 1) cs)

/-- The components that are left when every `..` is taken away with the one it follows; `st` are those
before, the last first. -/
def resolve (st : List (List QByte)) : List (List QByte) → List (List QByte)
  | [] => st.reverse
  | c :: cs => if c = dotdot then resolve st.tail cs else resolve (c :: st) cs

section Relative

variable {c : List QByte} {cs os : List (List QByte)} {depth : ℕ} {s t : List QByte}

theorem Ordinary.ne_dotdot (h : Ordinary c) : c ≠ dotdot := by
  rintro rfl
  exact h.dots infix_rfl

theorem join_cons (c : List QByte) (hcs : cs ≠ []) : join (c :: cs) = c ++ slash :: join cs := by
  rw [join, intercalate_cons_of_ne_nil hcs, append_assoc]
  rfl

theorem join_append (hos : os ≠ []) (hcs : cs ≠ []) : join (os ++ cs) = join os ++ slash :: join cs := by
  induction os with
  | nil => exact absurd rfl hos
  | cons o os ih =>
    rw [cons_append, join_cons _ (by simp [hcs])]
    rcases eq_or_ne os [] with rfl | hne
    · rw [nil_append, join, join, intercalate_singleton]
    · rw [ih hne, join_cons _ hne, append_assoc, cons_append]

/-- A pair without a slash in a path lies in one of two parts around a slash. -/
theorem pair_append_slash {a b : QByte} (ha : a ≠ slash) (hb : b ≠ slash) :
    [a, b] <:+: s ++ slash :: t ↔ [a, b] <:+: s ∨ [a, b] <:+: t := by
  induction s with
  | nil =>
    rw [nil_append, pair_infix_cons]
    constructor
    · rintro (⟨h, -⟩ | h)
      · exact absurd h.symm ha
      · exact .inr h
    · rintro (h | h)
      · exact absurd h (by simp)
      · exact .inr h
  | cons d s ih =>
    rw [cons_append, pair_infix_cons, ih, pair_infix_cons, or_assoc]
    refine or_congr_left (and_congr_right fun _ => ?_)
    cases s with
    | nil => simp [hb.symm]
    | cons e s => rfl

theorem dot_ne_slash : dot ≠ slash := by decide

/-- A path of ordinary components has no `..`. -/
theorem not_dots_join (h : ∀ o ∈ os, Ordinary o) : ¬[dot, dot] <:+: join os := by
  induction os with
  | nil => simp [join]
  | cons o os ih =>
    rw [forall_mem_cons] at h
    rcases eq_or_ne os [] with rfl | hne
    · rw [join, intercalate_singleton]
      exact h.1.dots
    · rw [join_cons _ hne, pair_append_slash dot_ne_slash dot_ne_slash]
      exact fun hpair => hpair.elim h.1.dots (ih h.2)

/-- Of a component and a `..` behind it, the pass takes away `..`. -/
theorem removeDots_dotdot (hs : ¬[dot, dot] <:+: s) :
    removeDots (s ++ slash :: dot :: dot :: t) = removeDots (s ++ t) := by
  have hfirst : strstrDots ((s ++ [slash]) ++ dot :: dot :: t) = some (s ++ [slash]).length := by
    refine strstrDots_append ?_
    rw [append_assoc, singleton_append, pair_append_slash dot_ne_slash dot_ne_slash]
    exact fun h => h.elim hs (by simp [pair_infix_cons])
  rw [append_assoc, singleton_append, length_append, length_singleton] at hfirst
  have hlast : lastSlash (s ++ slash :: dot :: dot :: t) (s.length + 1) = some s.length := by
    rw [lastSlash, if_pos (by simp)]
  rw [removeDots_of_some hfirst, cutDots, hlast]
  simp only
  rw [take_left, show s.length + 1 + 2 = s.length + 3 from rfl, ← drop_drop, drop_left]
  rfl

/-- **The pass takes away each `..` and nothing else**, behind an ordinary component. -/
theorem removeDots_join (hcs : ∀ c ∈ cs, c = dotdot ∨ Ordinary c) (hos : ∀ o ∈ os, Ordinary o) (hne : os ≠ []) :
    removeDots (join (os ++ cs)) = join (os ++ cs.filter (· ≠ dotdot)) := by
  induction cs generalizing os with
  | nil =>
    rw [filter_nil, append_nil]
    exact removeDots_of_none (not_dots_join hos)
  | cons c cs ih =>
    rw [forall_mem_cons] at hcs
    rcases hcs.1 with rfl | hc
    · have hcut : removeDots (join (os ++ dotdot :: cs)) = removeDots (join (os ++ cs)) := by
        rcases eq_or_ne cs [] with rfl | hcs'
        · have hjoin : join (os ++ [dotdot]) = join os ++ slash :: dot :: dot :: [] := by
            rw [join_append hne (by simp)]
            rfl
          rw [hjoin, removeDots_dotdot (not_dots_join hos), append_nil, append_nil]
        · have hjoin : join (os ++ dotdot :: cs) = join os ++ slash :: dot :: dot :: (slash :: join cs) := by
            rw [join_append hne (by simp), join_cons _ hcs']
            rfl
          rw [hjoin, removeDots_dotdot (not_dots_join hos), join_append hne hcs']
      rw [hcut, ih hcs.2 hos hne, filter_cons_of_neg (by simp)]
    · rw [filter_cons_of_pos (by simpa using hc.ne_dotdot), ← singleton_append, ← append_assoc,
        ih hcs.2 _ (by simp), append_assoc, singleton_append]
      intro o ho
      rcases List.mem_append.1 ho with ho | ho
      · exact hos o ho
      · rw [List.mem_singleton.1 ho]
        exact hc

/-- Two slashes in a row in a path whose first component has none. -/
theorem double_append_slash (hs : slash ∉ s) :
    [slash, slash] <:+: s ++ slash :: t ↔ t.head? = some slash ∨ [slash, slash] <:+: t := by
  induction s with
  | nil =>
    rw [nil_append, pair_infix_cons]
    simp
  | cons d s ih =>
    rw [mem_cons, not_or] at hs
    rw [cons_append, pair_infix_cons, ih hs.2]
    constructor
    · rintro (⟨hd, -⟩ | h)
      · exact absurd hd.symm hs.1
      · exact h
    · exact .inr

theorem head_join (h : ∀ o ∈ os, Ordinary o) : (join os).head? ≠ some slash := by
  cases os with
  | nil => exact nofun
  | cons o os =>
    have ho := h o (.head _)
    have hhead : (join (o :: os)).head? = o.head? := by
      rcases eq_or_ne os [] with rfl | hne
      · rw [join, intercalate_singleton]
      · rw [join_cons _ hne, List.head?_append_of_ne_nil _ ho.ne_nil]
    rw [hhead]
    exact fun hslash => ho.slash (List.mem_of_mem_head? hslash)

/-- The characters of a path are those of its components, and slashes. -/
theorem notMem_join {x : QByte} (hx : x ≠ slash) (h : ∀ c ∈ cs, x ∉ c) : x ∉ join cs := by
  induction cs with
  | nil => simp [join]
  | cons c cs ih =>
    rw [forall_mem_cons] at h
    rcases eq_or_ne cs [] with rfl | hne
    · rw [join, intercalate_singleton]
      exact h.1
    · rw [join_cons _ hne, mem_append, mem_cons]
      rintro (hmem | hmem | hmem)
      · exact h.1 hmem
      · exact hx hmem
      · exact ih h.2 hmem

/-- A path of ordinary components is in order. -/
theorem sanitised_join (h : ∀ o ∈ os, Ordinary o) : Sanitised (join os) := by
  refine ⟨notMem_join (by decide) fun o ho => (h o ho).backslash, not_dots_join h, head_join h, ?_⟩
  induction os with
  | nil => simp [join]
  | cons o os ih =>
    rw [forall_mem_cons] at h
    rcases eq_or_ne os [] with rfl | hne
    · rw [join, intercalate_singleton]
      exact fun hpair => h.1.slash (hpair.subset (.head _))
    · rw [join_cons _ hne, double_append_slash h.1.slash]
      exact fun hpair => hpair.elim (head_join h.2) (ih h.2)

/-- Ordinary components are determined by their path. -/
theorem join_injective {os' : List (List QByte)} (h : ∀ o ∈ os, Ordinary o) (h' : ∀ o ∈ os', Ordinary o)
    (heq : join os = join os') : os = os' := by
  have hnil {os : List (List QByte)} (h : ∀ o ∈ os, Ordinary o) (hjoin : join os = []) : os = [] := by
    cases os with
    | nil => rfl
    | cons o os =>
      rcases eq_or_ne os [] with rfl | hne
      · rw [join, intercalate_singleton] at hjoin
        exact absurd hjoin (h o (.head _)).ne_nil
      · rw [join_cons _ hne] at hjoin
        exact absurd hjoin (by simp)
  rcases eq_or_ne os [] with rfl | hos
  · exact (hnil h' heq.symm).symm
  rcases eq_or_ne os' [] with rfl | hos'
  · exact hnil h heq
  rw [← splitOn_intercalate slash (fun o ho => (h o ho).slash) hos,
    ← splitOn_intercalate slash (fun o ho => (h' o ho).slash) hos']
  exact congrArg _ heq

theorem Relative.components (h : Relative depth cs) : ∀ c ∈ cs, c = dotdot ∨ Ordinary c := by
  induction cs generalizing depth with
  | nil => exact nofun
  | cons c cs ih =>
    rw [forall_mem_cons]
    rcases h with ⟨hc, -, hcs⟩ | ⟨hc, hcs⟩
    · exact ⟨.inl hc, ih hcs⟩
    · exact ⟨.inr hc, ih hcs⟩

theorem ordinary_of_filter (h : Relative depth cs) : ∀ o ∈ cs.filter (· ≠ dotdot), Ordinary o := by
  intro o ho
  rw [mem_filter] at ho
  exact (h.components o ho.1).resolve_left (of_decide_eq_true ho.2)

/-- **What becomes of a relative path**: every `..` is taken away, and nothing else. -/
theorem cleanUpPath_join (h : Relative 0 cs) : comCleanUpPath (join cs) = join (cs.filter (· ≠ dotdot)) := by
  have hordinary := ordinary_of_filter h
  have hremove : removeDots (join cs) = join (cs.filter (· ≠ dotdot)) := by
    cases cs with
    | nil => exact removeDots_of_none (by simp [join])
    | cons c cs =>
      rcases h with ⟨-, hlt, -⟩ | ⟨hc, hcs⟩
      · exact absurd hlt (lt_irrefl 0)
      · rw [filter_cons_of_pos (by simpa using hc.ne_dotdot)]
        exact removeDots_join hcs.components (by simpa using hc) (cons_ne_nil c [])
  have hforward : forwardSlashes (join cs) = join cs := by
    refine forwardSlashes_of_notMem (notMem_join (by decide) fun c hc => ?_)
    rcases h.components c hc with rfl | hc
    · decide
    · exact hc.backslash
  have hclean := sanitised_join hordinary
  unfold comCleanUpPath
  rw [hforward, hremove, stripSlashes_of_head hclean.absolute, collapse_of_none hclean.double]

theorem resolve_of_ordinary {s : List (List QByte)} (h : ∀ o ∈ os, Ordinary o) :
    resolve s os = s.reverse ++ os := by
  induction os generalizing s with
  | nil => rw [resolve, append_nil]
  | cons o os ih =>
    rw [forall_mem_cons] at h
    rw [resolve, if_neg h.1.ne_dotdot, ih h.2, reverse_cons, append_assoc, singleton_append]

/-- A `..` takes one component away. -/
theorem length_resolve {s : List (List QByte)} (h : Relative s.length cs) :
    (resolve s cs).length + cs.count dotdot = s.length + (cs.filter (· ≠ dotdot)).length := by
  induction cs generalizing s with
  | nil => simp [resolve]
  | cons c cs ih =>
    rcases h with ⟨rfl, hpos, hcs⟩ | ⟨hc, hcs⟩
    · have := ih (s := s.tail) (by rwa [length_tail])
      rw [length_tail] at this
      rw [resolve, if_pos rfl, count_cons_self, filter_cons_of_neg (by simp)]
      omega
    · have := ih (s := c :: s) hcs
      rw [resolve, if_neg hc.ne_dotdot, count_cons_of_ne hc.ne_dotdot, filter_cons_of_pos (by simpa using hc.ne_dotdot)]
      simp only [length_cons] at this ⊢
      omega

theorem ordinary_resolve {s : List (List QByte)} (hs : ∀ o ∈ s, Ordinary o) (h : Relative depth cs) :
    ∀ o ∈ resolve s cs, Ordinary o := by
  induction cs generalizing s depth with
  | nil => simpa [resolve] using hs
  | cons c cs ih =>
    rw [resolve]
    rcases h with ⟨rfl, -, hcs⟩ | ⟨hc, hcs⟩
    · rw [if_pos rfl]
      exact ih (fun o ho => hs o (mem_of_mem_tail ho)) hcs
    · rw [if_neg hc.ne_dotdot]
      exact ih (List.forall_mem_cons.2 ⟨hc, hs⟩) hcs

end Relative

/-- **`COM_CleanUpPath`** puts every path in order and leaves such paths alone. Of a relative path it
takes the pairs of a component and `..` away exactly when there are none. -/
theorem cleanUpPath_spec (str : List QByte) :
    Sanitised (comCleanUpPath str) ∧ comCleanUpPath (comCleanUpPath str) = comCleanUpPath str ∧
      ∀ cs, Relative 0 cs → join cs = str →
        (comCleanUpPath str = join (resolve [] cs) ↔ dotdot ∉ cs) := by
  refine ⟨sanitised_cleanUpPath str, cleanUpPath_of_sanitised (sanitised_cleanUpPath str), ?_⟩
  rintro cs hcs rfl
  rw [cleanUpPath_join hcs]
  constructor
  · intro heq hmem
    have hsame := join_injective (ordinary_of_filter hcs) (ordinary_resolve (s := []) (by simp) hcs) heq
    have hlength := length_resolve (s := []) hcs
    rw [← hsame, List.length_nil] at hlength
    have hpos := List.count_pos_iff.2 hmem
    omega
  · intro hmem
    have hall : cs.filter (· ≠ dotdot) = cs := by
      refine List.filter_eq_self.2 fun c hc => decide_eq_true ?_
      rintro rfl
      exact hmem hc
    have hordinary := ordinary_of_filter hcs
    rw [hall] at hordinary ⊢
    rw [resolve_of_ordinary hordinary]
    rfl

theorem ordinary_letter {c : QByte} (hslash : c ≠ slash) (hback : c ≠ backslash) (hzero : c ≠ 0) :
    Ordinary [c] :=
  ⟨cons_ne_nil c [], by simpa using hslash.symm, by simpa using hback.symm, by simpa using hzero.symm,
    by simp [pair_infix_cons]⟩

theorem cleanUpPath_spec_names :
    comCleanUpPath [0x61, 0x2f, 0x62] = join (resolve [] [[0x61], [0x62]]) :=
  ((cleanUpPath_spec [0x61, 0x2f, 0x62]).2.2 [[0x61], [0x62]]
    (.inr ⟨ordinary_letter (by decide) (by decide) (by decide),
      .inr ⟨ordinary_letter (by decide) (by decide) (by decide), trivial⟩⟩) rfl).2 (by decide)

/-- **The component in front of `..` stays**: `a/../b` becomes `a/b`. -/
theorem cleanUpPath_keeps :
    ¬∀ str : List QByte, Sanitised (comCleanUpPath str) ∧
      comCleanUpPath (comCleanUpPath str) = comCleanUpPath str ∧
      ∀ cs, Relative 0 cs → join cs = str → comCleanUpPath str = join (resolve [] cs) := by
  intro h
  have hcs : Relative 0 [[0x61], dotdot, [0x62]] :=
    .inr ⟨ordinary_letter (by decide) (by decide) (by decide),
      .inl ⟨rfl, Nat.one_pos, .inr ⟨ordinary_letter (by decide) (by decide) (by decide), trivial⟩⟩⟩
  have heq := (h _).2.2 _ hcs rfl
  rw [cleanUpPath_join hcs] at heq
  exact absurd heq (by decide)

end CleanUpPath

end FteQuake
