import Mathlib.Logic.Relation

/-!
# Flow graphs with silent jumps

A program as a graph of places. A place holds a silent jump, an event that ends the execution, an
event with two ways on, or nothing that belongs to the program. What the events do is a parameter:
`m e s` is the state after the event `e` in the state `s`, and which way is taken.

`Threaded G H` says that `H` is `G` with jumps moved along chains of silent jumps. Traces are the
same then, as long as the reachable events are (`trace_iff_of_threaded`), and only then
(`event_eq_of_trace`).
-/

/-- What a place of a flow graph holds. -/
inductive FlowNode (ι ε : Type)
  | silent (next : ι)
  | stop (e : ε)
  | step (e : ε) (next : Bool → ι)
  | out

/-- A flow graph. -/
def FlowGraph (ι ε : Type) := ι → FlowNode ι ε

namespace FlowGraph

variable {ι ε σ : Type} (G H : FlowGraph ι ε)

/-- The events of an execution up to some point, `none` for leaving the program. -/
inductive Trace (m : ε → σ → σ × Bool) : ι → σ → List (Option ε) → Prop
  | nil (i : ι) (s : σ) : Trace m i s []
  | silent {i j : ι} {s : σ} {tr : List (Option ε)} (h : G i = .silent j) :
    Trace m j s tr → Trace m i s tr
  | stop {i : ι} {e : ε} (s : σ) (h : G i = .stop e) : Trace m i s [some e]
  | step {i : ι} {e : ε} {next : Bool → ι} {s : σ} {tr : List (Option ε)}
    (h : G i = .step e next) : Trace m (next (m e s).2) (m e s).1 tr → Trace m i s (some e :: tr)
  | out {i : ι} (s : σ) (h : G i = .out) : Trace m i s [none]

/-- The places control can get to, each way of an event being possible. -/
inductive Reach (entry : ι) : ι → Prop
  | entry : Reach entry entry
  | silent {i j : ι} (h : G i = .silent j) : Reach entry i → Reach entry j
  | step {i : ι} {e : ε} {next : Bool → ι} (h : G i = .step e next) (d : Bool) :
    Reach entry i → Reach entry (next d)

/-- A silent jump. -/
def Jump (i j : ι) : Prop := G i = .silent j

/-- A chain of silent jumps, of one at least. -/
def Leads : ι → ι → Prop := Relation.TransGen G.Jump

/-- A chain of silent jumps. -/
def LeadsOrStays : ι → ι → Prop := Relation.ReflTransGen G.Jump

/-- At a place, the jumps of `H` are those of `G` moved along chains of jumps, and a jump may have
become the end it leads to. Events with ways on may differ. -/
def Threaded (i : ι) : Prop :=
  match G i with
  | .silent _ => (∃ k, H i = .silent k ∧ G.Leads i k) ∨
    ∃ k e, H i = .stop e ∧ G k = .stop e ∧ G.Leads i k
  | .stop e => H i = .stop e
  | .step _ next => ∃ e' next', H i = .step e' next' ∧ ∀ d, G.LeadsOrStays (next d) (next' d)
  | .out => H i = .out

variable {G H} {m : ε → σ → σ × Bool} {entry i j : ι} {s : σ} {tr : List (Option ε)}

/-! ## Chains of jumps -/

/-- A chain from a jump goes on from where the jump goes. -/
theorem Leads.of_jump {k : ι} (h : G.Leads i k) (hj : G i = .silent j) : G.LeadsOrStays j k := by
  obtain ⟨j', hij', hrest⟩ := Relation.TransGen.head'_iff.1 h
  obtain rfl : j = j' := by
    have : FlowNode.silent j = FlowNode.silent j' := hj.symm.trans hij'
    exact FlowNode.silent.inj this
  exact hrest

theorem LeadsOrStays.cases {k : ι} (h : G.LeadsOrStays i k) : k = i ∨ G.Leads i k := by
  rcases Relation.reflTransGen_iff_eq_or_transGen.1 h with rfl | h
  · exact .inl rfl
  · exact .inr h

/-- There is no chain from a place that holds no jump. -/
theorem LeadsOrStays.eq_of_not_silent {k : ι} (h : G.LeadsOrStays i k) (hi : ∀ j, G i ≠ .silent j) : k = i := by
  rcases h.cases with rfl | h
  · rfl
  · obtain ⟨j, hij, -⟩ := Relation.TransGen.head'_iff.1 h
    exact absurd hij (hi j)

theorem Reach.of_leads (h : G.LeadsOrStays i j) (hi : G.Reach entry i) : G.Reach entry j := by
  induction h with
  | refl => exact hi
  | tail _ hjump ih => exact .silent hjump ih

theorem Trace.of_leads (h : G.LeadsOrStays i j) (ht : G.Trace m j s tr) : G.Trace m i s tr := by
  induction h using Relation.ReflTransGen.head_induction_on with
  | refl => exact ht
  | head hjump _ ih => exact .silent hjump ih

/-! ## Threaded graphs have the same traces -/

section Threaded

variable (hthr : ∀ i, G.Reach entry i → G.Threaded H i)
include hthr

theorem threaded_silent {k : ι} (hi : G.Reach entry i) (hk : G i = .silent k) :
    (∃ k, H i = .silent k ∧ G.Leads i k) ∨
      ∃ k e, H i = .stop e ∧ G k = .stop e ∧ G.Leads i k := by
  have h := hthr i hi
  rwa [Threaded, hk] at h

theorem threaded_stop {e : ε} (hi : G.Reach entry i) (he : G i = .stop e) : H i = .stop e := by
  have h := hthr i hi
  rwa [Threaded, he] at h

theorem threaded_step {e : ε} {next : Bool → ι} (hi : G.Reach entry i) (he : G i = .step e next) :
    ∃ e' next', H i = .step e' next' ∧ ∀ d, G.LeadsOrStays (next d) (next' d) := by
  have h := hthr i hi
  rwa [Threaded, he] at h

theorem threaded_out (hi : G.Reach entry i) (he : G i = .out) : H i = .out := by
  have h := hthr i hi
  rwa [Threaded, he] at h

/-- The reachable events that have ways on are the same. -/
def SameEvents (G H : FlowGraph ι ε) (entry : ι) : Prop :=
  ∀ i e e' next next', G.Reach entry i → G i = .step e next → H i = .step e' next' → e = e'

theorem trace_threaded (hev : SameEvents G H entry) (ht : G.Trace m i s tr)
    (hi : G.Reach entry i) (hj : G.LeadsOrStays i j) : H.Trace m j s tr := by
  induction ht generalizing j with
  | nil => exact .nil _ _
  | @silent i k s tr hk ht ih =>
    have hkr : G.Reach entry k := .silent hk hi
    rcases hj.cases with rfl | hj
    · rcases threaded_silent hthr hi hk with ⟨k', hk', hlead⟩ | ⟨k', e, hk', he, hlead⟩
      · exact .silent hk' (ih hkr (hlead.of_jump hk))
      · have hto := hlead.of_jump hk
        have hend := ih hkr hto
        have hstop := threaded_stop hthr (hkr.of_leads hto) he
        -- `H` has at `j` the end that it has at `k'`
        cases hend with
        | nil => exact .nil _ _
        | silent h => simp [hstop] at h
        | stop _ h =>
          obtain rfl := FlowNode.stop.inj (hstop.symm.trans h)
          exact .stop _ hk'
        | step h => simp [hstop] at h
        | out _ h => simp [hstop] at h
    · exact ih hkr (hj.of_jump hk)
  | stop s he =>
    obtain rfl := hj.eq_of_not_silent (by simp [he])
    exact .stop s (threaded_stop hthr hi he)
  | @step i e next s tr he ht ih =>
    obtain rfl := hj.eq_of_not_silent (by simp [he])
    obtain ⟨e', next', hH, hnext⟩ := threaded_step hthr hi he
    obtain rfl := hev _ _ _ _ _ hi he hH
    exact .step hH (ih (.step he _ hi) (hnext _))
  | out s he =>
    obtain rfl := hj.eq_of_not_silent (by simp [he])
    exact .out s (threaded_out hthr hi he)

/-! What `G` holds where `H` holds something. -/

theorem leads_of_silent {k : ι} (hi : G.Reach entry i) (hk : H i = .silent k) : G.Leads i k := by
  have h := hthr i hi
  cases hG : G i with
  | silent =>
    rw [Threaded, hG] at h
    rcases h with ⟨k', hk', hlead⟩ | ⟨k', e, he, -⟩
    · rwa [FlowNode.silent.inj (hk.symm.trans hk')]
    · simp [hk] at he
  | stop => simp [Threaded, hG, hk] at h
  | step => simp [Threaded, hG, hk] at h
  | out => simp [Threaded, hG, hk] at h

theorem stop_of_stop {e : ε} (hi : G.Reach entry i) (he : H i = .stop e) :
    ∃ k, G.LeadsOrStays i k ∧ G k = .stop e := by
  have h := hthr i hi
  cases hG : G i with
  | silent =>
    rw [Threaded, hG] at h
    rcases h with ⟨k', hk', -⟩ | ⟨k', e', he', hk', hlead⟩
    · simp [he] at hk'
    · rw [FlowNode.stop.inj (he.symm.trans he')]
      exact ⟨k', hlead.to_reflTransGen, hk'⟩
  | stop e' =>
    rw [Threaded, hG] at h
    rw [FlowNode.stop.inj (he.symm.trans h)]
    exact ⟨i, .refl, hG⟩
  | step => simp [Threaded, hG, he] at h
  | out => simp [Threaded, hG, he] at h

theorem step_of_step {e : ε} {next : Bool → ι} (hi : G.Reach entry i) (he : H i = .step e next) :
    ∃ e' next', G i = .step e' next' ∧ ∀ d, G.LeadsOrStays (next' d) (next d) := by
  have h := hthr i hi
  cases hG : G i with
  | silent => simp [Threaded, hG, he] at h
  | stop => simp [Threaded, hG, he] at h
  | step e' next' =>
    rw [Threaded, hG] at h
    obtain ⟨e'', next'', hH, hnext⟩ := h
    obtain ⟨-, rfl⟩ := FlowNode.step.inj (he.symm.trans hH)
    exact ⟨e', next', rfl, hnext⟩
  | out => simp [Threaded, hG, he] at h

theorem out_of_out (hi : G.Reach entry i) (he : H i = .out) : G i = .out := by
  have h := hthr i hi
  cases hG : G i with
  | silent => simp [Threaded, hG, he] at h
  | stop => simp [Threaded, hG, he] at h
  | step => simp [Threaded, hG, he] at h
  | out => rfl

theorem trace_of_threaded (hev : SameEvents G H entry) (ht : H.Trace m i s tr)
    (hi : G.Reach entry i) : G.Trace m i s tr := by
  induction ht with
  | nil => exact .nil _ _
  | silent hk _ ih =>
    have hto := (leads_of_silent hthr hi hk).to_reflTransGen
    exact (ih (hi.of_leads hto)).of_leads hto
  | stop s he =>
    obtain ⟨k, hto, hk⟩ := stop_of_stop hthr hi he
    exact (Trace.stop s hk).of_leads hto
  | @step i e next s tr he _ ih =>
    obtain ⟨e', next', hG, hnext⟩ := step_of_step hthr hi he
    obtain rfl := hev _ _ _ _ _ hi hG he
    have hto := hnext (m e' s).2
    have hreach : G.Reach entry (next' (m e' s).2) := .step hG _ hi
    exact .step hG ((ih (hreach.of_leads hto)).of_leads hto)
  | out s he => exact .out s (out_of_out hthr hi he)

/-- The graph and the threaded one have the same traces. -/
theorem trace_iff_of_threaded (hev : SameEvents G H entry) :
    G.Trace m entry s tr ↔ H.Trace m entry s tr :=
  ⟨fun h => trace_threaded hthr hev h .entry .refl, fun h => trace_of_threaded hthr hev h .entry⟩

end Threaded

/-! ## Every place is on a trace -/

/-- The events whose ways are read off a list. -/
def oracle : ε → List Bool → List Bool × Bool := fun _ ds => (ds.tail, ds.headD false)

/-- The ways `ds`, and then what happens at `i`. -/
def Via (G : FlowGraph ι ε) (entry : ι) (ds : List Bool) (past : List (Option ε)) (i : ι) : Prop :=
  ∀ ds' tr, G.Trace oracle i ds' tr → G.Trace oracle entry (ds ++ ds') (past ++ tr)

/-- Only `i`, or a place on a chain of jumps from there, has what follows on these ways. -/
def OnlyVia (G H : FlowGraph ι ε) (entry : ι) (ds : List Bool) (past : List (Option ε)) (i : ι) :
    Prop :=
  ∀ ds' tr, H.Trace oracle entry (ds ++ ds') (past ++ tr) →
    ∃ j, G.LeadsOrStays i j ∧ H.Trace oracle j ds' tr

theorem Via.step {ds : List Bool} {past : List (Option ε)} {e : ε} {next : Bool → ι}
    (h : G.Via entry ds past i) (he : G i = .step e next) (d : Bool) :
    G.Via entry (ds ++ [d]) (past ++ [some e]) (next d) := by
  intro ds' tr ht
  rw [List.append_assoc, List.append_assoc]
  exact h (d :: ds') (some e :: tr) (.step he ht)

theorem Via.silent {ds : List Bool} {past : List (Option ε)} (h : G.Via entry ds past i)
    (hj : G i = .silent j) : G.Via entry ds past j :=
  fun ds' tr ht => h ds' tr (.silent hj ht)

section Threaded

variable (hthr : ∀ i, G.Reach entry i → G.Threaded H i)
include hthr

theorem OnlyVia.step {ds : List Bool} {past : List (Option ε)} {e : ε} {next : Bool → ι}
    (h : OnlyVia G H entry ds past i) (hi : G.Reach entry i) (he : G i = .step e next) (d : Bool) :
    OnlyVia G H entry (ds ++ [d]) (past ++ [some e]) (next d) := by
  intro ds' tr ht
  rw [List.append_assoc, List.append_assoc] at ht
  obtain ⟨j, hj, ht⟩ := h (d :: ds') (some e :: tr) ht
  obtain rfl := hj.eq_of_not_silent (by simp [he])
  obtain ⟨e', next', hH, hnext⟩ := threaded_step hthr hi he
  cases ht with
  | silent h => simp [hH] at h
  | stop _ h => simp [hH] at h
  | step h ht =>
    obtain ⟨-, rfl⟩ := FlowNode.step.inj (hH.symm.trans h)
    exact ⟨_, hnext d, ht⟩

theorem OnlyVia.silent {ds : List Bool} {past : List (Option ε)}
    (h : OnlyVia G H entry ds past i) (hi : G.Reach entry i) (hj : G i = .silent j) :
    OnlyVia G H entry ds past j := by
  intro ds' tr ht
  obtain ⟨k, hk, ht⟩ := h ds' tr ht
  rcases hk.cases with rfl | hk
  · rcases threaded_silent hthr hi hj with ⟨k', hk', hlead⟩ | ⟨k', e, hk', he, hlead⟩
    · cases ht with
      | nil => exact ⟨_, .refl, .nil _ _⟩
      | silent h ht =>
        obtain rfl := FlowNode.silent.inj (hk'.symm.trans h)
        exact ⟨_, hlead.of_jump hj, ht⟩
      | stop _ h => simp [hk'] at h
      | step h => simp [hk'] at h
      | out _ h => simp [hk'] at h
    · have hto := hlead.of_jump hj
      have hstop := threaded_stop hthr ((Reach.silent hj hi).of_leads hto) he
      cases ht with
      | nil => exact ⟨_, .refl, .nil _ _⟩
      | silent h => simp [hk'] at h
      | stop _ h =>
        obtain rfl := FlowNode.stop.inj (hk'.symm.trans h)
        exact ⟨_, hto, .stop _ hstop⟩
      | step h => simp [hk'] at h
      | out _ h => simp [hk'] at h
  · exact ⟨k, hk.of_jump hj, ht⟩

theorem exists_via (hi : G.Reach entry i) :
    ∃ ds past, G.Via entry ds past i ∧ OnlyVia G H entry ds past i := by
  induction hi with
  | entry => exact ⟨[], [], fun _ _ ht => ht, fun _ _ ht => ⟨entry, .refl, ht⟩⟩
  | silent hj hi ih =>
    obtain ⟨ds, past, hvia, honly⟩ := ih
    exact ⟨ds, past, hvia.silent hj, OnlyVia.silent hthr honly hi hj⟩
  | step he d hi ih =>
    obtain ⟨ds, past, hvia, honly⟩ := ih
    exact ⟨ds ++ [d], past ++ [some _], hvia.step he d, OnlyVia.step hthr honly hi he d⟩

/-- Where the traces of a threaded graph are those of the graph, the reachable events are the
same. -/
theorem sameEvents_of_trace (htr : ∀ ds tr, G.Trace oracle entry ds tr → H.Trace oracle entry ds tr) :
    SameEvents G H entry := by
  intro i e e' next next' hi he he'
  obtain ⟨ds, past, hvia, honly⟩ := exists_via hthr hi
  have hG : G.Trace oracle i [] [some e] := .step he (.nil _ _)
  obtain ⟨j, hj, hH⟩ := honly _ _ (htr _ _ (hvia _ _ hG))
  obtain rfl := hj.eq_of_not_silent (by simp [he])
  cases hH with
  | stop _ h => simp [he'] at h
  | step h => exact (FlowNode.step.inj (h.symm.trans he')).1
  | silent h => simp [he'] at h

end Threaded

/-- If control can leave the program, a trace shows it. -/
theorem exists_trace_out (hi : G.Reach entry i) (hout : G i = .out) :
    ∃ ds past, G.Trace oracle entry ds (past ++ [none]) := by
  have key : ∃ ds past, G.Via entry ds past i := by
    clear hout
    induction hi with
    | entry => exact ⟨[], [], fun _ _ ht => ht⟩
    | silent hj _ ih =>
      obtain ⟨ds, past, hvia⟩ := ih
      exact ⟨ds, past, hvia.silent hj⟩
    | step he d _ ih =>
      obtain ⟨ds, past, hvia⟩ := ih
      exact ⟨ds ++ [d], past ++ [some _], hvia.step he d⟩
  obtain ⟨ds, past, hvia⟩ := key
  exact ⟨_, past, hvia [] [none] (.out _ hout)⟩

/-- A trace that leaves the program shows that control can. -/
theorem exists_reach_out (ht : G.Trace m i s tr) (hi : G.Reach entry i) (hout : none ∈ tr) :
    ∃ j, G.Reach entry j ∧ G j = .out := by
  induction ht with
  | nil => simp at hout
  | silent h _ ih => exact ih (.silent h hi) hout
  | stop => simp at hout
  | step h _ ih => exact ih (.step h _ hi) (by simpa using hout)
  | out _ h => exact ⟨_, hi, h⟩

end FlowGraph
