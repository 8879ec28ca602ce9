-- SUMMARY: The search for needed gates never runs out of steps, and dropping the gates that it does not find keeps the state sound and closed.
import NandHdl.Proofs.Optimizer.Sound

/-!
# The sweep

The search keeps a stack. Of a gate that it has found, both inputs have been looked at or are on
the stack, so when the stack is empty the gates found feed on each other and on sources only.

Each step either takes a signal off the stack for good or looks at a new one and adds two. Twice
the number of signals not yet looked at, plus the length of the stack, falls with every step.
-/

namespace NandHdl.Optimizer

/-! ## The search -/

/-- What holds of the search with the given stack. -/
structure Reach.Invariant (r : Reach) (st : State) (signals : Nat) (wanted stack : List SignalId) :
    Prop where
  seen_size : r.seen.size = signals
  live_size : r.live.size = st.gates.size
  stack_lt : ∀ s ∈ stack, s < signals
  wanted : ∀ s ∈ wanted, r.seen[s]? = some true ∨ s ∈ stack
  live : ∀ {s i : Nat}, r.seen[s]? = some true → st.driver[s]? = some (some i) →
    r.live[i]? = some true
  input : ∀ {i : Nat} {g : Wiring}, r.live[i]? = some true → st.gates[i]? = some g →
    ∀ s, s = g.in1 ∨ s = g.in2 → r.seen[s]? = some true ∨ s ∈ stack

/-- Nothing has been found yet. -/
def Reach.start (signals gates : Nat) : Reach where
  seen := Array.replicate signals false
  live := Array.replicate gates false

/-- The signals that have not been looked at. -/
def Reach.unseen (r : Reach) (signals : Nat) : Finset SignalId :=
  (Finset.range signals).filter fun s => r.seen[s]? = some false

variable {st : State} {signals : Nat} {wanted stack : List SignalId} {r : Reach} {s : SignalId}

theorem Reach.unseen_card_lt (live : Array Bool) (hs : s < r.seen.size) (hsignals : s < signals)
    (hunseen : r.seen[s]? = some false) :
    (Reach.unseen ⟨r.seen.modify s fun _ => true, live⟩ signals).card < (r.unseen signals).card := by
  apply Finset.card_lt_card
  constructor
  · intro k hk
    simp only [unseen, Finset.mem_filter, Checked.getElem?_modify_const hs] at hk ⊢
    refine ⟨hk.1, ?_⟩
    have hk := hk.2
    split at hk
    · cases hk
    · exact hk
  · intro hsub
    have hmem : s ∈ r.unseen signals := by simp [unseen, hsignals, hunseen]
    have := hsub hmem
    simp [unseen, Checked.getElem?_modify_const hs] at this

namespace Reach.Invariant

/-- A signal that has been looked at is taken off the stack. -/
theorem skip (h : r.Invariant st signals wanted (s :: stack)) (hs : r.seen[s]? = some true) :
    r.Invariant st signals wanted stack := by
  have hdrop : ∀ {k}, r.seen[k]? = some true ∨ k ∈ s :: stack →
      r.seen[k]? = some true ∨ k ∈ stack := by
    rintro k (hk | hk)
    · exact .inl hk
    · rcases List.mem_cons.1 hk with rfl | hk
      · exact .inl hs
      · exact .inr hk
  exact {
    seen_size := h.seen_size
    live_size := h.live_size
    stack_lt := fun k hk => h.stack_lt k (List.mem_cons_of_mem s hk)
    wanted := fun k hk => hdrop (h.wanted k hk)
    live := h.live
    input := fun hi hg k hk => hdrop (h.input hi hg k hk) }

/-- A source is looked at. -/
theorem source (h : r.Invariant st signals wanted (s :: stack))
    (hdriver : st.driver[s]? = some none) :
    Reach.Invariant ⟨r.seen.modify s fun _ => true, r.live⟩ st signals wanted stack := by
  have hs : s < r.seen.size := h.seen_size ▸ h.stack_lt s List.mem_cons_self
  have hdrop : ∀ {k}, r.seen[k]? = some true ∨ k ∈ s :: stack →
      (r.seen.modify s fun _ => true)[k]? = some true ∨ k ∈ stack := by
    intro k hk
    rw [Checked.getElem?_modify_const hs]
    by_cases heq : k = s
    · exact .inl (if_pos heq)
    · rw [if_neg heq]
      exact hk.imp_right fun hk => (List.mem_cons.1 hk).resolve_left heq
  exact {
    seen_size := by simpa using h.seen_size
    live_size := h.live_size
    stack_lt := fun k hk => h.stack_lt k (List.mem_cons_of_mem s hk)
    wanted := fun k hk => hdrop (h.wanted k hk)
    live := by
      intro k i hk hi
      rw [Checked.getElem?_modify_const hs] at hk
      split at hk
      · next heq =>
        rw [heq, hdriver] at hi
        cases hi
      · exact h.live hk hi
    input := fun hi hg k hk => hdrop (h.input hi hg k hk) }

/-- The output of a gate is looked at. The gate is needed, and its inputs are to be looked at. -/
theorem gate (h : r.Invariant st signals wanted (s :: stack)) {i : Nat} {g : Wiring}
    (hdriver : st.driver[s]? = some (some i)) (hg : st.gates[i]? = some g)
    (hlt : g.in1 < signals ∧ g.in2 < signals) :
    Reach.Invariant ⟨r.seen.modify s fun _ => true, r.live.modify i fun _ => true⟩ st signals wanted
      (g.in2 :: g.in1 :: stack) := by
  have hs : s < r.seen.size := h.seen_size ▸ h.stack_lt s List.mem_cons_self
  have hi : i < r.live.size := h.live_size ▸ (Array.getElem?_eq_some_iff.1 hg).1
  have hdrop : ∀ {k}, r.seen[k]? = some true ∨ k ∈ s :: stack →
      (r.seen.modify s fun _ => true)[k]? = some true ∨ k ∈ g.in2 :: g.in1 :: stack := by
    intro k hk
    rw [Checked.getElem?_modify_const hs]
    by_cases heq : k = s
    · exact .inl (if_pos heq)
    · rw [if_neg heq]
      refine hk.imp_right fun hk => ?_
      have := (List.mem_cons.1 hk).resolve_left heq
      simp [this]
  exact {
    seen_size := by simpa using h.seen_size
    live_size := by simpa using h.live_size
    stack_lt := by
      have := fun k hk => h.stack_lt k (List.mem_cons_of_mem s hk)
      simpa [hlt] using this
    wanted := fun k hk => hdrop (h.wanted k hk)
    live := by
      intro k j hk hj
      rw [Checked.getElem?_modify_const hs] at hk
      rw [Checked.getElem?_modify_const hi]
      split at hk
      · next heq =>
        rw [heq, hdriver] at hj
        cases hj
        exact if_pos rfl
      · by_cases heq : j = i
        · exact if_pos heq
        · rw [if_neg heq]
          exact h.live hk hj
    input := by
      intro j k hj hk a ha
      rw [Checked.getElem?_modify_const hi] at hj
      split at hj
      · next heq =>
        rw [heq, hg] at hk
        cases hk
        rcases ha with rfl | rfl
        · exact .inr (by simp)
        · exact .inr (by simp)
      · exact hdrop (h.input hj hk a ha) }

end Reach.Invariant

/-- With enough steps the search ends with an empty stack. -/
theorem reach_ok (hdriver : Indexes st.driver st.gates signals)
    (hlt : ∀ g ∈ st.gates, g.in1 < signals ∧ g.in2 < signals) (steps : Nat)
    (h : r.Invariant st signals wanted stack)
    (hsteps : stack.length + 2 * (r.unseen signals).card < steps) :
    ∃ r', reach st steps stack r = .ok r' ∧ r'.Invariant st signals wanted [] := by
  induction steps generalizing stack r with
  | zero => omega
  | succ steps ih =>
    cases stack with
    | nil => exact ⟨r, by simp [reach], h⟩
    | cons s stack =>
      have hs : s < signals := h.stack_lt s List.mem_cons_self
      have hseen : s < r.seen.size := h.seen_size ▸ hs
      have hget := Array.getElem?_eq_getElem hseen
      rw [List.length_cons] at hsteps
      rw [reach, Checked.get_eq_ok.2 hget, Except.ok_bind]
      cases hvalue : r.seen[s] with
      | true =>
        exact ih (h.skip (hvalue ▸ hget)) (by omega)
      | false =>
        have hcard := fun live => Reach.unseen_card_lt live hseen hs (hvalue ▸ hget)
        have hindex : s < st.driver.size := hdriver.size_eq ▸ hs
        have hdriven := Array.getElem?_eq_getElem hindex
        simp only [Bool.false_eq_true, if_false, Checked.set_ok hseen, Except.ok_bind,
          Checked.get_eq_ok.2 hdriven]
        cases hsource : st.driver[s] with
        | none =>
          have := hcard r.live
          exact ih (h.source (hsource ▸ hdriven)) (by omega)
        | some i =>
          obtain ⟨g, hg, -⟩ := (hdriver.get_eq s i).1 (hsource ▸ hdriven)
          have hi : i < r.live.size := h.live_size ▸ (Array.getElem?_eq_some_iff.1 hg).1
          have := hcard (r.live.modify i fun _ => true)
          simp only [Checked.get_eq_ok.2 hg, Checked.set_ok hi, Except.ok_bind]
          refine ih (h.gate (hsource ▸ hdriven) hg (hlt g (Array.mem_of_getElem? hg))) ?_
          simp only [List.length_cons]
          omega

/-! ## Dropping gates -/

/-- The gates that are marked. -/
def kept (gates : Array Wiring) (live : Array Bool) : Array Wiring :=
  ((gates.zip live).filter (·.2)).map (·.1)

theorem mem_kept {gates : Array Wiring} {live : Array Bool} {g : Wiring} :
    g ∈ kept gates live ↔ ∃ i : Nat, gates[i]? = some g ∧ live[i]? = some true := by
  simp only [kept, Array.mem_map, Array.mem_filter, Prod.exists, exists_and_right, exists_eq_right]
  constructor
  · intro hmem
    obtain ⟨i, hi⟩ := Array.getElem?_of_mem hmem
    exact ⟨i, Array.getElem?_zip_eq_some.1 hi⟩
  · rintro ⟨i, hi⟩
    exact Array.mem_of_getElem? (Array.getElem?_zip_eq_some.2 hi)

theorem mem_of_kept {gates : Array Wiring} {live : Array Bool} {g : Wiring}
    (h : g ∈ kept gates live) : g ∈ gates := by
  obtain ⟨i, hi, -⟩ := mem_kept.1 h
  exact Array.mem_of_getElem? hi

theorem kept_sublist {gates : Array Wiring} {live : Array Bool} (hsize : live.size = gates.size) :
    (kept gates live).toList.Sublist gates.toList := by
  have hsub : (((gates.zip live).filter (·.2)).map (·.1)).toList.Sublist
      ((gates.zip live).toList.map Prod.fst) := by
    rw [Array.toList_map, Array.toList_filter]
    exact List.filter_sublist.map _
  rw [Array.toList_zip, List.map_fst_zip (by simp [hsize])] at hsub
  exact hsub

namespace State

variable {n : Netlist} {rank : SignalId → Nat}

theorem mem_roots {n : Netlist} {dffs : Array Dff} {s : SignalId} :
    s ∈ roots n dffs ↔ s ∈ n.primaryOutputs ∨ ∃ f ∈ dffs, s = f.d ∨ s = f.clk := by
  simp [roots]

/-- The search from the roots ends, and everything in reach has been looked at. -/
theorem Linked.search_ok (h : st.Linked n) (hw : n.Wellformed) :
    ∃ r, reach st ((roots n st.dffs).reverse.length + 2 * n.signals.size + 1)
        (roots n st.dffs).reverse (.start n.signals.size st.gates.size) = .ok r ∧
      r.Invariant st n.signals.size (roots n st.dffs) [] := by
  have hlt : ∀ s ∈ roots n st.dffs, s < n.signals.size := by
    intro s hs
    rcases mem_roots.1 hs with hs | hs
    · exact hw.port_lt s (.inr hs)
    · exact h.reads_lt (.inr hs)
  have hstart : (Reach.start n.signals.size st.gates.size).Invariant st n.signals.size
      (roots n st.dffs) (roots n st.dffs).reverse := {
    seen_size := Array.size_replicate
    live_size := Array.size_replicate
    stack_lt := fun s hs => hlt s (List.mem_reverse.1 hs)
    wanted := fun s hs => .inr (List.mem_reverse.2 hs)
    live := fun hs => by simp [Reach.start, Array.getElem?_replicate] at hs
    input := fun hi => by simp [Reach.start, Array.getElem?_replicate] at hi }
  have hcard : ((Reach.start n.signals.size st.gates.size).unseen n.signals.size).card ≤
      n.signals.size :=
    (Finset.card_filter_le _ _).trans_eq (Finset.card_range _)
  refine reach_ok h.driver (fun g hg => ⟨(h.gate_lt g hg).1, (h.gate_lt g hg).2.1⟩) _ hstart ?_
  omega

/-- The sweep succeeds and keeps the gates that have been found. -/
theorem Linked.sweep_eq (h : st.Linked n) (hw : n.Wellformed) :
    ∃ (r : Reach) (driver : Array (Option Nat)),
      sweep n st = .ok { st with gates := kept st.gates r.live, driver } ∧
      r.Invariant st n.signals.size (roots n st.dffs) [] ∧
      Indexes driver (kept st.gates r.live) n.signals.size := by
  obtain ⟨r, hreach, hr⟩ := h.search_ok hw
  have houts := ((kept_sublist hr.live_size).map Wiring.out).trans h.outs
  obtain ⟨driver, hdriver, hindex⟩ := driverTable_ok
    (fun g hg => (h.gate_lt g (mem_of_kept hg)).2.2) (hw.gate_out_nodup.sublist houts)
  refine ⟨r, driver, ?_, hr, hindex⟩
  rw [Reach.start] at hreach
  rw [sweep, hreach, Except.ok_bind]
  show (do return { st with gates := kept st.gates r.live
                            driver := ← driverTable n.signals.size (kept st.gates r.live) } :
    Checked State) = _
  rw [hdriver]
  rfl

theorem Linked.keep (h : st.Linked n) {live : Array Bool} (hsize : live.size = st.gates.size)
    {driver : Array (Option Nat)} (hdriver : Indexes driver (kept st.gates live) n.signals.size) :
    State.Linked n { st with gates := kept st.gates live, driver } where
  subst_size := h.subst_size
  descends := h.descends
  link_from := h.link_from
  gate_lt := fun g hg => h.gate_lt g (mem_of_kept hg)
  flop_lt := h.flop_lt
  outs := ((kept_sublist hsize).map Wiring.out).trans h.outs
  driver := hdriver

theorem Linked.sweep_ok (h : st.Linked n) (hw : n.Wellformed) :
    ∃ next, sweep n st = .ok next ∧ next.Linked n := by
  obtain ⟨r, driver, hsweep, hr, hindex⟩ := h.sweep_eq hw
  exact ⟨_, hsweep, h.keep hr.live_size hindex⟩

/-- Dropping gates keeps the state sound. -/
theorem Sound.keep (h : st.Sound n rank) {live : Array Bool} (hsize : live.size = st.gates.size)
    {driver : Array (Option Nat)} (hdriver : Indexes driver (kept st.gates live) n.signals.size) :
    State.Sound n rank { st with gates := kept st.gates live, driver } where
  subst_size := h.subst_size
  descends := h.descends
  link_from := h.link_from
  link_value := h.link_value
  gate_lt := (h.linked.keep hsize hdriver).gate_lt
  gate_rank := fun g hg => h.gate_rank g (mem_of_kept hg)
  gate_value := fun hv g hg => h.gate_value hv g (mem_of_kept hg)
  outs := (h.linked.keep hsize hdriver).outs
  driver := hdriver
  dffs := h.dffs

/-- If the gates in reach are kept, nothing that is read goes missing. -/
theorem Closed.keep (hclosed : st.Closed n) (h : st.Sound n rank) {r : Reach}
    (hr : r.Invariant st n.signals.size (roots n st.dffs) []) (driver : Array (Option Nat)) :
    State.Closed n { st with gates := kept st.gates r.live, driver } := by
  have hcomputes : ∀ {s}, r.seen[s]? = some true → st.Computes n s →
      State.Computes { st with gates := kept st.gates r.live, driver } n s := by
    intro s hseen hs hout
    obtain ⟨g, hg, rfl⟩ := hs hout
    obtain ⟨i, hi⟩ := Array.getElem?_of_mem hg
    exact ⟨g, mem_kept.2 ⟨i, hi, hr.live hseen ((h.driver.get_eq _ i).2 ⟨g, hi, rfl⟩)⟩, rfl⟩
  have hseen : ∀ s ∈ roots n st.dffs, r.seen[s]? = some true := fun s hs =>
    (hr.wanted s hs).resolve_right List.not_mem_nil
  constructor
  case output =>
    intro s hs
    exact hcomputes (hseen s (mem_roots.2 (.inl hs))) (hclosed.output s hs)
  case read =>
    intro s hs
    have hread : r.seen[s]? = some true ∧ st.Reads s := by
      rcases hs with ⟨g, hg, hs⟩ | ⟨f, hf, hs⟩
      · obtain ⟨i, hi, hlive⟩ := mem_kept.1 hg
        exact ⟨(hr.input hlive hi s hs).resolve_right List.not_mem_nil,
          .inl ⟨g, mem_of_kept hg, hs⟩⟩
      · exact ⟨hseen s (mem_roots.2 (.inr ⟨f, hf, hs⟩)), .inr ⟨f, hf, hs⟩⟩
    exact ⟨hcomputes hread.1 (hclosed.read hread.2).1, (hclosed.read hread.2).2⟩

/-- The sweep succeeds and keeps the state sound and closed. -/
theorem Sound.sweep_ok (h : st.Sound n rank) (hw : n.Wellformed) (hclosed : st.Closed n) :
    ∃ next, sweep n st = .ok next ∧ next.Sound n rank ∧ next.Closed n := by
  obtain ⟨r, driver, hsweep, hr, hindex⟩ := h.linked.sweep_eq hw
  exact ⟨_, hsweep, h.keep hr.live_size hindex, hclosed.keep h hr driver⟩

end State

end NandHdl.Optimizer
