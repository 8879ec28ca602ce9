-- SUMMARY: Drafts that are the same up to a permutation of their signals (`Draft.Rearranged`), and fragments that are added to a draft in either order (`Draft.rearranged_swap`).
import NandHdl.Proofs.Reordering.Values
import Mathlib.Logic.Equiv.Defs

/-!
# Rearranged drafts

Two drafts are rearrangements of each other if a permutation of signals leads from the gates and
flip-flops of the one to those of the other, in any order, and from the names that are bound in the
one to those in the other. The signals up to some number keep their places.

If two fragments are added one after the other, the order decides which of them gets the lower
numbers. The two results are rearrangements of each other: the blocks of new signals have changed
places.
-/

namespace NandHdl

/-! ## Blocks of signals -/

section

variable {n m p q i : Nat}

/-- The numbers from `n` on move to `m` and past it. -/
def shift (n m i : Nat) : Nat := if i < n then i else i - n + m

/-- Of the blocks of `p` and `q` numbers that start at `n`, the first one moves past the second. -/
def swapBlocks (n p q i : Nat) : Nat :=
  if i < n then i else if i < n + p then i + q else if i < n + p + q then i - p else i

/-- The blocks change back if they are named in the other order. -/
theorem swapBlocks_swapBlocks (n p q i : Nat) : swapBlocks n q p (swapBlocks n p q i) = i := by
  unfold swapBlocks
  split_ifs <;> omega

/-- The blocks of `p` and `q` signals that start at `n` change places. -/
def blockSwap (n p q : Nat) : Equiv.Perm SignalId where
  toFun := swapBlocks n p q
  invFun := swapBlocks n q p
  left_inv := swapBlocks_swapBlocks n p q
  right_inv := swapBlocks_swapBlocks n q p

theorem shift_of_lt (h : i < n) : shift n m i = i := if_pos h

theorem shift_add (n m j : Nat) : shift n m (n + j) = m + j := by
  rw [shift, if_neg (Nat.not_lt.2 (Nat.le_add_right n j)), Nat.add_sub_cancel_left, Nat.add_comm]

theorem le_shift (h : n ≤ i) : m ≤ shift n m i := by
  rw [shift, if_neg (Nat.not_lt.2 h)]
  exact Nat.le_add_left m _

theorem shift_injective (hle : n ≤ m) : Function.Injective (shift n m) := by
  intro i j h
  unfold shift at h
  split_ifs at h <;> omega

theorem blockSwap_of_lt (h : i < n) : blockSwap n p q i = i := if_pos h

theorem lt_of_blockSwap_lt (h : blockSwap n p q i < n) : i < n := by
  have hlt : swapBlocks n p q i < n := h
  unfold swapBlocks at hlt
  split_ifs at hlt <;> omega

theorem blockSwap_of_le (h : n + p + q ≤ i) : blockSwap n p q i = i := by
  show swapBlocks n p q i = i
  unfold swapBlocks
  split_ifs <;> omega

/-- The first block moves past the second one. -/
theorem blockSwap_first (h : i < n + p) : blockSwap n p q i = shift n (n + q) i := by
  show swapBlocks n p q i = shift n (n + q) i
  unfold swapBlocks shift
  split_ifs <;> omega

/-- The second block moves back to where the first one was. -/
theorem blockSwap_second (h : i < n + q) : blockSwap n p q (shift n (n + p) i) = i := by
  show swapBlocks n p q (shift n (n + p) i) = i
  unfold swapBlocks shift
  split_ifs <;> omega

/-- What holds of signals below the blocks alone is not moved. -/
theorem blockSwap_iff {P : SignalId → Prop} (hP : ∀ i, P i → i < n) :
    P (blockSwap n p q i) ↔ P i := by
  constructor
  · intro h
    rwa [blockSwap_of_lt (lt_of_blockSwap_lt (hP _ h))] at h
  · intro h
    rwa [blockSwap_of_lt (hP i h)]

/-- Lists that are added in one order and in the other, up to a map of what is listed. -/
theorem perm_swap_append {α : Type} {f : α → α} {old first second first' second' : List α}
    (hold : old.map f = old) (hfirst : first.map f = second') (hsecond : second.map f = first') :
    (old ++ first' ++ second').Perm ((old ++ first ++ second).map f) := by
  rw [List.map_append, List.map_append, hold, hfirst, hsecond, List.append_assoc, List.append_assoc]
  exact List.perm_append_comm.append_left old

theorem mem_swap_iff {f : SignalId → SignalId} (hf : Function.Injective f)
    {first second first' second' : List SignalId} (hfirst : first.map f = second')
    (hsecond : second.map f = first') :
    (f i ∈ first' ∨ f i ∈ second') ↔ (i ∈ first ∨ i ∈ second) := by
  rw [← hfirst, ← hsecond, List.mem_map_of_injective hf, List.mem_map_of_injective hf, or_comm]

end

/-! ## Fragments below a number -/

namespace Fragment

/-- The fragment refers to signals below `k`. -/
structure Below (F : Fragment) (k : Nat) : Prop where
  claims : ∀ i ∈ F.claims, i < k
  gates : ∀ g ∈ F.gates, g.in1 < k ∧ g.in2 < k ∧ g.out < k
  flops : ∀ p ∈ F.flops, p.1.d < k ∧ p.1.q < k
  ones : ∀ i ∈ F.ones, i < k

variable {F : Fragment} {k : Nat} {f g : SignalId → SignalId}

theorem map_map : (F.map f).map g = F.map (g ∘ f) := by
  simp [map, GateWires.map, FlopWires.map, Function.comp_def]

theorem map_id : F.map id = F := by
  simp [map, GateWires.map, FlopWires.map]

/-- It matters only what a map does to the signals that the fragment refers to. -/
theorem Below.map_congr (h : F.Below k) (heq : ∀ i < k, f i = g i) : F.map f = F.map g := by
  have hgates : F.gates.map (·.map f) = F.gates.map (·.map g) := by
    refine List.map_congr_left fun w hw => ?_
    obtain ⟨h1, h2, hout⟩ := h.gates w hw
    rw [GateWires.map, GateWires.map, heq _ h1, heq _ h2, heq _ hout]
  have hflops : (F.flops.map fun p => (p.1.map f, p.2)) =
      F.flops.map fun p => (p.1.map g, p.2) := by
    refine List.map_congr_left fun p hp => ?_
    obtain ⟨hd, hq⟩ := h.flops p hp
    rw [FlopWires.map, FlopWires.map, heq _ hd, heq _ hq]
  rw [map, map, hgates, hflops, List.map_congr_left fun i hi => heq i (h.claims i hi),
    List.map_congr_left fun i hi => heq i (h.ones i hi)]

theorem Below.map_eq_self (h : F.Below k) (heq : ∀ i < k, f i = i) : F.map f = F :=
  (h.map_congr heq).trans map_id

end Fragment

namespace Draft

/-- What the netlist of a draft holds, as a fragment. -/
def held (d : Draft) : Fragment where
  count := d.netlist.signals.size
  gates := d.netlist.gateWires
  flops := d.netlist.flopStarts

variable {b d d' d'' e e' : Draft} {F G : Fragment}

/-- All references of an accounted draft are to its signals. -/
theorem Accounted.refs_lt (hd : d.Accounted) :
    (∀ g ∈ d.netlist.gateWires, g.in1 < d.netlist.signals.size ∧ g.in2 < d.netlist.signals.size ∧
      g.out < d.netlist.signals.size) ∧
    ∀ p ∈ d.netlist.flopStarts,
      p.1.d < d.netlist.signals.size ∧ p.1.q < d.netlist.signals.size := by
  constructor
  · intro w hw
    obtain ⟨g, hg, rfl⟩ := List.mem_map.1 hw
    exact hd.refers.gate_lt g (Array.mem_toList_iff.1 hg)
  · intro p hp
    obtain ⟨g, hg, rfl⟩ := List.mem_map.1 hp
    obtain ⟨hlt, -, hlt'⟩ := hd.refers.dff_lt g (Array.mem_toList_iff.1 hg)
    exact ⟨hlt, hlt'⟩

theorem Accounted.held_below (hd : d.Accounted) : d.held.Below d.netlist.signals.size :=
  ⟨nofun, hd.refs_lt.1, hd.refs_lt.2, nofun⟩

/-- What has been added refers to signals that are there. -/
theorem Gains.below (h : b.Gains d F) (hd : d.Accounted) : F.Below d.netlist.signals.size where
  claims i hi := taken_lt h.driven_size ((h.taken i).2 (.inr hi))
  gates w hw := hd.refs_lt.1 w (h.gates ▸ List.mem_append_right _ hw)
  flops p hp := hd.refs_lt.2 p (h.flops ▸ List.mem_append_right _ hp)
  ones i hi := by
    obtain ⟨s, hs, -⟩ := (h.ones i).2 (.inr hi)
    exact (Array.getElem?_eq_some_iff.1 hs).1

end Draft

/-! ## Rearrangements -/

/-- The permutation leads from the circuit `n` to the circuit `n'`. -/
structure Netlist.Rearranged (σ : Equiv.Perm SignalId) (n n' : Netlist) : Prop where
  size_eq : n'.signals.size = n.signals.size
  past : ∀ i, n.signals.size ≤ i → σ i = i
  gates : n'.gateWires.Perm (n.gateWires.map (·.map σ))
  flops : n'.flopStarts.Perm (n.flopStarts.map fun p => (p.1.map σ, p.2))
  ones : ∀ i, n'.NamedOne (σ i) ↔ n.NamedOne i
  outputs_eq : n'.primaryOutputs = n.primaryOutputs

namespace Draft

/-- The permutation leads from the draft `d` to the draft `d'`. The signals below `base` stay. -/
structure Rearranged (base : Nat) (σ : Equiv.Perm SignalId) (d d' : Draft) : Prop where
  netlist : d.netlist.Rearranged σ d'.netlist
  old : ∀ i < base, σ i = i
  taken : ∀ i, d'.Taken (σ i) ↔ d.Taken i
  scope : d.scope.Relabeled σ d'.scope
  base_le : base ≤ d.netlist.signals.size
  accounted : d.Accounted
  accounted' : d'.Accounted

/-- Some permutation leads from `d` to `d'`. -/
def Similar (base : Nat) (d d' : Draft) : Prop := ∃ σ, Rearranged base σ d d'

variable {base : Nat} {σ τ : Equiv.Perm SignalId} {b d d' d'' e e' : Draft} {F G : Fragment}

theorem Rearranged.refl (hd : d.Accounted) (hbase : base ≤ d.netlist.signals.size) :
    Rearranged base (Equiv.refl _) d d where
  netlist := by
    refine ⟨rfl, fun _ _ => rfl, ?_, ?_, fun _ => Iff.rfl, rfl⟩
    · exact .of_eq (congrArg Fragment.gates d.held.map_id).symm
    · exact .of_eq (congrArg Fragment.flops d.held.map_id).symm
  old _ _ := rfl
  taken _ := Iff.rfl
  scope := .of_fixed fun _ _ _ => rfl
  base_le := hbase
  accounted := hd
  accounted' := hd

theorem Rearranged.trans (h : Rearranged base σ d d') (h' : Rearranged base τ d' d'') :
    Rearranged base (σ.trans τ) d d'' where
  netlist := by
    obtain ⟨hsize, hpast, hgates, hflops, hones, houtputs⟩ := h.netlist
    obtain ⟨hsize', hpast', hgates', hflops', hones', houtputs'⟩ := h'.netlist
    refine ⟨hsize'.trans hsize, fun i hi => ?_, ?_, ?_, fun i => (hones' _).trans (hones i),
      houtputs'.trans houtputs⟩
    · rw [Equiv.trans_apply, hpast i hi, hpast' i (hsize ▸ hi)]
    · refine hgates'.trans ((hgates.map _).trans (.of_eq ?_))
      rw [List.map_map]
      rfl
    · refine hflops'.trans ((hflops.map _).trans (.of_eq ?_))
      rw [List.map_map]
      rfl
  old i hi := by rw [Equiv.trans_apply, h.old i hi, h'.old i hi]
  taken i := (h'.taken _).trans (h.taken i)
  scope := h.scope.trans h'.scope
  base_le := h.base_le
  accounted := h.accounted
  accounted' := h'.accounted'

theorem Rearranged.mirrors (h : Rearranged base σ d d') (hbase : oneId < base) :
    d.Mirrors σ d' where
  injective := σ.injective
  zero := h.old zeroId (Nat.lt_trans Nat.zero_lt_one hbase)
  one := h.old oneId hbase
  next j := by rw [h.netlist.past _ (Nat.le_add_right _ j), h.netlist.size_eq]
  scope := h.scope
  accounted := h.accounted
  accounted' := h.accounted'

/-- What is free on one side is free on the other. -/
theorem Rearranged.clear_iff (h : Rearranged base σ d d') {ids : List SignalId} :
    d'.Clear (ids.map σ) ↔ d.Clear ids := by
  rw [Clear, Clear, List.nodup_map_iff σ.injective, List.forall_mem_map]
  simp only [h.taken]

/-- The same fragment is added on both sides. -/
theorem Rearranged.gains (h : Rearranged base σ d d') (he : d.Gains e F)
    (he' : d'.Gains e' (F.map σ)) (hscope : e.scope.Relabeled σ e'.scope) (hacc : e.Accounted)
    (hacc' : e'.Accounted) : Rearranged base σ e e' where
  netlist := by
    obtain ⟨hsize, hpast, hgates, hflops, hones, houtputs⟩ := h.netlist
    have hle : d.netlist.signals.size ≤ e.netlist.signals.size :=
      he.size_eq ▸ Nat.le_add_right _ _
    refine ⟨?_, fun i hi => hpast i (Nat.le_trans hle hi), ?_, ?_, fun i => ?_, ?_⟩
    · rw [he'.size_eq, he.size_eq, hsize]
      rfl
    · rw [he'.gates, he.gates, List.map_append]
      exact hgates.append_right _
    · rw [he'.flops, he.flops, List.map_append]
      exact hflops.append_right _
    · rw [he'.ones, he.ones, hones]
      exact or_congr_right (List.mem_map_of_injective σ.injective)
    · rw [he'.outputs, he.outputs, houtputs]
  old := h.old
  taken i := by
    rw [he'.taken, he.taken, h.taken]
    exact or_congr_right (List.mem_map_of_injective σ.injective)
  scope := hscope
  base_le := he.size_eq ▸ Nat.le_add_right_of_le h.base_le
  accounted := hacc
  accounted' := hacc'

/-! ## Two fragments in either order -/

/-- Of two fragments that are claimed in a row, the second one can be claimed if the first has taken
nothing of it. -/
theorem clear_shift (he : d.Gains e F)
    {ids : List SignalId} (hids : d.Clear ids) :
    e.Clear (ids.map (shift d.netlist.signals.size e.netlist.signals.size)) ↔
      ∀ i ∈ ids, i < d.netlist.signals.size → i ∉ F.claims := by
  have hle : d.netlist.signals.size ≤ e.netlist.signals.size := he.size_eq ▸ Nat.le_add_right _ _
  rw [Clear, List.nodup_map_iff (shift_injective hle), List.forall_mem_map]
  constructor
  · rintro ⟨-, hfree⟩ i hi hlt hclaimed
    refine hfree i hi ((he.taken _).2 (.inr ?_))
    rwa [shift_of_lt hlt]
  · refine fun h => ⟨hids.1, fun i hi htaken => ?_⟩
    rcases Nat.lt_or_ge i d.netlist.signals.size with hlt | hge
    · rw [shift_of_lt hlt] at htaken
      rcases (he.taken i).1 htaken with htaken | hclaimed
      · exact hids.2 i hi htaken
      · exact h i hi hlt hclaimed
    · exact absurd (taken_lt he.driven_size htaken) (Nat.not_lt.2 (le_shift hge))

/-- What is taken before a fragment is added is taken after it. -/
theorem clear_of_shift (hsize : d.driven.size = d.netlist.signals.size) (he : d.Gains e F)
    {ids : List SignalId}
    (hids : e.Clear (ids.map (shift d.netlist.signals.size e.netlist.signals.size))) :
    d.Clear ids := by
  refine ⟨hids.1.of_map _, fun i hi htaken => ?_⟩
  refine hids.2 _ (List.mem_map_of_mem hi) ((he.taken _).2 (.inl ?_))
  rwa [shift_of_lt (taken_lt hsize htaken)]

/-- Two fragments are added in one order and in the other. -/
theorem rearranged_swap {da db : Draft} (hd : d.Accounted) (hbase : base ≤ d.netlist.signals.size)
    (ha : d.Gains da F) (hda : da.Accounted) (hb : d.Gains db G) (hdb : db.Accounted)
    (hab : da.Gains e (G.map (shift d.netlist.signals.size da.netlist.signals.size)))
    (hba : db.Gains e' (F.map (shift d.netlist.signals.size db.netlist.signals.size)))
    (he : e.Accounted) (he' : e'.Accounted)
    (hscope : e.scope.Relabeled (blockSwap d.netlist.signals.size F.count G.count) e'.scope) :
    Rearranged base (blockSwap d.netlist.signals.size F.count G.count) e e' := by
  have hfirst := ha.below hda
  have hsecond := hb.below hdb
  rw [ha.size_eq] at hfirst hab
  rw [hb.size_eq] at hsecond hba
  generalize hn : d.netlist.signals.size = n at *
  generalize hσ : blockSwap n F.count G.count = σ at *
  have hold : ∀ i < n, σ i = i := fun i hi => hσ ▸ blockSwap_of_lt hi
  have hheld : d.held.map σ = d.held := (hn ▸ hd.held_below).map_eq_self hold
  have hF : F.map σ = F.map (shift n (n + G.count)) :=
    hfirst.map_congr fun i hi => hσ ▸ blockSwap_first hi
  have hG : (G.map (shift n (n + F.count))).map σ = G := by
    rw [Fragment.map_map]
    exact hsecond.map_eq_self fun i hi => hσ ▸ blockSwap_second hi
  have hmoved : ∀ {P : SignalId → Prop} {i}, (∀ i, P i → i < n) → (P (σ i) ↔ P i) := by
    intro P i hP
    rw [← hσ]
    exact blockSwap_iff hP
  refine ⟨⟨?_, fun i hi => ?_, ?_, ?_, fun i => ?_, ?_⟩, fun i hi => hold i ?_, fun i => ?_, hscope,
    ?_, he, he'⟩
  · rw [hab.size_eq, ha.size_eq, hba.size_eq, hb.size_eq]
    exact Nat.add_right_comm ..
  · rw [← hσ]
    refine blockSwap_of_le ?_
    rwa [hab.size_eq, ha.size_eq, hn] at hi
  · rw [hab.gates, ha.gates, hba.gates, hb.gates]
    exact perm_swap_append (congrArg Fragment.gates hheld) (congrArg Fragment.gates hF)
      (congrArg Fragment.gates hG)
  · rw [hab.flops, ha.flops, hba.flops, hb.flops]
    exact perm_swap_append (congrArg Fragment.flops hheld) (congrArg Fragment.flops hF)
      (congrArg Fragment.flops hG)
  · rw [hba.ones, hb.ones, hab.ones, ha.ones, or_assoc, or_assoc]
    refine or_congr (hmoved fun i h => ?_)
      (mem_swap_iff σ.injective (congrArg Fragment.ones hF) (congrArg Fragment.ones hG))
    obtain ⟨s, hs, -⟩ := h
    exact hn ▸ (Array.getElem?_eq_some_iff.1 hs).1
  · rw [hba.outputs, hb.outputs, hab.outputs, ha.outputs]
  · exact Nat.lt_of_lt_of_le hi hbase
  · rw [hba.taken, hb.taken, hab.taken, ha.taken, or_assoc, or_assoc]
    exact or_congr (hmoved fun i h => hn ▸ taken_lt hd.driven_size h)
      (mem_swap_iff σ.injective (congrArg Fragment.claims hF) (congrArg Fragment.claims hG))
  · rw [hab.size_eq, ha.size_eq, hn]
    exact Nat.le_add_right_of_le (Nat.le_add_right_of_le hbase)

end Draft

end NandHdl
