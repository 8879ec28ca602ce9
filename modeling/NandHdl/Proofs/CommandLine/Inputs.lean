-- SUMMARY: The inputs of a run are merged by name and written in the order of their names (`Settings.inputs_applied`).
import NandHdl.CommandLine.Project
import NandHdl.Proofs.Design.Trace

/-!
# Inputs of the command

The assignments of a project file and of the command line are merged by name: a name has the value of
its last `--set`, and without one the value of the project file. Then the names are written one after
the other by code point. Of names that share a signal the last one in this order decides, wherever it
was assigned.
-/

namespace NandHdl

/-! ## Signals of names -/

namespace Netlist

/-- The signal is one of those that the name stands for. -/
def Covers (n : Netlist) (name : String) (s : SignalId) : Prop :=
  ∃ bits, n.Denotes name bits ∧ s ∈ bits

/-- The signal has the bit of the value that is its own if the name has that value. -/
def HasBitOf (n : Netlist) (store : Store) (a : String × UInt64) (s : SignalId) : Prop :=
  ∃ bits j, n.Denotes a.1 bits ∧ LastAt bits s j ∧ store.bit s = a.2.toNat.testBit j

variable {n : Netlist} {s : SignalId}

theorem covers_iff {name : String} : n.Covers name s ↔ s ∈ n.targets name := by
  constructor
  · rintro ⟨bits, hbits, hs⟩
    exact (denotes_iff.1 hbits).2 ▸ hs
  · exact fun hs => ⟨_, denotes_iff.2 ⟨List.ne_nil_of_mem hs, rfl⟩, hs⟩

theorem HasBitOf.bit_eq {store : Store} {a : String × UInt64} (h : n.HasBitOf store a s)
    {bits : Bits} {j : Nat} (hbits : n.Denotes a.1 bits) (hlast : LastAt bits s j) :
    store.bit s = a.2.toNat.testBit j := by
  obtain ⟨bits', k, hbits', hk, hbit⟩ := h
  obtain rfl : bits' = bits := (denotes_iff.1 hbits').2.trans (denotes_iff.1 hbits).2.symm
  rw [hbit, hk.unique hlast]

theorem writes_append (before after : List (String × UInt64)) :
    n.writes (before ++ after) = n.writes before ++ n.writes after :=
  List.flatMap_append

theorem exists_covers_of_mem_writes {inputs : List (String × UInt64)} {w : SignalId × Bool}
    (h : w ∈ n.writes inputs) : ∃ a ∈ inputs, n.Covers a.1 w.1 := by
  obtain ⟨a, ha, hw⟩ := List.mem_flatMap.1 h
  exact ⟨a, ha, covers_iff.2 (Store.fst_mem_of_mem_pokes hw)⟩

theorem mem_writes_lt (hw : n.Wellformed) {inputs : List (String × UInt64)} {w : SignalId × Bool}
    (h : w ∈ n.writes inputs) : w.1 < n.signals.size := by
  obtain ⟨a, -, hcovers⟩ := exists_covers_of_mem_writes h
  exact mem_targets_lt hw (covers_iff.1 hcovers)

/-- The last input that covers a signal decides. -/
theorem hasBitOf_putAll_writes (hw : n.Wellformed) {store : Store}
    (hsized : store.SizedFor n.signals.size) {before after : List (String × UInt64)}
    {a : String × UInt64} (ha : n.Covers a.1 s) (hafter : ∀ b ∈ after, ¬n.Covers b.1 s) :
    n.HasBitOf (store.putAll (n.writes (before ++ a :: after))) a s := by
  obtain ⟨bits, hbits, hs⟩ := ha
  obtain ⟨j, hlast⟩ := exists_lastAt hs
  refine ⟨bits, j, hbits, hlast, ?_⟩
  obtain rfl := (denotes_iff.1 hbits).2
  have hsplit : n.writes (before ++ a :: after) =
      (n.writes before ++ Store.pokes a.2 0 (n.targets a.1)) ++ n.writes after := by
    rw [writes_append, List.append_assoc]
    rfl
  rw [hsplit, Store.putAll_append, Store.putAll_append, Store.bit_putAll_of_not_mem
    ((hsized.putAll _).putAll _) (fun _ => mem_writes_lt hw)]
  · exact Store.bit_putAll_pokes (hsized.putAll _) (fun _ => mem_targets_lt hw) hlast
  · rintro w hmem rfl
    obtain ⟨b, hb, hcovers⟩ := exists_covers_of_mem_writes hmem
    exact hafter b hb hcovers

end Netlist

/-! ## Merged assignments -/

namespace Settings

variable {o : Options} {p : ProjectFile} {a b : String × UInt64}

/-- The assignment counts: it is the last `--set` of its name, or there is none and the project file
has it. -/
def Assigns (o : Options) (p : ProjectFile) (a : String × UInt64) : Prop :=
  (∃ before after, o.inputs = before ++ a :: after ∧ ∀ b ∈ after, b.1 ≠ a.1) ∨
    (∀ b ∈ o.inputs, b.1 ≠ a.1) ∧ p.inputs[a.1]? = some a.2

theorem getElem?_foldl_insert {m : NameMap UInt64} {inputs : List (String × UInt64)} :
    (inputs.foldl (fun m (name, value) => m.insert name value) m)[a.1]? = some a.2 ↔
      (∃ before after, inputs = before ++ a :: after ∧ ∀ b ∈ after, b.1 ≠ a.1) ∨
        (∀ b ∈ inputs, b.1 ≠ a.1) ∧ m[a.1]? = some a.2 := by
  induction inputs generalizing m with
  | nil => simp
  | cons x rest ih =>
    rw [List.foldl_cons, ih, Std.TreeMap.getElem?_insert]
    constructor
    · rintro (⟨before, after, rfl, hafter⟩ | ⟨hrest, hvalue⟩)
      · exact .inl ⟨x :: before, after, rfl, hafter⟩
      · split at hvalue
        · next heq =>
          have hname : x.1 = a.1 := Std.LawfulEqCmp.eq_of_compare heq
          exact .inl ⟨[], rest, by rw [Prod.ext hname (Option.some.inj hvalue)]; rfl, hrest⟩
        · next hne =>
          refine .inr ⟨List.forall_mem_cons.2 ⟨fun hname => hne ?_, hrest⟩, hvalue⟩
          rw [hname]
          exact Std.ReflCmp.compare_self
    · rintro (⟨before, after, hsplit, hafter⟩ | ⟨hall, hvalue⟩)
      · rcases List.append_eq_cons_iff.1 hsplit.symm with ⟨rfl, hcons⟩ | ⟨before', rfl, hrest⟩
        · obtain ⟨rfl, rfl⟩ := List.cons.inj hcons
          exact .inr ⟨hafter, by simp⟩
        · exact .inl ⟨before', after, hrest, hafter⟩
      · obtain ⟨hne, hrest⟩ := List.forall_mem_cons.1 hall
        refine .inr ⟨hrest, ?_⟩
        rw [if_neg fun heq => hne (Std.LawfulEqCmp.eq_of_compare heq)]
        exact hvalue

theorem mem_inputs : a ∈ inputs o p ↔ Assigns o p a :=
  Std.TreeMap.mem_toList_iff_getElem?_eq_some.trans getElem?_foldl_insert

theorem inputs_increasing (o : Options) (p : ProjectFile) :
    (inputs o p).Pairwise fun a b => a.1 < b.1 := by
  have hordered : (inputs o p).Pairwise fun a b => compare a.1 b.1 = .lt :=
    Std.TreeMap.ordered_keys_toList
  exact hordered.imp compareOfLessAndEq_eq_lt.1

/-- A name with a `--set` has a value. -/
theorem exists_assigns (h : a ∈ o.inputs) : ∃ b, Assigns o p b ∧ b.1 = a.1 := by
  obtain ⟨before, b, after, hsplit, hname, hafter⟩ :=
    List.exists_last (P := fun b => b.1 = a.1) ⟨a, h, rfl⟩
  exact ⟨b, .inl ⟨before, after, hsplit, hname.symm ▸ hafter⟩, hname⟩

/-- Of the names in a class that a `--set` belongs to, the one that is written last is the greatest by
code point. -/
theorem exists_greatest {P : String → Prop} (h : ∃ a ∈ o.inputs, P a.1) :
    ∃ before a after, inputs o p = before ++ a :: after ∧ Assigns o p a ∧ P a.1 ∧
      (∀ b ∈ after, ¬P b.1) ∧ ∀ b, Assigns o p b → P b.1 → b = a ∨ b.1 < a.1 := by
  obtain ⟨c, hc, hcP⟩ := h
  obtain ⟨d, hd, hname⟩ := exists_assigns (p := p) hc
  obtain ⟨before, a, after, hsplit, ha, hafter⟩ :=
    List.exists_last (P := fun b => P b.1) ⟨d, mem_inputs.2 hd, hname ▸ hcP⟩
  refine ⟨before, a, after, hsplit, mem_inputs.1 (hsplit ▸ by simp), ha, hafter, fun b hb hbP => ?_⟩
  have hmem := mem_inputs.2 hb
  have hsorted := inputs_increasing o p
  rw [hsplit, List.mem_append, List.mem_cons] at hmem
  rw [hsplit, List.pairwise_append] at hsorted
  rcases hmem with hbefore | heq | hmem
  · exact .inr (hsorted.2.2 b hbefore a List.mem_cons_self)
  · exact .inl heq
  · exact absurd hbP (hafter b hmem)

theorem ofProject_eq_ok {settings : Settings} (h : ofProject o p = .ok settings) :
    settings.request.inputs = inputs o p := by
  obtain ⟨entry, -, h⟩ := Except.bind_eq_ok.1 h
  obtain ⟨level, -, h⟩ := Except.bind_eq_ok.1 h
  cases h
  rfl

/-! ## Written inputs -/

/-- Right after the inputs were applied, a signal that a `--set` covers has its bit of the assignment
whose name comes last by code point among all assignments that count and cover the signal. So the last
`--set` that covers a signal decides, whatever else is assigned, if no such name comes after its own. -/
theorem inputs_applied {settings : Settings} {n : Netlist} {l : LevelizedNetlist}
    {sim next : Simulation} (hsettings : ofProject o p = .ok settings) (hn : n.Numbered)
    (hl : levelize n = .ok l) (hstart : Simulation.start l settings.config.sim = .ok sim)
    (hok : sim.pokeAll settings.request.inputs = .ok next) (s : SignalId) :
    ((∃ a ∈ o.inputs, n.Covers a.1 s) →
      ∃ a, Assigns o p a ∧ n.Covers a.1 s ∧ n.HasBitOf next.store a s ∧
        ∀ b, Assigns o p b → n.Covers b.1 s → b = a ∨ b.1 < a.1) ∧
    ∀ before a after, o.inputs = before ++ a :: after → n.Covers a.1 s →
      (∀ b ∈ after, ¬n.Covers b.1 s) → (∀ b, Assigns o p b → n.Covers b.1 s → ¬a.1 < b.1) →
      n.HasBitOf next.store a s := by
  obtain ⟨hw, level, hs⟩ := levelize_sorted hn hl
  obtain ⟨sim', hstart', hin⟩ := Simulation.start_inRange hs hn hw settings.config.sim
  cases hstart.symm.trans hstart'
  obtain rfl := Simulation.pokeAll_eq_of_sized hin.levelized_eq hin.sized hs hw hok
  rw [ofProject_eq_ok hsettings]
  have hcovered : (∃ a ∈ o.inputs, n.Covers a.1 s) →
      ∃ a, Assigns o p a ∧ n.Covers a.1 s ∧
        n.HasBitOf (sim.store.putAll (n.writes (inputs o p))) a s ∧
        ∀ b, Assigns o p b → n.Covers b.1 s → b = a ∨ b.1 < a.1 := by
    intro hset
    obtain ⟨before, a, after, hsplit, ha, hcovers, hafter, hgreatest⟩ :=
      exists_greatest (P := (n.Covers · s)) (p := p) hset
    refine ⟨a, ha, hcovers, ?_, hgreatest⟩
    rw [hsplit]
    exact Netlist.hasBitOf_putAll_writes hw hin.sized hcovers hafter
  refine ⟨hcovered, fun before a after hsplit ha hafter hgreatest => ?_⟩
  have hassigned : Assigns o p a := by
    refine .inl ⟨before, after, hsplit, fun b hb hname => hafter b hb ?_⟩
    rwa [hname]
  obtain ⟨c, hc, hcovers, hbit, hlast⟩ := hcovered ⟨a, hsplit ▸ by simp, ha⟩
  rcases hlast a hassigned ha with rfl | hlt
  · exact hbit
  · exact absurd hlt (hgreatest c hc hcovers)

/-- A bus of two bits. -/
def pairBus : Netlist :=
  ((Netlist.empty "pair_bus").addSignal "a[0]" 0).addSignal "a[1]" 0

theorem pairBus_numbered : pairBus.Numbered :=
  ((Netlist.Numbered.empty "pair_bus").addSignal "a[0]" 0).addSignal "a[1]" 0

theorem pairBus_denotes :
    pairBus.Denotes "a" [0, 1] ∧ pairBus.Denotes "a[0]" [0] ∧ pairBus.Denotes "a[1]" [1] := by
  refine ⟨.inl ⟨by decide, fun i hi => ?_⟩, .inr ⟨by decide, 0, by decide, rfl⟩,
    .inr ⟨by decide, 1, by decide, rfl⟩⟩
  have hthree : ∀ i < 3, pairBus.signalId? (bitName "a" i) = ([0, 1] : Bits)[i]? := by decide
  exact hthree i (Nat.lt_succ_of_le hi)

/-- Inputs for the bus that fit in it are applied after a reset. -/
theorem pairBus_pokeAll (config : SimConfig) (inputs : List (String × UInt64))
    (hinputs : ∀ a ∈ inputs,
      a.1 = "a" ∧ a.2.toNat < 4 ∨ (a.1 = "a[0]" ∨ a.1 = "a[1]") ∧ a.2.toNat < 2) :
    ∃ l sim next, levelize pairBus = .ok l ∧ Simulation.start l config = .ok sim ∧
      sim.pokeAll inputs = .ok next ∧ pairBus.Wellformed ∧
      sim.store.SizedFor pairBus.signals.size ∧
      next.store = sim.store.putAll (pairBus.writes inputs) := by
  obtain ⟨l, hl⟩ := Simulation.exists_levels_of_no_gates pairBus_numbered (by rfl) rfl
  obtain ⟨hw, level, hs⟩ := levelize_sorted pairBus_numbered hl
  obtain ⟨sim, hstart, hin⟩ := Simulation.start_inRange hs pairBus_numbered hw config
  obtain ⟨hbus, hfirst, hsecond⟩ := pairBus_denotes
  have hpoke : ∃ next, sim.pokeAll inputs = .ok next := by
    refine Simulation.exists_pokeAll hin.levelized_eq hin.sized hs hw fun a ha => ?_
    rcases hinputs a ha with ⟨hname, hvalue⟩ | ⟨hname | hname, hvalue⟩
    · exact ⟨[0, 1], hname ▸ hbus, by decide, hvalue⟩
    · exact ⟨[0], hname ▸ hfirst, by decide, hvalue⟩
    · exact ⟨[1], hname ▸ hsecond, by decide, hvalue⟩
  obtain ⟨next, hnext⟩ := hpoke
  obtain rfl := Simulation.pokeAll_eq_of_sized hin.levelized_eq hin.sized hs hw hnext
  exact ⟨l, sim, _, hl, hstart, hnext, hw, hin.sized, rfl⟩

/-- The project file has a value for the bus, and the command line one for the bus and then one for
its high bit. -/
theorem inputs_applied_pairBus :
    ∃ settings l sim next,
      ofProject { entry := some "p.json", inputs := [("a", 1), ("a[1]", 1)] }
        { inputs := ({} : NameMap UInt64).insert "a" 2 } = .ok settings ∧
      levelize pairBus = .ok l ∧ Simulation.start l settings.config.sim = .ok sim ∧
      sim.pokeAll settings.request.inputs = .ok next ∧
      pairBus.HasBitOf next.store ("a", 1) 0 ∧ pairBus.HasBitOf next.store ("a[1]", 1) 1 := by
  obtain ⟨hbus, -, hsecond⟩ := pairBus_denotes
  have hinputs : inputs { entry := some "p.json", inputs := [("a", 1), ("a[1]", 1)] }
      { inputs := ({} : NameMap UInt64).insert "a" 2 } = [("a", 1), ("a[1]", 1)] := by
    decide
  obtain ⟨settings, hsettings⟩ : ∃ settings,
      ofProject { entry := some "p.json", inputs := [("a", 1), ("a[1]", 1)] }
        { inputs := ({} : NameMap UInt64).insert "a" 2 } = .ok settings := ⟨_, rfl⟩
  have hmerged := (ofProject_eq_ok hsettings).trans hinputs
  obtain ⟨l, sim, next, hl, hstart, hnext, -⟩ :=
    pairBus_pokeAll settings.config.sim settings.request.inputs (hmerged ▸ by decide)
  have happlied := inputs_applied hsettings pairBus_numbered hl hstart hnext
  have hassigned : ∀ b, Assigns { entry := some "p.json", inputs := [("a", 1), ("a[1]", 1)] }
      { inputs := ({} : NameMap UInt64).insert "a" 2 } b → b ∈ [("a", 1), ("a[1]", 1)] :=
    fun b hb => hinputs ▸ mem_inputs.2 hb
  have hlow : ¬pairBus.Covers "a[1]" 0 := mt Netlist.covers_iff.1 (by decide)
  refine ⟨settings, l, sim, next, hsettings, hl, hstart, hnext, ?_, ?_⟩
  · refine (happlied 0).2 [] ("a", 1) [("a[1]", 1)] rfl ⟨_, hbus, by decide⟩
      (List.forall_mem_singleton.2 hlow) fun b hb hcovers => ?_
    have hmem := hassigned b hb
    simp only [List.mem_cons, List.not_mem_nil, or_false] at hmem
    rcases hmem with rfl | rfl
    · decide
    · exact absurd hcovers hlow
  · refine (happlied 1).2 [("a", 1)] ("a[1]", 1) [] rfl ⟨_, hsecond, by decide⟩ nofun
      fun b hb _ => ?_
    have hgreatest : ∀ b ∈ [("a", (1 : UInt64)), ("a[1]", 1)], ¬"a[1]" < b.1 := by decide
    exact hgreatest b (hassigned b hb)

/-- The only `--set` gives both bits of the bus the value 0. The project file has a value for the low
bit, whose name comes after the name of the bus. -/
theorem set_bus_before_bit :
    ∃ settings l sim next,
      ofProject { entry := some "p.json", inputs := [("a", 0)] }
        { inputs := ({} : NameMap UInt64).insert "a[0]" 1 } = .ok settings ∧
      pairBus.Numbered ∧ levelize pairBus = .ok l ∧
      Simulation.start l settings.config.sim = .ok sim ∧
      sim.pokeAll settings.request.inputs = .ok next ∧
      pairBus.Covers "a" 0 ∧ ¬pairBus.HasBitOf next.store ("a", 0) 0 := by
  obtain ⟨hbus, hbit, -⟩ := pairBus_denotes
  have hinputs : inputs { entry := some "p.json", inputs := [("a", 0)] }
      { inputs := ({} : NameMap UInt64).insert "a[0]" 1 } = [("a", 0)] ++ ("a[0]", 1) :: [] := by
    decide
  obtain ⟨l, sim, next, hl, hstart, hnext, hw, hsized, hstore⟩ :=
    pairBus_pokeAll {} ([("a", 0)] ++ ("a[0]", 1) :: []) (by decide)
  refine ⟨_, l, sim, next, rfl, pairBus_numbered, hl, hstart, hinputs ▸ hnext,
    ⟨_, hbus, by decide⟩, ?_⟩
  have hwritten : pairBus.HasBitOf next.store ("a[0]", 1) 0 := by
    rw [hstore]
    exact Netlist.hasBitOf_putAll_writes hw hsized ⟨_, hbit, by decide⟩ nofun
  have hone : next.store.bit 0 = true :=
    hwritten.bit_eq hbit (lastAt_of_nodup (List.nodup_singleton 0) Nat.zero_lt_one)
  rintro ⟨bits, j, -, -, hzero⟩
  rw [hone] at hzero
  simp at hzero

end Settings

end NandHdl
