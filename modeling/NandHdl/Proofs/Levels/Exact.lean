-- SUMMARY: Levels are exact (`levelize_exact`): each is the length of the longest chain of gates that ends in its gate, the lists hold every gate once, and taking levels again changes nothing.
import NandHdl.Proofs.Levels.Order
import Mathlib.Data.List.Chain
import Mathlib.Order.Bounds.Basic

/-!
# Exact levels

The level of a gate says how many gates stand in the longest chain that ends in it. This does not
mention the queue, so it determines the levels, and levels of a netlist that has them already come
out the same.
-/

namespace NandHdl

/-! ## Chains of gates -/

namespace Netlist

/-- Each of the gates feeds the next one. -/
structure Chain (n : Netlist) (gs : List GateId) : Prop where
  lt : ∀ g ∈ gs, g < n.gates.size
  feeds : gs.IsChain n.Feeds

/-- The longest chain that ends in the gate `g` has `k` gates. -/
structure LongestChain (n : Netlist) (g : GateId) (k : Nat) : Prop where
  attained : ∃ gs, n.Chain (gs ++ [g]) ∧ gs.length + 1 = k
  bound : ∀ gs, n.Chain (gs ++ [g]) → gs.length + 1 ≤ k

variable {n : Netlist}

theorem LongestChain.unique {g : GateId} {k k' : Nat} (h : n.LongestChain g k)
    (h' : n.LongestChain g k') : k = k' := by
  obtain ⟨gs, hgs, rfl⟩ := h.attained
  obtain ⟨gs', hgs', rfl⟩ := h'.attained
  exact Nat.le_antisymm (h'.bound gs hgs) (h.bound gs' hgs')

theorem Chain.singleton {g : GateId} (hg : g < n.gates.size) : n.Chain [g] :=
  ⟨by simpa using hg, List.isChain_singleton g⟩

/-- A chain ends in a gate alone or goes on from a chain that ends in a gate which it reads. -/
theorem chain_append_pair {gs : List GateId} {d g : GateId} :
    n.Chain (gs ++ [d] ++ [g]) ↔ n.Chain (gs ++ [d]) ∧ n.Feeds d g ∧ g < n.gates.size := by
  constructor
  · rintro ⟨hlt, hchain⟩
    rw [List.isChain_append] at hchain
    refine ⟨⟨fun x hx => hlt x (List.mem_append_left _ hx), hchain.1⟩, ?_, hlt g (by simp)⟩
    exact hchain.2.2 d (by simp) g (by simp)
  · rintro ⟨⟨hlt, hchain⟩, hfeeds, hg⟩
    refine ⟨?_, ?_⟩
    · intro x hx
      rcases List.mem_append.1 hx with hx | hx
      · exact hlt x hx
      · exact List.mem_singleton.1 hx ▸ hg
    · rw [List.isChain_append]
      refine ⟨hchain, List.isChain_singleton g, ?_⟩
      simpa using hfeeds

/-! ## Netlists with levels -/

section WithLevels

variable {level level' : GateId → Nat}

theorem size_withLevels : (n.withLevels level).gates.size = n.gates.size := by
  simp [withLevels]

theorem drives_withLevels {i : GateId} {s : SignalId} :
    (n.withLevels level).Drives i s ↔ n.Drives i s := by
  simp [Drives, withLevels]

theorem feeds_withLevels : (n.withLevels level).Feeds = n.Feeds := by
  funext d i
  simp only [Feeds, drives_withLevels]
  simp [withLevels]

theorem longestChain_withLevels {g : GateId} {k : Nat} :
    (n.withLevels level).LongestChain g k ↔ n.LongestChain g k := by
  have hchain : ∀ gs, (n.withLevels level).Chain gs ↔ n.Chain gs := by
    intro gs
    constructor
    · rintro ⟨hlt, hfeeds⟩
      exact ⟨size_withLevels ▸ hlt, feeds_withLevels ▸ hfeeds⟩
    · rintro ⟨hlt, hfeeds⟩
      exact ⟨size_withLevels.symm ▸ hlt, feeds_withLevels.symm ▸ hfeeds⟩
  constructor
  · rintro ⟨hattained, hbound⟩
    simp only [hchain] at hattained hbound
    exact ⟨hattained, hbound⟩
  · rintro ⟨hattained, hbound⟩
    simp only [← hchain] at hattained hbound
    exact ⟨hattained, hbound⟩

theorem Numbered.withLevels (hn : n.Numbered) : (n.withLevels level).Numbered where
  signal := hn.signal
  gate {i g} hi := by
    simp only [Netlist.withLevels, Array.getElem?_mapIdx, Option.map_eq_some_iff] at hi
    obtain ⟨g', hg', rfl⟩ := hi
    exact (hn.gate hg' : g'.id = i)

theorem Wellformed.withLevels (hw : n.Wellformed) : (n.withLevels level).Wellformed := by
  have hmem : ∀ g ∈ (n.withLevels level).gates, ∃ g' ∈ n.gates,
      g.in1 = g'.in1 ∧ g.in2 = g'.in2 ∧ g.out = g'.out := by
    intro g hg
    obtain ⟨i, hi, rfl⟩ := Array.mem_mapIdx.1 hg
    exact ⟨n.gates[i], Array.getElem_mem hi, rfl, rfl, rfl⟩
  have houts : (n.withLevels level).gates.toList.map NandGate.out =
      n.gates.toList.map NandGate.out := by
    apply List.ext_getElem?
    intro i
    simp [Netlist.withLevels, Function.comp_def]
  constructor
  case gate_lt =>
    intro g hg
    obtain ⟨g', hg', h1, h2, hout⟩ := hmem g hg
    rw [h1, h2, hout]
    exact hw.gate_lt g' hg'
  case dff_lt => exact hw.dff_lt
  case port_lt => exact hw.port_lt
  case name_lt => exact hw.name_lt
  case clock_lt => exact hw.clock_lt
  case driven_nodup =>
    rw [drivenSignals, houts]
    exact hw.driven_nodup
  case unmarked =>
    intro g hg
    obtain ⟨g', hg', -, -, hout⟩ := hmem g hg
    rw [hout]
    exact hw.unmarked g' hg'

/-- Only the levels of gates matter, and only the last ones given. -/
theorem withLevels_withLevels (h : ∀ g < n.gates.size, level' g = level g) :
    (n.withLevels level).withLevels level' = n.withLevels level := by
  have hgates : ((n.withLevels level).withLevels level').gates = (n.withLevels level).gates := by
    apply Array.ext
    · simp [withLevels]
    · intro i hi hi'
      have hlt : i < n.gates.size := by simpa [withLevels] using hi'
      simp [withLevels, h i hlt]
  simpa [withLevels] using hgates

end WithLevels

end Netlist

/-! ## Levels -/

namespace LevelizedNetlist.Leveled

variable {l l' : LevelizedNetlist} {n : Netlist} {level level' : GateId → Nat}

/-- Levels rise along a chain. -/
theorem chain_le (h : l.Leveled n level) (gs : List GateId) {g : GateId}
    (hchain : n.Chain (gs ++ [g])) : gs.length + 1 ≤ level g := by
  induction gs using List.reverseRecOn generalizing g with
  | nil => exact h.level_pos (hchain.lt g (by simp))
  | append_singleton gs d ih =>
    obtain ⟨hgs, hfeeds, -⟩ := Netlist.chain_append_pair.1 hchain
    have hd := ih hgs
    have hlt := h.level_lt hfeeds
    rw [List.length_append, List.length_singleton]
    omega

/-- Going down from a gate to one right below it takes as many steps as the level says. -/
theorem exists_chain (h : l.Leveled n level) {g : GateId} (hg : g < n.gates.size) :
    ∃ gs, n.Chain (gs ++ [g]) ∧ gs.length + 1 = level g := by
  induction hk : level g using Nat.strongRecOn generalizing g with
  | ind k ih =>
    subst hk
    rcases h.level_eq g hg with heq | ⟨d, hfeeds, heq⟩
    · exact ⟨[], Netlist.Chain.singleton hg, heq.symm⟩
    · obtain ⟨gs, hgs, hlength⟩ := ih (level d) (h.level_lt hfeeds) hfeeds.lt rfl
      refine ⟨gs ++ [d], Netlist.chain_append_pair.2 ⟨hgs, hfeeds, hg⟩, ?_⟩
      rw [List.length_append, List.length_singleton, hlength, heq]

theorem longestChain (h : l.Leveled n level) {g : GateId} (hg : g < n.gates.size) :
    n.LongestChain g (level g) :=
  ⟨h.exists_chain hg, fun gs hgs => h.chain_le gs hgs⟩

/-- No level below that of a gate is empty. -/
theorem exists_level (h : l.Leveled n level) {k : Nat} (hk : 0 < k) {g : GateId}
    (hg : g < n.gates.size) (hle : k ≤ level g) : ∃ e < n.gates.size, level e = k := by
  induction hm : level g using Nat.strongRecOn generalizing g with
  | ind m ih =>
    subst hm
    rcases Nat.eq_or_lt_of_le hle with heq | hlt
    · exact ⟨g, hg, heq.symm⟩
    · rcases h.level_eq g hg with heq | ⟨d, hfeeds, heq⟩
      · omega
      · exact ih (level d) (h.level_lt hfeeds) hfeeds.lt (by omega) rfl

/-- The list of a level. -/
theorem toList_levels (h : l.Leveled n level) {k : Nat} (hk : k < l.levels.size) :
    l.levels[k].toList = Levels.gatesAt level n.gates.size k := by
  have hget := congrArg (·[k]?) h.lists_eq
  have hk' : k < l.depth := hk
  simpa [hk, hk'] using hget

theorem mem_levels (h : l.Leveled n level) {k : Nat} (hk : k < l.levels.size) {g : GateId} :
    g ∈ l.levels[k] ↔ g < n.gates.size ∧ level g = k + 1 := by
  rw [← Array.mem_toList_iff, h.toList_levels hk, Levels.mem_gatesAt]

theorem exists_mem_levels (h : l.Leveled n level) {k : Nat} (hk : k < l.levels.size) :
    ∃ g, g ∈ l.levels[k] := by
  rcases h.depth_eq with hzero | ⟨top, htop, heq⟩
  · have : l.levels.size = 0 := hzero
    omega
  · have hdepth : l.depth = l.levels.size := rfl
    obtain ⟨g, hg, hlevel⟩ := h.exists_level (Nat.succ_pos k) htop (by omega)
    exact ⟨g, (h.mem_levels hk).2 ⟨hg, hlevel⟩⟩

/-- Depth is the largest level. -/
theorem depth_isGreatest (h : l.Leveled n level) (hne : 0 < n.gates.size) :
    IsGreatest {k | ∃ g < n.gates.size, level g = k} l.depth := by
  constructor
  · rcases h.depth_eq with hzero | hdepth
    · have hpos := h.level_pos hne
      have hle := h.level_le 0 hne
      omega
    · exact hdepth
  · rintro k ⟨g, hg, rfl⟩
    exact h.level_le g hg

theorem depth_le (h : l.Leveled n level) {k : Nat} (hle : ∀ g < n.gates.size, level g ≤ k) :
    l.depth ≤ k := by
  rcases h.depth_eq with hzero | ⟨g, hg, heq⟩
  · rw [hzero]
    exact Nat.zero_le k
  · rw [← heq]
    exact hle g hg

/-- The levels of a netlist that has them already are the ones it has. -/
theorem eq_of_withLevels (h : l.Leveled n level) (h' : l'.Leveled (n.withLevels level) level') :
    l' = l := by
  -- Both are lengths of longest chains, and chains do not look at levels.
  have hlevel : ∀ g < n.gates.size, level' g = level g := by
    intro g hg
    have hlongest := h'.longestChain (g := g) (by rwa [Netlist.size_withLevels])
    exact (Netlist.longestChain_withLevels.1 hlongest).unique (h.longestChain hg)
  have hnetlist : l'.netlist = l.netlist := by
    rw [h'.netlist_eq, h.netlist_eq, Netlist.withLevels_withLevels hlevel]
  have hdepth : l'.depth = l.depth := by
    apply Nat.le_antisymm
    · refine h'.depth_le fun g hg => ?_
      rw [Netlist.size_withLevels] at hg
      exact hlevel g hg ▸ h.level_le g hg
    · refine h.depth_le fun g hg => ?_
      exact hlevel g hg ▸ h'.level_le g (by rwa [Netlist.size_withLevels])
  have hlists : l'.levels.toList.map Array.toList = l.levels.toList.map Array.toList := by
    rw [h'.lists_eq, h.lists_eq, hdepth, Netlist.size_withLevels]
    refine List.map_congr_left fun k _ => List.filter_congr fun g hg => ?_
    rw [hlevel g (List.mem_range.1 hg)]
  have hlevels : l'.levels = l.levels :=
    Array.toList_inj.1 (List.map_injective_iff.2 (fun _ _ => Array.toList_inj.1) hlists)
  cases l
  cases l'
  cases hnetlist
  cases hlevels
  rfl

/-- Levels of a netlist with levels are the ones it has. -/
theorem levelize_eq (h : l.Leveled n level) (hn : n.Numbered) (hw : n.Wellformed) :
    levelize l.netlist = .ok l := by
  have hn' : l.netlist.Numbered := h.netlist_eq ▸ hn.withLevels
  have hw' : l.netlist.Wellformed := h.netlist_eq ▸ hw.withLevels
  have hrank : ∀ {g d}, l.netlist.Feeds d g → level d < level g := by
    rw [h.netlist_eq, Netlist.feeds_withLevels]
    exact h.level_lt
  obtain ⟨l', hl'⟩ := levelize_ok hw' hn' hrank
  obtain ⟨-, level', h'⟩ := levelize_leveled hn' hl'
  rw [h.netlist_eq] at h'
  rw [hl', h.eq_of_withLevels h']

end LevelizedNetlist.Leveled

/-- What the netlist `l` with levels is for the netlist `n`: its gates have the levels `level`, and
its lists and its depth are those of these levels. -/
structure LevelizedNetlist.Exact (l : LevelizedNetlist) (n : Netlist) (level : GateId → Nat) :
    Prop where
  /-- Nothing but levels of gates is new. -/
  netlist_eq : l.netlist = n.withLevels level
  longest : ∀ g < n.gates.size, n.LongestChain g (level g)
  lowest : ∀ g < n.gates.size, (∀ d, ¬n.Feeds d g) → level g = 1
  above : ∀ g < n.gates.size, (∃ d, n.Feeds d g) →
    ∃ m, IsGreatest {k | ∃ d, n.Feeds d g ∧ level d = k} m ∧ level g = 1 + m
  mem_list : ∀ k (hk : k < l.levels.size) g,
    g ∈ l.levels[k] ↔ g < n.gates.size ∧ level g = k + 1
  list_increasing : ∀ k (hk : k < l.levels.size), l.levels[k].toList.Pairwise (· < ·)
  list_nonempty : ∀ k (hk : k < l.levels.size), ∃ g, g ∈ l.levels[k]
  list_unique : ∀ g < n.gates.size, ∃! k, ∃ hk : k < l.levels.size, g ∈ l.levels[k]
  depth_zero : n.gates.size = 0 → l.depth = 0
  depth_greatest : 0 < n.gates.size → IsGreatest {k | ∃ g < n.gates.size, level g = k} l.depth

theorem LevelizedNetlist.Leveled.exact {l : LevelizedNetlist} {n : Netlist} {level : GateId → Nat}
    (h : l.Leveled n level) : l.Exact n level := by
  constructor
  case netlist_eq => exact h.netlist_eq
  case longest => exact fun g hg => h.longestChain hg
  case lowest =>
    intro g hg hnone
    rcases h.level_eq g hg with heq | ⟨d, hfeeds, -⟩
    · exact heq
    · exact absurd hfeeds (hnone d)
  case above =>
    rintro g hg ⟨d, hfeeds⟩
    refine ⟨level g - 1, ⟨?_, ?_⟩, ?_⟩
    · rcases h.level_eq g hg with heq | ⟨e, he, heq⟩
      · have hpos := h.level_pos hfeeds.lt
        have hlt := h.level_lt hfeeds
        omega
      · exact ⟨e, he, by omega⟩
    · rintro k ⟨e, he, rfl⟩
      have hlt := h.level_lt he
      exact Nat.le_sub_one_of_lt hlt
    · have hpos := h.level_pos hg
      omega
  case mem_list => exact fun k hk g => h.mem_levels hk
  case list_increasing =>
    intro k hk
    rw [h.toList_levels hk]
    exact List.pairwise_lt_range.filter _
  case list_nonempty => exact fun k hk => h.exists_mem_levels hk
  case list_unique =>
    intro g hg
    have hpos := h.level_pos hg
    have hlt : level g - 1 < l.levels.size := by
      have hle : level g ≤ l.levels.size := h.level_le g hg
      omega
    refine ⟨level g - 1, ⟨hlt, (h.mem_levels hlt).2 ⟨hg, by omega⟩⟩, ?_⟩
    rintro k ⟨hk, hmem⟩
    have hlevel := ((h.mem_levels hk).1 hmem).2
    omega
  case depth_zero =>
    intro hzero
    rcases h.depth_eq with heq | ⟨g, hg, -⟩
    · exact heq
    · omega
  case depth_greatest => exact h.depth_isGreatest

/-- If a netlist gets levels, the level of each gate is the length of the longest chain of gates
that ends in it: 1 for a gate that reads no gate, and 1 more than the largest level of the gates
that it reads otherwise. The list of a level holds exactly the gates of that level by increasing
number, no list is empty, there are as many as the largest level says, and nothing but levels of
gates has changed. Levels of the result are the result again. -/
theorem levelize_exact {n : Netlist} {l : LevelizedNetlist} (hn : n.Numbered)
    (h : levelize n = .ok l) : (∃ level, l.Exact n level) ∧ levelize l.netlist = .ok l := by
  obtain ⟨hw, level, hleveled⟩ := levelize_leveled hn h
  exact ⟨⟨level, hleveled.exact⟩, hleveled.levelize_eq hn hw⟩

/-- Three gates in a row, the last one with the lowest number. The last one also reads the input,
and the middle one reads the first one twice. -/
def staircase : Netlist :=
  (((((((Netlist.empty "staircase").addSignal "a" 0).addSignal "x" 0).addSignal "y" 0).addSignal
    "z" 0).addNand 0 2 3).addNand 1 1 2).addNand 0 0 1

theorem staircase_numbered : staircase.Numbered :=
  (((((((Netlist.Numbered.empty "staircase").addSignal "a" 0).addSignal "x" 0).addSignal "y" 0
    ).addSignal "z" 0).addNand 0 2 3).addNand 1 1 2).addNand 0 0 1

theorem levelize_exact_staircase :
    ∃ l, levelize staircase = .ok l ∧ l.levels = #[#[2], #[1], #[0]] ∧
      (∃ level, l.Exact staircase level) ∧ levelize l.netlist = .ok l := by
  have hlevels : ∃ l, levelize staircase = .ok l ∧ l.levels = #[#[2], #[1], #[0]] :=
    ⟨_, by cbv, by cbv⟩
  obtain ⟨l, hl, hlists⟩ := hlevels
  exact ⟨l, hl, hlists, levelize_exact staircase_numbered hl⟩

end NandHdl
